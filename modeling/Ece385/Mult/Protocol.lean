import Ece385.Mult.Chain

/-!
# The buttons of the multiplier

What a user of the board relies on, whatever the waveforms of `Run`,
`ClearA_LoadB` and the switches: one press of `Run` is one multiplication of
sixteen cycles, the result stays in `R` and `S` until the next press, only
state `A` listens to the switches for `B`, and a reset in any cycle makes the
next multiplication start afresh.

Each part is a fact about `nextState`, or about one clock edge, and one of the
rules for runs: what is left is left at some moment (`exists_exit`), and what a
step keeps stays.
-/

namespace Ece385

namespace BitMultiplier

open Clocked

/-- From behind `B` up to the wait for the button to come up. -/
def State.working : State → Bool
  | .A | .B | .S | .T => false
  | _ => true

theorem nextState_working : ∀ Run s, s.working = true → (nextState Run s).working = false →
    Run = false := by
  intro Run s
  cases s <;> cases Run <;> decide

theorem nextState_waiting : ∀ Run s, s.waiting = true → nextState Run s ≠ .T →
    (nextState Run s).waiting = true := by
  intro Run s
  cases s <;> cases Run <;> decide

theorem nextState_eq_B : ∀ Run s, nextState Run s = .B → s = .A ∨ s = .T := by
  intro Run s
  cases s <;> cases Run <;> decide

section Step

variable (m : BitMultiplier) (i : Inputs)

theorem next_curr_state (hr : m.Reset_SH = false) :
    (m.next i).curr_state = nextState m.Run_SH m.curr_state := by
  rw [next, hr]
  rfl

theorem next_reset (hr : m.Reset_SH = true) :
    (m.next i).curr_state = .A ∧ (m.next i).B = 0 := by
  simp [next, reg8Next, hr]

theorem Clr_XA_of_next_B (h : (m.next i).curr_state = .B) : m.ctl.Clr_XA = true := by
  have hr : m.Reset_SH = false := by
    refine Bool.eq_false_of_not_eq_true fun hr => ?_
    rw [(m.next_reset i hr).1] at h
    exact State.noConfusion h
  rw [m.next_curr_state i hr] at h
  unfold ctl
  rcases nextState_eq_B _ _ h with hs | hs <;> rw [hs] <;> rfl

theorem xtoA_waiting (h : m.curr_state.waiting = true) : m.xtoA = m.reg_X :=
  m.xtoA_of_not_clr (by rw [m.ctl_waiting h])

theorem Ld_B_of_A (h : m.ctl.Ld_B = true) : m.curr_state = .A := by
  unfold ctl at h
  cases hs : m.curr_state <;> rw [hs] at h
  all_goals exact absurd h Bool.false_ne_true

/-- Outside `A` the switches do not reach `B`. -/
theorem next_B (h : m.curr_state ≠ .A) : (m.next i).B = if m.Reset_SH then 0
    else if m.ctl.Shift_En then BitVec.ofBool (m.A.getLsbD 0) ++ m.B.extractLsb' 1 7
    else m.B := by
  have hld : m.ctl.Ld_B = false := Bool.eq_false_of_not_eq_true fun hld => h (m.Ld_B_of_A hld)
  simp [next, reg8Next, hld]

end Step

section Run

variable {m : BitMultiplier} {ins : ℕ → Inputs} {j k n : ℕ}

theorem run_low_between (hjk : j < k) (hj : (m.run ins j).curr_state = .B)
    (hk : (m.run ins k).curr_state = .B)
    (hr : ∀ i, j ≤ i → i < k → (m.run ins i).Reset_SH = false) :
    ∃ i, j < i ∧ i < k ∧ (m.run ins i).Run_SH = false := by
  have hin : (m.run ins (j + 1)).curr_state.working = true := by
    rw [run_step, next_curr_state _ _ (hr j (Nat.le_refl j) hjk), hj]
    rfl
  have hout : ¬(m.run ins k).curr_state.working = true := by
    rw [hk]
    exact Bool.false_ne_true
  obtain ⟨i, hji, hik, hi, hleft⟩ :=
    exists_exit (P := fun i => (m.run ins i).curr_state.working = true) hjk hin hout
  rw [run_step, next_curr_state _ _ (hr i (by omega) hik)] at hleft
  exact ⟨i, hji, hik, nextState_working _ _ hi (Bool.eq_false_of_not_eq_true hleft)⟩

/-- A held button starts one multiplication, if the machine is ready for it. -/
theorem held_once (hjk : j + 2 ≤ k)
    (hheld : ∀ i, j ≤ i → i ≤ k → (m.run ins i).Run_SH = true ∧ (m.run ins i).Reset_SH = false)
    (hj : (m.run ins j).curr_state = .A ∨ (m.run ins j).curr_state = .S) :
    ∃ i, j ≤ i ∧ i ≤ k ∧ (m.run ins i).curr_state = .B
      ∧ ∀ i', j ≤ i' → i' ≤ k → (m.run ins i').curr_state = .B → i' = i := by
  have hstate : ∀ i, j ≤ i → i ≤ k →
      (m.run ins (i + 1)).curr_state = nextState true (m.run ins i).curr_state := by
    intro i hji hik
    obtain ⟨hrun, hr⟩ := hheld i hji hik
    rw [run_step, next_curr_state _ _ hr, hrun]
  have hnot : ∀ i i', j ≤ i → i' ≤ k → (m.run ins i).curr_state = .B →
      (m.run ins i').curr_state = .B → ¬i < i' := by
    intro i i' hji hik hi hi' hlt
    obtain ⟨l, hil, hli, hlow⟩ := run_low_between hlt hi hi'
      fun l hl hl' => (hheld l (by omega) (by omega)).2
    rw [(hheld l (by omega) (by omega)).1] at hlow
    exact Bool.noConfusion hlow
  obtain ⟨i, hji, hik, hB⟩ : ∃ i, j ≤ i ∧ i ≤ k ∧ (m.run ins i).curr_state = .B := by
    rcases hj with hA | hS
    · refine ⟨j + 1, by omega, by omega, ?_⟩
      rw [hstate j (Nat.le_refl j) (by omega), hA]
      rfl
    · refine ⟨j + 2, by omega, hjk, ?_⟩
      rw [hstate (j + 1) (by omega) (by omega), hstate j (Nat.le_refl j) (by omega), hS]
      rfl
  refine ⟨i, hji, hik, hB, fun i' hji' hik' hB' => ?_⟩
  exact Nat.le_antisymm (Nat.le_of_not_lt (hnot i i' hji hik' hB hB'))
    (Nat.le_of_not_lt (hnot i' i hji' hik hB' hB))

/-- The add states, two cycles apart. -/
theorem addState_run (hj : (m.run ins j).curr_state = .B)
    (hr : ∀ k, k < 16 → (m.run ins (j + k)).Reset_SH = false) (hk : k ≤ 8) :
    (m.run ins (j + 2 * k)).curr_state = addState k := by
  induction k with
  | zero => exact hj
  | succ k ih =>
      obtain ⟨-, -, -, hnext⟩ := addState_isAdd k (by omega)
      have hr' : (m.run ins (j + 2 * k + 1)).Reset_SH = false := hr (2 * k + 1) (by omega)
      show (m.run ins (j + 2 * k + 1 + 1)).curr_state = _
      rw [run_step, next_curr_state _ _ hr', run_step, next_curr_state _ _ (hr (2 * k) (by omega)),
        ih (by omega), hnext]

/-- Eight additions, each followed by a shift. -/
theorem add_shift_run (hj : (m.run ins j).curr_state = .B)
    (hr : ∀ k, k < 16 → (m.run ins (j + k)).Reset_SH = false) (hk : k < 8) :
    ((m.run ins (j + 2 * k)).ctl.Add = true ∧ (m.run ins (j + 2 * k)).ctl.Shift_En = false)
      ∧ (m.run ins (j + (2 * k + 1))).ctl.Add = false
      ∧ (m.run ins (j + (2 * k + 1))).ctl.Shift_En = true := by
  obtain ⟨hadd, -, hshift, -⟩ := addState_isAdd k hk
  have hstate := addState_run hj hr (Nat.le_of_lt hk)
  have hnext : (m.run ins (j + 2 * k + 1)).curr_state.isShift = true := by
    rw [run_step, next_curr_state _ _ (hr (2 * k) (by omega)), hstate]
    exact hshift _
  have hhere : (m.run ins (j + 2 * k)).curr_state.isAdd = true := by
    rw [hstate]
    exact hadd
  obtain ⟨-, -, hen, hAdd⟩ := ctl_of_isAdd _ hhere
  refine ⟨⟨hAdd, hen⟩, ?_⟩
  rw [← Nat.add_assoc, ctl_of_isShift _ hnext]
  exact ⟨rfl, rfl⟩

/-- The result stays until the next multiplication clears it. -/
theorem result_stays (hj : (m.run ins j).curr_state = .R)
    (hr : ∀ i, i < n → (m.run ins (j + i)).Reset_SH = false)
    (hT : ∀ i, i ≤ n → (m.run ins (j + i)).curr_state ≠ .T) :
    (m.run ins (j + n)).curr_state.waiting = true
      ∧ (m.run ins (j + n)).reg_X = (m.run ins j).reg_X
      ∧ (m.run ins (j + n)).A = (m.run ins j).A ∧ (m.run ins (j + n)).B = (m.run ins j).B := by
  induction n with
  | zero => exact ⟨by rw [Nat.add_zero, hj]; rfl, rfl, rfl, rfl⟩
  | succ n ih =>
      obtain ⟨hw, hX, hA, hB⟩ := ih (fun i hi => hr i (by omega)) fun i hi => hT i (by omega)
      have hrn := hr n (Nat.lt_succ_self n)
      have hTn := hT (n + 1) (Nat.le_refl _)
      obtain ⟨hX', hA', hB'⟩ := (m.run ins (j + n)).next_waiting (ins (j + n)) hw hrn
      rw [← Nat.add_assoc, run_step, next_curr_state _ _ hrn] at hTn
      rw [← Nat.add_assoc, run_step, next_curr_state _ _ hrn]
      exact ⟨nextState_waiting _ _ hw hTn, hX'.trans hX, hA'.trans hA, hB'.trans hB⟩

theorem starts_clear (hB : (m.run ins (n + 1)).curr_state = .B) :
    (m.run ins (n + 1)).xtoA = false ∧ (m.run ins (n + 1)).A = 0 := by
  obtain ⟨hX, hA⟩ := (m.run ins n).next_cleared (ins n) (Clr_XA_of_next_B _ _ hB)
  refine ⟨?_, hA⟩
  rw [xtoA_of_not_clr _ (ctl_of_isAdd _ (by rw [hB]; rfl)).1]
  exact hX

end Run

/-- What the buttons do, in one run. -/
structure ButtonProtocol (m : BitMultiplier) (ins : ℕ → Inputs) : Prop where
  low_between : ∀ j k, j < k → (m.run ins j).curr_state = .B → (m.run ins k).curr_state = .B →
    (∀ i, j ≤ i → i < k → (m.run ins i).Reset_SH = false) →
    ∃ i, j < i ∧ i < k ∧ (m.run ins i).Run_SH = false
  held : ∀ j k, j + 2 ≤ k →
    (∀ i, j ≤ i → i ≤ k → (m.run ins i).Run_SH = true ∧ (m.run ins i).Reset_SH = false) →
    ((m.run ins j).curr_state = .A ∨ (m.run ins j).curr_state = .S) →
    ∃ i, j ≤ i ∧ i ≤ k ∧ (m.run ins i).curr_state = .B
      ∧ ∀ i', j ≤ i' → i' ≤ k → (m.run ins i').curr_state = .B → i' = i
  alternate : ∀ j, (m.run ins j).curr_state = .B →
    (∀ k, k < 16 → (m.run ins (j + k)).Reset_SH = false) →
    (∀ k, k < 8 →
      ((m.run ins (j + 2 * k)).ctl.Add = true ∧ (m.run ins (j + 2 * k)).ctl.Shift_En = false)
        ∧ (m.run ins (j + (2 * k + 1))).ctl.Add = false
        ∧ (m.run ins (j + (2 * k + 1))).ctl.Shift_En = true)
      ∧ (m.run ins (j + 16)).curr_state = .R
  stays : ∀ j n, (m.run ins j).curr_state = .R →
    (∀ i, i < n → (m.run ins (j + i)).Reset_SH = false) →
    (∀ i, i ≤ n → (m.run ins (j + i)).curr_state ≠ .T) →
    ((m.run ins (j + n)).xtoA = (m.run ins j).xtoA ∧ (m.run ins (j + n)).A = (m.run ins j).A
        ∧ (m.run ins (j + n)).B = (m.run ins j).B)
      ∧ (m.run ins (j + n)).ctl.Add = false ∧ (m.run ins (j + n)).ctl.Shift_En = false
  load_in_A : ∀ n, (m.run ins n).ctl.Ld_B = true → (m.run ins n).curr_state = .A
  no_load : ∀ n, (m.run ins n).curr_state ≠ .A →
    (m.run ins (n + 1)).B = if (m.run ins n).Reset_SH then 0
      else if (m.run ins n).ctl.Shift_En then
        BitVec.ofBool ((m.run ins n).A.getLsbD 0) ++ (m.run ins n).B.extractLsb' 1 7
      else (m.run ins n).B
  fresh : ∀ n, (ins n).Reset = false → (m.run ins (n + 2)).curr_state = .A
    ∧ ∀ k, n + 2 ≤ k → (m.run ins k).curr_state = .B →
      (m.run ins k).xtoA = false ∧ (m.run ins k).A = 0

theorem button_protocol (m : BitMultiplier) (ins : ℕ → Inputs) : m.ButtonProtocol ins where
  low_between _ _ hjk hj hk hr := run_low_between hjk hj hk hr
  held _ _ hjk hheld hj := held_once hjk hheld hj
  alternate _ hj hr := ⟨fun _ hk => add_shift_run hj hr hk, addState_run hj hr (Nat.le_refl 8)⟩
  stays j n hj hr hT := by
    obtain ⟨hw, hX, hA, hB⟩ := result_stays hj hr hT
    have hR : (m.run ins j).curr_state.waiting = true := by
      rw [hj]
      rfl
    rw [xtoA_waiting _ hw, xtoA_waiting _ hR, ctl_waiting _ hw]
    exact ⟨⟨hX, hA, hB⟩, rfl, rfl⟩
  load_in_A _ h := Ld_B_of_A _ h
  no_load _ h := next_B _ _ h
  fresh n hn := by
    have hr : (m.run ins (n + 1)).Reset_SH = true := by
      show (!(ins n).Reset) = true
      rw [hn]
      rfl
    refine ⟨(next_reset _ (ins (n + 1)) hr).1, fun k hk hB => ?_⟩
    obtain ⟨k, rfl⟩ : ∃ l, k = l + 1 := ⟨k - 1, by omega⟩
    exact starts_clear hB

end BitMultiplier

end Ece385
