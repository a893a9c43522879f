import Mathlib.Data.Nat.Count
import Ece385.Slc3.Isa

/-!
# `PAUSE` and the `Continue` button

A pause waits in `PauseIR1` for the button to go down and in `PauseIR2` for it
to come up again. The button is sampled every cycle and a person is slow: one
press lasts through many instructions. Counting is what rules out that it
releases two pauses. A machine about to leave `PauseIR2` has seen the button
come up during this pause, so completed pauses never outnumber completed
presses (`pauses_le_presses`).

The other two facts are about what moves: in a pause nothing but the LEDs
(`held_of_isPause`), outside a pause everything but the LEDs (`led_of_pause`).
-/

namespace Ece385

open Isdu (State)
open Clocked

namespace Isdu

/-- The two ways into `PauseIR2` have the button down. -/
theorem of_nextState_eq_PauseIR2 (Run Continue BEN : Bool) (op : BitVec 4) (q : State)
    (h : nextState Run Continue BEN op q = .PauseIR2) : Continue = true := by
  by_cases hq : q = .S_32
  · have hdecode : ∀ op, decode op ≠ .PauseIR2 := by decide
    subst hq
    exact absurd h (hdecode op)
  · rw [nextState_congr _ _ _ op 0 hq] at h
    revert Run Continue BEN
    cases q <;> decide

/-- A pause goes on or is entered from the decode. -/
theorem isPause_nextState (Run Continue BEN : Bool) (op : BitVec 4) (q : State)
    (h : (nextState Run Continue BEN op q).isPause = true) :
    q.isPause = true ∨ q = .S_32 ∧ nextState Run Continue BEN op q = .PauseIR1 := by
  refine nextState_rel
    (P := fun q q' => q'.isPause = true → q.isPause = true ∨ q = .S_32 ∧ q' = .PauseIR1)
    (by decide) ?_ Run Continue BEN op q h
  intro q
  cases q <;> decide

end Isdu

namespace System

variable {μ : Type*} {M : ExternalMemory μ} {s : System μ} {cs : ℕ → Cycle}

theorem State_run_succ (hr : s.Reset_s = true) (hcs : NoReset cs) (n : ℕ) :
    (s.run M cs (n + 1)).State
      = Isdu.nextState (s.run M cs n).runAh (s.run M cs n).continueAh (s.run M cs n).BEN
          (Instr.opcode (s.run M cs n).IR) (s.run M cs n).State := by
  rw [run_step, step_State, Slc3.resetAh, run_Reset_s hr (hcs.before n)]
  rfl

/-! ## Presses and pauses -/

/-- A pause ends with cycle `k`. -/
def Completes (t : ℕ → System μ) (k : ℕ) : Prop :=
  (t k).State = .PauseIR2 ∧ (t (k + 1)).State = .S_18

/-- A press ends with cycle `k`: the synchronized button goes from high to
low. -/
def Releases (t : ℕ → System μ) (k : ℕ) : Prop :=
  (t k).continueAh = true ∧ (t (k + 1)).continueAh = false

/-- A `PAUSE` is decoded in cycle `k`. -/
def Enters (t : ℕ → System μ) (k : ℕ) : Prop :=
  (t k).State = .S_32 ∧ (t (k + 1)).State = .PauseIR1

instance (t : ℕ → System μ) : DecidablePred (Completes t) :=
  fun _ => inferInstanceAs (Decidable (_ ∧ _))

instance (t : ℕ → System μ) : DecidablePred (Releases t) :=
  fun _ => inferInstanceAs (Decidable (_ ∧ _))

/-- The machine is about to leave a pause. -/
def Leaving (q : System μ) : Prop := q.State = .PauseIR2 ∧ q.continueAh = false

theorem pauses_le_presses (hs : s.State = .Halted) (hr : s.Reset_s = true) (hcs : NoReset cs)
    (n : ℕ) :
    Nat.count (Completes (s.run M cs)) n ≤ Nat.count (Releases (s.run M cs)) n := by
  -- While the machine is leaving a pause, a press is in hand.
  suffices h : Nat.count (Completes (s.run M cs)) n ≤ Nat.count (Releases (s.run M cs)) n
      ∧ (Leaving (s.run M cs n) →
        Nat.count (Completes (s.run M cs)) n < Nat.count (Releases (s.run M cs)) n) from h.1
  induction n with
  | zero =>
      refine ⟨Nat.le_refl _, fun hleave => ?_⟩
      exact absurd (hs.symm.trans hleave.1) (by decide)
  | succ n ih =>
      obtain ⟨hle, hlt⟩ := ih
      have hState := State_run_succ (M := M) hr hcs n
      rw [Nat.count_succ, Nat.count_succ]
      by_cases hleave : Leaving (s.run M cs n)
      · have h18 : (s.run M cs (n + 1)).State = .S_18 := by
          rw [hState, hleave.1, hleave.2]
          rfl
        have hstay : ¬Leaving (s.run M cs (n + 1)) := fun h =>
          absurd (h18.symm.trans h.1) (by decide)
        have hlt' := hlt hleave
        exact ⟨by split <;> omega, fun h => absurd h hstay⟩
      · have hcomp : ¬Completes (s.run M cs) n := by
          rintro ⟨h2, h18⟩
          refine hleave ⟨h2, ?_⟩
          rw [hState, h2] at h18
          cases hc : (s.run M cs n).continueAh with
          | false => rfl
          | true => rw [hc] at h18; exact absurd h18 (by simp [Isdu.nextState])
        rw [if_neg hcomp]
        refine ⟨by omega, fun h => ?_⟩
        have hdown : (s.run M cs n).continueAh = true :=
          Isdu.of_nextState_eq_PauseIR2 _ _ _ _ _ (hState.symm.trans h.1)
        have hrel : Releases (s.run M cs) n := ⟨hdown, h.2⟩
        rw [if_pos hrel]
        omega

/-! ## What a pause holds, and what the LEDs hold -/

theorem held_of_isPause (hr : s.Reset_s = true) (hcs : NoReset cs) (k n : ℕ)
    (hp : ∀ j, j < n → (s.run M cs (k + j)).State.isPause = true) :
    (s.run M cs (k + n)).held = (s.run M cs k).held := by
  have hrk : (s.run M cs k).Reset_s = true := run_Reset_s hr (hcs.before k)
  have h := run_of_isPause (M := M) hrk (hcs.later k) n fun j hj => by
    rw [← run_later]
    exact hp j hj
  rw [run_later]
  exact h.1

theorem step_LED (q : System μ) (c : Cycle) (hr : q.Reset_s = true) :
    (q.step M c).LED = if q.State.isPause then q.IR.extractLsb' 0 12 else q.LED := by
  have h := congrArg (fun p : Slc3 => p.LED) (q.step_toSlc3 M c hr)
  refine h.trans ?_
  cases hs : q.State <;> simp [Slc3.latch, Slc3.transfer, State.isPause, hs]

/-- The LEDs show the last `PAUSE`. A pause decoded in cycle `k` has its word
in `IR` in the next one, shows it from the one after that on, and the next
pause that could change it is decoded after `k`. -/
theorem led_of_pause (hr : s.Reset_s = true) (hcs : NoReset cs) {k n : ℕ}
    (henter : Enters (s.run M cs) k) (hn : k + 2 ≤ n)
    (hlast : ∀ j, k < j → j + 1 < n → ¬Enters (s.run M cs) j) :
    (s.run M cs n).LED = (s.run M cs (k + 1)).IR.extractLsb' 0 12 := by
  have hIR : ∀ j, (s.run M cs j).State.isPause = true →
      (s.run M cs (j + 1)).IR = (s.run M cs j).IR := fun j hj => by
    have hheld := held_of_isPause (M := M) hr hcs j 1 fun i hi => by
      rwa [Nat.lt_one_iff.mp hi]
    exact congrArg (fun h => h.2.1) hheld
  have hled : ∀ j, (s.run M cs (j + 1)).LED = _ := fun j =>
    step_LED (M := M) (s.run M cs j) (cs j) (run_Reset_s hr (hcs.before j))
  have hp1 : (s.run M cs (k + 1)).State.isPause = true := by
    rw [henter.2]
    rfl
  -- Up to `n`, a pause under way is still the one of cycle `k`.
  suffices h : ∀ m, k + 2 + m ≤ n →
      (s.run M cs (k + 2 + m)).LED = (s.run M cs (k + 1)).IR.extractLsb' 0 12
      ∧ (k + 2 + m < n → (s.run M cs (k + 2 + m)).State.isPause = true →
        (s.run M cs (k + 2 + m)).IR = (s.run M cs (k + 1)).IR) by
    obtain ⟨m, rfl⟩ : ∃ m, n = k + 2 + m := ⟨n - (k + 2), by omega⟩
    exact (h m (Nat.le_refl _)).1
  intro m
  induction m with
  | zero =>
      intro _
      exact ⟨(hled (k + 1)).trans (if_pos hp1), fun _ _ => hIR (k + 1) hp1⟩
  | succ m ih =>
      intro hm
      obtain ⟨hLED, hcur⟩ := ih (by omega)
      have hlt : k + 2 + m < n := by omega
      by_cases hp : (s.run M cs (k + 2 + m)).State.isPause = true
      · refine ⟨(hled (k + 2 + m)).trans ?_, fun _ _ => (hIR _ hp).trans (hcur hlt hp)⟩
        rw [if_pos hp, hcur hlt hp]
      · refine ⟨(hled (k + 2 + m)).trans ((if_neg hp).trans hLED), fun hlt' hp' => ?_⟩
        have hState := State_run_succ (M := M) hr hcs (k + 2 + m)
        rw [← Nat.add_assoc, hState] at hp'
        rcases Isdu.isPause_nextState _ _ _ _ _ hp' with h | ⟨h32, h1⟩
        · exact absurd h hp
        · exact absurd ⟨h32, hState.trans h1⟩ (hlast (k + 2 + m) (by omega) (by omega))

/-- **One press, one pause.** -/
theorem pause_contract (hs : s.State = .Halted) (hr : s.Reset_s = true) (hcs : NoReset cs) :
    (∀ n, Nat.count (Completes (s.run M cs)) n ≤ Nat.count (Releases (s.run M cs)) n)
    ∧ (∀ k n, (∀ j, j < n → (s.run M cs (k + j)).State.isPause = true) →
      (s.run M cs (k + n)).held = (s.run M cs k).held)
    ∧ (∀ k n, Enters (s.run M cs) k → k + 2 ≤ n →
      (∀ j, k < j → j + 1 < n → ¬Enters (s.run M cs) j) →
      Instr.opcode (s.run M cs (k + 1)).IR = SLC3_2.op_PSE
        ∧ (s.run M cs n).LED = (s.run M cs (k + 1)).IR.extractLsb' 0 12) := by
  refine ⟨pauses_le_presses hs hr hcs, held_of_isPause hr hcs, fun k n henter hn hlast => ?_⟩
  refine ⟨?_, led_of_pause hr hcs henter hn hlast⟩
  have hrun := run_toSlc3 M s cs k (run_Reset_s hr (hcs.before k))
  have h1 := State_run_succ (M := M) hr hcs k
  rw [henter.1, henter.2] at h1
  have hIR : (s.run M cs (k + 1)).IR = (s.run M cs k).IR := by
    simp [hrun, Slc3.latch, Slc3.transfer, henter.1]
  rw [hIR]
  exact (decode_eq_pause _).mp h1.symm

/-- `PSE 3FF` of the menu program, started at word 94, with `Continue` pressed for one
cycle: the LEDs keep the checkpoint while the next instruction is fetched. -/
theorem pause_contract_menu :
    let s : TopLevelForTestMemory := { cleared TestMemory.initial with PC := 94 }
    let cs : ℕ → Cycle := fun k => { Cycle.start 0 k with Continue := k != 8 }
    Nat.count (Completes (s.run testMemory cs)) 16
        ≤ Nat.count (Releases (s.run testMemory cs)) 16
      ∧ (s.run testMemory cs 10).held = (s.run testMemory cs 8).held
      ∧ (s.run testMemory cs 16).LED = 0x3FF := by
  intro s cs
  obtain ⟨hcount, hheld, hled⟩ := pause_contract (M := testMemory) (show s.State = .Halted from rfl)
    rfl (fun _ => rfl : NoReset cs)
  have hpause : ∀ j < 2, (s.run testMemory cs (8 + j)).State.isPause = true := by
    decide +kernel
  have henter : Enters (s.run testMemory cs) 7 := ⟨by decide +kernel, by decide +kernel⟩
  have hno : ∀ i < 7, (s.run testMemory cs (8 + i)).State ≠ .S_32 := by
    decide +kernel
  have hLED := (hled 7 16 henter (by decide) fun j hlo hhi henter' => by
    obtain ⟨i, rfl⟩ := Nat.exists_eq_add_of_le (show 8 ≤ j from hlo)
    exact hno i (by omega) henter'.1).2
  have hIR : (s.run testMemory cs 8).IR.extractLsb' 0 12 = 0x3FF#12 := by decide +kernel
  exact ⟨hcount 16, hheld 8 2 hpause, hLED.trans hIR⟩

end System

end Ece385
