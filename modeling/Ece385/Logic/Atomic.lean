import Ece385.Logic.Serial
import Ece385.Sync.Run

/-!
# Executions are atomic

Seen from outside, the processor is a machine with four operations: a reset, a
load, one operation on whole words for each press of `Execute`, and the
release of the button. `Atomic` is that machine. It is `armed` while it waits
for a press; an execution disarms it, and only a release or a reset arms it
again.

`opOf` reads the operations off a run, at the cycles in which they are
complete. In the states `A` and `J` the registers are those of the abstract
machine (`refines`); during the shifts it stands still, with the words of the
cycle in which the execution was entered.
-/

namespace Ece385

namespace Processor8

open Clocked

/-! ## The abstract machine -/

inductive Op where
  | reset
  | load (a b : Option (BitVec 8))
  | execute (F : ℕ → BitVec 3) (R : ℕ → BitVec 2)
  | release

structure Atomic where
  words : BitVec 8 × BitVec 8
  armed : Bool

/-- An operation, if the machine is ready for it. -/
def Atomic.apply (s : Atomic) : Op → Option Atomic
  | .reset => some { words := (0, 0), armed := true }
  | .load a b =>
      if s.armed then some { s with words := (a.getD s.words.1, b.getD s.words.2) } else none
  | .execute F R =>
      if s.armed then some { words := Processor8.execute F R s.words, armed := false } else none
  | .release => if s.armed then none else some { s with armed := true }

/-- The abstract machine after `n` cycles, in some of which it does an
operation. -/
def Atomic.run (s : Atomic) (ops : ℕ → Option Op) : ℕ → Option Atomic :=
  Clocked.run (fun o t => t.bind fun a => o.elim (some a) a.apply) (some s) ops

/-! ## The operations of a run -/

def opOf (p : Processor8) (ins : ℕ → Inputs) (n : ℕ) : Option Op :=
  let q := p.run ins n
  if q.Reset_SH then some .reset
  else match q.curr_state with
    | .A => some (.load (if q.LoadA_SH then some q.Din_S else none)
        (if q.LoadB_SH then some q.Din_S else none))
    | .I => some (.execute (fun i => (p.run ins (n - 7 + i)).F_S)
        fun i => (p.run ins (n - 7 + i)).R_S)
    | .J => if q.Execute_SH then none else some .release
    | _ => none

/-- The processor in `A` or `J`, seen from outside. -/
def atomic (p : Processor8) : Atomic where
  words := p.words
  armed := decide (p.curr_state = .A)

variable {p : Processor8} {ins : ℕ → Inputs} {j k n : ℕ}

/-- In `A` or `J` the two machines agree; `k` cycles into an execution the
abstract one has not moved yet. -/
def Follows (p : Processor8) (ins : ℕ → Inputs) (n : ℕ) (s : Atomic) : Prop :=
  ((p.run ins n).curr_state.idle = true ∧ s = (p.run ins n).atomic)
    ∨ ∃ j k, n = j + k ∧ k < 8 ∧ (p.run ins j).curr_state = .B
      ∧ (∀ i, i < k → (p.run ins (j + i)).Reset_SH = false)
      ∧ s = { words := (p.run ins j).words, armed := true }

/-! ## One cycle -/

section Step

theorem ctl_A (h : p.curr_state = .A) :
    p.ctl = { Ld_A := p.LoadA_SH, Ld_B := p.LoadB_SH, Shift_En := false } := by
  rw [ctl, h]
  rfl

theorem ctl_J (h : p.curr_state = .J) :
    p.ctl = { Ld_A := false, Ld_B := false, Shift_En := false } := by
  rw [ctl, h]
  rfl

theorem next_words_A {i : Inputs} (h : p.curr_state = .A) (hr : p.Reset_SH = false) :
    (p.next i).words = (if p.LoadA_SH then p.Din_S else p.A,
      if p.LoadB_SH then p.Din_S else p.B) := by
  rw [next_idle p i (by rw [ctl_A h]) hr, ctl_A h]

theorem next_words_J {i : Inputs} (h : p.curr_state = .J) (hr : p.Reset_SH = false) :
    (p.next i).words = p.words := by
  rw [next_idle p i (by rw [ctl_J h]) hr, ctl_J h]
  rfl

/-- A machine that follows starts an execution after what is loaded in the same
cycle. -/
theorem follows_A (hA : (p.run ins n).curr_state = .A) (hr : (p.run ins n).Reset_SH = false) :
    ∃ s, ((p.opOf ins n).elim (some (p.run ins n).atomic) (p.run ins n).atomic.apply) = some s
      ∧ p.Follows ins (n + 1) s := by
  have hwords := next_words_A (i := ins n) hA hr
  have hstate := next_curr_state _ (ins n) hr
  have hop : (p.opOf ins n).elim (some (p.run ins n).atomic) (p.run ins n).atomic.apply
      = some { words := ((p.run ins n).next (ins n)).words, armed := true } := by
    rw [hwords, opOf]
    simp only [hr, hA, Bool.false_eq_true, if_false, Option.elim, atomic, Atomic.apply,
      decide_true, if_true, words]
    cases (p.run ins n).LoadA_SH <;> cases (p.run ins n).LoadB_SH <;> rfl
  refine ⟨_, hop, ?_⟩
  rw [hA] at hstate
  cases hex : (p.run ins n).Execute_SH <;> rw [hex] at hstate
  · refine Or.inl ⟨by rw [run_step, hstate]; rfl, ?_⟩
    rw [atomic, run_step, hstate]
    rfl
  · exact Or.inr ⟨n + 1, 0, rfl, by decide, hstate, fun i hi => absurd hi (Nat.not_lt_zero i), rfl⟩

theorem follows_J (hJ : (p.run ins n).curr_state = .J) (hr : (p.run ins n).Reset_SH = false) :
    ∃ s, ((p.opOf ins n).elim (some (p.run ins n).atomic) (p.run ins n).atomic.apply) = some s
      ∧ p.Follows ins (n + 1) s := by
  have hwords := next_words_J (i := ins n) hJ hr
  have hstate := next_curr_state _ (ins n) hr
  have hop : (p.opOf ins n).elim (some (p.run ins n).atomic) (p.run ins n).atomic.apply
      = some ((p.run ins n).next (ins n)).atomic := by
    rw [atomic, atomic, hwords, hstate, opOf]
    simp only [hr, hJ]
    cases (p.run ins n).Execute_SH <;> rfl
  refine ⟨_, hop, Or.inl ⟨?_, rfl⟩⟩
  rw [run_step, hstate, hJ]
  cases (p.run ins n).Execute_SH <;> rfl

theorem follows_shift (hk : k < 8) (hB : (p.run ins j).curr_state = .B)
    (hr : ∀ i, i < k + 1 → (p.run ins (j + i)).Reset_SH = false) :
    let a : Atomic := { words := (p.run ins j).words, armed := true }
    ∃ s, ((p.opOf ins (j + k)).elim (some a) a.apply) = some s ∧ p.Follows ins (j + k + 1) s := by
  intro a
  have hstate := (serial_run (k := k) hB (fun i hi => hr i (by omega)) (by omega)).1
  have hrk := hr k (Nat.lt_succ_self k)
  by_cases h7 : k = 7
  · subst h7
    obtain ⟨hJ, hwords⟩ := serial_done hB hr
    have hop : (p.opOf ins (j + 7)).elim (some a) a.apply
        = some { words := p.result ins j, armed := false } := by
      rw [opOf]
      simp only [hrk, hstate, shiftState, Nat.add_sub_cancel]
      rfl
    refine ⟨_, hop, Or.inl ⟨?_, ?_⟩⟩
    · show (p.run ins (j + 8)).curr_state.idle = true
      rw [hJ]
      rfl
    · show _ = (p.run ins (j + 8)).atomic
      rw [atomic, hJ, hwords]
      rfl
  · have hop : p.opOf ins (j + k) = none := by
      have hk7 : k < 7 := by omega
      rw [opOf]
      simp only [hrk, hstate]
      interval_cases k <;> rfl
    refine ⟨a, by rw [hop]; rfl, Or.inr ⟨j, k + 1, rfl, by omega, hB, hr, rfl⟩⟩

theorem follows_reset (hr : (p.run ins n).Reset_SH = true) (s : Atomic) :
    ∃ s', ((p.opOf ins n).elim (some s) s.apply) = some s' ∧ p.Follows ins (n + 1) s' := by
  obtain ⟨hstate, hwords⟩ := next_reset _ (ins n) hr
  have hop : (p.opOf ins n).elim (some s) s.apply
      = some ((p.run ins n).next (ins n)).atomic := by
    rw [atomic, hstate, hwords, opOf]
    simp only [hr]
    rfl
  exact ⟨_, hop, Or.inl ⟨by rw [run_step, hstate]; rfl, rfl⟩⟩

theorem Follows.next {s : Atomic} (h : p.Follows ins n s) :
    ∃ s', ((p.opOf ins n).elim (some s) s.apply) = some s' ∧ p.Follows ins (n + 1) s' := by
  cases hr : (p.run ins n).Reset_SH with
  | true => exact follows_reset hr s
  | false =>
      rcases h with ⟨hidle, rfl⟩ | ⟨j, k, rfl, hk, hB, hnone, rfl⟩
      · cases hs : (p.run ins n).curr_state <;> rw [hs] at hidle <;> simp [State.idle] at hidle
        · exact follows_A hs hr
        · exact follows_J hs hr
      · refine follows_shift hk hB fun i hi => ?_
        rcases Nat.lt_succ_iff_lt_or_eq.mp hi with hlt | rfl
        · exact hnone i hlt
        · exact hr

end Step

/-! ## Whole runs -/

theorem follows_run (h0 : p.curr_state.idle = true) (n : ℕ) :
    ∃ s, p.atomic.run (p.opOf ins) n = some s ∧ p.Follows ins n s := by
  induction n with
  | zero => exact ⟨p.atomic, rfl, Or.inl ⟨h0, rfl⟩⟩
  | succ n ih =>
      obtain ⟨s, hrun, hfollows⟩ := ih
      obtain ⟨s', hop, hfollows'⟩ := hfollows.next
      refine ⟨s', ?_, hfollows'⟩
      rw [Atomic.run] at hrun ⊢
      rw [run_succ, hrun]
      exact hop

/-- Refinement, at the cycles in `A` and `J`. -/
theorem refines (h0 : p.curr_state.idle = true) (hn : (p.run ins n).curr_state.idle = true) :
    p.atomic.run (p.opOf ins) n = some (p.run ins n).atomic := by
  obtain ⟨s, hrun, hfollows⟩ :
      ∃ s, p.atomic.run (p.opOf ins) n = some s ∧ p.Follows ins n s := follows_run h0 n
  rcases hfollows with ⟨-, rfl⟩ | ⟨j, k, rfl, hk, hB, hnone, -⟩
  · exact hrun
  · have hstate := (serial_run hB hnone (by omega)).1
    have hne : ∀ k, k < 8 → (shiftState k).idle = false := by decide
    rw [hstate, hne k hk] at hn
    exact absurd hn Bool.false_ne_true

/-- Behind `B`, up to the release of the button. -/
def State.pressed : State → Bool
  | .A | .B => false
  | _ => true

theorem nextState_pressed : ∀ Execute s, s.pressed = true →
    (nextState Execute s).pressed = false → Execute = false := by
  intro Execute s
  cases s <;> cases Execute <;> decide

theorem execute_low_between (hjk : j < k) (hj : (p.run ins j).curr_state = .B)
    (hk : (p.run ins k).curr_state = .B)
    (hr : ∀ i, j ≤ i → i < k → (p.run ins i).Reset_SH = false) :
    ∃ i, j < i ∧ i < k ∧ (p.run ins i).Execute_SH = false := by
  have hin : (p.run ins (j + 1)).curr_state.pressed = true := by
    rw [run_step, next_curr_state _ _ (hr j (Nat.le_refl j) hjk), hj]
    rfl
  have hout : ¬(p.run ins k).curr_state.pressed = true := by
    rw [hk]
    exact Bool.false_ne_true
  obtain ⟨i, hji, hik, hi, hleft⟩ :=
    exists_exit (P := fun i => (p.run ins i).curr_state.pressed = true) hjk hin hout
  rw [run_step, next_curr_state _ _ (hr i (by omega) hik)] at hleft
  exact ⟨i, hji, hik, nextState_pressed _ _ hi (Bool.eq_false_of_not_eq_true hleft)⟩

theorem B_of_A : ∀ Execute s, nextState Execute s = .B → s = .A := by
  intro Execute s
  cases s <;> cases Execute <;> decide

theorem A_before_B (h : (p.run ins (n + 1)).curr_state = .B) :
    (p.run ins n).curr_state = .A := by
  have hr : (p.run ins n).Reset_SH = false := by
    refine Bool.eq_false_of_not_eq_true fun hr => ?_
    rw [run_step, (next_reset _ (ins n) hr).1] at h
    exact State.noConfusion h
  rw [run_step, next_curr_state _ _ hr] at h
  exact B_of_A _ _ h

/-- How `A` and `B` change in a cycle that does not shift. -/
theorem next_words (hr : (p.run ins n).Reset_SH = false)
    (hs : (p.run ins n).ctl.Shift_En = false) :
    (p.run ins (n + 1)).words
      = (if (p.run ins n).curr_state = .A ∧ (p.run ins n).LoadA_SH = true
          then (p.run ins n).Din_S else (p.run ins n).A,
        if (p.run ins n).curr_state = .A ∧ (p.run ins n).LoadB_SH = true
          then (p.run ins n).Din_S else (p.run ins n).B) := by
  cases hst : (p.run ins n).curr_state
  case A =>
    rw [run_step, next_words_A hst hr]
    simp
  case J =>
    rw [run_step, next_words_J hst hr]
    simp [words]
  all_goals
    rw [ctl, hst] at hs
    exact absurd hs.symm Bool.false_ne_true

/-- One press, one operation, in one run. -/
structure ExecutesOnce (p : Processor8) (ins : ℕ → Inputs) : Prop where
  low_between : ∀ j k, j < k → (p.run ins j).curr_state = .B → (p.run ins k).curr_state = .B →
    (∀ i, j ≤ i → i < k → (p.run ins i).Reset_SH = false) →
    ∃ i, j < i ∧ i < k ∧ (p.run ins i).Execute_SH = false
  eight : ∀ j, (p.run ins j).curr_state = .B →
    (∀ k, k < 8 → (p.run ins (j + k)).Reset_SH = false) →
    (∀ k, k < 8 → (p.run ins (j + k)).ctl.Shift_En = true)
      ∧ (p.run ins (j + 8)).curr_state = .J ∧ (p.run ins (j + 8)).ctl.Shift_En = false
  before : ∀ n, (p.run ins (n + 1)).curr_state = .B →
    (p.run ins n).curr_state = .A ∧ (p.run ins n).ctl.Shift_En = false
  stays : ∀ j n, (∀ i, i < n → (p.run ins (j + i)).curr_state = .J) →
    (∀ i, i < n → (p.run ins (j + i)).Reset_SH = false) →
    (p.run ins (j + n)).words = (p.run ins j).words
  reset : ∀ n, (p.run ins n).Reset_SH = true → (p.run ins (n + 1)).words = (0, 0)
  load : ∀ n, (p.run ins n).Reset_SH = false → (p.run ins n).ctl.Shift_En = false →
    (p.run ins (n + 1)).words
      = (if (p.run ins n).curr_state = .A ∧ (p.run ins n).LoadA_SH = true
          then (p.run ins n).Din_S else (p.run ins n).A,
        if (p.run ins n).curr_state = .A ∧ (p.run ins n).LoadB_SH = true
          then (p.run ins n).Din_S else (p.run ins n).B)
  load_at_start : ∀ n, (p.run ins n).curr_state = .A → (p.run ins n).Reset_SH = false →
    (p.run ins n).Execute_SH = true → (p.run ins (n + 1)).curr_state = .B
      ∧ (p.run ins (n + 1)).words
        = (if (p.run ins n).LoadA_SH then (p.run ins n).Din_S else (p.run ins n).A,
          if (p.run ins n).LoadB_SH then (p.run ins n).Din_S else (p.run ins n).B)
  refines : ∀ m n, (p.run ins m).curr_state.idle = true →
    (p.run ins (m + n)).curr_state.idle = true →
    (p.run ins m).atomic.run ((p.run ins m).opOf (later m ins)) n
      = some (p.run ins (m + n)).atomic

/-- **Exactly one execution for each press.** -/
theorem executes_once (p : Processor8) (ins : ℕ → Inputs) : p.ExecutesOnce ins where
  low_between _ _ hjk hj hk hr := execute_low_between hjk hj hk hr
  eight j hj hr := by
    have hJ := (serial_done hj hr).1
    refine ⟨fun k hk => ?_, hJ, by rw [ctl_J hJ]⟩
    rw [ctl, (serial_run hj (fun i hi => hr i (by omega)) (Nat.le_of_lt hk)).1]
    exact (shiftState_succ k hk).2 _ _
  before n h := by
    have hA := A_before_B h
    exact ⟨hA, by rw [ctl_A hA]⟩
  stays j n hJ hr := by
    induction n with
    | zero => rfl
    | succ n ih =>
        have hn := next_words_J (i := ins (j + n)) (hJ n (Nat.lt_succ_self n))
          (hr n (Nat.lt_succ_self n))
        exact hn.trans (ih (fun i hi => hJ i (by omega)) fun i hi => hr i (by omega))
  reset n hr := (next_reset _ (ins n) hr).2
  load _ hr hs := next_words hr hs
  load_at_start n hA hr hex := by
    refine ⟨?_, next_words_A hA hr⟩
    rw [run_step, next_curr_state _ _ hr, hA, hex]
    rfl
  refines m n hm hn := by
    have hrun : p.run ins (m + n) = (p.run ins m).run (later m ins) n := run_add m n
    rw [hrun] at hn ⊢
    exact Processor8.refines hm hn

end Processor8

end Ece385
