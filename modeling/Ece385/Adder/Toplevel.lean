import Mathlib.Data.Bool.Basic
import Ece385.Adder.Select
import Ece385.Sync.Run

/-!
# `lab4_adders_toplevel`

The board around the carry-select adder: two operand registers filled from the
switches, and the output register `{CO, Sum}`. The buttons are active low and
not synchronized. The hex displays only show `A` and `B`.

Both the reset and `Run` assign the output register, and the assignment written
last wins: with the two buttons down together the reset clears the operands and
`Run` stores the sum of what they held before. `shows_iff` says when that
leaves a stale sum on the board.
-/

namespace Ece385

namespace Lab4AddersToplevel

/-- The pins sampled in a cycle; the buttons are active low. -/
structure Inputs where
  Reset : Bool
  LoadB : Bool
  Run : Bool
  SW : BitVec 16

/-- No button is pressed. -/
def Inputs.idle (SW : BitVec 16) : Inputs :=
  { Reset := true, LoadB := true, Run := true, SW := SW }

end Lab4AddersToplevel

structure Lab4AddersToplevel where
  A : BitVec 16
  B : BitVec 16
  Sum : BitVec 16
  CO : Bool
deriving DecidableEq

namespace Lab4AddersToplevel

open Clocked

variable (s : Lab4AddersToplevel)

/-- `Sum_comb` and `CO_comb`. -/
def comb : AdderOut := carrySelectAdder s.A s.B

/-- The `always_ff` block. Its last `if` overrides the reset. -/
def next (i : Inputs) : Lab4AddersToplevel where
  A := if !i.Reset then 0 else if !i.LoadB then s.A else i.SW
  B := if !i.Reset then 0 else if !i.LoadB then i.SW else s.B
  Sum := if !i.Run then s.comb.Sum else if !i.Reset then 0 else s.Sum
  CO := if !i.Run then s.comb.CO else if !i.Reset then false else s.CO

/-- The board after `n` clocks. -/
def run (ins : ℕ → Inputs) : ℕ → Lab4AddersToplevel := Clocked.run (fun i s => s.next i) s ins

theorem run_step (ins : ℕ → Inputs) (n : ℕ) : s.run ins (n + 1) = (s.run ins n).next (ins n) := rfl

/-- `{CO, Sum}` as a number. -/
def shown : ℕ := s.Sum.toNat + 65536 * s.CO.toNat

theorem shown_eq_zero : s.shown = 0 ↔ s.Sum = 0 ∧ s.CO = false := by
  have hSum : s.Sum = 0 ↔ s.Sum.toNat = 0 := by
    rw [← BitVec.toNat_inj]
    rfl
  rw [hSum, shown]
  cases s.CO <;> simp

/-! ## One clock -/

section Step

variable (i : Inputs)

theorem next_reset (h : i.Reset = false) : (s.next i).A = 0 ∧ (s.next i).B = 0 := by
  simp [next, h]

theorem next_A (h : i.Reset = true) :
    (s.next i).A = if i.LoadB = false then s.A else i.SW := by
  cases hb : i.LoadB <;> simp [next, h, hb]

theorem next_B (h : i.Reset = true) :
    (s.next i).B = if i.LoadB = false then i.SW else s.B := by
  cases hb : i.LoadB <;> simp [next, h, hb]

/-- `Run` stores the sum, whatever else is pressed. -/
theorem next_shown_run (h : i.Run = false) : (s.next i).shown = s.A.toNat + s.B.toNat := by
  have hSum : (s.next i).shown = s.comb.Sum.toNat + 65536 * s.comb.CO.toNat := by
    simp [next, shown, h]
  rw [hSum]
  exact carrySelectAdder_toNat s.A s.B

theorem next_shown_hold (h : i.Reset = true) (hrun : i.Run = true) :
    (s.next i).shown = s.shown := by
  simp [next, shown, h, hrun]

theorem next_shown_reset (h : i.Reset = false) (hrun : i.Run = true) : (s.next i).shown = 0 := by
  simp [next, shown, h, hrun]

end Step

/-! ## What the board should show -/

/-- The board after `n` clocks, as a function of the clocks since the reset
of clock `r`. -/
structure Shows (ins : ℕ → Inputs) (r n : ℕ) : Prop where
  A_latest : ∀ k, Latest (fun k => (ins k).LoadB = true) (r + 1) n k →
    (s.run ins n).A = (ins k).SW
  A_none : (∀ k, r + 1 ≤ k → k < n → ¬(ins k).LoadB = true) → (s.run ins n).A = 0
  B_latest : ∀ k, Latest (fun k => (ins k).LoadB = false) (r + 1) n k →
    (s.run ins n).B = (ins k).SW
  B_none : (∀ k, r + 1 ≤ k → k < n → ¬(ins k).LoadB = false) → (s.run ins n).B = 0
  sum_latest : ∀ k, Latest (fun k => (ins k).Run = false) (r + 1) n k →
    (s.run ins n).shown = (s.run ins k).A.toNat + (s.run ins k).B.toNat
  sum_none : (∀ k, r + 1 ≤ k → k < n → ¬(ins k).Run = false) →
    (s.run ins n).Sum = 0 ∧ (s.run ins n).CO = false

/-- The last reset before clock `n` is at clock `r`. -/
def LastReset (ins : ℕ → Inputs) (n r : ℕ) : Prop :=
  Latest (fun k => (ins k).Reset = false) 0 n r

variable {s} {ins : ℕ → Inputs} {n r : ℕ}

theorem LastReset.reset_high (h : LastReset ins n r) {k : ℕ} (hr : r + 1 ≤ k) (hn : k < n) :
    (ins k).Reset = true :=
  Bool.eq_true_of_not_eq_false (h.2.2.2 k hr hn)

/-- The operands, and the sum once `Run` has been pressed, are right in any
case; without a press the sum is what the reset clock left. -/
theorem shows_of_shown (h : LastReset ins n r)
    (hsum : (∀ k, r + 1 ≤ k → k < n → ¬(ins k).Run = false) → (s.run ins n).shown = 0) :
    s.Shows ins r n := by
  have hreset := (s.run ins r).next_reset (ins r) h.2.2.1
  have hrn : r + 1 ≤ n := h.2.1
  have holdA : ∀ j, r + 1 ≤ j → j < n → ¬(ins j).LoadB = true →
      (s.run ins (j + 1)).A = (s.run ins j).A := by
    intro j hj hjn hb
    rw [run_step, next_A _ _ (h.reset_high hj hjn), if_pos (Bool.eq_false_of_not_eq_true hb)]
  have holdB : ∀ j, r + 1 ≤ j → j < n → ¬(ins j).LoadB = false →
      (s.run ins (j + 1)).B = (s.run ins j).B := by
    intro j hj hjn hb
    rw [run_step, next_B _ _ (h.reset_high hj hjn), if_neg hb]
  have holdSum : ∀ j, r + 1 ≤ j → j < n → ¬(ins j).Run = false →
      (s.run ins (j + 1)).shown = (s.run ins j).shown := by
    intro j hj hjn hrun
    exact next_shown_hold _ _ (h.reset_high hj hjn) (Bool.eq_true_of_not_eq_false hrun)
  constructor
  case A_latest =>
    intro k hk
    refine hk.loaded (q := fun j => (s.run ins j).A) ?_ holdA
    show (s.run ins (k + 1)).A = _
    rw [run_step, next_A _ _ (h.reset_high hk.1 hk.2.1), if_neg (by rw [hk.2.2.1]; decide)]
  case A_none =>
    intro hnone
    exact (held_of_none (q := fun j => (s.run ins j).A) hrn hnone holdA).trans hreset.1
  case B_latest =>
    intro k hk
    refine hk.loaded (q := fun j => (s.run ins j).B) ?_ holdB
    show (s.run ins (k + 1)).B = _
    rw [run_step, next_B _ _ (h.reset_high hk.1 hk.2.1), if_pos hk.2.2.1]
  case B_none =>
    intro hnone
    exact (held_of_none (q := fun j => (s.run ins j).B) hrn hnone holdB).trans hreset.2
  case sum_latest =>
    intro k hk
    refine hk.loaded (q := fun j => (s.run ins j).shown) ?_ holdSum
    exact next_shown_run _ _ hk.2.2.1
  case sum_none => exact fun hnone => (shown_eq_zero _).mp (hsum hnone)

theorem shown_of_none (h : LastReset ins n r)
    (hnone : ∀ k, r + 1 ≤ k → k < n → ¬(ins k).Run = false) :
    (s.run ins n).shown = (s.run ins (r + 1)).shown := by
  refine held_of_none (q := fun j => (s.run ins j).shown) h.2.1 hnone fun j hj hjn hrun => ?_
  exact next_shown_hold _ _ (h.reset_high hj hjn) (Bool.eq_true_of_not_eq_false hrun)

/-- What the reset clock left in the output register. -/
theorem shown_after_reset (h : (ins r).Reset = false) :
    (s.run ins (r + 1)).shown = 0
      ↔ (ins r).Run = true ∨ (s.run ins r).A = 0 ∧ (s.run ins r).B = 0 := by
  have hzero : ∀ x : BitVec 16, x.toNat = 0 ↔ x = 0 := by
    intro x
    rw [← BitVec.toNat_inj]
    rfl
  rw [run_step]
  cases hrun : (ins r).Run with
  | true => exact iff_of_true (next_shown_reset _ _ h hrun) (Or.inl rfl)
  | false =>
      rw [next_shown_run _ _ hrun, Nat.add_eq_zero_iff, hzero, hzero]
      simp

theorem shows_iff (h : LastReset ins n r) :
    s.Shows ins r n ↔ (∃ k, r < k ∧ k < n ∧ (ins k).Run = false)
      ∨ (ins r).Run = true ∨ (s.run ins r).A = 0 ∧ (s.run ins r).B = 0 := by
  rw [← shown_after_reset h.2.2.1]
  constructor
  · intro hshows
    by_cases hpress : ∃ k, r < k ∧ k < n ∧ (ins k).Run = false
    · exact Or.inl hpress
    · have hnone : ∀ k, r + 1 ≤ k → k < n → ¬(ins k).Run = false :=
        fun k hk hkn hrun => hpress ⟨k, hk, hkn, hrun⟩
      have hzero := (shown_eq_zero _).mpr (hshows.sum_none hnone)
      exact Or.inr ((shown_of_none h hnone).symm.trans hzero)
  · rintro (⟨k, hk, hkn, hrun⟩ | hzero)
    · exact shows_of_shown h fun hnone => absurd hrun (hnone k hk hkn)
    · exact shows_of_shown h fun hnone => (shown_of_none h hnone).trans hzero

/-- **When the board shows only sums taken since the last reset**: at one
clock, and throughout a run. -/
theorem toplevel_shows_iff (s : Lab4AddersToplevel) (ins : ℕ → Inputs) :
    (∀ n r, LastReset ins n r →
      (s.Shows ins r n ↔ (∃ k, r < k ∧ k < n ∧ (ins k).Run = false)
        ∨ (ins r).Run = true ∨ (s.run ins r).A = 0 ∧ (s.run ins r).B = 0))
    ∧ ∀ N, (∀ n r, n ≤ N → LastReset ins n r → s.Shows ins r n)
      ↔ ∀ r, r < N → (ins r).Reset = false → (ins r).Run = false →
        (s.run ins r).A = 0 ∧ (s.run ins r).B = 0 := by
  refine ⟨fun n r h => shows_iff h, fun N => ⟨fun hall r hrN hreset hrun => ?_, ?_⟩⟩
  · have hlast : LastReset ins (r + 1) r :=
      ⟨Nat.zero_le r, Nat.lt_succ_self r, hreset, fun j h h' => by omega⟩
    rcases (shows_iff hlast).mp (hall (r + 1) r hrN hlast) with ⟨k, hk, hkr, -⟩ | hhigh | hzero
    · omega
    · exact absurd (hrun.symm.trans hhigh) Bool.false_ne_true
    · exact hzero
  · intro hzero n r hn h
    refine (shows_iff h).mpr (Or.inr ?_)
    cases hrun : (ins r).Run with
    | true => exact Or.inl rfl
    | false => exact Or.inr (hzero r (Nat.lt_of_lt_of_le h.2.1 hn) h.2.2.1 hrun)

/-- 3 is loaded into `A` and 5 into `B`, and then the reset and `Run` are
pressed together: the board, freshly reset, shows 8. -/
theorem reset_shows_stale_sum :
    let s : Lab4AddersToplevel := ⟨0, 0, 0, false⟩
    let ins : ℕ → Inputs := fun k =>
      match k with
      | 0 => { Inputs.idle 0 with Reset := false }
      | 1 => Inputs.idle 3
      | 2 => { Inputs.idle 5 with LoadB := false }
      | _ => { Inputs.idle 0 with Reset := false, Run := false }
    LastReset ins 4 3 ∧ (s.run ins 4).A = 0 ∧ (s.run ins 4).B = 0 ∧ (s.run ins 4).Sum = 8
      ∧ ¬s.Shows ins 3 4 := by
  intro s ins
  have hlast : LastReset ins 4 3 := ⟨by decide, by decide, rfl, fun j h h' => by omega⟩
  have hSum : (s.run ins 4).Sum = 8 := by decide +kernel
  refine ⟨hlast, rfl, rfl, hSum, fun h => ?_⟩
  have h0 := (h.sum_none fun k hk hk4 => by omega).1
  exact absurd (hSum.symm.trans h0) (by decide)

end Lab4AddersToplevel

end Ece385
