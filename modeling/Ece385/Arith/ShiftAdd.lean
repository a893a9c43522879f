import Mathlib.Algebra.BigOperators.Ring.Finset
import Mathlib.Tactic.Ring

/-!
# Shift-and-add multiplication

The arithmetic of a multiplier that keeps a growing product and a shrinking
multiplier in one register pair. The pair is a signed high part `hi` and a
`w`-bit low part `lo`. A step adds a summand `d` to the high part and shifts
the pair right by one: the bit that leaves the high part enters the low part
from above, and the bit of the multiplier just used is dropped.

After `k` of `w` steps the product of the low `k` bits fills `hi` and the top
`k` bits of `lo` (`Partial`). `Partial.step` is the step, whatever the summand.
What the summands add up to is a separate matter: the weighted bits of the
multiplier, the top one counted negatively, are its signed value
(`toInt_eq_sum_testBit`).
-/

namespace Ece385

namespace ShiftAdd

/-- The register pair after `k` of `w` steps with multiplier `b`, when the
summands so far amount to `P`. -/
structure Partial (w k b : ℕ) (P hi : ℤ) (lo : ℕ) : Prop where
  product : hi * 2 ^ k + (lo / 2 ^ (w - k) : ℕ) = P
  rest : lo % 2 ^ (w - k) = b / 2 ^ k

section Partial

variable {w k b lo lo' e : ℕ} {P hi hi' d : ℤ}

theorem Partial.init (hb : b < 2 ^ w) : Partial w 0 b 0 0 b where
  product := by simp [Nat.div_eq_of_lt hb]
  rest := by simp [Nat.mod_eq_of_lt hb]

/-- The lowest bit of the pair is the next bit of the multiplier. -/
theorem Partial.bit (h : Partial w k b P hi lo) (hk : k < w) :
    lo.testBit 0 = b.testBit k := by
  have hrest := congrArg (fun n => n.testBit 0) h.rest
  simp only [Nat.testBit_mod_two_pow, Nat.testBit_div_two_pow] at hrest
  simpa [Nat.sub_pos_of_lt hk] using hrest

theorem Partial.step (h : Partial w k b P hi lo) (hk : k < w) (hhi : 2 * hi' + e = hi + d)
    (hlo : lo' = e * 2 ^ (w - 1) + lo / 2) :
    Partial w (k + 1) b (P + 2 ^ k * d) hi' lo' := by
  obtain ⟨j, rfl⟩ : ∃ j, w = k + (j + 1) := ⟨w - k - 1, by omega⟩
  have hprod := h.product
  have hrest := h.rest
  have hj : k + (j + 1) - k = j + 1 := by omega
  have hj' : k + (j + 1) - (k + 1) = j := by omega
  have hw : k + (j + 1) - 1 = k + j := by omega
  rw [hj] at hprod hrest
  rw [hw, pow_add, ← mul_assoc] at hlo
  constructor
  · have hdiv : lo' / 2 ^ j = e * 2 ^ k + lo / 2 ^ (j + 1) := by
      rw [hlo, Nat.add_comm, Nat.add_mul_div_right _ _ (Nat.two_pow_pos j), Nat.div_div_eq_div_mul,
        ← Nat.pow_succ', Nat.add_comm]
    rw [hj', hdiv]
    push_cast at hprod ⊢
    calc hi' * 2 ^ (k + 1) + (e * 2 ^ k + (lo : ℤ) / 2 ^ (j + 1))
        = (2 * hi' + e) * 2 ^ k + (lo : ℤ) / 2 ^ (j + 1) := by ring
      _ = (hi + d) * 2 ^ k + (lo : ℤ) / 2 ^ (j + 1) := by rw [hhi]
      _ = P + 2 ^ k * d := by rw [← hprod]; ring
  · have hmod : lo' % 2 ^ j = lo / 2 % 2 ^ j := by
      rw [hlo, Nat.add_comm, Nat.add_mul_mod_self_right]
    rw [hj', hmod, ← Nat.mod_mul_right_div_self, ← Nat.pow_succ', hrest, Nat.div_div_eq_div_mul,
      ← Nat.pow_succ]

theorem Partial.done (h : Partial w w b P hi lo) : hi * 2 ^ w + lo = P := by
  have hprod := h.product
  rwa [Nat.sub_self, Nat.pow_zero, Nat.div_one] at hprod

end Partial

/-- The bits of a number, weighted. -/
theorem sum_testBit (b w : ℕ) :
    ∑ i ∈ Finset.range w, 2 ^ i * (b.testBit i).toNat = b % 2 ^ w := by
  induction w with
  | zero => simp [Nat.mod_one]
  | succ w ih =>
      have hbit : (b.testBit w).toNat = b / 2 ^ w % 2 := by
        rw [Nat.testBit_eq_decide_div_mod_eq]
        rcases Nat.mod_two_eq_zero_or_one (b / 2 ^ w) with h | h <;> rw [h] <;> rfl
      rw [Finset.sum_range_succ, ih, hbit, Nat.pow_succ, Nat.mod_mul]

/-- The bits of a two's complement number: the top one counts negatively. -/
theorem toInt_eq_sum_testBit {w : ℕ} (b : BitVec (w + 1)) :
    b.toInt = ∑ i ∈ Finset.range w, 2 ^ i * ((b.toNat.testBit i).toNat : ℤ)
      - 2 ^ w * ((b.toNat.testBit w).toNat : ℤ) := by
  have hsum := sum_testBit b.toNat (w + 1)
  rw [Finset.sum_range_succ, Nat.mod_eq_of_lt b.isLt] at hsum
  have hmsb : b.msb = b.toNat.testBit w := by
    rw [BitVec.msb_eq_getLsbD_last]
    rfl
  have hcast : (b.toNat : ℤ) = ∑ i ∈ Finset.range w, 2 ^ i * ((b.toNat.testBit i).toNat : ℤ)
      + 2 ^ w * ((b.toNat.testBit w).toNat : ℤ) := by
    have h := congrArg (Nat.cast : ℕ → ℤ) hsum
    push_cast at h
    exact h.symm
  rw [BitVec.toInt_eq_msb_cond, hmsb, hcast]
  cases b.toNat.testBit w
  · simp
  · simp only [if_true, Bool.toNat_true]
    push_cast
    ring

/-- A number with its sign repeated in front. -/
theorem toInt_sign_append {w : ℕ} (a : BitVec w) : (BitVec.ofBool a.msb ++ a).toInt = a.toInt := by
  have happend : (BitVec.ofBool a.msb ++ a).toInt = 2 ^ w * -a.msb.toInt + a.toNat := by
    rw [BitVec.toInt_append, BitVec.toInt_ofBool]
    rfl
  rw [happend, BitVec.toInt_eq_msb_cond]
  cases a.msb
  · simp
  · simp only [Bool.toInt_true, if_true]
    push_cast
    ring

end ShiftAdd

end Ece385
