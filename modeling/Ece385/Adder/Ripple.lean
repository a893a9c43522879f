import Mathlib.Algebra.Group.Nat.Defs

/-!
# The ripple adder

`full_adder`, and a chain of them: `ripple_adder` has one instance per bit,
instance `i` fed with bit `i` of both operands and the carry of instance
`i - 1`. The chain is written once for every width: the multiplier has it at
9 bits, the adder lab at 16, and as `full_adder_4` at 4. It is the library's
bit-serial addition (`BitVec.adc`) with the gates of the source in each cell.
-/

namespace Ece385

/-- `full_adder`: the carry `c` and the sum bit `s`. -/
def fullAdder (x y z : Bool) : Bool × Bool :=
  ((x && y) || (y && z) || (x && z), (x ^^ y) ^^ z)

/-- `ripple_adder`: `CO` and `Sum`. -/
def rippleAdder {w : Nat} (A B : BitVec w) (c_in : Bool) : Bool × BitVec w :=
  BitVec.iunfoldr (fun (i : Fin w) c => fullAdder (A.getLsbD i) (B.getLsbD i) c) c_in

theorem fullAdder_eq_adcb : ∀ x y z : Bool, fullAdder x y z = BitVec.adcb x y z := by
  decide

theorem rippleAdder_eq {w : Nat} (A B : BitVec w) (c_in : Bool) :
    rippleAdder A B c_in
      = (BitVec.carry w A B c_in, A + B + BitVec.setWidth w (BitVec.ofBool c_in)) := by
  have hcell : (fun (i : Fin w) c => fullAdder (A.getLsbD i) (B.getLsbD i) c)
      = fun (i : Fin w) c => BitVec.adcb (A.getLsbD i) (B.getLsbD i) c := by
    funext i c
    exact fullAdder_eq_adcb _ _ _
  rw [rippleAdder, hcell]
  exact BitVec.adc_spec A B c_in

theorem rippleAdder_sum {w : Nat} (A B : BitVec w) : (rippleAdder A B false).2 = A + B := by
  rw [rippleAdder_eq]
  simp

/-- `{CO, Sum}` is the sum, with no bit lost. -/
theorem rippleAdder_toNat {w : Nat} (A B : BitVec w) (c_in : Bool) :
    (rippleAdder A B c_in).2.toNat + 2 ^ w * (rippleAdder A B c_in).1.toNat
      = A.toNat + B.toNat + c_in.toNat := by
  have hA := A.isLt
  have hB := B.isLt
  have hc : c_in.toNat ≤ 1 := Bool.toNat_le c_in
  have hw : 0 < 2 ^ w := Nat.two_pow_pos w
  have hcin : (BitVec.setWidth w (BitVec.ofBool c_in)).toNat = c_in.toNat % 2 ^ w := by
    rw [BitVec.toNat_setWidth, BitVec.toNat_ofBool]
  rw [rippleAdder_eq, BitVec.toNat_add, BitVec.toNat_add, hcin, BitVec.carry,
    Nat.mod_eq_of_lt hA, Nat.mod_eq_of_lt hB, Nat.add_mod_mod, Nat.mod_add_mod]
  by_cases h : A.toNat + B.toNat + c_in.toNat ≥ 2 ^ w
  · rw [decide_eq_true h, Bool.toNat_true, Nat.mul_one, Nat.mod_eq_sub_mod h,
      Nat.mod_eq_of_lt (by omega), Nat.sub_add_cancel h]
  · rw [decide_eq_false h, Bool.toNat_false, Nat.mul_zero, Nat.add_zero,
      Nat.mod_eq_of_lt (Nat.lt_of_not_le h)]

end Ece385
