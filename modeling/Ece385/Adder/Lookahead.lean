import Mathlib.Algebra.Group.Nat.Defs

/-!
# The carry-lookahead adder

`carry_lookahead_adder` (with `CLU`, `CLA_4` and `adder_CLA`) is two levels
of the same lookahead unit: inside a `CLA_4` the unit spreads the block's
carry-in over four bits, and in the top module it spreads carry 0 over the
four blocks, fed by their group propagate and generate. It is the ALU adder
and the address adder of the SLC-3, so everything the datapath says about
`+` goes through `carryLookaheadAdder_sum` below.

The propagate signal of `adder_CLA` is `A | B`, not `A ^ B`; the group law
`cla4_spec` is therefore stated about sums, where the two agree, and never
about the carries one by one.
-/

namespace Ece385

/-! ## The gates -/

/-- Outputs of `adder_CLA`: the sum bit, propagate and generate. -/
structure AdderCla where
  S : Bool
  P : Bool
  G : Bool

def adderCla (A B Cin : Bool) : AdderCla where
  S := (A ^^ B) ^^ Cin
  G := A && B
  P := A || B

/-- `CLU`: the five carries from four propagate/generate pairs. -/
def clu (P G : BitVec 4) (Cin : Bool) : Fin 5 → Bool
  | 0 => Cin
  | 1 => (Cin && P[0]) || G[0]
  | 2 => (Cin && P[0] && P[1]) || (G[0] && P[1]) || G[1]
  | 3 => (Cin && P[0] && P[1] && P[2]) || (G[0] && P[1] && P[2]) || (G[1] && P[2]) || G[2]
  | 4 => (Cin && P[0] && P[1] && P[2] && P[3]) || (G[0] && P[1] && P[2] && P[3])
      || (G[1] && P[2] && P[3]) || (G[2] && P[3]) || G[3]

/-- A nibble from its bits, most significant first. -/
def nibble (b3 b2 b1 b0 : Bool) : BitVec 4 :=
  BitVec.ofBool b3 ++ BitVec.ofBool b2 ++ BitVec.ofBool b1 ++ BitVec.ofBool b0

namespace Cla4

/-- The propagate outputs of the four `adder_CLA` of a `CLA_4`. -/
def P (A B : BitVec 4) : BitVec 4 :=
  nibble (adderCla A[3] B[3] false).P (adderCla A[2] B[2] false).P
    (adderCla A[1] B[1] false).P (adderCla A[0] B[0] false).P

/-- Their generate outputs. Neither depends on the carry, so the loop
`CLU -> adder_CLA -> CLU` of the netlist is not one of values. -/
def G (A B : BitVec 4) : BitVec 4 :=
  nibble (adderCla A[3] B[3] false).G (adderCla A[2] B[2] false).G
    (adderCla A[1] B[1] false).G (adderCla A[0] B[0] false).G

def S (A B : BitVec 4) (Cin : Bool) : BitVec 4 :=
  let C := clu (P A B) (G A B) Cin
  nibble (adderCla A[3] B[3] (C 3)).S (adderCla A[2] B[2] (C 2)).S
    (adderCla A[1] B[1] (C 1)).S (adderCla A[0] B[0] (C 0)).S

/-- Group propagate. -/
def PG (A B : BitVec 4) : Bool :=
  (P A B)[0] && (P A B)[1] && (P A B)[2] && (P A B)[3]

/-- Group generate. -/
def GG (A B : BitVec 4) : Bool :=
  (G A B)[3] || ((G A B)[2] && (P A B)[3]) || ((G A B)[1] && (P A B)[3] && (P A B)[2])
    || ((G A B)[0] && (P A B)[3] && (P A B)[2] && (P A B)[1])

end Cla4

/-- The nibble `X[4k+3:4k]` of a word. -/
def nib (X : BitVec 16) (k : ℕ) : BitVec 4 := X.extractLsb' (4 * k) 4

namespace CarryLookaheadAdder

def P (A B : BitVec 16) : BitVec 4 :=
  nibble (Cla4.PG (nib A 3) (nib B 3)) (Cla4.PG (nib A 2) (nib B 2))
    (Cla4.PG (nib A 1) (nib B 1)) (Cla4.PG (nib A 0) (nib B 0))

def G (A B : BitVec 16) : BitVec 4 :=
  nibble (Cla4.GG (nib A 3) (nib B 3)) (Cla4.GG (nib A 2) (nib B 2))
    (Cla4.GG (nib A 1) (nib B 1)) (Cla4.GG (nib A 0) (nib B 0))

/-- The block carries: `CLU_0` of the top module, with `Cin = 0`. -/
def C (A B : BitVec 16) : Fin 5 → Bool := clu (P A B) (G A B) false

end CarryLookaheadAdder

/-- Outputs of a two-operand adder. -/
structure AdderOut where
  Sum : BitVec 16
  CO : Bool

def carryLookaheadAdder (A B : BitVec 16) : AdderOut :=
  let C := CarryLookaheadAdder.C A B
  { Sum := Cla4.S (nib A 3) (nib B 3) (C 3) ++ Cla4.S (nib A 2) (nib B 2) (C 2)
      ++ Cla4.S (nib A 1) (nib B 1) (C 1) ++ Cla4.S (nib A 0) (nib B 0) (C 0)
    CO := C 4 }

/-! ## The block law

One block adds its two nibbles and its carry, and the carry it would pass
on is its group generate, or its group propagate with a carry to pass. -/

theorem cla4_spec : ∀ (A B : BitVec 4) (Cin : Bool),
    (Cla4.S A B Cin).toNat + 16 * (Cla4.GG A B || (Cla4.PG A B && Cin)).toNat
      = A.toNat + B.toNat + Cin.toNat := by
  decide +kernel

/-- Each carry of a `CLU` is generated by the stage below it or propagated
through it. -/
theorem clu_succ (p3 p2 p1 p0 g3 g2 g1 g0 Cin : Bool) :
    let C := clu (nibble p3 p2 p1 p0) (nibble g3 g2 g1 g0) Cin
    C 0 = Cin ∧ C 1 = (g0 || (p0 && C 0)) ∧ C 2 = (g1 || (p1 && C 1))
      ∧ C 3 = (g2 || (p2 && C 2)) ∧ C 4 = (g3 || (p3 && C 3)) := by
  revert p3 p2 p1 p0 g3 g2 g1 g0 Cin
  decide +kernel

theorem toNat_append_add {m n : ℕ} (x : BitVec m) (y : BitVec n) :
    (x ++ y).toNat = x.toNat * 2 ^ n + y.toNat := by
  rw [BitVec.toNat_append, ← Nat.shiftLeft_add_eq_or_of_lt y.isLt, Nat.shiftLeft_eq]

theorem nib_toNat (X : BitVec 16) :
    X.toNat = (nib X 0).toNat + 16 * (nib X 1).toNat + 256 * (nib X 2).toNat
      + 4096 * (nib X 3).toNat := by
  have hX := X.isLt
  simp only [nib, BitVec.extractLsb'_toNat, Nat.shiftRight_eq_div_pow]
  omega

/-- `{CO, Sum}` is the 17-bit sum: the block law, chained through the four
carries of the top-level `CLU`. -/
theorem carryLookaheadAdder_toNat (A B : BitVec 16) :
    (carryLookaheadAdder A B).Sum.toNat + 65536 * (carryLookaheadAdder A B).CO.toNat
      = A.toNat + B.toNat := by
  obtain ⟨h0, h1, h2, h3, h4⟩ := clu_succ
    (Cla4.PG (nib A 3) (nib B 3)) (Cla4.PG (nib A 2) (nib B 2))
    (Cla4.PG (nib A 1) (nib B 1)) (Cla4.PG (nib A 0) (nib B 0))
    (Cla4.GG (nib A 3) (nib B 3)) (Cla4.GG (nib A 2) (nib B 2))
    (Cla4.GG (nib A 1) (nib B 1)) (Cla4.GG (nib A 0) (nib B 0)) false
  simp only [carryLookaheadAdder, CarryLookaheadAdder.C, CarryLookaheadAdder.P,
    CarryLookaheadAdder.G]
  generalize clu _ _ false = C at h0 h1 h2 h3 h4 ⊢
  have e0 := cla4_spec (nib A 0) (nib B 0) (C 0)
  have e1 := cla4_spec (nib A 1) (nib B 1) (C 1)
  have e2 := cla4_spec (nib A 2) (nib B 2) (C 2)
  have e3 := cla4_spec (nib A 3) (nib B 3) (C 3)
  rw [← h1, h0] at e0
  rw [← h2] at e1
  rw [← h3] at e2
  rw [← h4] at e3
  rw [nib_toNat A, nib_toNat B, h0]
  simp only [toNat_append_add, Bool.toNat_false] at e0 ⊢
  omega

/-- The adder of the datapath is 16-bit addition. -/
theorem carryLookaheadAdder_sum (A B : BitVec 16) :
    (carryLookaheadAdder A B).Sum = A + B := by
  refine BitVec.eq_of_toNat_eq ?_
  have h := carryLookaheadAdder_toNat A B
  have hS := (carryLookaheadAdder A B).Sum.isLt
  rw [BitVec.toNat_add]
  cases hc : (carryLookaheadAdder A B).CO <;>
    simp only [hc, Bool.toNat_false, Bool.toNat_true] at h <;> omega

end Ece385
