import Ece385.Adder.Lookahead
import Ece385.Adder.Ripple

/-!
# The carry-select adder

`carry_select_adder` has two 4-bit adders for each block above the lowest, a
multiplexer that picks one of their sums, and a chain of carry equations.
A block is meant to be added twice in advance, once for each possible carry
into it; `Sum0` and `Sum1` are declared "sum when c_in = 0" and "sum when
c_in = 1". The netlist feeds both adders with the actual carry instead
(`.c_in(c_4)` on `FA0_1` and on `FA1_1`, and so on upwards).

Two equal candidates make the multiplexer harmless, so the sum is right
(`carrySelectAdder_toNat`), and all adders of the project agree
(`adders_agree`). What is not there is the speculation: the pair of sums of a
block depends on everything below the block (`carry_select_never_speculates`).
-/

namespace Ece385

/-- `full_adder_4`: `c_out` and `S`. -/
def fullAdder4 (A B : BitVec 4) (c_in : Bool) : Bool × BitVec 4 := rippleAdder A B c_in

/-- `mux_2to1_4`. -/
def mux2to1x4 (sum0 sum1 : BitVec 4) (sel : Bool) : BitVec 4 := if sel then sum1 else sum0

namespace CarrySelectAdder

variable (A B : BitVec 16)

/-! The wires, from the lowest block upwards. The first component of a block
adder is its carry (`c0_8` of `FA0_1`), the second its slice of `Sum0` or
`Sum1`. -/

def FA0_0 : Bool × BitVec 4 := fullAdder4 (nib A 0) (nib B 0) false

def c_4 : Bool := (FA0_0 A B).1

def FA0_1 : Bool × BitVec 4 := fullAdder4 (nib A 1) (nib B 1) (c_4 A B)

def FA1_1 : Bool × BitVec 4 := fullAdder4 (nib A 1) (nib B 1) (c_4 A B)

def c_8 : Bool := (FA0_1 A B).1 || ((FA1_1 A B).1 && c_4 A B)

def FA0_2 : Bool × BitVec 4 := fullAdder4 (nib A 2) (nib B 2) (c_8 A B)

def FA1_2 : Bool × BitVec 4 := fullAdder4 (nib A 2) (nib B 2) (c_8 A B)

def c_12 : Bool := (FA0_2 A B).1 || ((FA1_2 A B).1 && c_8 A B)

def FA0_3 : Bool × BitVec 4 := fullAdder4 (nib A 3) (nib B 3) (c_12 A B)

def FA1_3 : Bool × BitVec 4 := fullAdder4 (nib A 3) (nib B 3) (c_12 A B)

def c_16 : Bool := (FA0_3 A B).1 || ((FA1_3 A B).1 && c_12 A B)

end CarrySelectAdder

open CarrySelectAdder in
def carrySelectAdder (A B : BitVec 16) : AdderOut where
  Sum := mux2to1x4 (FA0_3 A B).2 (FA1_3 A B).2 (c_12 A B)
    ++ mux2to1x4 (FA0_2 A B).2 (FA1_2 A B).2 (c_8 A B)
    ++ mux2to1x4 (FA0_1 A B).2 (FA1_1 A B).2 (c_4 A B)
    ++ (FA0_0 A B).2
  CO := c_16 A B

namespace CarrySelectAdder

/-! ## The blocks -/

/-- The three blocks with two adders: bits 7:4, 11:8 and 15:12. -/
inductive Block where
  | b7_4 | b11_8 | b15_12
deriving DecidableEq, Repr

namespace Block

variable (k : Block) (A B : BitVec 16)

/-- The slice of an operand that the block adds. -/
def slice (X : BitVec 16) : BitVec 4 :=
  match k with
  | .b7_4 => nib X 1
  | .b11_8 => nib X 2
  | .b15_12 => nib X 3

/-- The carry into the block, which also selects its sum. -/
def sel : Bool :=
  match k with
  | .b7_4 => c_4 A B
  | .b11_8 => c_8 A B
  | .b15_12 => c_12 A B

/-- The adder for carry-in 0: `c0` and the slice of `Sum0`. -/
def FA0 : Bool × BitVec 4 :=
  match k with
  | .b7_4 => FA0_1 A B
  | .b11_8 => FA0_2 A B
  | .b15_12 => FA0_3 A B

/-- The adder for carry-in 1: `c1` and the slice of `Sum1`. -/
def FA1 : Bool × BitVec 4 :=
  match k with
  | .b7_4 => FA1_1 A B
  | .b11_8 => FA1_2 A B
  | .b15_12 => FA1_3 A B

/-- Both adders of a block are the same one, on the actual carry. -/
theorem FA_eq :
    k.FA0 A B = fullAdder4 (k.slice A) (k.slice B) (k.sel A B)
      ∧ k.FA1 A B = fullAdder4 (k.slice A) (k.slice B) (k.sel A B) := by
  cases k <;> exact ⟨rfl, rfl⟩

end Block

/-- `{c, S}` as a 5-bit number. -/
def value (out : Bool × BitVec 4) : ℕ := 16 * out.1.toNat + out.2.toNat

theorem value_fullAdder4 (A B : BitVec 4) (c_in : Bool) :
    value (fullAdder4 A B c_in) = A.toNat + B.toNat + c_in.toNat := by
  have h := rippleAdder_toNat A B c_in
  unfold value fullAdder4
  omega

theorem mux_self (s : BitVec 4) (sel : Bool) : mux2to1x4 s s sel = s := ite_self s

/-- With equal candidates the carry equation passes the carry on. -/
theorem carry_self (c sel : Bool) : (c || (c && sel)) = c := by
  cases c <;> rfl

end CarrySelectAdder

open CarrySelectAdder in
theorem carrySelectAdder_toNat (A B : BitVec 16) :
    (carrySelectAdder A B).Sum.toNat + 65536 * (carrySelectAdder A B).CO.toNat
      = A.toNat + B.toNat := by
  have e0 := value_fullAdder4 (nib A 0) (nib B 0) false
  have e1 := value_fullAdder4 (nib A 1) (nib B 1) (c_4 A B)
  have e2 := value_fullAdder4 (nib A 2) (nib B 2) (c_8 A B)
  have e3 := value_fullAdder4 (nib A 3) (nib B 3) (c_12 A B)
  have h4 : c_4 A B = (fullAdder4 (nib A 0) (nib B 0) false).1 := rfl
  have h8 : c_8 A B = (fullAdder4 (nib A 1) (nib B 1) (c_4 A B)).1 := carry_self _ _
  have h12 : c_12 A B = (fullAdder4 (nib A 2) (nib B 2) (c_8 A B)).1 := carry_self _ _
  have h16 : c_16 A B = (fullAdder4 (nib A 3) (nib B 3) (c_12 A B)).1 := carry_self _ _
  have hSum : (carrySelectAdder A B).Sum
      = (fullAdder4 (nib A 3) (nib B 3) (c_12 A B)).2
        ++ (fullAdder4 (nib A 2) (nib B 2) (c_8 A B)).2
        ++ (fullAdder4 (nib A 1) (nib B 1) (c_4 A B)).2
        ++ (fullAdder4 (nib A 0) (nib B 0) false).2 := by
    simp only [carrySelectAdder, FA0_0, FA0_1, FA1_1, FA0_2, FA1_2, FA0_3, FA1_3, mux_self]
  rw [hSum, show (carrySelectAdder A B).CO = c_16 A B from rfl, nib_toNat A, nib_toNat B]
  unfold value at e0 e1 e2 e3
  rw [← h4] at e0
  rw [← h8] at e1
  rw [← h12] at e2
  rw [← h16] at e3
  simp only [toNat_append_add, Bool.toNat_false] at e0 ⊢
  omega

/-- An adder's outputs are determined by the number they make. -/
theorem AdderOut.eq_of_toNat {s t : AdderOut}
    (h : s.Sum.toNat + 65536 * s.CO.toNat = t.Sum.toNat + 65536 * t.CO.toNat) : s = t := by
  obtain ⟨S, c⟩ := s
  obtain ⟨S', c'⟩ := t
  have hS := S.isLt
  have hS' := S'.isLt
  have hc : c = c' := by
    cases c <;> cases c' <;> simp only [Bool.toNat_false, Bool.toNat_true] at h <;> first
      | rfl
      | omega
  subst hc
  rw [AdderOut.mk.injEq]
  exact ⟨BitVec.eq_of_toNat_eq (Nat.add_right_cancel h), rfl⟩

/-- **The adders of the lab agree.** Three carry networks, one function: the
17-bit sum. -/
theorem adders_agree (A B : BitVec 16) :
    rippleAdder A B false = ((carryLookaheadAdder A B).CO, (carryLookaheadAdder A B).Sum)
      ∧ carrySelectAdder A B = carryLookaheadAdder A B
      ∧ (carryLookaheadAdder A B).Sum.toNat + 65536 * (carryLookaheadAdder A B).CO.toNat
        = A.toNat + B.toNat
      ∧ ∀ c_in, (rippleAdder A B c_in).2.toNat + 65536 * (rippleAdder A B c_in).1.toNat
        = A.toNat + B.toNat + c_in.toNat := by
  have hlook := carryLookaheadAdder_toNat A B
  have hselect : carrySelectAdder A B = carryLookaheadAdder A B :=
    AdderOut.eq_of_toNat ((carrySelectAdder_toNat A B).trans hlook.symm)
  have hripple : (⟨(rippleAdder A B false).2, (rippleAdder A B false).1⟩ : AdderOut)
      = carryLookaheadAdder A B :=
    AdderOut.eq_of_toNat ((rippleAdder_toNat A B false).trans hlook.symm)
  refine ⟨?_, hselect, hlook, fun c_in => rippleAdder_toNat A B c_in⟩
  rw [← hripple]

namespace CarrySelectAdder

/-! ## The speculation -/

/-- What the declarations of the wires promise of a block. -/
def Speculates (k : Block) (A B : BitVec 16) : Prop :=
  value (k.FA0 A B) = (k.slice A).toNat + (k.slice B).toNat
    ∧ value (k.FA1 A B) = (k.slice A).toNat + (k.slice B).toNat + 1

instance (k : Block) (A B : BitVec 16) : Decidable (Speculates k A B) :=
  inferInstanceAs (Decidable (_ ∧ _))

theorem value_FA (k : Block) (A B : BitVec 16) :
    value (k.FA0 A B) = (k.slice A).toNat + (k.slice B).toNat + (k.sel A B).toNat
      ∧ value (k.FA1 A B) = (k.slice A).toNat + (k.slice B).toNat + (k.sel A B).toNat := by
  obtain ⟨h0, h1⟩ := k.FA_eq A B
  rw [h0, h1]
  exact ⟨value_fullAdder4 _ _ _, value_fullAdder4 _ _ _⟩

/-- Inputs that agree on a block give it the same candidates exactly when
they bring the same carry into it. -/
theorem FA_eq_iff {k : Block} {A B A' B' : BitVec 16} (hA : k.slice A = k.slice A')
    (hB : k.slice B = k.slice B') :
    k.FA0 A B = k.FA0 A' B' ∧ k.FA1 A B = k.FA1 A' B' ↔ k.sel A B = k.sel A' B' := by
  constructor
  · rintro ⟨h0, -⟩
    have hv := (value_FA k A B).1
    rw [h0, (value_FA k A' B').1, hA, hB] at hv
    have hsel : (k.sel A' B').toNat = (k.sel A B).toNat := Nat.add_left_cancel hv
    cases hs : k.sel A B <;> cases hs' : k.sel A' B' <;> simp [hs, hs'] at hsel ⊢
  · intro hsel
    rw [(k.FA_eq A B).1, (k.FA_eq A B).2, (k.FA_eq A' B').1, (k.FA_eq A' B').2, hA, hB, hsel]
    exact ⟨rfl, rfl⟩

/-- **No block speculates, on no input.** One of its two adders is right,
which one depends on the carry from below, and so do both results. -/
theorem carry_select_never_speculates (k : Block) (A B : BitVec 16) :
    ¬Speculates k A B
      ∧ (value (k.FA0 A B) = (k.slice A).toNat + (k.slice B).toNat ↔ k.sel A B = false)
      ∧ (value (k.FA1 A B) = (k.slice A).toNat + (k.slice B).toNat + 1 ↔ k.sel A B = true)
      ∧ ∀ A' B', k.slice A = k.slice A' → k.slice B = k.slice B' →
        (k.FA0 A B = k.FA0 A' B' ∧ k.FA1 A B = k.FA1 A' B' ↔ k.sel A B = k.sel A' B') := by
  obtain ⟨h0, h1⟩ := value_FA k A B
  have hiff0 : value (k.FA0 A B) = (k.slice A).toNat + (k.slice B).toNat ↔ k.sel A B = false := by
    rw [h0]
    cases k.sel A B <;> simp
  have hiff1 : value (k.FA1 A B) = (k.slice A).toNat + (k.slice B).toNat + 1
      ↔ k.sel A B = true := by
    rw [h1]
    cases k.sel A B <;> simp
  refine ⟨?_, hiff0, hiff1, fun A' B' hA hB => FA_eq_iff hA hB⟩
  rintro ⟨hs0, hs1⟩
  exact Bool.false_ne_true ((hiff0.mp hs0).symm.trans (hiff1.mp hs1))

/-- `0x0000 + 0x0000` and `0x000F + 0x0001` agree on bits 7:4, where both are
`0 + 0`. Neither gets the candidates 0 and 1, and they do not get the same
ones. -/
theorem carry_select_zero :
    ¬Speculates .b7_4 0x0000#16 0x0000#16
      ∧ Block.slice .b7_4 0x0000#16 = Block.slice .b7_4 0x000F#16
      ∧ Block.slice .b7_4 0x0000#16 = Block.slice .b7_4 0x0001#16
      ∧ Block.FA0 .b7_4 0x0000#16 0x0000#16 ≠ Block.FA0 .b7_4 0x000F#16 0x0001#16 := by
  decide +kernel

end CarrySelectAdder

end Ece385
