import Mathlib.Data.Int.Order.Basic
import Ece385.Slc3.Program
import Ece385.Sort.Bubble

/-!
# The sort function

Words 119 to 136 of `test_memory`, on the documented machine: a bubble sort of
the sixteen words from 74 on. `R1` counts the passes from -16 up and `R2` the
comparisons of a pass from 1 up; a pass ends when their sum is no longer
negative, so the pass lengths are 15, 14, ..., 1, and 1 again (`len`): the body
runs once even in the last pass, where nothing is left to compare.

The function compares by subtraction (`gt`). That is the signed order as long
as no difference overflows; the words are rearranged in any case.
-/

namespace Ece385

namespace Isa

open Clocked Machine SLC3_2

namespace SortProgram

/-- Where the data word `k` is. -/
def cell (k : ℕ) : BitVec 8 := BitVec.ofNat 8 (74 + k)

/-- The data words. -/
def words (mem : TestMemory.Words) : List (BitVec 16) :=
  (List.range 16).map fun k => mem (cell k)

/-- `R5` is positive behind the subtraction. -/
def gt (a b : BitVec 16) : Bool := decide (0 < (a - b).toInt)

/-- The comparisons in pass `r`. -/
def len (r : ℕ) : ℕ := max 1 (15 - r)

/-- The instructions of the function. -/
def InFunction (pc : BitVec 16) : Prop := 119 ≤ pc.toNat ∧ pc.toNat ≤ 136

instance (pc : BitVec 16) : Decidable (InFunction pc) := inferInstanceAs (Decidable (_ ∧ _))

/-! ## Addresses -/

theorem cell_toNat {k : ℕ} (hk : k < 16) : (cell k).toNat = 74 + k := by
  rw [cell, BitVec.toNat_ofNat]
  omega

theorem cell_inj {j k : ℕ} (hj : j < 16) (hk : k < 16) (h : cell j = cell k) : j = k := by
  have hnat := congrArg BitVec.toNat h
  rw [cell_toNat hj, cell_toNat hk] at hnat
  omega

theorem addr_cell (k : ℕ) : (BitVec.ofNat 16 (74 + k)).extractLsb' 0 8 = cell k := by
  refine BitVec.eq_of_toNat_eq ?_
  rw [cell, BitVec.extractLsb'_toNat, BitVec.toNat_ofNat, BitVec.toNat_ofNat, Nat.shiftRight_zero]
  omega

theorem addr_small {k : ℕ} (hk : k < 16) : (BitVec.ofNat 16 (74 + k)).toNat < 256 := by
  rw [BitVec.toNat_ofNat]
  omega

theorem rd_cell (m : Machine) (S : BitVec 16) {k : ℕ} (hk : k < 16) :
    m.rd S (BitVec.ofNat 16 (74 + k)) = m.mem (cell k) := by
  have hne : BitVec.ofNat 16 (74 + k) ≠ 0xFFFF#16 := by
    intro h
    have hsmall := addr_small hk
    rw [h] at hsmall
    exact absurd hsmall (by decide)
  rw [Arch.rd, if_neg hne, addr_cell]

/-! ## The state of the function -/

/-- Called in `m₀`, the function is in pass `r`, and the array is `d`. -/
structure Inside (m₀ : Machine) (d : ℕ → BitVec 16) (r : ℕ) (m : Machine) : Prop where
  R0_zero : m.R R0 = 0
  R1_pass : m.R R1 = BitVec.ofNat 16 (65520 + r)
  R6_data : m.R R6 = 74
  R7_link : m.R R7 = m₀.R R7
  array : ∀ k, k < 16 → m.mem (cell k) = d k
  others : ∀ a : BitVec 8, a.toNat < 74 ∨ 89 < a.toNat → m.mem a = m₀.mem a

section Inside

variable {m₀ m m' : Machine} {d : ℕ → BitVec 16} {r : ℕ}

theorem Inside.resident (h : Inside m₀ d r m) (hprog : Resident 119 136 m₀.mem) :
    Resident 119 136 m.mem := by
  intro k hlo hhi
  rw [h.others (BitVec.ofNat 8 k) (by rw [BitVec.toNat_ofNat]; omega)]
  exact hprog k hlo hhi

/-- Registers 2 to 5 are free. -/
theorem Inside.regs (h : Inside m₀ d r m)
    (hR : ∀ x, x ≠ R2 → x ≠ R3 → x ≠ R4 → x ≠ R5 → m'.R x = m.R x) (hmem : m'.mem = m.mem) :
    Inside m₀ d r m' := by
  obtain ⟨h0, h1, h6, h7, harray, hothers⟩ := h
  refine ⟨?_, ?_, ?_, ?_, by rw [hmem]; exact harray, by rw [hmem]; exact hothers⟩
  · rw [hR R0 (by decide) (by decide) (by decide) (by decide), h0]
  · rw [hR R1 (by decide) (by decide) (by decide) (by decide), h1]
  · rw [hR R6 (by decide) (by decide) (by decide) (by decide), h6]
  · rw [hR R7 (by decide) (by decide) (by decide) (by decide), h7]

/-- A store into the array. -/
theorem Inside.store (h : Inside m₀ d r m) {j : ℕ} (hj : j < 16) (v : BitVec 16) :
    Inside m₀ (Function.update d j v) r (m.store (BitVec.ofNat 16 (74 + j)) v) := by
  obtain ⟨h0, h1, h6, h7, harray, hothers⟩ := h
  obtain ⟨hmem, -⟩ := store_mem m v _ (addr_small hj)
  rw [addr_cell] at hmem
  refine ⟨by rw [store_R, h0], by rw [store_R, h1], by rw [store_R, h6], by rw [store_R, h7],
    fun k hk => ?_, fun a ha => ?_⟩
  · rw [hmem]
    by_cases hkj : k = j
    · rw [hkj, Function.update_self, Function.update_self]
    · have hne : cell k ≠ cell j := fun hcell => hkj (cell_inj hk hj hcell)
      rw [Function.update_of_ne hne, Function.update_of_ne hkj, harray k hk]
  · have hne : a ≠ cell j := by
      rintro rfl
      rw [cell_toNat hj] at ha
      omega
    rw [hmem, Function.update_of_ne hne, hothers a ha]

end Inside

/-- The machine goes through instructions of the function. -/
def Executes (m : Machine) (ins : ℕ → Input) (pcs : List (BitVec 16)) (m' : Machine) : Prop :=
  Walk (fun m : Machine => m.PC) (fun i m => m.next i) m ins pcs m' ∧ ∀ pc ∈ pcs, InFunction pc

theorem Executes.append {m m₁ m' : Machine} {ins : ℕ → Input} {pcs pcs' : List (BitVec 16)}
    (h : Executes m ins pcs m₁) (h' : Executes m₁ (later pcs.length ins) pcs' m') :
    Executes m ins (pcs ++ pcs') m' := by
  refine ⟨h.1.append h'.1, fun pc hpc => ?_⟩
  rcases List.mem_append.mp hpc with hpc | hpc
  · exact h.2 pc hpc
  · exact h'.2 pc hpc

/-- A loop of `n` rounds. -/
theorem Executes.iterate {m : Machine} {n : ℕ} {Inv : ℕ → Machine → Prop} (ins : ℕ → Input)
    (hround : ∀ k, k < n → ∀ m ins, Inv k m → ∃ pcs m', Executes m ins pcs m' ∧ Inv (k + 1) m')
    (h0 : Inv 0 m) : ∃ pcs m', Executes m ins pcs m' ∧ Inv n m' := by
  have hpass : ∀ k, k < n → ∀ (m : Machine) (ins : ℕ → Input), Inv k m →
      ∃ pcs m', Walk (fun m : Machine => m.PC) (fun i m => m.next i) m ins pcs m'
        ∧ (∀ pc ∈ pcs, InFunction pc) ∧ Inv (k + 1) m' := by
    intro k hk m ins hInv
    obtain ⟨pcs, m', ⟨hwalk, hpcs⟩, hInv'⟩ := hround k hk m ins hInv
    exact ⟨pcs, m', hwalk, hpcs, hInv'⟩
  obtain ⟨rounds, m', hwalk, -, hrounds, hInv⟩ := Walk.iterate ins hpass h0
  refine ⟨rounds.flatten, m', ⟨hwalk, fun pc hpc => ?_⟩, hInv⟩
  obtain ⟨pcs, hpcs, hpc⟩ := List.mem_flatten.mp hpc
  exact hrounds pcs hpcs pc hpc

/-! ## One comparison -/

/-- The addresses in comparison `j`. -/
theorem pointers (j : ℕ) (hj : j < 15) :
    74 + BitVec.ofNat 16 (j + 1) = BitVec.ofNat 16 (74 + (j + 1))
      ∧ BitVec.ofNat 16 (74 + (j + 1)) + (imm 6 (-1)).signExtend 16 = BitVec.ofNat 16 (74 + j)
      ∧ BitVec.ofNat 16 (74 + (j + 1)) + (imm 6 0).signExtend 16
        = BitVec.ofNat 16 (74 + (j + 1)) := by
  revert j
  decide

/-- The tests at the end of a comparison and at the end of a pass. -/
theorem counters : ∀ r < 16,
    (∀ j < 15, (BitVec.ofNat 16 (65520 + r) + BitVec.ofNat 16 (j + 2)).toInt < 0 ↔ j + 1 < len r)
      ∧ ((BitVec.ofNat 16 (65520 + (r + 1))).toInt < 0 ↔ r + 1 < 16) := by
  decide +kernel

theorem len_bounds (r : ℕ) : 0 < len r ∧ len r ≤ 15 := by
  rw [len]
  omega

section Pieces

variable {m₀ m : Machine} {d : ℕ → BitVec 16} {r j : ℕ} (hprog : Resident 119 136 m₀.mem)
  (ins : ℕ → Input)
include hprog

/-- 121 to 123: the pointer, and the two words. -/
theorem load_pair (h : Inside m₀ d r m) (hPC : m.PC = 121#16) (hj : j < 15)
    (hR2 : m.R R2 = BitVec.ofNat 16 (j + 1)) :
    ∃ m', Executes m ins [121, 122, 123] m' ∧ Inside m₀ d r m' ∧ m'.PC = 124#16
      ∧ m'.R R2 = BitVec.ofNat 16 (j + 1) ∧ m'.R R3 = BitVec.ofNat 16 (74 + (j + 1))
      ∧ m'.R R4 = d j ∧ m'.R R5 = d (j + 1) := by
  have hm := h.resident hprog
  obtain ⟨hptr, hleft, hright⟩ := pointers j hj
  let m₁ := m.setReg R3 (m.R R6 + m.R R2)
  let m₂ := m₁.loadReg (ins 1) R4 (d j)
  let m₃ := m₂.loadReg (ins 2) R5 (d (j + 1))
  have h₁ : m₁.PC = 122#16 := by simp [m₁, hPC]
  have h₂ : m₂.PC = 123#16 := by simp [m₂, h₁]
  have hR3₁ : m₁.R R3 = BitVec.ofNat 16 (74 + (j + 1)) := by
    rw [← hptr, ← hR2, ← h.R6_data]
    simp [m₁]
  have hR3₂ : m₂.R R3 = BitVec.ofNat 16 (74 + (j + 1)) := by simp +decide [m₂, hR3₁]
  have s₀ : m.next (ins 0) = m₁ := next_opADD (hm.fetch hPC rfl)
  have s₁ : m₁.next (ins 1) = m₂ := by
    rw [next_opLDR (Resident.fetch (m := m₁) hm h₁ rfl), hR3₁, hleft, rd_cell m₁ _ (by omega)]
    exact congrArg (m₁.loadReg (ins 1) R4) (h.array j (by omega))
  have s₂ : m₂.next (ins 2) = m₃ := by
    rw [next_opLDR (Resident.fetch (m := m₂) hm h₂ rfl), hR3₂, hright, rd_cell m₂ _ (by omega)]
    exact congrArg (m₂.loadReg (ins 2) R5) (h.array (j + 1) (by omega))
  refine ⟨m₃, ⟨.cons hPC s₀ (.cons h₁ s₁ (.cons h₂ s₂ .nil)), by simp [InFunction]⟩,
    h.regs (fun x _ h3 h4 h5 => ?_) rfl, by simp [m₃, h₂], ?_, ?_, ?_, by simp [m₃]⟩
  · simp [m₃, m₂, m₁, h3, h4, h5]
  · simp +decide [m₃, m₂, m₁, hR2]
  · simp +decide [m₃, hR3₂]
  · simp +decide [m₃, m₂]

/-- 124 to 126: only the flags of the difference matter. -/
theorem subtract (h : Inside m₀ d r m) (hPC : m.PC = 124#16) :
    ∃ m', Executes m ins [124, 125, 126] m' ∧ Inside m₀ d r m' ∧ m'.PC = 127#16
      ∧ (∀ x, x ≠ R5 → m'.R x = m.R x) ∧ m'.CC = Isa.nzp (m.R R4 - m.R R5) := by
  have hm := h.resident hprog
  let m₁ := m.setReg R5 (~~~(m.R R5))
  let m₂ := m₁.setReg R5 (m₁.R R5 + (imm 5 1).signExtend 16)
  let m₃ := m₂.setReg R5 (m₂.R R4 + m₂.R R5)
  have h₁ : m₁.PC = 125#16 := by simp [m₁, hPC]
  have h₂ : m₂.PC = 126#16 := by simp [m₂, h₁]
  have s₀ : m.next (ins 0) = m₁ := next_opNOT (hm.fetch hPC rfl)
  have s₁ : m₁.next (ins 1) = m₂ := next_opADDi (Resident.fetch (m := m₁) hm h₁ rfl)
  have s₂ : m₂.next (ins 2) = m₃ := next_opADD (Resident.fetch (m := m₂) hm h₂ rfl)
  have hone : (imm 5 1).signExtend 16 = 1#16 := by decide
  have hminus : m₂.R R4 + m₂.R R5 = m.R R4 - m.R R5 := by
    rw [BitVec.sub_eq_add_neg, BitVec.neg_eq_not_add]
    simp +decide [m₂, m₁, hone]
  have hkeep : ∀ x, x ≠ R5 → m₃.R x = m.R x := fun x h5 => by simp [m₃, m₂, m₁, h5]
  refine ⟨m₃, ⟨.cons hPC s₀ (.cons h₁ s₁ (.cons h₂ s₂ .nil)), by simp [InFunction]⟩,
    h.regs (fun x _ _ _ h5 => hkeep x h5) rfl, by simp [m₃, h₂], hkeep, ?_⟩
  rw [← hminus]
  rfl

/-- 127 to 130: with a positive difference the words are written back crosswise. -/
theorem exchange (h : Inside m₀ d r m) (hPC : m.PC = 127#16) (hj : j < 15)
    (hR3 : m.R R3 = BitVec.ofNat 16 (74 + (j + 1))) (hR4 : m.R R4 = d j)
    (hCC : m.CC = Isa.nzp (d j - d (j + 1))) :
    ∃ pcs m', Executes m ins pcs m' ∧ Inside m₀ (Bubble.compareSwap gt d j) r m'
      ∧ m'.PC = 131#16 ∧ m'.R R2 = m.R R2 := by
  have hm := h.resident hprog
  obtain ⟨-, hleft, hright⟩ := pointers j hj
  have f₀ : m.fetch (ins 0) = opBR nz 3 := hm.fetch hPC rfl
  by_cases hgt : 0 < (d j - d (j + 1)).toInt
  · let m₁ := m.goto (m.PC + 1)
    let m₂ := m₁.loadReg (ins 1) R5 (d (j + 1))
    let m₃ := m₂.store (BitVec.ofNat 16 (74 + j)) (d (j + 1))
    let m₄ := m₃.store (BitVec.ofNat 16 (74 + (j + 1))) (d j)
    have h₁ : m₁.PC = 128#16 := by simp [m₁, hPC]
    have h₂ : m₂.PC = 129#16 := by simp [m₂, h₁]
    have h₃ : m₃.PC = 130#16 := by simp [m₃, h₂]
    have hR3₂ : m₂.R R3 = BitVec.ofNat 16 (74 + (j + 1)) := by simp +decide [m₂, m₁, hR3]
    have hR3₃ : m₃.R R3 = BitVec.ofNat 16 (74 + (j + 1)) := by simp [m₃, hR3₂]
    have hR5₂ : m₂.R R5 = d (j + 1) := by simp [m₂]
    have hR4₃ : m₃.R R4 = d j := by simp +decide [m₃, m₂, m₁, hR4]
    have i₂ : Inside m₀ d r m₂ := h.regs (fun x _ _ _ h5 => by simp [m₂, m₁, h5]) rfl
    have i₃ := i₂.store (j := j) (by omega) (d (j + 1))
    have i₄ := i₃.store (j := j + 1) (by omega) (d j)
    have s₀ : m.next (ins 0) = m₁ := by
      refine next_opBR_of_not f₀ fun htaken => ?_
      rw [hCC] at htaken
      exact absurd ((taken_nz _).mp htaken) (by omega)
    have s₁ : m₁.next (ins 1) = m₂ := by
      rw [next_opLDR (Resident.fetch (m := m₁) hm h₁ rfl),
        goto_R, hR3, hright, rd_cell m₁ _ (by omega)]
      exact congrArg (m₁.loadReg (ins 1) R5) (h.array (j + 1) (by omega))
    have s₂ : m₂.next (ins 2) = m₃ := by
      rw [next_opSTR (Resident.fetch (m := m₂) hm h₂ rfl), hR3₂, hleft, hR5₂]
    have s₃ : m₃.next (ins 3) = m₄ := by
      rw [next_opSTR ((i₃.resident hprog).fetch h₃ rfl), hR3₃, hright, hR4₃]
    refine ⟨[127, 128, 129, 130], m₄, ⟨.cons hPC s₀ (.cons h₁ s₁ (.cons h₂ s₂ (.cons h₃ s₃ .nil))),
      by simp [InFunction]⟩, ?_, by simp [m₄, h₃], by simp +decide [m₄, m₃, m₂, m₁]⟩
    rw [Bubble.compareSwap_of_gt (decide_eq_true hgt)]
    exact i₄
  · have s₀ : m.next (ins 0) = m.goto 131#16 := by
      refine next_opBR f₀ ?_ (by rw [hPC]; decide)
      rw [hCC]
      exact (taken_nz _).mpr (Int.not_lt.mp hgt)
    refine ⟨[127], m.goto 131#16, ⟨.cons hPC s₀ .nil, by simp [InFunction]⟩, ?_, rfl, rfl⟩
    rw [Bubble.compareSwap_of_not fun h => hgt (of_decide_eq_true h)]
    exact h.regs (fun _ _ _ _ _ => rfl) rfl

/-- 131 to 133: the inner loop goes on while the counters sum up to a negative
number. -/
theorem advance (h : Inside m₀ d r m) (hPC : m.PC = 131#16) (hr : r < 16) (hj : j < 15)
    (hR2 : m.R R2 = BitVec.ofNat 16 (j + 1)) :
    ∃ m', Executes m ins [131, 132, 133] m' ∧ Inside m₀ d r m'
      ∧ m'.PC = (if j + 1 < len r then 121#16 else 134#16)
      ∧ m'.R R2 = BitVec.ofNat 16 (j + 2) := by
  have hm := h.resident hprog
  let m₁ := m.setReg R2 (m.R R2 + 1)
  let m₂ := m₁.setReg R3 (m₁.R R1 + m₁.R R2)
  have h₁ : m₁.PC = 132#16 := by simp [m₁, hPC]
  have h₂ : m₂.PC = 133#16 := by simp [m₂, h₁]
  have s₀ : m.next (ins 0) = m₁ := next_opINC (hm.fetch hPC rfl)
  have s₁ : m₁.next (ins 1) = m₂ := next_opADD (Resident.fetch (m := m₁) hm h₁ rfl)
  have f₂ : m₂.fetch (ins 2) = opBR n (-13) := Resident.fetch (m := m₂) hm h₂ rfl
  have hinc : m₁.R R2 = BitVec.ofNat 16 (j + 2) := by
    simp only [m₁, setReg_R, if_true, hR2]
    exact (BitVec.ofNat_add (j + 1) 1).symm
  have htest : m₂.CC = Isa.nzp (BitVec.ofNat 16 (65520 + r) + BitVec.ofNat 16 (j + 2)) := by
    rw [← hinc, ← h.R1_pass]
    simp +decide [m₂, m₁]
  have hkeep : ∀ x, x ≠ R2 → x ≠ R3 → m₂.R x = m.R x := fun x h2 h3 => by simp [m₂, m₁, h2, h3]
  have hR2₂ : m₂.R R2 = BitVec.ofNat 16 (j + 2) := by
    rw [← hinc]
    simp +decide [m₂]
  have hdone : ∀ v, m₂.next (ins 2) = m₂.goto v → Executes m ins [131, 132, 133] (m₂.goto v)
      ∧ Inside m₀ d r (m₂.goto v) := fun v s₂ =>
    ⟨⟨.cons hPC s₀ (.cons h₁ s₁ (.cons h₂ s₂ .nil)), by simp [InFunction]⟩,
      h.regs (fun x h2 h3 _ _ => hkeep x h2 h3) rfl⟩
  by_cases hneg : j + 1 < len r
  · have s₂ : m₂.next (ins 2) = m₂.goto 121#16 :=
      next_opBR f₂ (by rw [htest, taken_n, (counters r hr).1 j hj]; exact hneg) (by rw [h₂]; decide)
    obtain ⟨hexec, hinside⟩ := hdone _ s₂
    exact ⟨_, hexec, hinside, (if_pos hneg).symm, hR2₂⟩
  · have s₂ : m₂.next (ins 2) = m₂.goto (m₂.PC + 1) :=
      next_opBR_of_not f₂ (by rw [htest, taken_n, (counters r hr).1 j hj]; exact hneg)
    obtain ⟨hexec, hinside⟩ := hdone _ s₂
    refine ⟨_, hexec, hinside, ?_, hR2₂⟩
    rw [if_neg hneg, goto_PC, h₂]
    rfl

end Pieces

/-! ## The loops -/

/-- Before comparison `k` of pass `r`. -/
structure Comparing (m₀ : Machine) (d : ℕ → BitVec 16) (r k : ℕ) (m : Machine) : Prop where
  inside : Inside m₀ (Bubble.pass gt d k) r m
  PC : m.PC = if k < len r then 121#16 else 134#16
  R2_eq : m.R R2 = BitVec.ofNat 16 (k + 1)

/-- Before pass `r`. -/
structure Passing (m₀ : Machine) (d : ℕ → BitVec 16) (r : ℕ) (m : Machine) : Prop where
  inside : Inside m₀ (Bubble.passes gt len d r) r m
  PC : m.PC = if r < 16 then 120#16 else 136#16

section Loops

variable {m₀ m : Machine} {d : ℕ → BitVec 16} {r k : ℕ} (hprog : Resident 119 136 m₀.mem)
  (ins : ℕ → Input)
include hprog

theorem Comparing.next (h : Comparing m₀ d r k m) (hr : r < 16) (hk : k < len r) :
    ∃ pcs m', Executes m ins pcs m' ∧ Comparing m₀ d r (k + 1) m' := by
  obtain ⟨hinside, hPC, hR2⟩ := h
  rw [if_pos hk] at hPC
  have hk15 : k < 15 := Nat.lt_of_lt_of_le hk (len_bounds r).2
  obtain ⟨m₁, e₁, i₁, hPC₁, hR2₁, hR3₁, hR4₁, hR5₁⟩ := load_pair hprog ins hinside hPC hk15 hR2
  obtain ⟨m₂, e₂, i₂, hPC₂, hR₂, hCC₂⟩ := subtract hprog (later 3 ins) i₁ hPC₁
  rw [hR4₁, hR5₁] at hCC₂
  obtain ⟨pcs, m₃, e₃, i₃, hPC₃, hR2₃⟩ := exchange hprog (later 3 (later 3 ins)) i₂ hPC₂ hk15
    ((hR₂ R3 (by decide)).trans hR3₁) ((hR₂ R4 (by decide)).trans hR4₁) hCC₂
  rw [hR₂ R2 (by decide), hR2₁] at hR2₃
  obtain ⟨m₄, e₄, i₄, hPC₄, hR2₄⟩ :=
    advance hprog (later pcs.length (later 3 (later 3 ins))) i₃ hPC₃ hr hk15 hR2₃
  exact ⟨_, m₄, e₁.append (e₂.append (e₃.append e₄)), i₄, hPC₄, hR2₄⟩

theorem Comparing.loop (h : Comparing m₀ d r 0 m) (hr : r < 16) :
    ∃ pcs m', Executes m ins pcs m' ∧ Comparing m₀ d r (len r) m' :=
  Executes.iterate ins (fun _ hk _ ins hcmp => hcmp.next hprog ins hr hk) h

/-- 120: `R2` starts at 1. -/
theorem Passing.enter (h : Passing m₀ d r m) (hr : r < 16) :
    ∃ m', Executes m ins [120] m' ∧ Comparing m₀ (Bubble.passes gt len d r) r 0 m' := by
  obtain ⟨hinside, hPC⟩ := h
  rw [if_pos hr] at hPC
  have hm := hinside.resident hprog
  have s₀ : m.next (ins 0) = m.setReg R2 (m.R R0 + (imm 5 1).signExtend 16) :=
    next_opADDi (hm.fetch hPC rfl)
  refine ⟨_, ⟨.cons hPC s₀ .nil, by simp [InFunction]⟩,
    hinside.regs (fun x h2 _ _ _ => by simp [h2]) rfl, ?_, ?_⟩
  · rw [if_pos (len_bounds r).1, setReg_PC, hPC]
    rfl
  · rw [setReg_R, if_pos rfl, hinside.R0_zero]
    decide

/-- 134 and 135: the next pass, or behind the loop. -/
theorem Comparing.leave (h : Comparing m₀ (Bubble.passes gt len d r) r (len r) m) (hr : r < 16) :
    ∃ m', Executes m ins [134, 135] m' ∧ Passing m₀ d (r + 1) m' := by
  obtain ⟨hinside, hPC, -⟩ := h
  rw [if_neg (Nat.lt_irrefl _)] at hPC
  have hm := hinside.resident hprog
  obtain ⟨h0, h1, h6, h7, harray, hothers⟩ := hinside
  let m₁ := m.setReg R1 (m.R R1 + 1)
  have h₁ : m₁.PC = 135#16 := by simp [m₁, hPC]
  have s₀ : m.next (ins 0) = m₁ := next_opINC (hm.fetch hPC rfl)
  have f₁ : m₁.fetch (ins 1) = opBR n (-16) := Resident.fetch (m := m₁) hm h₁ rfl
  have hinc : m.R R1 + 1 = BitVec.ofNat 16 (65520 + (r + 1)) := by
    rw [h1]
    exact (BitVec.ofNat_add (65520 + r) 1).symm
  have htest : m₁.CC = Isa.nzp (BitVec.ofNat 16 (65520 + (r + 1))) := by
    rw [← hinc]
    rfl
  have hdone : ∀ v, m₁.next (ins 1) = m₁.goto v → Executes m ins [134, 135] (m₁.goto v)
      ∧ Inside m₀ (Bubble.passes gt len d (r + 1)) (r + 1) (m₁.goto v) := by
    intro v s₁
    refine ⟨⟨.cons hPC s₀ (.cons h₁ s₁ .nil), by simp [InFunction]⟩, ?_, ?_, ?_, ?_, harray,
      hothers⟩
    · simp +decide [m₁, h0]
    · rw [goto_R, ← hinc]
      simp [m₁]
    · simp +decide [m₁, h6]
    · simp +decide [m₁, h7]
  by_cases hneg : r + 1 < 16
  · have s₁ : m₁.next (ins 1) = m₁.goto 120#16 :=
      next_opBR f₁ (by rw [htest, taken_n, (counters r hr).2]; exact hneg) (by rw [h₁]; decide)
    obtain ⟨hexec, hinside⟩ := hdone _ s₁
    exact ⟨_, hexec, hinside, (if_pos hneg).symm⟩
  · have s₁ : m₁.next (ins 1) = m₁.goto (m₁.PC + 1) :=
      next_opBR_of_not f₁ (by rw [htest, taken_n, (counters r hr).2]; exact hneg)
    obtain ⟨hexec, hinside⟩ := hdone _ s₁
    refine ⟨_, hexec, hinside, ?_⟩
    rw [if_neg hneg, goto_PC, h₁]
    rfl

theorem Passing.next (h : Passing m₀ d r m) (hr : r < 16) :
    ∃ pcs m', Executes m ins pcs m' ∧ Passing m₀ d (r + 1) m' := by
  obtain ⟨m₁, e₁, hcmp⟩ := h.enter hprog ins hr
  obtain ⟨pcs, m₂, e₂, hcmp'⟩ := hcmp.loop hprog (later 1 ins) hr
  obtain ⟨m₃, e₃, hpassing⟩ := hcmp'.leave hprog (later pcs.length (later 1 ins)) hr
  exact ⟨_, m₃, e₁.append (e₂.append e₃), hpassing⟩

theorem Passing.loop (h : Passing m₀ d 0 m) :
    ∃ pcs m', Executes m ins pcs m' ∧ Passing m₀ d 16 m' :=
  Executes.iterate ins (fun _ hr _ ins hpassing => hpassing.next hprog ins hr) h

/-- From the first instruction to the last but one. -/
theorem body (hPC : m₀.PC = 119#16) (hR0 : m₀.R R0 = 0) (hR6 : m₀.R R6 = 74) :
    ∃ pcs m', Executes m₀ ins pcs m' ∧ Passing m₀ (fun k => m₀.mem (cell k)) 16 m' := by
  let m₁ := m₀.setReg R1 (m₀.R R0 + (imm 5 (-16)).signExtend 16)
  have s₀ : m₀.next (ins 0) = m₁ := next_opADDi (hprog.fetch hPC rfl)
  have hminus : (0 : BitVec 16) + (imm 5 (-16)).signExtend 16 = BitVec.ofNat 16 (65520 + 0) := by
    decide
  have hfirst : Passing m₀ (fun k => m₀.mem (cell k)) 0 m₁ := by
    refine ⟨⟨?_, ?_, ?_, ?_, fun _ _ => rfl, fun _ _ => rfl⟩, by simp [m₁, hPC]⟩
    · simp +decide [m₁, hR0]
    · rw [← hminus, ← hR0]
      simp [m₁]
    · simp +decide [m₁, hR6]
    · simp +decide [m₁]
  have e₁ : Executes m₀ ins [119] m₁ := ⟨.cons hPC s₀ .nil, by simp [InFunction]⟩
  obtain ⟨pcs, m₂, e₂, hlast⟩ := hfirst.loop hprog (later 1 ins)
  exact ⟨_, m₂, e₁.append e₂, hlast⟩

end Loops

/-! ## Sorting -/

/-- The subtraction compares values that are not too far apart. -/
theorem gt_iff {x y : BitVec 16} (hxy : x.toInt - y.toInt ≤ 32767)
    (hyx : y.toInt - x.toInt ≤ 32767) : gt x y = true ↔ y.toInt < x.toInt := by
  have hsub : (x - y).toInt = x.toInt - y.toInt := by
    rw [BitVec.toInt_sub]
    exact Int.bmod_eq_of_le (by omega) (by omega)
  rw [gt, hsub, decide_eq_true_iff]
  omega

theorem passes_perm (d : ℕ → BitVec 16) :
    ((List.range 16).map (Bubble.passes gt len d 16)).Perm ((List.range 16).map d) := by
  have hlen : ∀ r, len r < 16 := fun r => Nat.lt_succ_of_le (len_bounds r).2
  exact (Bubble.passes_permutes gt hlen d 16).perm

theorem passes_sorted (d : ℕ → BitVec 16)
    (hd : ∀ j k, j < 16 → k < 16 → (d j).toInt - (d k).toInt ≤ 32767) :
    ((List.range 16).map (Bubble.passes gt len d 16)).Pairwise fun x y => x.toInt ≤ y.toInt := by
  have hlen : ∀ r, len r < 16 := fun r => Nat.lt_succ_of_le (len_bounds r).2
  have hnext : ∀ r, len r ≤ len (r + 1) + 1 := by
    intro r
    unfold len
    omega
  have hgt : Bubble.Compares gt BitVec.toInt 16 d := fun j k hj hk =>
    gt_iff (hd j k hj hk) (hd k j hk hj)
  exact (Bubble.passes_settled hgt hlen (by decide) hnext 15).sorted (by decide)

/-- What a call from `m` has done on return. -/
structure Sorts (m m' : Machine) : Prop where
  registers : m'.R R0 = m.R R0 ∧ m'.R R6 = m.R R6 ∧ m'.R R7 = m.R R7
  others : ∀ a : BitVec 8, a.toNat < 74 ∨ 89 < a.toNat → m'.mem a = m.mem a
  perm : (words m'.mem).Perm (words m.mem)
  sorted : (∀ x ∈ words m.mem, ∀ y ∈ words m.mem, x.toInt - y.toInt ≤ 32767) →
    (words m'.mem).Pairwise fun x y => x.toInt ≤ y.toInt

theorem Passing.sorts {m m' m'' : Machine} (h : Passing m (fun k => m.mem (cell k)) 16 m')
    (hR0 : m.R R0 = 0) (hR6 : m.R R6 = 74) (hR : m''.R = m'.R) (hmem : m''.mem = m'.mem) :
    Sorts m m'' := by
  obtain ⟨⟨h0, -, h6, h7, harray, hothers⟩, -⟩ := h
  have hwords : words m''.mem
      = (List.range 16).map (Bubble.passes gt len (fun k => m.mem (cell k)) 16) := by
    rw [words, hmem]
    exact List.map_congr_left fun k hk => harray k (List.mem_range.mp hk)
  refine ⟨by rw [hR, h0, h6, h7, hR0, hR6]; exact ⟨rfl, rfl, rfl⟩, ?_, ?_, fun hfar => ?_⟩
  · rw [hmem]
    exact hothers
  · rw [hwords]
    exact passes_perm _
  · rw [hwords]
    refine passes_sorted _ fun j k hj hk => hfar _ ?_ _ ?_
    · exact List.mem_map.mpr ⟨j, List.mem_range.mpr hj, rfl⟩
    · exact List.mem_map.mpr ⟨k, List.mem_range.mpr hk, rfl⟩

/-- **The sort function sorts**, and it returns. -/
theorem sort_program (m : Machine) (ins : ℕ → Input) (hPC : m.PC = 119#16) (hR0 : m.R R0 = 0)
    (hR6 : m.R R6 = 74) (hR7 : ¬InFunction (m.R R7)) (hprog : Resident 119 136 m.mem) :
    ∃ n, NextVisit (fun m' : Machine => m'.PC = m.R R7) (m.run ins) n
      ∧ (∀ k, k < n → InFunction (m.run ins k).PC) ∧ Sorts m (m.run ins n) := by
  obtain ⟨pcs, m', hbody, hlast⟩ := body hprog ins hPC hR0 hR6
  have hPC' : m'.PC = 136#16 := hlast.PC
  have hret : m'.next (later pcs.length ins 0) = m'.goto (m.R R7) := by
    rw [next_opRET ((hlast.inside.resident hprog).fetch hPC' rfl), hlast.inside.R7_link]
  have hcall : Executes m ins (pcs ++ [136]) (m'.goto (m.R R7)) :=
    hbody.append ⟨.cons hPC' hret .nil, by simp [InFunction]⟩
  obtain ⟨hwalk, hpcs⟩ := hcall
  have hinside : ∀ k, k < (pcs ++ [136#16]).length → InFunction (m.run ins k).PC := by
    intro k hk
    have hlabel : (m.run ins k).PC = (pcs ++ [136#16])[k] := hwalk.label_eq hk
    rw [hlabel]
    exact hpcs _ (List.getElem_mem hk)
  have hrun : m.run ins (pcs ++ [136#16]).length = m'.goto (m.R R7) := hwalk.1
  refine ⟨_, ⟨?_, ?_, fun k _ hk hback => ?_⟩, hinside, ?_⟩
  · rw [List.length_append]
    exact Nat.succ_pos _
  · rw [hrun]
    rfl
  · exact hR7 (hback ▸ hinside k hk)
  · rw [hrun]
    exact hlast.sorts hR0 hR6 rfl rfl

/-- The call at word 103, in the memory as shipped. -/
def shipped : Machine where
  PC := 119#16
  R r := if r = R6 then 74#16 else if r = R7 then 104#16 else 0#16
  mem := TestMemory.initial
  hex_data := 0#16
  CC := 0#3

/-- The data as shipped are bytes. -/
theorem sort_program_shipped : ∃ n, (shipped.run (fun _ => ⟨0#16, false⟩) n).PC = 104#16
    ∧ (words (shipped.run (fun _ => ⟨0#16, false⟩) n).mem).Pairwise
        fun x y => x.toInt ≤ y.toInt := by
  obtain ⟨n, hreturn, -, hsorts⟩ := sort_program shipped (fun _ => ⟨0#16, false⟩) rfl rfl rfl
    (by decide) fun _ _ _ => rfl
  refine ⟨n, hreturn.2.1, hsorts.sorted fun x hx y hy => ?_⟩
  have hbytes : (words TestMemory.initial).all (fun x => 0 ≤ x.toInt ∧ x.toInt ≤ 255) = true := by
    decide
  rw [List.all_eq_true] at hbytes
  have hxb := of_decide_eq_true (hbytes x hx)
  have hyb := of_decide_eq_true (hbytes y hy)
  omega

end SortProgram

end Isa

end Ece385
