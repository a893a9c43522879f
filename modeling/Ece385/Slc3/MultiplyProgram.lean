import Mathlib.Data.BitVec
import Mathlib.Tactic.IntervalCases
import Ece385.Slc3.Program

/-!
# The multiplication program

Words 49 to 73 of `test_memory`, on the documented machine. The loop shifts the
running total in `R5` and adds the second operand under control of the first,
one bit at a time from bit 7 down. Bit 7 is the sign bit: after the first pass
the total is negated. `Pass` is the invariant; after `k` passes the total is
the second operand times the upper `k` bits of the first, as a signed number
(`topBits`).

Between the reads of the operands and the store of the result nothing a user
sees changes: `Quiet` walks leave the memory and the display alone.
-/

namespace Ece385

namespace Isa

open Clocked Machine SLC3_2

namespace MultiplyProgram

/-! ## Quiet walks -/

/-- What is looked at in each step. -/
def view (m : Machine) : BitVec 16 × TestMemory.Words × BitVec 16 := (m.PC, m.mem, m.hex_data)

/-- The machine executes the instructions at `pcs`, and neither the memory nor
the display changes. -/
def Quiet (m : Machine) (ins : ℕ → Input) (pcs : List (BitVec 16)) (m' : Machine) : Prop :=
  Walk view (fun i m => m.next i) m ins (pcs.map fun pc => (pc, m.mem, m.hex_data)) m'
    ∧ m'.mem = m.mem ∧ m'.hex_data = m.hex_data

section Quiet

variable {m m₁ m' : Machine} {ins : ℕ → Input} {pc : BitVec 16} {pcs pcs' : List (BitVec 16)}

theorem Quiet.nil : Quiet m ins [] m := ⟨Walk.nil, rfl, rfl⟩

theorem Quiet.append (h : Quiet m ins pcs m₁) (h' : Quiet m₁ (later pcs.length ins) pcs' m') :
    Quiet m ins (pcs ++ pcs') m' := by
  obtain ⟨hwalk, hmem, hhex⟩ := h
  obtain ⟨hwalk', hmem', hhex'⟩ := h'
  rw [hmem, hhex] at hwalk'
  refine ⟨?_, hmem'.trans hmem, hhex'.trans hhex⟩
  rw [List.map_append]
  refine hwalk.append ?_
  rw [List.length_map]
  exact hwalk'

theorem Quiet.cons (hPC : m.PC = pc) (h1 : m.next (ins 0) = m₁) (hmem : m₁.mem = m.mem)
    (hhex : m₁.hex_data = m.hex_data) (h : Quiet m₁ (later 1 ins) pcs m') :
    Quiet m ins (pc :: pcs) m' := by
  have hone : Quiet m ins [pc] m₁ := by
    refine ⟨Walk.cons (by rw [← hPC]; rfl) rfl ?_, hmem, hhex⟩
    rw [h1]
    exact Walk.nil
  exact hone.append h

end Quiet

section Spec

variable {m m' : Machine} {ins : ℕ → Input} {pcs : List (BitVec 16)}

theorem Quiet.pcs_walk (h : Quiet m ins pcs m') :
    Walk (fun m : Machine => m.PC) (fun i m => m.next i) m ins pcs m' := by
  have hwalk := h.1.relabel fun v => v.1
  rw [List.map_map, Function.comp_def, List.map_id'] at hwalk
  exact hwalk

theorem Quiet.run_eq (h : Quiet m ins pcs m') : m.run ins pcs.length = m' := h.pcs_walk.1

theorem Quiet.unchanged (h : Quiet m ins pcs m') {k : ℕ} (hk : k ≤ pcs.length) :
    (m.run ins k).mem = m.mem ∧ (m.run ins k).hex_data = m.hex_data := by
  rcases Nat.lt_or_eq_of_le hk with hlt | rfl
  · have hview := h.1.label_eq (k := k) (by rw [List.length_map]; exact hlt)
    rw [List.getElem_map] at hview
    exact ⟨congrArg (fun v => v.2.1) hview, congrArg (fun v => v.2.2) hview⟩
  · rw [h.run_eq]
    exact h.2

end Spec

/-! ## The pieces of a pass -/

section Pieces

variable {m : Machine} (ins : ℕ → Input) (hm : Resident 49 73 m.mem)
include hm

/-- 58 to 61. `R7` is the scratch register of the bit test. -/
theorem shift_and_add (hPC : m.PC = 58#16) :
    ∃ pcs m', Quiet m ins pcs m' ∧ (pcs = [58, 59, 60] ∨ pcs = [58, 59, 60, 61])
      ∧ m'.PC = 62#16
      ∧ m'.R R5 = m.R R5 + m.R R5 + (if m.R R3 &&& m.R R1 = 0 then 0 else m.R R2)
      ∧ ∀ r, r ≠ R5 → r ≠ R7 → m'.R r = m.R r := by
  let m₁ := m.setReg R5 (m.R R5 + m.R R5)
  let m₂ := m₁.setReg R7 (m₁.R R3 &&& m₁.R R1)
  have h₁ : m₁.PC = 59#16 := by simp [m₁, hPC]
  have h₂ : m₂.PC = 60#16 := by simp [m₂, h₁]
  have s₀ : m.next (ins 0) = m₁ := next_opADD (hm.fetch hPC rfl)
  have s₁ : m₁.next (ins 1) = m₂ := next_opAND (Resident.fetch (m := m₁) hm h₁ rfl)
  have htest : m₂.CC = Isa.nzp (m.R R3 &&& m.R R1) := by
    simp +decide [m₂, m₁]
  have f₂ : m₂.fetch (ins 2) = opBR z 1 := Resident.fetch (m := m₂) hm h₂ rfl
  by_cases hz : m.R R3 &&& m.R R1 = 0
  · have s₂ : m₂.next (ins 2) = m₂.goto 62#16 :=
      next_opBR f₂ (by rw [htest]; exact (taken_z _).mpr hz) (by rw [h₂]; decide)
    refine ⟨_, _, .cons hPC s₀ rfl rfl (.cons h₁ s₁ rfl rfl (.cons h₂ s₂ rfl rfl .nil)),
      Or.inl rfl, rfl, ?_, fun r h5 h7 => ?_⟩
    · rw [if_pos hz]
      simp +decide [m₂, m₁]
    · simp [m₂, m₁, h5, h7]
  · let m₃ := m₂.goto (m₂.PC + 1)
    let m₄ := m₃.setReg R5 (m₃.R R5 + m₃.R R2)
    have s₂ : m₂.next (ins 2) = m₃ :=
      next_opBR_of_not f₂ (by rw [htest]; exact fun h => hz ((taken_z _).mp h))
    have h₃ : m₃.PC = 61#16 := by simp [m₃, h₂]
    have s₃ : m₃.next (ins 3) = m₄ := next_opADD (Resident.fetch (m := m₃) hm h₃ rfl)
    refine ⟨_, _, .cons hPC s₀ rfl rfl (.cons h₁ s₁ rfl rfl (.cons h₂ s₂ rfl rfl
      (.cons h₃ s₃ rfl rfl .nil))), Or.inr rfl, by simp [m₄, h₃], ?_, fun r h5 h7 => ?_⟩
    · rw [if_neg hz]
      simp +decide [m₄, m₃, m₂, m₁]
    · simp [m₄, m₃, m₂, m₁, h5, h7]

/-- 62 to 65: an `ADD` of 0 tests the pass counter. -/
theorem negate_first (hPC : m.PC = 62#16) :
    ∃ pcs m', Quiet m ins pcs m' ∧ (pcs = [62, 63] ∨ pcs = [62, 63, 64, 65]) ∧ m'.PC = 66#16
      ∧ m'.R R5 = (if 0 < (m.R R4).toInt then m.R R5 else -m.R R5)
      ∧ ∀ r, r ≠ R5 → m'.R r = m.R r := by
  let m₁ := m.setReg R4 (m.R R4 + (imm 5 0).signExtend 16)
  have hzero : (imm 5 0).signExtend 16 = 0#16 := by decide
  have h₁ : m₁.PC = 63#16 := by simp [m₁, hPC]
  have s₀ : m.next (ins 0) = m₁ := next_opADDi (hm.fetch hPC rfl)
  have hR₁ : ∀ r, m₁.R r = m.R r := by
    intro r
    by_cases hr : r = R4 <;> simp [m₁, hr, hzero]
  have htest : m₁.CC = Isa.nzp (m.R R4) := by simp [m₁, hzero]
  have f₁ : m₁.fetch (ins 1) = opBR p 2 := Resident.fetch (m := m₁) hm h₁ rfl
  by_cases hpos : 0 < (m.R R4).toInt
  · have s₁ : m₁.next (ins 1) = m₁.goto 66#16 :=
      next_opBR f₁ (by rw [htest]; exact (taken_p _).mpr hpos) (by rw [h₁]; decide)
    refine ⟨_, _, .cons hPC s₀ rfl rfl (.cons h₁ s₁ rfl rfl .nil), Or.inl rfl, rfl, ?_,
      fun r _ => hR₁ r⟩
    rw [if_pos hpos]
    exact hR₁ R5
  · let m₂ := m₁.goto (m₁.PC + 1)
    let m₃ := m₂.setReg R5 (~~~(m₂.R R5))
    let m₄ := m₃.setReg R5 (m₃.R R5 + 1)
    have s₁ : m₁.next (ins 1) = m₂ :=
      next_opBR_of_not f₁ (by rw [htest]; exact fun h => hpos ((taken_p _).mp h))
    have h₂ : m₂.PC = 64#16 := by simp [m₂, h₁]
    have h₃ : m₃.PC = 65#16 := by simp [m₃, h₂]
    have s₂ : m₂.next (ins 2) = m₃ := next_opNOT (Resident.fetch (m := m₂) hm h₂ rfl)
    have s₃ : m₃.next (ins 3) = m₄ := next_opINC (Resident.fetch (m := m₃) hm h₃ rfl)
    refine ⟨_, _, .cons hPC s₀ rfl rfl (.cons h₁ s₁ rfl rfl (.cons h₂ s₂ rfl rfl
      (.cons h₃ s₃ rfl rfl .nil))), Or.inr rfl, by simp [m₄, h₃], ?_, fun r h5 => ?_⟩
    · rw [if_neg hpos, BitVec.neg_eq_not_add]
      simp [m₄, m₃, m₂, hR₁]
    · simp [m₄, m₃, m₂, h5, hR₁]

/-- 66 to 69. The branch sees the counter less 8; the flags at the exit are those
of a number, which is all the unconditional branch at 72 needs. -/
theorem count_pass (hPC : m.PC = 66#16) :
    ∃ m', Quiet m ins [66, 67, 68, 69] m'
      ∧ m'.PC = (if (m.R R4 + 1 - 8).toInt < 0 then 58#16 else 70#16)
      ∧ m'.R R4 = m.R R4 + 1 ∧ m'.R R1 = m.R R1 + m.R R1 ∧ (∃ v, m'.CC = Isa.nzp v)
      ∧ ∀ r, r ≠ R1 → r ≠ R4 → r ≠ R7 → m'.R r = m.R r := by
  let m₁ := m.setReg R4 (m.R R4 + 1)
  let m₂ := m₁.setReg R1 (m₁.R R1 + m₁.R R1)
  let m₃ := m₂.setReg R7 (m₂.R R4 + (imm 5 (-8)).signExtend 16)
  have h₁ : m₁.PC = 67#16 := by simp [m₁, hPC]
  have h₂ : m₂.PC = 68#16 := by simp [m₂, h₁]
  have h₃ : m₃.PC = 69#16 := by simp [m₃, h₂]
  have s₀ : m.next (ins 0) = m₁ := next_opINC (hm.fetch hPC rfl)
  have s₁ : m₁.next (ins 1) = m₂ := next_opADD (Resident.fetch (m := m₁) hm h₁ rfl)
  have s₂ : m₂.next (ins 2) = m₃ := next_opADDi (Resident.fetch (m := m₂) hm h₂ rfl)
  have hminus : ∀ v : BitVec 16, v + (imm 5 (-8)).signExtend 16 = v - 8 := fun v => by
    rw [BitVec.sub_eq_add_neg]
    rfl
  have htest : m₃.CC = Isa.nzp (m.R R4 + 1 - 8) := by
    rw [← hminus]
    simp +decide [m₃, m₂, m₁]
  have f₃ : m₃.fetch (ins 3) = opBR n (-12) := Resident.fetch (m := m₃) hm h₃ rfl
  have hquiet : ∀ v, m₃.next (ins 3) = m₃.goto v →
      Quiet m ins [66, 67, 68, 69] (m₃.goto v) := fun v s₃ =>
    .cons hPC s₀ rfl rfl (.cons h₁ s₁ rfl rfl (.cons h₂ s₂ rfl rfl (.cons h₃ s₃ rfl rfl .nil)))
  have hregs : m₃.R R4 = m.R R4 + 1 ∧ m₃.R R1 = m.R R1 + m.R R1
      ∧ ∀ r, r ≠ R1 → r ≠ R4 → r ≠ R7 → m₃.R r = m.R r := by
    refine ⟨by simp +decide [m₃, m₂, m₁], by simp +decide [m₃, m₂, m₁],
      fun r h1 h4 h7 => by simp [m₃, m₂, m₁, h1, h4, h7]⟩
  by_cases hneg : (m.R R4 + 1 - 8).toInt < 0
  · have s₃ : m₃.next (ins 3) = m₃.goto 58#16 :=
      next_opBR f₃ (by rw [htest]; exact (taken_n _).mpr hneg) (by rw [h₃]; decide)
    exact ⟨_, hquiet _ s₃, (if_pos hneg).symm, hregs.1, hregs.2.1, ⟨_, htest⟩, hregs.2.2⟩
  · have s₃ : m₃.next (ins 3) = m₃.goto (m₃.PC + 1) :=
      next_opBR_of_not f₃ (by rw [htest]; exact fun h => hneg ((taken_n _).mp h))
    refine ⟨_, hquiet _ s₃, ?_, hregs.1, hregs.2.1, ⟨_, htest⟩, hregs.2.2⟩
    rw [if_neg hneg, goto_PC, h₃]
    rfl

end Pieces

/-! ## The total -/

/-- The upper `k` bits of the low byte of `x`, as a signed number. -/
def topBits (x : BitVec 16) (k : ℕ) : BitVec 16 :=
  ((x.extractLsb' 0 8).signExtend 16).sshiftRight (8 - k)

/-- The running total after `k` passes. -/
def total (x y : BitVec 16) (k : ℕ) : BitVec 16 := if k = 0 then 0 else topBits x k * y

theorem topBits_succ (x : BitVec 16) {k : ℕ} (hk : 0 < k) (hk8 : k < 8) :
    topBits x (k + 1)
      = topBits x k + topBits x k + (if x.getLsbD (7 - k) then 1 else 0) := by
  have hbyte : ∀ b : BitVec 8, ∀ k < 8, 0 < k → (b.signExtend 16).sshiftRight (8 - (k + 1))
      = (b.signExtend 16).sshiftRight (8 - k) + (b.signExtend 16).sshiftRight (8 - k)
        + (if b.getLsbD (7 - k) then 1 else 0) := by
    decide +kernel
  have h := hbyte (x.extractLsb' 0 8) k hk8 hk
  rw [BitVec.getLsbD_extractLsb', Nat.zero_add, decide_eq_true (by omega), Bool.true_and] at h
  exact h

theorem topBits_one (x : BitVec 16) : topBits x 1 = -(if x.getLsbD 7 then 1 else 0) := by
  have hbyte : ∀ b : BitVec 8, (b.signExtend 16).sshiftRight (8 - 1)
      = -(if b.getLsbD 7 then 1 else 0) := by
    decide +kernel
  have h := hbyte (x.extractLsb' 0 8)
  rw [BitVec.getLsbD_extractLsb'] at h
  exact h

/-- The mask tests bit `7 - k` of the first operand. -/
theorem mask_test (x : BitVec 16) {k : ℕ} (hk : k < 8) :
    (0x0080#16 &&& (x <<< k) = 0) ↔ x.getLsbD (7 - k) = false := by
  have hpow : 0x0080#16 = BitVec.twoPow 16 7 := by decide
  have hbit : (x <<< k).getLsbD 7 = x.getLsbD (7 - k) := by
    rw [BitVec.getLsbD_shiftLeft, decide_eq_false (show ¬7 < k by omega)]
    rfl
  rw [hpow, BitVec.and_comm, BitVec.and_twoPow, hbit]
  cases x.getLsbD (7 - k)
  · simp
  · simp only [if_true, Bool.true_eq_false, iff_false]
    decide

/-- One pass: double, add, and negate the first time. -/
theorem total_succ (x y : BitVec 16) {k : ℕ} (hk : k < 8) :
    total x y (k + 1)
      = if 0 < k then
          total x y k + total x y k + (if 0x0080#16 &&& (x <<< k) = 0 then 0 else y)
        else -(total x y k + total x y k + (if 0x0080#16 &&& (x <<< k) = 0 then 0 else y)) := by
  have hbit : (if 0x0080#16 &&& (x <<< k) = 0 then 0 else y)
      = (if x.getLsbD (7 - k) then 1 else 0) * y := by
    by_cases h : x.getLsbD (7 - k) = true
    · rw [if_neg fun h0 => Bool.false_ne_true (((mask_test x hk).mp h0).symm.trans h), if_pos h,
        one_mul]
    · rw [if_pos ((mask_test x hk).mpr (Bool.eq_false_of_not_eq_true h)), if_neg h, zero_mul]
  rw [hbit, total, if_neg (Nat.succ_ne_zero k)]
  by_cases hpos : 0 < k
  · rw [if_pos hpos, total, if_neg (Nat.ne_of_gt hpos), topBits_succ x hpos hk, add_mul, add_mul]
  · obtain rfl : k = 0 := by omega
    rw [if_neg hpos, total, if_pos rfl, topBits_one, neg_mul, zero_add, zero_add]

/-! ## The loop -/

/-- Before pass `k`; after the last one the machine is behind the loop. -/
structure Pass (x y : BitVec 16) (mem : TestMemory.Words) (hex : BitVec 16) (k : ℕ)
    (m : Machine) : Prop where
  PC : m.PC = if k < 8 then 58#16 else 70#16
  R0_zero : m.R R0 = 0
  R1_eq : m.R R1 = x <<< k
  R2_eq : m.R R2 = y
  R3_mask : m.R R3 = 0x0080#16
  R4_eq : m.R R4 = BitVec.ofNat 16 k
  R5_eq : m.R R5 = total x y k
  flags : 0 < k → ∃ v, m.CC = Isa.nzp v
  mem_eq : m.mem = mem
  hex_eq : m.hex_data = hex

theorem counter (k : ℕ) (hk : k < 8) : BitVec.ofNat 16 k + 1 = BitVec.ofNat 16 (k + 1)
    ∧ (0 < (BitVec.ofNat 16 k).toInt ↔ 0 < k)
    ∧ ((BitVec.ofNat 16 k + 1 - 8).toInt < 0 ↔ k + 1 < 8) := by
  interval_cases k <;> decide

theorem shiftLeft_succ (x : BitVec 16) (k : ℕ) : x <<< k + x <<< k = x <<< (k + 1) := by
  refine BitVec.eq_of_toNat_eq ?_
  rw [BitVec.toNat_add, BitVec.toNat_shiftLeft, BitVec.toNat_shiftLeft, Nat.shiftLeft_succ]
  omega

theorem Pass.next {x y : BitVec 16} {mem : TestMemory.Words} {hex : BitVec 16} {k : ℕ}
    {m : Machine} (h : Pass x y mem hex k m) (hk : k < 8) (hm : Resident 49 73 mem)
    (ins : ℕ → Input) :
    ∃ pcs m', Quiet m ins pcs m' ∧ (52#16 ∉ pcs ∧ 70#16 ∉ pcs ∧ pcs.count 58#16 = 1)
      ∧ Pass x y mem hex (k + 1) m' := by
  obtain ⟨hPC, h0, h1, h2, h3, h4, h5, -, hmem, hhex⟩ := h
  rw [if_pos hk] at hPC
  obtain ⟨hinc, hpos, hneg⟩ := counter k hk
  obtain ⟨pcs₁, m₁, q₁, hpcs₁, hPC₁, hR5₁, hR₁⟩ :=
    shift_and_add ins (by rw [hmem]; exact hm) hPC
  obtain ⟨pcs₂, m₂, q₂, hpcs₂, hPC₂, hR5₂, hR₂⟩ :=
    negate_first (later pcs₁.length ins) (by rw [q₁.2.1, hmem]; exact hm) hPC₁
  obtain ⟨m₃, q₃, hPC₃, hR4₃, hR1₃, hCC₃, hR₃⟩ :=
    count_pass (later pcs₂.length (later pcs₁.length ins))
      (by rw [q₂.2.1, q₁.2.1, hmem]; exact hm) hPC₂
  have hR : ∀ r, r ≠ R1 → r ≠ R4 → r ≠ R5 → r ≠ R7 → m₃.R r = m.R r := fun r hr1 hr4 hr5 hr7 =>
    (hR₃ r hr1 hr4 hr7).trans ((hR₂ r hr5).trans (hR₁ r hr5 hr7))
  have hR4 : m₂.R R4 = BitVec.ofNat 16 k :=
    (hR₂ R4 (by decide)).trans ((hR₁ R4 (by decide) (by decide)).trans h4)
  have hR1 : m₂.R R1 = x <<< k :=
    (hR₂ R1 (by decide)).trans ((hR₁ R1 (by decide) (by decide)).trans h1)
  refine ⟨pcs₁ ++ (pcs₂ ++ [66, 67, 68, 69]), m₃, q₁.append (q₂.append q₃), ?_, ?_⟩
  · rcases hpcs₁ with rfl | rfl <;> rcases hpcs₂ with rfl | rfl <;> decide
  refine ⟨?_, ?_, ?_, ?_, ?_, ?_, ?_, fun _ => hCC₃, ?_, ?_⟩
  · rw [hPC₃, hR4]
    exact if_congr hneg rfl rfl
  · rw [hR R0 (by decide) (by decide) (by decide) (by decide), h0]
  · rw [hR1₃, hR1, shiftLeft_succ]
  · rw [hR R2 (by decide) (by decide) (by decide) (by decide), h2]
  · rw [hR R3 (by decide) (by decide) (by decide) (by decide), h3]
  · rw [hR4₃, hR4, hinc]
  · rw [hR₃ R5 (by decide) (by decide) (by decide), hR5₂, hR₁ R4 (by decide) (by decide), hR5₁, h1,
      h2, h3, h4, h5, total_succ x y hk]
    exact if_congr hpos rfl rfl
  · rw [q₃.2.1, q₂.2.1, q₁.2.1, hmem]
  · rw [q₃.2.2, q₂.2.2, q₁.2.2, hhex]

theorem Pass.loop {x y : BitVec 16} {mem : TestMemory.Words} {hex : BitVec 16} {m : Machine}
    (h : Pass x y mem hex 0 m) (hm : Resident 49 73 mem) (ins : ℕ → Input) {k : ℕ} (hk : k ≤ 8) :
    ∃ pcs m', Quiet m ins pcs m' ∧ (52#16 ∉ pcs ∧ 70#16 ∉ pcs ∧ pcs.count 58#16 = k)
      ∧ Pass x y mem hex k m' := by
  induction k with
  | zero => exact ⟨[], m, .nil, ⟨List.not_mem_nil, List.not_mem_nil, rfl⟩, h⟩
  | succ k ih =>
      obtain ⟨pcs, m₁, q, ⟨h52, h70, h58⟩, hpass⟩ := ih (by omega)
      obtain ⟨pcs', m', q', ⟨h52', h70', h58'⟩, hpass'⟩ :=
        hpass.next (by omega) hm (later pcs.length ins)
      refine ⟨pcs ++ pcs', m', q.append q', ⟨?_, ?_, ?_⟩, hpass'⟩
      · exact fun hmem => (List.mem_append.mp hmem).elim h52 h52'
      · exact fun hmem => (List.mem_append.mp hmem).elim h70 h70'
      · rw [List.count_append, h58, h58']

/-! ## One multiplication -/

/-- At word 52, with the registers the program sets up once. -/
structure Ready (mem : TestMemory.Words) (m : Machine) : Prop where
  PC : m.PC = 52#16
  R0_zero : m.R R0 = 0
  R3_mask : m.R R3 = 0x0080#16
  mem_eq : m.mem = mem

variable {mem : TestMemory.Words} {m : Machine}

theorem rd_inSW (hm : m.R R0 = 0) (S : BitVec 16) :
    m.rd S (m.R R0 + (imm 6 inSW).signExtend 16) = S := by
  have haddr : (0 : BitVec 16) + (imm 6 inSW).signExtend 16 = 0xFFFF#16 := by decide
  rw [hm, haddr]
  rfl

/-- 52 to 57: the operands are the switches at words 55 and 57. -/
theorem Ready.operands (h : Ready mem m) (hm : Resident 49 73 mem) (ins : ℕ → Input) :
    ∃ m', Quiet m ins [52, 53, 54, 55, 56, 57] m'
      ∧ Pass (ins 3).S (ins 5).S mem m.hex_data 0 m' := by
  obtain ⟨h₀, hR0, hR3, rfl⟩ := h
  let m₁ := m.setReg R4 0
  let m₂ := m₁.setReg R5 0
  let m₃ := m₂.goto (m₂.PC + 1)
  let m₄ := m₃.loadReg (ins 3) R1 (ins 3).S
  let m₅ := m₄.goto (m₄.PC + 1)
  let m₆ := m₅.loadReg (ins 5) R2 (ins 5).S
  have h₁ : m₁.PC = 53#16 := by simp [m₁, h₀]
  have h₂ : m₂.PC = 54#16 := by simp [m₂, h₁]
  have h₃ : m₃.PC = 55#16 := by simp [m₃, h₂]
  have h₄ : m₄.PC = 56#16 := by simp [m₄, h₃]
  have h₅ : m₅.PC = 57#16 := by simp [m₅, h₄]
  have hR0₃ : m₃.R R0 = 0 := by simp +decide [m₃, m₂, m₁, hR0]
  have hR0₅ : m₅.R R0 = 0 := by simp +decide [m₅, m₄, hR0₃]
  have s₀ : m.next (ins 0) = m₁ := next_opCLR (hm.fetch h₀ rfl)
  have s₁ : m₁.next (ins 1) = m₂ := next_opCLR (Resident.fetch (m := m₁) hm h₁ rfl)
  have s₂ : m₂.next (ins 2) = m₃ := next_opPSE (Resident.fetch (m := m₂) hm h₂ rfl)
  have s₃ : m₃.next (ins 3) = m₄ := by
    rw [next_opLDR (Resident.fetch (m := m₃) hm h₃ rfl), rd_inSW hR0₃]
  have s₄ : m₄.next (ins 4) = m₅ := next_opPSE (Resident.fetch (m := m₄) hm h₄ rfl)
  have s₅ : m₅.next (ins 5) = m₆ := by
    rw [next_opLDR (Resident.fetch (m := m₅) hm h₅ rfl), rd_inSW hR0₅]
  refine ⟨m₆, .cons h₀ s₀ rfl rfl (.cons h₁ s₁ rfl rfl (.cons h₂ s₂ rfl rfl (.cons h₃ s₃ rfl rfl
    (.cons h₄ s₄ rfl rfl (.cons h₅ s₅ rfl rfl .nil))))), ?_⟩
  refine ⟨by simp [m₆, h₅], by simp +decide [m₆, hR0₅], ?_, by simp [m₆], ?_, ?_, ?_,
    fun h0 => absurd h0 (Nat.lt_irrefl 0), rfl, rfl⟩
  · rw [BitVec.shiftLeft_zero]
    simp +decide [m₆, m₅, m₄]
  · simp +decide [m₆, m₅, m₄, m₃, m₂, m₁, hR3]
  · simp +decide [m₆, m₅, m₄, m₃, m₂, m₁]
  · simp +decide [m₆, m₅, m₄, m₃, m₂, total]

theorem Pass.output {x y hex : BitVec 16} (h : Pass x y mem hex 8 m) (hm : Resident 49 73 mem)
    (ins : ℕ → Input) :
    m.PC = 70#16 ∧ (m.next (ins 0)).mem = mem
      ∧ (m.next (ins 0)).hex_data = (x.extractLsb' 0 8).signExtend 16 * y
      ∧ ∃ m', Quiet (m.next (ins 0)) (later 1 ins) [71, 72] m' ∧ Ready mem m' := by
  obtain ⟨h₀, hR0, -, -, hR3, -, hR5, hflags, rfl, -⟩ := h
  obtain ⟨v, hCC⟩ := hflags (by decide)
  have haddr : m.R R0 + (imm 6 outHEX).signExtend 16 = 0xFFFF#16 := by
    rw [hR0]
    decide
  let m₁ := m.store 0xFFFF#16 (m.R R5)
  have s₀ : m.next (ins 0) = m₁ := by
    rw [next_opSTR (hm.fetch h₀ rfl), haddr]
  obtain ⟨hmem₁, hhex₁⟩ := store_hex m (m.R R5)
  let m₂ := m₁.goto (m₁.PC + 1)
  have hm₁ : Resident 49 73 m₁.mem := by
    rw [hmem₁]
    exact hm
  have h₁ : m₁.PC = 71#16 := by simp [m₁, h₀]
  have h₂ : m₂.PC = 72#16 := by simp [m₂, h₁]
  have s₁ : m₁.next (ins 1) = m₂ := next_opPSE (hm₁.fetch h₁ rfl)
  have s₂ : m₂.next (ins 2) = m₂.goto 52#16 := by
    refine next_opBR (Resident.fetch (m := m₂) hm₁ h₂ rfl) ?_
      (by rw [h₂]; decide)
    simp only [m₂, m₁, goto_CC, store_CC, hCC]
    exact taken_nzp v
  rw [s₀]
  refine ⟨h₀, hmem₁, ?_, m₂.goto 52#16, .cons h₁ s₁ rfl rfl (.cons h₂ s₂ rfl rfl .nil), rfl, ?_, ?_,
    hmem₁⟩
  · rw [hhex₁, hR5, total, topBits]
    simp
  · simp [m₂, m₁, hR0]
  · simp [m₂, m₁, hR3]

/-- From word 52 the machine multiplies the operands it reads at words 55 and
57, shows the product at word 70, and is back at word 52 after `n`
instructions. -/
structure Multiplies (m : Machine) (ins : ℕ → Input) (n : ℕ) : Prop where
  start : m.PC = 52#16
  operands : (m.run ins 3).PC = 55#16 ∧ (m.run ins 5).PC = 57#16
  passes : (labels (fun m : Machine => m.PC) (fun i m => m.next i) m ins n).count 58#16 = 8
  output : ∃ e, e < n ∧ (m.run ins e).PC = 70#16
    ∧ (∀ k, k < n → (m.run ins k).PC = 70#16 → k = e)
    ∧ (∀ k, k ≤ e → (m.run ins k).hex_data = m.hex_data)
    ∧ ∀ k, e < k → k ≤ n →
      (m.run ins k).hex_data = ((ins 3).S.extractLsb' 0 8).signExtend 16 * (ins 5).S
  mem : ∀ k, k ≤ n → (m.run ins k).mem = m.mem
  back : NextVisit (fun m : Machine => m.PC = 52#16) (m.run ins) n

/-- What is seen before the result is stored in step `e`, and behind it. -/
theorem Quiet.around {m m₁ m₂ : Machine} {ins : ℕ → Input} {pcs pcs' : List (BitVec 16)} {e : ℕ}
    {v : BitVec 16} (q : Quiet m ins pcs m₁) (he : pcs.length = e)
    (hmem : (m₁.next (ins e)).mem = m.mem) (hhex : (m₁.next (ins e)).hex_data = v)
    (q' : Quiet (m₁.next (ins e)) (later 1 (later e ins)) pcs' m₂) :
    (∀ k, k ≤ e → (m.run ins k).mem = m.mem ∧ (m.run ins k).hex_data = m.hex_data)
      ∧ ∀ k, e < k → k ≤ e + 1 + pcs'.length →
        (m.run ins k).mem = m.mem ∧ (m.run ins k).hex_data = v := by
  subst he
  refine ⟨fun k hk => q.unchanged hk, fun k hlt hk => ?_⟩
  obtain ⟨j, rfl⟩ : ∃ j, k = pcs.length + (j + 1) := ⟨k - pcs.length - 1, by omega⟩
  have hrun : m.run ins (pcs.length + (j + 1))
      = (m₁.next (ins pcs.length)).run (later 1 (later pcs.length ins)) j := by
    have hhere : Clocked.run (fun i m => m.next i) m ins pcs.length = m₁ := q.run_eq
    rw [Machine.run, run_add, hhere, run_succ']
    rfl
  have hquiet := q'.unchanged (k := j) (by omega)
  rw [hrun]
  exact ⟨hquiet.1.trans hmem, hquiet.2.trans hhex⟩

theorem Ready.multiplies (h : Ready mem m) (hm : Resident 49 73 mem) (ins : ℕ → Input) :
    ∃ n, Multiplies m ins n ∧ Ready mem (m.run ins n) := by
  obtain ⟨m₀, q₀, hpass⟩ := h.operands hm ins
  obtain ⟨pcs, m₁, q₁, ⟨h52, h70, h58⟩, hpass'⟩ := hpass.loop hm (later 6 ins) (Nat.le_refl 8)
  have q := q₀.append q₁
  have hlen : ([52, 53, 54, 55, 56, 57] ++ pcs : List (BitVec 16)).length = pcs.length + 6 := by
    rw [List.length_append, Nat.add_comm]
    rfl
  obtain ⟨hPC, hmem, hhex, m₃, q₃, hready⟩ :=
    hpass'.output hm (later (pcs.length + 6) ins)
  obtain ⟨hbefore, hafter⟩ := q.around hlen (hmem.trans h.mem_eq.symm) hhex q₃
  rw [← hlen] at q₃
  have hwalk : Walk (fun m : Machine => m.PC) (fun i m => m.next i) m ins
      ([52, 53, 54, 55, 56, 57] ++ pcs ++ [70, 71, 72]) m₃ :=
    q.pcs_walk.append (Walk.cons hPC rfl q₃.pcs_walk)
  have hn : ([52, 53, 54, 55, 56, 57] ++ pcs ++ [70, 71, 72] : List (BitVec 16)).length
      = pcs.length + 9 := by
    rw [List.length_append, hlen]
    rfl
  have h70' : 70#16 ∉ [52, 53, 54, 55, 56, 57] ++ pcs := fun hmem =>
    (List.mem_append.mp hmem).elim (by decide) h70
  have h52' : 52#16 ∉ [53, 54, 55, 56, 57] ++ pcs ++ [70, 71, 72] := fun hmem =>
    (List.mem_append.mp hmem).elim (fun hmem => (List.mem_append.mp hmem).elim (by decide) h52)
      (by decide)
  obtain ⟨hout, honly⟩ := hwalk.only_at h70' (by decide)
  rw [hlen] at hout honly
  refine ⟨pcs.length + 9, ⟨h.PC, ⟨hwalk.label_eq (k := 3) (by omega),
    hwalk.label_eq (k := 5) (by omega)⟩, ?_,
    ⟨pcs.length + 6, by omega, hout, fun k hk => honly k (by rw [hn]; exact hk),
      fun k hk => (hbefore k hk).2, fun k hlt hk => (hafter k hlt hk).2⟩, fun k hk => ?_, ?_⟩, ?_⟩
  · rw [← hn, hwalk.2, List.count_append, List.count_append, h58]
    rfl
  · rcases Nat.lt_or_ge (pcs.length + 6) k with hlt | hle
    · exact (hafter k hlt hk).1
    · exact (hbefore k hle).1
  · rw [← hn]
    exact Walk.nextVisit hwalk h52' hready.PC
  · rw [← hn, Machine.run, hwalk.1]
    exact hready

/-- 49 to 51: the mask is loaded through the link register. -/
theorem entry (h₀ : m.PC = 49#16) (hm : Resident 49 73 m.mem) (ins : ℕ → Input) :
    ∃ m', Quiet m ins [49, 50, 51] m' ∧ Ready m.mem m' := by
  let m₁ := m.setReg R0 0
  let m₂ : Machine := { m₁ with
    PC := m₁.PC + 1 + (imm 11 0).signExtend 16, R := Function.update m₁.R R7 (m₁.PC + 1) }
  let m₃ := m₂.loadReg (ins 2) R3 0x0080#16
  have h₁ : m₁.PC = 50#16 := by simp [m₁, h₀]
  have h₂ : m₂.PC = 51#16 := by
    simp only [m₂, h₁]
    decide
  have haddr : m₂.R R7 + (imm 6 22).signExtend 16 = 73#16 := by
    simp only [m₂, Function.update_self, h₁]
    decide
  have hmask : m₂.rd (ins 2).S 73#16 = 0x0080#16 := by
    rw [Arch.rd, if_neg (by decide)]
    exact hm 73 (by decide) (by decide)
  have s₀ : m.next (ins 0) = m₁ := next_opCLR (hm.fetch h₀ rfl)
  have s₁ : m₁.next (ins 1) = m₂ := next_opJSR (Resident.fetch (m := m₁) hm h₁ rfl)
  have s₂ : m₂.next (ins 2) = m₃ := by
    rw [next_opLDR (Resident.fetch (m := m₂) hm h₂ rfl), haddr, hmask]
  refine ⟨m₃, .cons h₀ s₀ rfl rfl (.cons h₁ s₁ rfl rfl (.cons h₂ s₂ rfl rfl .nil)), ?_, ?_, ?_, rfl⟩
  · simp [m₃, h₂]
  · simp +decide [m₃, m₂, m₁]
  · simp [m₃]

/-- **The multiplication program multiplies.** `T i` is the beginning of the
multiplication `i`. -/
theorem multiply_program (m : Machine) (ins : ℕ → Input) (hPC : m.PC = 49#16)
    (hprog : Resident 49 73 m.mem) :
    (∀ k, (m.run ins k).mem = m.mem)
      ∧ ∃ T : ℕ → ℕ, T 0 = 3 ∧ ∀ i, ∃ n, T (i + 1) = T i + n
        ∧ Multiplies (m.run ins (T i)) (later (T i) ins) n := by
  obtain ⟨m', q, hready⟩ := entry hPC hprog ins
  have h3 : m.run ins 3 = m' := q.run_eq
  have hmultiplies : ∀ (m' : Machine) (ins : ℕ → Input), Ready m.mem m' →
      ∃ n, Multiplies m' ins n ∧ Ready m.mem (Clocked.run (fun i m => m.next i) m' ins n) :=
    fun m' ins hready => hready.multiplies hprog ins
  obtain ⟨T, hT0, hT⟩ := exists_rounds (later 3 ins) hmultiplies hready
  have hsplit : ∀ t k, m.run ins (t + k) = (m.run ins t).run (later t ins) k := fun t k =>
    run_add t k
  have hround : ∀ i, Ready m.mem (m.run ins (3 + T i)) ∧ ∃ n, T (i + 1) = T i + n
      ∧ Multiplies (m.run ins (3 + T i)) (later (3 + T i) ins) n := by
    intro i
    rw [hsplit, h3, ← later_later]
    exact hT i
  refine ⟨fun k => ?_, fun i => 3 + T i, congrArg (3 + ·) hT0, fun i => ?_⟩
  · rcases Nat.lt_or_ge k 3 with hlt | hge
    · exact (q.unchanged (Nat.le_of_lt hlt)).1
    have hmono : ∀ i, 3 + T i < 3 + T (i + 1) := by
      intro i
      obtain ⟨-, n, hn, hmul⟩ := hround i
      have hpos := hmul.back.1
      omega
    obtain ⟨i, hi, hki⟩ := exists_round hmono (k := k) (by rw [hT0]; exact hge)
    obtain ⟨hready, n, hn, hmul⟩ := hround i
    obtain ⟨j, rfl⟩ : ∃ j, k = 3 + T i + j := ⟨k - (3 + T i), by omega⟩
    rw [hsplit, hmul.mem j (by omega), hready.mem_eq]
  · obtain ⟨-, n, hn, hmul⟩ := hround i
    exact ⟨n, (congrArg (3 + ·) hn).trans (Nat.add_assoc 3 (T i) n).symm, hmul⟩

/-- On the memory as shipped, with other registers cleared. -/
theorem multiply_program_shipped :
    ∃ T : ℕ → ℕ, T 0 = 3 ∧ ∀ i, ∃ n, T (i + 1) = T i + n
      ∧ Multiplies (Machine.run ⟨⟨49#16, fun _ => 0, TestMemory.initial, 0⟩, 0⟩
          (fun _ => ⟨0x0003#16, false⟩) (T i)) (fun _ => ⟨0x0003#16, false⟩) n :=
  (multiply_program ⟨⟨49#16, fun _ => 0, TestMemory.initial, 0⟩, 0⟩ (fun _ => ⟨0x0003#16, false⟩)
    rfl fun _ _ _ => rfl).2

end MultiplyProgram

end Isa

end Ece385
