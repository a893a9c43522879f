import Ece385.Slc3.Flags
import Ece385.Sync.Walk

/-!
# The documented machine

What a programmer of `SLC3_2` relies on: `Isa.step`, with the flags the comment
of `opBR` names. `ADD`, `AND` and `NOT` set them to the `nzp` of the result; for
a load the documentation leaves it open, so every load decides for itself
(`load_sets_CC`). A `PAUSE` is continued.

The rest of the module is for programs: one lemma per encoder says what the
instruction does (`next_opADD` and its siblings), and `Resident` that a part of
`test_memory` holds the words it is shipped with.
-/

namespace Ece385

open Clocked

namespace Isa

open SLC3_2

/-- The switches during an instruction, and whether it sets the flags in case
it is a load. -/
structure Input where
  S : BitVec 16
  load_sets_CC : Bool

structure Machine extends Arch where
  CC : BitVec 3

/-- The instructions that set the flags. -/
def setsCC (w : BitVec 16) (i : Input) : Bool :=
  Instr.opcode w = op_ADD || Instr.opcode w = op_AND || Instr.opcode w = op_NOT
    || (Instr.opcode w = op_LDR && i.load_sets_CC)

namespace Machine

variable (m : Machine) (i : Input)

/-- The instruction at `PC`. -/
def fetch : BitVec 16 := m.rd i.S m.PC

/-- One instruction. -/
def next : Machine :=
  let w := m.fetch i
  let a := step w i.S (brTaken w m.CC) m.toArch
  { toArch := a, CC := if setsCC w i then nzp (a.R (Instr.dr w)) else m.CC }

/-- The machine after `n` instructions. -/
def run (ins : ℕ → Input) : ℕ → Machine := Clocked.run (fun i m => m.next i) m ins

/-! ## What an instruction does -/

/-- `DR <- v`. -/
def setReg (d : BitVec 3) (v : BitVec 16) : Machine :=
  { m with PC := m.PC + 1, R := Function.update m.R d v, CC := nzp v }

def loadReg (d : BitVec 3) (v : BitVec 16) : Machine :=
  { m.setReg d v with CC := if i.load_sets_CC then nzp v else m.CC }

def goto (PC : BitVec 16) : Machine := { m with PC := PC }

def store (addr v : BitVec 16) : Machine :=
  { toArch := ({ m.toArch with PC := m.PC + 1 } : Arch).wr addr v, CC := m.CC }

section Fields

variable (d e : BitVec 3) (v addr : BitVec 16)

@[simp] theorem setReg_PC : (m.setReg d v).PC = m.PC + 1 := rfl
@[simp] theorem setReg_R : (m.setReg d v).R e = if e = d then v else m.R e :=
  Function.update_apply ..
@[simp] theorem setReg_CC : (m.setReg d v).CC = nzp v := rfl

@[simp] theorem loadReg_PC : (m.loadReg i d v).PC = m.PC + 1 := rfl
@[simp] theorem loadReg_R : (m.loadReg i d v).R e = if e = d then v else m.R e :=
  Function.update_apply ..

@[simp] theorem goto_PC : (m.goto v).PC = v := rfl
@[simp] theorem goto_R : (m.goto v).R = m.R := rfl
@[simp] theorem goto_CC : (m.goto v).CC = m.CC := rfl

@[simp] theorem store_PC : (m.store addr v).PC = m.PC + 1 := by
  unfold store Arch.wr
  split
  · rfl
  · split <;> rfl

@[simp] theorem store_R : (m.store addr v).R = m.R := by
  unfold store Arch.wr
  split
  · rfl
  · split <;> rfl

@[simp] theorem store_CC : (m.store addr v).CC = m.CC := rfl

theorem store_mem (h : addr.toNat < 256) :
    (m.store addr v).mem = Function.update m.mem (addr.extractLsb' 0 8) v
      ∧ (m.store addr v).hex_data = m.hex_data := by
  have hne : addr ≠ 0xFFFF#16 := by
    rintro rfl
    exact absurd h (by decide)
  simp [store, Arch.wr, hne, h]

theorem store_hex : (m.store 0xFFFF#16 v).mem = m.mem ∧ (m.store 0xFFFF#16 v).hex_data = v := by
  simp [store, Arch.wr]

end Fields

end Machine

/-! ## Fields of an instruction word -/

theorem word_fields (op : BitVec 4) (d b : BitVec 3) (t : BitVec 6) :
    Instr.opcode (op ++ d ++ b ++ t) = op ∧ Instr.dr (op ++ d ++ b ++ t) = d
      ∧ Instr.sr1 (op ++ d ++ b ++ t) = b
      ∧ (op ++ d ++ b ++ t : BitVec 16).extractLsb' 0 6 = t := by
  have hd := d.isLt
  have hb := b.isLt
  have ht := t.isLt
  refine ⟨?_, ?_, ?_, BitVec.extractLsb'_append_eq_right⟩
  all_goals
    refine BitVec.eq_of_toNat_eq ?_
    simp only [Instr.opcode, Instr.dr, Instr.sr1, BitVec.extractLsb'_toNat, toNat_append_add,
      Nat.shiftRight_eq_div_pow]
    omega

theorem operand2_reg {w : BitVec 16} {b : BitVec 3} (h : w.extractLsb' 0 6 = 0#3 ++ b)
    (R : RegFile) : Instr.operand2 w R = R b := by
  have hbit : w.getLsbD 5 = false := by
    have hget : (w.extractLsb' 0 6).getLsbD 5 = w.getLsbD 5 := by simp
    rw [← hget, h, BitVec.getLsbD_append]
    rfl
  have hsr2 : Instr.sr2 w = b := by
    have hget : (w.extractLsb' 0 6).extractLsb' 0 3 = w.extractLsb' 0 3 :=
      BitVec.extractLsb'_extractLsb'_of_le (by decide)
    rw [Instr.sr2, ← hget, h]
    exact BitVec.extractLsb'_append_eq_right
  rw [Instr.operand2, hbit, hsr2]
  rfl

theorem operand2_imm {w : BitVec 16} {k : BitVec 5} (h : w.extractLsb' 0 6 = 1#1 ++ k)
    (R : RegFile) : Instr.operand2 w R = k.signExtend 16 := by
  have hbit : w.getLsbD 5 = true := by
    have hget : (w.extractLsb' 0 6).getLsbD 5 = w.getLsbD 5 := by simp
    rw [← hget, h, BitVec.getLsbD_append]
    rfl
  have himm : w.extractLsb' 0 5 = k := by
    have hget : (w.extractLsb' 0 6).extractLsb' 0 5 = w.extractLsb' 0 5 :=
      BitVec.extractLsb'_extractLsb'_of_le (by decide)
    rw [← hget, h]
    exact BitVec.extractLsb'_append_eq_right
  rw [Instr.operand2, hbit, Instr.imm5, himm]
  rfl

theorem opADD_eq (d a b : BitVec 3) : opADD d a b = op_ADD ++ d ++ a ++ (0#3 ++ b) := by
  refine BitVec.eq_of_toNat_eq ?_
  simp only [opADD, toNat_append_add, BitVec.toNat_ofNat]
  omega

theorem opAND_eq (d a b : BitVec 3) : opAND d a b = op_AND ++ d ++ a ++ (0#3 ++ b) := by
  refine BitVec.eq_of_toNat_eq ?_
  simp only [opAND, toNat_append_add, BitVec.toNat_ofNat]
  omega

theorem opADDi_eq (d a : BitVec 3) (k : ℤ) :
    opADDi d a k = op_ADD ++ d ++ a ++ (1#1 ++ imm 5 k) := by
  refine BitVec.eq_of_toNat_eq ?_
  simp only [opADDi, toNat_append_add, BitVec.toNat_ofNat]
  omega

theorem opCLR_eq (d : BitVec 3) : opCLR d = op_AND ++ d ++ d ++ (1#1 ++ 0#5) := by
  refine BitVec.eq_of_toNat_eq ?_
  simp only [opCLR, toNat_append_add, BitVec.toNat_ofNat]
  omega

theorem branch_fields (c : BitVec 3) (k : ℤ) :
    Instr.opcode (opBR c k) = op_BR ∧ mask (opBR c k) = c
      ∧ Instr.off9 (opBR c k) = (imm 9 k).signExtend 16 := by
  have hc := c.isLt
  have hk := (imm 9 k).isLt
  refine ⟨?_, ?_, congrArg _ BitVec.extractLsb'_append_eq_right⟩
  all_goals
    refine BitVec.eq_of_toNat_eq ?_
    simp only [Instr.opcode, mask, opBR, BitVec.extractLsb'_toNat, toNat_append_add,
      Nat.shiftRight_eq_div_pow]
    omega

theorem jump_fields (k : ℤ) :
    Instr.opcode (opJSR k) = op_JSR ∧ Instr.off11 (opJSR k) = (imm 11 k).signExtend 16 := by
  have hk := (imm 11 k).isLt
  refine ⟨?_, congrArg _ BitVec.extractLsb'_append_eq_right⟩
  refine BitVec.eq_of_toNat_eq ?_
  simp only [Instr.opcode, opJSR, BitVec.extractLsb'_toNat, toNat_append_add, BitVec.toNat_ofNat,
    Nat.shiftRight_eq_div_pow]
  omega

section EncoderFields

variable (d a b : BitVec 3) (k : ℤ)

theorem opADD_fields : Instr.opcode (opADD d a b) = op_ADD ∧ Instr.dr (opADD d a b) = d
    ∧ Instr.sr1 (opADD d a b) = a ∧ ∀ R, Instr.operand2 (opADD d a b) R = R b := by
  rw [opADD_eq]
  obtain ⟨hop, hd, ha, ht⟩ := word_fields op_ADD d a (0#3 ++ b)
  exact ⟨hop, hd, ha, operand2_reg ht⟩

theorem opADDi_fields : Instr.opcode (opADDi d a k) = op_ADD ∧ Instr.dr (opADDi d a k) = d
    ∧ Instr.sr1 (opADDi d a k) = a
    ∧ ∀ R, Instr.operand2 (opADDi d a k) R = (imm 5 k).signExtend 16 := by
  rw [opADDi_eq]
  obtain ⟨hop, hd, ha, ht⟩ := word_fields op_ADD d a (1#1 ++ imm 5 k)
  exact ⟨hop, hd, ha, operand2_imm ht⟩

theorem opAND_fields : Instr.opcode (opAND d a b) = op_AND ∧ Instr.dr (opAND d a b) = d
    ∧ Instr.sr1 (opAND d a b) = a ∧ ∀ R, Instr.operand2 (opAND d a b) R = R b := by
  rw [opAND_eq]
  obtain ⟨hop, hd, ha, ht⟩ := word_fields op_AND d a (0#3 ++ b)
  exact ⟨hop, hd, ha, operand2_reg ht⟩

theorem opCLR_fields : Instr.opcode (opCLR d) = op_AND ∧ Instr.dr (opCLR d) = d
    ∧ Instr.sr1 (opCLR d) = d ∧ ∀ R, Instr.operand2 (opCLR d) R = 0 := by
  rw [opCLR_eq]
  obtain ⟨hop, hd, ha, ht⟩ := word_fields op_AND d d (1#1 ++ 0#5)
  exact ⟨hop, hd, ha, operand2_imm ht⟩

theorem opNOT_fields : Instr.opcode (opNOT d a) = op_NOT ∧ Instr.dr (opNOT d a) = d
    ∧ Instr.sr1 (opNOT d a) = a := by
  obtain ⟨hop, hd, ha, -⟩ := word_fields op_NOT d a 0b000001#6
  exact ⟨hop, hd, ha⟩

theorem opJMP_fields : Instr.opcode (opJMP b) = op_JMP ∧ Instr.sr1 (opJMP b) = b := by
  obtain ⟨hop, -, hb, -⟩ := word_fields op_JMP 0#3 b 0#6
  exact ⟨hop, hb⟩

theorem opLDR_fields : Instr.opcode (opLDR d b k) = op_LDR ∧ Instr.dr (opLDR d b k) = d
    ∧ Instr.sr1 (opLDR d b k) = b ∧ Instr.off6 (opLDR d b k) = (imm 6 k).signExtend 16 := by
  obtain ⟨hop, hd, hb, ht⟩ := word_fields op_LDR d b (imm 6 k)
  exact ⟨hop, hd, hb, congrArg (BitVec.signExtend 16) ht⟩

theorem opSTR_fields : Instr.opcode (opSTR d b k) = op_STR ∧ Instr.dr (opSTR d b k) = d
    ∧ Instr.sr1 (opSTR d b k) = b ∧ Instr.off6 (opSTR d b k) = (imm 6 k).signExtend 16 := by
  obtain ⟨hop, hd, hb, ht⟩ := word_fields op_STR d b (imm 6 k)
  exact ⟨hop, hd, hb, congrArg (BitVec.signExtend 16) ht⟩

theorem opPSE_fields (l : BitVec 12) :
    Instr.opcode (opPSE l) = op_PSE ∧ (opPSE l).extractLsb' 0 12 = l :=
  ⟨BitVec.extractLsb'_append_eq_left, BitVec.extractLsb'_append_eq_right⟩

end EncoderFields

/-! ## Branches -/

/-- The decision of a branch: the mask has a flag in common with `CC`. -/
def taken (c CC : BitVec 3) : Prop := c &&& CC ≠ 0#3

instance (c CC : BitVec 3) : Decidable (taken c CC) := inferInstanceAs (Decidable (_ ≠ _))

theorem brTaken_eq (w : BitVec 16) (CC : BitVec 3) : brTaken w CC = decide (taken (mask w) CC) := by
  have hmask : ∀ c CC : BitVec 3, ((c.getLsbD 2 && CC.getLsbD 2) || (c.getLsbD 1 && CC.getLsbD 1)
      || (c.getLsbD 0 && CC.getLsbD 0)) = decide (taken c CC) := by
    decide
  rw [← hmask, brTaken, mask]
  simp

theorem eq_zero_iff (v : BitVec 16) : v = 0 ↔ v.toInt = 0 := by
  rw [← BitVec.toInt_inj]
  rfl

theorem nzp_cases (v : BitVec 16) : v.toInt < 0 ∧ Isa.nzp v = 0b100#3
    ∨ v.toInt = 0 ∧ Isa.nzp v = 0b010#3 ∨ 0 < v.toInt ∧ Isa.nzp v = 0b001#3 := by
  have hzero := eq_zero_iff v
  rcases Int.lt_trichotomy v.toInt 0 with h | h | h
  · have hle : ¬0 < v.toInt := by omega
    have hne : ¬v = 0#16 := fun hv => absurd (hzero.mp hv) (Int.ne_of_lt h)
    exact Or.inl ⟨h, by simp [Isa.nzp, h, hle, hne]⟩
  · exact Or.inr (Or.inl ⟨h, by simp [Isa.nzp, hzero.mpr h]⟩)
  · have hle : ¬v.toInt < 0 := by omega
    have hne : ¬v = 0#16 := fun hv => absurd (hzero.mp hv) (Int.ne_of_gt h)
    exact Or.inr (Or.inr ⟨h, by simp [Isa.nzp, h, hle, hne]⟩)

section Masks

variable (v : BitVec 16)

theorem taken_nzp : taken SLC3_2.nzp (Isa.nzp v) := by
  rcases nzp_cases v with ⟨-, h⟩ | ⟨-, h⟩ | ⟨-, h⟩ <;> rw [h] <;> decide

theorem taken_n : taken n (Isa.nzp v) ↔ v.toInt < 0 := by
  rcases nzp_cases v with ⟨hv, h⟩ | ⟨hv, h⟩ | ⟨hv, h⟩ <;> rw [h]
  · exact iff_of_true (by decide) hv
  · exact iff_of_false (by decide) (by omega)
  · exact iff_of_false (by decide) (by omega)

theorem taken_p : taken p (Isa.nzp v) ↔ 0 < v.toInt := by
  rcases nzp_cases v with ⟨hv, h⟩ | ⟨hv, h⟩ | ⟨hv, h⟩ <;> rw [h]
  · exact iff_of_false (by decide) (by omega)
  · exact iff_of_false (by decide) (by omega)
  · exact iff_of_true (by decide) hv

theorem taken_nz : taken nz (Isa.nzp v) ↔ v.toInt ≤ 0 := by
  rcases nzp_cases v with ⟨hv, h⟩ | ⟨hv, h⟩ | ⟨hv, h⟩ <;> rw [h]
  · exact iff_of_true (by decide) (by omega)
  · exact iff_of_true (by decide) (by omega)
  · exact iff_of_false (by decide) (by omega)

theorem taken_z : taken z (Isa.nzp v) ↔ v = 0 := by
  have hzero := eq_zero_iff v
  rcases nzp_cases v with ⟨hv, h⟩ | ⟨hv, h⟩ | ⟨hv, h⟩ <;> rw [h]
  · exact iff_of_false (by decide) fun h0 => absurd (hzero.mp h0) (Int.ne_of_lt hv)
  · exact iff_of_true (by decide) (hzero.mpr hv)
  · exact iff_of_false (by decide) fun h0 => absurd (hzero.mp h0) (Int.ne_of_gt hv)

end Masks

/-! ## One instruction, opcode by opcode -/

namespace Machine

section Opcodes

variable {m : Machine} {i : Input} {w : BitVec 16} (h : m.fetch i = w)
include h

theorem next_ADD (hop : Instr.opcode w = op_ADD) :
    m.next i = m.setReg (Instr.dr w) (m.R (Instr.sr1 w) + Instr.operand2 w m.R) := by
  unfold next
  simp [h, step, setsCC, hop, setReg]

theorem next_AND (hop : Instr.opcode w = op_AND) :
    m.next i = m.setReg (Instr.dr w) (m.R (Instr.sr1 w) &&& Instr.operand2 w m.R) := by
  unfold next
  simp [h, step, setsCC, hop, setReg, op_ADD, op_AND]

theorem next_NOT (hop : Instr.opcode w = op_NOT) :
    m.next i = m.setReg (Instr.dr w) (~~~(m.R (Instr.sr1 w))) := by
  unfold next
  simp [h, step, setsCC, hop, setReg, op_ADD, op_AND, op_NOT]

theorem next_BR (hop : Instr.opcode w = op_BR) :
    m.next i = m.goto (if taken (mask w) m.CC then m.PC + 1 + Instr.off9 w else m.PC + 1) := by
  unfold next
  simp [h, step, setsCC, hop, goto, brTaken_eq, op_ADD, op_AND, op_NOT, op_BR, op_LDR]

theorem next_JMP (hop : Instr.opcode w = op_JMP) : m.next i = m.goto (m.R (Instr.sr1 w)) := by
  unfold next
  simp [h, step, setsCC, hop, goto, op_ADD, op_AND, op_NOT, op_BR, op_JMP, op_LDR]

theorem next_JSR (hop : Instr.opcode w = op_JSR) :
    m.next i = { m with
      PC := m.PC + 1 + Instr.off11 w, R := Function.update m.R R7 (m.PC + 1) } := by
  unfold next
  simp [h, step, setsCC, hop, op_ADD, op_AND, op_NOT, op_BR, op_JMP, op_JSR, op_LDR, R7]

theorem next_LDR (hop : Instr.opcode w = op_LDR) :
    m.next i = m.loadReg i (Instr.dr w) (m.rd i.S (m.R (Instr.sr1 w) + Instr.off6 w)) := by
  unfold next
  simp [h, step, setsCC, hop, loadReg, setReg, op_ADD, op_AND, op_NOT, op_BR, op_JMP, op_JSR,
    op_LDR]

theorem next_STR (hop : Instr.opcode w = op_STR) :
    m.next i = m.store (m.R (Instr.sr1 w) + Instr.off6 w) (m.R (Instr.dr w)) := by
  unfold next
  simp [h, step, setsCC, hop, store, op_ADD, op_AND, op_NOT, op_BR, op_JMP, op_JSR, op_LDR, op_STR]

theorem next_PSE (hop : Instr.opcode w = op_PSE) : m.next i = m.goto (m.PC + 1) := by
  unfold next
  simp [h, step, setsCC, hop, goto, op_ADD, op_AND, op_NOT, op_BR, op_JMP, op_JSR, op_LDR, op_STR,
    op_PSE]

end Opcodes

section Encoders

variable {m : Machine} {i : Input} {d a b : BitVec 3} {k : ℤ}

theorem next_opADD (h : m.fetch i = opADD d a b) : m.next i = m.setReg d (m.R a + m.R b) := by
  obtain ⟨hop, hd, ha, hb⟩ := opADD_fields d a b
  rw [next_ADD h hop, hd, ha, hb]

theorem next_opADDi (h : m.fetch i = opADDi d a k) :
    m.next i = m.setReg d (m.R a + (imm 5 k).signExtend 16) := by
  obtain ⟨hop, hd, ha, hk⟩ := opADDi_fields d a k
  rw [next_ADD h hop, hd, ha, hk]

theorem next_opINC (h : m.fetch i = opINC d) : m.next i = m.setReg d (m.R d + 1) :=
  next_opADDi (k := 1) h

theorem next_opAND (h : m.fetch i = opAND d a b) : m.next i = m.setReg d (m.R a &&& m.R b) := by
  obtain ⟨hop, hd, ha, hb⟩ := opAND_fields d a b
  rw [next_AND h hop, hd, ha, hb]

theorem next_opCLR (h : m.fetch i = opCLR d) : m.next i = m.setReg d 0 := by
  obtain ⟨hop, hd, ha, hk⟩ := opCLR_fields d
  rw [next_AND h hop, hd, ha, hk]
  exact congrArg _ BitVec.and_zero

theorem next_opNOT (h : m.fetch i = opNOT d a) : m.next i = m.setReg d (~~~(m.R a)) := by
  obtain ⟨hop, hd, ha⟩ := opNOT_fields d a
  rw [next_NOT h hop, hd, ha]

theorem next_opBR {c : BitVec 3} {v : BitVec 16} (h : m.fetch i = opBR c k) (ht : taken c m.CC)
    (hv : m.PC + 1 + (imm 9 k).signExtend 16 = v) : m.next i = m.goto v := by
  obtain ⟨hop, hc, hoff⟩ := branch_fields c k
  rw [next_BR h hop, hc, hoff, if_pos ht, hv]

theorem next_opBR_of_not {c : BitVec 3} (h : m.fetch i = opBR c k) (ht : ¬taken c m.CC) :
    m.next i = m.goto (m.PC + 1) := by
  obtain ⟨hop, hc, -⟩ := branch_fields c k
  rw [next_BR h hop, hc, if_neg ht]

theorem next_opRET (h : m.fetch i = opRET) : m.next i = m.goto (m.R R7) := by
  obtain ⟨hop, hb⟩ := opJMP_fields R7
  rw [next_JMP h hop]
  exact congrArg (fun b => m.goto (m.R b)) hb

theorem next_opJSR (h : m.fetch i = opJSR k) :
    m.next i = { m with
      PC := m.PC + 1 + (imm 11 k).signExtend 16, R := Function.update m.R R7 (m.PC + 1) } := by
  obtain ⟨hop, hoff⟩ := jump_fields k
  rw [next_JSR h hop, hoff]

theorem next_opLDR (h : m.fetch i = opLDR d b k) :
    m.next i = m.loadReg i d (m.rd i.S (m.R b + (imm 6 k).signExtend 16)) := by
  obtain ⟨hop, hd, hb, hk⟩ := opLDR_fields d b k
  rw [next_LDR h hop, hd, hb, hk]

theorem next_opSTR (h : m.fetch i = opSTR d b k) :
    m.next i = m.store (m.R b + (imm 6 k).signExtend 16) (m.R d) := by
  obtain ⟨hop, hd, hb, hk⟩ := opSTR_fields d b k
  rw [next_STR h hop, hd, hb, hk]

theorem next_opPSE {l : BitVec 12} (h : m.fetch i = opPSE l) : m.next i = m.goto (m.PC + 1) :=
  next_PSE h (opPSE_fields l).1

end Encoders

end Machine

/-! ## Programs in memory -/

/-- The words from `lo` to `hi` are those `test_memory` is shipped with. -/
def Resident (lo hi : ℕ) (mem : TestMemory.Words) : Prop :=
  ∀ k, lo ≤ k → k ≤ hi → mem (BitVec.ofNat 8 k) = TestMemory.initial (BitVec.ofNat 8 k)

theorem Resident.fetch {lo hi k : ℕ} {m : Machine} {i : Input} {w : BitVec 16}
    (h : Resident lo hi m.mem) (hPC : m.PC = BitVec.ofNat 16 k)
    (hw : TestMemory.initial (BitVec.ofNat 8 k) = w) (hlo : lo ≤ k := by decide)
    (hhi : k ≤ hi := by decide) (hk : k < 256 := by decide) : m.fetch i = w := by
  have hne : m.PC ≠ 0xFFFF#16 := by
    rw [hPC]
    intro h
    have hnat := congrArg BitVec.toNat h
    simp only [BitVec.toNat_ofNat] at hnat
    omega
  have hlow : m.PC.extractLsb' 0 8 = BitVec.ofNat 8 k := by
    rw [hPC]
    refine BitVec.eq_of_toNat_eq ?_
    simp only [BitVec.extractLsb'_toNat, BitVec.toNat_ofNat, Nat.shiftRight_zero]
    omega
  rw [Machine.fetch, Arch.rd, if_neg hne, hlow, h k hlo hhi, hw]

end Isa

end Ece385
