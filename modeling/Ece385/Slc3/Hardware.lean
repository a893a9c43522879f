import Ece385.Slc3.Program
import Ece385.Slc3.Visits

/-!
# Programs on the board

What the encoders of `SLC3_2` make the processor do, as opposed to what they
document: the machine is `Core.next`, with the flags and the branches of the
netlist. One lemma an encoder, as for the documented machine. The difference is
in `next_opBR`: once an ALU instruction has run, the flag `n` is set and stays
set (`bit_n_next`), so a branch with `n` in its mask always jumps, and one
without jumps unless its mask is the complement of the flags.
-/

namespace Ece385

open Clocked

namespace Core

open SLC3_2
open Isa (Resident)

variable (a : Core TestMemory.Words)

/-! ## What an instruction does -/

/-- `DR <- v`, with the flags the netlist latches. -/
def put (d : BitVec 3) (v : BitVec 16) : Core TestMemory.Words :=
  { a with PC := a.PC + 1, R := Function.update a.R d v, CC := Datapath.ccOf v }

def loaded (d : BitVec 3) (v : BitVec 16) : Core TestMemory.Words :=
  { a with PC := a.PC + 1, R := Function.update a.R d v }

def goto (PC : BitVec 16) : Core TestMemory.Words := { a with PC := PC }

def call (PC : BitVec 16) : Core TestMemory.Words :=
  { a with PC := PC, R := Function.update a.R R7 (a.PC + 1) }

def stored (addr v : BitVec 16) : Core TestMemory.Words :=
  ({ a with PC := a.PC + 1 } : Core TestMemory.Words).store testMemory addr v

def paused (l : BitVec 12) : Core TestMemory.Words := { a with PC := a.PC + 1, LED := l }

section Fields

variable (d e : BitVec 3) (v addr : BitVec 16) (l : BitVec 12)

@[simp] theorem put_PC : (a.put d v).PC = a.PC + 1 := rfl
@[simp] theorem put_R : (a.put d v).R e = if e = d then v else a.R e := Function.update_apply ..
@[simp] theorem put_CC : (a.put d v).CC = Datapath.ccOf v := rfl
@[simp] theorem put_mem : (a.put d v).mem = a.mem := rfl
@[simp] theorem put_hex : (a.put d v).hex_data = a.hex_data := rfl
@[simp] theorem put_LED : (a.put d v).LED = a.LED := rfl

@[simp] theorem loaded_PC : (a.loaded d v).PC = a.PC + 1 := rfl
@[simp] theorem loaded_R : (a.loaded d v).R e = if e = d then v else a.R e :=
  Function.update_apply ..
@[simp] theorem loaded_CC : (a.loaded d v).CC = a.CC := rfl
@[simp] theorem loaded_mem : (a.loaded d v).mem = a.mem := rfl
@[simp] theorem loaded_hex : (a.loaded d v).hex_data = a.hex_data := rfl
@[simp] theorem loaded_LED : (a.loaded d v).LED = a.LED := rfl

@[simp] theorem goto_PC : (a.goto v).PC = v := rfl
@[simp] theorem goto_R : (a.goto v).R = a.R := rfl
@[simp] theorem goto_CC : (a.goto v).CC = a.CC := rfl
@[simp] theorem goto_mem : (a.goto v).mem = a.mem := rfl
@[simp] theorem goto_hex : (a.goto v).hex_data = a.hex_data := rfl
@[simp] theorem goto_LED : (a.goto v).LED = a.LED := rfl

@[simp] theorem call_PC : (a.call v).PC = v := rfl
@[simp] theorem call_R : (a.call v).R e = if e = R7 then a.PC + 1 else a.R e :=
  Function.update_apply ..
@[simp] theorem call_CC : (a.call v).CC = a.CC := rfl
@[simp] theorem call_mem : (a.call v).mem = a.mem := rfl
@[simp] theorem call_hex : (a.call v).hex_data = a.hex_data := rfl
@[simp] theorem call_LED : (a.call v).LED = a.LED := rfl

@[simp] theorem stored_PC : (a.stored addr v).PC = a.PC + 1 := rfl
@[simp] theorem stored_R : (a.stored addr v).R = a.R := rfl
@[simp] theorem stored_CC : (a.stored addr v).CC = a.CC := rfl
@[simp] theorem stored_LED : (a.stored addr v).LED = a.LED := rfl

@[simp] theorem paused_PC : (a.paused l).PC = a.PC + 1 := rfl
@[simp] theorem paused_R : (a.paused l).R = a.R := rfl
@[simp] theorem paused_CC : (a.paused l).CC = a.CC := rfl
@[simp] theorem paused_mem : (a.paused l).mem = a.mem := rfl
@[simp] theorem paused_hex : (a.paused l).hex_data = a.hex_data := rfl
@[simp] theorem paused_LED : (a.paused l).LED = l := rfl

end Fields

/-- A store to the display. -/
theorem stored_hex (v : BitVec 16) :
    (a.stored 0xFFFF#16 v).mem = a.mem ∧ (a.stored 0xFFFF#16 v).hex_data = v := by
  simp [stored, store, testMemory_wr]

/-- A store to the memory. -/
theorem stored_mem (addr : BitVec 16) (v : BitVec 16) (h : addr.toNat < 256) :
    (a.stored addr v).mem = Function.update a.mem (addr.extractLsb' 0 8) v
      ∧ (a.stored addr v).hex_data = a.hex_data := by
  have hne : addr ≠ 0xFFFF#16 := by
    rintro rfl
    exact absurd h (by decide)
  simp [stored, store, testMemory_wr, addr_high, addr_low, hne, h]

/-! ## One encoder after the other -/

/-- The instruction at `PC`. -/
def fetch (i : Samples) : BitVec 16 := System.load testMemory a.mem i.fetch a.PC

section Opcodes

variable {a} {i : Samples} {w : BitVec 16} (h : a.fetch i = w)
include h

theorem next_eq :
    a.next testMemory i = ({ a with PC := a.PC + 1 } : Core _).exec testMemory w i.load := by
  rw [next, effect, ← h, fetch]

theorem next_ADD (hop : Instr.opcode w = op_ADD) :
    a.next testMemory i = a.put (Instr.dr w) (a.R (Instr.sr1 w) + Instr.operand2 w a.R) := by
  rw [next_eq h, exec, hop]
  rfl

theorem next_AND (hop : Instr.opcode w = op_AND) :
    a.next testMemory i = a.put (Instr.dr w) (a.R (Instr.sr1 w) &&& Instr.operand2 w a.R) := by
  rw [next_eq h, exec, hop]
  rfl

theorem next_NOT (hop : Instr.opcode w = op_NOT) :
    a.next testMemory i = a.put (Instr.dr w) (~~~(a.R (Instr.sr1 w))) := by
  rw [next_eq h, exec, hop]
  rfl

theorem next_BR (hop : Instr.opcode w = op_BR) :
    a.next testMemory i
      = a.goto (if Datapath.benOf w a.CC then a.PC + 1 + Instr.off9 w else a.PC + 1) := by
  rw [next_eq h, exec, hop]
  rfl

theorem next_JMP (hop : Instr.opcode w = op_JMP) :
    a.next testMemory i = a.goto (a.R (Instr.sr1 w)) := by
  rw [next_eq h, exec, hop]
  rfl

theorem next_JSR (hop : Instr.opcode w = op_JSR) :
    a.next testMemory i = a.call (a.PC + 1 + Instr.off11 w) := by
  rw [next_eq h, exec, hop]
  rfl

theorem next_LDR (hop : Instr.opcode w = op_LDR) :
    a.next testMemory i = a.loaded (Instr.dr w)
      (System.load testMemory a.mem i.load (a.R (Instr.sr1 w) + Instr.off6 w)) := by
  rw [next_eq h, exec, hop]
  rfl

theorem next_STR (hop : Instr.opcode w = op_STR) :
    a.next testMemory i = a.stored (a.R (Instr.sr1 w) + Instr.off6 w) (a.R (Instr.dr w)) := by
  rw [next_eq h, exec, hop]
  rfl

theorem next_PSE (hop : Instr.opcode w = op_PSE) :
    a.next testMemory i = a.paused (w.extractLsb' 0 12) := by
  rw [next_eq h, exec, hop]
  rfl

end Opcodes

section Encoders

variable {a} {i : Samples} {d x y : BitVec 3} {k : ℤ}

theorem next_opADDi (h : a.fetch i = opADDi d x k) :
    a.next testMemory i = a.put d (a.R x + (imm 5 k).signExtend 16) := by
  obtain ⟨hop, hd, hx, hk⟩ := Isa.opADDi_fields d x k
  rw [next_ADD h hop, hd, hx, hk]

theorem next_opINC (h : a.fetch i = opINC d) : a.next testMemory i = a.put d (a.R d + 1) :=
  next_opADDi (k := 1) h

theorem next_opAND (h : a.fetch i = opAND d x y) :
    a.next testMemory i = a.put d (a.R x &&& a.R y) := by
  obtain ⟨hop, hd, hx, hy⟩ := Isa.opAND_fields d x y
  rw [next_AND h hop, hd, hx, hy]

theorem next_opCLR (h : a.fetch i = opCLR d) : a.next testMemory i = a.put d 0 := by
  obtain ⟨hop, hd, hx, hk⟩ := Isa.opCLR_fields d
  rw [next_AND h hop, hd, hx, hk]
  exact congrArg _ BitVec.and_zero

theorem next_opNOT (h : a.fetch i = opNOT d x) : a.next testMemory i = a.put d (~~~(a.R x)) := by
  obtain ⟨hop, hd, hx⟩ := Isa.opNOT_fields d x
  rw [next_NOT h hop, hd, hx]

/-- A branch jumps unless its mask is the complement of the flags. -/
theorem next_opBR {c : BitVec 3} (h : a.fetch i = opBR c k) :
    a.next testMemory i
      = a.goto (if c = ~~~a.CC then a.PC + 1 else a.PC + 1 + (imm 9 k).signExtend 16) := by
  obtain ⟨hop, hc, hoff⟩ := Isa.branch_fields c k
  have hben := (Datapath.benOf_brTaken_mask (opBR c k) a.CC).1
  rw [hc] at hben
  rw [next_BR h hop, hoff]
  by_cases hmask : c = ~~~a.CC
  · rw [if_neg fun hb => hben.mp hb hmask, if_pos hmask]
  · rw [if_pos (hben.mpr hmask), if_neg hmask]

/-- With the flag `n` set, a branch on `n` always jumps. -/
theorem next_opBR_n {c : BitVec 3} {v : BitVec 16} (h : a.fetch i = opBR c k)
    (hc : c.getLsbD 2 = true) (hn : a.CC.getLsbD 2 = true)
    (hv : a.PC + 1 + (imm 9 k).signExtend 16 = v) : a.next testMemory i = a.goto v := by
  have hne : c ≠ ~~~a.CC := by
    rintro rfl
    rw [BitVec.getLsbD_not, hn] at hc
    exact absurd hc (by decide)
  rw [next_opBR h, if_neg hne, hv]

theorem next_opJMP (h : a.fetch i = opJMP x) : a.next testMemory i = a.goto (a.R x) := by
  obtain ⟨hop, hx⟩ := Isa.opJMP_fields x
  rw [next_JMP h hop, hx]

theorem next_opRET (h : a.fetch i = opRET) : a.next testMemory i = a.goto (a.R R7) :=
  next_opJMP h

theorem next_opJSR {v : BitVec 16} (h : a.fetch i = opJSR k)
    (hv : a.PC + 1 + (imm 11 k).signExtend 16 = v) : a.next testMemory i = a.call v := by
  obtain ⟨hop, hoff⟩ := Isa.jump_fields k
  rw [next_JSR h hop, hoff, hv]

theorem next_opLDR (h : a.fetch i = opLDR d x k) :
    a.next testMemory i = a.loaded d
      (System.load testMemory a.mem i.load (a.R x + (imm 6 k).signExtend 16)) := by
  obtain ⟨hop, hd, hx, hk⟩ := Isa.opLDR_fields d x k
  rw [next_LDR h hop, hd, hx, hk]

theorem next_opSTR (h : a.fetch i = opSTR d x k) :
    a.next testMemory i = a.stored (a.R x + (imm 6 k).signExtend 16) (a.R d) := by
  obtain ⟨hop, hd, hx, hk⟩ := Isa.opSTR_fields d x k
  rw [next_STR h hop, hd, hx, hk]

theorem next_opPSE {l : BitVec 12} (h : a.fetch i = opPSE l) :
    a.next testMemory i = a.paused l := by
  obtain ⟨hop, hl⟩ := Isa.opPSE_fields l
  rw [next_PSE h hop, hl]

end Encoders

/-! ## The switches and the display -/

section InOut

variable {a} {i : Samples} {d x : BitVec 3}

theorem next_inSW (h : a.fetch i = opLDR d x inSW) (h0 : a.R x = 0) :
    a.next testMemory i = a.loaded d i.load := by
  have haddr : (0 : BitVec 16) + (imm 6 inSW).signExtend 16 = 0xFFFF#16 := by decide
  rw [next_opLDR h, h0, haddr]
  rfl

theorem next_outHEX (h : a.fetch i = opSTR d x outHEX) (h0 : a.R x = 0) :
    a.next testMemory i = a.stored 0xFFFF#16 (a.R d) := by
  have haddr : (0 : BitVec 16) + (imm 6 outHEX).signExtend 16 = 0xFFFF#16 := by decide
  rw [next_opSTR h, h0, haddr]

end InOut

/-! ## The flag `n` -/

theorem ccOf_bit_n (v : BitVec 16) : (Datapath.ccOf v).getLsbD 2 = true := by
  have h : ∀ z p : Bool, (1#1 ++ BitVec.ofBool z ++ BitVec.ofBool p).getLsbD 2 = true := by decide
  exact h _ _

/-! ## Programs in memory -/

theorem fetch_low {lo hi k : ℕ} {a : Core TestMemory.Words} {i : Samples} {w : BitVec 16}
    (h : Resident lo hi a.mem) (hPC : a.PC = BitVec.ofNat 16 k)
    (hw : TestMemory.initial (BitVec.ofNat 8 k) = w) (hlo : lo ≤ k := by decide)
    (hhi : k ≤ hi := by decide) (hk : k < 256 := by decide) : a.fetch i = w := by
  have hm : Resident lo hi (⟨⟨a.PC, a.R, a.mem, a.hex_data⟩, a.CC⟩ : Isa.Machine).mem := h
  exact (load_testMemory a.arch i.fetch a.PC).trans
    (hm.fetch (i := ⟨i.fetch, false⟩) hPC hw hlo hhi hk)

end Core

end Ece385
