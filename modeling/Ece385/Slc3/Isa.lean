import Ece385.Slc3.Instr
import Ece385.Slc3.TestMemory

/-!
# The instruction set, and the machine against it

`Isa.step` is the instruction set as the `op*` functions of `SLC3_2`
document it, over the state a program can see: `PC`, the registers, the
memory and the hex display. It knows nothing of cycles, buses or flags; the
branch decision is an argument (`br`), because the documented flags and the
ones the netlist keeps are different things (`Ece385.Slc3.Flags`).

`slc3_refines_isa` puts the two together: between visits of `S_18` the
processor on `test_memory` takes exactly one such step.
-/

namespace Ece385

open Clocked

namespace Isa

open SLC3_2

/-- The state of a program. -/
structure Arch where
  PC : BitVec 16
  R : RegFile
  mem : TestMemory.Words
  hex_data : BitVec 16

namespace Arch

/-- A load: the switches at `xFFFF`, elsewhere the word the low eight address
bits select. -/
def rd (a : Arch) (S addr : BitVec 16) : BitVec 16 :=
  if addr = 0xFFFF#16 then S else a.mem (addr.extractLsb' 0 8)

/-- A store: the display at `xFFFF`, a memory word below 256, nothing in
between. -/
def wr (a : Arch) (addr v : BitVec 16) : Arch :=
  if addr = 0xFFFF#16 then { a with hex_data := v }
  else if addr.toNat < 256 then { a with mem := Function.update a.mem (addr.extractLsb' 0 8) v }
  else a

end Arch

/-- The instruction `w`. `S` are the switches at the time of the load, `br`
tells whether a branch is taken. -/
def step (w S : BitVec 16) (br : Bool) (a : Arch) : Arch :=
  let P := a.PC + 1
  let next : Arch := { a with PC := P }
  let op := Instr.opcode w
  let base := a.R (Instr.sr1 w)
  if op = op_ADD then
    { next with R := Function.update a.R (Instr.dr w) (base + Instr.operand2 w a.R) }
  else if op = op_AND then
    { next with R := Function.update a.R (Instr.dr w) (base &&& Instr.operand2 w a.R) }
  else if op = op_NOT then { next with R := Function.update a.R (Instr.dr w) (~~~base) }
  else if op = op_BR then { a with PC := if br then P + Instr.off9 w else P }
  else if op = op_JMP then { a with PC := base }
  else if op = op_JSR then
    { a with PC := P + Instr.off11 w, R := Function.update a.R 7 P }
  else if op = op_LDR then
    { next with R := Function.update a.R (Instr.dr w) (a.rd S (base + Instr.off6 w)) }
  else if op = op_STR then next.wr (base + Instr.off6 w) (a.R (Instr.dr w))
  else next

end Isa

/-! ## The memory interface -/

theorem addr_low (addr : BitVec 16) :
    (0#4 ++ addr : BitVec 20).extractLsb' 0 8 = addr.extractLsb' 0 8 := by
  refine BitVec.eq_of_toNat_eq ?_
  simp only [BitVec.extractLsb'_toNat, toNat_append_add, BitVec.toNat_ofNat,
    Nat.shiftRight_zero]
  omega

theorem addr_high (addr : BitVec 16) :
    (0#4 ++ addr : BitVec 20).extractLsb' 8 8 = 0#8 ↔ addr.toNat < 256 := by
  rw [← BitVec.toNat_inj]
  have h := addr.isLt
  simp only [BitVec.extractLsb'_toNat, toNat_append_add, BitVec.toNat_ofNat,
    Nat.shiftRight_eq_div_pow]
  omega

theorem load_testMemory (a : Isa.Arch) (S addr : BitVec 16) :
    System.load testMemory a.mem S addr = a.rd S addr := by
  rw [System.load, Isa.Arch.rd, testMemory_rd, addr_low]

namespace Core

/-- The part of a core an instruction-set program can see. -/
def arch (c : Core TestMemory.Words) : Isa.Arch := ⟨c.PC, c.R, c.mem, c.hex_data⟩

/-- The memory ignores `xFFFF` by its own decoding: `A[15:8]` is not zero. -/
theorem arch_store (c : Core TestMemory.Words) (addr v : BitVec 16) :
    (c.store testMemory addr v).arch = c.arch.wr addr v := by
  simp only [arch, store, testMemory_wr, addr_high, addr_low, Isa.Arch.wr]
  by_cases hF : addr = 0xFFFF#16
  · subst hF
    simp
  · by_cases hlt : addr.toNat < 256 <;> simp [hF, hlt]

theorem opcode_cases : ∀ op : BitVec 4, op = 0 ∨ op = 1 ∨ op = 2 ∨ op = 3 ∨ op = 4 ∨ op = 5
    ∨ op = 6 ∨ op = 7 ∨ op = 8 ∨ op = 9 ∨ op = 10 ∨ op = 11 ∨ op = 12 ∨ op = 13 ∨ op = 14
    ∨ op = 15 := by
  decide

/-- What an instruction does, seen by a program, is the documented step; the
branch decision is the netlist's. -/
theorem arch_effect (c : Core TestMemory.Words) (w S : BitVec 16) :
    (c.effect testMemory w S).arch = Isa.step w S (Datapath.benOf w c.CC) c.arch := by
  have hload := load_testMemory c.arch S (c.R (Instr.sr1 w) + Instr.off6 w)
  have hstore := arch_store { c with PC := c.PC + 1 } (c.R (Instr.sr1 w) + Instr.off6 w)
    (c.R (Instr.dr w))
  unfold effect exec Isa.step
  rcases opcode_cases (Instr.opcode w) with h | h | h | h | h | h | h | h | h | h | h | h | h
    | h | h | h <;> simp [h, Isdu.decode, SLC3_2.op_ADD, SLC3_2.op_AND, SLC3_2.op_NOT,
      SLC3_2.op_BR, SLC3_2.op_JMP, SLC3_2.op_JSR, SLC3_2.op_LDR, SLC3_2.op_STR, arch, setReg]
  · exact congrArg _ hload
  · exact hstore

end Core

theorem decode_eq_pause : ∀ op : BitVec 4,
    Isdu.decode op = .PauseIR1 ↔ op = SLC3_2.op_PSE := by
  decide

namespace System

def arch (s : System TestMemory.Words) : Isa.Arch := s.core.arch

/-- **The processor refines the instruction set.** -/
theorem slc3_refines_isa {s : System TestMemory.Words} {cs : ℕ → Cycle} (h : At18 s)
    (hr : s.Reset_s = true) :
    (∀ n, NoResetBefore n cs → NextVisit At18 (s.run testMemory cs) n →
      ∃ br, (s.run testMemory cs n).arch
        = Isa.step (s.arch.rd (cs 3).S s.PC) (cs 9).S br s.arch)
    ∧ (NoResetBefore 11 cs → Instr.opcode (s.arch.rd (cs 3).S s.PC) ≠ SLC3_2.op_PSE →
      ∃ n, 6 ≤ n ∧ n ≤ 11 ∧ NextVisit At18 (s.run testMemory cs) n) := by
  have hw : s.fetchWord testMemory cs = s.arch.rd (cs 3).S s.PC :=
    load_testMemory s.arch (cs 3).S s.PC
  refine ⟨fun n hcs hn => ⟨Datapath.benOf (s.fetchWord testMemory cs) s.CC, ?_⟩,
    fun hcs hne => nextVisit_of_ne_pause h hr hcs ?_⟩
  · rw [arch, effect_of_nextVisit h hr hcs hn, Core.arch_effect, hw]
    rfl
  · rw [hw]
    exact fun hp => hne ((decode_eq_pause _).mp hp)

/-- The first instruction of the shipped program. -/
theorem slc3_refines_isa_first :
    let s : TopLevelForTestMemory := { cleared TestMemory.initial with State := .S_18 }
    let cs : ℕ → Cycle := fun _ => Cycle.idle 0
    ∃ n br, NextVisit At18 (s.run testMemory cs) n
      ∧ (s.run testMemory cs n).arch = Isa.step (SLC3_2.opCLR SLC3_2.R0) 0 br s.arch := by
  intro s cs
  have hcs : ∀ n, NoResetBefore n cs := fun _ _ _ => rfl
  have hop : Instr.opcode (s.arch.rd (cs 3).S s.PC) ≠ SLC3_2.op_PSE := by decide
  obtain ⟨harch, hnext⟩ := slc3_refines_isa (show At18 s from rfl) rfl
  obtain ⟨n, -, -, hn⟩ := hnext (hcs 11) hop
  obtain ⟨br, hbr⟩ := harch n (hcs n) hn
  exact ⟨n, br, hn, hbr⟩

end System

end Ece385
