import Mathlib.Logic.Function.Basic
import Ece385.Adder.Lookahead
import Ece385.Slc3.Isdu

/-!
# `register` and `datapath`

The register file and the datapath of the SLC-3, wire by wire. An
`always_comb` block is read as the network it describes: every wire is a
function of the registers and the control signals, and the order of the
assignments in the block does not matter (`CC_next` is written above
`CPU_BUS` in the source and reads it).

Where the source says `16'bx` a wire has no value: `CPU_BUS` with other than
one gate open, and `PC_next` on the unused input of `PCMUX`. Those values
are inputs of the cycle (`Undriven`), chosen by nobody in particular, so
that a statement about all runs is a statement about all of them. The
remaining `default` branches (`MIO_EN`, `ADDR1MUX`, ..) cannot be reached by
a two-valued select and are not there.
-/

namespace Ece385

/-- `R0` .. `R7` by number. -/
abbrev RegFile := BitVec 3 → BitVec 16

/-- `register`: the load comes first in the `always_ff` block, the reset
second, so the reset wins. -/
def RegFile.next (Load Reset : Bool) (Write_sel : BitVec 3) (Data_In : BitVec 16)
    (R : RegFile) : RegFile :=
  if Reset then fun _ => 0
  else if Load then Function.update R Write_sel Data_In
  else R

/-- The values, this cycle, of the wires nothing drives. -/
structure Undriven where
  CPU_BUS : BitVec 16
  PC_next : BitVec 16
  Data : BitVec 16

/-- The registers of `datapath`. -/
structure Datapath where
  MAR : BitVec 16
  MDR : BitVec 16
  IR : BitVec 16
  PC : BitVec 16
  CC : BitVec 3
  BEN : Bool
  LED : BitVec 12
  reg_file : RegFile

namespace Datapath

open Isdu (Controls)

variable (c : Controls) (x : Undriven) (d : Datapath)

/-! ## Register file ports -/

def sr1MuxOut : BitVec 3 :=
  if c.SR1MUX then d.IR.extractLsb' 6 3 else d.IR.extractLsb' 9 3

def sr1 : BitVec 16 := d.reg_file (d.sr1MuxOut c)

def sr2 : BitVec 16 := d.reg_file (d.IR.extractLsb' 0 3)

def sr2MuxOut : BitVec 16 :=
  if c.SR2MUX then (d.IR.extractLsb' 0 5).signExtend 16 else d.sr2

/-- The destination register `DR`. -/
def dr : BitVec 3 := if c.DRMUX then d.IR.extractLsb' 9 3 else 0b111

/-! ## The two adders and the ALU -/

def aluSum : BitVec 16 := (carryLookaheadAdder (d.sr1 c) (d.sr2MuxOut c)).Sum

def alu : BitVec 16 :=
  match c.ALUK with
  | 0b00#2 => d.aluSum c
  | 0b01#2 => d.sr1 c &&& d.sr2MuxOut c
  | 0b10#2 => ~~~(d.sr1 c)
  | _ => 0

def addr1 : BitVec 16 := if c.ADDR1MUX then d.sr1 c else d.PC

def addr2 : BitVec 16 :=
  match c.ADDR2MUX with
  | 0b00#2 => 0
  | 0b01#2 => (d.IR.extractLsb' 0 6).signExtend 16
  | 0b10#2 => (d.IR.extractLsb' 0 9).signExtend 16
  | _ => (d.IR.extractLsb' 0 11).signExtend 16

def addrSum : BitVec 16 := (carryLookaheadAdder (d.addr1 c) (d.addr2 c)).Sum

/-! ## The bus and what hangs on it -/

/-- `CPU_BUS`: one multiplexer in place of four tristate buffers. -/
def cpuBus : BitVec 16 :=
  match c.GatePC, c.GateMDR, c.GateALU, c.GateMARMUX with
  | true, false, false, false => d.PC
  | false, true, false, false => d.MDR
  | false, false, true, false => d.alu c
  | false, false, false, true => d.addrSum c
  | _, _, _, _ => x.CPU_BUS

/-- The flag wires `n`, `z`, `p` of a bus value. -/
def flagN (bus : BitVec 16) : Bool := bus[15]

def flagZ (bus : BitVec 16) : Bool := if bus = 0 then true else false

def flagP (bus : BitVec 16) : Bool := if !flagN bus && !flagZ bus then true else false

/-- What `LD_CC` latches: `{1'b1, z, p}`, with a constant where `n` would
stand. -/
def ccOf (bus : BitVec 16) : BitVec 3 :=
  1#1 ++ BitVec.ofBool (flagZ bus) ++ BitVec.ofBool (flagP bus)

def ccNext : BitVec 3 := if c.LD_CC then ccOf (d.cpuBus c x) else d.CC

def ledNext : BitVec 12 := if c.LD_LED then d.IR.extractLsb' 0 12 else d.LED

/-- What `LD_BEN` latches: one of the mask bits *equals* its flag. -/
def benOf (IR : BitVec 16) (CC : BitVec 3) : Bool :=
  (IR[11] == CC[2]) || (IR[10] == CC[1]) || (IR[9] == CC[0])

def benNext : Bool := if c.LD_BEN then benOf d.IR d.CC else d.BEN

def pcNext : BitVec 16 :=
  if c.LD_PC then
    match c.PCMUX with
    | 0b00#2 => d.PC + 1
    | 0b01#2 => d.cpuBus c x
    | 0b10#2 => d.addrSum c
    | _ => x.PC_next
  else d.PC

def marNext : BitVec 16 := if c.LD_MAR then d.cpuBus c x else d.MAR

def mdrNext (MIO_EN : Bool) (MDR_In : BitVec 16) : BitVec 16 :=
  if c.LD_MDR then (if MIO_EN then MDR_In else d.cpuBus c x) else d.MDR

def irNext : BitVec 16 := if c.LD_IR then d.cpuBus c x else d.IR

/-! ## The clock edge -/

/-- The `always_ff` block and the register file. Reset clears `MAR`, `MDR`,
`IR`, `PC` and the register file; `BEN`, `CC` and `LED` keep what they hold. -/
def next (Reset MIO_EN : Bool) (MDR_In : BitVec 16) : Datapath where
  MAR := if Reset then 0 else d.marNext c x
  MDR := if Reset then 0 else d.mdrNext c x MIO_EN MDR_In
  IR := if Reset then 0 else d.irNext c x
  PC := if Reset then 0 else d.pcNext c x
  CC := if Reset then d.CC else d.ccNext c x
  BEN := if Reset then d.BEN else d.benNext c
  LED := if Reset then d.LED else d.ledNext c
  reg_file := RegFile.next c.LD_REG Reset (d.dr c) (d.cpuBus c x) d.reg_file

end Datapath

end Ece385
