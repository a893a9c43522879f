import Mathlib.Data.Nat.Notation
import Ece385.Adder.Ripple
import Ece385.Sync.Run

/-!
# `bit_multiplier_8`

The signed 8-bit multiplier: the control unit of `Control.sv`, the registers
`X`, `A` and `B` and the 9-bit adder in front of them, wire by wire. The
buttons are active low outside; `Reset_SH`, `ClearA_LoadB_SH`, `Run_SH` and
`S_S` are the synchronized inputs.

`reg_X` has an asynchronous reset, tied to `Clr_XA`, so in the states that
raise `Clr_XA` its output is 0 whatever it holds (`xtoA`). The state register
has 5 bits for 20 states. A machine powered up in an unlisted code is not
modelled: the first reset brings it to `A`. The hex displays and `Sum` only
show what is here.
-/

namespace Ece385

namespace BitMultiplier

/-! ## `control` -/

inductive State where
  | A | B | C | D | E | F | G | H | I | J | K | L | M | N | O | P | Q | R | S | T
deriving DecidableEq, Repr

/-- `next_state`. -/
def nextState (Run : Bool) : State → State
  | .A => if Run then .B else .A
  | .B => .C
  | .C => .D
  | .D => .E
  | .E => .F
  | .F => .G
  | .G => .H
  | .H => .I
  | .I => .J
  | .J => .K
  | .K => .L
  | .L => .M
  | .M => .N
  | .N => .O
  | .O => .P
  | .P => .Q
  | .Q => .R
  | .R => if !Run then .S else .R
  | .S => if Run then .T else .S
  | .T => .B

/-- The outputs of the control unit, all 0 unless a state says otherwise. -/
structure Controls where
  Clr_XA : Bool := false
  Ld_B : Bool := false
  Shift_En : Bool := false
  Add : Bool := false
  Sub : Bool := false
deriving DecidableEq, Repr

def controls (ClearA_LoadB M_bit : Bool) : State → Controls
  | .A => { Clr_XA := true, Ld_B := ClearA_LoadB }
  | .B | .D | .F | .H | .J | .L | .N => { Add := true }
  | .C | .E | .G | .I | .K | .M | .O | .Q => { Shift_En := true }
  | .P => { Add := true, Sub := M_bit }
  | .R => {}
  | .S => {}
  | .T => { Clr_XA := true }

/-! ## The registers -/

/-- `reg_8`. -/
def reg8Next (Reset Shift_In Load Shift_En : Bool) (D Data_Out : BitVec 8) : BitVec 8 :=
  if Reset then 0
  else if Load then D
  else if Shift_En then BitVec.ofBool Shift_In ++ Data_Out.extractLsb' 1 7
  else Data_Out

/-- `Dreg` at a clock edge. -/
def dregNext (Load Reset D Q : Bool) : Bool := if Reset then false else if Load then D else Q

/-- The pins sampled in a cycle; the buttons are active low. -/
structure Inputs where
  Reset : Bool
  Run : Bool
  ClearA_LoadB : Bool
  S : BitVec 8

/-- No button is pressed. -/
def Inputs.idle (S : BitVec 8) : Inputs :=
  { Reset := true, Run := true, ClearA_LoadB := true, S := S }

end BitMultiplier

open BitMultiplier in
/-- Every register of `bit_multiplier_8` but those of the displays. -/
structure BitMultiplier where
  curr_state : State
  reg_X : Bool
  A : BitVec 8
  B : BitVec 8
  Reset_SH : Bool
  ClearA_LoadB_SH : Bool
  Run_SH : Bool
  S_S : BitVec 8

namespace BitMultiplier

open Clocked

variable (m : BitMultiplier)

def mBit : Bool := m.B[0]

def ctl : Controls := controls m.ClearA_LoadB_SH m.mBit m.curr_state

/-- `XtoA`, the output of `reg_X`. -/
def xtoA : Bool := if m.ctl.Clr_XA then false else m.reg_X

def sExt : BitVec 9 := if m.S_S[7] then 1#1 ++ m.S_S else 0#1 ++ m.S_S

def sExtFlipped : BitVec 9 := m.sExt ^^^ 0b111111111#9

/-- `S_inverter`: the switches negated. -/
def sExtNeg : BitVec 9 := (rippleAdder m.sExtFlipped 1#9 false).2

def adderIn : BitVec 9 :=
  if m.ctl.Sub then m.sExtNeg
  else if !m.mBit then 0
  else m.sExt

/-- `XA_Adder_Out`. -/
def xaAdderOut : BitVec 9 := (rippleAdder m.adderIn (BitVec.ofBool m.xtoA ++ m.A) false).2

def xIn : Bool := if m.ctl.Shift_En then m.xtoA else m.xaAdderOut[8]

/-- The clock edge. -/
def next (i : Inputs) : BitMultiplier where
  curr_state := if m.Reset_SH then .A else nextState m.Run_SH m.curr_state
  reg_X := dregNext m.ctl.Add m.ctl.Clr_XA m.xIn m.reg_X
  A := reg8Next m.ctl.Clr_XA m.xtoA m.ctl.Add m.ctl.Shift_En (m.xaAdderOut.extractLsb' 0 8) m.A
  B := reg8Next m.Reset_SH m.A[0] m.ctl.Ld_B m.ctl.Shift_En m.S_S m.B
  Reset_SH := !i.Reset
  ClearA_LoadB_SH := !i.ClearA_LoadB
  Run_SH := !i.Run
  S_S := i.S

/-- The machine after `n` cycles. -/
def run (ins : ℕ → Inputs) : ℕ → BitMultiplier := Clocked.run (fun i m => m.next i) m ins

theorem run_step (ins : ℕ → Inputs) (n : ℕ) : m.run ins (n + 1) = (m.run ins n).next (ins n) := rfl

theorem run_later (ins : ℕ → Inputs) (k n : ℕ) :
    m.run ins (k + n) = (m.run ins k).run (later k ins) n :=
  run_add k n

/-- Waiting in `A`, as a reset leaves the machine, with `b` loaded. -/
def loaded (b : BitVec 8) : BitMultiplier where
  curr_state := .A
  reg_X := false
  A := 0
  B := b
  Reset_SH := false
  ClearA_LoadB_SH := false
  Run_SH := false
  S_S := 0

/-- The pair `{A, B}`. -/
def ab : BitVec 16 := m.A ++ m.B

end BitMultiplier

end Ece385
