import Ece385.Slc3.Datapath
import Ece385.Sync.Run

/-!
# `slc3` and what it is wired to

`slc3.sv` joins the control unit, the datapath, `Mem2IO`, the registered
`tristate` buffer towards the memory and a synchronizer per button. `Slc3`
holds all of its registers. The buttons are active low outside and active
high inside (`resetAh` and its siblings).

The bidirectional `Data` bus is an input of `Slc3.next`: who drives it is a
matter of the board. `System` is the board: the processor and one external
memory on the same `Data`. The memory is a parameter, `ExternalMemory`: what
it reads, what a write does, and what the system's reset button does to it
(nothing, for a static RAM; `test_memory` reloads its program).
-/

namespace Ece385

open Isdu (State)

/-! ## `Mem2IO` and `tristate` -/

namespace Mem2IO

/-- `Data_to_CPU`: the switches at address `xFFFF`, the memory elsewhere. -/
def dataToCpu (ADDR : BitVec 20) (OE WE : Bool) (Switches Data_from_SRAM : BitVec 16) :
    BitVec 16 :=
  if WE && !OE then
    if ADDR.extractLsb' 0 16 = 0xFFFF#16 then Switches else Data_from_SRAM
  else 0

def hexNext (Reset : Bool) (ADDR : BitVec 20) (WE : Bool) (Data_from_CPU hex_data : BitVec 16) :
    BitVec 16 :=
  if Reset then 0
  else if !WE && ADDR.extractLsb' 0 16 = 0xFFFF#16 then Data_from_CPU
  else hex_data

end Mem2IO

/-- The two registers of `tristate`, loaded at every edge. -/
structure Tristate where
  Data_write_buffer : BitVec 16
  Data_read_buffer : BitVec 16

/-- What `tristate` puts on `Data`. -/
def Tristate.drive (t : Tristate) (tristate_output_enable : Bool) : Option (BitVec 16) :=
  if tristate_output_enable then some t.Data_write_buffer else none

/-! ## The processor -/

/-- The pins sampled in a cycle; the buttons are active low. -/
structure Inputs where
  S : BitVec 16
  Reset : Bool
  Run : Bool
  Continue : Bool

/-- Every register of `slc3`. -/
structure Slc3 extends Datapath, Tristate where
  Reset_s : Bool
  Continue_s : Bool
  Run_s : Bool
  State : Isdu.State
  hex_data : BitVec 16

namespace Slc3

variable (s : Slc3)

def resetAh : Bool := !s.Reset_s

def continueAh : Bool := !s.Continue_s

def runAh : Bool := !s.Run_s

/-- The control signals of the present state. -/
def controls : Isdu.Controls := Isdu.controls s.IR[5] s.State

/-- The address pins: `{4'b00, MAR}`. -/
def addr : BitVec 20 := 0#4 ++ s.MAR

/-- `MDR_In`, the word `Mem2IO` offers to the datapath. -/
def mdrIn (S : BitVec 16) : BitVec 16 :=
  Mem2IO.dataToCpu s.addr s.controls.Mem_OE s.controls.Mem_WE S s.Data_read_buffer

/-- The clock edge, with `Data` the value on the memory bus. -/
def next (i : Inputs) (x : Undriven) (Data : BitVec 16) : Slc3 where
  toDatapath := s.toDatapath.next s.controls x s.resetAh (!s.controls.Mem_OE) (s.mdrIn i.S)
  Data_write_buffer := s.MDR
  Data_read_buffer := Data
  Reset_s := i.Reset
  Continue_s := i.Continue
  Run_s := i.Run
  State := if s.resetAh then .Halted
    else Isdu.nextState s.runAh s.continueAh s.BEN (s.IR.extractLsb' 12 4) s.State
  hex_data := Mem2IO.hexNext s.resetAh s.addr s.controls.Mem_WE s.MDR s.hex_data

end Slc3

/-! ## The memory and the board -/

/-- A word memory on the `Data` bus: what it drives when it is read, what it
holds after a write, and what the reset button makes of it. A second write
to one address hides the first. -/
structure ExternalMemory (μ : Type*) where
  rd : μ → BitVec 20 → BitVec 16
  wr : μ → BitVec 20 → BitVec 16 → μ
  reset : μ → μ
  wr_wr : ∀ m a u v, wr (wr m a u) a v = wr m a v

/-- The static RAM `slc3` is the top level for: a million words, addressed by
all twenty lines, with no reset. -/
def sram : ExternalMemory (BitVec 20 → BitVec 16) where
  rd m a := m a
  wr m a v := Function.update m a v
  reset := id
  wr_wr m a u v := by simp

/-- The processor and its memory. -/
structure System (μ : Type*) extends Slc3 where
  mem : μ

/-- A cycle of the board: the pins, and the values of undriven wires. -/
structure Cycle extends Inputs where
  x : Undriven

namespace Cycle

/-- No button is pressed. -/
def idle (S : BitVec 16) : Cycle :=
  { S := S, Reset := true, Run := true, Continue := true, x := ⟨0, 0, 0⟩ }

/-- `Run` is pressed for the first cycle. -/
def start (S : BitVec 16) (k : ℕ) : Cycle := { idle S with Run := k != 0 }

end Cycle

namespace System

variable {μ : Type*} (M : ExternalMemory μ) (s : System μ)

/-- What the memory holds during a cycle. The reset of a resettable memory
is asynchronous: it is seen in the cycle it is pressed in. -/
def memNow (i : Inputs) : μ := if i.Reset then s.mem else M.reset s.mem

/-- What the memory drives: its word, while it is selected, its outputs are
enabled and no write is going on. -/
def memDrive (i : Inputs) : Option (BitVec 16) :=
  if !s.controls.Mem_CE && !s.controls.Mem_OE && s.controls.Mem_WE then
    some (M.rd (s.memNow M i) s.addr)
  else none

/-- The value on `Data`. -/
def data (i : Inputs) (x : Undriven) : BitVec 16 :=
  match s.toTristate.drive (!s.controls.Mem_WE), s.memDrive M i with
  | some v, none => v
  | none, some v => v
  | _, _ => x.Data

/-- The memory after the clock edge. -/
def memNext (i : Inputs) (x : Undriven) : μ :=
  let written :=
    if !s.controls.Mem_CE && !s.controls.Mem_WE then
      M.wr (s.memNow M i) s.addr (s.data M i x)
    else s.memNow M i
  if i.Reset then written else M.reset written

def step (c : Cycle) : System μ where
  toSlc3 := s.toSlc3.next c.toInputs c.x (s.data M c.toInputs c.x)
  mem := s.memNext M c.toInputs c.x

/-- A board as a reset leaves it, with the registers a reset keeps at 0. -/
def cleared (m : μ) : System μ where
  MAR := 0
  MDR := 0
  IR := 0
  PC := 0
  CC := 0
  BEN := false
  LED := 0
  reg_file := fun _ => 0
  Data_write_buffer := 0
  Data_read_buffer := 0
  Reset_s := true
  Continue_s := true
  Run_s := true
  State := .Halted
  hex_data := 0
  mem := m

/-- The board after `n` cycles. -/
def run (cs : ℕ → Cycle) : ℕ → System μ := Clocked.run (fun c s => s.step M c) s cs

theorem run_step (cs : ℕ → Cycle) (n : ℕ) :
    s.run M cs (n + 1) = (s.run M cs n).step M (cs n) := rfl

theorem run_later (cs : ℕ → Cycle) (m n : ℕ) :
    s.run M cs (m + n) = (s.run M cs m).run M (Clocked.later m cs) n :=
  Clocked.run_add m n

end System

end Ece385
