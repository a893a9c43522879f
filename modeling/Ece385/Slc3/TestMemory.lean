import Ece385.Slc3.Encode
import Ece385.Slc3.Top

/-!
# `test_memory`

The simulation memory: 256 words, read through the low eight address bits
whatever the others are, written only when `A[15:8]` is zero, and loaded
with the lab's programs by its asynchronous reset. Reading and writing work
per byte lane. `testMemory` is the memory as the processor sees it, with
`CE`, `UB` and `LB` low, which is how `ISDU` ties them.
-/

namespace Ece385

namespace TestMemory

open SLC3_2

/-- The contents of `mem_array`. -/
abbrev Words := BitVec 8 → BitVec 16

def memOut (mem_array : Words) (A : BitVec 20) : BitVec 16 := mem_array (A.extractLsb' 0 8)

/-- What the memory drives on the upper and the lower byte of `I_O`. -/
def ioWire (mem_array : Words) (A : BitVec 20) (CE UB LB OE WE : Bool) :
    Option (BitVec 8) × Option (BitVec 8) :=
  if !CE && !OE && WE then
    (if !UB then some ((memOut mem_array A).extractLsb' 8 8) else none,
      if !LB then some ((memOut mem_array A).extractLsb' 0 8) else none)
  else (none, none)

/-- The words the reset assigns one by one; the rest of the memory is 0. -/
def program : List (BitVec 16) :=
  [
    -- 0: entry
    opCLR R0, opLDR R1 R0 inSW, opJMP R1,
    -- 3: Basic I/O test 1
    opLDR R1 R0 inSW, opSTR R1 R0 outHEX, opBR nzp (-3),
    -- 6: Basic I/O test 2
    opPSE 0x801, opLDR R1 R0 inSW, opSTR R1 R0 outHEX, opPSE 0xC02, opBR nzp (-4),
    -- 11: Basic I/O test 3 (self-modifying code)
    opPSE 0x801, opJSR 0, opLDR R2 R7 3, opLDR R1 R0 inSW, opSTR R1 R0 outHEX, opPSE 0xC02,
    opINC R2, opSTR R2 R7 3, opBR nzp (-6),
    -- 20: XOR test
    opCLR R0, opPSE 0x801, opLDR R3 R0 inSW, opPSE 0x802, opLDR R4 R0 inSW, opAND R1 R3 R4,
    opPSE 0x803, opLDR R3 R0 inSW, opPSE 0x804, opLDR R4 R0 inSW, opAND R2 R3 R4, opNOT R3 R1,
    opAND R3 R3 R2, opNOT R3 R3, opNOT R4 R2, opAND R4 R4 R1, opNOT R4 R4, opAND R3 R3 R4,
    opNOT R3 R3, opSTR R3 R0 outHEX, opPSE 0x405, opBR nzp (-21),
    -- 42: Run once test
    opCLR R0, opCLR R1, opJSR 0, opSTR R1 R0 outHEX, opPSE 0x401, opINC R1, opRET,
    -- 49: Multiplier Program
    opCLR R0, opJSR 0, opLDR R3 R7 22, opCLR R4, opCLR R5, opPSE 0x801, opLDR R1 R0 inSW,
    opPSE 0x802, opLDR R2 R0 inSW, opADD R5 R5 R5, opAND R7 R3 R1, opBR z 1, opADD R5 R5 R2,
    opADDi R4 R4 0, opBR p 2, opNOT R5 R5, opINC R5, opINC R4, opADD R1 R1 R1,
    opADDi R7 R4 (-8), opBR n (-12), opSTR R5 R0 outHEX, opPSE 0x403, opBR nzp (-21), 0x0080#16,
    -- 74: Data for Bubble Sort
    0x00ef#16, 0x001b#16, 0x0001#16, 0x008c#16, 0x00db#16, 0x00fa#16, 0x0047#16, 0x0046#16,
    0x001f#16, 0x000d#16, 0x00b8#16, 0x0003#16, 0x006b#16, 0x004e#16, 0x00f8#16, 0x0007#16,
    -- 90: Bubblesort Program
    opCLR R0, opJSR 0, opADDi R6 R7 (-16), opADDi R6 R6 (-2), opPSE 0x3FF, opLDR R1 R0 inSW,
    opBR z (-3), opDEC R1, opBR np 2, opJSR 9, opBR nzp (-7), opDEC R1, opBR np 2, opJSR 15,
    opBR nzp (-11), opDEC R1, opBR np (-13), opJSR 29, opBR nzp (-15),
    -- 109: ENTRY FUNCTION
    opCLR R1, opSTR R1 R0 outHEX, opPSE 0xC01, opLDR R2 R0 inSW, opADD R5 R6 R1, opSTR R2 R5 0,
    opINC R1, opADDi R3 R1 (-16), opBR n (-8), opRET,
    -- 119: SORT FUNCTION
    opADDi R1 R0 (-16), opADDi R2 R0 1, opADD R3 R6 R2, opLDR R4 R3 (-1), opLDR R5 R3 0,
    opNOT R5 R5, opADDi R5 R5 1, opADD R5 R4 R5, opBR nz 3, opLDR R5 R3 0, opSTR R5 R3 (-1),
    opSTR R4 R3 0, opINC R2, opADD R3 R1 R2, opBR n (-13), opINC R1, opBR n (-16), opRET,
    -- 137: DISPLAY FUNCTION
    opCLR R1, opADD R4 R7 R0, opJSR 0, opADD R5 R7 R0, opADD R7 R4 R0, opLDR R3 R5 15,
    opADDi R2 R0 8, opADD R2 R2 R2, opADD R4 R6 R1, opLDR R4 R4 0, opSTR R4 R0 outHEX,
    opPSE 0x802, opADD R3 R3 R2, opSTR R3 R5 8, opINC R1, opADDi R4 R1 (-16), opBR n (-9),
    opRET, opPSE 0x802
  ]

def initial : Words := fun a => program.getD a.toNat 0

/-- The `always_ff` block, at a clock edge. -/
def next (Reset CE UB LB WE : Bool) (A : BitVec 20) (I_O : BitVec 16) (mem_array : Words) :
    Words :=
  if Reset then initial
  else if !CE && !WE && A.extractLsb' 8 8 = 0#8 then
    let old := mem_array (A.extractLsb' 0 8)
    Function.update mem_array (A.extractLsb' 0 8)
      ((if !UB then I_O.extractLsb' 8 8 else old.extractLsb' 8 8)
        ++ (if !LB then I_O.extractLsb' 0 8 else old.extractLsb' 0 8))
  else mem_array

theorem bytes_append (v : BitVec 16) : v.extractLsb' 8 8 ++ v.extractLsb' 0 8 = v := by
  refine BitVec.eq_of_toNat_eq ?_
  have hv := v.isLt
  simp only [toNat_append_add, BitVec.extractLsb'_toNat, Nat.shiftRight_eq_div_pow]
  omega

/-- A full-word write, with its own address decoding. -/
theorem next_write (m : Words) (A : BitVec 20) (v : BitVec 16) :
    next false false false false false A v m
      = if A.extractLsb' 8 8 = 0#8 then Function.update m (A.extractLsb' 0 8) v else m := by
  simp [next, bytes_append]

end TestMemory

/-- `test_memory` as the external memory of `slc3`. -/
def testMemory : ExternalMemory TestMemory.Words where
  rd := TestMemory.memOut
  wr m A v := TestMemory.next false false false false false A v m
  reset _ := TestMemory.initial
  wr_wr m A u v := by
    simp only [TestMemory.next_write]
    split <;> simp

theorem testMemory_rd (m : TestMemory.Words) (A : BitVec 20) :
    testMemory.rd m A = m (A.extractLsb' 0 8) := rfl

theorem testMemory_wr (m : TestMemory.Words) (A : BitVec 20) (v : BitVec 16) :
    testMemory.wr m A v
      = if A.extractLsb' 8 8 = 0#8 then Function.update m (A.extractLsb' 0 8) v else m :=
  TestMemory.next_write m A v

/-- `top_level_for_test_memory`: `slc3` and `test_memory` on one `Data`. -/
abbrev TopLevelForTestMemory := System TestMemory.Words

/-- The two bytes that `test_memory` drives under the control lines of `ISDU` are those of
the word the board reads, and it drives them when the board says. -/
theorem ioWire_eq_memDrive (s : TopLevelForTestMemory) (i : Inputs) :
    TestMemory.ioWire (s.memNow testMemory i) s.addr s.controls.Mem_CE s.controls.Mem_UB
        s.controls.Mem_LB s.controls.Mem_OE s.controls.Mem_WE
      = ((s.memDrive testMemory i).map fun w => w.extractLsb' 8 8,
        (s.memDrive testMemory i).map fun w => w.extractLsb' 0 8) := by
  have hlanes : s.controls.Mem_UB = false ∧ s.controls.Mem_LB = false := by
    unfold Slc3.controls
    cases s.State <;> exact ⟨rfl, rfl⟩
  unfold TestMemory.ioWire System.memDrive
  rw [hlanes.1, hlanes.2]
  split <;> rfl

end Ece385
