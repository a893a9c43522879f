import Ece385.Adder.Toplevel
import Ece385.Lab7.ScFifo
import Ece385.Lab7.RspFifo
import Ece385.Logic.Atomic
import Ece385.Mult.Protocol
import Ece385.Lab7.Accumulator
import Ece385.Slc3.Alias
import Ece385.Slc3.Program
import Ece385.Slc3.Pause
import Ece385.Slc3.Reset
import Ece385.Slc3.Store
import Ece385.Slc3.MultiplyProgram
import Ece385.Sort.Bubble
import Ece385.Slc3.SortProgram
import Ece385.Mult.Overflow
import Ece385.Slc3.Visits
import Ece385.Slc3.TestPrograms
import Ece385.Lab7.CommandPath
import Ece385.Lab7.SdramBoard
import Ece385.Slc3.MenuProgram
import Ece385.Slc3.MenuSession
