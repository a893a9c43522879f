import Ece385.Memory.Sdr

/-!
# The SDRAM controller

`lab7_soc_sdram`, which Qsys generated for the memory of the Nios II. Requests of
the bus go into a FIFO of two entries (`Efifo`). `InitFsm` sets up the chip after a
reset, `MainFsm` then opens rows, issues the reads and writes of the FIFO and
refreshes the chip when the refresh counter asks for it. A request is copied into
the `active_*` registers and only then popped, and while requests go to the open
row, their commands follow each other without a gap: `f_pop` is the promise of a
pop, which `fSelect` keeps if the head of the FIFO still fits.

The states are one-hot in the source; the names are ours.
-/

namespace Ece385

namespace SdramController

/-! ## The FIFO -/

/-- `lab7_soc_sdram_input_efifo_module`. -/
structure Efifo (α : Type*) where
  entries : BitVec 2
  rd_address : Bool
  wr_address : Bool
  entry_0 : α
  entry_1 : α

namespace Efifo

variable {α : Type*} (q : Efifo α)

def full : Bool := q.entries = 2#2

def empty : Bool := q.entries = 0#2

def rdData : α := if q.rd_address then q.entry_1 else q.entry_0

/-- The first `always` block. -/
def counters (rd wr : Bool) : Efifo α :=
  match rd, wr with
  | false, true =>
      if q.full then q else { q with entries := q.entries + 1, wr_address := !q.wr_address }
  | true, false =>
      if q.empty then q else { q with entries := q.entries - 1, rd_address := !q.rd_address }
  | true, true => { q with wr_address := !q.wr_address, rd_address := !q.rd_address }
  | false, false => q

def next (rd wr : Bool) (wr_data : α) : Efifo α :=
  { q.counters rd wr with
    entry_0 := if wr && !q.full && !q.wr_address then wr_data else q.entry_0
    entry_1 := if wr && !q.full && q.wr_address then wr_data else q.entry_1 }

def reset : Efifo α := { q with entries := 0, rd_address := false, wr_address := false }

/-- The two addresses go round together. -/
def Wf : Prop :=
  q.entries = 0#2 ∧ q.rd_address = q.wr_address
    ∨ q.entries = 1#2 ∧ q.rd_address = !q.wr_address
    ∨ q.entries = 2#2 ∧ q.rd_address = q.wr_address

/-- The oldest entry first. -/
def contents : List α :=
  if q.entries = 0#2 then []
  else if q.entries = 1#2 then [q.rdData]
  else [q.rdData, if q.rd_address then q.entry_0 else q.entry_1]

/-- **A queue**, for who does not write a full one or read an empty one. -/
theorem next_contents {q : Efifo α} {rd wr : Bool} {wr_data : α} (h : q.Wf)
    (hrd : rd = true → q.empty = false) (hwr : wr = true → q.full = false) :
    (q.next rd wr wr_data).Wf
      ∧ (q.next rd wr wr_data).contents
        = q.contents.drop rd.toNat ++ if wr then [wr_data] else [] := by
  obtain ⟨entries, rd_address, wr_address, entry_0, entry_1⟩ := q
  simp only [Wf] at h
  rcases h with ⟨rfl, rfl⟩ | ⟨rfl, rfl⟩ | ⟨rfl, rfl⟩
  · cases rd with
    | true => exact absurd (hrd rfl) (by simp [empty])
    | false => cases wr <;> cases rd_address <;> simp [next, counters, Wf, contents, rdData, full]
  · cases rd <;> cases wr <;> cases wr_address
      <;> simp [next, counters, Wf, contents, rdData, full, empty]
  · cases wr with
    | true => exact absurd (hwr rfl) (by simp [full])
    | false => cases rd <;> cases rd_address <;> simp [next, counters, Wf, contents, rdData, empty]

theorem contents_cons (h : q.empty = false) : ∃ l, q.contents = q.rdData :: l := by
  have hne : ¬q.entries = 0#2 := of_decide_eq_false h
  unfold contents
  rw [if_neg hne]
  split
  · exact ⟨_, rfl⟩
  · exact ⟨_, rfl⟩

theorem contents_nil (h : q.empty = true) : q.contents = [] := if_pos (of_decide_eq_true h)

theorem length_contents : q.contents.length ≤ 2 := by
  unfold contents
  split
  · exact Nat.zero_le 2
  · split
    · exact Nat.le_succ 1
    · exact Nat.le_refl 2

end Efifo

/-! ## Requests -/

/-- A word of the FIFO: `{rnw, addr, dqm, data}`. -/
structure Transaction where
  rnw : Bool
  addr : BitVec 25
  dqm : BitVec 4
  data : BitVec 32
  deriving DecidableEq

namespace Transaction

variable (f : Transaction)

def bank : BitVec 2 := f.addr.extractLsb' 24 1 ++ f.addr.extractLsb' 10 1

def row : BitVec 13 := f.addr.extractLsb' 11 13

def col : BitVec 10 := f.addr.extractLsb' 0 10

end Transaction

/-! ## Initialization -/

/-- 000, 001, 010, 011, 101 and 111. -/
inductive IState where
  | start
  | precharge
  | refresh
  | spin
  | done
  | mode
  deriving DecidableEq

structure InitFsm where
  i_state : IState
  i_next : IState
  i_cmd : BitVec 4
  i_addr : BitVec 13
  i_count : BitVec 3
  i_refs : BitVec 3

namespace InitFsm

def reset (i : InitFsm) : InitFsm :=
  { i with
    i_state := .start
    i_next := .start
    i_cmd := 0b1111
    i_addr := BitVec.allOnes 13
    i_count := 0 }

def next (refresh_counter : BitVec 14) (i : InitFsm) : InitFsm :=
  let i₀ := { i with i_addr := BitVec.allOnes 13 }
  match i.i_state with
  | .start =>
      { i₀ with
        i_cmd := 0b1111
        i_refs := 0
        i_state := if refresh_counter = 0 then .precharge else .start }
  | .precharge => { i₀ with i_state := .spin, i_cmd := 0b0010, i_count := 0, i_next := .refresh }
  | .refresh =>
      { i₀ with
        i_cmd := 0b0001
        i_refs := i.i_refs + 1
        i_state := .spin
        i_count := 3
        i_next := if i.i_refs = 1 then .mode else .refresh }
  | .spin =>
      if 1 < i.i_count then { i₀ with i_cmd := 0b0111, i_count := i.i_count - 1 }
      else { i₀ with i_cmd := 0b0111, i_state := i.i_next }
  | .done => i₀
  | .mode =>
      { i₀ with
        i_state := .spin
        i_cmd := 0b0000
        i_addr := 0#3 ++ 0#1 ++ 0b00#2 ++ 3#3 ++ 0#4
        i_count := 4
        i_next := .done }

end InitFsm

/-! ## The main state machine -/

/-- From 000000001 to 100000000. -/
inductive MState where
  | idle
  | activate
  | spin
  | read
  | write
  | close
  | precharge
  | refresh
  | hold
  deriving DecidableEq

structure MainFsm where
  m_state : MState
  m_next : MState
  m_cmd : BitVec 4
  m_bank : BitVec 2
  m_addr : BitVec 13
  m_data : BitVec 32
  m_dqm : BitVec 4
  m_count : BitVec 3
  ack_refresh_request : Bool
  f_pop : Bool
  oe : Bool
  active_cs_n : Bool
  active : Transaction

namespace MainFsm

/-- The registers `active_*` are not reset. -/
def reset (m : MainFsm) : MainFsm :=
  { m with
    m_state := .idle
    m_next := .idle
    m_cmd := 0b1111
    m_bank := 0
    m_addr := 0
    m_data := 0
    m_dqm := 0
    m_count := 0
    ack_refresh_request := false
    f_pop := false
    oe := false }

/-- `csn_match`, `rnw_match`, `bank_match` and `row_match`; `f_cs_n` is 0. -/
def fits (m : MainFsm) (f : Transaction) : Bool :=
  !m.active_cs_n && m.active.rnw == f.rnw && m.active.bank == f.bank && m.active.row == f.row

section Wires

variable (m : MainFsm) (fEmpty : Bool) (f : Transaction)

def pending : Bool := m.fits f && !fEmpty

def fSelect : Bool := m.f_pop && m.pending fEmpty f

def csnDecode : Bool := if m.fSelect fEmpty f then false else m.active_cs_n

/-- `fSelect ? f_* : active_*`. -/
def selected : Transaction := if m.fSelect fEmpty f then f else m.active

/-- `{csnDecode, code}`. -/
def command (code : BitVec 3) : BitVec 4 := BitVec.ofBool (m.csnDecode fEmpty f) ++ code

/-- Take the head of the FIFO, and promise to pop it. -/
def take : MainFsm := { m with f_pop := true, active_cs_n := false, active := f }

end Wires

def next (init_done refresh_request fEmpty : Bool) (f : Transaction) (i : InitFsm)
    (m : MainFsm) : MainFsm :=
  let m₀ := { m with f_pop := false, oe := false }
  let cmd := m.command fEmpty f
  match m.m_state with
  | .idle =>
      if init_done then
        if refresh_request then
          { m₀ with
            m_cmd := 0b0111
            ack_refresh_request := false
            m_state := .precharge
            m_next := .refresh
            m_count := 0
            active_cs_n := true }
        else if !fEmpty then
          { m₀.take f with m_cmd := 0b1111, ack_refresh_request := false, m_state := .activate }
        else { m₀ with m_cmd := 0b1111, ack_refresh_request := false }
      else { m₀ with m_addr := i.i_addr, m_state := .idle, m_next := .idle, m_cmd := i.i_cmd }
  | .activate =>
      { m₀ with
        m_state := .spin
        m_cmd := cmd 3
        m_bank := m.active.bank
        m_addr := m.active.row
        m_data := m.active.data
        m_dqm := m.active.dqm
        m_count := 1
        m_next := if m.active.rnw then .read else .write }
  | .spin =>
      let m₁ := { m₀ with m_cmd := if m.m_next = MState.refresh then 0b0111 else cmd 7 }
      if 1 < m.m_count then { m₁ with m_count := m.m_count - 1 }
      else { m₁ with m_state := m.m_next }
  | .read =>
      let m₁ := { m₀ with
        m_cmd := cmd 5
        m_bank := (m.selected fEmpty f).bank
        m_dqm := (m.selected fEmpty f).dqm
        m_addr := 0#3 ++ (m.selected fEmpty f).col }
      if m.pending fEmpty f then
        if refresh_request then { m₁ with m_state := .spin, m_next := .idle, m_count := 2 }
        else m₁.take f
      else
        -- The promised request is not there, or does not fit.
        { m₁ with m_cmd := if m.f_pop then cmd 7 else cmd 5, m_state := .hold }
  | .write =>
      let m₁ := { m₀ with
        m_cmd := cmd 4
        oe := true
        m_data := (m.selected fEmpty f).data
        m_dqm := (m.selected fEmpty f).dqm
        m_bank := (m.selected fEmpty f).bank
        m_addr := 0#3 ++ (m.selected fEmpty f).col }
      if m.pending fEmpty f then
        if refresh_request then { m₁ with m_state := .spin, m_next := .idle, m_count := 1 }
        else m₁.take f
      else
        { m₁ with
          m_cmd := if m.f_pop then cmd 7 else cmd 4
          oe := !m.f_pop
          m_state := .hold }
  | .close =>
      if 1 < m.m_count then { m₀ with m_cmd := cmd 7, m_count := m.m_count - 1 }
      else { m₀ with m_cmd := cmd 7, m_state := .precharge, m_count := 0 }
  | .precharge =>
      { m₀ with
        m_state := .spin
        m_addr := BitVec.allOnes 13
        m_cmd := if refresh_request then 0b0010 else cmd 2 }
  | .refresh =>
      { m₀ with
        ack_refresh_request := true
        m_state := .spin
        m_cmd := 0b0001
        m_count := 3
        m_next := .idle }
  | .hold =>
      if refresh_request then
        { m₀ with m_cmd := cmd 7, m_state := .spin, m_next := .idle, m_count := 1 }
      else if !fEmpty then
        if m.fits f then
          { m₀.take f with m_cmd := cmd 7, m_state := if f.rnw then .read else .write }
        else { m₀ with m_cmd := cmd 7, m_state := .close, m_next := .idle, m_count := 1 }
      else { m₀ with m_cmd := cmd 7 }

end MainFsm

/-! ## The module -/

end SdramController

/-- The registers of `lab7_soc_sdram`. -/
structure SdramController where
  fifo : SdramController.Efifo SdramController.Transaction
  refresh_counter : BitVec 14
  refresh_request : Bool
  za_cannotrefresh : Bool
  init_done : Bool
  init : SdramController.InitFsm
  main : SdramController.MainFsm
  rd_valid : BitVec 3
  za_data : BitVec 32
  za_valid : Bool

namespace SdramController

/-- The bus. -/
structure Inputs where
  reset_n : Bool
  az_addr : BitVec 25
  az_be_n : BitVec 4
  az_data : BitVec 32
  az_rd_n : Bool
  az_wr_n : Bool

/-- A cycle: the bus, and what the others put on `zs_dq`. -/
structure Cycle extends Inputs where
  x : BitVec 32

/-- The pins of the chip, `zs_cke` aside, which is always high. -/
structure Pins where
  /-- `{zs_cs_n, zs_ras_n, zs_cas_n, zs_we_n}`. -/
  zs_cmd : BitVec 4
  zs_ba : BitVec 2
  zs_addr : BitVec 13
  zs_dqm : BitVec 4
  zs_dq : BitVec 32

variable (s : SdramController)

def zaWaitrequest : Bool := s.fifo.full

def fEmpty : Bool := s.fifo.empty

/-- The head of the FIFO. -/
def f : Transaction := s.fifo.rdData

def fSelect : Bool := s.main.fSelect s.fEmpty s.f

def wr (i : Inputs) : Bool := (!i.az_wr_n || !i.az_rd_n) && !s.zaWaitrequest

def wrData (i : Inputs) : Transaction where
  rnw := i.az_wr_n
  addr := i.az_addr
  dqm := if i.az_wr_n then 0 else i.az_be_n
  data := i.az_data

def rdStrobe : Bool := s.main.m_cmd.extractLsb' 0 3 = 5#3

def reset : SdramController where
  fifo := s.fifo.reset
  refresh_counter := 10000
  refresh_request := false
  za_cannotrefresh := false
  init_done := false
  init := s.init.reset
  main := s.main.reset
  rd_valid := 0
  za_data := 0
  za_valid := false

/-- A clock edge, with `zs_dq` on the data bus. -/
def next (i : Inputs) (zs_dq : BitVec 32) : SdramController :=
  if !i.reset_n then s.reset
  else
    { fifo := s.fifo.next s.fSelect (s.wr i) (wrData i)
      refresh_counter := if s.refresh_counter = 0 then 390 else s.refresh_counter - 1
      refresh_request := (s.refresh_counter = 0 || s.refresh_request)
        && !s.main.ack_refresh_request && s.init_done
      za_cannotrefresh := s.refresh_counter = 0 && s.refresh_request
      init_done := s.init_done || s.init.i_state = .done
      init := s.init.next s.refresh_counter
      main := s.main.next s.init_done s.refresh_request s.fEmpty s.f s.init
      rd_valid := s.rd_valid <<< 1 ||| (0#2 ++ BitVec.ofBool s.rdStrobe)
      za_data := zs_dq
      za_valid := s.rd_valid.getLsbD 2 }

/-- The data bus; `oe` puts `m_data` on it. -/
def zsDq (x : BitVec 32) : BitVec 32 := if s.main.oe then s.main.m_data else x

def pins (x : BitVec 32) : Pins where
  zs_cmd := s.main.m_cmd
  zs_ba := s.main.m_bank
  zs_addr := s.main.m_addr
  zs_dqm := s.main.m_dqm
  zs_dq := s.zsDq x

/-- From a reset on. -/
def run (cs : ℕ → Cycle) : ℕ → SdramController :=
  Clocked.run (fun c s => s.next c.toInputs (s.zsDq c.x)) s.reset cs

end SdramController

end Ece385
