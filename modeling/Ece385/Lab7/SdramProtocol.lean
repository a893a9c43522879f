import Ece385.Lab7.SdramController

/-!
# The SDRAM controller keeps the protocol

The commands on the pins, cycle by cycle, and the protocol they keep. The invariant
of the main state machine (`MainFsm.Holds`) speaks about the monitor behind the
command that is on the pins already, one case a state: which rows are open, how long
the chip is still busy, and that an open row with a refresh pending is left behind on
purpose. It is what makes the command a state gives next legal (`advances`).

The one-step lemmas also say what a cycle does to the requests: `issue` is the
request whose command appears on the pins next, `flight` one that has left the FIFO
and is still to be issued.
-/

namespace Ece385

namespace SdramController

open Sdr (Command Monitor Timing Request)

/-! ## The pins and the chip -/

abbrev SdramMonitor := Monitor (BitVec 2) (BitVec 13)

abbrev SdramCommand := Command (BitVec 2) (BitVec 13) (BitVec 10) (BitVec 32)

/-- The waits the controller keeps, in cycles of 20 ns. -/
def timing : Timing where
  rcd := 1
  rp := 1
  rc := 3
  mrd := 2
  dpl := 2
  ras := 4

/-- The cycles between two commands that have to be `t` tenths of a ns apart. -/
def waits (t : ℕ) : ℕ := (t + 199) / 200 - 1

/-- What `lab7_soc.qsys` says about the chip: `TRCD` and `TRP` are 20 ns, `TRFC` is 70 ns,
`TMRD` is three cycles, `TWR` is 14 ns. For how long a row stays open it does not say. -/
def asked (ras : ℕ) : Timing where
  rcd := waits 200
  rp := waits 200
  rc := waits 700
  mrd := 3 - 1
  dpl := waits 140
  ras := ras

theorem asked_le {ras : ℕ} (h : ras ≤ 4) : (asked ras).Le timing :=
  ⟨Nat.zero_le 1, Nat.zero_le 1, Nat.le_refl 3, Nat.le_refl 2, Nat.zero_le 2, h⟩

/-- What follows from one command more. -/
abbrev after (e : SdramMonitor) (c : SdramCommand) : SdramMonitor := e.exec timing c

/-- The bytes of `data` that `dqm` does not mask. -/
def mergeBytes (dqm : BitVec 4) (data old : BitVec 32) : BitVec 32 :=
  let byte (k : ℕ) : BitVec 8 :=
    if dqm.getLsbD k then old.extractLsb' (8 * k) 8 else data.extractLsb' (8 * k) 8
  byte 3 ++ byte 2 ++ byte 1 ++ byte 0

/-- `{cs_n, ras_n, cas_n, we_n}`. The mode has to be burst length 1, latency 3. -/
def decode (cmd : BitVec 4) (ba : BitVec 2) (addr : BitVec 13)
    (upd : BitVec 32 → BitVec 32) : SdramCommand :=
  match cmd.toNat with
  | 0 => if addr = 0x30#13 then .mode else .other
  | 1 => .refresh
  | 2 => if addr.getLsbD 10 then .precharge else .other
  | 3 => .activate ba addr
  | 4 => if addr.getLsbD 10 then .other else .write ba (addr.extractLsb' 0 10) upd
  | 5 => if addr.getLsbD 10 then .other else .read ba (addr.extractLsb' 0 10)
  | 6 => .other
  | _ => .nop

namespace Pins

def command (p : Pins) : SdramCommand :=
  decode p.zs_cmd p.zs_ba p.zs_addr (mergeBytes p.zs_dqm p.zs_dq)

/-- A byte of the output is disabled. -/
def masked (p : Pins) : Bool := p.zs_dqm ≠ 0

end Pins

/-- The place of an address in the chip. -/
def loc (addr : BitVec 25) : BitVec 2 × BitVec 13 × BitVec 10 :=
  (addr.extractLsb' 24 1 ++ addr.extractLsb' 10 1, addr.extractLsb' 11 13, addr.extractLsb' 0 10)

theorem loc_injective : Function.Injective loc := by
  intro a b h
  obtain ⟨hbank, hrest⟩ := Prod.mk.inj h
  obtain ⟨hrow, hcol⟩ := Prod.mk.inj hrest
  have h24 := congrArg (fun v => v.extractLsb' 1 1) hbank
  have h10 := congrArg (fun v => v.extractLsb' 0 1) hbank
  simp only [BitVec.extractLsb'_append_eq_left, BitVec.extractLsb'_append_eq_right] at h24 h10
  replace h24 := congrArg BitVec.toNat h24
  replace h10 := congrArg BitVec.toNat h10
  replace hrow := congrArg BitVec.toNat hrow
  replace hcol := congrArg BitVec.toNat hcol
  simp only [BitVec.extractLsb'_toNat, Nat.shiftRight_eq_div_pow] at h24 h10 hrow hcol
  refine BitVec.eq_of_toNat_eq ?_
  have ha := a.isLt
  have hb := b.isLt
  omega

namespace Transaction

variable (f : Transaction)

def request : Request (BitVec 25) (BitVec 32) :=
  if f.rnw then .read f.addr else .write f.addr (mergeBytes f.dqm f.data)

/-- Reads are not masked. -/
def Unmasked : Prop := f.rnw = true → f.dqm = 0

end Transaction

/-! ## The main state machine -/

/-- No row is open. -/
def Closed (e : SdramMonitor) : Prop := ∀ b, e.row b = none

/-- The FIFO as the state machines see it. -/
def Head (l : List Transaction) (fEmpty : Bool) (f : Transaction) : Prop :=
  fEmpty = true ∧ l = [] ∨ fEmpty = false ∧ ∃ t, l = f :: t

namespace MainFsm

/-- The command on the pins. -/
def given (m : MainFsm) (zs_dq : BitVec 32) : SdramCommand :=
  decode m.m_cmd m.m_bank m.m_addr (mergeBytes m.m_dqm zs_dq)

/-- Popped and not yet issued. -/
def flight (m : MainFsm) : List Transaction :=
  match m.m_state with
  | .spin => if m.m_next = .read ∨ m.m_next = .write then [m.active] else []
  | .read | .write => if m.f_pop then [] else [m.active]
  | _ => []

/-- The request whose command is on the pins in the next cycle. -/
def issue (fEmpty : Bool) (f : Transaction) (m : MainFsm) : List Transaction :=
  match m.m_state with
  | .read | .write =>
      if m.fSelect fEmpty f then [f] else if m.f_pop then [] else [m.active]
  | _ => []

/-- The row of the active request is open. -/
def Ready (m : MainFsm) (e : SdramMonitor) : Prop :=
  m.active_cs_n = false ∧ m.ack_refresh_request = false
    ∧ e.row m.active.bank = some m.active.row ∧ m.active.Unmasked

/-- What is waited for in `spin`. -/
def Spins (refresh_request : Bool) (m : MainFsm) (e : SdramMonitor) : Prop :=
  match m.m_next with
  | .read => m.Ready e ∧ m.active.rnw = true
  | .write => m.Ready e ∧ m.active.rnw = false ∧ e.reads = 0
  | .refresh => refresh_request = true ∧ m.ack_refresh_request = false ∧ Closed e
  | .idle => e.recovery ≤ 2
      ∧ (refresh_request = true ∧ m.ack_refresh_request = false ∨ Closed e)
  | _ => False

/-- What a state knows about the chip behind the command on the pins: as much as it takes
to give the next command legally. `read`, `write` and `hold` rely on the row of the
active request, `activate` and `refresh` on all rows being closed; `idle` on one of the
two, for it is also where a refresh interrupts a row. The bounds say what is left of the
waits, and get tighter up to the command that needs them to be over. -/
def Holds (refresh_request : Bool) (l : List Transaction) (m : MainFsm) (e : SdramMonitor) : Prop :=
  match m.m_state with
  | .idle => m.f_pop = false ∧ e.Within 0 1 1
      ∧ (refresh_request = true ∧ m.ack_refresh_request = false
        ∨ refresh_request = false ∧ Closed e)
  | .activate => m.f_pop = true ∧ m.ack_refresh_request = false ∧ m.active_cs_n = false
      ∧ l.head? = some m.active ∧ Closed e ∧ e.Within 0 2 0
  | .spin => m.f_pop = false ∧ e.Within (max 1 m.m_count.toNat) 4 (m.m_count.toNat + 1)
      ∧ m.Spins refresh_request e
  | .read => m.Ready e ∧ m.active.rnw = true ∧ e.Within 0 3 3
  | .write => m.Ready e ∧ m.active.rnw = false ∧ e.Within 0 3 0
  | .close => m.f_pop = false ∧ m.ack_refresh_request = false ∧ m.active_cs_n = false
      ∧ m.m_next = .idle ∧ e.Within 0 1 2
  | .precharge => m.f_pop = false ∧ m.ack_refresh_request = false ∧ e.Within 0 0 1
      ∧ (m.m_next = .idle ∧ m.active_cs_n = false ∨ m.m_next = .refresh ∧ refresh_request = true)
  | .refresh => m.f_pop = false ∧ refresh_request = true ∧ m.ack_refresh_request = false
      ∧ Closed e ∧ e.Within 0 3 1
  | .hold => m.f_pop = false ∧ m.Ready e ∧ e.Within 0 2 3 ∧ (m.active.rnw = false → e.reads = 0)

/-- A word on its way is not masked. -/
def Enabled (m : MainFsm) (e : SdramMonitor) : Prop := e.q1 = true → m.m_dqm = 0

/-- What a cycle does: the next command on the pins is legal and is that of the issued
request, and the books are kept. -/
structure Keeps (m m' : MainFsm) (fEmpty : Bool) (f : Transaction) (l : List Transaction)
    (e : SdramMonitor) (zs_dq : BitVec 32) : Prop where
  legal : e.Legal (m'.given zs_dq)
  means : (m'.oe = true → zs_dq = m'.m_data) →
    e.Means loc (m'.given zs_dq) ((m.issue fEmpty f).map Transaction.request)
  books : m.flight ++ l
    = m.issue fEmpty f ++ (m'.flight ++ l.drop (m.fSelect fEmpty f).toNat)
  off : m'.m_dqm ≠ 0 → e.q1 = false
  bus : m'.oe = true → e.q3 = false
  strobe : m'.m_cmd.extractLsb' 0 3 = 5#3 ↔ (m'.given zs_dq).isRead = true
  enabled : m'.Enabled (after e (m'.given zs_dq))

/-- It also leads to a state that knows the chip again, whatever is accepted meanwhile. -/
structure Advances (m m' : MainFsm) (refresh_request' fEmpty : Bool) (f : Transaction)
    (l : List Transaction) (e : SdramMonitor) (zs_dq : BitVec 32) : Prop
    extends Keeps m m' fEmpty f l e zs_dq where
  holds : ∀ new, m'.Holds refresh_request'
    (l.drop (m.fSelect fEmpty f).toNat ++ new) (after e (m'.given zs_dq))

section Advances

variable {m : MainFsm} {rr rr' fEmpty : Bool} {f : Transaction} {l : List Transaction}
  {e : SdramMonitor} {i : InitFsm}

theorem Enabled.off {m' : MainFsm} (hen : m.Enabled e) (hdqm : m'.m_dqm = m.m_dqm)
    (h : m'.m_dqm ≠ 0) : e.q1 = false := by
  rw [hdqm] at h
  exact (Bool.not_eq_true _).mp fun h1 => h (hen h1)

/-- A command that neither reads nor writes. -/
theorem Keeps.of_row_command {m' : MainFsm} {zs_dq : BitVec 32} {c : SdramCommand}
    {k : BitVec 4} (hk : m'.m_cmd = k)
    (hc : decode k m'.m_bank m'.m_addr (mergeBytes m'.m_dqm zs_dq) = c)
    (hcode : k.extractLsb' 0 3 ≠ 5#3) (hrow : c.isAccess = false) (hlegal : e.Legal c)
    (hoff : m'.m_dqm ≠ 0 → e.q1 = false) (hoe : m'.oe = false) (hissue : m.issue fEmpty f = [])
    (hflight : m.flight ++ l = m'.flight ++ l.drop (m.fSelect fEmpty f).toNat) :
    Keeps m m' fEmpty f l e zs_dq := by
  have hpins : m'.given zs_dq = c := by rw [given, hk, hc]
  constructor
  case legal => rwa [hpins]
  case means =>
    intro _
    rw [hpins, hissue]
    exact Monitor.means_nil hrow
  case books => rw [hissue, hflight, List.nil_append]
  case off => exact hoff
  case bus => exact fun h => absurd (hoe.symm.trans h) (by decide)
  case strobe =>
    rw [hpins, Sdr.Command.isRead_eq_false hrow, hk]
    exact iff_of_false hcode (by decide)
  case enabled =>
    intro h
    rw [hpins, Monitor.exec_q1, Sdr.Command.isRead_eq_false hrow] at h
    exact absurd h (by decide)

theorem Advances.of_row_command {m' : MainFsm} {zs_dq : BitVec 32} {c : SdramCommand}
    (k : BitVec 4) (hk : m'.m_cmd = k)
    (hc : decode k m'.m_bank m'.m_addr (mergeBytes m'.m_dqm zs_dq) = c)
    (hcode : k.extractLsb' 0 3 ≠ 5#3) (hrow : c.isAccess = false) (hlegal : e.Legal c)
    (hoff : m'.m_dqm ≠ 0 → e.q1 = false) (hoe : m'.oe = false) (hissue : m.issue fEmpty f = [])
    (hflight : m.flight ++ l = m'.flight ++ l.drop (m.fSelect fEmpty f).toNat)
    (hholds : ∀ new, m'.Holds rr'
      (l.drop (m.fSelect fEmpty f).toNat ++ new) (after e c)) :
    Advances m m' rr' fEmpty f l e zs_dq := by
  refine ⟨.of_row_command hk hc hcode hrow hlegal hoff hoe hissue hflight, fun new => ?_⟩
  rw [given, hk, hc]
  exact hholds new

/-- No command, of a state that issues nothing and pops nothing. -/
theorem Advances.of_nop {m' : MainFsm} {zs_dq : BitVec 32} (hen : m.Enabled e)
    (hk : m'.m_cmd = 0b0111 ∨ m'.m_cmd = 0b1111) (hdqm : m'.m_dqm = m.m_dqm)
    (hoe : m'.oe = false) (hpop : m.f_pop = false) (hissue : m.issue fEmpty f = [])
    (hflight : m'.flight = m.flight)
    (hholds : ∀ new, m'.Holds rr' (l ++ new) (after e .nop)) :
    Advances m m' rr' fEmpty f l e zs_dq := by
  have hsel : m.fSelect fEmpty f = false := by rw [fSelect, hpop, Bool.false_and]
  rcases hk with hk | hk
  · refine .of_row_command _ hk rfl (by decide) rfl trivial (hen.off hdqm) hoe hissue ?_ ?_
    · rw [hsel, hflight]
      rfl
    · rw [hsel]
      exact hholds
  · refine .of_row_command _ hk rfl (by decide) rfl trivial (hen.off hdqm) hoe hissue ?_ ?_
    · rw [hsel, hflight]
      rfl
    · rw [hsel]
      exact hholds

theorem command_seven : m.command fEmpty f 7 = 0b0111 ∨ m.command fEmpty f 7 = 0b1111 := by
  unfold command
  cases m.csnDecode fEmpty f
  · exact Or.inl rfl
  · exact Or.inr rfl

theorem decode_access (ba : BitVec 2) (col : BitVec 10) (upd : BitVec 32 → BitVec 32) :
    decode 0b0101 ba (0#3 ++ col) upd = .read ba col
      ∧ decode 0b0100 ba (0#3 ++ col) upd = .write ba col upd := by
  have hbit : (0#3 ++ col).getLsbD 10 = false := by
    rw [BitVec.getLsbD_append]
    exact BitVec.getLsbD_zero
  have hcol : (0#3 ++ col).extractLsb' 0 10 = col := BitVec.extractLsb'_append_eq_right
  constructor
  · show (if (0#3 ++ col).getLsbD 10 then _
      else Command.read ba ((0#3 ++ col).extractLsb' 0 10)) = _
    rw [hbit, hcol]
    rfl
  · show (if (0#3 ++ col).getLsbD 10 then _
      else Command.write ba ((0#3 ++ col).extractLsb' 0 10) upd) = _
    rw [hbit, hcol]
    rfl

theorem decode_precharge (ba : BitVec 2) (upd : BitVec 32 → BitVec 32) :
    decode 0b0010 ba (BitVec.allOnes 13) upd = .precharge := by
  show (if (BitVec.allOnes 13).getLsbD 10 then Command.precharge else Command.other) = _
  exact if_pos (by decide)

section Access

variable {m' : MainFsm} {t : Transaction} {y z : ℕ} {zs_dq : BitVec 32}
  (hrow : e.row t.bank = some t.row) (hbank : m'.m_bank = t.bank)
  (haddr : m'.m_addr = 0#3 ++ t.col) (hissue : m.issue fEmpty f = [t])
  (hbooks : m.flight ++ l = t :: (m'.flight ++ l.drop (m.fSelect fEmpty f).toNat))
include hrow hbank haddr hissue hbooks

theorem Advances.of_read (hk : m'.m_cmd = 0b0101) (hrnw : t.rnw = true) (hdqm : m'.m_dqm = 0)
    (hoe : m'.oe = false) (hw : e.Within 0 y z) (hholds : ∀ new, m'.Holds rr'
      (l.drop (m.fSelect fEmpty f).toNat ++ new) (after e (.read t.bank t.col))) :
    Advances m m' rr' fEmpty f l e zs_dq := by
  have hpins : m'.given zs_dq = .read t.bank t.col := by
    rw [given, hk, hbank, haddr, (decode_access _ _ _).1]
  refine ⟨?_, fun new => by rw [hpins]; exact hholds new⟩
  constructor
  case legal =>
    rw [hpins]
    exact ⟨Nat.le_zero.mp hw.busy, by rw [hrow]; rfl⟩
  case means =>
    intro _
    rw [hpins, hissue]
    refine ⟨t.addr, t.row, hrow, rfl, ?_⟩
    simp [Transaction.request, hrnw]
  case books => rw [hissue, hbooks, List.singleton_append]
  case off => exact fun h => absurd hdqm h
  case bus => exact fun h => absurd (hoe.symm.trans h) (by decide)
  case strobe =>
    rw [hpins, hk]
    exact iff_of_true rfl rfl
  case enabled => exact fun _ => hdqm

theorem Advances.of_write (hk : m'.m_cmd = 0b0100) (hrnw : t.rnw = false)
    (hdqm : m'.m_dqm = t.dqm) (hdata : m'.m_data = t.data) (hoe : m'.oe = true)
    (hw : e.Within 0 y 0) (hholds : ∀ new upd, m'.Holds rr'
      (l.drop (m.fSelect fEmpty f).toNat ++ new) (after e (.write t.bank t.col upd))) :
    Advances m m' rr' fEmpty f l e zs_dq := by
  have hpins : m'.given zs_dq = .write t.bank t.col (mergeBytes m'.m_dqm zs_dq) := by
    rw [given, hk, hbank, haddr, (decode_access _ _ _).2]
  have hread : (m'.given zs_dq).isRead = false := by rw [hpins]; rfl
  refine ⟨?_, fun new => by rw [hpins]; exact hholds new _⟩
  constructor
  case legal =>
    rw [hpins]
    exact ⟨Nat.le_zero.mp hw.busy, by rw [hrow]; rfl, hw.q3⟩
  case means =>
    intro hbus
    rw [hpins, hissue]
    refine ⟨t.addr, t.row, hrow, rfl, ?_⟩
    simp [Transaction.request, hrnw, hbus hoe, hdqm, hdata]
  case books => rw [hissue, hbooks, List.singleton_append]
  case off => exact fun _ => hw.q1 (by decide)
  case bus => exact fun _ => hw.q3
  case strobe =>
    rw [hread, hk]
    exact iff_of_false (by decide) (by decide)
  case enabled =>
    intro h
    rw [Monitor.exec_q1, hread] at h
    exact absurd h (by decide)

end Access

theorem Ready.csnDecode (h : m.Ready e) : m.csnDecode fEmpty f = false := by
  rw [MainFsm.csnDecode, h.1]
  split <;> rfl

theorem reads_nop (h : e.reads = 0) : (after e .nop).reads = 0 := by
  have hle := e.reads_tick
  rw [h] at hle
  exact Nat.le_zero.mp hle

theorem Spins.nop (h : m.Spins rr e)
    (hkeep : m.ack_refresh_request = false → rr = true → rr' = true) :
    m.Spins rr' (after e .nop) := by
  unfold Spins at h ⊢
  cases hq : m.m_next <;> rw [hq] at h
  case read => exact h
  case write => exact ⟨h.1, h.2.1, reads_nop h.2.2⟩
  case refresh => exact ⟨hkeep h.2.1 h.1, h.2⟩
  case idle =>
    exact ⟨(Nat.sub_le _ 1).trans h.1, h.2.imp (fun h => ⟨hkeep h.2 h.1, h.2⟩) id⟩
  all_goals exact h

theorem fits_iff : m.fits f = true ↔ m.active_cs_n = false ∧ m.active.rnw = f.rnw
    ∧ m.active.bank = f.bank ∧ m.active.row = f.row := by
  simp [fits, and_assoc]

/-- The selected request goes to the open row, too. -/
theorem Ready.selected (h : m.Ready e) (hhead : Head l fEmpty f) (hmask : ∀ t ∈ l, t.Unmasked) :
    e.row (m.selected fEmpty f).bank = some (m.selected fEmpty f).row
      ∧ (m.selected fEmpty f).rnw = m.active.rnw ∧ (m.selected fEmpty f).Unmasked := by
  obtain ⟨-, -, hopen, hun⟩ := h
  unfold MainFsm.selected
  cases hsel : m.fSelect fEmpty f with
  | false => exact ⟨hopen, rfl, hun⟩
  | true =>
      rw [fSelect, pending, Bool.and_eq_true, Bool.and_eq_true] at hsel
      obtain ⟨-, hrnw, hbank, hrow⟩ := fits_iff.mp hsel.2.1
      rcases hhead with ⟨rfl, -⟩ | ⟨-, t, rfl⟩
      · exact absurd hsel.2.2 (by decide)
      · rw [if_pos rfl]
        exact ⟨by rw [← hbank, ← hrow]; exact hopen, hrnw.symm, hmask f List.mem_cons_self⟩

section States

variable (hen : m.Enabled e) (zs_dq : BitVec 32) (hh : m.Holds rr l e)
include hen hh

theorem advances_idle (hs : m.m_state = .idle) (hhead : Head l fEmpty f)
    (hkeep : m.ack_refresh_request = false → rr = true → rr' = true) :
    Advances m (m.next true rr fEmpty f i) rr' fEmpty f l e zs_dq := by
  simp only [Holds, hs] at hh
  obtain ⟨hpop, hw, hrow⟩ := hh
  have hnop : (after e .nop).Within 0 0 0 := hw.nop
  have hissue : m.issue fEmpty f = [] := by simp only [issue, hs]
  have hflight : m.flight = [] := by simp only [flight, hs]
  rcases hrow with ⟨rfl, hack⟩ | ⟨rfl, hclosed⟩
  · have hnext : m.next true true fEmpty f i = { m with
        m_state := .precharge, m_next := .refresh, m_cmd := 0b0111, m_count := 0,
        ack_refresh_request := false, f_pop := false, oe := false, active_cs_n := true } := by
      simp [next, hs]
    rw [hnext]
    refine .of_nop hen (Or.inl rfl) rfl rfl hpop hissue hflight.symm fun new => ?_
    exact ⟨rfl, rfl, hnop.mono (Nat.le_refl 0) (Nat.le_refl 0) (Nat.zero_le 1),
      Or.inr ⟨rfl, hkeep hack rfl⟩⟩
  · rcases hhead with ⟨rfl, rfl⟩ | ⟨rfl, t, rfl⟩
    · have hnext : m.next true false true f i = { m with
          m_state := .idle, m_cmd := 0b1111, ack_refresh_request := false, f_pop := false,
          oe := false } := by
        simp [next, hs]
      rw [hnext]
      refine .of_nop hen (Or.inr rfl) rfl rfl hpop hissue hflight.symm fun new => ?_
      refine ⟨rfl, hnop.mono (Nat.le_refl 0) (Nat.zero_le 1) (Nat.zero_le 1), ?_⟩
      cases rr' with
      | true => exact Or.inl ⟨rfl, rfl⟩
      | false => exact Or.inr ⟨rfl, hclosed⟩
    · have hnext : m.next true false false f i = { m with
          m_state := .activate, m_cmd := 0b1111, ack_refresh_request := false, f_pop := true,
          oe := false, active_cs_n := false, active := f } := by
        simp [next, hs, take]
      rw [hnext]
      refine .of_nop hen (Or.inr rfl) rfl rfl hpop hissue hflight.symm fun new => ?_
      exact ⟨rfl, rfl, rfl, rfl, hclosed, hnop.mono (Nat.le_refl 0) (Nat.zero_le 2) (Nat.le_refl 0)⟩

omit hen in
theorem advances_activate (hs : m.m_state = .activate) (hhead : Head l fEmpty f)
    (hmask : ∀ t ∈ l, t.Unmasked) (hprog : e.programmed = true) :
    Advances m (m.next true rr fEmpty f i) rr' fEmpty f l e zs_dq := by
  simp only [Holds, hs] at hh
  obtain ⟨hpop, hack, hcs, hactive, hclosed, hw⟩ := hh
  rcases hhead with ⟨-, rfl⟩ | ⟨rfl, t, rfl⟩
  · exact absurd hactive (by simp)
  obtain rfl : f = m.active := Option.some.inj hactive
  have hsel : m.fSelect false m.active = true := by
    rw [fSelect, pending, hpop, fits_iff.mpr ⟨hcs, rfl, rfl, rfl⟩]
    rfl
  have hcmd : m.command false m.active 3 = 0b0011 := by
    rw [command, csnDecode, if_pos hsel]
    rfl
  obtain ⟨q, hq, hkind⟩ : ∃ q, (if m.active.rnw then MState.read else MState.write) = q
      ∧ (q = .read ∧ m.active.rnw = true ∨ q = .write ∧ m.active.rnw = false) := by
    cases m.active.rnw with
    | true => exact ⟨_, rfl, Or.inl ⟨rfl, rfl⟩⟩
    | false => exact ⟨_, rfl, Or.inr ⟨rfl, rfl⟩⟩
  have hnext : m.next true rr false m.active i = { m with
      m_state := .spin, m_cmd := 0b0011, m_bank := m.active.bank, m_addr := m.active.row,
      m_data := m.active.data, m_dqm := m.active.dqm, m_count := 1, m_next := q,
      f_pop := false, oe := false } := by
    simp only [next, hs, hcmd, hq]
  rw [hnext]
  refine .of_row_command (c := .activate m.active.bank m.active.row) 0b0011 rfl rfl (by decide)
    rfl ⟨Nat.le_zero.mp hw.busy, hprog, hclosed _⟩ (fun _ => hw.q1 (by decide)) rfl
    (by simp only [issue, hs]) ?_ fun new => ?_
  · have hflight : m.flight = [] := by simp only [flight, hs]
    rw [hsel, hflight]
    rcases hkind with ⟨rfl, -⟩ | ⟨rfl, -⟩ <;> rfl
  · have hbounds : (after e (.activate m.active.bank m.active.row)).Within 1 4 0 :=
      hw.activate m.active.bank m.active.row
    refine ⟨rfl, hbounds.mono (Nat.le_refl 1) (Nat.le_refl 4) (Nat.zero_le 2), ?_⟩
    have hopen : (after e (.activate m.active.bank m.active.row)).row m.active.bank
        = some m.active.row := Function.update_self ..
    have hun := hmask _ List.mem_cons_self
    rcases hkind with ⟨rfl, hrnw⟩ | ⟨rfl, hrnw⟩
    · exact ⟨⟨hcs, hack, hopen, hun⟩, hrnw⟩
    · exact ⟨⟨hcs, hack, hopen, hun⟩, hrnw, Nat.le_zero.mp hbounds.reads⟩

theorem advances_spin (hs : m.m_state = .spin)
    (hkeep : m.ack_refresh_request = false → rr = true → rr' = true)
    (hack' : m.ack_refresh_request = true → rr' = false) :
    Advances m (m.next true rr fEmpty f i) rr' fEmpty f l e zs_dq := by
  simp only [Holds, hs] at hh
  obtain ⟨hpop, hw, hh⟩ := hh
  have hissue : m.issue fEmpty f = [] := by simp only [issue, hs]
  have hflight : m.flight = if m.m_next = .read ∨ m.m_next = .write then [m.active] else [] := by
    simp only [flight, hs]
  obtain ⟨cmd, hcmd, hnop⟩ : ∃ cmd, (if m.m_next = .refresh then 0b0111 else m.command fEmpty f 7)
      = cmd ∧ (cmd = 0b0111 ∨ cmd = 0b1111) := by
    refine ⟨_, rfl, ?_⟩
    split
    · exact Or.inl rfl
    · exact command_seven
  have hbounds : (after e .nop).Within (max 1 m.m_count.toNat - 1) (4 - 1)
      (m.m_count.toNat + 1 - 1) := hw.nop
  by_cases hlt : 1 < m.m_count
  · have hnext : m.next true rr fEmpty f i = { m with
        m_state := .spin, m_cmd := cmd, m_count := m.m_count - 1, f_pop := false,
        oe := false } := by
      simp only [next, hs, if_pos hlt, hcmd]
    have hlt' : 1 < m.m_count.toNat := hlt
    have hcount : (m.m_count - 1).toNat = m.m_count.toNat - 1 :=
      BitVec.toNat_sub_of_le (Nat.le_of_lt hlt')
    rw [hnext]
    refine .of_nop hen hnop rfl rfl hpop hissue (by rw [hflight]; rfl) fun new => ?_
    refine ⟨rfl, hbounds.mono ?_ (Nat.le_succ 3) ?_, ?_⟩
    · show _ ≤ max 1 (m.m_count - 1).toNat
      omega
    · show _ ≤ (m.m_count - 1).toNat + 1
      omega
    · exact hh.nop hkeep
  · have hnext : m.next true rr fEmpty f i = { m with
        m_state := m.m_next, m_cmd := cmd, f_pop := false, oe := false } := by
      simp only [next, hs, if_neg hlt, hcmd]
    have hle : m.m_count.toNat ≤ 1 := Nat.le_of_not_lt hlt
    rw [hnext]
    have hbounds' : (after e .nop).Within 0 3 1 :=
      hbounds.mono (by omega) (Nat.le_refl 3) (by omega)
    have hspins := hh.nop hkeep
    unfold Spins at hspins hh
    refine .of_nop hen hnop rfl rfl hpop hissue ?_ fun new => ?_
    · rw [hflight]
      cases hq : m.m_next <;> simp [flight]
    · cases hq : m.m_next <;> rw [hq] at hspins hh
      case read =>
        exact ⟨hspins.1, hspins.2, hbounds'.mono (Nat.le_refl 0) (Nat.le_refl 3) (by decide)⟩
      case write =>
        exact ⟨hspins.1, hspins.2.1, hbounds'.busy, hbounds'.recovery, Nat.le_of_eq hspins.2.2⟩
      case refresh => exact ⟨rfl, hspins.1, hspins.2.1, hspins.2.2, hbounds'⟩
      case idle =>
        have hrecovery : (after e .nop).recovery ≤ 1 := Nat.sub_le_sub_right hh.1 1
        refine ⟨rfl, ⟨hbounds'.busy, hrecovery, hbounds'.reads⟩, ?_⟩
        cases hr : rr' with
        | true =>
            refine Or.inl ⟨rfl, ?_⟩
            show m.ack_refresh_request = false
            cases hack : m.ack_refresh_request with
            | false => rfl
            | true => exact absurd (hr.symm.trans (hack' hack)) (by decide)
        | false =>
            refine Or.inr ⟨rfl, hspins.2.resolve_left fun h => ?_⟩
            exact absurd (hr.symm.trans h.1) (by decide)
      all_goals exact hspins.elim

theorem advances_close (hs : m.m_state = .close) :
    Advances m (m.next true rr fEmpty f i) rr' fEmpty f l e zs_dq := by
  simp only [Holds, hs] at hh
  obtain ⟨hpop, hack, hcs, hnx, hw⟩ := hh
  have hissue : m.issue fEmpty f = [] := by simp only [issue, hs]
  have hflight : m.flight = [] := by simp only [flight, hs]
  have hbounds : (after e .nop).Within 0 0 1 := hw.nop
  by_cases hlt : 1 < m.m_count
  · have hnext : m.next true rr fEmpty f i = { m with
        m_state := .close, m_cmd := m.command fEmpty f 7, m_count := m.m_count - 1,
        f_pop := false, oe := false } := by
      simp only [next, hs, if_pos hlt]
    rw [hnext]
    refine .of_nop hen command_seven rfl rfl hpop hissue hflight.symm fun new => ?_
    exact ⟨rfl, hack, hcs, hnx, hbounds.mono (Nat.le_refl 0) (Nat.zero_le 1) (Nat.le_succ 1)⟩
  · have hnext : m.next true rr fEmpty f i = { m with
        m_state := .precharge, m_cmd := m.command fEmpty f 7, m_count := 0,
        f_pop := false, oe := false } := by
      simp only [next, hs, if_neg hlt]
    rw [hnext]
    refine .of_nop hen command_seven rfl rfl hpop hissue hflight.symm fun new => ?_
    exact ⟨rfl, hack, hbounds, Or.inl ⟨hnx, hcs⟩⟩

theorem advances_precharge (hs : m.m_state = .precharge)
    (hkeep : m.ack_refresh_request = false → rr = true → rr' = true) :
    Advances m (m.next true rr fEmpty f i) rr' fEmpty f l e zs_dq := by
  simp only [Holds, hs] at hh
  obtain ⟨hpop, hack, hw, hkind⟩ := hh
  have hsel : m.fSelect fEmpty f = false := by rw [fSelect, hpop, Bool.false_and]
  have hcmd : (if rr = true then 0b0010 else m.command fEmpty f 2) = 0b0010 := by
    rcases hkind with ⟨-, hcs⟩ | ⟨-, rfl⟩
    · rw [command, csnDecode, hsel, hcs]
      exact ite_self _
    · exact if_pos rfl
  have hnext : m.next true rr fEmpty f i = { m with
      m_state := .spin, m_cmd := 0b0010, m_addr := BitVec.allOnes 13,
      f_pop := false, oe := false } := by
    simp only [next, hs, hcmd]
  rw [hnext]
  refine .of_row_command 0b0010 rfl (decode_precharge _ _) (by decide) rfl
    ⟨Nat.le_zero.mp hw.busy, Nat.le_zero.mp hw.recovery⟩ (hen.off rfl) rfl
    (by simp only [issue, hs]) ?_ fun new => ?_
  · have hflight : m.flight = [] := by simp only [flight, hs]
    rw [hsel, hflight]
    rcases hkind with ⟨hnx, -⟩ | ⟨hnx, -⟩ <;> simp [flight, hnx]
  · have hbounds : (after e .precharge).Within 1 0 0 := hw.precharge
    refine ⟨rfl, hbounds.mono (Nat.le_max_left 1 _) (Nat.zero_le 4) (Nat.zero_le _), ?_⟩
    unfold Spins
    rcases hkind with ⟨hnx, -⟩ | ⟨hnx, hrr⟩ <;> simp only [hnx]
    · exact ⟨hbounds.recovery.trans (Nat.zero_le 2), Or.inr fun _ => rfl⟩
    · exact ⟨hkeep hack hrr, hack, fun _ => rfl⟩

theorem advances_refresh (hs : m.m_state = .refresh) :
    Advances m (m.next true rr fEmpty f i) rr' fEmpty f l e zs_dq := by
  simp only [Holds, hs] at hh
  obtain ⟨hpop, -, hack, hclosed, hw⟩ := hh
  have hsel : m.fSelect fEmpty f = false := by rw [fSelect, hpop, Bool.false_and]
  have hnext : m.next true rr fEmpty f i = { m with
      m_state := .spin, m_cmd := 0b0001, m_count := 3, m_next := .idle,
      ack_refresh_request := true, f_pop := false, oe := false } := by
    simp only [next, hs]
  rw [hnext]
  refine .of_row_command (c := .refresh) 0b0001 rfl rfl (by decide) rfl
    ⟨Nat.le_zero.mp hw.busy, hclosed⟩ (hen.off rfl) rfl (by simp only [issue, hs]) ?_ fun new => ?_
  · have hflight : m.flight = [] := by simp only [flight, hs]
    rw [hsel, hflight]
    rfl
  · have hbounds : (after e .refresh).Within 3 2 0 := hw.refresh
    exact ⟨rfl, hbounds.mono (Nat.le_refl 3) (by decide) (Nat.zero_le 4), hbounds.recovery,
      Or.inr hclosed⟩

theorem advances_hold (hs : m.m_state = .hold) (hhead : Head l fEmpty f)
    (hmask : ∀ t ∈ l, t.Unmasked)
    (hkeep : m.ack_refresh_request = false → rr = true → rr' = true) :
    Advances m (m.next true rr fEmpty f i) rr' fEmpty f l e zs_dq := by
  simp only [Holds, hs] at hh
  obtain ⟨hpop, ⟨hcs, hack, hopen, hun⟩, hw, hreads⟩ := hh
  have hissue : m.issue fEmpty f = [] := by simp only [issue, hs]
  have hflight : m.flight = [] := by simp only [flight, hs]
  have hbounds : (after e .nop).Within 0 1 2 := hw.nop
  cases hrr : rr with
  | true =>
      have hnext : m.next true true fEmpty f i = { m with
          m_state := .spin, m_cmd := m.command fEmpty f 7, m_count := 1, m_next := .idle,
          f_pop := false, oe := false } := by
        simp only [next, hs, if_true]
      rw [hnext]
      refine .of_nop hen command_seven rfl rfl hpop hissue (by rw [hflight]; rfl) fun new => ?_
      exact ⟨rfl, hbounds.mono (Nat.zero_le _) (by decide) (Nat.le_refl 2),
        hbounds.recovery.trans (Nat.le_succ 1), Or.inl ⟨hkeep hack hrr, hack⟩⟩
  | false =>
      rcases hhead with ⟨rfl, rfl⟩ | ⟨rfl, t, rfl⟩
      · have hnext : m.next true false true f i = { m with
            m_state := .hold, m_cmd := m.command true f 7, f_pop := false, oe := false } := by
          simp [next, hs]
        rw [hnext]
        refine .of_nop hen command_seven rfl rfl hpop hissue (by rw [hflight]; rfl) fun new => ?_
        exact ⟨rfl, ⟨hcs, hack, hopen, hun⟩,
          hbounds.mono (Nat.le_refl 0) (Nat.le_succ 1) (Nat.le_succ 2),
          fun hrnw => reads_nop (hreads hrnw)⟩
      · cases hfits : m.fits f with
        | true =>
            obtain ⟨-, hrnw, hbank, hrow⟩ := fits_iff.mp hfits
            have hopen' : e.row f.bank = some f.row := by rw [← hbank, ← hrow, hopen]
            have hun' := hmask f List.mem_cons_self
            cases hf : f.rnw with
            | true =>
                have hnext : m.next true false false f i = { m with
                    m_state := .read, m_cmd := m.command false f 7, f_pop := true, oe := false,
                    active_cs_n := false, active := f } := by
                  simp [next, hs, hfits, hf, take]
                rw [hnext]
                refine .of_nop hen command_seven rfl rfl hpop hissue (by rw [hflight]; rfl)
                  fun new => ?_
                exact ⟨⟨rfl, hack, hopen', hun'⟩, hf,
                  hbounds.mono (Nat.le_refl 0) (by decide) (Nat.le_succ 2)⟩
            | false =>
                have hnext : m.next true false false f i = { m with
                    m_state := .write, m_cmd := m.command false f 7, f_pop := true, oe := false,
                    active_cs_n := false, active := f } := by
                  simp [next, hs, hfits, hf, take]
                rw [hnext]
                refine .of_nop hen command_seven rfl rfl hpop hissue (by rw [hflight]; rfl)
                  fun new => ?_
                exact ⟨⟨rfl, hack, hopen', hun'⟩, hf, hbounds.busy,
                  hbounds.recovery.trans (by decide),
                  Nat.le_of_eq (reads_nop (hreads (hrnw.trans hf)))⟩
        | false =>
            have hnext : m.next true false false f i = { m with
                m_state := .close, m_cmd := m.command false f 7, m_count := 1, m_next := .idle,
                f_pop := false, oe := false } := by
              simp [next, hs, hfits]
            rw [hnext]
            refine .of_nop hen command_seven rfl rfl hpop hissue (by rw [hflight]; rfl)
              fun new => ?_
            exact ⟨rfl, hack, hcs, rfl, hbounds⟩

end States

/-- What a column command is about, and what becomes of the FIFO. -/
theorem books_of_selected (hhead : Head l fEmpty f)
    (hsel : m.fSelect fEmpty f = true ∨ m.f_pop = false) :
    (if m.fSelect fEmpty f then [f] else if m.f_pop then [] else [m.active])
        = [m.selected fEmpty f]
      ∧ (if m.f_pop then [] else [m.active]) ++ l
        = m.selected fEmpty f :: l.drop (m.fSelect fEmpty f).toNat := by
  unfold selected
  cases h : m.fSelect fEmpty f with
  | true =>
      rw [fSelect, pending, Bool.and_eq_true, Bool.and_eq_true] at h
      rcases hhead with ⟨rfl, -⟩ | ⟨-, t, rfl⟩
      · exact absurd h.2.2 (by decide)
      · rw [h.1]
        exact ⟨rfl, rfl⟩
  | false =>
      rw [hsel.resolve_left (by rw [h]; decide)]
      exact ⟨rfl, rfl⟩

/-- A pending request that was promised is selected. -/
theorem fSelect_of_pending (h : m.pending fEmpty f = true) :
    m.fSelect fEmpty f = true ∨ m.f_pop = false := by
  rw [fSelect, h, Bool.and_true]
  cases m.f_pop
  · exact Or.inr rfl
  · exact Or.inl rfl

theorem fSelect_of_not_pending (h : m.pending fEmpty f = false) : m.fSelect fEmpty f = false := by
  rw [fSelect, h, Bool.and_false]

/-- A request that goes to the open row takes its place. -/
theorem Ready.of_fits (h : m.Ready e) (hhead : Head l fEmpty f) (hmask : ∀ t ∈ l, t.Unmasked)
    (hpend : m.pending fEmpty f = true) :
    e.row f.bank = some f.row ∧ f.Unmasked ∧ f.rnw = m.active.rnw := by
  obtain ⟨-, -, hopen, -⟩ := h
  rw [pending, Bool.and_eq_true] at hpend
  obtain ⟨-, hrnw, hbank, hrow⟩ := fits_iff.mp hpend.1
  rcases hhead with ⟨rfl, -⟩ | ⟨-, t, rfl⟩
  · exact absurd hpend.2 (by decide)
  · exact ⟨by rw [← hbank, ← hrow, hopen], hmask f List.mem_cons_self, hrnw.symm⟩

section States

variable (hen : m.Enabled e) (zs_dq : BitVec 32) (hh : m.Holds rr l e)
include hen hh

omit hen in
theorem advances_read (hs : m.m_state = .read) (hhead : Head l fEmpty f)
    (hmask : ∀ t ∈ l, t.Unmasked)
    (hkeep : m.ack_refresh_request = false → rr = true → rr' = true) :
    Advances m (m.next true rr fEmpty f i) rr' fEmpty f l e zs_dq := by
  simp only [Holds, hs] at hh
  obtain ⟨hready, hrnw, hw⟩ := hh
  obtain ⟨hrow, hrnw', hun⟩ := hready.selected hhead hmask
  have hcmd : ∀ code, m.command fEmpty f code = 0#1 ++ code := fun code => by
    rw [command, hready.csnDecode]
    rfl
  have hflight : m.flight = if m.f_pop then [] else [m.active] := by simp only [flight, hs]
  have hissue : m.issue fEmpty f
      = if m.fSelect fEmpty f then [f] else if m.f_pop then [] else [m.active] := by
    simp only [issue, hs]
  have hdqm : (m.selected fEmpty f).dqm = 0 := hun (hrnw'.trans hrnw)
  have hbounds : ∀ b c, (after e (.read b c)).Within 0 2 3 := fun b c => hw.read b c
  obtain ⟨hcs, hack, hopen, hun'⟩ := hready
  cases hpend : m.pending fEmpty f with
  | true =>
      obtain ⟨hone, hbooks⟩ := books_of_selected hhead (fSelect_of_pending hpend)
      obtain ⟨hopenf, hunf, hrnwf⟩ := Ready.of_fits ⟨hcs, hack, hopen, hun'⟩ hhead hmask hpend
      cases hrr : rr with
      | true =>
          have hnext : m.next true true fEmpty f i = { m with
              m_state := .spin, m_next := .idle, m_count := 2, m_cmd := m.command fEmpty f 5,
              m_bank := (m.selected fEmpty f).bank, m_dqm := (m.selected fEmpty f).dqm,
              m_addr := 0#3 ++ (m.selected fEmpty f).col, f_pop := false, oe := false } := by
            simp only [next, hs, hpend, if_true]
          rw [hnext]
          refine .of_read hrow rfl rfl (hissue.trans hone) (by rw [hflight, hbooks]; rfl)
            (hcmd 5) (hrnw'.trans hrnw) hdqm rfl hw fun new => ?_
          exact ⟨rfl, (hbounds _ _).mono (Nat.zero_le _) (by decide) (Nat.le_refl 3),
            (hbounds _ _).recovery, Or.inl ⟨hkeep hack hrr, hack⟩⟩
      | false =>
          have hnext : m.next true false fEmpty f i = { m with
              m_state := .read, m_cmd := m.command fEmpty f 5,
              m_bank := (m.selected fEmpty f).bank, m_dqm := (m.selected fEmpty f).dqm,
              m_addr := 0#3 ++ (m.selected fEmpty f).col, f_pop := true, oe := false,
              active_cs_n := false, active := f } := by
            simp [next, hs, hpend, take]
          rw [hnext]
          refine .of_read hrow rfl rfl (hissue.trans hone) (by rw [hflight, hbooks]; rfl)
            (hcmd 5) (hrnw'.trans hrnw) hdqm rfl hw fun new => ?_
          exact ⟨⟨rfl, hack, hopenf, hunf⟩, hrnwf.trans hrnw,
            (hbounds _ _).mono (Nat.le_refl 0) (Nat.le_succ 2) (Nat.le_refl 3)⟩
  | false =>
      have hsel := fSelect_of_not_pending hpend
      cases hpop : m.f_pop with
      | true =>
          have hnext : m.next true rr fEmpty f i = { m with
              m_state := .hold, m_cmd := m.command fEmpty f 7,
              m_bank := (m.selected fEmpty f).bank, m_dqm := (m.selected fEmpty f).dqm,
              m_addr := 0#3 ++ (m.selected fEmpty f).col, f_pop := false, oe := false } := by
            simp [next, hs, hpend, hpop]
          rw [hnext]
          have hcmd7 : m.command fEmpty f 7 = 0b0111 := hcmd 7
          refine .of_row_command (c := .nop) 0b0111 hcmd7 rfl (by decide) rfl trivial
            (fun h => absurd hdqm h) rfl (by rw [hissue, hsel, hpop]; rfl) ?_ fun new => ?_
          · rw [hflight, hpop, hsel]
            rfl
          · have hidle : (after e .nop).Within 0 2 2 := hw.nop
            exact ⟨rfl, ⟨hcs, hack, hopen, hun'⟩,
              hidle.mono (Nat.le_refl 0) (Nat.le_refl 2) (Nat.le_succ 2),
              fun h => absurd (hrnw.symm.trans h) (by decide)⟩
      | false =>
          have hnext : m.next true rr fEmpty f i = { m with
              m_state := .hold, m_cmd := m.command fEmpty f 5,
              m_bank := (m.selected fEmpty f).bank, m_dqm := (m.selected fEmpty f).dqm,
              m_addr := 0#3 ++ (m.selected fEmpty f).col, f_pop := false, oe := false } := by
            simp [next, hs, hpend, hpop]
          rw [hnext]
          obtain ⟨hone, hbooks⟩ := books_of_selected hhead (Or.inr hpop)
          refine .of_read hrow rfl rfl (hissue.trans hone) (by rw [hflight, hbooks]; rfl)
            (hcmd 5) (hrnw'.trans hrnw) hdqm rfl hw fun new => ?_
          exact ⟨rfl, ⟨hcs, hack, hopen, hun'⟩,
            hbounds _ _,
            fun h => absurd (hrnw.symm.trans h) (by decide)⟩

omit hen in
theorem advances_write (hs : m.m_state = .write) (hhead : Head l fEmpty f)
    (hmask : ∀ t ∈ l, t.Unmasked)
    (hkeep : m.ack_refresh_request = false → rr = true → rr' = true) :
    Advances m (m.next true rr fEmpty f i) rr' fEmpty f l e zs_dq := by
  simp only [Holds, hs] at hh
  obtain ⟨hready, hrnw, hw⟩ := hh
  obtain ⟨hrow, hrnw', -⟩ := hready.selected hhead hmask
  have hcmd : ∀ code, m.command fEmpty f code = 0#1 ++ code := fun code => by
    rw [command, hready.csnDecode]
    rfl
  have hflight : m.flight = if m.f_pop then [] else [m.active] := by simp only [flight, hs]
  have hissue : m.issue fEmpty f
      = if m.fSelect fEmpty f then [f] else if m.f_pop then [] else [m.active] := by
    simp only [issue, hs]
  have hbounds : ∀ upd, (after e (.write (m.selected fEmpty f).bank
      (m.selected fEmpty f).col upd)).Within 0 2 0 := fun upd => hw.write _ _ upd
  obtain ⟨hcs, hack, hopen, hun'⟩ := hready
  cases hpend : m.pending fEmpty f with
  | true =>
      obtain ⟨hone, hbooks⟩ := books_of_selected hhead (fSelect_of_pending hpend)
      obtain ⟨hopenf, hunf, hrnwf⟩ := Ready.of_fits ⟨hcs, hack, hopen, hun'⟩ hhead hmask hpend
      cases hrr : rr with
      | true =>
          have hnext : m.next true true fEmpty f i = { m with
              m_state := .spin, m_next := .idle, m_count := 1, m_cmd := m.command fEmpty f 4,
              m_data := (m.selected fEmpty f).data, m_bank := (m.selected fEmpty f).bank,
              m_dqm := (m.selected fEmpty f).dqm, m_addr := 0#3 ++ (m.selected fEmpty f).col,
              f_pop := false, oe := true } := by
            simp only [next, hs, hpend, if_true]
          rw [hnext]
          refine .of_write hrow rfl rfl (hissue.trans hone) (by rw [hflight, hbooks]; rfl)
            (hcmd 4) (hrnw'.trans hrnw) rfl rfl rfl hw fun new upd => ?_
          exact ⟨rfl, (hbounds upd).mono (Nat.zero_le _) (by decide) (Nat.zero_le _),
            (hbounds upd).recovery, Or.inl ⟨hkeep hack hrr, hack⟩⟩
      | false =>
          have hnext : m.next true false fEmpty f i = { m with
              m_state := .write, m_cmd := m.command fEmpty f 4,
              m_data := (m.selected fEmpty f).data, m_bank := (m.selected fEmpty f).bank,
              m_dqm := (m.selected fEmpty f).dqm, m_addr := 0#3 ++ (m.selected fEmpty f).col,
              f_pop := true, oe := true, active_cs_n := false, active := f } := by
            simp [next, hs, hpend, take]
          rw [hnext]
          refine .of_write hrow rfl rfl (hissue.trans hone) (by rw [hflight, hbooks]; rfl)
            (hcmd 4) (hrnw'.trans hrnw) rfl rfl rfl hw fun new upd => ?_
          exact ⟨⟨rfl, hack, hopenf, hunf⟩, hrnwf.trans hrnw,
            (hbounds upd).mono (Nat.le_refl 0) (Nat.le_succ 2) (Nat.le_refl 0)⟩
  | false =>
      have hsel := fSelect_of_not_pending hpend
      cases hpop : m.f_pop with
      | true =>
          have hnext : m.next true rr fEmpty f i = { m with
              m_state := .hold, m_cmd := m.command fEmpty f 7,
              m_data := (m.selected fEmpty f).data, m_bank := (m.selected fEmpty f).bank,
              m_dqm := (m.selected fEmpty f).dqm, m_addr := 0#3 ++ (m.selected fEmpty f).col,
              f_pop := false, oe := false } := by
            simp [next, hs, hpend, hpop]
          rw [hnext]
          have hcmd7 : m.command fEmpty f 7 = 0b0111 := hcmd 7
          refine .of_row_command (c := .nop) 0b0111 hcmd7 rfl (by decide) rfl trivial
            (fun _ => hw.q1 (by decide)) rfl (by rw [hissue, hsel, hpop]; rfl) ?_ fun new => ?_
          · rw [hflight, hpop, hsel]
            rfl
          · have hidle : (after e .nop).Within 0 2 0 := hw.nop
            exact ⟨rfl, ⟨hcs, hack, hopen, hun'⟩,
              hidle.mono (Nat.le_refl 0) (Nat.le_refl 2) (Nat.zero_le 3),
              fun _ => Nat.le_zero.mp hidle.reads⟩
      | false =>
          have hnext : m.next true rr fEmpty f i = { m with
              m_state := .hold, m_cmd := m.command fEmpty f 4,
              m_data := (m.selected fEmpty f).data, m_bank := (m.selected fEmpty f).bank,
              m_dqm := (m.selected fEmpty f).dqm, m_addr := 0#3 ++ (m.selected fEmpty f).col,
              f_pop := false, oe := true } := by
            simp [next, hs, hpend, hpop]
          rw [hnext]
          obtain ⟨hone, hbooks⟩ := books_of_selected hhead (Or.inr hpop)
          refine .of_write hrow rfl rfl (hissue.trans hone) (by rw [hflight, hbooks]; rfl)
            (hcmd 4) (hrnw'.trans hrnw) rfl rfl rfl hw fun new upd => ?_
          exact ⟨rfl, ⟨hcs, hack, hopen, hun'⟩,
            (hbounds upd).mono (Nat.le_refl 0) (Nat.le_refl 2) (Nat.zero_le 3),
            fun _ => Nat.le_zero.mp (hbounds upd).reads⟩

/-- **Every cycle keeps the protocol.** -/
theorem advances (hhead : Head l fEmpty f) (hmask : ∀ t ∈ l, t.Unmasked)
    (hprog : e.programmed = true)
    (hkeep : m.ack_refresh_request = false → rr = true → rr' = true)
    (hack' : m.ack_refresh_request = true → rr' = false) :
    Advances m (m.next true rr fEmpty f i) rr' fEmpty f l e zs_dq := by
  cases hs : m.m_state with
  | idle => exact advances_idle hen zs_dq hh hs hhead hkeep
  | activate => exact advances_activate zs_dq hh hs hhead hmask hprog
  | spin => exact advances_spin hen zs_dq hh hs hkeep hack'
  | read => exact advances_read zs_dq hh hs hhead hmask hkeep
  | write => exact advances_write zs_dq hh hs hhead hmask hkeep
  | close => exact advances_close hen zs_dq hh hs
  | precharge => exact advances_precharge hen zs_dq hh hs hkeep
  | refresh => exact advances_refresh hen zs_dq hh hs
  | hold => exact advances_hold hen zs_dq hh hs hhead hmask hkeep

end States

end Advances

end MainFsm

end SdramController

end Ece385
