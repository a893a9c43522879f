import Ece385.Lab7.SdramProtocol

/-!
# Runs of the SDRAM controller

Both state machines and the FIFO together, from a reset on, whatever the bus asks for
and whatever the data pins show in whatever cycle. `InitFsm.Holds` looks one command
further than `MainFsm.Holds`, because the main state machine passes the commands of the
other one on with a cycle's delay. `Inv` puts the two together and is kept by every
cycle (`Inv.next`), so every command on the pins is legal and is an access of the open
row for the request that was issued (`protocol`), and no request is lost, doubled or
overtaken on its way from the bus to the pins (`history_books`).
-/

namespace Ece385

namespace SdramController

open Sdr (Command Monitor Timing Request)
open Clocked (history history_conserved)

/-! ## Initialization -/

namespace InitFsm

/-- What is waited for in `spin`. -/
def Waits (i : InitFsm) (e : SdramMonitor) : Prop :=
  match i.i_next with
  | .refresh => i.i_refs.toNat ≤ e.refreshes
  | .mode => 2 ≤ e.refreshes
  | .done => e.programmed = true
  | _ => False

/-- What a state knows about the chip behind the command it gave last, `counter` being
the refresh counter: in `start` the power-up delay is over when the counter is, later all
rows are closed and the set-up is as far as the state says. -/
def Holds (counter : BitVec 14) (i : InitFsm) (e : SdramMonitor) : Prop :=
  match i.i_state with
  | .start => e.Within counter.toNat 0 0
  | .precharge => e.Within 0 0 0 ∧ i.i_refs = 0
  | .spin => Closed e ∧ e.Within (max 1 i.i_count.toNat) 0 0 ∧ i.Waits e
  | .refresh => Closed e ∧ e.Within 0 0 0 ∧ i.i_refs.toNat ≤ e.refreshes
  | .mode => Closed e ∧ e.Within 0 0 0 ∧ 2 ≤ e.refreshes
  | .done => Closed e ∧ e.Within 0 0 0 ∧ e.programmed = true ∧ i.i_cmd = 0b0111

/-- The command it gave last may be passed on to the chip. -/
structure Boots (counter : BitVec 14) (i : InitFsm) (e : SdramMonitor) : Prop where
  legal : ∀ ba upd, e.Legal (decode i.i_cmd ba i.i_addr upd)
  row : ∀ ba upd, (decode i.i_cmd ba i.i_addr upd).isAccess = false
  code : i.i_cmd.extractLsb' 0 3 ≠ 5#3
  holds : ∀ ba upd, i.Holds counter (after e (decode i.i_cmd ba i.i_addr upd))

section Boots

variable {i : InitFsm} {e : SdramMonitor} {counter counter' : BitVec 14}

theorem Boots.of_command {c : SdramCommand} (k : BitVec 4) (hk : i.i_cmd = k)
    (hc : ∀ ba upd, decode k ba i.i_addr upd = c) (hcode : k.extractLsb' 0 3 ≠ 5#3)
    (hrow : c.isAccess = false) (hlegal : e.Legal c) (hholds : i.Holds counter (after e c)) :
    i.Boots counter e where
  legal := fun ba upd => by rwa [hk, hc]
  row := fun ba upd => by rw [hk, hc, hrow]
  code := by rwa [hk]
  holds := fun ba upd => by
    rw [hk, hc]
    exact hholds

theorem boots_start (hs : i.i_state = .start) (h : i.Holds counter e)
    (hcounter' : counter ≠ 0 → counter'.toNat = counter.toNat - 1) :
    (i.next counter).Boots counter' e := by
  simp only [Holds, hs] at h
  by_cases hcounter : counter = 0
  · have hnext : i.next counter = { i with
        i_addr := BitVec.allOnes 13, i_cmd := 0b1111, i_refs := 0, i_state := .precharge } := by
      simp only [next, hs, if_pos hcounter]
    rw [hcounter] at h
    rw [hnext]
    exact .of_command (c := .nop) 0b1111 rfl (fun _ _ => rfl) (by decide) rfl trivial
      ⟨h.nop, rfl⟩
  · have hnext : i.next counter = { i with
        i_addr := BitVec.allOnes 13, i_cmd := 0b1111, i_refs := 0, i_state := .start } := by
      simp only [next, hs, if_neg hcounter]
    have hbounds : (after e .nop).Within counter'.toNat 0 0 := by
      rw [hcounter' hcounter]
      exact h.nop
    rw [hnext]
    exact .of_command (c := .nop) 0b1111 rfl (fun _ _ => rfl) (by decide) rfl trivial hbounds

theorem boots_precharge (hs : i.i_state = .precharge) (h : i.Holds counter e) :
    (i.next counter).Boots counter' e := by
  simp only [Holds, hs] at h
  have hnext : i.next counter = { i with
      i_addr := BitVec.allOnes 13, i_state := .spin, i_cmd := 0b0010, i_count := 0,
      i_next := .refresh } := by
    simp only [next, hs]
  rw [hnext]
  refine .of_command 0b0010 rfl (fun _ _ => MainFsm.decode_precharge _ _) (by decide) rfl
    ⟨Nat.le_zero.mp h.1.busy, Nat.le_zero.mp h.1.recovery⟩ ⟨fun _ => rfl, h.1.precharge, ?_⟩
  show i.i_refs.toNat ≤ _
  rw [h.2]
  exact Nat.zero_le _

theorem boots_refresh (hs : i.i_state = .refresh) (h : i.Holds counter e) :
    (i.next counter).Boots counter' e := by
  simp only [Holds, hs] at h
  obtain ⟨hclosed, hw, hrefs⟩ := h
  have hbounds : (after e .refresh).Within 3 0 0 := hw.refresh
  by_cases hone : i.i_refs = 1
  · have hnext : i.next counter = { i with
        i_addr := BitVec.allOnes 13, i_cmd := 0b0001, i_refs := i.i_refs + 1, i_state := .spin,
        i_count := 3, i_next := .mode } := by
      simp only [next, hs, if_pos hone]
    rw [hnext]
    refine .of_command (c := .refresh) 0b0001 rfl (fun _ _ => rfl) (by decide) rfl
      ⟨Nat.le_zero.mp hw.busy, hclosed⟩ ⟨hclosed, hbounds, ?_⟩
    rw [hone] at hrefs
    exact Nat.succ_le_succ hrefs
  · have hnext : i.next counter = { i with
        i_addr := BitVec.allOnes 13, i_cmd := 0b0001, i_refs := i.i_refs + 1, i_state := .spin,
        i_count := 3, i_next := .refresh } := by
      simp only [next, hs, if_neg hone]
    rw [hnext]
    refine .of_command (c := .refresh) 0b0001 rfl (fun _ _ => rfl) (by decide) rfl
      ⟨Nat.le_zero.mp hw.busy, hclosed⟩ ⟨hclosed, hbounds, ?_⟩
    show (i.i_refs + 1).toNat ≤ e.refreshes + 1
    rw [BitVec.toNat_add]
    exact (Nat.mod_le _ _).trans (Nat.succ_le_succ hrefs)

theorem boots_spin (hs : i.i_state = .spin) (h : i.Holds counter e) :
    (i.next counter).Boots counter' e := by
  simp only [Holds, hs] at h
  obtain ⟨hclosed, hw, hwaits⟩ := h
  have hbounds : (after e .nop).Within (max 1 i.i_count.toNat - 1) 0 0 := hw.nop
  by_cases hlt : 1 < i.i_count
  · have hnext : i.next counter = { i with
        i_addr := BitVec.allOnes 13, i_cmd := 0b0111, i_state := .spin,
        i_count := i.i_count - 1 } := by
      simp only [next, hs, if_pos hlt]
    have hlt' : 1 < i.i_count.toNat := hlt
    have hcount : (i.i_count - 1).toNat = i.i_count.toNat - 1 :=
      BitVec.toNat_sub_of_le (Nat.le_of_lt hlt')
    rw [hnext]
    refine .of_command (c := .nop) 0b0111 rfl (fun _ _ => rfl) (by decide) rfl trivial
      ⟨hclosed, hbounds.mono ?_ (Nat.le_refl 0) (Nat.le_refl 0), hwaits⟩
    show _ ≤ max 1 (i.i_count - 1).toNat
    omega
  · have hnext : i.next counter = { i with
        i_addr := BitVec.allOnes 13, i_cmd := 0b0111, i_state := i.i_next } := by
      simp only [next, hs, if_neg hlt]
    have hle : i.i_count.toNat ≤ 1 := Nat.le_of_not_lt hlt
    rw [hnext]
    refine .of_command (c := .nop) 0b0111 rfl (fun _ _ => rfl) (by decide) rfl trivial ?_
    have hbounds' : (after e .nop).Within 0 0 0 :=
      hbounds.mono (by omega) (Nat.le_refl 0) (Nat.le_refl 0)
    unfold Waits at hwaits
    cases hq : i.i_next <;> rw [hq] at hwaits
    case refresh => exact ⟨hclosed, hbounds', hwaits⟩
    case mode => exact ⟨hclosed, hbounds', hwaits⟩
    case done => exact ⟨hclosed, hbounds', hwaits, rfl⟩
    all_goals exact hwaits.elim

theorem boots_done (hs : i.i_state = .done) (h : i.Holds counter e) :
    (i.next counter).Boots counter' e := by
  simp only [Holds, hs] at h
  obtain ⟨hclosed, hw, hprog, hcmd⟩ := h
  have hnext : i.next counter = { i with i_addr := BitVec.allOnes 13, i_state := .done } := by
    simp only [next, hs]
  rw [hnext]
  exact .of_command (c := .nop) 0b0111 hcmd (fun _ _ => rfl) (by decide) rfl trivial
    ⟨hclosed, hw.nop, hprog, hcmd⟩

theorem boots_mode (hs : i.i_state = .mode) (h : i.Holds counter e) :
    (i.next counter).Boots counter' e := by
  simp only [Holds, hs] at h
  obtain ⟨hclosed, hw, hrefs⟩ := h
  have hnext : i.next counter = { i with
      i_addr := 0#3 ++ 0#1 ++ 0b00#2 ++ 3#3 ++ 0#4, i_state := .spin, i_cmd := 0b0000,
      i_count := 4, i_next := .done } := by
    simp only [next, hs]
  have hdecode : ∀ ba upd, decode 0b0000 ba (0#3 ++ 0#1 ++ 0b00#2 ++ 3#3 ++ 0#4) upd = .mode :=
    fun ba upd => by
      show (if 0#3 ++ 0#1 ++ 0b00#2 ++ 3#3 ++ 0#4 = 0x30#13 then Command.mode
        else Command.other) = _
      exact if_pos (by decide)
  rw [hnext]
  exact .of_command 0b0000 rfl hdecode (by decide) rfl
    ⟨Nat.le_zero.mp hw.busy, hclosed, hrefs⟩
    ⟨hclosed, hw.mode.mono (by decide : 2 ≤ 4) (Nat.le_refl 0) (Nat.le_refl 0), rfl⟩

/-- The commands of the set-up come when the chip may get them. -/
theorem boots_next (h : i.Holds counter e)
    (hcounter' : counter ≠ 0 → counter'.toNat = counter.toNat - 1) :
    (i.next counter).Boots counter' e := by
  cases hs : i.i_state with
  | start => exact boots_start hs h hcounter'
  | precharge => exact boots_precharge hs h
  | refresh => exact boots_refresh hs h
  | spin => exact boots_spin hs h
  | mode => exact boots_mode hs h
  | done => exact boots_done hs h

end Boots

end InitFsm

/-! ## One cycle -/

/-- What holds of the controller and the chip behind the command on the pins. While the
chip is being set up, the main state machine only passes commands on; afterwards its state
is right about the chip, and the chip has been set up. -/
structure Inv (s : SdramController) (e : SdramMonitor) : Prop where
  fifo : s.fifo.Wf
  unmasked : ∀ t ∈ s.fifo.contents, t.Unmasked
  enabled : s.main.Enabled e
  booting : s.init_done = false → s.main.m_state = .idle ∧ s.main.f_pop = false
    ∧ s.main.ack_refresh_request = false ∧ s.refresh_request = false
    ∧ s.init.Boots s.refresh_counter e
  running : s.init_done = true →
    e.programmed = true ∧ s.main.Holds s.refresh_request s.fifo.contents e

section Step

variable {s : SdramController} {e : SdramMonitor} {i : Inputs} {z : BitVec 32}

theorem head_fifo : Head s.fifo.contents s.fEmpty s.f := by
  cases h : s.fEmpty with
  | true => exact Or.inl ⟨rfl, s.fifo.contents_nil h⟩
  | false => exact Or.inr ⟨rfl, s.fifo.contents_cons h⟩

theorem next_eq (hi : i.reset_n = true) : s.next i z =
    { fifo := s.fifo.next s.fSelect (s.wr i) (wrData i)
      refresh_counter := if s.refresh_counter = 0 then 390 else s.refresh_counter - 1
      refresh_request := (s.refresh_counter = 0 || s.refresh_request)
        && !s.main.ack_refresh_request && s.init_done
      za_cannotrefresh := s.refresh_counter = 0 && s.refresh_request
      init_done := s.init_done || s.init.i_state = .done
      init := s.init.next s.refresh_counter
      main := s.main.next s.init_done s.refresh_request s.fEmpty s.f s.init
      rd_valid := s.rd_valid <<< 1 ||| (0#2 ++ BitVec.ofBool s.rdStrobe)
      za_data := z
      za_valid := s.rd_valid.getLsbD 2 } := by
  rw [next, hi]
  rfl

theorem counter_next (hi : i.reset_n = true) (hpos : 0 < s.refresh_counter.toNat) :
    (s.next i z).refresh_counter.toNat = s.refresh_counter.toNat - 1 := by
  have hne : s.refresh_counter ≠ 0 := fun h => by
    rw [h] at hpos
    exact absurd hpos (by decide)
  rw [next_eq hi]
  simp only [if_neg hne]
  exact BitVec.toNat_sub_of_le hpos

/-- The requests accepted in a cycle. -/
def accepted (s : SdramController) (i : Inputs) : List Transaction :=
  if s.wr i then [wrData i] else []

/-- Issued in a cycle. -/
def issued (s : SdramController) : List Transaction := s.main.issue s.fEmpty s.f

/-- Accepted and not yet issued. -/
def waiting (s : SdramController) : List Transaction := s.main.flight ++ s.fifo.contents

theorem fifo_next (h : s.fifo.Wf) (hi : i.reset_n = true) :
    (s.next i z).fifo.Wf ∧ (s.next i z).fifo.contents
      = s.fifo.contents.drop s.fSelect.toNat ++ s.accepted i := by
  rw [next_eq hi]
  refine Efifo.next_contents h (fun hsel => ?_) fun hwr => ?_
  · rw [fSelect, MainFsm.fSelect, MainFsm.pending, Bool.and_eq_true, Bool.and_eq_true] at hsel
    exact (Bool.not_eq_true' _).mp hsel.2.2
  · rw [wr, Bool.and_eq_true] at hwr
    exact (Bool.not_eq_true' _).mp hwr.2

theorem unmasked_next (hfifo : s.fifo.Wf) (hmask : ∀ t ∈ s.fifo.contents, t.Unmasked)
    (hi : i.reset_n = true) : ∀ t ∈ (s.next i z).fifo.contents, t.Unmasked := by
  intro t ht
  rw [(fifo_next hfifo hi).2, List.mem_append] at ht
  rcases ht with ht | ht
  · exact hmask t (List.mem_of_mem_drop ht)
  · unfold accepted at ht
    split at ht
    · obtain rfl := List.mem_singleton.mp ht
      exact fun hrnw => if_pos hrnw
    · exact absurd ht List.not_mem_nil

theorem Inv.next_booting (h : Inv s e) (hi : i.reset_n = true) (hdone : s.init_done = false)
    (z' : BitVec 32) :
    MainFsm.Keeps s.main (s.next i z).main s.fEmpty s.f s.fifo.contents e z'
      ∧ Inv (s.next i z) (after e ((s.next i z).main.given z')) := by
  obtain ⟨hfifo, hmask, hen, hboot, -⟩ := h
  obtain ⟨hidle, hpop, hack, -, hboots⟩ := hboot hdone
  have hmain : (s.next i z).main = { s.main with
      m_addr := s.init.i_addr, m_state := .idle, m_next := .idle, m_cmd := s.init.i_cmd,
      f_pop := false, oe := false } := by
    rw [next_eq hi]
    simp [MainFsm.next, hidle, hdone]
  have hkeeps : MainFsm.Keeps s.main (s.next i z).main s.fEmpty s.f s.fifo.contents e z' := by
    rw [hmain]
    refine .of_row_command rfl rfl hboots.code (hboots.row _ _) (hboots.legal _ _)
      (hen.off rfl) rfl ?_ ?_
    · simp only [MainFsm.issue, hidle]
    · have hsel : s.main.fSelect s.fEmpty s.f = false := by
        rw [MainFsm.fSelect, hpop, Bool.false_and]
      rw [hsel]
      simp only [MainFsm.flight, hidle]
      rfl
  have hgiven : (s.next i z).main.given z' = decode s.init.i_cmd s.main.m_bank
      s.init.i_addr (mergeBytes s.main.m_dqm z') := by
    rw [hmain]
    rfl
  have hholds := hboots.holds s.main.m_bank (mergeBytes s.main.m_dqm z')
  have hrr : (s.next i z).refresh_request = false := by
    rw [next_eq hi]
    simp [hdone]
  refine ⟨hkeeps, (fifo_next hfifo hi).1, unmasked_next hfifo hmask hi, hkeeps.enabled,
    fun _ => ?_, fun hdone' => ?_⟩
  · rw [hgiven]
    refine ⟨by rw [hmain], by rw [hmain], by rw [hmain]; exact hack, hrr, ?_⟩
    have hinit : (s.next i z).init = s.init.next s.refresh_counter := by rw [next_eq hi]
    rw [hinit]
    exact InitFsm.boots_next hholds fun hne => counter_next hi
      (Nat.pos_of_ne_zero fun hzero => hne (BitVec.eq_of_toNat_eq hzero))
  · -- The set-up is over, so the main state machine starts with all rows closed.
    have hstate : s.init.i_state = .done := by
      rw [next_eq hi] at hdone'
      simpa [hdone] using hdone'
    rw [← hgiven] at hholds
    simp only [InitFsm.Holds, hstate] at hholds
    obtain ⟨hclosed, hw, hprog, -⟩ := hholds
    refine ⟨hprog, ?_⟩
    rw [hrr]
    simp only [MainFsm.Holds, hmain]
    rw [hmain] at hw hclosed
    exact ⟨trivial, hw.mono (Nat.le_refl 0) (Nat.zero_le 1) (Nat.zero_le 1),
      Or.inr ⟨trivial, hclosed⟩⟩

theorem Inv.next_running (h : Inv s e) (hi : i.reset_n = true) (hdone : s.init_done = true)
    (z' : BitVec 32) :
    MainFsm.Keeps s.main (s.next i z).main s.fEmpty s.f s.fifo.contents e z'
      ∧ Inv (s.next i z) (after e ((s.next i z).main.given z')) := by
  obtain ⟨hfifo, hmask, hen, -, hrun⟩ := h
  obtain ⟨hprog, hholds⟩ := hrun hdone
  obtain ⟨hfifo', hcontents⟩ := fifo_next (z := z) hfifo hi
  have hmain : (s.next i z).main = s.main.next true s.refresh_request s.fEmpty s.f s.init := by
    rw [next_eq hi, hdone]
  have hrr : (s.next i z).refresh_request
      = ((s.refresh_counter = 0 || s.refresh_request) && !s.main.ack_refresh_request) := by
    rw [next_eq hi, hdone, Bool.and_true]
  have hadv : MainFsm.Advances s.main (s.next i z).main (s.next i z).refresh_request
      s.fEmpty s.f s.fifo.contents e z' := by
    rw [hmain]
    exact MainFsm.advances hen z' hholds s.head_fifo hmask hprog
      (fun hack hreq => by rw [hrr, hack, hreq]; simp) (fun hack => by rw [hrr, hack]; simp)
  refine ⟨hadv.toKeeps, hfifo', unmasked_next hfifo hmask hi, hadv.enabled, fun hdone' => ?_,
    fun _ => ⟨Monitor.exec_programmed hprog _ _, ?_⟩⟩
  · rw [next_eq hi, hdone] at hdone'
    exact absurd hdone' (by simp)
  · rw [hcontents]
    exact hadv.holds _

theorem Inv.next (h : Inv s e) (hi : i.reset_n = true) (z' : BitVec 32) :
    MainFsm.Keeps s.main (s.next i z).main s.fEmpty s.f s.fifo.contents e z'
      ∧ Inv (s.next i z) (after e ((s.next i z).main.given z')) := by
  cases hdone : s.init_done with
  | false => exact h.next_booting hi hdone z'
  | true => exact h.next_running hi hdone z'

/-- Nothing is lost between the bus and the pins. -/
theorem Inv.books (h : Inv s e) (hi : i.reset_n = true) :
    s.waiting ++ s.accepted i = s.issued ++ (s.next i z).waiting := by
  obtain ⟨hkeeps, -⟩ := h.next (z := z) hi 0
  obtain ⟨-, hcontents⟩ := fifo_next (z := z) h.fifo hi
  rw [waiting, waiting, hcontents, hkeeps.books, issued]
  simp only [List.append_assoc]
  rfl

end Step

/-! ## Runs -/

/-- The command of cycle `n`. -/
def commands (s : SdramController) (cs : ℕ → Cycle) (n : ℕ) : SdramCommand :=
  ((s.run cs n).pins (cs n).x).command

/-- The requests whose commands are on the pins: those issued a cycle ago. -/
def requests (s : SdramController) (cs : ℕ → Cycle) : ℕ → List (Request (BitVec 25) (BitVec 32))
  | 0 => []
  | n + 1 => (s.run cs n).issued.map Transaction.request

/-- After power-up. -/
def powerUp : SdramMonitor where
  row := fun _ => none
  busy := 10000
  recovery := 0
  refreshes := 0
  programmed := false
  q1 := false
  q2 := false
  q3 := false

theorem powerUp_within : powerUp.Within 10000 0 0 :=
  ⟨Nat.le_refl _, Nat.le_refl _, Nat.le_refl _⟩

/-- Registers that are all zero. -/
def ctrl₀ : SdramController where
  fifo := ⟨0, false, false, ⟨false, 0, 0, 0⟩, ⟨false, 0, 0, 0⟩⟩
  refresh_counter := 0
  refresh_request := false
  za_cannotrefresh := false
  init_done := false
  init := ⟨.start, .start, 0, 0, 0, 0⟩
  main := ⟨.idle, .idle, 0, 0, 0, 0, 0, 0, false, false, false, false, ⟨false, 0, 0, 0⟩⟩
  rd_valid := 0
  za_data := 0
  za_valid := false

/-- The bus writes the words `0`, `1`, .. and reads each of them back. -/
def writeRead (n : ℕ) : Cycle where
  reset_n := true
  az_addr := BitVec.ofNat 25 (n / 2)
  az_be_n := 0
  az_data := BitVec.ofNat 32 (n / 2)
  az_rd_n := n % 2 = 0
  az_wr_n := n % 2 = 1
  x := 0

theorem writeRead_reset_n (n : ℕ) : (writeRead n).reset_n = true := rfl

section Run

variable {s : SdramController} {d : SdramMonitor} {cs : ℕ → Cycle}

theorem run_succ (n : ℕ) :
    s.run cs (n + 1) = (s.run cs n).next (cs n).toInputs ((s.run cs n).zsDq (cs n).x) := rfl

theorem history_requests (n : ℕ) : history (s.requests cs) (n + 1)
    = (history (fun k => (s.run cs k).issued) n).map Transaction.request := by
  induction n with
  | zero => rfl
  | succ n ih =>
      rw [Clocked.history_succ, ih, Clocked.history_succ, List.map_append]
      rfl

variable (hd : d.Within 10000 0 0) (hcs : ∀ n, (cs n).reset_n = true)
include hd hcs

/-- The invariant of a run. -/
theorem inv_run (n : ℕ) : Inv (s.run cs n) (d.run timing (s.commands cs) (n + 1)) := by
  induction n with
  | zero =>
      have hbounds : (after d .nop).Within 9999 0 0 := hd.nop
      refine ⟨Or.inl ⟨rfl, rfl⟩, fun t ht => absurd ht List.not_mem_nil, fun _ => rfl, fun _ => ?_,
        fun h => absurd (show false = true from h) (by decide)⟩
      refine ⟨rfl, rfl, rfl, rfl, ?_⟩
      refine .of_command (c := .nop) 0b1111 rfl (fun _ _ => rfl) (by decide) rfl trivial ?_
      exact hbounds.nop.mono (by decide : 9998 ≤ 10000) (Nat.le_refl 0) (Nat.le_refl 0)
  | succ n ih => exact (ih.next (hcs n) ((s.run cs (n + 1)).zsDq (cs (n + 1)).x)).2

theorem keeps_run (n : ℕ) :
    MainFsm.Keeps (s.run cs n).main (s.run cs (n + 1)).main (s.run cs n).fEmpty (s.run cs n).f
      (s.run cs n).fifo.contents (d.run timing (s.commands cs) (n + 1))
      ((s.run cs (n + 1)).zsDq (cs (n + 1)).x) :=
  ((inv_run hd hcs n).next (hcs n) _).1

theorem legal_run (n : ℕ) : (d.run timing (s.commands cs) n).Legal (s.commands cs n) := by
  cases n with
  | zero => exact trivial
  | succ n => exact (keeps_run hd hcs n).legal

theorem means_run (n : ℕ) :
    (d.run timing (s.commands cs) n).Means loc (s.commands cs n) (s.requests cs n) := by
  cases n with
  | zero => rfl
  | succ n => exact (keeps_run hd hcs n).means fun hoe => if_pos hoe

theorem enabled_run (n : ℕ) (h : ((s.run cs n).pins (cs n).x).masked = true) :
    (d.run timing (s.commands cs) n).q1 = false := by
  cases n with
  | zero => exact absurd (show decide ((0 : BitVec 4) ≠ 0) = true from h) (by decide)
  | succ n => exact (keeps_run hd hcs n).off (of_decide_eq_true h)

/-- **The protocol is kept**, by the waits of any chip that asks for no more than `timing`:
every command is legal, the output is enabled behind a read, and every access is that of
the request issued before, in the row of its address. -/
theorem protocol {T : Timing} (hT : T.Le timing) (n : ℕ) :
    (d.run T (s.commands cs) n).Legal (s.commands cs n)
      ∧ (((s.run cs n).pins (cs n).x).masked = true → (d.run T (s.commands cs) n).q1 = false)
      ∧ (d.run T (s.commands cs) n).Means loc (s.commands cs n) (s.requests cs n) := by
  have hle := Monitor.Le.run hT d (s.commands cs) n
  refine ⟨hle.legal (legal_run hd hcs n), fun h => ?_, hle.means (means_run hd hcs n)⟩
  rw [hle.rest]
  exact enabled_run hd hcs n h

omit hd hcs in
theorem protocol_writeRead :
    powerUp.Within 10000 0 0 ∧ (∀ n, (writeRead n).reset_n = true) ∧ (asked 2).Le timing
      ∧ ∀ n, (powerUp.run (asked 2) (ctrl₀.commands writeRead) n).Legal
          (ctrl₀.commands writeRead n)
        ∧ (((ctrl₀.run writeRead n).pins (writeRead n).x).masked = true →
          (powerUp.run (asked 2) (ctrl₀.commands writeRead) n).q1 = false)
        ∧ (powerUp.run (asked 2) (ctrl₀.commands writeRead) n).Means loc
          (ctrl₀.commands writeRead n) (ctrl₀.requests writeRead n) :=
  ⟨powerUp_within, writeRead_reset_n, asked_le (by decide),
    protocol powerUp_within writeRead_reset_n (asked_le (by decide))⟩

/-- No request is lost, doubled or overtaken on its way to the pins. -/
theorem history_books (n : ℕ) :
    history (fun k => (s.run cs k).accepted (cs k).toInputs) n
      = history (fun k => (s.run cs k).issued) n ++ (s.run cs n).waiting :=
  history_conserved (fun k => (s.run cs k).waiting)
    (fun k => (inv_run hd hcs k).books (hcs k)) n

/-! ## Words come back -/

theorem strobe_run (n : ℕ) : (s.run cs n).rdStrobe = (s.commands cs n).isRead := by
  refine Bool.eq_iff_iff.mpr (decide_eq_true_iff.trans ?_)
  cases n with
  | zero =>
      exact iff_of_false (show (0b1111#4).extractLsb' 0 3 ≠ 5#3 by decide)
        (show ¬(false = true) by decide)
  | succ n => exact (keeps_run hd hcs n).strobe

omit hd in
theorem rdValid_succ (n : ℕ) :
    (s.run cs (n + 1)).rd_valid.getLsbD 0 = (s.run cs n).rdStrobe
      ∧ (s.run cs (n + 1)).rd_valid.getLsbD 1 = (s.run cs n).rd_valid.getLsbD 0
      ∧ (s.run cs (n + 1)).rd_valid.getLsbD 2 = (s.run cs n).rd_valid.getLsbD 1
      ∧ (s.run cs (n + 1)).za_valid = (s.run cs n).rd_valid.getLsbD 2 := by
  have hshift : ∀ (v : BitVec 3) (b : Bool),
      (v <<< 1 ||| (0#2 ++ BitVec.ofBool b)).getLsbD 0 = b
        ∧ (v <<< 1 ||| (0#2 ++ BitVec.ofBool b)).getLsbD 1 = v.getLsbD 0
        ∧ (v <<< 1 ||| (0#2 ++ BitVec.ofBool b)).getLsbD 2 = v.getLsbD 1 := by decide
  obtain ⟨h0, h1, h2⟩ := hshift (s.run cs n).rd_valid (s.run cs n).rdStrobe
  rw [run_succ, next_eq (hcs n)]
  exact ⟨h0, h1, h2, rfl⟩

/-- The word of a read is registered with `za_valid` four cycles behind the command. -/
theorem zaValid_run (n : ℕ) : (s.run cs (n + 4)).za_valid = (s.commands cs n).isRead :=
  calc (s.run cs (n + 4)).za_valid
      = (s.run cs (n + 3)).rd_valid.getLsbD 2 := (rdValid_succ hcs (n + 3)).2.2.2
    _ = (s.run cs (n + 2)).rd_valid.getLsbD 1 := (rdValid_succ hcs (n + 2)).2.2.1
    _ = (s.run cs (n + 1)).rd_valid.getLsbD 0 := (rdValid_succ hcs (n + 1)).2.1
    _ = (s.run cs n).rdStrobe := (rdValid_succ hcs n).1
    _ = (s.commands cs n).isRead := strobe_run hd hcs n

omit hd in
theorem zaValid_start {n : ℕ} (hn : n < 4) : (s.run cs n).za_valid = false := by
  have hzero : ∀ k, (s.run cs 0).rd_valid.getLsbD k = false := fun k => BitVec.getLsbD_zero
  obtain rfl | rfl | rfl | rfl : n = 0 ∨ n = 1 ∨ n = 2 ∨ n = 3 := by omega
  · rfl
  · exact (rdValid_succ hcs 0).2.2.2.trans (hzero 2)
  · exact (rdValid_succ hcs 1).2.2.2.trans ((rdValid_succ hcs 0).2.2.1.trans (hzero 1))
  · exact (rdValid_succ hcs 2).2.2.2.trans ((rdValid_succ hcs 1).2.2.1.trans
      ((rdValid_succ hcs 0).2.1.trans (hzero 0)))

/-- The controller leaves the data bus to the word of a read. -/
theorem oe_run (n : ℕ) (h : (s.run cs (n + 3)).main.oe = true) :
    (s.commands cs n).isRead = false := by
  rw [← Monitor.run_q3 timing d]
  exact (keeps_run hd hcs (n + 2)).bus h

end Run

end SdramController

end Ece385
