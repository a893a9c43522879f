import Ece385.Lab7.SdramRun

/-!
# Refresh and service in time

The refresh counter asks for a refresh every 391 cycles, and the request has to be
granted whatever the bus does. `toRefresh` counts the cycles a request has to wait
for at most in each state; it goes down by one in every cycle (`toRefresh_next`), as
the counter does, so a refresh is done long before the next one is due (`refreshed`)
and none is ever missed. The same kind of argument bounds the time a request of the
bus waits: `toIssue` counts the cycles to the next read or write while no refresh
interferes, and a refresh interferes at most once (`patience`, `issued_soon`).
-/

namespace Ece385

namespace SdramController

open Sdr (Monitor Timing)
open Clocked (history history_drains exists_of_rank)

namespace MainFsm

/-! ## To the next refresh -/

/-- The cycles until a requested refresh is under way. -/
def toRefresh (m : MainFsm) : ℕ :=
  match m.m_state with
  | .refresh => 1
  | .idle => 4
  | .hold => 6
  | .read | .write => 7
  | .activate => 9
  | .close => max 1 m.m_count.toNat + 6
  | .precharge => 1 + max 1 m.m_count.toNat + if m.m_next = .refresh then 1 else 4
  | .spin => max 1 m.m_count.toNat
      + if m.m_next = .refresh then 1 else if m.m_next = .idle then 4 else 7

theorem toRefresh_le (m : MainFsm) : m.toRefresh ≤ 14 := by
  have hcount := m.m_count.isLt
  unfold toRefresh
  split <;> (try split) <;> (try split) <;> omega

/-- The cycles until the acknowledge is taken back. -/
def toIdle (m : MainFsm) : ℕ :=
  match m.m_state with
  | .spin => max 1 m.m_count.toNat + 1
  | _ => 1

theorem toNat_pred {c : BitVec 3} (h : 1 < c) : (c - 1).toNat = c.toNat - 1 ∧ 1 < c.toNat := by
  have h' : 1 < c.toNat := h
  exact ⟨BitVec.toNat_sub_of_le (Nat.le_of_lt h'), h'⟩

section Next

variable {m : MainFsm} {rr fEmpty : Bool} {f : Transaction} {l : List Transaction}
  {e : SdramMonitor} {i : InitFsm} (hh : m.Holds rr l e)
include hh

theorem Holds.of_ack (hack : m.ack_refresh_request = true) :
    m.m_state = .idle ∧ rr = false ∨ m.m_state = .spin ∧ m.m_next = .idle := by
  cases hs : m.m_state <;> simp only [Holds, hs] at hh
  case idle => exact Or.inl ⟨rfl, (hh.2.2.resolve_left fun h => by simp [hack] at h).1⟩
  case spin =>
    refine Or.inr ⟨rfl, ?_⟩
    have hspins := hh.2.2
    unfold Spins at hspins
    cases hq : m.m_next <;> simp [hq, Ready, hack] at hspins ⊢
  all_goals simp [Ready, hack] at hh

theorem toRefresh_next (hrr : rr = true) (hack : m.ack_refresh_request = false)
    (hs' : m.m_state ≠ .refresh) :
    (m.next true rr fEmpty f i).toRefresh + 1 ≤ m.toRefresh
      ∧ (m.next true rr fEmpty f i).ack_refresh_request = false := by
  subst hrr
  cases hs : m.m_state <;> simp only [Holds, hs] at hh
  case idle => simp [next, hs, toRefresh]
  case activate =>
    cases hrnw : m.active.rnw <;> simp [next, hs, toRefresh, hrnw, hack]
  case refresh => exact absurd hs hs'
  case hold => simp [next, hs, toRefresh, hack]
  case read =>
    cases hp : m.pending fEmpty f <;> simp [next, hs, toRefresh, hack, hp]
  case write =>
    cases hp : m.pending fEmpty f <;> simp [next, hs, toRefresh, hack, hp]
  case close =>
    by_cases hlt : 1 < m.m_count
    · obtain ⟨hcount, hlt'⟩ := toNat_pred hlt
      simp only [next, hs, if_pos hlt, toRefresh, hcount]
      exact ⟨by omega, hack⟩
    · simp only [next, hs, if_neg hlt, toRefresh, hh.2.2.2.1]
      exact ⟨show 1 + max 1 0 + 4 + 1 ≤ max 1 m.m_count.toNat + 6 by omega, hack⟩
  case precharge =>
    simp only [next, hs, toRefresh]
    refine ⟨?_, hack⟩
    rcases hh.2.2.2 with ⟨hq, -⟩ | ⟨hq, -⟩
      <;> simp only [hq, reduceCtorEq, ↓reduceIte] <;> omega
  case spin =>
    by_cases hlt : 1 < m.m_count
    · obtain ⟨hcount, hlt'⟩ := toNat_pred hlt
      simp only [next, hs, if_pos hlt, toRefresh, hcount]
      exact ⟨by omega, hack⟩
    · have hspins := hh.2.2
      unfold Spins at hspins
      simp only [next, hs, if_neg hlt]
      refine ⟨?_, hack⟩
      cases hq : m.m_next <;> simp only [hq] at hspins
        <;> simp only [toRefresh, hs, hq, reduceCtorEq, ↓reduceIte] <;> omega

theorem toIdle_next (hack : m.ack_refresh_request = true)
    (hack' : (m.next true rr fEmpty f i).ack_refresh_request = true) :
    (m.next true rr fEmpty f i).toIdle + 1 ≤ m.toIdle := by
  rcases hh.of_ack hack with ⟨hs, rfl⟩ | ⟨hs, hq⟩
  · cases fEmpty <;> simp [next, hs, take] at hack'
  · by_cases hlt : 1 < m.m_count
    · obtain ⟨hcount, hlt'⟩ := toNat_pred hlt
      simp only [next, hs, if_pos hlt, toIdle, hcount]
      omega
    · simp only [next, hs, if_neg hlt, toIdle, hq]
      omega

omit hh in
/-- Only a refresh is acknowledged. -/
theorem ack_next (hack : m.ack_refresh_request = false) :
    (m.next true rr fEmpty f i).ack_refresh_request = true
      ↔ m.m_state = .refresh := by
  cases hs : m.m_state <;> simp only [next, hs, reduceCtorEq, iff_false]
  case idle => cases rr <;> cases fEmpty <;> simp [take]
  case spin => split <;> simp [hack]
  case read | write => cases m.pending fEmpty f <;> cases rr <;> simp [take, hack]
  case close => split <;> simp [hack]
  case hold => cases rr <;> cases fEmpty <;> cases m.fits f <;> simp [take, hack]
  all_goals simp [hack]

end Next

end MainFsm

/-- No request of the refresh counter comes before the last one is granted and the
acknowledge taken back. -/
structure Timely (s : SdramController) : Prop where
  request : s.refresh_request = true → s.main.ack_refresh_request = false →
    376 + s.main.toRefresh ≤ s.refresh_counter.toNat
  ack : s.main.ack_refresh_request = true → 371 + s.main.toIdle ≤ s.refresh_counter.toNat

section Timely

theorem Timely.counter_ne {s : SdramController} (ht : Timely s)
    (h : s.refresh_request = true ∨ s.main.ack_refresh_request = true) :
    s.refresh_counter ≠ 0 := by
  have hpos : 0 < s.refresh_counter.toNat := by
    cases hack : s.main.ack_refresh_request with
    | true =>
        have hle := ht.ack hack
        omega
    | false =>
        have hrr := h.resolve_right fun h => absurd (hack.symm.trans h) (by decide)
        have hle := ht.request hrr hack
        omega
  intro hzero
  rw [hzero] at hpos
  exact absurd hpos (by decide)

variable {s : SdramController} {e : SdramMonitor} {i : Inputs} {z : BitVec 32}

theorem request_next (hi : i.reset_n = true) (hdone : s.init_done = true) :
    (s.next i z).refresh_request
      = ((s.refresh_counter = 0 || s.refresh_request) && !s.main.ack_refresh_request) := by
  rw [next_eq hi, hdone, Bool.and_true]

theorem init_done_next (hi : i.reset_n = true) : (s.next i z).init_done
    = (s.init_done || decide (s.init.i_state = .done)) := by
  rw [next_eq hi]

theorem init_next (hi : i.reset_n = true) :
    (s.next i z).init = s.init.next s.refresh_counter := by
  rw [next_eq hi]

theorem main_next (hi : i.reset_n = true) (hdone : s.init_done = true) :
    (s.next i z).main = s.main.next true s.refresh_request s.fEmpty s.f s.init := by
  rw [next_eq hi, hdone]

theorem ack_iff (hi : i.reset_n = true) (hdone : s.init_done = true)
    (hack : s.main.ack_refresh_request = false) :
    (s.next i z).main.ack_refresh_request = true ↔ s.main.m_state = .refresh := by
  rw [main_next hi hdone]
  exact MainFsm.ack_next hack

theorem Timely.next_booting (h : Inv s e) (hi : i.reset_n = true) (hdone : s.init_done = false) :
    Timely (s.next i z) := by
  obtain ⟨hidle, -, hack, -, -⟩ := h.booting hdone
  have hrr' : (s.next i z).refresh_request = false := by
    rw [next_eq hi]
    simp [hdone]
  have hack' : (s.next i z).main.ack_refresh_request = false := by
    rw [next_eq hi]
    simp [MainFsm.next, hidle, hdone, hack]
  exact ⟨fun h => absurd (hrr'.symm.trans h) (by decide),
    fun h => absurd (hack'.symm.trans h) (by decide)⟩

/-- On the way back from a refresh. -/
theorem Timely.next_ack (ht : Timely s) (h : Inv s e) (hi : i.reset_n = true)
    (hdone : s.init_done = true) (hack : s.main.ack_refresh_request = true) :
    Timely (s.next i z) := by
  obtain ⟨-, hholds⟩ := h.running hdone
  have hcounter := ht.ack hack
  have hpos : 0 < s.refresh_counter.toNat := by omega
  refine ⟨fun h => ?_, fun hack' => ?_⟩
  · rw [request_next hi hdone, hack] at h
    simp at h
  · rw [main_next hi hdone] at hack' ⊢
    have hidle := MainFsm.toIdle_next hholds hack hack'
    rw [counter_next hi hpos]
    omega

/-- On the way to a refresh. -/
theorem Timely.next_request (ht : Timely s) (h : Inv s e) (hi : i.reset_n = true)
    (hdone : s.init_done = true) (hack : s.main.ack_refresh_request = false)
    (hrr : s.refresh_request = true) : Timely (s.next i z) := by
  obtain ⟨-, hholds⟩ := h.running hdone
  have hmain := main_next (z := z) hi hdone
  have hack' := ack_iff (z := z) hi hdone hack
  have hcounter := ht.request hrr hack
  have hpos : 0 < s.refresh_counter.toNat := by omega
  by_cases hs : s.main.m_state = .refresh
  · have htrue := hack'.mpr hs
    refine ⟨fun _ h => absurd (htrue.symm.trans h) (by decide), fun _ => ?_⟩
    rw [counter_next hi hpos, hmain]
    simp only [MainFsm.toRefresh, hs] at hcounter
    simp [MainFsm.next, hs, MainFsm.toIdle]
    omega
  · have hless : (s.next i z).main.toRefresh + 1 ≤ s.main.toRefresh := by
      rw [hmain]
      exact (MainFsm.toRefresh_next hholds hrr hack hs).1
    refine ⟨fun _ _ => ?_, fun h => absurd (hack'.mp h) hs⟩
    rw [counter_next hi hpos]
    omega

/-- While nothing is asked of it. -/
theorem Timely.next_quiet (h : Inv s e) (hi : i.reset_n = true) (hdone : s.init_done = true)
    (hack : s.main.ack_refresh_request = false) (hrr : s.refresh_request = false) :
    Timely (s.next i z) := by
  obtain ⟨-, hholds⟩ := h.running hdone
  have hno : (s.next i z).main.ack_refresh_request = false := by
    refine (Bool.not_eq_true _).mp fun h => ?_
    have hs := (ack_iff hi hdone hack).mp h
    simp only [MainFsm.Holds, hs] at hholds
    exact absurd (hrr.symm.trans hholds.2.1) (by decide)
  refine ⟨fun h _ => ?_, fun h => absurd (hno.symm.trans h) (by decide)⟩
  have hzero : s.refresh_counter = 0 := by
    rw [request_next hi hdone, hrr, hack] at h
    simpa using h
  have hfresh : (s.next i z).refresh_counter = 390 := by
    rw [next_eq hi, hzero]
    rfl
  have hle := (s.next i z).main.toRefresh_le
  rw [hfresh]
  show 376 + _ ≤ 390
  omega

theorem Timely.next (ht : Timely s) (h : Inv s e) (hi : i.reset_n = true) :
    Timely (s.next i z) := by
  cases hdone : s.init_done with
  | false => exact .next_booting h hi hdone
  | true =>
      cases hack : s.main.ack_refresh_request with
      | true => exact ht.next_ack h hi hdone hack
      | false =>
          cases hrr : s.refresh_request with
          | true => exact ht.next_request h hi hdone hack hrr
          | false => exact .next_quiet h hi hdone hack hrr

end Timely

/-! ## To the next read or write -/

/-- The cycles to the next read or write, this one included, if no refresh interferes. -/
def toIssue (s : SdramController) : ℕ :=
  match s.main.m_state with
  | .read | .write => if s.main.f_pop && !s.main.pending s.fEmpty s.f then 9 else 1
  | .hold => 8
  | .activate => 3
  | .idle => 4
  | .refresh => 8
  | .close => max 1 s.main.m_count.toNat + 6
  | .precharge => 1 + max 1 s.main.m_count.toNat + if s.main.m_next = .refresh then 8 else 4
  | .spin => max 1 s.main.m_count.toNat
      + if s.main.m_next = .refresh then 8 else if s.main.m_next = .idle then 4 else 1

theorem toIssue_le (s : SdramController) : s.toIssue ≤ 16 := by
  have hcount := s.main.m_count.isLt
  unfold toIssue
  split <;> (try split) <;> (try split) <;> omega

theorem toIssue_pos (s : SdramController) : 0 < s.toIssue := by
  unfold toIssue
  split <;> (try split) <;> (try split) <;> omega

section Issue

variable {s : SdramController} {e : SdramMonitor} {i : Inputs} {z : BitVec 32}

/-- A request that is not popped stays at the head. -/
theorem f_next (h : Inv s e) (hi : i.reset_n = true) (hsel : s.fSelect = false)
    (hempty : s.fEmpty = false) :
    (s.next i z).fEmpty = false ∧ (s.next i z).f = s.f := by
  obtain ⟨-, hcontents⟩ := fifo_next (z := z) h.fifo hi
  obtain ⟨t, ht⟩ := s.fifo.contents_cons hempty
  rw [hsel, ht] at hcontents
  rcases (s.next i z).head_fifo with ⟨-, hnil⟩ | ⟨hne, t', ht'⟩
  · rw [hnil] at hcontents
    exact absurd hcontents (by simp)
  · rw [ht'] at hcontents
    exact ⟨hne, (List.cons.inj hcontents).1⟩

omit i z in
/-- What waits and is not in flight is in the FIFO. -/
theorem fEmpty_of_waiting (hflight : s.main.flight = []) (hwaiting : s.waiting ≠ []) :
    s.fEmpty = false := by
  refine (Bool.not_eq_true _).mp fun hempty => hwaiting ?_
  rw [waiting, hflight, s.fifo.contents_nil hempty]
  rfl

omit i z in
theorem refresh_request_of_ack (hack : s.main.ack_refresh_request = false)
    (hcalm : s.refresh_request = true → s.main.ack_refresh_request = true) :
    s.refresh_request = false :=
  (Bool.not_eq_true _).mp fun hrr => absurd (hack.symm.trans (hcalm hrr)) (by decide)

/-- With the row open a request goes on at once, another one has to close it first. -/
theorem toIssue_hold (h : Inv s e) (hi : i.reset_n = true) (hdone : s.init_done = true)
    (hs : s.main.m_state = .hold) (hpop : s.main.f_pop = false)
    (hrr : s.refresh_request = false) (hempty : s.fEmpty = false) :
    (s.next i z).toIssue + 1 ≤ s.toIssue := by
  have hmain := main_next (z := z) hi hdone
  have hsel : s.fSelect = false := by rw [fSelect, MainFsm.fSelect, hpop, Bool.false_and]
  obtain ⟨hempty', hf'⟩ := f_next (z := z) h hi hsel hempty
  cases hfits : s.main.fits s.f with
  | false => simp [toIssue, hs, hmain, MainFsm.next, hrr, hempty, hfits]
  | true =>
      have hactive : (s.next i z).main.active_cs_n = false
          ∧ (s.next i z).main.active = s.f := by
        rw [hmain]
        simp [MainFsm.next, hs, hrr, hempty, hfits, MainFsm.take]
      have hpend : (s.next i z).main.pending (s.next i z).fEmpty (s.next i z).f = true := by
        rw [MainFsm.pending, hempty', hf', MainFsm.fits_iff.mpr ⟨hactive.1, ?_, ?_, ?_⟩]
        · rfl
        all_goals rw [hactive.2]
      have hstate : (s.next i z).main.m_state = .read ∨ (s.next i z).main.m_state = .write := by
        rw [hmain]
        cases hrnw : s.f.rnw <;> simp [MainFsm.next, hs, hrr, hempty, hfits, hrnw]
      rcases hstate with hstate | hstate <;> simp [toIssue, hstate, hs, hpend]

theorem toIssue_next (h : Inv s e) (hi : i.reset_n = true) (hdone : s.init_done = true)
    (hcalm : s.refresh_request = true → s.main.ack_refresh_request = true)
    (hwaiting : s.waiting ≠ []) (hissued : s.issued = []) :
    (s.next i z).toIssue + 1 ≤ s.toIssue := by
  obtain ⟨-, hholds⟩ := h.running hdone
  have hmain := main_next (z := z) hi hdone
  cases hs : s.main.m_state <;> simp only [MainFsm.Holds, hs] at hholds
  case idle =>
    have hrr : s.refresh_request = false :=
      hholds.2.2.elim (fun hack => refresh_request_of_ack hack.2 hcalm) fun hno => hno.1
    have hempty := fEmpty_of_waiting (by simp only [MainFsm.flight, hs]) hwaiting
    have hstate : (s.next i z).main.m_state = .activate := by
      rw [hmain]
      simp [MainFsm.next, hs, hrr, hempty]
    simp [toIssue, hstate, hs]
  case activate =>
    cases hrnw : s.main.active.rnw <;> simp [toIssue, hs, hmain, MainFsm.next, hrnw]
  case refresh => simp [toIssue, hs, hmain, MainFsm.next]
  case close =>
    by_cases hlt : 1 < s.main.m_count
    · obtain ⟨hcount, hlt'⟩ := MainFsm.toNat_pred hlt
      simp only [toIssue, hmain, MainFsm.next, hs, if_pos hlt, hcount]
      omega
    · simp only [toIssue, hmain, MainFsm.next, hs, if_neg hlt, hholds.2.2.2.1]
      show 1 + max 1 0 + 4 + 1 ≤ max 1 s.main.m_count.toNat + 6
      omega
  case precharge =>
    rcases hholds.2.2.2 with ⟨hq, -⟩ | ⟨hq, -⟩
      <;> simp only [toIssue, hmain, MainFsm.next, hs, hq, reduceCtorEq, ↓reduceIte] <;> omega
  case spin =>
    by_cases hlt : 1 < s.main.m_count
    · obtain ⟨hcount, hlt'⟩ := MainFsm.toNat_pred hlt
      simp only [toIssue, hmain, MainFsm.next, hs, if_pos hlt, hcount]
      omega
    · have hspins := hholds.2.2
      unfold MainFsm.Spins at hspins
      have hstate : (s.next i z).main.m_state = s.main.m_next
          ∧ (s.next i z).main.f_pop = false := by
        rw [hmain]
        simp only [MainFsm.next, hs, if_neg hlt, and_self]
      unfold toIssue
      cases hq : s.main.m_next <;> simp only [hq] at hspins
        <;> simp only [hstate, hs, hq, reduceCtorEq, ↓reduceIte, Bool.false_and, Bool.false_eq_true]
        <;> omega
  case read | write =>
    obtain ⟨hpop, hpend⟩ : s.main.f_pop = true ∧ s.main.pending s.fEmpty s.f = false := by
      simp only [issued, MainFsm.issue, hs, MainFsm.fSelect] at hissued
      cases hpop : s.main.f_pop <;> cases hpend : s.main.pending s.fEmpty s.f
        <;> simp [hpop, hpend] at hissued ⊢
    have hstate : (s.next i z).main.m_state = .hold := by
      rw [hmain]
      simp [MainFsm.next, hs, hpend]
    simp [toIssue, hstate, hs, hpop, hpend]
  case hold =>
    obtain ⟨hpop, ⟨-, hack, -, -⟩, -⟩ := hholds
    have hempty := fEmpty_of_waiting (by simp only [MainFsm.flight, hs]) hwaiting
    exact toIssue_hold h hi hdone hs hpop (refresh_request_of_ack hack hcalm) hempty

omit i z in
theorem MainFsm.length_flight (m : MainFsm) : m.flight.length ≤ 1 := by
  unfold flight
  split <;> (try split) <;> simp

/-- The cycles to the next read or write, whatever refreshes come. -/
def patience (s : SdramController) : ℕ :=
  if s.refresh_request && !s.main.ack_refresh_request then s.main.toRefresh + 8
  else if s.toIssue ≤ s.refresh_counter.toNat then s.toIssue
  else s.refresh_counter.toNat + 23

omit i z in
theorem patience_le (s : SdramController) : s.patience ≤ 38 := by
  have hissue := s.toIssue_le
  have hrefresh := s.main.toRefresh_le
  unfold patience
  split
  · omega
  · split <;> omega

/-- Towards a refresh that is due. -/
theorem patience_request (h : Inv s e) (ht : Timely s) (hi : i.reset_n = true)
    (hdone : s.init_done = true) (hrr : s.refresh_request = true)
    (hack : s.main.ack_refresh_request = false) : (s.next i z).patience < s.patience := by
  obtain ⟨-, hholds⟩ := h.running hdone
  have hmain := main_next (z := z) hi hdone
  have hrefresh' := (s.next i z).main.toRefresh_le
  have hcounter := ht.request hrr hack
  have hpos : 0 < s.refresh_counter.toNat := by omega
  have hcounter' := counter_next (z := z) hi hpos
  have hold : s.patience = s.main.toRefresh + 8 := by simp [patience, hrr, hack]
  rw [hold]
  by_cases hs : s.main.m_state = .refresh
  · have hissue : (s.next i z).toIssue = 7 := by
      simp [toIssue, hmain, MainFsm.next, hs]
    have hack' : (s.next i z).main.ack_refresh_request = true := by
      simp [hmain, MainFsm.next, hs]
    have hone : s.main.toRefresh = 1 := by simp [MainFsm.toRefresh, hs]
    simp only [patience, hack', hissue, Bool.not_true, Bool.and_false, Bool.false_eq_true,
      if_false]
    split <;> omega
  · obtain ⟨hless, hack'⟩ : (s.next i z).main.toRefresh + 1 ≤ s.main.toRefresh
        ∧ (s.next i z).main.ack_refresh_request = false := by
      rw [hmain]
      exact MainFsm.toRefresh_next hholds hrr hack hs
    have hnew : (s.next i z).patience = (s.next i z).main.toRefresh + 8 := by
      simp [patience, request_next hi hdone, hrr, hack, hack']
    omega

omit i z in
theorem patience_of_calm
    (hcalm : s.refresh_request = true → s.main.ack_refresh_request = true) :
    s.patience = if s.toIssue ≤ s.refresh_counter.toNat then s.toIssue
      else s.refresh_counter.toNat + 23 := by
  have hno : (s.refresh_request && !s.main.ack_refresh_request) = false := by
    cases hrr : s.refresh_request with
    | false => rfl
    | true => rw [hcalm hrr]; rfl
  rw [patience, hno]
  rfl

/-- While no refresh is due. -/
theorem patience_calm (h : Inv s e) (hi : i.reset_n = true) (hdone : s.init_done = true)
    (hcalm : s.refresh_request = true → s.main.ack_refresh_request = true)
    (hwaiting : s.waiting ≠ []) (hissued : s.issued = []) :
    (s.next i z).patience < s.patience := by
  have hissue' := (s.next i z).toIssue_le
  have hrefresh' := (s.next i z).main.toRefresh_le
  have hless := toIssue_next (z := z) h hi hdone hcalm hwaiting hissued
  rw [patience_of_calm hcalm]
  by_cases hzero : s.refresh_counter = 0
  · -- The counter runs out, and a request for a refresh may come.
    have hcounter' : (s.next i z).refresh_counter.toNat = 390 := by
      rw [next_eq hi, hzero]
      rfl
    have hlt : ¬s.toIssue ≤ BitVec.toNat (0 : BitVec 14) := Nat.not_le_of_lt s.toIssue_pos
    rw [hzero, if_neg hlt]
    unfold patience
    rw [hcounter']
    show _ < 0 + 23
    split
    · omega
    · rw [if_pos (hissue'.trans (by decide))]
      omega
  · have hpos : 0 < s.refresh_counter.toNat := Nat.pos_of_ne_zero fun h0 =>
      hzero (BitVec.eq_of_toNat_eq h0)
    have hquiet : (s.next i z).refresh_request = false := by
      rw [request_next hi hdone]
      cases hrr : s.refresh_request with
      | false => rw [decide_eq_false hzero]; rfl
      | true => rw [hcalm hrr, Bool.not_true, Bool.and_false]
    rw [patience_of_calm fun hrr => absurd (hquiet.symm.trans hrr) (by decide),
      counter_next hi hpos]
    split <;> split <;> omega

theorem patience_next (h : Inv s e) (ht : Timely s) (hi : i.reset_n = true)
    (hdone : s.init_done = true) (hwaiting : s.waiting ≠ []) (hissued : s.issued = []) :
    (s.next i z).patience < s.patience := by
  by_cases hreq : s.refresh_request = true ∧ s.main.ack_refresh_request = false
  · exact patience_request h ht hi hdone hreq.1 hreq.2
  · exact patience_calm h hi hdone (by simpa using hreq) hwaiting hissued

end Issue

/-! ## Setting up -/

/-- From the moment the power-up delay is over. -/
theorem InitFsm.run_done {i : InitFsm} (hs : i.i_state = .precharge) (hrefs : i.i_refs = 0)
    (counter : ℕ → BitVec 14) : (Clocked.run InitFsm.next i counter 15).i_state = .done := by
  obtain ⟨i_state, i_next, i_cmd, i_addr, i_count, i_refs⟩ := i
  subst hs hrefs
  simp [Clocked.run, next]

/-- The first refresh. -/
theorem InitFsm.run_refresh {i : InitFsm} (hs : i.i_state = .precharge)
    (counter : ℕ → BitVec 14) : (Clocked.run InitFsm.next i counter 3).i_cmd = 0b0001
      ∧ ∀ k < 3, (Clocked.run InitFsm.next i counter k).i_state ≠ .done := by
  obtain ⟨i_state, i_next, i_cmd, i_addr, i_count, i_refs⟩ := i
  subst hs
  refine ⟨rfl, fun k hk => ?_⟩
  obtain rfl | rfl | rfl : k = 0 ∨ k = 1 ∨ k = 2 := by omega
  · exact fun h => nomatch h
  · exact fun h => nomatch h
  · exact fun h => nomatch h

section Runs

variable {s : SdramController} {cs : ℕ → Cycle} (hcs : ∀ n, (cs n).reset_n = true)
include hcs

theorem counter_down {n c : ℕ} (hc : (s.run cs n).refresh_counter.toNat = c) {k : ℕ}
    (hk : k ≤ c) : (s.run cs (n + k)).refresh_counter.toNat = c - k := by
  induction k with
  | zero => exact hc
  | succ k ih =>
      have hk' := ih (Nat.le_of_succ_le hk)
      have hpos : 0 < (s.run cs (n + k)).refresh_counter.toNat := by omega
      rw [← Nat.add_assoc, run_succ, counter_next (hcs (n + k)) hpos, hk', Nat.sub_sub]

theorem counter_start {n : ℕ} (hn : n ≤ 10000) :
    (s.run cs n).refresh_counter.toNat = 10000 - n := by
  have hstart : (s.run cs 0).refresh_counter.toNat = 10000 := rfl
  have hdown := counter_down hcs hstart hn
  rwa [Nat.zero_add] at hdown

theorem counter_fresh {n : ℕ} (hzero : (s.run cs n).refresh_counter.toNat = 0) :
    (s.run cs (n + 1)).refresh_counter.toNat = 390 := by
  have hzero' : (s.run cs n).refresh_counter = 0 := BitVec.eq_of_toNat_eq hzero
  rw [run_succ, next_eq (hcs n), hzero']
  rfl

/-- Once after the power-up delay, and then every 391 cycles. -/
theorem counter_due (j : ℕ) : (s.run cs (10000 + 391 * j)).refresh_counter.toNat = 0 := by
  induction j with
  | zero => exact counter_start hcs (Nat.le_refl 10000)
  | succ j ih =>
      have hdown := counter_down hcs (counter_fresh hcs ih) (Nat.le_refl 390)
      rw [show 10000 + 391 * (j + 1) = 10000 + 391 * j + 1 + 390 by omega, hdown]

theorem counter_eq_zero_iff (n : ℕ) :
    (s.run cs n).refresh_counter = 0 ↔ ∃ j, n = 10000 + 391 * j := by
  constructor
  · intro h
    have hzero : (s.run cs n).refresh_counter.toNat = 0 := by rw [h]; rfl
    rcases Nat.lt_or_ge 10000 n with hn | hn
    case inr =>
      rw [counter_start hcs hn] at hzero
      exact ⟨0, by omega⟩
    case inl =>
      obtain ⟨j, r, hr, rfl⟩ : ∃ j r, r ≤ 390 ∧ n = 10000 + 391 * j + 1 + r :=
        ⟨(n - 10001) / 391, (n - 10001) % 391, by omega, by omega⟩
      rw [counter_down hcs (counter_fresh hcs (counter_due hcs j)) hr] at hzero
      exact ⟨j + 1, by omega⟩
  · rintro ⟨j, rfl⟩
    exact BitVec.eq_of_toNat_eq (counter_due hcs j)

theorem init_run (n k : ℕ) : (s.run cs (n + k)).init
    = Clocked.run InitFsm.next (s.run cs n).init
        (fun j => (s.run cs (n + j)).refresh_counter) k := by
  induction k with
  | zero => rfl
  | succ k ih =>
      rw [Clocked.run_succ, ← ih, ← Nat.add_assoc, run_succ, init_next (hcs (n + k))]

theorem init_done_mono {m n : ℕ} (hmn : m ≤ n) (hm : (s.run cs m).init_done = true) :
    (s.run cs n).init_done = true := by
  induction hmn with
  | refl => exact hm
  | @step n _ ih => rw [Nat.succ_eq_add_one, run_succ, init_done_next (hcs n), ih, Bool.true_or]

/-- Nothing happens in the power-up delay. -/
theorem starting {n : ℕ} (hn : n ≤ 10000) : (s.run cs n).init.i_state = .start
    ∧ (s.run cs n).init.i_cmd = 0b1111 ∧ (s.run cs n).init_done = false := by
  induction n with
  | zero => exact ⟨rfl, rfl, rfl⟩
  | succ n ih =>
      obtain ⟨hstate, -, hdone⟩ := ih (Nat.le_of_succ_le hn)
      have hne : ¬(s.run cs n).refresh_counter = 0 := fun h => by
        have hcount := counter_start (s := s) hcs (Nat.le_of_succ_le hn)
        rw [h] at hcount
        exact absurd hcount (Nat.ne_of_lt (Nat.sub_pos_of_lt hn))
      rw [run_succ, init_next (hcs n), init_done_next (hcs n), hdone]
      simp only [InitFsm.next, hstate, if_neg hne]
      exact ⟨trivial, trivial, rfl⟩

/-- The power-up delay is over. -/
theorem started : (s.run cs 10001).init.i_state = .precharge
    ∧ (s.run cs 10001).init.i_refs = 0 ∧ (s.run cs 10001).init_done = false := by
  obtain ⟨hstate, -, hdone⟩ := starting (s := s) hcs (Nat.le_refl 10000)
  have hdue : (s.run cs 10000).refresh_counter = 0 := BitVec.eq_of_toNat_eq (counter_due hcs 0)
  rw [run_succ 10000, init_next (hcs 10000), init_done_next (hcs 10000), hdone]
  simp [InitFsm.next, hstate, hdue]

/-- The chip is set up 17 cycles later. -/
theorem initialized {n : ℕ} (hn : 10017 ≤ n) : (s.run cs n).init_done = true := by
  refine init_done_mono hcs hn ?_
  obtain ⟨hstate, hrefs, -⟩ := started (s := s) hcs
  have hdone := InitFsm.run_done hstate hrefs fun j => (s.run cs (10001 + j)).refresh_counter
  rw [← init_run hcs] at hdone
  rw [run_succ 10016, init_done_next (hcs 10016), decide_eq_true hdone, Bool.or_true]

/-! ## Commands of the set-up -/

omit hcs in
theorem commands_of_cmd {n : ℕ} (h : (s.run cs n).main.m_cmd = 0b0001) :
    s.commands cs n = .refresh := by
  simp only [commands, Pins.command, pins, h]
  rfl

/-- The commands of the set-up are passed on. -/
theorem main_boot {n : ℕ} (hdone : (s.run cs n).init_done = false) :
    (s.run cs (n + 1)).main.m_cmd = (s.run cs n).init.i_cmd := by
  obtain ⟨hidle, -⟩ := (inv_run (s := s) powerUp_within hcs n).booting hdone
  rw [run_succ, next_eq (hcs n)]
  simp only [MainFsm.next, hidle, hdone]
  rfl

theorem commands_of_starting {n : ℕ} (hn : n ≤ 10000) : s.commands cs n = .nop := by
  cases n with
  | zero => rfl
  | succ n =>
      obtain ⟨-, hcmd, hdone⟩ := starting (s := s) hcs (Nat.le_of_succ_le hn)
      have hnop := main_boot (s := s) hcs hdone
      rw [hcmd] at hnop
      simp only [commands, Pins.command, pins, hnop]
      rfl

theorem first_refresh : s.commands cs 10005 = .refresh := by
  obtain ⟨hstate, -, hdone⟩ := started (s := s) hcs
  obtain ⟨hcmd, hstates⟩ := InitFsm.run_refresh hstate
    fun j => (s.run cs (10001 + j)).refresh_counter
  have hdone' : ∀ k ≤ 3, (s.run cs (10001 + k)).init_done = false := by
    intro k hk
    induction k with
    | zero => exact hdone
    | succ k ih =>
        have hne := hstates k (Nat.lt_of_succ_le hk)
        rw [← init_run hcs] at hne
        rw [← Nat.add_assoc, run_succ, init_done_next (hcs _), ih (Nat.le_of_succ_le hk),
          decide_eq_false hne, Bool.or_self]
  rw [← init_run hcs] at hcmd
  exact commands_of_cmd ((main_boot hcs (hdone' 3 (Nat.le_refl 3))).trans hcmd)

/-! ## In time -/

theorem timely_run (n : ℕ) : Timely (s.run cs n) := by
  induction n with
  | zero =>
      exact ⟨fun h => absurd (show false = true from h) (by decide),
        fun h => absurd (show false = true from h) (by decide)⟩
  | succ n ih =>
      rw [run_succ]
      exact ih.next (inv_run powerUp_within hcs n) (hcs n)

theorem cannotrefresh_run (n : ℕ) : (s.run cs n).za_cannotrefresh = false := by
  cases n with
  | zero => rfl
  | succ n =>
      rw [run_succ, next_eq (hcs n)]
      refine (Bool.not_eq_true _).mp fun h => ?_
      obtain ⟨hzero, hrr⟩ := (Bool.and_eq_true _ _).mp h
      exact (timely_run hcs n).counter_ne (Or.inl hrr) (of_decide_eq_true hzero)

/-- Once the chip is set up, the request waits until the state is `refresh`. -/
theorem refresh_of_due {n : ℕ} (hdone : (s.run cs n).init_done = true)
    (hdue : (s.run cs n).refresh_counter = 0) : ∃ k ≤ 15, s.commands cs (n + k) = .refresh := by
  have htimely := timely_run (s := s) hcs
  have hdones : ∀ {m}, n ≤ m → (s.run cs m).init_done = true := fun hm =>
    init_done_mono hcs hm hdone
  have hack : (s.run cs n).main.ack_refresh_request = false :=
    (Bool.not_eq_true _).mp fun hack => (htimely n).counter_ne (Or.inr hack) hdue
  have hrefresh : (s.run cs n).main.m_state ≠ .refresh := by
    intro hs
    have hholds := ((inv_run (s := s) powerUp_within hcs n).running hdone).2
    simp only [MainFsm.Holds, hs] at hholds
    exact (htimely n).counter_ne (Or.inl hholds.2.1) hdue
  have hack' : (s.run cs (n + 1)).main.ack_refresh_request = false := by
    rw [run_succ, main_next (hcs n) hdone]
    exact (Bool.not_eq_true _).mp fun h => hrefresh ((MainFsm.ack_next hack).mp h)
  have hrr' : (s.run cs (n + 1)).refresh_request = true := by
    rw [run_succ, request_next (hcs n) hdone, hdue, hack]
    rfl
  obtain ⟨k, hk, ⟨-, -, -⟩, hs⟩ := exists_of_rank
    (fun m => (s.run cs m).main.toRefresh) (n := n + 1)
    (I := fun m => n < m ∧ (s.run cs m).refresh_request = true
      ∧ (s.run cs m).main.ack_refresh_request = false)
    (P := fun m => (s.run cs m).main.m_state = .refresh)
    (fun m hm hs => by
      obtain ⟨hlt, hrr, hack⟩ := hm
      have hdone' := hdones (Nat.le_of_lt hlt)
      have hholds := ((inv_run (s := s) powerUp_within hcs m).running hdone').2
      rw [run_succ, request_next (hcs m) hdone', main_next (hcs m) hdone']
      obtain ⟨hless, hack'⟩ := MainFsm.toRefresh_next hholds hrr hack hs
      exact ⟨⟨Nat.lt_succ_of_lt hlt, by rw [hrr, hack, Bool.or_true]; rfl, hack'⟩, hless⟩)
    ⟨Nat.lt_succ_self n, hrr', hack'⟩
  have hle := (s.run cs (n + 1)).main.toRefresh_le
  have hone : (s.run cs (n + 1 + k)).main.toRefresh = 1 := by
    rw [MainFsm.toRefresh, hs]
  refine ⟨k + 2, by omega, ?_⟩
  have hdone' : (s.run cs (n + 1 + k)).init_done = true := hdones (by omega)
  have hcmd : (s.run cs (n + 1 + k + 1)).main.m_cmd = 0b0001 := by
    rw [run_succ, main_next (hcs _) hdone']
    simp only [MainFsm.next, hs]
  rw [show n + (k + 2) = n + 1 + k + 1 by omega]
  exact commands_of_cmd hcmd

theorem refresh_soon {n : ℕ} (hdue : (s.run cs n).refresh_counter = 0) :
    ∃ k ≤ 15, s.commands cs (n + k) = .refresh := by
  obtain ⟨j, rfl⟩ := (counter_eq_zero_iff hcs n).mp hdue
  cases j with
  | zero => exact ⟨5, by decide, first_refresh hcs⟩
  | succ j => exact refresh_of_due hcs (initialized hcs (by omega)) hdue

/-- **Refreshed in time**: whenever the counter is due, and that is once after the power-up
delay and then every 391 cycles, a refresh is on the pins within 15 cycles, and no refresh
is ever missed. -/
theorem refreshed :
    (∀ n, (s.run cs n).za_cannotrefresh = false)
      ∧ (∀ n, (s.run cs n).refresh_counter = 0 ↔ ∃ j, n = 10000 + 391 * j)
      ∧ ∀ n, (s.run cs n).refresh_counter = 0 → ∃ k ≤ 15, s.commands cs (n + k) = .refresh :=
  ⟨cannotrefresh_run hcs, counter_eq_zero_iff hcs, fun _ hdue => refresh_soon hcs hdue⟩

omit hcs in
theorem refreshed_writeRead :
    (∀ n, (writeRead n).reset_n = true)
      ∧ (ctrl₀.run writeRead 10391).refresh_counter = 0
      ∧ (∃ k ≤ 15, ctrl₀.commands writeRead (10000 + k) = .refresh)
      ∧ ∃ k ≤ 15, ctrl₀.commands writeRead (10391 + k) = .refresh := by
  obtain ⟨-, hzero, hsoon⟩ := refreshed (s := ctrl₀) writeRead_reset_n
  exact ⟨writeRead_reset_n, (hzero 10391).mpr ⟨1, rfl⟩, hsoon 10000 ((hzero 10000).mpr ⟨0, rfl⟩),
    hsoon 10391 ((hzero 10391).mpr ⟨1, rfl⟩)⟩

/-- From the set-up on there is a refresh in every 406 cycles. -/
theorem refresh_within {n : ℕ} (hn : 10000 ≤ n) : ∃ k < 406, s.commands cs (n + k) = .refresh := by
  obtain ⟨j, r, hr, hj⟩ : ∃ j r, r ≤ 390 ∧ n + r = 10000 + 391 * j :=
    ⟨(n - 10000 + 390) / 391, 391 * ((n - 10000 + 390) / 391) - (n - 10000), by omega, by omega⟩
  obtain ⟨k, hk, hrefresh⟩ := refresh_soon hcs ((counter_eq_zero_iff hcs (n + r)).mpr ⟨j, hj⟩)
  exact ⟨r + k, by omega, by rw [← Nat.add_assoc]; exact hrefresh⟩

/-- All that a chip asks for, of a chip that is not set up before. -/
theorem kept_run {T : Timing} (hT : T.Le timing) {window : ℕ} (hwindow : 406 ≤ window)
    {d : SdramMonitor} (hd : d.Within 10000 0 0) (hprog : d.programmed = false) (n : ℕ) :
    d.Kept T window (s.commands cs) (fun k => ((s.run cs k).pins (cs k).x).masked) n where
  legal := fun k _ => (Monitor.Le.run hT d (s.commands cs) k).legal (legal_run hd hcs k)
  enabled := by
    intro k _ hmasked
    rw [(Monitor.Le.run hT d (s.commands cs) k).rest]
    exact enabled_run hd hcs k hmasked
  refreshed := by
    intro m _ hset
    have hunset : ∀ k ≤ 10000, (d.run T (s.commands cs) k).programmed = false := by
      intro k hk
      induction k with
      | zero => exact hprog
      | succ k ih =>
          have hk' := Nat.le_of_succ_le hk
          have hrun : d.run T (s.commands cs) (k + 1)
              = (d.run T (s.commands cs) k).exec T (s.commands cs k) := rfl
          rw [hrun, commands_of_starting hcs hk']
          exact ih hk'
    have hm : 10000 ≤ m := Nat.le_of_not_le fun hm =>
      absurd ((hunset m hm).symm.trans hset) (by decide)
    obtain ⟨k, hk, hrefresh⟩ := refresh_within hcs hm
    exact ⟨k, hk.trans_le hwindow, hrefresh⟩

/-- A request waits at most 38 cycles for the one before it, or for its own command. -/
theorem issued_soon {n : ℕ} (hdone : (s.run cs n).init_done = true)
    (hwaiting : (s.run cs n).waiting ≠ []) : ∃ k ≤ 38, (s.run cs (n + k)).issued ≠ [] := by
  obtain ⟨k, hk, -, hissued⟩ := exists_of_rank
    (fun m => (s.run cs m).patience) (n := n)
    (I := fun m => n ≤ m ∧ (s.run cs m).waiting ≠ [])
    (P := fun m => (s.run cs m).issued ≠ [])
    (fun m hm hissued => by
      obtain ⟨hle, hwaiting⟩ := hm
      have hissued' := of_not_not hissued
      have hinv := inv_run (s := s) powerUp_within hcs m
      have hbooks := hinv.books (z := (s.run cs m).zsDq (cs m).x) (hcs m)
      rw [hissued', List.nil_append] at hbooks
      refine ⟨⟨Nat.le_succ_of_le hle, ?_⟩, patience_next hinv (timely_run hcs m) (hcs m)
        (init_done_mono hcs hle hdone) hwaiting hissued'⟩
      rw [run_succ, ← hbooks]
      exact List.append_ne_nil_of_left_ne_nil hwaiting _)
    ⟨Nat.le_refl n, hwaiting⟩
  have hle := (s.run cs n).patience_le
  exact ⟨k, by omega, hissued⟩

/-- What was accepted before cycle `n` has been issued 117 cycles later, once the chip is
set up: there are at most three requests under way. -/
theorem issued_prefix (n : ℕ) :
    history (fun k => (s.run cs k).accepted (cs k).toInputs) n
      <+: history (fun k => (s.run cs k).issued) (max n 10017 + 3 * (38 + 1)) := by
  have hlen : (s.run cs (max n 10017)).waiting.length ≤ 3 := by
    have hfifo := (s.run cs (max n 10017)).fifo.length_contents
    have hflight := (s.run cs (max n 10017)).main.length_flight
    rw [waiting, List.length_append]
    omega
  have hbooks := fun k => (inv_run (s := s) powerUp_within hcs k).books
    (z := (s.run cs k).zsDq (cs k).x) (hcs k)
  exact (Clocked.history_mono _ (le_max_left _ _)).trans
    (history_drains _ (n := max n 10017) (b := 38) hbooks rfl
      (fun m hm => issued_soon hcs (initialized hcs ((le_max_right _ _).trans hm))) hlen)

end Runs

end SdramController

end Ece385
