import Mathlib.Data.List.Chain
import Ece385.Lab7.Arbitrator

/-!
# The command multiplexer of the interconnect

`lab7_soc_mm_interconnect_0_cmd_mux`: two masters, one slave, and the arbitrator
between them. A grant is given one cycle ahead and kept until the packet is over:
`updateGrant` comes with the last beat, or while nothing goes on. So the slave sees
the beats of both masters, each of them once and in order, and no packet or locked
sequence is broken up by the other master (`packets`); and who waits is passed by at
most one packet of the other (`overtaken_once`).
-/

namespace Ece385

namespace CommandMux

/-- What a master drives: `sink0_*` or `sink1_*`. -/
structure Sink where
  valid : Bool
  channel : BitVec 8
  data : BitVec 105
  startofpacket : Bool
  endofpacket : Bool

namespace Sink

variable (k : Sink)

/-- `sink*_payload`. -/
def payload : BitVec 115 :=
  k.channel ++ k.data ++ BitVec.ofBool k.startofpacket ++ BitVec.ofBool k.endofpacket

/-- `PKT_TRANS_LOCK`. -/
def lock : Bool := k.data.getLsbD 69

/-- The last beat of a packet that is not locked to the next one. -/
def closes : Bool := k.endofpacket && !k.lock

theorem payload_endofpacket : k.payload.getLsbD 0 = k.endofpacket := by
  rw [payload, BitVec.getLsbD_append, if_pos Nat.one_pos]
  cases k.endofpacket <;> rfl

end Sink

structure Inputs where
  sink : Fin 2 → Sink
  src_ready : Bool

/-- One bit for each sink. -/
def Inputs.bits (i : Inputs) (f : Sink → Bool) : BitVec 2 :=
  BitVec.ofBool (f (i.sink 1)) ++ BitVec.ofBool (f (i.sink 0))

/-- `{PAYLOAD_W {b}}`. -/
def mask (b : Bool) : BitVec 115 := if b then BitVec.allOnes 115 else 0#115

end CommandMux

/-- The registers, with `top_priority_reg` of the arbitrator. `prev_request` is not among
them, as it is only read without `PIPELINE_ARB`. -/
structure CommandMux where
  saved_grant : BitVec 2
  locked : BitVec 2
  packet_in_progress : Bool
  share_count : BitVec 1
  share_count_zero_flag : Bool
  top_priority_reg : BitVec 2

namespace CommandMux

open MerlinArbitrator (grant)
open Priority (ahead)
open Clocked (history history_succ history_image)

section Netlist

variable (s : CommandMux) (i : Inputs)

def request : BitVec 2 := i.bits Sink.valid ||| s.locked

def nextGrant : BitVec 2 := grant .roundRobin s.top_priority_reg (s.request i)

def sinkReady (j : Fin 2) : Bool := i.src_ready && s.saved_grant.getLsbD j

def srcValid : Bool := s.saved_grant &&& i.bits Sink.valid ≠ 0#2

def srcPayload : BitVec 115 :=
  (i.sink 0).payload &&& mask (s.saved_grant.getLsbD 0)
    ||| (i.sink 1).payload &&& mask (s.saved_grant.getLsbD 1)

def srcEndofpacket : Bool := (s.srcPayload i).getLsbD 0

def lastCycle : Bool :=
  s.srcValid i && i.src_ready && s.srcEndofpacket i
    && !decide (i.bits Sink.lock &&& s.saved_grant ≠ 0#2)

def updateGrant : Bool :=
  (!s.packet_in_progress && !s.srcValid i) || (s.lastCycle i && s.share_count_zero_flag)

/-- The shares of both sinks are 0. -/
def nextGrantShare : BitVec 1 :=
  0#1 &&& BitVec.ofBool ((s.nextGrant i).getLsbD 0)
    ||| 0#1 &&& BitVec.ofBool ((s.nextGrant i).getLsbD 1)

def p1ShareCount : BitVec 1 := if s.share_count_zero_flag then 0#1 else s.share_count - 1#1

def next : CommandMux where
  saved_grant := if s.updateGrant i then s.nextGrant i else s.saved_grant
  locked := s.nextGrant i &&& i.bits Sink.lock
  packet_in_progress :=
    if s.lastCycle i then false else if s.srcValid i then true else s.packet_in_progress
  share_count :=
    if s.updateGrant i then s.nextGrantShare i
    else if s.lastCycle i then s.p1ShareCount else s.share_count
  share_count_zero_flag :=
    if s.updateGrant i then s.nextGrantShare i = 0#1
    else if s.lastCycle i then s.p1ShareCount = 0#1 else s.share_count_zero_flag
  top_priority_reg := MerlinArbitrator.next .roundRobin true
    ⟨s.request i, s.updateGrant i, s.srcValid i⟩ s.top_priority_reg

def reset : CommandMux where
  saved_grant := 0
  locked := 0
  packet_in_progress := false
  share_count := 0
  share_count_zero_flag := true
  top_priority_reg := 1

/-- The multiplexer `n` cycles after a reset. -/
def run (ins : ℕ → Inputs) : ℕ → CommandMux := Clocked.run (fun i s => s.next i) reset ins

/-- What sink `j` hands over in a cycle. -/
def taken (j : Fin 2) : List Sink :=
  if (i.sink j).valid && s.sinkReady i j then [i.sink j] else []

/-- What the source hands on. -/
def sent : List (BitVec 115) := if s.srcValid i && i.src_ready then [s.srcPayload i] else []

/-- Whose turn it is. -/
def owner : Fin 2 := if s.saved_grant.getLsbD 1 then 1 else 0

/-- What goes through, and from whom. -/
def moved : List (Fin 2 × Sink) :=
  if s.srcValid i && i.src_ready then [(s.owner, i.sink s.owner)] else []

end Netlist

/-! ## Who is granted -/

section Granted

variable {s : CommandMux} (i : Inputs) {g : Fin 2} (h : s.saved_grant = BitVec.twoPow 2 g)
include h

theorem owner_eq : s.owner = g := by
  rw [owner, h]
  match g with
  | 0 => rfl
  | 1 => rfl

theorem and_grant (f : Sink → Bool) :
    decide (s.saved_grant &&& i.bits f ≠ 0#2) = f (i.sink g) := by
  rw [h, Inputs.bits]
  match g with
  | 0 => cases f (i.sink 0) <;> cases f (i.sink 1) <;> decide
  | 1 => cases f (i.sink 0) <;> cases f (i.sink 1) <;> decide

theorem srcValid_eq : s.srcValid i = (i.sink g).valid := and_grant i h Sink.valid

theorem srcPayload_eq : s.srcPayload i = (i.sink g).payload := by
  rw [srcPayload, h]
  match g with
  | 0 =>
      rw [show (BitVec.twoPow 2 (0 : Fin 2).val).getLsbD 0 = true from rfl,
        show (BitVec.twoPow 2 (0 : Fin 2).val).getLsbD 1 = false from rfl, mask, mask,
        if_pos rfl, if_neg Bool.false_ne_true, BitVec.and_allOnes, BitVec.and_zero, BitVec.or_zero]
  | 1 =>
      rw [show (BitVec.twoPow 2 (1 : Fin 2).val).getLsbD 0 = false from rfl,
        show (BitVec.twoPow 2 (1 : Fin 2).val).getLsbD 1 = true from rfl, mask, mask,
        if_pos rfl, if_neg Bool.false_ne_true, BitVec.and_allOnes, BitVec.and_zero, BitVec.zero_or]

theorem sinkReady_eq (j : Fin 2) : s.sinkReady i j = (i.src_ready && decide (j = g)) := by
  rw [sinkReady, h]
  match g, j with
  | 0, 0 => rfl
  | 0, 1 => rfl
  | 1, 0 => rfl
  | 1, 1 => rfl

theorem lastCycle_eq :
    s.lastCycle i = ((i.sink g).valid && i.src_ready && (i.sink g).closes) := by
  rw [lastCycle, srcValid_eq i h, srcEndofpacket, srcPayload_eq i h, Sink.payload_endofpacket,
    BitVec.and_comm, and_grant i h, Sink.closes, Bool.and_assoc, Bool.and_assoc]

theorem taken_eq (j : Fin 2) :
    s.taken i j = if (i.sink g).valid && i.src_ready && decide (j = g) then [i.sink g] else [] := by
  rw [taken, sinkReady_eq i h]
  by_cases hj : j = g
  · rw [hj, decide_eq_true rfl, Bool.and_true, Bool.and_true]
  · rw [decide_eq_false hj, Bool.and_false, Bool.and_false, Bool.and_false]
    rfl

theorem moved_eq :
    s.moved i = if (i.sink g).valid && i.src_ready then [(g, i.sink g)] else [] := by
  rw [moved, owner_eq h, srcValid_eq i h]

end Granted

/-- While nobody is granted, nothing goes through. -/
theorem srcValid_of_idle {s : CommandMux} (i : Inputs) (h : s.saved_grant = 0#2) :
    s.srcValid i = false := by
  rw [srcValid, h, BitVec.zero_and]
  rfl

/-! ## One cycle -/

/-- In every cycle of a run: the register of the arbitrator is behind the one who is
granted, a packet in progress is somebody's, and the share is used up. -/
structure Inv (s : CommandMux) : Prop where
  top : ∃ k : Fin 2, s.top_priority_reg = BitVec.twoPow 2 k
  granted : s.saved_grant = 0#2 ∧ s.packet_in_progress = false
    ∨ ∃ g : Fin 2, s.saved_grant = BitVec.twoPow 2 g
      ∧ s.top_priority_reg = BitVec.twoPow 2 (g + 1 : Fin 2)
  flag : s.share_count_zero_flag = true

section Step

variable {s : CommandMux} (i : Inputs)

theorem updateGrant_eq (hs : s.Inv) :
    s.updateGrant i = (!s.packet_in_progress && !s.srcValid i || s.lastCycle i) := by
  rw [updateGrant, hs.flag, Bool.and_true]

/-- While nobody is granted, the grant is updated in every cycle. -/
theorem updateGrant_of_idle (hidle : s.saved_grant = 0#2) (hp : s.packet_in_progress = false) :
    s.updateGrant i = true := by
  rw [updateGrant, srcValid_of_idle i hidle, hp]
  rfl

theorem share_eq : s.nextGrantShare i = 0#1 := by
  rw [nextGrantShare, BitVec.zero_and, BitVec.zero_and, BitVec.or_zero]

variable {i}

/-- Without an update the grant stays. -/
theorem next_of_keep (hu : s.updateGrant i = false) :
    (s.next i).saved_grant = s.saved_grant
      ∧ (s.next i).top_priority_reg = s.top_priority_reg := by
  simp [next, MerlinArbitrator.next, hu]

/-- With an update the grant goes to nobody, or to the first who requests it. -/
theorem next_of_update {k : Fin 2} (hk : s.top_priority_reg = BitVec.twoPow 2 k)
    (hu : s.updateGrant i = true) :
    s.request i = 0#2 ∧ (s.next i).saved_grant = 0#2
        ∧ (s.next i).top_priority_reg = BitVec.twoPow 2 k
      ∨ ∃ g : Fin 2, (∀ j : Fin 2, (s.request i).getLsbD j = true → ahead 2 k g ≤ ahead 2 k j)
        ∧ (s.next i).saved_grant = BitVec.twoPow 2 g
        ∧ (s.next i).top_priority_reg = BitVec.twoPow 2 (g + 1 : Fin 2) := by
  have hsaved : (s.next i).saved_grant = grant .roundRobin (BitVec.twoPow 2 k) (s.request i) := by
    rw [← hk]
    exact if_pos hu
  have htop : (s.next i).top_priority_reg = MerlinArbitrator.next .roundRobin true
      ⟨s.request i, true, s.srcValid i⟩ (BitVec.twoPow 2 k) := by
    simp only [next, hk, hu]
  by_cases hidle : s.request i = 0#2
  · left
    refine ⟨hidle, ?_, ?_⟩
    · rw [hsaved, MerlinArbitrator.grant_eq (by decide) k.isLt, hidle]
      exact Priority.firstAround_zero
    · rw [htop, MerlinArbitrator.next, if_neg (not_not_intro hidle)]
      rfl
  · right
    obtain ⟨g, hg, -, hmin, hgrant, hnext⟩ := MerlinArbitrator.exists_next
      (by decide : MerlinArbitrator.Scheme.roundRobin ≠ .noArb) k.isLt true
      ⟨s.request i, true, s.srcValid i⟩ hidle
    refine ⟨⟨g, hg⟩, fun j => hmin j j.isLt, hsaved.trans hgrant, ?_⟩
    rw [htop, hnext, if_pos rfl, Fin.val_add]
    rfl

theorem inv_reset : reset.Inv := ⟨⟨0, rfl⟩, Or.inl ⟨rfl, rfl⟩, rfl⟩

theorem Inv.next (hs : s.Inv) : (s.next i).Inv := by
  obtain ⟨k, hk⟩ := hs.top
  have hflag : (s.next i).share_count_zero_flag = true := by
    simp [CommandMux.next, share_eq, p1ShareCount, hs.flag]
  cases hu : s.updateGrant i with
  | false =>
      obtain ⟨hsaved, htop⟩ := next_of_keep hu
      refine ⟨⟨k, htop.trans hk⟩, ?_, hflag⟩
      rw [hsaved, htop]
      refine hs.granted.imp (fun ⟨hidle, hp⟩ => ?_) id
      exact absurd (hu.symm.trans (updateGrant_of_idle i hidle hp)) Bool.false_ne_true
  | true =>
      have hp : (s.next i).packet_in_progress = false := by
        rw [updateGrant_eq i hs] at hu
        cases hl : s.lastCycle i with
        | true => simp [CommandMux.next, hl]
        | false =>
            rw [hl, Bool.or_false, Bool.and_eq_true, Bool.not_eq_true', Bool.not_eq_true'] at hu
            simp [CommandMux.next, hl, hu]
      rcases next_of_update hk hu with ⟨-, hsaved, htop⟩ | ⟨g, -, hsaved, htop⟩
      · exact ⟨⟨k, htop⟩, Or.inl ⟨hsaved, hp⟩, hflag⟩
      · exact ⟨⟨g + 1, htop⟩, Or.inr ⟨g, hsaved, htop⟩, hflag⟩

/-- What is sent is what moved. -/
theorem sent_eq (hs : s.Inv) : s.sent i = (s.moved i).map fun b => b.2.payload := by
  rcases hs.granted with ⟨hidle, -⟩ | ⟨g, hg, -⟩
  · simp [sent, moved, srcValid_of_idle i hidle]
  · rw [sent, moved_eq i hg, srcValid_eq i hg, srcPayload_eq i hg]
    split <;> rfl

/-- What a sink hands over is what moved from it. -/
theorem taken_moved (hs : s.Inv) (j : Fin 2) :
    s.taken i j = ((s.moved i).filter fun b => b.1 = j).map Prod.snd := by
  rcases hs.granted with ⟨hidle, -⟩ | ⟨g, hg, -⟩
  · simp [taken, sinkReady, moved, srcValid_of_idle i hidle, hidle]
  · rw [taken_eq i hg, moved_eq i hg]
    split
    · next h =>
        rw [Bool.and_eq_true, decide_eq_true_iff] at h
        rw [if_pos h.1, h.2]
        simp
    · next h =>
        rw [Bool.and_eq_true, decide_eq_true_iff, not_and] at h
        split
        · next hb => simp [Ne.symm (h hb)]
        · rfl

/-- A packet that is not over keeps the grant. -/
theorem next_of_open (hs : s.Inv) (hl : s.lastCycle i = false)
    (hopen : s.packet_in_progress = true ∨ s.srcValid i = true) :
    (s.next i).packet_in_progress = true ∧ (s.next i).saved_grant = s.saved_grant := by
  have hu : s.updateGrant i = false := by
    rw [updateGrant_eq i hs, hl]
    rcases hopen with h | h <;> simp [h]
  refine ⟨?_, (next_of_keep hu).1⟩
  rcases hopen with h | h <;> simp [CommandMux.next, hl, h]

section Single

variable (hs : s.Inv) (hclose : ∀ g, (i.sink g).valid = true → (i.sink g).closes = true)
  (hopen : s.packet_in_progress = true →
    ∃ g : Fin 2, s.saved_grant = BitVec.twoPow 2 g ∧ (i.sink g).valid = true)
include hs hclose hopen

/-- If every beat is a packet of its own, a packet is in progress only because the slave
was not ready for its beat. -/
theorem stalled_of_progress (hp : (s.next i).packet_in_progress = true) :
    i.src_ready = false ∧ ∃ g : Fin 2, (s.next i).saved_grant = BitVec.twoPow 2 g
      ∧ (i.sink g).valid = true := by
  have hlast : s.lastCycle i = false := by
    cases hl : s.lastCycle i with
    | false => rfl
    | true => simp [CommandMux.next, hl] at hp
  obtain ⟨g, hg, hv⟩ : ∃ g : Fin 2, s.saved_grant = BitVec.twoPow 2 g
      ∧ (i.sink g).valid = true := by
    cases hprogress : s.packet_in_progress with
    | true => exact hopen hprogress
    | false =>
        have hsrc : s.srcValid i = true := by
          simpa [CommandMux.next, hlast, hprogress] using hp
        rcases hs.granted with ⟨hidle, -⟩ | ⟨g, hg, -⟩
        · rw [srcValid_of_idle i hidle] at hsrc
          exact absurd hsrc Bool.false_ne_true
        · exact ⟨g, hg, (srcValid_eq i hg).symm.trans hsrc⟩
  have hkept := next_of_open hs hlast (Or.inr ((srcValid_eq i hg).trans hv))
  refine ⟨?_, g, hkept.2.trans hg, hv⟩
  rwa [lastCycle_eq i hg, hv, hclose g hv, Bool.true_and, Bool.and_true] at hlast

/-- Then the grant is updated whenever the slave is ready. -/
theorem updateGrant_of_ready (hready : i.src_ready = true) : s.updateGrant i = true := by
  rcases hs.granted with ⟨hidle, hp⟩ | ⟨g, hg, -⟩
  · exact updateGrant_of_idle i hidle hp
  · rw [updateGrant_eq i hs]
    cases hv : (i.sink g).valid with
    | true => rw [lastCycle_eq i hg, hv, hready, hclose g hv, Bool.and_self, Bool.and_self,
        Bool.or_true]
    | false =>
        have hp : s.packet_in_progress = false := by
          refine (Bool.not_eq_true _).mp fun hprogress => ?_
          obtain ⟨g', hg', hv'⟩ := hopen hprogress
          have hgg : g.val = g' :=
            MerlinArbitrator.twoPow_injective g.isLt g'.isLt (hg.symm.trans hg')
          rw [← Fin.ext hgg, hv] at hv'
          exact Bool.false_ne_true hv'
        rw [srcValid_eq i hg, hv, hp]
        rfl

end Single

/-- How many updates there are until sink `j` is granted. -/
def turns (s : CommandMux) (j : Fin 2) : ℕ :=
  if s.saved_grant = BitVec.twoPow 2 j then 0
  else if s.top_priority_reg = BitVec.twoPow 2 j then 1 else 2

/-- There is only one other sink. -/
theorem add_one_of_ne {g j : Fin 2} (h : g ≠ j) : g + 1 = j := by
  revert g j
  decide

theorem request_of_valid {j : Fin 2} (hvalid : (i.sink j).valid = true) :
    (s.request i).getLsbD j = true := by
  have hbit : (i.bits Sink.valid).getLsbD j = (i.sink j).valid := by
    rw [Inputs.bits]
    match j with
    | 0 => cases (i.sink 0).valid <;> cases (i.sink 1).valid <;> rfl
    | 1 => cases (i.sink 0).valid <;> cases (i.sink 1).valid <;> rfl
  rw [request, BitVec.getLsbD_or, hbit, hvalid, Bool.true_or]

theorem turns_next (hs : s.Inv) {j : Fin 2} (hvalid : (i.sink j).valid = true)
    (hwait : s.taken i j = []) :
    (s.next i).turns j + (if s.updateGrant i = true then 1 else 0) ≤ s.turns j := by
  by_cases hj : s.saved_grant = BitVec.twoPow 2 j
  · -- Who is granted keeps the grant until it is taken.
    have hready : i.src_ready = false := by
      cases h : i.src_ready with
      | false => rfl
      | true =>
          rw [taken_eq i hj, hvalid, h, decide_eq_true rfl] at hwait
          exact absurd hwait (List.cons_ne_nil _ _)
    have hl : s.lastCycle i = false := by
      rw [lastCycle_eq i hj, hready, Bool.and_false, Bool.false_and]
    have hv : s.srcValid i = true := (srcValid_eq i hj).trans hvalid
    have hu : s.updateGrant i = false := by
      rw [updateGrant_eq i hs, hl, hv, Bool.not_true, Bool.and_false, Bool.or_false]
    rw [turns, (next_of_keep hu).1, if_pos hj, hu]
    exact Nat.zero_le _
  · cases hu : s.updateGrant i with
    | false =>
        obtain ⟨hsaved, htop⟩ := next_of_keep hu
        rw [turns, hsaved, htop]
        exact Nat.le_refl _
    | true =>
        obtain ⟨k, hk⟩ := hs.top
        have hreq := request_of_valid (s := s) hvalid
        rw [if_pos rfl, turns, turns, if_neg hj]
        rcases next_of_update hk hu with ⟨hidle, -⟩ | ⟨g, hmin, hsaved, htop⟩
        · rw [hidle, BitVec.getLsbD_zero] at hreq
          exact absurd hreq Bool.false_ne_true
        · by_cases hg : g = j
          · rw [hsaved, hg, if_pos rfl]
            split <;> decide
          · have hne : s.top_priority_reg ≠ BitVec.twoPow 2 j := fun h => by
              have hkj : k.val = j :=
                MerlinArbitrator.twoPow_injective k.isLt j.isLt (hk.symm.trans h)
              have hle := hmin j hreq
              rw [hkj, Priority.ahead_self, Nat.le_zero] at hle
              exact hg (Fin.ext (Priority.eq_of_ahead_eq j.isLt g.isLt j.isLt
                (hle.trans Priority.ahead_self.symm)))
            rw [if_neg hne, htop, add_one_of_ne hg, if_pos rfl]
            split <;> decide

/-- At the end of a packet the next one is due. -/
theorem turns_of_last {j : Fin 2} (hs : s.Inv) (hl : s.lastCycle i = true) : s.turns j ≤ 1 := by
  rcases hs.granted with ⟨hidle, -⟩ | ⟨g, hg, htop⟩
  · rw [lastCycle, srcValid_of_idle i hidle] at hl
    exact absurd hl (by simp)
  · rw [turns]
    by_cases hj : g = j
    · rw [hg, hj, if_pos rfl]
      decide
    · rw [htop, add_one_of_ne hj, if_pos rfl]
      split <;> decide

end Step

/-! ## Runs -/

/-- Two beats that follow each other: the second begins something new, or it is of the
same sink. -/
def Unbroken (a b : Fin 2 × Sink) : Prop := a.2.closes = true ∨ a.1 = b.1

section Run

variable (ins : ℕ → Inputs)

theorem run_inv (n : ℕ) : (run ins n).Inv := by
  induction n with
  | zero => exact inv_reset
  | succ n ih => exact ih.next

/-- After a beat that closes nothing, its sink keeps the grant. -/
theorem grant_kept (n : ℕ) :
    ∀ b ∈ (history (fun m => (run ins m).moved (ins m)) n).getLast?, b.2.closes = false →
      (run ins n).packet_in_progress = true ∧ (run ins n).saved_grant = BitVec.twoPow 2 b.1 := by
  induction n with
  | zero => exact fun b hb => absurd hb (by simp)
  | succ n ih =>
      intro b hb hopen
      have hs := run_inv ins n
      have hstep : run ins (n + 1) = (run ins n).next (ins n) := rfl
      rw [history_succ] at hb
      rw [hstep]
      rcases hs.granted with ⟨hidle, hp⟩ | ⟨g, hg, -⟩
      · rw [moved, srcValid_of_idle (ins n) hidle, Bool.false_and, if_neg Bool.false_ne_true,
          List.append_nil] at hb
        rw [hp] at ih
        exact absurd (ih b hb hopen).1 Bool.false_ne_true
      · rw [moved_eq (ins n) hg] at hb
        have hlast := lastCycle_eq (ins n) hg
        by_cases hmove : (((ins n).sink g).valid && (ins n).src_ready) = true
        · rw [if_pos hmove, List.getLast?_concat, Option.mem_some_iff] at hb
          subst hb
          rw [hmove, hopen, Bool.and_false] at hlast
          rw [Bool.and_eq_true] at hmove
          have hkept := next_of_open hs hlast (Or.inr ((srcValid_eq (ins n) hg).trans hmove.1))
          exact ⟨hkept.1, hkept.2.trans hg⟩
        · rw [if_neg hmove, List.append_nil] at hb
          rw [Bool.eq_false_of_not_eq_true hmove, Bool.false_and] at hlast
          obtain ⟨hp, hsaved⟩ := ih b hb hopen
          have hkept := next_of_open hs hlast (Or.inl hp)
          exact ⟨hkept.1, hkept.2.trans hsaved⟩

theorem history_sent (n : ℕ) : history (fun m => (run ins m).sent (ins m)) n
    = (history (fun m => (run ins m).moved (ins m)) n).map fun b => b.2.payload := by
  rw [← history_image _ List.map_nil fun l l' => List.map_append]
  exact congrArg (history · n) (funext fun m => sent_eq (run_inv ins m))

theorem history_taken (j : Fin 2) (n : ℕ) : history (fun m => (run ins m).taken (ins m) j) n
    = ((history (fun m => (run ins m).moved (ins m)) n).filter fun b => b.1 = j).map Prod.snd := by
  rw [← history_image (F := fun l => (l.filter fun b => b.1 = j).map Prod.snd) _ rfl
    fun l l' => by rw [List.filter_append, List.map_append]]
  exact congrArg (history · n) (funext fun m => taken_moved (run_inv ins m) j)

theorem isChain_moved (n : ℕ) :
    (history (fun m => (run ins m).moved (ins m)) n).IsChain Unbroken := by
  induction n with
  | zero => exact List.isChain_nil
  | succ n ih =>
      rw [history_succ, List.isChain_append]
      refine ⟨ih, ?_, fun a ha b hb => ?_⟩
      · rw [moved]
        split <;> simp
      · cases hclose : a.2.closes with
        | true => exact Or.inl hclose
        | false =>
            have hkept := (grant_kept ins n a ha hclose).2
            rw [moved_eq (ins n) hkept] at hb
            split at hb
            · rw [List.head?_cons, Option.mem_some_iff] at hb
              exact Or.inr (by rw [← hb])
            · exact absurd hb (by simp)

/-- **Nothing is lost and no packet is broken up**: the slave gets the beats of both
masters, those of each in order, and what one of them has begun is over before the
other comes. -/
theorem packets (n : ℕ) :
    let through := history (fun m => (run ins m).moved (ins m)) n
    history (fun m => (run ins m).sent (ins m)) n = through.map (fun b => b.2.payload)
      ∧ (∀ j, history (fun m => (run ins m).taken (ins m) j) n
        = (through.filter fun b => b.1 = j).map Prod.snd)
      ∧ through.IsChain Unbroken :=
  ⟨history_sent ins n, fun j => history_taken ins j n, isChain_moved ins n⟩

end Run

section Waiting

variable {ins : ℕ → Inputs} {j : Fin 2} {m d : ℕ}

/-- **Who waits is overtaken once at most**: while a sink has a beat that is not taken,
one packet of the other comes to its end, and the grant changes twice. -/
theorem overtaken_once
    (hvalid : ∀ k < d, ((ins (m + k)).sink j).valid = true)
    (hwait : ∀ k < d, (run ins (m + k)).taken (ins (m + k)) j = []) :
    Nat.count (fun k => (run ins (m + k)).lastCycle (ins (m + k)) = true) d ≤ 1
      ∧ Nat.count (fun k => (run ins (m + k)).updateGrant (ins (m + k)) = true) d ≤ 2 := by
  have hfall : ∀ k < d, (run ins (m + (k + 1))).turns j
      + (if (run ins (m + k)).updateGrant (ins (m + k)) = true then 1 else 0)
      ≤ (run ins (m + k)).turns j :=
    fun k hk => turns_next (run_inv ins (m + k)) (hvalid k hk) (hwait k hk)
  constructor
  · have hall := Clocked.count_add_rank_le (fun k => min ((run ins (m + k)).turns j) 1)
      (P := fun k => (run ins (m + k)).lastCycle (ins (m + k)) = true) fun k hk => by
        have hs := run_inv ins (m + k)
        have hstep := hfall k hk
        by_cases hl : (run ins (m + k)).lastCycle (ins (m + k)) = true
        · have hdue := turns_of_last (j := j) hs hl
          have hu : (run ins (m + k)).updateGrant (ins (m + k)) = true := by
            rw [updateGrant_eq _ hs, hl, Bool.or_true]
          rw [if_pos hu] at hstep
          rw [if_pos hl]
          omega
        · rw [if_neg hl]
          omega
    omega
  · have hall := Clocked.count_add_rank_le (fun k => (run ins (m + k)).turns j) hfall
    have hle : (run ins (m + 0)).turns j ≤ 2 := by
      unfold turns
      split
      · decide
      · split <;> decide
    omega

/-- Both masters always have a packet of one beat. -/
def rush (_ : ℕ) : Inputs where
  sink j := ⟨true, 0, BitVec.ofNat 105 j, true, true⟩
  src_ready := true

theorem rush_granted : (run rush 1).saved_grant = 1#2 := by
  have hgrant : grant .roundRobin (BitVec.twoPow 2 0) (reset.request (rush 0)) = 1#2 :=
    (MerlinArbitrator.grant_eq (by decide) (by decide)).trans (by decide)
  have hu : reset.updateGrant (rush 0) = true := by decide
  calc (run rush 1).saved_grant
      = if reset.updateGrant (rush 0) then reset.nextGrant (rush 0) else reset.saved_grant := rfl
    _ = reset.nextGrant (rush 0) := if_pos hu
    _ = 1#2 := hgrant

theorem overtaken_once_rush :
    Nat.count (fun k => (run rush (0 + k)).lastCycle (rush (0 + k)) = true) 2 ≤ 1
      ∧ Nat.count (fun k => (run rush (0 + k)).updateGrant (rush (0 + k)) = true) 2 ≤ 2 :=
  overtaken_once (j := 1) (fun _ _ => rfl) fun k hk => by
    obtain rfl | rfl : k = 0 ∨ k = 1 := by omega
    · rfl
    · rw [taken, sinkReady, rush_granted]
      rfl

end Waiting

end CommandMux

end Ece385
