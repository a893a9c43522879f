import Ece385.Lab7.ClockCrosser
import Ece385.Lab7.CommandMux
import Ece385.Sync.Gate

/-!
# From the processor to the memory

`lab7_soc_mm_interconnect_0` wires two clock crossers and a multiplexer in series: the
commands of the two masters of the Nios II, from `cmd_demux` and `cmd_demux_001`, cross
to the clock of the SDRAM in `crosser` and `crosser_001`, and `cmd_mux_005` merges them
in front of `sdram_s1_agent`. The crossers are clocked by both clocks, the multiplexer by
that of the SDRAM.

On the clock of the SDRAM a run of the whole is a run of the multiplexer (`history_mux`), and
what a crosser hands over is what the multiplexer takes (`delivered_eq`). So what is known
of the parts adds up: the memory gets the commands of both masters, each of them once and
those of each in order, and no packet is broken up (`commands`). Commands of one beat
without a lock, and `altera_merlin_master_agent` makes no others here, do not wait for ever
either (`commands_all`): the multiplexer comes round to each crosser, and so each crosser
becomes ready again.
-/

namespace Ece385

namespace CommandPath

open CommandMux (Sink)

/-! ## The wires -/

/-- `in_payload` of `altera_avalon_st_handshake_clock_crosser`. -/
def inPayload (k : Sink) : BitVec 115 :=
  k.channel ++ BitVec.ofBool k.startofpacket ++ BitVec.ofBool k.endofpacket ++ k.data

/-- `out_payload` is split into the signals again. -/
def outSink (valid : Bool) (out_payload : BitVec 115) : Sink where
  valid := valid
  channel := out_payload.extractLsb' 107 8
  data := out_payload.extractLsb' 0 105
  startofpacket := out_payload.getLsbD 106
  endofpacket := out_payload.getLsbD 105

theorem inPayload_outSink (valid : Bool) (p : BitVec 115) : inPayload (outSink valid p) = p := by
  refine BitVec.eq_of_getLsbD_eq fun i hi => ?_
  simp only [inPayload, outSink, BitVec.getLsbD_append, BitVec.getLsbD_extractLsb',
    BitVec.getLsbD_ofBool]
  rcases Nat.lt_or_ge i 105 with hdata | hdata
  · simp [hdata]
  · obtain rfl | rfl | hchannel : i = 105 ∨ i = 106 ∨ 107 ≤ i := by omega
    · simp
    · simp
    · rw [if_neg (by omega), if_neg (by omega), if_neg (by omega), decide_eq_true (by omega),
        Bool.true_and, show 107 + (i - 105 - 1 - 1) = i by omega]

theorem outSink_inPayload (k : Sink) : outSink k.valid (inPayload k) = k := by
  obtain ⟨valid, channel, data, sop, eop⟩ := k
  simp only [outSink, CommandMux.Sink.mk.injEq, true_and]
  refine ⟨BitVec.eq_of_getLsbD_eq fun i hi => ?_, BitVec.eq_of_getLsbD_eq fun i hi => ?_, ?_, ?_⟩
  · simp only [inPayload, BitVec.getLsbD_extractLsb', BitVec.getLsbD_append, hi]
    rw [if_neg (by omega), if_neg (by omega), if_neg (by omega), decide_eq_true trivial,
      Bool.true_and, show 107 + i - 105 - 1 - 1 = i by omega]
  · simp only [inPayload, BitVec.getLsbD_extractLsb', BitVec.getLsbD_append, Nat.zero_add, hi]
    rfl
  · simp only [inPayload, BitVec.getLsbD_append, BitVec.getLsbD_ofBool]
    rfl
  · simp only [inPayload, BitVec.getLsbD_append, BitVec.getLsbD_ofBool]
    rfl

/-- Which clocks rise, the pins, and what is open in each crosser when both rise. -/
structure Instant where
  /-- `clk_0_clk_clk`. -/
  in_clk : Bool
  /-- `sdram_pll_c0_clk`. -/
  out_clk : Bool
  /-- `cmd_demux_src5` and `cmd_demux_001_src4`. -/
  command : Fin 2 → Sink
  cp_ready : Bool
  forward_sees : Fin 2 → Bool
  backward_sees : Fin 2 → Bool
  sampled : Fin 2 → BitVec 115

end CommandPath

/-- `crosser`, `crosser_001` and `cmd_mux_005`. -/
structure CommandPath where
  crosser : Fin 2 → ClockCrosser (BitVec 115)
  mux : CommandMux

namespace CommandPath

open CommandMux (Sink Unbroken)
open ClockCrosser (Synchronizers Delays chains delays_chain)
open Clocked (history history_image)

section Netlist

variable (y : Fin 2 → Synchronizers) (s : CommandPath) (c : Instant)

/-- The pins of `cmd_mux_005`. -/
def muxInputs : CommandMux.Inputs where
  sink j := outSink ((s.crosser j).outValid (y j)) (s.crosser j).out_data_buffer
  src_ready := c.cp_ready

/-- The pins of a crosser. -/
def crosserInstant (j : Fin 2) : ClockCrosser.Instant (BitVec 115) where
  in_clk := c.in_clk
  out_clk := c.out_clk
  in_valid := (c.command j).valid
  in_data := inPayload (c.command j)
  out_ready := s.mux.sinkReady (s.muxInputs y c) j
  forward_sees := c.forward_sees j
  backward_sees := c.backward_sees j
  sampled := c.sampled j

def step : CommandPath where
  crosser j := ClockCrosser.step (y j) (s.crosserInstant y c j) (s.crosser j)
  mux := if c.out_clk then s.mux.next (s.muxInputs y c) else s.mux

def reset : CommandPath where
  crosser _ := ClockCrosser.reset 0
  mux := CommandMux.reset

/-- From a reset of everything on. -/
def run (cs : ℕ → Instant) : ℕ → CommandPath := Clocked.run (fun c s => s.step y c) reset cs

/-- What a master hands over. -/
def taken (j : Fin 2) : List (BitVec 115) := (s.crosser j).taken (y j) (s.crosserInstant y c j)

/-- What goes through the multiplexer, and from whom. -/
def moved : List (Fin 2 × Sink) := if c.out_clk then s.mux.moved (s.muxInputs y c) else []

/-- What `sdram_s1_agent` gets. -/
def sent : List (BitVec 115) := if c.out_clk then s.mux.sent (s.muxInputs y c) else []

end Netlist

/-- Both clocks are one, both masters always have a command, the memory is always ready. -/
def busy (_ : ℕ) : Instant where
  in_clk := true
  out_clk := true
  command j := ⟨true, 0, BitVec.ofNat 105 j, true, true⟩
  cp_ready := true
  forward_sees _ := false
  backward_sees _ := false
  sampled _ := 0

theorem closes_busy (n : ℕ) (j : Fin 2) : ((busy n).command j).closes = true := by
  show Sink.closes ⟨true, 0, BitVec.ofNat 105 j, true, true⟩ = true
  revert j
  decide

section Run

variable {y : Fin 2 → Synchronizers} (cs : ℕ → Instant)

/-! ## The parts of a run -/

theorem crosser_run (j : Fin 2) (n : ℕ) : (run y cs n).crosser j
    = (ClockCrosser.reset 0).run (y j) (fun m => (run y cs m).crosserInstant y (cs m) j) n := by
  induction n with
  | zero => rfl
  | succ n ih => exact congrArg (ClockCrosser.step (y j) _) ih

theorem mux_succ (n : ℕ) : (run y cs (n + 1)).mux = if (cs n).out_clk then
    (run y cs n).mux.next ((run y cs n).muxInputs y (cs n)) else (run y cs n).mux := rfl

/-- The pins of the multiplexer at the edges of its clock. -/
noncomputable def muxEdges (y : Fin 2 → Synchronizers) (cs : ℕ → Instant) :
    ℕ → CommandMux.Inputs :=
  Clocked.edges (fun m => (cs m).out_clk) fun m => (run y cs m).muxInputs y (cs m)

/-- On the clock of the memory this is a run of the multiplexer. -/
theorem history_mux {α : Type*} (ev : CommandMux.Inputs → CommandMux → List α) (n : ℕ) :
    history (fun m => if (cs m).out_clk then
        ev ((run y cs m).muxInputs y (cs m)) (run y cs m).mux else []) n
      = history (fun k => ev (muxEdges y cs k) (CommandMux.run (muxEdges y cs) k))
        (Nat.count (fun m => (cs m).out_clk = true) n) :=
  Clocked.gated_history (fun i s => s.next i) (mux_succ cs) ev n

/-- What a crosser hands over is what the multiplexer takes. -/
theorem delivered_eq (s : CommandPath) (c : Instant) (j : Fin 2) :
    (s.crosser j).delivered (y j) (s.crosserInstant y c j)
      = (if c.out_clk then s.mux.taken (s.muxInputs y c) j else []).map inPayload := by
  have hready : (s.crosserInstant y c j).out_ready = s.mux.sinkReady (s.muxInputs y c) j := rfl
  have hvalid : ((s.muxInputs y c).sink j).valid = (s.crosser j).outValid (y j) := rfl
  have hword : inPayload ((s.muxInputs y c).sink j) = (s.crosser j).out_data_buffer :=
    inPayload_outSink _ _
  rw [ClockCrosser.delivered, ClockCrosser.outDataTaken, hready, CommandMux.taken, hvalid,
    Bool.and_comm (s.mux.sinkReady _ j)]
  show (if (c.out_clk && _) = true then _ else _) = _
  cases c.out_clk with
  | false => rfl
  | true =>
      rw [Bool.true_and, if_pos rfl]
      split
      · rw [List.map_singleton, hword]
      · rfl

theorem crosser_books (hy : ∀ j, Delays 2 (y j).in_to_out ∧ Delays 2 (y j).out_to_in) (j : Fin 2)
    (n : ℕ) : history (fun m => (run y cs m).taken y (cs m) j) n
      = (history (fun m => if (cs m).out_clk then
          (run y cs m).mux.taken ((run y cs m).muxInputs y (cs m)) j else []) n).map inPayload
        ++ ((run y cs n).crosser j).held := by
  have hbooks := ClockCrosser.history_taken (Nat.le_refl 2) Nat.two_pos (hy j).1 (hy j).2 0
    (fun m => (run y cs m).crosserInstant y (cs m) j) n
  simp only [← crosser_run, delivered_eq] at hbooks
  rw [history_image _ List.map_nil fun l l' => List.map_append] at hbooks
  exact hbooks

theorem history_taken (hy : ∀ j, Delays 2 (y j).in_to_out ∧ Delays 2 (y j).out_to_in) (j : Fin 2)
    (n : ℕ) : history (fun m => (run y cs m).taken y (cs m) j) n
      = (((history (fun m => (run y cs m).moved y (cs m)) n).filter fun b => b.1 = j).map
          fun b => inPayload b.2) ++ ((run y cs n).crosser j).held := by
  have hmoved : history (fun m => (run y cs m).moved y (cs m)) n = _ :=
    history_mux cs (fun i s => s.moved i) n
  rw [crosser_books cs hy j n, history_mux cs (fun i s => s.taken i j) n, hmoved,
    CommandMux.history_taken, List.map_map]
  rfl

/-- **The memory gets the commands of both masters**, whatever the two clocks do: it gets
what went through the multiplexer, this is from each master what it handed over, in order,
but for at most one word that is still in the crosser, and what one of them has begun is
over before the other comes. -/
theorem commands (hy : ∀ j, Delays 2 (y j).in_to_out ∧ Delays 2 (y j).out_to_in) (n : ℕ) :
    let through := history (fun m => (run y cs m).moved y (cs m)) n
    history (fun m => (run y cs m).sent y (cs m)) n = through.map (fun b => b.2.payload)
      ∧ (∀ j, history (fun m => (run y cs m).taken y (cs m) j) n
          = ((through.filter fun b => b.1 = j).map fun b => inPayload b.2)
            ++ ((run y cs n).crosser j).held
        ∧ ((run y cs n).crosser j).held.length ≤ 1)
      ∧ through.IsChain Unbroken := by
  have hmoved : history (fun m => (run y cs m).moved y (cs m)) n = _ :=
    history_mux cs (fun i s => s.moved i) n
  have hsent : history (fun m => (run y cs m).sent y (cs m)) n = _ :=
    history_mux cs (fun i s => s.sent i) n
  refine ⟨?_, fun j => ⟨history_taken cs hy j n, ClockCrosser.length_held_le _⟩, ?_⟩
  · rw [hsent, hmoved]
    exact CommandMux.history_sent _ _
  · rw [hmoved]
    exact CommandMux.isChain_moved _ _

theorem commands_busy :
    let y : Fin 2 → Synchronizers := fun _ => chains
    let through := history (fun m => (run y busy m).moved y (busy m)) 14
    history (fun m => (run y busy m).sent y (busy m)) 14 = through.map (fun b => b.2.payload)
      ∧ (∀ j, history (fun m => (run y busy m).taken y (busy m) j) 14
          = ((through.filter fun b => b.1 = j).map fun b => inPayload b.2)
            ++ ((run y busy 14).crosser j).held
        ∧ ((run y busy 14).crosser j).held.length ≤ 1)
      ∧ through.IsChain Unbroken :=
  commands busy (fun _ => ⟨delays_chain Nat.two_pos, delays_chain Nat.two_pos⟩) 14

end Run

/-! ## No command is left standing -/

section Progress

variable {y : Fin 2 → Synchronizers} (hy : ∀ j, Delays 2 (y j).in_to_out ∧ Delays 2 (y j).out_to_in)
  (cs : ℕ → Instant)

theorem mux_inv (n : ℕ) : (run y cs n).mux.Inv := by
  induction n with
  | zero => exact CommandMux.inv_reset
  | succ n ih =>
      rw [mux_succ]
      split
      · exact ih.next
      · exact ih

include hy

/-- A word at the exit of a crosser stays there until it is taken. -/
theorem outValid_kept {n : ℕ} {j : Fin 2} (hv : ((run y cs n).crosser j).outValid (y j) = true)
    (hno : ((cs n).out_clk && (run y cs n).mux.sinkReady ((run y cs n).muxInputs y (cs n)) j)
      = false) : ((run y cs (n + 1)).crosser j).outValid (y j) = true := by
  have hphase := ClockCrosser.phase_run (Nat.le_refl 2) Nat.two_pos (hy j).1 (hy j).2 0
    (fun m => (run y cs m).crosserInstant y (cs m) j) n
  rw [← crosser_run] at hphase
  exact ClockCrosser.outValid_step (Nat.le_refl 2) Nat.two_pos (hy j).1 (hy j).2 _ hphase hv hno

variable (hsingle : ∀ n j, ((cs n).command j).valid = true → ((cs n).command j).closes = true)
include hsingle

/-- What the multiplexer is offered is a packet of its own. -/
theorem closes_of_valid {n : ℕ} {j : Fin 2}
    (hv : ((run y cs n).crosser j).outValid (y j) = true) :
    (((run y cs n).muxInputs y (cs n)).sink j).closes = true := by
  have htaken := ClockCrosser.exists_taken (n := n) (Nat.le_refl 2) Nat.two_pos (hy j).1 (hy j).2 0
    (fun m => (run y cs m).crosserInstant y (cs m) j)
  rw [← crosser_run] at htaken
  obtain ⟨m, -, hvalid, hword⟩ := htaken hv
  have hsink : ((run y cs n).muxInputs y (cs n)).sink j = (cs m).command j := by
    show outSink (((run y cs n).crosser j).outValid (y j)) _ = _
    rw [hv, hword, ← show ((cs m).command j).valid = true from hvalid]
    exact outSink_inPayload _
  rw [hsink]
  exact hsingle m j hvalid

/-- While a packet is in progress, the crosser that is granted still has its beat. -/
theorem valid_of_progress {n : ℕ} (hp : (run y cs n).mux.packet_in_progress = true) :
    ∃ g : Fin 2, (run y cs n).mux.saved_grant = BitVec.twoPow 2 g
      ∧ ((run y cs n).crosser g).outValid (y g) = true := by
  induction n with
  | zero => exact absurd hp Bool.false_ne_true
  | succ n ih =>
      rw [mux_succ] at hp ⊢
      cases hclk : (cs n).out_clk with
      | false =>
          rw [hclk, if_neg Bool.false_ne_true] at hp
          obtain ⟨g, hg, hv⟩ := ih hp
          exact ⟨g, hg, outValid_kept hy cs hv (by rw [hclk, Bool.false_and])⟩
      | true =>
          rw [hclk, if_pos rfl] at hp
          rw [if_pos rfl]
          obtain ⟨hno, g, hg, hv⟩ := CommandMux.stalled_of_progress (mux_inv cs n)
            (fun g => closes_of_valid hy cs hsingle) ih hp
          refine ⟨g, hg, outValid_kept hy cs hv ?_⟩
          rw [CommandMux.sinkReady, hno, Bool.false_and, Bool.and_false]

/-- A word at the exit of a crosser is not left there for ever. -/
theorem exists_sinkReady
    (hout : ∀ n, ∃ m, n ≤ m ∧ (cs m).out_clk = true ∧ (cs m).cp_ready = true) (j : Fin 2) {n : ℕ}
    (hv : ∀ m, n ≤ m → ((run y cs m).crosser j).outValid (y j) = true) :
    ∃ m, n ≤ m ∧ ((cs m).out_clk
      && (run y cs m).mux.sinkReady ((run y cs m).muxInputs y (cs m)) j) = true := by
  by_contra hnever
  have hno : ∀ m, n ≤ m → (cs m).out_clk = true →
      (run y cs m).mux.sinkReady ((run y cs m).muxInputs y (cs m)) j = false := by
    intro m hm hclk
    refine (Bool.not_eq_true _).mp fun hready => hnever ⟨m, hm, ?_⟩
    rw [hclk, hready]
    rfl
  -- The grant comes nearer with every update, so there is a last one.
  have hfall : ∀ m, n ≤ m → (run y cs (m + 1)).mux.turns j ≤ (run y cs m).mux.turns j
      ∧ ((cs m).out_clk = true
        ∧ (run y cs m).mux.updateGrant ((run y cs m).muxInputs y (cs m)) = true →
          (run y cs (m + 1)).mux.turns j < (run y cs m).mux.turns j) := by
    intro m hm
    rw [mux_succ]
    cases hclk : (cs m).out_clk with
    | false =>
        rw [if_neg Bool.false_ne_true]
        exact ⟨Nat.le_refl _, fun h => absurd h.1 Bool.false_ne_true⟩
    | true =>
        have hwait : (run y cs m).mux.taken ((run y cs m).muxInputs y (cs m)) j = [] := by
          rw [CommandMux.taken, hno m hm hclk, Bool.and_false, if_neg Bool.false_ne_true]
        have hturns := CommandMux.turns_next (mux_inv cs m) (j := j) (hv m hm) hwait
        rw [if_pos rfl]
        refine ⟨(Nat.le_add_right _ _).trans hturns, fun h => ?_⟩
        rwa [if_pos h.2] at hturns
  obtain ⟨m, hm, hlast⟩ := Clocked.exists_last (fun m => (run y cs m).mux.turns j) hfall
  obtain ⟨k, hk, hclk, hready⟩ := hout m
  exact hlast k hk ⟨hclk, CommandMux.updateGrant_of_ready (mux_inv cs k)
    (fun g => closes_of_valid hy cs hsingle) (valid_of_progress hy cs hsingle) hready⟩

/-- **No command is left standing**: while both clocks go on, the memory is ready again
and again and every command is a packet of its own, each master is ready again and again
with all it has handed over gone through. -/
theorem commands_all (hin : ∀ n, ∃ m, n ≤ m ∧ (cs m).in_clk = true)
    (hout : ∀ n, ∃ m, n ≤ m ∧ (cs m).out_clk = true ∧ (cs m).cp_ready = true) (j : Fin 2) (n : ℕ) :
    ∃ m, n ≤ m ∧ ((run y cs m).crosser j).inReady (y j) = true
      ∧ history (fun k => (run y cs k).taken y (cs k) j) m
        = ((history (fun k => (run y cs k).moved y (cs k)) m).filter fun b => b.1 = j).map
          fun b => inPayload b.2 := by
  have hclk : ∀ n, ∃ m, n ≤ m ∧ (cs m).out_clk = true := fun n => by
    obtain ⟨m, hm, hclk, -⟩ := hout n
    exact ⟨m, hm, hclk⟩
  obtain ⟨m, hm, hready, hheld⟩ := ClockCrosser.exists_ready (Nat.le_refl 2) Nat.two_pos (hy j).1
    (hy j).2 0 (fun k => (run y cs k).crosserInstant y (cs k) j) hin hclk (fun n hv => by
      simp only [← crosser_run] at hv
      exact exists_sinkReady hy cs hsingle hout j hv) n
  rw [← crosser_run] at hready hheld
  refine ⟨m, hm, hready, ?_⟩
  rw [history_taken cs hy j m, hheld, List.append_nil]

omit hy hsingle in
theorem commands_all_busy :
    let y : Fin 2 → Synchronizers := fun _ => chains
    ∃ m, 14 ≤ m ∧ ((run y busy m).crosser 1).inReady (y 1) = true
      ∧ history (fun k => (run y busy k).taken y (busy k) 1) m
        = ((history (fun k => (run y busy k).moved y (busy k)) m).filter fun b => b.1 = 1).map
          fun b => inPayload b.2 :=
  commands_all (y := fun _ => chains)
    (fun _ => ⟨delays_chain Nat.two_pos, delays_chain Nat.two_pos⟩) busy
    (fun n j _ => closes_busy n j) (fun n => ⟨n, Nat.le_refl n, rfl⟩)
    (fun n => ⟨n, Nat.le_refl n, rfl, rfl⟩) 1 14

end Progress

end CommandPath

end Ece385
