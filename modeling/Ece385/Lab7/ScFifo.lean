import Ece385.Sync.RingBuffer
import Ece385.Sync.Run
import Ece385.Sync.Stream

/-!
# The FIFO for what is read from the SDRAM

`altera_avalon_sc_fifo` as `sdram_s1_agent_rdata_fifo` has it: a memory block, an output
register behind it (`EMPTY_LATENCY` 3), no store and forward. The memory is a ring
buffer (`RingBuffer.window`), and its word at `rd_ptr` stands in `internal_out_payload` one cycle
ahead of a read. So what comes out is what went in, in order, and never more than the memory
and the output register are under way (`in_order`); and all of it comes out
(`drained`).
-/

namespace Ece385

/-- The registers; `FIFO_DEPTH` is `2 ^ (a + 1)`, as pointers of no bits do not exist. -/
structure ScFifo (a w : ℕ) where
  mem : BitVec (a + 1) → BitVec w
  wr_ptr : BitVec (a + 1)
  rd_ptr : BitVec (a + 1)
  empty : Bool
  full : Bool
  internal_out_payload : BitVec w
  internal_out_valid : Bool
  out_payload : BitVec w
  out_valid : Bool

namespace ScFifo

open RingBuffer (window)
open Clocked (history)

structure Inputs (w : ℕ) where
  in_valid : Bool
  in_payload : BitVec w
  out_ready : Bool

section Netlist

variable {a w : ℕ} (s : ScFifo a w) (i : Inputs w)

def inReady : Bool := !s.full

def internalOutReady : Bool := i.out_ready || !s.out_valid

def read : Bool := s.internalOutReady i && s.internal_out_valid

def write : Bool := s.inReady && i.in_valid

def incrementedWrPtr : BitVec (a + 1) := s.wr_ptr + 1#(a + 1)

def incrementedRdPtr : BitVec (a + 1) := s.rd_ptr + 1#(a + 1)

def nextWrPtr : BitVec (a + 1) := if s.write i then s.incrementedWrPtr else s.wr_ptr

def nextRdPtr : BitVec (a + 1) := if s.read i then s.incrementedRdPtr else s.rd_ptr

def nextFull : Bool :=
  if s.write i && !s.read i then
    if s.incrementedWrPtr = s.rd_ptr then true else s.full
  else if s.read i && !s.write i then false
  else s.full

def nextEmpty : Bool :=
  if s.write i && !s.read i then false
  else if s.read i && !s.write i then
    if s.incrementedRdPtr = s.wr_ptr then true else s.empty
  else s.empty

def next : ScFifo a w where
  mem := if s.write i then Function.update s.mem s.wr_ptr i.in_payload else s.mem
  wr_ptr := s.nextWrPtr i
  rd_ptr := s.nextRdPtr i
  empty := s.nextEmpty i
  full := s.nextFull i
  -- The memory gives the word from before the write.
  internal_out_payload := s.mem (s.nextRdPtr i)
  internal_out_valid :=
    if s.read i then if s.incrementedRdPtr = s.wr_ptr then false else !s.empty else !s.empty
  out_payload := if s.internalOutReady i then s.internal_out_payload else s.out_payload
  out_valid := if s.internalOutReady i then s.internal_out_valid else s.out_valid

/-- The memory and its output are not reset. -/
def reset (mem : BitVec (a + 1) → BitVec w) (q : BitVec w) : ScFifo a w where
  mem := mem
  wr_ptr := 0#(a + 1)
  rd_ptr := 0#(a + 1)
  empty := true
  full := false
  internal_out_payload := q
  internal_out_valid := false
  out_payload := 0#w
  out_valid := false

/-- The FIFO `n` cycles after a reset. -/
def run (mem : BitVec (a + 1) → BitVec w) (q : BitVec w) (ins : ℕ → Inputs w) : ℕ → ScFifo a w :=
  Clocked.run (fun i s => s.next i) (reset mem q) ins

/-- What it takes in a cycle. -/
def accepted : List (BitVec w) := if s.write i then [i.in_payload] else []

/-- What it hands over. -/
def delivered : List (BitVec w) := if s.out_valid && i.out_ready then [s.out_payload] else []

/-- What stands in the output register. -/
def output : List (BitVec w) := if s.out_valid then [s.out_payload] else []

/-- How many words are in the memory. -/
def fill : ℕ := if s.full then 2 ^ (a + 1) else (s.wr_ptr - s.rd_ptr).toNat

/-- What is under way, the oldest word first. -/
def held : List (BitVec w) := s.output ++ window s.mem s.rd_ptr s.fill

end Netlist

/-! ## One cycle -/

/-- There are `c` words in the memory, and the pointers and flags say so. -/
structure Filled {a w : ℕ} (s : ScFifo a w) (c : ℕ) : Prop where
  le : c ≤ 2 ^ (a + 1)
  wr : s.wr_ptr = s.rd_ptr + BitVec.ofNat (a + 1) c
  empty : s.empty = decide (c = 0)
  full : s.full = decide (c = 2 ^ (a + 1))
  ahead : s.internal_out_valid = true → c ≠ 0 ∧ s.internal_out_payload = s.mem s.rd_ptr

section Step

variable {a w : ℕ} {s : ScFifo a w} (i : Inputs w) {c : ℕ}

theorem Filled.fill_eq (h : s.Filled c) : s.fill = c := by
  rw [fill, h.full, h.wr, BitVec.add_comm, BitVec.add_sub_cancel, BitVec.toNat_ofNat]
  have hle := h.le
  by_cases hc : c = 2 ^ (a + 1)
  · rw [decide_eq_true hc, if_pos rfl, hc]
  · rw [decide_eq_false hc, if_neg Bool.false_ne_true, Nat.mod_eq_of_lt (by omega)]

variable (h : s.Filled c)
include h

theorem Filled.write_eq : s.write i = (i.in_valid && decide (c < 2 ^ (a + 1))) := by
  have hle := h.le
  rw [write, inReady, h.full, Bool.and_comm, ← decide_not]
  congr 2
  simp only [eq_iff_iff]
  omega

/-- The read pointer comes up with the write pointer when one word is left. -/
theorem Filled.last_word (hc : c ≠ 0) : s.incrementedRdPtr = s.wr_ptr ↔ c = 1 := by
  rw [incrementedRdPtr, h.wr]
  have hinj := RingBuffer.add_ofNat_inj_of_pos s.rd_ptr Nat.one_pos Nat.one_le_two_pow
    (Nat.pos_of_ne_zero hc) h.le
  exact hinj.trans eq_comm

/-- The write pointer comes up with the read pointer when one word is free. -/
theorem Filled.last_free (hc : c < 2 ^ (a + 1)) :
    s.incrementedWrPtr = s.rd_ptr ↔ c + 1 = 2 ^ (a + 1) := by
  have hinj := RingBuffer.add_ofNat_inj_of_pos s.rd_ptr (Nat.zero_lt_succ c) hc
    (Nat.two_pow_pos (a + 1)) (Nat.le_refl (2 ^ (a + 1)))
  rw [RingBuffer.add_ofNat_whole, Nat.succ_eq_add_one, BitVec.ofNat_add, ← BitVec.add_assoc] at hinj
  rw [incrementedWrPtr, h.wr]
  exact hinj

/-- A read takes a word from the memory. -/
theorem Filled.pos_of_read (hr : s.read i = true) : 0 < c := by
  rw [read, Bool.and_eq_true] at hr
  exact Nat.pos_of_ne_zero (h.ahead hr.2).1

theorem Filled.lt_of_write (hw : s.write i = true) : c < 2 ^ (a + 1) := by
  rw [h.write_eq, Bool.and_eq_true] at hw
  exact of_decide_eq_true hw.2

theorem Filled.rd_ne_wr (hc : c ≠ 0) (hlt : c < 2 ^ (a + 1)) : s.rd_ptr ≠ s.wr_ptr := fun hptr => by
  rw [h.wr] at hptr
  have hmod : 0 % 2 ^ (a + 1) = c % 2 ^ (a + 1) :=
    (RingBuffer.add_ofNat_inj s.rd_ptr).mp ((BitVec.add_zero _).trans hptr)
  rw [Nat.zero_mod, Nat.mod_eq_of_lt hlt] at hmod
  exact hc hmod.symm

omit h in
theorem mem_next_of_ne {p : BitVec (a + 1)} (hp : s.write i = true → p ≠ s.wr_ptr) :
    (s.next i).mem p = s.mem p := by
  cases hw : s.write i with
  | false => simp [ScFifo.next, hw]
  | true =>
      have hmem : (s.next i).mem = Function.update s.mem s.wr_ptr i.in_payload := if_pos hw
      rw [hmem, Function.update_of_ne (hp hw)]

/-- The word that will be read next does not change in this cycle. -/
theorem Filled.mem_next (hv : (s.next i).internal_out_valid = true) :
    (s.next i).mem (s.nextRdPtr i) = s.mem (s.nextRdPtr i) := by
  refine mem_next_of_ne i fun hw => ?_
  have hlt := h.lt_of_write i hw
  cases hr : s.read i with
  | true =>
      rw [nextRdPtr, hr, if_pos rfl]
      exact fun hptr => by simp [ScFifo.next, hr, hptr] at hv
  | false =>
      rw [nextRdPtr, hr, if_neg Bool.false_ne_true]
      exact h.rd_ne_wr (fun hc => by simp [ScFifo.next, hr, h.empty, hc] at hv) hlt

theorem Filled.next : (s.next i).Filled
    (c + (if s.write i then 1 else 0) - (if s.read i then 1 else 0)) := by
  have hle := h.le
  have hahead : (s.next i).internal_out_valid = true →
      (s.next i).internal_out_payload = (s.next i).mem (s.next i).rd_ptr :=
    fun hv => (h.mem_next i hv).symm
  cases hr : s.read i with
  | false =>
      cases hw : s.write i with
      | false =>
          refine ⟨hle, ?_, ?_, ?_, fun hv => ⟨?_, hahead hv⟩⟩
          · simp [ScFifo.next, nextWrPtr, nextRdPtr, hr, hw, h.wr]
          · simp [ScFifo.next, nextEmpty, hr, hw, h.empty]
          · simp [ScFifo.next, nextFull, hr, hw, h.full]
          · simpa [ScFifo.next, hr, h.empty] using hv
      | true =>
          have hlt := h.lt_of_write i hw
          have hfree := h.last_free hlt
          refine ⟨hlt, ?_, ?_, ?_, fun hv => ⟨c.succ_ne_zero, hahead hv⟩⟩
          · simp [ScFifo.next, nextWrPtr, nextRdPtr, hr, hw, incrementedWrPtr, h.wr,
              BitVec.ofNat_add, BitVec.add_assoc]
          · simp [ScFifo.next, nextEmpty, hr, hw]
          · simp [ScFifo.next, nextFull, hr, hw, h.full, hfree, hlt.ne]
  | true =>
      have hpos := h.pos_of_read i hr
      have hlast := h.last_word hpos.ne'
      obtain ⟨d, rfl⟩ := Nat.exists_eq_add_of_lt hpos
      rw [Nat.zero_add] at h hle hlast ⊢
      cases hw : s.write i with
      | false =>
          refine ⟨Nat.le_of_succ_le hle, ?_, ?_, ?_, fun hv => ⟨fun hd => ?_, hahead hv⟩⟩
          · simp [ScFifo.next, nextWrPtr, nextRdPtr, hr, hw, incrementedRdPtr, h.wr,
              RingBuffer.add_succ s.rd_ptr d]
          · simp [ScFifo.next, nextEmpty, hr, hw, hlast, h.empty]
          · simp [ScFifo.next, nextFull, hr, hw]
            omega
          · simp at hd
            simp [ScFifo.next, hr, hlast, hd] at hv
      | true =>
          have hlt := h.lt_of_write i hw
          refine ⟨hle, ?_, ?_, ?_, fun hv => ⟨d.succ_ne_zero, hahead hv⟩⟩
          · simp [ScFifo.next, nextWrPtr, nextRdPtr, hr, hw, incrementedWrPtr,
              incrementedRdPtr, h.wr, BitVec.add_assoc, BitVec.add_comm 1#(a + 1)]
          · simp [ScFifo.next, nextEmpty, hr, hw, h.empty]
          · simp [ScFifo.next, nextFull, hr, hw, h.full]

/-- The output register takes what is read once it has handed over what it has. -/
theorem Filled.output_next :
    s.output ++ (if s.read i then [s.mem s.rd_ptr] else [])
      = s.delivered i ++ (s.next i).output := by
  cases hv : s.internal_out_valid with
  | false =>
      cases ho : s.out_valid <;> cases hy : i.out_ready <;>
        simp [output, delivered, ScFifo.next, read, internalOutReady, hv, ho, hy]
  | true =>
      have hword := (h.ahead hv).2
      cases ho : s.out_valid <;> cases hy : i.out_ready <;>
        simp [output, delivered, ScFifo.next, read, internalOutReady, hv, ho, hy, hword]

/-- The memory takes what is accepted, and gives what is read. -/
theorem Filled.window_next :
    window s.mem s.rd_ptr c ++ s.accepted i
      = (if s.read i then [s.mem s.rd_ptr] else [])
        ++ window (s.next i).mem (s.next i).rd_ptr (s.next i).fill := by
  rw [(h.next i).fill_eq]
  -- First the write behind the window, then the read in front of it.
  have hpush : window s.mem s.rd_ptr c ++ s.accepted i
      = window (s.next i).mem s.rd_ptr (c + if s.write i then 1 else 0) := by
    cases hw : s.write i with
    | false => simp [accepted, ScFifo.next, hw]
    | true =>
        have hmem : (s.next i).mem = Function.update s.mem s.wr_ptr i.in_payload := if_pos hw
        rw [hmem, h.wr, accepted, hw, if_pos rfl, if_pos rfl,
          RingBuffer.window_push s.mem s.rd_ptr (h.lt_of_write i hw)]
  rw [hpush]
  cases hr : s.read i with
  | false =>
      have hrd : (s.next i).rd_ptr = s.rd_ptr := by simp [ScFifo.next, nextRdPtr, hr]
      rw [hrd]
      rfl
  | true =>
      have hrd : (s.next i).rd_ptr = s.rd_ptr + 1#(a + 1) := by
        simp [ScFifo.next, nextRdPtr, incrementedRdPtr, hr]
      have hpos := h.pos_of_read i hr
      have hsucc : c + (if s.write i then 1 else 0)
          = c + (if s.write i then 1 else 0) - 1 + 1 := by omega
      have hword : (s.next i).mem s.rd_ptr = s.mem s.rd_ptr :=
        mem_next_of_ne i fun hw => h.rd_ne_wr hpos.ne' (h.lt_of_write i hw)
      rw [hrd, hsucc, RingBuffer.window_succ, hword]
      rfl

/-- Nothing is lost in a cycle, and nothing overtakes. -/
theorem Filled.held_next : s.held ++ s.accepted i = s.delivered i ++ (s.next i).held := by
  rw [held, h.fill_eq, List.append_assoc, h.window_next i, ← List.append_assoc, h.output_next i,
    List.append_assoc, held]

omit h

theorem delivered_ne_nil {i : Inputs w} (hout : s.out_valid = true) (hready : i.out_ready = true) :
    s.delivered i ≠ [] := by
  rw [delivered, hout, hready, Bool.and_self, if_pos rfl]
  exact List.cons_ne_nil _ _

theorem out_valid_next {i : Inputs w} (hready : i.out_ready = true) :
    (s.next i).out_valid = s.internal_out_valid := by
  simp [ScFifo.next, internalOutReady, hready]

end Step

/-! ## Runs -/

section Run

variable {a w : ℕ} (mem : BitVec (a + 1) → BitVec w) (q : BitVec w) (ins : ℕ → Inputs w)

theorem exists_filled (n : ℕ) : ∃ c, (run mem q ins n).Filled c := by
  induction n with
  | zero =>
      refine ⟨0, Nat.zero_le _, rfl, rfl, ?_, fun hv => absurd hv Bool.false_ne_true⟩
      exact (decide_eq_false (Nat.two_pow_pos (a + 1)).ne).symm
  | succ n ih =>
      obtain ⟨c, hc⟩ := ih
      exact ⟨_, hc.next (ins n)⟩

theorem held_run (n : ℕ) :
    (run mem q ins n).held ++ (run mem q ins n).accepted (ins n)
      = (run mem q ins n).delivered (ins n) ++ (run mem q ins (n + 1)).held := by
  obtain ⟨c, hc⟩ := exists_filled mem q ins n
  exact hc.held_next (ins n)

theorem held_reset : (run mem q ins 0).held = [] := by
  show ([] : List (BitVec w)) ++ window mem 0#(a + 1)
    (if false then 2 ^ (a + 1) else (0#(a + 1) - 0#(a + 1)).toNat) = []
  simp [RingBuffer.window_zero]

theorem length_held_le (n : ℕ) : (run mem q ins n).held.length ≤ 2 ^ (a + 1) + 1 := by
  obtain ⟨c, hc⟩ := exists_filled mem q ins n
  have hle := hc.le
  rw [held, hc.fill_eq, List.length_append, RingBuffer.length_window, output]
  split <;> simp <;> omega

/-- **First in, first out**: what was taken is what was handed over and then what is under
way, which is no more than there is room for. -/
theorem in_order (n : ℕ) :
    history (fun m => (run mem q ins m).accepted (ins m)) n
        = history (fun m => (run mem q ins m).delivered (ins m)) n ++ (run mem q ins n).held
      ∧ (run mem q ins n).held.length ≤ 2 ^ (a + 1) + 1
      ∧ ((run mem q ins n).inReady = false → 2 ^ (a + 1) ≤ (run mem q ins n).held.length) := by
  have hstream := Clocked.history_eq _ (held_run mem q ins) (held_reset mem q ins) n
  refine ⟨hstream, length_held_le mem q ins n, fun hfull => ?_⟩
  obtain ⟨c, hc⟩ := exists_filled mem q ins n
  rw [inReady, hc.full, Bool.not_eq_false', decide_eq_true_iff] at hfull
  rw [held, hc.fill_eq, List.length_append, RingBuffer.length_window, hfull]
  exact Nat.le_add_left _ _

/-- **Everything comes out**: three cycles a word, if the reader is ready. -/
theorem drained {n : ℕ} (hready : ∀ m, n ≤ m → (ins m).out_ready = true) :
    history (fun m => (run mem q ins m).accepted (ins m)) n
      <+: history (fun m => (run mem q ins m).delivered (ins m)) (n + (2 ^ (a + 1) + 1) * 3) := by
  refine Clocked.history_drains _ (held_run mem q ins) (held_reset mem q ins) (fun m hm hheld => ?_)
    (length_held_le mem q ins n)
  obtain ⟨c, hc⟩ := exists_filled mem q ins m
  have hstep : ∀ k, run mem q ins (k + 1) = (run mem q ins k).next (ins k) := fun _ => rfl
  cases hout : (run mem q ins m).out_valid with
  | true => exact ⟨0, by omega, delivered_ne_nil hout (hready m hm)⟩
  | false =>
      cases hint : (run mem q ins m).internal_out_valid with
      | true =>
          refine ⟨1, by omega, delivered_ne_nil ?_ (hready (m + 1) (by omega))⟩
          rw [hstep, out_valid_next (hready m hm), hint]
      | false =>
          -- Two more cycles: to the output of the memory, and to the register.
          have hne : c ≠ 0 := fun h0 => by
            rw [held, hc.fill_eq, h0, RingBuffer.window_zero, output, hout,
              if_neg Bool.false_ne_true] at hheld
            exact hheld rfl
          refine ⟨2, by omega, delivered_ne_nil ?_ (hready (m + 2) (by omega))⟩
          rw [hstep, out_valid_next (hready (m + 1) (by omega)), hstep]
          simp [next, read, hint, hc.empty, hne]

/-- A word comes in every cycle. -/
def flow (n : ℕ) : Inputs 34 := ⟨true, BitVec.ofNat 34 n, true⟩

theorem drained_flow :
    history (fun m => (run (a := 2) (fun _ => 0) 0 flow m).accepted (flow m)) 5
      <+: history (fun m => (run (a := 2) (fun _ => 0) 0 flow m).delivered (flow m)) (5 + 9 * 3) :=
  drained _ _ flow fun _ _ => rfl

end Run

end ScFifo

end Ece385
