import Ece385.Sync.Run
import Ece385.Sync.Stream

/-!
# The FIFOs for the responses

`altera_avalon_sc_fifo` as the agents of all slaves have it: a shift register with a bit for
each slot that is in use (`USE_MEMORY_BLOCKS` 0, `EMPTY_LATENCY` 1). New words go to
every slot that is not in use, so it takes the invariant that the bits are those below
some `c` to see that the one that counts is the first of them.
-/

namespace Ece385

/-- `mem` and `mem_used`, slot by slot; there are `FIFO_DEPTH` of them. -/
structure RspFifo (w : ℕ) where
  mem : ℕ → BitVec w
  mem_used : ℕ → Bool

namespace RspFifo

open Clocked (history)

structure Inputs (w : ℕ) where
  in_valid : Bool
  in_payload : BitVec w
  out_ready : Bool

section Netlist

variable {w : ℕ} (depth : ℕ) (s : RspFifo w) (i : Inputs w)

def empty : Bool := !s.mem_used 0

def outValid : Bool := !s.empty

def outPayload : BitVec w := s.mem 0

def internalOutReady : Bool := i.out_ready || !s.outValid

def read : Bool := s.internalOutReady i && s.outValid

/-- With one slot, a read clears `full` at once. -/
def full : Bool := if depth = 1 then s.mem_used 0 && !s.read i else s.mem_used (depth - 1)

def inReady : Bool := !s.full depth i

def write : Bool := s.inReady depth i && i.in_valid

/-- Slot `j` after the clock edge. -/
def memNext (j : ℕ) : BitVec w :=
  if j + 1 < depth then
    if s.read i || !s.mem_used j then
      if !s.mem_used (j + 1) then i.in_payload else s.mem (j + 1)
    else s.mem j
  else if depth = 1 then if s.write depth i then i.in_payload else s.mem j
  else if !s.mem_used j then i.in_payload else s.mem j

/-- Its bit. -/
def usedNext (j : ℕ) : Bool :=
  if s.write depth i ^^ s.read i then
    if j = 0 then
      if s.write depth i then true else if 1 < depth then s.mem_used 1 else false
    else if j + 1 = depth then if s.write depth i then s.mem_used (j - 1) else false
    else if s.write depth i then s.mem_used (j - 1) else s.mem_used (j + 1)
  else s.mem_used j

def next : RspFifo w where
  mem := s.memNext depth i
  mem_used := s.usedNext depth i

def reset : RspFifo w where
  mem _ := 0#w
  mem_used _ := false

/-- The FIFO `n` cycles after a reset. -/
def run (ins : ℕ → Inputs w) : ℕ → RspFifo w := Clocked.run (fun i s => s.next depth i) reset ins

/-- What it takes in a cycle. -/
def accepted : List (BitVec w) := if s.write depth i then [i.in_payload] else []

/-- What it hands over. -/
def delivered : List (BitVec w) := if s.outValid && i.out_ready then [s.outPayload] else []

/-- The words in the slots that are in use. -/
def held : List (BitVec w) :=
  ((List.range depth).filter fun j => s.mem_used j).map s.mem

end Netlist

/-! ## One cycle -/

/-- The slots below `c` are in use. -/
structure Filled {w : ℕ} (depth : ℕ) (s : RspFifo w) (c : ℕ) : Prop where
  le : c ≤ depth
  used : ∀ j < depth, s.mem_used j = decide (j < c)

section Step

variable {w depth : ℕ} {s : RspFifo w} (i : Inputs w) {c : ℕ} (hdepth : 0 < depth)
  (h : s.Filled depth c)

theorem delivered_eq : s.delivered i = if s.read i then [s.mem 0] else [] := by
  rw [delivered, read, internalOutReady, outPayload]
  cases s.outValid <;> cases i.out_ready <;> rfl

include h in
theorem Filled.held_eq : s.held depth = (List.range c).map s.mem := by
  obtain ⟨k, rfl⟩ := Nat.exists_eq_add_of_le h.le
  have hbelow : (List.range c).filter (fun j => s.mem_used j) = List.range c :=
    List.filter_eq_self.mpr fun j hj => by
      rw [List.mem_range] at hj
      rw [h.used j (by omega), decide_eq_true hj]
  have habove : ((List.range k).map (c + ·)).filter (fun j => s.mem_used j) = [] :=
    List.filter_eq_nil_iff.mpr fun j hj => by
      obtain ⟨l, hl, rfl⟩ := List.mem_map.mp hj
      rw [List.mem_range] at hl
      rw [h.used (c + l) (by omega), decide_eq_false (by omega)]
      exact Bool.false_ne_true
  rw [held, List.range_add, List.filter_append, hbelow, habove, List.append_nil]

include hdepth h

/-- A read takes a word. -/
theorem Filled.pos_of_read (hr : s.read i = true) : 0 < c := by
  rw [read, outValid, empty, Bool.not_not, Bool.and_eq_true, h.used 0 hdepth] at hr
  exact of_decide_eq_true hr.2

/-- A write has a slot, if need be the one that is read. -/
theorem Filled.slot_of_write (hw : s.write depth i = true) :
    c < depth ∨ depth = 1 ∧ s.read i = true := by
  rw [write, inReady, full, Bool.and_eq_true] at hw
  by_cases hone : depth = 1
  · rw [if_pos hone, h.used 0 hdepth] at hw
    cases hr : s.read i with
    | true => exact Or.inr ⟨hone, rfl⟩
    | false =>
        left
        simp [hr] at hw
        omega
  · rw [if_neg hone, h.used (depth - 1) (by omega)] at hw
    left
    simp at hw
    omega

theorem Filled.next : (s.next depth i).Filled depth
    (c + (if s.write depth i then 1 else 0) - (if s.read i then 1 else 0)) := by
  have hle := h.le
  have hused : ∀ j, (s.next depth i).mem_used j = s.usedNext depth i j := fun _ => rfl
  cases hr : s.read i with
  | false =>
      cases hw : s.write depth i with
      | false =>
          refine ⟨hle, fun j hj => ?_⟩
          rw [hused, usedNext, hw, hr, h.used j hj]
          rfl
      | true =>
          have hlt : c < depth := by simpa [hr] using h.slot_of_write i hdepth hw
          show (s.next depth i).Filled depth (c + 1)
          refine ⟨hlt, fun j hj => ?_⟩
          rw [hused, usedNext, hw, hr, Bool.true_xor, Bool.not_false, if_pos rfl,
            h.used (j - 1) (by omega)]
          by_cases hj0 : j = 0
          · rw [if_pos hj0, if_pos rfl, hj0, decide_eq_true (Nat.zero_lt_succ c)]
          · rw [if_neg hj0, if_pos rfl, if_pos rfl, ite_self, decide_eq_decide]
            omega
  | true =>
      have hpos := h.pos_of_read i hdepth hr
      cases hw : s.write depth i with
      | false =>
          show (s.next depth i).Filled depth (c - 1)
          refine ⟨(Nat.sub_le c 1).trans hle, fun j hj => ?_⟩
          rw [hused, usedNext, hw, hr, Bool.false_xor, if_pos rfl]
          by_cases hj0 : j = 0
          · rw [if_pos hj0, if_neg Bool.false_ne_true]
            by_cases hd : 1 < depth
            · rw [if_pos hd, h.used 1 hd, decide_eq_decide]
              omega
            · rw [if_neg hd, decide_eq_false (by omega)]
          · rw [if_neg hj0]
            by_cases hlast : j + 1 = depth
            · rw [if_pos hlast, if_neg Bool.false_ne_true, decide_eq_false (by omega)]
            · rw [if_neg hlast, if_neg Bool.false_ne_true, h.used (j + 1) (by omega),
                decide_eq_decide]
              omega
      | true =>
          refine ⟨hle, fun j hj => ?_⟩
          rw [hused, usedNext, hw, hr, h.used j hj]
          rfl

/-- Without a read the words stay where they are. -/
theorem Filled.mem_keep (hr : s.read i = false) {j : ℕ} (hj : j < c) :
    (s.next depth i).mem j = s.mem j := by
  have hle := h.le
  have hmem : (s.next depth i).mem j = s.memNext depth i j := rfl
  rw [hmem, memNext, hr, h.used j (by omega), decide_eq_true hj]
  by_cases hlast : j + 1 < depth
  · simp [hlast]
  · by_cases hone : depth = 1
    · have hw : s.write depth i = false := Bool.eq_false_of_not_eq_true fun hw => by
        have hslot := h.slot_of_write i hdepth hw
        rw [hr] at hslot
        simp at hslot
        omega
      subst hone
      simp [hw]
    · simp [hlast, hone]

omit hdepth in
/-- With a read they move on. -/
theorem Filled.mem_shift (hr : s.read i = true) {j : ℕ} (hj : j + 1 < c) :
    (s.next depth i).mem j = s.mem (j + 1) := by
  have hle := h.le
  have hmem : (s.next depth i).mem j = s.memNext depth i j := rfl
  rw [hmem, memNext, if_pos (by omega), hr, h.used (j + 1) (by omega), decide_eq_true hj]
  rfl

/-- What is accepted comes to the first slot that is free. -/
theorem Filled.mem_new (hw : s.write depth i = true) :
    (s.next depth i).mem (c - (if s.read i then 1 else 0)) = i.in_payload := by
  have hslot := h.slot_of_write i hdepth hw
  have hmem : ∀ j, (s.next depth i).mem j = s.memNext depth i j := fun _ => rfl
  rw [hmem, memNext, hw]
  cases hr : s.read i with
  | false =>
      have hlt : c < depth := by simpa [hr] using hslot
      rw [if_neg Bool.false_ne_true, Nat.sub_zero, h.used c hlt]
      by_cases hlast : c + 1 < depth
      · simp [hlast, h.used (c + 1) hlast]
      · simp [hlast]
  | true =>
      have hpos := h.pos_of_read i hdepth hr
      rw [if_pos rfl, Nat.sub_add_cancel hpos]
      rcases hslot with hlt | ⟨hone, -⟩
      · simp [hlt, h.used c hlt]
      · have hle := h.le
        simp [hone]
        omega

theorem Filled.held_next :
    s.held depth ++ s.accepted depth i = s.delivered i ++ (s.next depth i).held depth := by
  rw [h.held_eq, (h.next i hdepth).held_eq, delivered_eq, accepted]
  have hnew := h.mem_new i hdepth
  cases hr : s.read i with
  | false =>
      have hkeep : (List.range c).map (s.next depth i).mem = (List.range c).map s.mem :=
        List.map_congr_left fun j hj => h.mem_keep i hdepth hr (List.mem_range.mp hj)
      cases hw : s.write depth i with
      | false => simp [hkeep]
      | true =>
          have hword : (s.next depth i).mem c = i.in_payload := by simpa [hr] using hnew hw
          simp [List.range_succ, hkeep, hword]
  | true =>
      have hpos := h.pos_of_read i hdepth hr
      obtain ⟨d, rfl⟩ := Nat.exists_eq_add_of_lt hpos
      rw [Nat.zero_add] at h ⊢
      have hshift : (List.range d).map (s.next depth i).mem
          = (List.range d).map fun j => s.mem (j + 1) :=
        List.map_congr_left fun j hj => by
          rw [List.mem_range] at hj
          exact h.mem_shift i hr (Nat.succ_lt_succ hj)
      have hhead : (List.range (d + 1)).map s.mem
          = s.mem 0 :: (List.range d).map fun j => s.mem (j + 1) := by
        rw [List.range_succ_eq_map, List.map_cons, List.map_map]
        rfl
      cases hw : s.write depth i with
      | false => simp [hshift, hhead]
      | true =>
          have hword : (s.next depth i).mem d = i.in_payload := by simpa [hr] using hnew hw
          rw [hhead]
          simp [List.range_succ, hshift, hword]

end Step

/-! ## Runs -/

section Run

variable {w depth : ℕ} (hdepth : 0 < depth) (ins : ℕ → Inputs w)
include hdepth

theorem exists_filled (n : ℕ) : ∃ c, (run depth ins n).Filled depth c := by
  induction n with
  | zero => exact ⟨0, Nat.zero_le _, fun _ _ => rfl⟩
  | succ n ih =>
      obtain ⟨c, hc⟩ := ih
      exact ⟨_, hc.next (ins n) hdepth⟩

theorem held_run (n : ℕ) :
    (run depth ins n).held depth ++ (run depth ins n).accepted depth (ins n)
      = (run depth ins n).delivered (ins n) ++ (run depth ins (n + 1)).held depth := by
  obtain ⟨c, hc⟩ := exists_filled hdepth ins n
  exact hc.held_next (ins n) hdepth

omit hdepth in
theorem held_reset : (run depth ins 0).held depth = [] := by
  rw [(⟨Nat.zero_le _, fun _ _ => rfl⟩ : (run depth ins 0).Filled depth 0).held_eq]
  rfl

theorem length_held_le (n : ℕ) : ((run depth ins n).held depth).length ≤ depth := by
  obtain ⟨c, hc⟩ := exists_filled hdepth ins n
  rw [hc.held_eq, List.length_map, List.length_range]
  exact hc.le

theorem outValid_iff (n : ℕ) :
    (run depth ins n).outValid = true ↔ (run depth ins n).held depth ≠ [] := by
  obtain ⟨c, hc⟩ := exists_filled hdepth ins n
  rw [hc.held_eq, outValid, empty, hc.used 0 hdepth]
  cases c <;> simp

/-- It only refuses a word when all slots are in use. -/
theorem length_held_of_full {n : ℕ} (hfull : (run depth ins n).inReady depth (ins n) = false) :
    ((run depth ins n).held depth).length = depth := by
  obtain ⟨c, hc⟩ := exists_filled hdepth ins n
  have hle := hc.le
  rw [hc.held_eq, List.length_map, List.length_range]
  rw [inReady, full, hc.used 0 hdepth, hc.used (depth - 1) (by omega)] at hfull
  by_cases hone : depth = 1
  · simp [hone] at hfull
    omega
  · simp [hone] at hfull
    omega

/-- **First in, first out**: what was taken is what was handed over and then what is in the
slots; there is a word at the exit if there is one at all, and a slot unless all of them
are in use. -/
theorem responses_in_order (n : ℕ) :
    history (fun m => (run depth ins m).accepted depth (ins m)) n
        = history (fun m => (run depth ins m).delivered (ins m)) n ++ (run depth ins n).held depth
      ∧ ((run depth ins n).held depth).length ≤ depth
      ∧ ((run depth ins n).outValid = true ↔ (run depth ins n).held depth ≠ [])
      ∧ ((run depth ins n).inReady depth (ins n) = false
        → ((run depth ins n).held depth).length = depth) := by
  have hstream := Clocked.history_eq _ (held_run hdepth ins) (held_reset ins) n
  exact ⟨hstream, length_held_le hdepth ins n, outValid_iff hdepth ins n,
    length_held_of_full hdepth ins⟩

/-- A word comes in every cycle. -/
def flow (n : ℕ) : Inputs 108 := ⟨true, BitVec.ofNat 108 n, true⟩

omit hdepth in
theorem responses_in_order_flow :
    history (fun m => (run 8 flow m).accepted 8 (flow m)) 5
        = history (fun m => (run 8 flow m).delivered (flow m)) 5 ++ (run 8 flow 5).held 8
      ∧ ((run 8 flow 5).held 8).length ≤ 8
      ∧ ((run 8 flow 5).outValid = true ↔ (run 8 flow 5).held 8 ≠ [])
      ∧ ((run 8 flow 5).inReady 8 (flow 5) = false → ((run 8 flow 5).held 8).length = 8) :=
  responses_in_order (by decide) flow 5

/-- **Everything comes out**: a word a cycle, if the reader is ready. -/
theorem responses_drained {n : ℕ} (hready : ∀ m, n ≤ m → (ins m).out_ready = true) :
    history (fun m => (run depth ins m).accepted depth (ins m)) n
      <+: history (fun m => (run depth ins m).delivered (ins m)) (n + depth) := by
  have hnow : ∀ m, n ≤ m → (run depth ins m).held depth ≠ [] →
      ∃ k ≤ 0, (run depth ins (m + k)).delivered (ins (m + k)) ≠ [] := fun m hm hheld => by
    refine ⟨0, Nat.le_refl 0, ?_⟩
    rw [Nat.add_zero, delivered, (outValid_iff hdepth ins m).mpr hheld, hready m hm]
    exact List.cons_ne_nil _ _
  have hall := Clocked.history_drains _ (held_run hdepth ins) (held_reset ins) hnow
    (length_held_le hdepth ins n)
  rwa [Nat.zero_add, Nat.mul_one] at hall

omit hdepth in
theorem responses_drained_flow :
    history (fun m => (run 8 flow m).accepted 8 (flow m)) 5
      <+: history (fun m => (run 8 flow m).delivered (flow m)) (5 + 8) :=
  responses_drained (by decide) flow fun _ _ => rfl

end Run

end RspFifo

end Ece385
