import Mathlib.Tactic.Choose
import Ece385.Arith.Priority
import Ece385.Sync.Run
import Ece385.Sync.Stream

/-!
# The arbitrator of the interconnect

`altera_merlin_arbitrator`, with its adder and all its schemes, for any number of
requesters. The grant is the first requester from the set bit of
`top_priority_reg` on (`grant_eq`), and an update puts the one who was granted last in
the circle. So exactly one of those who request is granted (`grants_one`), and in the
round-robin scheme nobody who keeps requesting is passed over more often than there are
others (`served`).
-/

namespace Ece385

/-- `altera_merlin_arb_adder`: full adders up to eight bits, a carry chain above. -/
def arbAdder {w : ℕ} (a b : BitVec w) : BitVec w :=
  if w ≤ 8 then
    (BitVec.iunfoldr (fun (i : Fin w) cout =>
      let a_i := a.getLsbD i
      let b_i := b.getLsbD i
      if i.val = 0 then (a_i && b_i, a_i ^^ b_i)
      else ((a_i && b_i) || (cout && (a_i ^^ b_i)), (a_i ^^ b_i) ^^ cout)) false).2
  else (a.setWidth (w + 1) + b.setWidth (w + 1)).extractLsb' 0 w

theorem arbAdder_eq {w : ℕ} (a b : BitVec w) : arbAdder a b = a + b := by
  unfold arbAdder
  split
  · refine BitVec.iunfoldr_replace_snd (fun i => BitVec.carry i a b false) (a + b) false
      BitVec.carry_zero fun i => ?_
    have hsum : (a + b)[i.val]
        = (a.getLsbD i ^^ (b.getLsbD i ^^ BitVec.carry i a b false)) := by
      rw [← BitVec.getLsbD_eq_getElem, BitVec.getLsbD_add i.isLt]
    rw [hsum, BitVec.carry_succ]
    by_cases hi : i.val = 0
    · rw [if_pos hi, hi, BitVec.carry_zero]
      cases a.getLsbD 0 <;> cases b.getLsbD 0 <;> rfl
    · rw [if_neg hi]
      cases a.getLsbD i <;> cases b.getLsbD i <;> cases BitVec.carry i a b false <;> rfl
  · refine BitVec.eq_of_toNat_eq ?_
    have ha := a.isLt
    have hb := b.isLt
    have hw : 2 ^ (w + 1) = 2 * 2 ^ w := Nat.pow_succ'
    simp only [BitVec.extractLsb'_toNat, BitVec.toNat_add, BitVec.toNat_setWidth,
      Nat.shiftRight_zero]
    rw [Nat.mod_eq_of_lt (by omega : a.toNat < 2 ^ (w + 1)),
      Nat.mod_eq_of_lt (by omega : b.toNat < 2 ^ (w + 1)),
      Nat.mod_eq_of_lt (by omega : a.toNat + b.toNat < 2 ^ (w + 1))]

namespace MerlinArbitrator

open Priority

/-- `SCHEME`. -/
inductive Scheme where
  | roundRobin | fixedPriority | noArb
deriving DecidableEq

structure Inputs (n : ℕ) where
  request : BitVec n
  increment_top_priority : Bool
  save_top_priority : Bool

section Netlist

variable {n : ℕ} (scheme : Scheme) (pipeline : Bool)

/-- `top_priority`, from `top_priority_reg`. -/
def topPriority (top_priority_reg : BitVec n) : BitVec n :=
  if scheme = .roundRobin ∧ 1 < n then top_priority_reg else 1#n

def grant (top_priority_reg request : BitVec n) : BitVec n :=
  let result := arbAdder (~~~request ++ ~~~request) (0#n ++ topPriority scheme top_priority_reg)
  if scheme = .noArb then request
  else
    let grant_double_vector := (request ++ request) &&& result
    grant_double_vector.extractLsb' 0 n ||| grant_double_vector.extractLsb' n n

/-- `top_priority_reg` after the clock edge. -/
def next (i : Inputs n) (top_priority_reg : BitVec n) : BitVec n :=
  if pipeline then
    if i.increment_top_priority then
      if i.request ≠ 0#n then (grant scheme top_priority_reg i.request).rotateLeft 1
      else top_priority_reg
    else top_priority_reg
  else if i.increment_top_priority then
    if i.request ≠ 0#n then (grant scheme top_priority_reg i.request).rotateLeft 1
    else top_priority_reg.rotateLeft 1
  else if i.save_top_priority then grant scheme top_priority_reg i.request
  else top_priority_reg

/-- `top_priority_reg` after `m` cycles from a reset. -/
def run (ins : ℕ → Inputs n) : ℕ → BitVec n := Clocked.run (next scheme pipeline) 1#n ins

end Netlist

/-! ## One cycle -/

section Step

variable {n k g : ℕ} {scheme : Scheme} {request : BitVec n}

theorem rotateLeft_twoPow (hg : g < n) :
    (BitVec.twoPow n g).rotateLeft 1 = BitVec.twoPow n ((g + 1) % n) := by
  refine BitVec.eq_of_getLsbD_eq fun i hi => ?_
  have hmod : (g + 1) % n < n := Nat.mod_lt _ (Nat.zero_lt_of_lt hg)
  rw [BitVec.getLsbD_rotateLeft, BitVec.getLsbD_twoPow, BitVec.getLsbD_twoPow,
    BitVec.getLsbD_twoPow, decide_eq_true hg, decide_eq_true hmod, decide_eq_true hi]
  simp only [Bool.true_and, Bool.cond_decide]
  rcases Nat.lt_or_eq_of_le (Nat.succ_le_of_lt hg) with hlt | hlast
  · rw [Nat.mod_eq_of_lt hlt, Nat.mod_eq_of_lt (by omega : 1 < n)]
    split <;> rw [decide_eq_decide] <;> omega
  · rw [show (g + 1) % n = 0 by rw [← hlast]; exact Nat.mod_self _]
    rcases Nat.lt_or_eq_of_le (by omega : 1 ≤ n) with hone | rfl
    · rw [Nat.mod_eq_of_lt hone]
      split <;> rw [decide_eq_decide] <;> omega
    · rw [Nat.mod_self, if_neg (Nat.not_lt_zero i), decide_eq_decide]
      omega

theorem twoPow_injective {j : ℕ} (hj : j < n) (hg : g < n)
    (h : BitVec.twoPow n j = BitVec.twoPow n g) : j = g := by
  have hbit : (BitVec.twoPow n g).getLsbD j = true := by
    rw [← h, BitVec.getLsbD_twoPow]
    simp [hj]
  rw [BitVec.getLsbD_twoPow, decide_eq_true hg, Bool.true_and] at hbit
  exact (of_decide_eq_true hbit).symm

/-- Where the search begins, if the register is at `k`. -/
def start (scheme : Scheme) (k : ℕ) : ℕ := if scheme = .roundRobin then k else 0

theorem topPriority_eq (hk : k < n) :
    topPriority scheme (BitVec.twoPow n k) = BitVec.twoPow n (start scheme k) := by
  have hone : (1#n : BitVec n) = BitVec.twoPow n 0 := by simp [BitVec.twoPow]
  unfold topPriority start
  by_cases hs : scheme = .roundRobin
  · by_cases hn : 1 < n
    · rw [if_pos ⟨hs, hn⟩, if_pos hs]
    · obtain rfl : k = 0 := by omega
      rw [if_neg fun h => hn h.2, if_pos hs, hone]
  · rw [if_neg fun h => hs h.1, if_neg hs, hone]

/-- The grant is the first request in the circle. -/
theorem grant_eq (hs : scheme ≠ .noArb) (hk : k < n) :
    grant scheme (BitVec.twoPow n k) request = firstAround request (start scheme k) := by
  have htwice : (0#n ++ BitVec.twoPow n (start scheme k) : BitVec (n + n))
      = BitVec.twoPow (n + n) (start scheme k) := by
    have hstart : start scheme k < n := by
      unfold start
      split <;> omega
    refine BitVec.eq_of_getLsbD_eq fun i hi => ?_
    rw [BitVec.getLsbD_append, BitVec.getLsbD_zero, BitVec.getLsbD_twoPow, BitVec.getLsbD_twoPow]
    split
    · simp [hstart, Nat.lt_add_right n hstart]
    · simp
      omega
  unfold grant
  rw [if_neg hs, topPriority_eq hk, htwice, arbAdder_eq, ← BitVec.not_append]
  rfl

/-- A cycle with a request: somebody is granted, and the register is behind him, at
him or where it was. -/
theorem exists_next (hs : scheme ≠ .noArb) (hk : k < n) (pipeline : Bool) (i : Inputs n)
    (hreq : i.request ≠ 0#n) :
    ∃ g < n, i.request.getLsbD g = true
      ∧ (∀ j < n, i.request.getLsbD j = true
        → ahead n (start scheme k) g ≤ ahead n (start scheme k) j)
      ∧ grant scheme (BitVec.twoPow n k) i.request = BitVec.twoPow n g
      ∧ next scheme pipeline i (BitVec.twoPow n k) = BitVec.twoPow n
        (if i.increment_top_priority then (g + 1) % n
          else if !pipeline && i.save_top_priority then g else k) := by
  have hstart : start scheme k < n := by
    unfold start
    split <;> omega
  obtain ⟨g, hg, hrg, hmin, hfirst⟩ := exists_firstAround i.request hstart hreq
  have hgrant := (grant_eq hs hk).trans hfirst
  refine ⟨g, hg, hrg, hmin, hgrant, ?_⟩
  rw [next, hgrant, if_pos hreq, if_pos hreq, rotateLeft_twoPow hg]
  cases pipeline <;> cases i.increment_top_priority <;> cases i.save_top_priority <;> rfl

theorem next_of_idle (pipeline : Bool) {i : Inputs n} (hidle : i.request = 0#n)
    (hsave : pipeline = false → i.save_top_priority = false) (hk : k < n) :
    ∃ k' < n, next scheme pipeline i (BitVec.twoPow n k) = BitVec.twoPow n k' := by
  unfold next
  rw [if_neg (not_not_intro hidle), if_neg (not_not_intro hidle)]
  cases pipeline with
  | true => exact ⟨k, hk, by simp⟩
  | false =>
      rw [hsave rfl]
      cases i.increment_top_priority with
      | true =>
          exact ⟨(k + 1) % n, Nat.mod_lt _ (Nat.zero_lt_of_lt hk), rotateLeft_twoPow hk⟩
      | false => exact ⟨k, hk, rfl⟩

end Step

/-! ## Runs -/

section Run

variable {n : ℕ} {scheme : Scheme} {pipeline : Bool} {ins : ℕ → Inputs n}
  (hs : scheme ≠ .noArb)
  (hsave : pipeline = false → ∀ m, (ins m).request = 0#n → (ins m).save_top_priority = false)
include hs hsave

/-- One bit of the register is set. -/
theorem exists_position (hn : 0 < n) (m : ℕ) :
    ∃ k < n, run scheme pipeline ins m = BitVec.twoPow n k := by
  induction m with
  | zero => exact ⟨0, hn, by simp [run, Clocked.run, BitVec.twoPow]⟩
  | succ m ih =>
      obtain ⟨k, hk, hreg⟩ := ih
      have hstep : run scheme pipeline ins (m + 1)
          = next scheme pipeline (ins m) (run scheme pipeline ins m) := rfl
      rw [hstep, hreg]
      by_cases hidle : (ins m).request = 0#n
      · exact next_of_idle pipeline hidle (fun hp => hsave hp m hidle) hk
      · obtain ⟨g, hg, -, -, -, hnext⟩ := exists_next hs hk pipeline (ins m) hidle
        refine ⟨_, ?_, hnext⟩
        split
        · exact Nat.mod_lt _ hn
        · split
          · exact hg
          · exact hk

/-- **One of those who request is granted**, the first of them in the circle, and
nobody if there is no request. -/
theorem grants_one (hn : 1 < n) (m : ℕ) :
    ∃ k < n, run scheme pipeline ins m = BitVec.twoPow n k
      ∧ ((ins m).request = 0#n → grant scheme (run scheme pipeline ins m) (ins m).request = 0#n)
      ∧ ((ins m).request ≠ 0#n → ∃ g < n, (ins m).request.getLsbD g = true
        ∧ grant scheme (run scheme pipeline ins m) (ins m).request = BitVec.twoPow n g
        ∧ ∀ j < n, (ins m).request.getLsbD j = true
          → ahead n (start scheme k) g ≤ ahead n (start scheme k) j) := by
  obtain ⟨k, hk, hreg⟩ := exists_position hs hsave (by omega) m
  refine ⟨k, hk, hreg, fun hidle => ?_, fun hreq => ?_⟩
  · rw [hreg, grant_eq hs hk, hidle]
    exact firstAround_zero
  · obtain ⟨g, hg, hrg, hmin, hgrant, -⟩ := exists_next hs hk pipeline (ins m) hreq
    exact ⟨g, hg, hrg, by rw [hreg, hgrant], hmin⟩

end Run

/-- Four who request all the time; every other cycle is an update. -/
def crowd (m : ℕ) : Inputs 4 where
  request := 0b1111
  increment_top_priority := m % 2 = 0
  save_top_priority := true

theorem crowd_request (m : ℕ) : (crowd m).request ≠ 0#4 := by
  show 0b1111#4 ≠ 0#4
  decide

theorem grants_one_crowd : ∃ k < 4, run .roundRobin false crowd 5 = BitVec.twoPow 4 k
    ∧ ∃ g < 4, grant .roundRobin (run .roundRobin false crowd 5) (crowd 5).request
      = BitVec.twoPow 4 g := by
  obtain ⟨k, hk, hreg, -, hgrant⟩ := @grants_one 4 .roundRobin false crowd (by decide)
    (fun _ m hidle => absurd hidle (crowd_request m)) (by decide) 5
  obtain ⟨g, hg, -, hbit, -⟩ := hgrant (crowd_request 5)
  exact ⟨k, hk, hreg, g, hg, hbit⟩

section RoundRobin

variable {n : ℕ} {pipeline : Bool} {ins : ℕ → Inputs n}
  (hsave : pipeline = false → ∀ m, (ins m).request = 0#n → (ins m).save_top_priority = false)
include hsave

/-- **Nobody starves**: who requests all the time is granted by the `n`-th update. -/
theorem served (hn : 1 < n) {i m d : ℕ} (hi : i < n)
    (hreq : ∀ k < d, (ins (m + k)).request.getLsbD i = true)
    (hcount : n ≤ Nat.count (fun k => (ins (m + k)).increment_top_priority = true) d) :
    ∃ k < d, (ins (m + k)).increment_top_priority = true
      ∧ grant .roundRobin (run .roundRobin pipeline ins (m + k)) (ins (m + k)).request
        = BitVec.twoPow n i := by
  have hs : Scheme.roundRobin ≠ .noArb := by decide
  choose pos hpos hreg using exists_position hs hsave (Nat.zero_lt_of_lt hn)
  refine Classical.byContradiction fun hno => ?_
  -- While `i` waits, the search begins closer and closer to it.
  have hfall : ∀ k < d, ahead n (pos (m + (k + 1))) i
      + (if (ins (m + k)).increment_top_priority = true then 1 else 0)
      ≤ ahead n (pos (m + k)) i := by
    intro k hk
    have hne : (ins (m + k)).request ≠ 0#n := fun h => by
      have hset := hreq k hk
      rw [h, BitVec.getLsbD_zero] at hset
      exact absurd hset (by decide)
    obtain ⟨g, hg, -, hmin, hgrant, hnext⟩ :=
      exists_next hs (hpos (m + k)) pipeline (ins (m + k)) hne
    have hfirst : ahead n (pos (m + k)) g ≤ ahead n (pos (m + k)) i := hmin i hi (hreq k hk)
    have hsum := ahead_first (hpos (m + k)) hg hi hfirst
    have hstep : run .roundRobin pipeline ins (m + (k + 1))
        = next .roundRobin pipeline (ins (m + k)) (run .roundRobin pipeline ins (m + k)) := rfl
    rw [hreg, hreg, hnext] at hstep
    have hpos' : pos (m + (k + 1)) = if (ins (m + k)).increment_top_priority then (g + 1) % n
        else if !pipeline && (ins (m + k)).save_top_priority then g else pos (m + k) := by
      refine twoPow_injective (hpos _) ?_ hstep
      split
      · exact Nat.mod_lt _ (Nat.zero_lt_of_lt hn)
      · split
        · exact hg
        · exact hpos _
    rw [hpos']
    by_cases hinc : (ins (m + k)).increment_top_priority = true
    · have hig : i ≠ g := fun h => hno ⟨k, hk, hinc, by rw [hreg, hgrant, h]⟩
      have hbehind := ahead_behind hg hi hig
      rw [if_pos hinc, if_pos hinc]
      omega
    · rw [if_neg hinc, if_neg hinc]
      split <;> omega
  have hall := Clocked.count_add_rank_le (fun k => ahead n (pos (m + k)) i) hfall
  have hlt : ahead n (pos (m + 0)) i < n := ahead_lt (hpos _) hi
  omega

omit hsave in
theorem served_crowd : ∃ k < 8, (crowd (3 + k)).increment_top_priority = true
    ∧ grant .roundRobin (run .roundRobin false crowd (3 + k)) (crowd (3 + k)).request
      = BitVec.twoPow 4 2 :=
  served (fun _ m hidle => absurd hidle (crowd_request m)) (by decide) (by decide)
    (fun _ _ => show (0b1111#4).getLsbD 2 = true by decide) (by decide)

end RoundRobin

end MerlinArbitrator

end Ece385
