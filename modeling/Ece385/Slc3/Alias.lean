import Ece385.Slc3.TestMemory

/-!
# `test_memory` on the bus

Bus cycles with `CE`, `UB` and `LB` low. A write is decoded with all of
`A[15:0]`, a read with `A[7:0]` only, so every address from 256 on shows the
word at its low byte (`read_eq`), and a store to that word is seen there too.
`lastWrite` says what the cell behind an address holds after any sequence of
cycles (`read_run`), and from it follows when a read returns what a memory
would return (`read_after_write_iff`).
-/

namespace Ece385

namespace TestMemory

/-- The pins of a cycle; the processor ties the upper four bits of `ADDR` to
0. `I_O` is what the processor puts on the bus. -/
structure BusCycle where
  OE : Bool
  WE : Bool
  A : BitVec 16
  I_O : BitVec 16

/-- The clock edge at the end of a cycle. -/
def step (m : Words) (c : BusCycle) : Words :=
  next false false false false c.WE (0#4 ++ c.A) c.I_O m

def run (m : Words) (cs : List BusCycle) : Words := cs.foldl step m

/-- What a cycle with `OE` low and `WE` high at the address `b` puts on the
bus, both lanes together. -/
def read (m : Words) (b : BitVec 16) : BitVec 16 := memOut m (0#4 ++ b)

/-- The address of the array that a read of `b` looks at. -/
def aliased (b : BitVec 16) : BitVec 16 := 0#8 ++ b.extractLsb' 0 8

/-- The last word written to `x`. -/
def lastWrite (x : BitVec 16) : List BusCycle → Option (BitVec 16)
  | [] => none
  | c :: cs => (lastWrite x cs).or (if c.WE = false ∧ c.A = x then some c.I_O else none)

/-! ## The two decoders -/

theorem extract_pins (b : BitVec 16) : (0#4 ++ b).extractLsb' 8 8 = b.extractLsb' 8 8
    ∧ (0#4 ++ b).extractLsb' 0 8 = b.extractLsb' 0 8 := by
  constructor
  all_goals
    refine BitVec.eq_of_toNat_eq ?_
    have hb := b.isLt
    simp only [toNat_append_add, BitVec.extractLsb'_toNat, Nat.shiftRight_eq_div_pow]
    simp

theorem read_eq (m : Words) (b : BitVec 16) : read m b = m (b.extractLsb' 0 8) := by
  rw [read, memOut, (extract_pins b).2]

theorem eq_aliased_iff (x b : BitVec 16) :
    x = aliased b ↔ x.extractLsb' 8 8 = 0#8 ∧ x.extractLsb' 0 8 = b.extractLsb' 0 8 := by
  constructor
  · rintro rfl
    exact ⟨BitVec.extractLsb'_append_eq_left, BitVec.extractLsb'_append_eq_right⟩
  · rintro ⟨hhi, hlo⟩
    rw [aliased, ← hlo, ← hhi, bytes_append]

theorem aliased_eq_self_iff (b : BitVec 16) : aliased b = b ↔ b.toNat < 256 := by
  have hb := b.isLt
  have htoNat : (aliased b).toNat = b.toNat % 256 := by
    simp only [aliased, toNat_append_add, BitVec.extractLsb'_toNat, Nat.shiftRight_eq_div_pow]
    simp
  rw [← BitVec.toNat_inj, htoNat]
  omega

/-! ## A cell over time -/

theorem read_step (m : Words) (c : BusCycle) (b : BitVec 16) :
    read (step m c) b = if c.WE = false ∧ c.A = aliased b then c.I_O else read m b := by
  obtain ⟨hhi, hlo⟩ := extract_pins c.A
  rw [read_eq, read_eq, step]
  cases hwe : c.WE with
  | true => simp [next]
  | false =>
      rw [next_write, hhi, hlo]
      by_cases hin : c.A.extractLsb' 8 8 = 0#8
      · rw [if_pos hin, Function.update_apply]
        by_cases heq : b.extractLsb' 0 8 = c.A.extractLsb' 0 8
        · rw [if_pos heq, if_pos ⟨rfl, (eq_aliased_iff c.A b).mpr ⟨hin, heq.symm⟩⟩]
        · rw [if_neg heq, if_neg fun h => heq ((eq_aliased_iff c.A b).mp h.2).2.symm]
      · rw [if_neg hin, if_neg fun h => hin ((eq_aliased_iff c.A b).mp h.2).1]

/-- A read shows the last word written to the array address behind it. -/
theorem read_run (m : Words) (cs : List BusCycle) (b : BitVec 16) :
    read (run m cs) b = (lastWrite (aliased b) cs).getD (read m b) := by
  induction cs generalizing m with
  | nil => rfl
  | cons c cs ih =>
      show read (run (step m c) cs) b = _
      rw [ih, read_step, lastWrite]
      cases lastWrite (aliased b) cs with
      | some w => rfl
      | none => split <;> rfl

theorem lastWrite_eq_none {x : BitVec 16} {cs : List BusCycle}
    (h : ∀ c ∈ cs, c.WE = false → c.A ≠ x) : lastWrite x cs = none := by
  induction cs with
  | nil => rfl
  | cons c cs ih =>
      have hc : ¬(c.WE = false ∧ c.A = x) := fun hc => h c List.mem_cons_self hc.1 hc.2
      rw [lastWrite, ih fun c' hc' => h c' (List.mem_cons_of_mem c hc'), if_neg hc]
      rfl

/-! ## Reading after writing -/

/-- What a memory returns for `b` after a write of `v` to `a`, `old` being
what it returned before: nothing is stored outside the array. -/
def expected (a b v old : BitVec 16) : BitVec 16 := if a = b ∧ b.toNat < 256 then v else old

/-- A write of `v` to `a`, and the cycles after it. -/
def window (a v : BitVec 16) (cs : List BusCycle) : List BusCycle :=
  { OE := true, WE := false, A := a, I_O := v } :: cs

/-- **When a read returns what a memory would return**: it always does below
256, and elsewhere exactly if the word behind the address was left alone or
last overwritten with itself. -/
theorem read_after_write_iff (m : Words) (a b v : BitVec 16) (cs : List BusCycle)
    (hno : ∀ c ∈ cs, c.WE = false → c.A ≠ b) :
    read (run m (window a v cs)) b = expected a b v (read m b)
      ↔ b.toNat < 256 ∨ ∀ w, lastWrite (aliased b) (window a v cs) = some w → w = read m b := by
  rw [read_run, expected]
  by_cases hb : b.toNat < 256
  · have hself := (aliased_eq_self_iff b).mpr hb
    rw [hself, window, lastWrite, lastWrite_eq_none hno]
    by_cases hab : a = b
    · simp [hab, hb]
    · simp [hab, hb]
  · rw [if_neg fun h => hb h.2]
    cases hlast : lastWrite (aliased b) (window a v cs) with
    | none => simp
    | some w => simp [hb]

/-- A store to 5 is seen at 0x105. -/
theorem read_after_write_alias :
    ¬∀ (m : Words) (a b v : BitVec 16) (cs : List BusCycle),
      (∀ c ∈ cs, c.WE = false → c.A ≠ b) →
      read (run m (window a v cs)) b = expected a b v (read m b) := by
  intro h
  exact absurd (h (fun _ => 0) 5#16 0x105#16 0xBEEF#16 [] fun c hc => absurd hc List.not_mem_nil)
    (by decide)

/-- A store to 5 and one to 6 do not disturb a read of 0x107. -/
theorem read_after_write_apart :
    read (run (fun _ => 0) (window 5#16 0xBEEF#16
        [{ OE := true, WE := false, A := 6#16, I_O := 1#16 }])) 0x107#16
      = expected 5#16 0x107#16 0xBEEF#16 (read (fun _ => 0) 0x107#16) := by
  refine (read_after_write_iff _ _ _ _ _ (by simp)).mpr (Or.inr fun w hw => ?_)
  have hnone : lastWrite (aliased 0x107#16) (window 5#16 0xBEEF#16
      [{ OE := true, WE := false, A := 6#16, I_O := 1#16 }]) = none := by decide
  exact absurd (hnone.symm.trans hw) (Option.some_ne_none w).symm

end TestMemory

end Ece385
