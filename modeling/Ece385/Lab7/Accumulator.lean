import Mathlib.Data.Int.Notation
import Mathlib.Data.Nat.Notation
import Ece385.Sync.Run

/-!
# The Nios II accumulator

`main.c` of lab 7. The program talks to the board through three volatile
pointers, so `main` is modelled access by access: one step is one read of
`*button_PIO` or `*sw_PIO`, or one write of `*LED_PIO`, together with the
arithmetic up to the next access. The switch port has 16 bits; `accumulate` is
a 32-bit `int`, the sum with an `unsigned` switch value is taken modulo `2^32`,
and `>`, `%` and `-` are signed.

Next to the program runs what it is meant to be, an 8-bit accumulator
(`Spec`). The program wraps with `(accumulate % 255) - 1`. That is arithmetic
modulo 256 for the sums up to 509, and again for the 254 sums from 65536 on
(`Wraps`); the LEDs are right as long as no other sum comes up
(`leds_correct_iff`).
-/

namespace Ece385

namespace Lab7

/-- The next access of the program. -/
inductive Access where
  /-- `*LED_PIO = 0`. -/
  | clear
  /-- `*button_PIO == 0x8`. -/
  | accumulate
  /-- `accumulate += *sw_PIO`. -/
  | switches
  /-- `while (*button_PIO != 0)`. -/
  | release
  /-- `*button_PIO == 0x4`. -/
  | reset
  /-- `*LED_PIO = accumulate`, after the wrap-around. -/
  | led
deriving DecidableEq, Repr

/-- What `*button_PIO` and `*sw_PIO` show when they are read in a step. -/
structure Ports where
  button_pio : BitVec 32
  sw_pio : BitVec 16

structure Main where
  access : Access
  accumulate : BitVec 32

/-- `if(accumulate>255) accumulate=(accumulate%255)-1;` -/
def wrap (accumulate : BitVec 32) : BitVec 32 :=
  if (255#32).slt accumulate then accumulate.srem 255#32 - 1#32 else accumulate

namespace Main

/-- `main` up to its first access. -/
def start : Main where
  access := .clear
  accumulate := 8#32

def next (m : Main) (i : Ports) : Main :=
  match m.access with
  | .clear => { m with access := .accumulate }
  | .accumulate => { m with access := if i.button_pio = 0x8#32 then .switches else .reset }
  | .switches =>
      { access := .release, accumulate := m.accumulate + i.sw_pio.setWidth 32 }
  | .release => { m with access := if i.button_pio = 0#32 then .reset else .release }
  | .reset =>
      { access := .led, accumulate := if i.button_pio = 0x4#32 then 0#32 else m.accumulate }
  | .led => { access := .accumulate, accumulate := wrap m.accumulate }

/-- The `int` that is written to `*LED_PIO`. -/
def ledPio (m : Main) : ℤ := (wrap m.accumulate).toInt

/-- The program after `n` accesses. -/
def run (ins : ℕ → Ports) : ℕ → Main := Clocked.run (fun i m => m.next i) start ins

theorem run_succ (ins : ℕ → Ports) (n : ℕ) : run ins (n + 1) = (run ins n).next (ins n) := rfl

end Main

open Main

/-! ## The 8-bit accumulator -/

/-- `total` is the sum of what was added since the last reset, 8 included if
there was none. `level` is the 8-bit accumulator: `total` modulo 256 as of the
last write, and what was added since. -/
structure Spec where
  total : ℕ
  level : ℕ

def Spec.next (s : Spec) (access : Access) (i : Ports) : Spec :=
  match access with
  | .switches => { total := s.total + i.sw_pio.toNat, level := s.level + i.sw_pio.toNat }
  | .reset => if i.button_pio = 0x4#32 then { total := 0, level := 0 } else s
  | .led => { s with level := s.level % 256 }
  | _ => s

/-- The accumulator after `n` accesses of the program. -/
def spec (ins : ℕ → Ports) : ℕ → Spec
  | 0 => { total := 8, level := 8 }
  | n + 1 => (spec ins n).next (run ins n).access (ins n)

/-- The sums for which the program's wrap-around is the one modulo 256. -/
def Wraps (x : ℕ) : Prop := x ≤ 509 ∨ 65536 ≤ x ∧ x ≤ 65789

/-- The write of step `n`, if there is one, is in range and right modulo 256. -/
def LedCorrect (ins : ℕ → Ports) (n : ℕ) : Prop :=
  (run ins n).access = .led → 0 ≤ (run ins n).ledPio ∧ (run ins n).ledPio ≤ 255
    ∧ (run ins n).ledPio % 256 = (spec ins n).total % 256

def LevelWraps (ins : ℕ → Ports) (n : ℕ) : Prop :=
  (run ins n).access = .led → Wraps (spec ins n).level

theorem toInt_small {x : ℕ} (hx : x ≤ 65790) : (BitVec.ofNat 32 x).toInt = x := by
  rw [BitVec.toInt_ofNat']
  exact Int.bmod_eq_of_le (by omega) (by omega)

theorem wrap_toInt {x : ℕ} (hx : x ≤ 65790) :
    (wrap (BitVec.ofNat 32 x)).toInt = if 255 < x then ((x % 255 : ℕ) : ℤ) - 1 else (x : ℤ) := by
  have hx' := toInt_small hx
  have h255 : (255#32).toInt = 255 := by decide
  have hslt : (255#32).slt (BitVec.ofNat 32 x) = decide (255 < x) := by
    rw [BitVec.slt_eq_decide, hx', h255]
    exact decide_eq_decide.mpr (by omega)
  rw [wrap, hslt]
  by_cases h : 255 < x
  · have hmod : ((x : ℤ).tmod 255) = (x % 255 : ℕ) := Int.ofNat_tmod x 255
    have hone : (1#32).toInt = 1 := by decide
    rw [decide_eq_true h, if_pos rfl, if_pos h, BitVec.toInt_sub, BitVec.toInt_srem, hx', h255,
      hone, hmod]
    exact Int.bmod_eq_of_le (by omega) (by omega)
  · rw [decide_eq_false h, if_neg Bool.false_ne_true, if_neg h, hx']

theorem wrap_of_wraps {x : ℕ} (h : Wraps x) :
    wrap (BitVec.ofNat 32 x) = BitVec.ofNat 32 (x % 256) := by
  have hx : x ≤ 65790 := by
    unfold Wraps at h
    omega
  refine BitVec.eq_of_toInt_eq ?_
  rw [wrap_toInt hx, toInt_small (show x % 256 ≤ 65790 by omega)]
  unfold Wraps at h
  split <;> omega

/-- With switch values up to `c`: below 256 before an addition, and never more
than one addition above that. -/
theorem level_le {ins : ℕ → Ports} {c : ℕ} (hsw : ∀ k, (ins k).sw_pio.toNat ≤ c) (n : ℕ) :
    ((run ins n).access = .clear ∨ (run ins n).access = .accumulate
        ∨ (run ins n).access = .switches → (spec ins n).level ≤ 255)
      ∧ (spec ins n).level ≤ 255 + c := by
  induction n with
  | zero => exact ⟨fun _ => (by decide : 8 ≤ 255), Nat.le_trans (by decide : 8 ≤ 255) (by omega)⟩
  | succ n ih =>
      obtain ⟨hbyte, hsmall⟩ := ih
      rw [spec, run_succ]
      cases hacc : (run ins n).access with
      | clear =>
          simp only [Main.next, Spec.next, hacc]
          exact ⟨fun _ => hbyte (Or.inl hacc), hsmall⟩
      | accumulate =>
          simp only [Main.next, Spec.next, hacc]
          exact ⟨fun _ => hbyte (Or.inr (Or.inl hacc)), hsmall⟩
      | switches =>
          simp only [Main.next, Spec.next, hacc]
          have hlevel := hbyte (Or.inr (Or.inr hacc))
          have hadd := hsw n
          exact ⟨fun hf => by simp at hf, by omega⟩
      | release =>
          simp only [Main.next, Spec.next, hacc]
          refine ⟨fun hf => ?_, hsmall⟩
          by_cases hb : (ins n).button_pio = 0#32 <;> simp [hb] at hf
      | reset =>
          simp only [Main.next, Spec.next, hacc]
          refine ⟨fun hf => by simp at hf, ?_⟩
          split
          · exact Nat.zero_le _
          · exact hsmall
      | led =>
          simp only [Main.next, Spec.next, hacc]
          exact ⟨fun _ => by omega, by omega⟩

theorem level_small (ins : ℕ → Ports) (n : ℕ) : (spec ins n).level ≤ 65790 := by
  have hsw : ∀ k, (ins k).sw_pio.toNat ≤ 65535 := fun k => by
    have hlt := (ins k).sw_pio.isLt
    omega
  exact (level_le hsw n).2

/-! ## Side by side -/

/-- The program holds the level of the 8-bit accumulator. -/
structure Tracks (m : Main) (s : Spec) : Prop where
  holds : m.accumulate = BitVec.ofNat 32 s.level
  total : s.total % 256 = s.level % 256

theorem Tracks.next {m : Main} {s : Spec} (h : Tracks m s) (i : Ports)
    (hw : m.access = .led → Wraps s.level) : Tracks (m.next i) (s.next m.access i) := by
  obtain ⟨hholds, htotal⟩ := h
  cases hacc : m.access with
  | clear | accumulate | release =>
      simp only [Main.next, Spec.next, hacc]
      exact ⟨hholds, htotal⟩
  | switches =>
      simp only [Main.next, Spec.next, hacc]
      refine ⟨?_, ?_⟩
      · rw [hholds, BitVec.ofNat_add, BitVec.ofNat_toNat]
      · show (s.total + i.sw_pio.toNat) % 256 = (s.level + i.sw_pio.toNat) % 256
        omega
  | reset =>
      simp only [Main.next, Spec.next, hacc]
      split
      · exact ⟨rfl, rfl⟩
      · exact ⟨hholds, htotal⟩
  | led =>
      simp only [Main.next, Spec.next, hacc]
      refine ⟨?_, ?_⟩
      · rw [hholds]
        exact wrap_of_wraps (hw hacc)
      · show s.total % 256 = s.level % 256 % 256
        omega

variable {ins : ℕ → Ports} {n : ℕ}

theorem tracks_run (h : ∀ k, k < n → LevelWraps ins k) : Tracks (run ins n) (spec ins n) := by
  induction n with
  | zero => exact ⟨rfl, rfl⟩
  | succ n ih =>
      have hn := ih fun k hk => h k (Nat.lt_succ_of_lt hk)
      exact hn.next (ins n) (h n (Nat.lt_succ_self n))

theorem Tracks.ledCorrect_iff (h : Tracks (run ins n) (spec ins n)) :
    LedCorrect ins n ↔ LevelWraps ins n := by
  obtain ⟨hholds, htotal⟩ := h
  unfold LedCorrect LevelWraps Wraps
  rw [ledPio, hholds, wrap_toInt (level_small ins n)]
  constructor
  · intro h hled
    have hcorrect := h hled
    have hsmall := level_small ins n
    split at hcorrect <;> omega
  · intro h hled
    have hwraps := h hled
    split <;> omega

/-- **The accumulator is right exactly as long as it wraps.** -/
theorem leds_correct_iff (ins : ℕ → Ports) (n : ℕ) :
    (∀ k, k < n → LedCorrect ins k) ↔ ∀ k, k < n → LevelWraps ins k := by
  constructor
  · intro h k hk
    induction k using Nat.strongRecOn with
    | ind k ih =>
        have htracks := tracks_run fun j hj => ih j hj (Nat.lt_trans hj hk)
        exact htracks.ledCorrect_iff.mp (h k hk)
  · intro h k hk
    have htracks := tracks_run fun j hj => h j (Nat.lt_trans hj hk)
    exact htracks.ledCorrect_iff.mpr (h k hk)

/-- Adding 502 to the 8 of the beginning writes -1. -/
theorem led_minus_one : ¬∀ (ins : ℕ → Ports) (n : ℕ), LedCorrect ins n := by
  intro h
  have hled := (h (fun k => { button_pio := if k = 1 then 0x8#32 else 0#32, sw_pio := 502#16 }) 5
    rfl).1
  exact absurd hled (by decide)

end Lab7

end Ece385
