import Mathlib.Algebra.BigOperators.Intervals
import Ece385.Mult.Product

/-!
# One multiplication after another

A user loads `B` once and then presses `Run` again and again. The first press
leaves the loop from `A`, every later one from `S` by way of `T`; between the
presses the machine waits in `R` and `S` and holds the pair. So the low byte of
a result is the multiplier of the next (`chained`), and as long as the results
fit in a byte the machine multiplies exactly.

`Chain` is the scenario, on the pins: when the button goes down and up, and
that a press comes after the multiplication before it. Nothing is assumed about
the length of a press, nor about `ClearA_LoadB` and the switches outside the
cycles in which the machine looks at them.
-/

namespace Ece385

namespace BitMultiplier

open Clocked

/-- The cycle in which the `i`-th press puts the machine into `B`. The first
press finds it in `A`, the others find it in `S` and take it through `T`. -/
def startOf (p : ℕ → ℕ) : ℕ → ℕ
  | 0 => p 0 + 2
  | i + 1 => p (i + 1) + 3

/-- `b` is loaded in cycle 0, and `Run` is pressed `n` times, the `i`-th time
from cycle `p i` up to cycle `r i`, with the switches at `s i` while the
machine works. -/
structure Chain (m : BitMultiplier) (ins : ℕ → Inputs) (n : ℕ) (p r : ℕ → ℕ) (b : BitVec 8)
    (s : ℕ → BitVec 8) : Prop where
  no_reset : m.Reset_SH = false ∧ ∀ k, (ins k).Reset = true
  loading : m.curr_state = .A ∧ m.Run_SH = false ∧ m.ClearA_LoadB_SH = true
  load : ∀ k, (m.run ins k).curr_state = .A → (m.run ins k).ClearA_LoadB_SH = true →
    (m.run ins k).S_S = b
  pressed : ∀ k, (ins k).Run = false ↔ ∃ i, i < n ∧ p i ≤ k ∧ k < r i
  press : ∀ i, i < n → p i < r i
  release : ∀ i, i + 1 < n → r i < p (i + 1)
  finished : ∀ i, i + 1 < n → startOf p i + 16 ≤ p (i + 1)
  held : ∀ i, i < n → ∀ k, k < 16 → (m.run ins (startOf p i + k)).S_S = s i

/-- The results of the chain: each multiplies the low byte of the one before,
the first the byte that was loaded. -/
def chained (b : BitVec 8) (s : ℕ → BitVec 8) : ℕ → ℤ
  | 0 => (s 0).toInt * b.toInt
  | i + 1 => (s (i + 1)).toInt * (BitVec.ofInt 8 (chained b s i)).toInt

theorem low_byte {A B : BitVec 8} {z : ℤ} (h : (A ++ B : BitVec 16).toInt = z) :
    B = BitVec.ofInt 8 z := by
  have hB := B.isLt
  rw [BitVec.toInt_append] at h
  refine BitVec.eq_of_toNat_eq ?_
  rw [BitVec.toNat_ofInt, ← h]
  simp only [beq_iff_eq, if_neg (show ¬8 = 0 by decide)]
  omega

/-- While the results fit in a byte nothing is lost. -/
theorem chained_eq_prod {b : BitVec 8} {s : ℕ → BitVec 8} {i : ℕ}
    (hfit : ∀ k, k < i → -128 ≤ b.toInt * ∏ j ∈ Finset.range (k + 1), (s j).toInt
      ∧ b.toInt * ∏ j ∈ Finset.range (k + 1), (s j).toInt ≤ 127) :
    chained b s i = b.toInt * ∏ j ∈ Finset.range (i + 1), (s j).toInt := by
  induction i with
  | zero => simp [chained, mul_comm]
  | succ i ih =>
      have hi := ih fun k hk => hfit k (Nat.lt_succ_of_lt hk)
      have hbyte : (BitVec.ofInt 8 (chained b s i)).toInt = chained b s i := by
        obtain ⟨hlo, hhi⟩ := hfit i (Nat.lt_succ_self i)
        rw [BitVec.toInt_ofInt, hi]
        exact Int.bmod_eq_of_le (by omega) (by omega)
      rw [chained, hbyte, hi, Finset.prod_range_succ _ (i + 1)]
      ring

/-! ## Cycles without an addition -/

theorem next_hold (m : BitMultiplier) (i : Inputs) (h : m.curr_state = .R ∨ m.curr_state = .S)
    (hr : m.Reset_SH = false) : (m.next i).ab = m.ab := by
  have hwait : m.curr_state.waiting = true := by
    rcases h with h | h <;> rw [h] <;> rfl
  obtain ⟨-, hA, hB⟩ := m.next_waiting i hwait hr
  rw [ab, ab, hA, hB]

theorem B_eq (m : BitMultiplier) : m.B = m.ab.extractLsb' 0 8 :=
  (BitVec.extractLsb'_append_eq_right (a := m.A)).symm

theorem next_B_of_A (m : BitMultiplier) (i : Inputs) (h : m.curr_state = .A)
    (hr : m.Reset_SH = false) :
    (m.next i).B = if m.ClearA_LoadB_SH then m.S_S else m.B := by
  unfold next ctl
  rw [h]
  simp [controls, reg8Next, hr]

theorem next_B_of_T (m : BitMultiplier) (i : Inputs) (h : m.curr_state = .T)
    (hr : m.Reset_SH = false) : (m.next i).B = m.B := by
  unfold next ctl
  rw [h]
  simp [controls, reg8Next, hr]

namespace Chain

variable {m : BitMultiplier} {ins : ℕ → Inputs} {n : ℕ} {p r : ℕ → ℕ} {b : BitVec 8}
  {s : ℕ → BitVec 8}

/-! ## The waveform -/

theorem reset_low (h : Chain m ins n p r b s) (k : ℕ) : (m.run ins k).Reset_SH = false := by
  cases k with
  | zero => exact h.no_reset.1
  | succ k =>
      show (!(ins k).Reset) = false
      rw [h.no_reset.2 k]
      rfl

theorem release_mono (h : Chain m ins n p r b s) {i j : ℕ} (hij : i < j) (hj : j < n) :
    r i < p j := by
  induction j with
  | zero => exact absurd hij (Nat.not_lt_zero i)
  | succ j ih =>
      rcases Nat.lt_succ_iff_lt_or_eq.mp hij with hlt | rfl
      · have h1 := ih hlt (by omega)
        have h2 := h.press j (by omega)
        have h3 := h.release j hj
        omega
      · exact h.release i hj

/-- Between a release and the next press the button is up. -/
theorem run_high (h : Chain m ins n p r b s) {i k : ℕ} (hi : i < n) (hr : r i ≤ k)
    (hp : i + 1 < n → k < p (i + 1)) : (ins k).Run = true := by
  refine Bool.eq_true_of_not_eq_false fun hlow => ?_
  obtain ⟨j, hj, hpj, hrj⟩ := (h.pressed k).mp hlow
  rcases Nat.lt_trichotomy j i with hlt | rfl | hgt
  · have h1 := h.release_mono hlt hi
    have h2 := h.press i hi
    omega
  · omega
  · have h1 := hp (by omega)
    rcases Nat.lt_or_eq_of_le (show i + 1 ≤ j from hgt) with hlt | rfl
    · have h2 := h.release_mono hlt hj
      have h3 := h.press (i + 1) (by omega)
      omega
    · omega

theorem run_high_before (h : Chain m ins n p r b s) {k : ℕ} (hp : k < p 0) :
    (ins k).Run = true := by
  refine Bool.eq_true_of_not_eq_false fun hlow => ?_
  obtain ⟨j, hj, hpj, -⟩ := (h.pressed k).mp hlow
  rcases Nat.eq_zero_or_pos j with rfl | hpos
  · omega
  · have h1 := h.release_mono hpos hj
    have h2 := h.press 0 (by omega)
    omega

theorem run_low (h : Chain m ins n p r b s) {i k : ℕ} (hi : i < n) (hp : p i ≤ k)
    (hr : k < r i) : (ins k).Run = false :=
  (h.pressed k).mpr ⟨i, hi, hp, hr⟩

theorem run_SH_succ (m : BitMultiplier) (ins : ℕ → Inputs) (k : ℕ) :
    (m.run ins (k + 1)).Run_SH = !(ins k).Run := rfl

theorem curr_state_succ (h : Chain m ins n p r b s) (k : ℕ) :
    (m.run ins (k + 1)).curr_state = nextState (m.run ins k).Run_SH (m.run ins k).curr_state := by
  rw [run_step, next, h.reset_low k]
  rfl

/-! ## Waiting -/

theorem B_succ_of_A (h : Chain m ins n p r b s) {k : ℕ} (hA : (m.run ins k).curr_state = .A)
    (hB : 0 < k → (m.run ins k).B = b) : (m.run ins (k + 1)).B = b := by
  rw [run_step, next_B_of_A _ _ hA (h.reset_low k)]
  split
  · next hld => exact h.load k hA hld
  · next hld =>
    cases k with
    | zero => exact absurd h.loading.2.2 hld
    | succ k => exact hB (Nat.succ_pos k)

/-- In `A` until the first press, with `b` in `B` from the load on. -/
theorem waiting_A (h : Chain m ins n p r b s) {k : ℕ} (hk : k ≤ p 0 + 1) :
    (m.run ins k).curr_state = .A ∧ (0 < k → (m.run ins k).B = b) := by
  induction k with
  | zero => exact ⟨h.loading.1, fun h0 => absurd h0 (Nat.lt_irrefl 0)⟩
  | succ k ih =>
      obtain ⟨hA, hB⟩ := ih (by omega)
      have hlow : (m.run ins k).Run_SH = false := by
        cases k with
        | zero => exact h.loading.2.1
        | succ k =>
            rw [run_SH_succ, h.run_high_before (show k < p 0 by omega)]
            rfl
      exact ⟨by rw [h.curr_state_succ, hA, hlow]; rfl, fun _ => h.B_succ_of_A hA hB⟩

/-- In `R` until the button is up, and in `S` until the next press. -/
theorem waiting_RS (h : Chain m ins n p r b s) {i : ℕ} (hi : i < n)
    (hR : (m.run ins (startOf p i + 16)).curr_state = .R) {d : ℕ}
    (hd : i + 1 < n → startOf p i + 16 + d ≤ p (i + 1)) :
    ((m.run ins (startOf p i + 16 + d)).curr_state = .R
        ∨ (m.run ins (startOf p i + 16 + d)).curr_state = .S ∧ r i < startOf p i + 16 + d)
      ∧ (m.run ins (startOf p i + 16 + d)).ab = (m.run ins (startOf p i + 16)).ab := by
  have hpi : p i ≤ startOf p i := by
    cases i <;> simp [startOf]
  induction d with
  | zero => exact ⟨Or.inl hR, rfl⟩
  | succ d ih =>
      obtain ⟨hstate, hab⟩ := ih fun hn => by have := hd hn; omega
      generalize he : startOf p i + 16 + d = e at hstate hab
      have hstep : startOf p i + 16 + (d + 1) = e + 1 := by omega
      rw [hstep]
      rw [hstep] at hd
      have hpe : p i < e := by omega
      have hlow : r i < e → (m.run ins e).Run_SH = false := by
        intro hre
        obtain ⟨e, rfl⟩ : ∃ f, e = f + 1 := ⟨e - 1, by omega⟩
        rw [run_SH_succ, h.run_high hi (by omega) fun hn => by have := hd hn; omega]
        rfl
      have hhold := next_hold (m.run ins e) (ins e) (hstate.imp id fun hS => hS.1) (h.reset_low e)
      refine ⟨?_, hhold.trans hab⟩
      rw [h.curr_state_succ]
      rcases hstate with hS | ⟨hS, hre⟩
      · by_cases hre : r i < e
        · exact Or.inr ⟨by rw [hS, hlow hre]; rfl, by omega⟩
        · have hhigh : (m.run ins e).Run_SH = true := by
            obtain ⟨e, rfl⟩ : ∃ f, e = f + 1 := ⟨e - 1, by omega⟩
            rw [run_SH_succ, h.run_low hi (by omega) (by omega)]
            rfl
          exact Or.inl (by rw [hS, hhigh]; rfl)
      · exact Or.inr ⟨by rw [hS, hlow hre]; rfl, by omega⟩

/-- The next press takes the machine through `T`, and `B` survives. -/
theorem pressed_again (h : Chain m ins n p r b s) {i : ℕ} (hi : i + 1 < n)
    (hR : (m.run ins (startOf p i + 16)).curr_state = .R) :
    (m.run ins (p (i + 1) + 2)).curr_state = .T
      ∧ (m.run ins (p (i + 1) + 3)).B = (m.run ins (startOf p i + 16)).B := by
  have hfin := h.finished i hi
  have hrel := h.release i hi
  obtain ⟨d, hd⟩ : ∃ d, p (i + 1) = startOf p i + 16 + d :=
    ⟨p (i + 1) - (startOf p i + 16), by omega⟩
  obtain ⟨f, hf⟩ : ∃ f, p (i + 1) = f + 1 := ⟨p (i + 1) - 1, by omega⟩
  obtain ⟨hstate, hab⟩ := h.waiting_RS (by omega) hR fun _ => Nat.le_of_eq hd.symm
  have hup : (m.run ins (p (i + 1))).Run_SH = false := by
    rw [hf, run_SH_succ, h.run_high (i := i) (by omega) (by omega) fun _ => by omega]
    rfl
  have hdown : (m.run ins (p (i + 1) + 1)).Run_SH = true := by
    rw [run_SH_succ, h.run_low hi (Nat.le_refl _) (h.press (i + 1) hi)]
    rfl
  rw [← hd] at hstate hab
  have hS : (m.run ins (p (i + 1) + 1)).curr_state = .S := by
    rw [h.curr_state_succ, hup]
    rcases hstate with hs | ⟨hs, -⟩ <;> rw [hs] <;> rfl
  have hT : (m.run ins (p (i + 1) + 2)).curr_state = .T := by
    rw [h.curr_state_succ, hS, hdown]
    rfl
  have hab1 : (m.run ins (p (i + 1) + 1)).ab = (m.run ins (p (i + 1))).ab :=
    next_hold _ _ (hstate.imp id fun hs => hs.1) (h.reset_low _)
  have hab2 : (m.run ins (p (i + 1) + 2)).ab = (m.run ins (p (i + 1) + 1)).ab :=
    next_hold _ _ (Or.inr hS) (h.reset_low _)
  have hB3 : (m.run ins (p (i + 1) + 3)).B = (m.run ins (p (i + 1) + 2)).B :=
    next_B_of_T _ _ hT (h.reset_low _)
  refine ⟨hT, ?_⟩
  rw [hB3, B_eq, hab2, hab1, hab, ← B_eq]

/-- One press, from the state that leads into `B`. -/
theorem one_press (h : Chain m ins n p r b s) {i e : ℕ} (hi : i < n) (he : startOf p i = e + 1)
    (hstart : (m.run ins e).curr_state = .A ∨ (m.run ins e).curr_state = .T)
    (hB : (m.run ins (e + 1)).curr_state = .B) :
    (m.run ins (startOf p i + 16)).curr_state = .R
      ∧ (m.run ins (startOf p i + 16)).ab.toInt
        = (s i).toInt * (m.run ins (startOf p i)).B.toInt := by
  have hrun : ∀ k, (m.run ins e).run (later e ins) k = m.run ins (e + k) := fun k =>
    (m.run_later ins e k).symm
  have hr : ∀ k, 1 ≤ k → k < 17 → ((m.run ins e).run (later e ins) k).Reset_SH = false := by
    intro k _ _
    rw [hrun]
    exact h.reset_low (e + k)
  have hS : ∀ k, k < 8 → ((m.run ins e).run (later e ins) (1 + 2 * k)).S_S = s i := by
    intro k hk
    have hheld := h.held i hi (2 * k) (by omega)
    rw [he] at hheld
    rw [hrun, ← Nat.add_assoc]
    exact hheld
  have hB' : ((m.run ins e).run (later e ins) 1).curr_state = .B := hB
  have hab := product_held hstart hB' hr hS
  have hR := (adding_eight hstart hB' hr).state
  rw [hrun] at hab hR
  rw [he]
  exact ⟨hR, hab⟩

/-- The result of every press. -/
theorem result (h : Chain m ins n p r b s) {i : ℕ} (hi : i < n) :
    (m.run ins (startOf p i)).curr_state = .B ∧ (m.run ins (startOf p i + 16)).curr_state = .R
      ∧ (m.run ins (startOf p i + 16)).ab.toInt = chained b s i := by
  induction i with
  | zero =>
      obtain ⟨hA, hb⟩ := h.waiting_A (Nat.le_refl (p 0 + 1))
      have hpressed : (m.run ins (p 0 + 1)).Run_SH = true := by
        rw [run_SH_succ, h.run_low hi (Nat.le_refl _) (h.press 0 hi)]
        rfl
      have hB : (m.run ins (p 0 + 2)).curr_state = .B := by
        rw [h.curr_state_succ, hA, hpressed]
        rfl
      obtain ⟨hR, hab⟩ := h.one_press hi rfl (Or.inl hA) hB
      refine ⟨hB, hR, hab.trans ?_⟩
      rw [startOf, h.B_succ_of_A hA hb, chained]
  | succ i ih =>
      obtain ⟨-, hR, hab⟩ := ih (by omega)
      obtain ⟨hT, hlow⟩ := h.pressed_again hi hR
      have hB : (m.run ins (p (i + 1) + 2 + 1)).curr_state = .B := by
        rw [h.curr_state_succ, hT]
        rfl
      obtain ⟨hR', hab'⟩ := h.one_press hi rfl (Or.inr hT) hB
      refine ⟨hB, hR', ?_⟩
      rw [hab', chained, ← low_byte hab]
      exact congrArg (fun x : BitVec 8 => (s (i + 1)).toInt * x.toInt) hlow

end Chain

/-- **Chained multiplication.** From the end of the `i`-th multiplication until
the next press the pair holds the result of the chain, which is the exact
product as long as the results before it fit in a byte. -/
theorem chained_multiplication {m : BitMultiplier} {ins : ℕ → Inputs} {n : ℕ} {p r : ℕ → ℕ}
    {b : BitVec 8} {s : ℕ → BitVec 8} (h : Chain m ins n p r b s) {i : ℕ} (hi : i < n) :
    (m.run ins (startOf p i)).curr_state = .B
      ∧ (m.run ins (startOf p i + 16)).curr_state = .R
      ∧ ∀ t, startOf p i + 16 ≤ t → (i + 1 < n → t ≤ p (i + 1)) →
        (m.run ins t).ab.toInt = chained b s i
        ∧ ((∀ k, k < i → -128 ≤ b.toInt * ∏ j ∈ Finset.range (k + 1), (s j).toInt
            ∧ b.toInt * ∏ j ∈ Finset.range (k + 1), (s j).toInt ≤ 127) →
          (m.run ins t).ab.toInt = b.toInt * ∏ j ∈ Finset.range (i + 1), (s j).toInt) := by
  obtain ⟨hB, hR, hab⟩ := h.result hi
  refine ⟨hB, hR, fun t ht ht' => ?_⟩
  obtain ⟨d, rfl⟩ : ∃ d, t = startOf p i + 16 + d := ⟨t - (startOf p i + 16), by omega⟩
  have hhold := (h.waiting_RS hi hR ht').2
  rw [hhold]
  exact ⟨hab, fun hfit => hab.trans (chained_eq_prod hfit)⟩

/-- 3 is loaded, and two presses, one short and one long, multiply it by -4
and by 5. -/
theorem chained_multiplication_twice :
    let m := { loaded 0 with ClearA_LoadB_SH := true, S_S := 3#8 }
    let ins : ℕ → Inputs := fun k =>
      { Inputs.idle (if k < 25 then 0xFC#8 else 5#8) with
        Run := decide (k ≠ 1 ∧ ¬(30 ≤ k ∧ k < 40)) }
    (m.run ins 60).ab.toInt = -60 := by
  intro m ins
  let p : ℕ → ℕ := fun i => if i = 0 then 1 else 30
  let r : ℕ → ℕ := fun i => if i = 0 then 2 else 40
  let s : ℕ → BitVec 8 := fun i => if i = 0 then 0xFC#8 else 5#8
  have htwo : ∀ i, i < 2 → i = 0 ∨ i = 1 := by omega
  have hchain : Chain m ins 2 p r 3#8 s := by
    refine ⟨⟨rfl, fun _ => rfl⟩, ⟨rfl, rfl, rfl⟩, fun k _ hld => ?_, fun k => ?_, fun i hi => ?_,
      fun i hi => ?_, fun i hi => ?_, fun i hi k hk => ?_⟩
    · cases k with
      | zero => rfl
      | succ k => exact absurd hld Bool.false_ne_true
    · constructor
      · intro hlow
        have hk : ¬(k ≠ 1 ∧ ¬(30 ≤ k ∧ k < 40)) := of_decide_eq_false hlow
        by_cases h1 : k = 1
        · exact ⟨0, by decide, by show 1 ≤ k; omega, by show k < 2; omega⟩
        · exact ⟨1, by decide, by show 30 ≤ k; omega, by show k < 40; omega⟩
      · rintro ⟨i, hi, hp, hr⟩
        refine decide_eq_false ?_
        rcases htwo i hi with rfl | rfl
        · have hp' : 1 ≤ k := hp
          have hr' : k < 2 := hr
          omega
        · have hp' : 30 ≤ k := hp
          have hr' : k < 40 := hr
          omega
    · rcases htwo i hi with rfl | rfl <;> decide
    · obtain rfl : i = 0 := by omega
      decide
    · obtain rfl : i = 0 := by omega
      decide
    · rcases htwo i hi with rfl | rfl
      · show (m.run ins (3 + k)).S_S = 0xFC#8
        rw [show 3 + k = 2 + k + 1 by omega]
        exact if_pos (show 2 + k < 25 by omega)
      · show (m.run ins (33 + k)).S_S = 5#8
        rw [show 33 + k = 32 + k + 1 by omega]
        exact if_neg (show ¬32 + k < 25 by omega)
  obtain ⟨-, -, hres⟩ := chained_multiplication hchain (show 1 < 2 by decide)
  refine ((hres 60 (by decide) fun h => absurd h (by decide)).2 fun k hk => ?_).trans (by decide)
  obtain rfl : k = 0 := by omega
  decide

end BitMultiplier

end Ece385
