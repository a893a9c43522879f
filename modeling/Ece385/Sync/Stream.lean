import Mathlib.Data.List.Infix
import Mathlib.Data.Nat.Count
import Mathlib.Tactic.TypeStar

/-!
# Streams of events

What a circuit takes in and gives out, cycle by cycle, as lists: `history ev n`
is what happened before cycle `n`. If every cycle keeps the books
(`held ++ ins = outs ++ held'`), so does every run (`history_conserved`): nothing
is lost, invented, doubled or put out of order.
-/

namespace Ece385

namespace Clocked

variable {α β : Type*}

/-- The events before cycle `n`, those of cycle `k` being `ev k`. -/
def history (ev : ℕ → List α) : ℕ → List α
  | 0 => []
  | n + 1 => history ev n ++ ev n

section History

variable (ev : ℕ → List α)

@[simp] theorem history_zero : history ev 0 = [] := rfl

theorem history_succ (n : ℕ) : history ev (n + 1) = history ev n ++ ev n := rfl

theorem history_add (m n : ℕ) :
    history ev (m + n) = history ev m ++ history (fun k => ev (m + k)) n := by
  induction n with
  | zero => exact (List.append_nil _).symm
  | succ n ih => rw [← Nat.add_assoc, history_succ, history_succ, ih, List.append_assoc]

theorem mem_history {a : α} {n : ℕ} (h : a ∈ history ev n) : ∃ m, m < n ∧ a ∈ ev m := by
  induction n with
  | zero => exact absurd h List.not_mem_nil
  | succ n ih =>
      rw [history_succ, List.mem_append] at h
      rcases h with h | h
      · obtain ⟨m, hm, ha⟩ := ih h
        exact ⟨m, Nat.lt_succ_of_lt hm, ha⟩
      · exact ⟨n, Nat.lt_succ_self n, h⟩

theorem history_mono {m n : ℕ} (h : m ≤ n) : history ev m <+: history ev n := by
  obtain ⟨d, rfl⟩ := Nat.exists_eq_add_of_le h
  rw [history_add]
  exact List.prefix_append _ _

/-- What is read off event by event may be read off at the end. -/
theorem history_image {F : List α → List β} (h0 : F [] = [])
    (happ : ∀ l l', F (l ++ l') = F l ++ F l') (n : ℕ) :
    history (fun k => F (ev k)) n = F (history ev n) := by
  induction n with
  | zero => exact h0.symm
  | succ n ih => rw [history_succ, history_succ, happ, ih]

end History

section Conserved

variable {ins outs : ℕ → List α} (held : ℕ → List α)
  (h : ∀ n, held n ++ ins n = outs n ++ held (n + 1))
include h

theorem history_conserved (n : ℕ) :
    held 0 ++ history ins n = history outs n ++ held n := by
  induction n with
  | zero => rw [history_zero, history_zero, List.append_nil, List.nil_append]
  | succ n ih => rw [history_succ, history_succ, ← List.append_assoc, ih, List.append_assoc, h,
      List.append_assoc]

/-- What went in is what came out, and then what is held. -/
theorem history_eq (h0 : held 0 = []) (n : ℕ) : history ins n = history outs n ++ held n := by
  rw [← history_conserved held h n, h0, List.nil_append]

/-- What came out is the beginning of what went in. -/
theorem history_isPrefix (h0 : held 0 = []) (n : ℕ) : history outs n <+: history ins n := by
  rw [history_eq held h h0]
  exact List.prefix_append _ _

/-- What is held comes out, if every `b + 1` cycles one of what is held does. -/
theorem history_drains (h0 : held 0 = []) {n b j : ℕ}
    (hb : ∀ m, n ≤ m → held m ≠ [] → ∃ k ≤ b, outs (m + k) ≠ []) (hj : (held n).length ≤ j) :
    history ins n <+: history outs (n + j * (b + 1)) := by
  have hall := history_eq held h h0
  have hgrow : ∀ i, (history ins n).length ≤ (history outs (n + i * (b + 1))).length
      ∨ (history outs n).length + i ≤ (history outs (n + i * (b + 1))).length := by
    intro i
    induction i with
    | zero => exact Or.inr (by simp)
    | succ i ih =>
        have hsum : n + (i + 1) * (b + 1) = n + i * (b + 1) + (b + 1) := by
          rw [Nat.succ_mul, Nat.add_assoc]
        rw [hsum]
        have hle : n ≤ n + i * (b + 1) := Nat.le_add_right _ _
        generalize n + i * (b + 1) = m at ih hle ⊢
        have hmono := (history_mono outs (Nat.le_add_right m (b + 1))).length_le
        rcases ih with ih | ih
        · exact Or.inl (ih.trans hmono)
        · cases hheld : held m with
          | nil =>
              have hlen := (history_mono ins hle).length_le
              rw [hall m, hheld, List.append_nil] at hlen
              exact Or.inl (hlen.trans hmono)
          | cons a l =>
              obtain ⟨k, hk, hout⟩ := hb m hle (by rw [hheld]; exact List.cons_ne_nil a l)
              have hlater : m + k + 1 ≤ m + (b + 1) := by omega
              have hmono' := (history_mono outs hlater).length_le
              have hmono'' := (history_mono outs (Nat.le_add_right m k)).length_le
              have hpos := List.length_pos_iff.mpr hout
              rw [history_succ, List.length_append] at hmono'
              exact Or.inr (by omega)
  refine List.prefix_of_prefix_length_le (history_mono ins (Nat.le_add_right n (j * (b + 1))))
    (history_isPrefix held h h0 _) ?_
  rcases hgrow j with hlen | hlen
  · exact hlen
  · rw [hall n, List.length_append]
    omega

end Conserved

/-! ## Falling ranks -/

/-- A rank that falls in every cycle until something happens. -/
theorem exists_of_rank (rank : ℕ → ℕ) {I P : ℕ → Prop} {n : ℕ}
    (h : ∀ m, I m → ¬P m → I (m + 1) ∧ rank (m + 1) < rank m) (hn : I n) :
    ∃ k, k + rank (n + k) ≤ rank n ∧ I (n + k) ∧ P (n + k) := by
  classical
  induction hr : rank n using Nat.strong_induction_on generalizing n with
  | _ r ih =>
      by_cases hP : P n
      · exact ⟨0, by rw [Nat.add_zero, hr, Nat.zero_add], hn, hP⟩
      · obtain ⟨hn', hlt⟩ := h n hn hP
        rw [hr] at hlt
        obtain ⟨k, hk, hI, hPk⟩ := ih _ hlt hn' rfl
        refine ⟨k + 1, ?_, ?_⟩
        · rw [← Nat.add_assoc, Nat.add_right_comm n k 1]
          omega
        · rw [← Nat.add_assoc, Nat.add_right_comm n k 1]
          exact ⟨hI, hPk⟩

/-- A rank that never rises has been at least what falls it takes since. -/
theorem count_add_rank_le (rank : ℕ → ℕ) {P : ℕ → Prop} [DecidablePred P] {d : ℕ}
    (h : ∀ k < d, rank (k + 1) + (if P k then 1 else 0) ≤ rank k) :
    Nat.count P d + rank d ≤ rank 0 := by
  induction d with
  | zero => rw [Nat.count_zero, Nat.zero_add]
  | succ d ih =>
      have hrest := ih fun k hk => h k (Nat.lt_succ_of_lt hk)
      have hlast := h d (Nat.lt_succ_self d)
      rw [Nat.count_succ]
      omega

/-- What makes a rank fall that never rises comes to an end. -/
theorem exists_last (rank : ℕ → ℕ) {P : ℕ → Prop} {n : ℕ}
    (h : ∀ m, n ≤ m → rank (m + 1) ≤ rank m ∧ (P m → rank (m + 1) < rank m)) :
    ∃ m, n ≤ m ∧ ∀ k, m ≤ k → ¬P k := by
  induction hr : rank n using Nat.strong_induction_on generalizing n with
  | _ r ih =>
      by_cases hP : ∃ k, n ≤ k ∧ P k
      · obtain ⟨k, hk, hPk⟩ := hP
        have hle : rank k ≤ rank n := by
          clear hPk
          induction k, hk using Nat.le_induction with
          | base => exact Nat.le_refl _
          | succ k hk ihk => exact (h k hk).1.trans ihk
        have hlt : rank (k + 1) < r := hr ▸ ((h k hk).2 hPk).trans_le hle
        obtain ⟨m, hm, hlast⟩ := ih _ hlt (fun m hm => h m (by omega)) rfl
        exact ⟨m, by omega, hlast⟩
      · exact ⟨n, Nat.le_refl n, fun k hk hPk => hP ⟨k, hk, hPk⟩⟩

/-- In each phase `k` there is an event `E k` that makes the rank fall, and it is not
waited for in vain. -/
theorem exists_of_fair {κ : Type*} {E : κ → ℕ → Prop} (At : ℕ → κ → ℕ → Prop)
    (hfair : ∀ r k n, (∀ m, n ≤ m → At (r + 1) k m) → ∃ m, n ≤ m ∧ E k m)
    (h : ∀ r k m, At (r + 1) k m →
      (¬E k m ∧ At (r + 1) k (m + 1)) ∨ ∃ r' ≤ r, ∃ k', At r' k' (m + 1))
    {r : ℕ} {k : κ} {n : ℕ} (hn : At r k n) : ∃ m, n ≤ m ∧ ∃ k', At 0 k' m := by
  induction r using Nat.strong_induction_on generalizing k n with
  | _ r ih =>
      cases r with
      | zero => exact ⟨n, Nat.le_refl n, k, hn⟩
      | succ r =>
          by_contra hno
          have hnext : ∀ m, n ≤ m → At (r + 1) k m → ¬E k m ∧ At (r + 1) k (m + 1) := by
            intro m hm hAt
            refine (h r k m hAt).resolve_right ?_
            rintro ⟨r', hr', k', hless⟩
            obtain ⟨m', hm', hdone⟩ := ih r' (Nat.lt_succ_of_le hr') hless
            exact hno ⟨m', by omega, hdone⟩
          -- So the phase would last for ever.
          have hlasts : ∀ m, n ≤ m → At (r + 1) k m := by
            intro m hm
            induction m, hm using Nat.le_induction with
            | base => exact hn
            | succ m hm ihm => exact (hnext m hm ihm).2
          obtain ⟨m, hm, hE⟩ := hfair r k n hlasts
          exact (hnext m hm (hlasts m hm)).1 hE

end Clocked

end Ece385
