import MacroBridge.Pattern
import Mathlib.Tactic.Common

/-!
The longest match is one, and no longer prefix matches. Partial derivatives are held to the texts
of a pattern first, then the pass that follows them.
-/
namespace MacroBridge

namespace CharSet

theorem contains_range_iff {lo hi c : Char} :
    (range lo hi).contains c = true ↔ lo.toNat ≤ c.toNat ∧ c.toNat ≤ hi.toNat := by
  simp [contains, Char.le_def, UInt32.le_iff_toNat_le]

theorem contains_union_iff {a b : CharSet} {c : Char} :
    (union a b).contains c = true ↔ a.contains c = true ∨ b.contains c = true := by
  simp [contains]

theorem contains_exactly_iff {a c : Char} : (exactly a).contains c = true ↔ c = a := by
  simp [contains]

end CharSet

namespace Pattern
variable {p q : Pattern} {s t : List Char}

/-! ### Texts of a pattern -/

@[simp] theorem not_matches_never : ¬ Matches never s := nofun

@[simp] theorem matches_done_iff : Matches done s ↔ s = [] := by
  constructor
  · rintro ⟨⟩
    rfl
  · rintro rfl
    exact .done

@[simp] theorem matches_one_iff {set : CharSet} :
    Matches (one set) s ↔ ∃ c, set.contains c = true ∧ s = [c] := by
  constructor
  · intro h
    cases h with
    | one h => exact ⟨_, h, rfl⟩
  · rintro ⟨c, h, rfl⟩
    exact .one h

theorem matches_seq_iff : Matches (seq p q) s ↔ ∃ a b, s = a ++ b ∧ Matches p a ∧ Matches q b := by
  constructor
  · rintro ⟨⟩
    exact ⟨_, _, rfl, ‹_›, ‹_›⟩
  · rintro ⟨a, b, rfl, ha, hb⟩
    exact .seq ha hb

@[simp] theorem matches_alt_iff : Matches (alt p q) s ↔ Matches p s ∨ Matches q s := by
  constructor
  · intro h
    cases h with
    | altLeft h => exact .inl h
    | altRight h => exact .inr h
  · rintro (h | h)
    · exact .altLeft h
    · exact .altRight h

@[simp] theorem matches_char_iff {c : Char} : Matches (char c) s ↔ s = [c] := by
  simp [char, CharSet.contains]

theorem matches_opt_iff : Matches (opt p) s ↔ Matches p s ∨ s = [] := by
  simp [opt]

theorem matches_oneOf_iff {cs : List Char} : Matches (oneOf cs) s ↔ ∃ c ∈ cs, s = [c] := by
  induction cs with
  | nil => simp [oneOf]
  | cons c cs ih =>
    rw [oneOf, List.foldr_cons, ← oneOf, matches_alt_iff, matches_char_iff, ih]
    simp

theorem matches_choice_iff {ps : List Pattern} :
    Matches (choice ps) s ↔ ∃ p ∈ ps, Matches p s := by
  induction ps with
  | nil => simp [choice]
  | cons p ps ih =>
    rw [choice, List.foldr_cons, ← choice, matches_alt_iff, ih]
    simp

@[simp] theorem matches_literal_iff {cs : List Char} : Matches (literal cs) s ↔ s = cs := by
  fun_induction literal cs generalizing s with
  | case1 => exact matches_done_iff
  | case2 c => exact matches_char_iff
  | case3 c cs _ ih =>
    rw [matches_seq_iff]
    constructor
    · rintro ⟨a, b, rfl, ha, hb⟩
      rw [matches_char_iff.mp ha, ih.mp hb]
      rfl
    · rintro rfl
      exact ⟨[c], cs, rfl, matches_char_iff.mpr rfl, ih.mpr rfl⟩

/-! ### Derivatives -/

theorem nullable_iff : p.nullable = true ↔ Matches p [] := by
  induction p with
  | never => simp [nullable]
  | done => simp [nullable]
  | one set => simp [nullable]
  | seq p q hp hq =>
    rw [nullable, Bool.and_eq_true, hp, hq, matches_seq_iff]
    constructor
    · rintro ⟨h, h'⟩
      exact ⟨[], [], rfl, h, h'⟩
    · rintro ⟨a, b, hs, ha, hb⟩
      obtain ⟨rfl, rfl⟩ := List.append_eq_nil_iff.mp hs.symm
      exact ⟨ha, hb⟩
  | alt p q hp hq => rw [nullable, Bool.or_eq_true, hp, hq, matches_alt_iff]
  | star p _ => exact ⟨fun _ => .starNil, fun _ => rfl⟩

theorem mem_join {ps qs : List Pattern} : p ∈ join ps qs ↔ p ∈ ps ∨ p ∈ qs := by
  induction ps with
  | nil => simp [join]
  | cons r ps ih =>
    rw [join, List.foldr_cons, List.mem_insert_iff, ← join, ih, List.mem_cons, or_assoc]

theorem matches_andThen_iff : Matches (andThen p q) s ↔ Matches (seq p q) s := by
  unfold andThen
  split_ifs with h
  · simp [h, matches_seq_iff]
  · rfl

/-- A text that starts with `c` in a sequence: the first half starts with it, or is empty. -/
theorem matches_seq_cons_iff {c : Char} :
    Matches (seq p q) (c :: s) ↔
      (∃ a b, s = a ++ b ∧ Matches p (c :: a) ∧ Matches q b) ∨
      Matches p [] ∧ Matches q (c :: s) := by
  rw [matches_seq_iff]
  constructor
  · rintro ⟨a, b, hs, ha, hb⟩
    cases a with
    | nil => exact .inr ⟨ha, hs ▸ hb⟩
    | cons x a =>
      obtain ⟨rfl, rfl⟩ := List.cons.inj hs
      exact .inl ⟨a, b, rfl, ha, hb⟩
  · rintro (⟨a, b, rfl, ha, hb⟩ | ⟨ha, hb⟩)
    · exact ⟨c :: a, b, rfl, ha, hb⟩
    · exact ⟨[], c :: s, rfl, ha, hb⟩

theorem matches_star_cons_iff {c : Char} :
    Matches (star p) (c :: s) ↔ ∃ a b, s = a ++ b ∧ Matches p (c :: a) ∧ Matches (star p) b := by
  constructor
  · intro h
    generalize hr : star p = r, hu : c :: s = u at h
    induction h generalizing s with
    | starNil => simp at hu
    | @starCons r a b ha hb _ ih =>
      obtain rfl := star.inj hr
      cases a with
      | nil => exact ih rfl hu
      | cons x a =>
        obtain ⟨rfl, rfl⟩ := List.cons.inj hu
        exact ⟨a, b, rfl, ha, hb⟩
    | _ => cases hr
  · rintro ⟨a, b, rfl, ha, hb⟩
    exact .starCons ha hb

/-- All characters of a repetition of single characters are of their set. -/
theorem matches_star_one_iff {set : CharSet} :
    Matches (star (one set)) s ↔ ∀ c ∈ s, set.contains c = true := by
  induction s with
  | nil => exact ⟨by simp, fun _ => .starNil⟩
  | cons c s ih =>
    rw [matches_star_cons_iff, List.forall_mem_cons, ← ih]
    constructor
    · rintro ⟨a, b, rfl, ha, hb⟩
      obtain ⟨x, hx, hxa⟩ := matches_one_iff.mp ha
      obtain ⟨rfl, rfl⟩ := List.cons.inj hxa
      exact ⟨hx, hb⟩
    · rintro ⟨hc, hs⟩
      exact ⟨[], s, rfl, .one hc, hs⟩

theorem matches_star_oneOf_iff {cs : List Char} :
    Matches (star (oneOf cs)) s ↔ ∀ c ∈ s, c ∈ cs := by
  induction s with
  | nil => exact ⟨by simp, fun _ => .starNil⟩
  | cons c s ih =>
    rw [matches_star_cons_iff, List.forall_mem_cons, ← ih]
    constructor
    · rintro ⟨a, b, rfl, ha, hb⟩
      obtain ⟨x, hx, hxa⟩ := matches_oneOf_iff.mp ha
      obtain ⟨rfl, rfl⟩ := List.cons.inj hxa
      exact ⟨hx, hb⟩
    · rintro ⟨hc, hs⟩
      exact ⟨[], s, rfl, matches_oneOf_iff.mpr ⟨c, hc, rfl⟩, hs⟩

theorem matches_plus_oneOf_iff {cs : List Char} :
    Matches (plus (oneOf cs)) s ↔ s ≠ [] ∧ ∀ c ∈ s, c ∈ cs := by
  rw [plus, matches_seq_iff]
  constructor
  · rintro ⟨a, b, rfl, ha, hb⟩
    obtain ⟨c, hc, rfl⟩ := matches_oneOf_iff.mp ha
    exact ⟨by simp, List.forall_mem_cons.mpr ⟨hc, matches_star_oneOf_iff.mp hb⟩⟩
  · rintro ⟨hne, hs⟩
    obtain ⟨c, s, rfl⟩ := List.exists_cons_of_ne_nil hne
    obtain ⟨hc, hs⟩ := List.forall_mem_cons.mp hs
    exact ⟨[c], s, rfl, matches_oneOf_iff.mpr ⟨c, hc, rfl⟩, matches_star_oneOf_iff.mpr hs⟩

theorem exists_derivative_iff {c : Char} :
    (∃ r ∈ p.derivatives c, Matches r s) ↔ Matches p (c :: s) := by
  have hmap (ps : List Pattern) (q : Pattern) (s : List Char) :
      (∃ r ∈ ps.map (andThen · q), Matches r s) ↔
        ∃ a b, s = a ++ b ∧ (∃ r ∈ ps, Matches r a) ∧ Matches q b := by
    simp only [List.mem_map]
    constructor
    · rintro ⟨_, ⟨r, hr, rfl⟩, h⟩
      obtain ⟨a, b, rfl, ha, hb⟩ := matches_seq_iff.mp (matches_andThen_iff.mp h)
      exact ⟨a, b, rfl, ⟨r, hr, ha⟩, hb⟩
    · rintro ⟨a, b, rfl, ⟨r, hr, ha⟩, hb⟩
      exact ⟨_, ⟨r, hr, rfl⟩, matches_andThen_iff.mpr (.seq ha hb)⟩
  induction p generalizing s with
  | never => simp [derivatives]
  | done => simp [derivatives]
  | one set =>
    by_cases h : set.contains c = true
    · simp [derivatives, h]
    · simp [derivatives, h]
  | seq p q hp hq =>
    rw [derivatives, matches_seq_cons_iff, ← nullable_iff]
    split_ifs with hn
    · simp only [mem_join, or_and_right, exists_or, hmap, hp, hq, hn, true_and]
    · simp only [hmap, hp, hn, Bool.false_eq_true, false_and, or_false]
  | alt p q hp hq =>
    simp only [derivatives, mem_join, or_and_right, exists_or, hp, hq, matches_alt_iff]
  | star p hp => simp only [derivatives, hmap, hp, matches_star_cons_iff]

/-- Whether one of several patterns matches. -/
def AnyMatches (ps : List Pattern) (s : List Char) : Prop := ∃ p ∈ ps, Matches p s

theorem anyMatches_step {c : Char} {ps : List Pattern} :
    AnyMatches (step c ps) s ↔ AnyMatches ps (c :: s) := by
  induction ps with
  | nil => simp [AnyMatches, step]
  | cons p ps ih =>
    simp only [AnyMatches, step, List.foldr_cons, mem_join, or_and_right, exists_or, List.mem_cons,
      exists_eq_left, exists_derivative_iff] at ih ⊢
    rw [← ih]

theorem any_nullable_iff {ps : List Pattern} : ps.any nullable = true ↔ AnyMatches ps [] := by
  simp [AnyMatches, nullable_iff]

/-! ### The longest match -/

/-- The lengths that the pass through `s` has to choose from: the best so far, and those of the
prefixes that match. -/
def Candidate (ps : List Pattern) (n : Nat) (best : Option Nat) (s : List Char) (k : Nat) : Prop :=
  best = some k ∨ ∃ m, 0 < m ∧ m ≤ s.length ∧ k = n + m ∧ AnyMatches ps (s.take m)

theorem candidate_nil {ps : List Pattern} {n k : Nat} {best : Option Nat} :
    Candidate ps n best [] k ↔ best = some k := by
  constructor
  · rintro (h | ⟨m, hm, hl, -⟩)
    · exact h
    · simp only [List.length_nil] at hl
      omega
  · exact .inl

/-- One character further the prefixes that match are the same but for the one of that length. -/
theorem candidate_cons {ps : List Pattern} {n k : Nat} {best : Option Nat} {c : Char} :
    Candidate ps n best (c :: s) k ↔
      Candidate (step c ps) (n + 1) best s k ∨ k = n + 1 ∧ (step c ps).any nullable = true := by
  rw [any_nullable_iff]
  constructor
  · rintro (h | ⟨m, hm, hl, rfl, h⟩)
    · exact .inl (.inl h)
    · obtain ⟨m, rfl⟩ : ∃ l, m = l + 1 := ⟨m - 1, by omega⟩
      rw [List.take_succ_cons, ← anyMatches_step] at h
      cases m with
      | zero => exact .inr ⟨rfl, by simpa using h⟩
      | succ m =>
        rw [List.length_cons] at hl
        exact .inl (.inr ⟨m + 1, by omega, by omega, by omega, h⟩)
  · rintro ((h | ⟨m, hm, hl, rfl, h⟩) | ⟨rfl, h⟩)
    · exact .inl h
    · rw [anyMatches_step] at h
      exact .inr ⟨m + 1, by omega, by simpa using hl, by omega, h⟩
    · rw [anyMatches_step] at h
      exact .inr ⟨1, by omega, by simp, rfl, h⟩

/-- Where the best so far is the only candidate, it is the greatest. -/
theorem best_spec {ps : List Pattern} {n : Nat} {best : Option Nat}
    (h : ∀ k, Candidate ps n best s k ↔ best = some k) :
    (∀ k, best = some k → Candidate ps n best s k ∧ ∀ k', Candidate ps n best s k' → k' ≤ k) ∧
      (best = none → ∀ k, ¬ Candidate ps n best s k) := by
  simp only [h]
  refine ⟨fun k hk => ⟨hk, fun k' hk' => ?_⟩, fun hn k hk => by simp [hn] at hk⟩
  rw [hk] at hk'
  exact Nat.le_of_eq (Option.some.inj hk').symm

/-- The pass gives the greatest candidate, and none only where there is none. -/
theorem follow_spec {ps : List Pattern} {n : Nat} {best : Option Nat} (hb : ∀ b ∈ best, b ≤ n) :
    (∀ k, follow ps n best s = some k →
      Candidate ps n best s k ∧ ∀ k', Candidate ps n best s k' → k' ≤ k) ∧
    (follow ps n best s = none → ∀ k, ¬ Candidate ps n best s k) := by
  induction s generalizing ps n best with
  | nil =>
    simp only [follow]
    exact best_spec fun k => candidate_nil
  | cons c s ih =>
    rw [follow]
    split
    · next hstep =>
      refine best_spec fun k => ?_
      rw [candidate_cons, hstep]
      simp [Candidate, AnyMatches]
    · -- where the step itself is a match, it is a better one than the best so far
      by_cases hn : (step c ps).any nullable = true
      · obtain ⟨hs, hnone⟩ := @ih (step c ps) (n + 1) (some (n + 1)) (by simp)
        have hnow : Candidate (step c ps) (n + 1) (some (n + 1)) s (n + 1) := .inl rfl
        have hweaken {k : Nat} (h : Candidate (step c ps) (n + 1) (some (n + 1)) s k) :
            Candidate ps n best (c :: s) k := by
          rw [candidate_cons]
          rcases h with h | h
          · exact .inr ⟨(Option.some.inj h).symm, hn⟩
          · exact .inl (.inr h)
        simp only [hn, ↓reduceIte]
        refine ⟨fun k hk => ⟨hweaken (hs k hk).1, fun k' hk' => ?_⟩,
          fun h => absurd hnow (hnone h _)⟩
        have hle := (hs k hk).2 _ hnow
        rcases candidate_cons.mp hk' with (h | h) | ⟨rfl, -⟩
        · have := hb k' h
          omega
        · exact (hs k hk).2 k' (.inr h)
        · exact hle
      · have hsame (k : Nat) : Candidate ps n best (c :: s) k ↔
            Candidate (step c ps) (n + 1) best s k := by
          simp [candidate_cons, hn]
        simp only [hn, Bool.false_eq_true, ↓reduceIte, hsame]
        exact ih fun b h => Nat.le_succ_of_le (hb b h)

theorem candidate_zero {k : Nat} :
    Candidate [p] 0 (if p.nullable then some 0 else none) s k ↔ k ≤ s.length ∧
    Matches p (s.take k) := by
  have hany {t : List Char} : AnyMatches [p] t ↔ Matches p t := by simp [AnyMatches]
  cases k with
  | zero =>
    simp only [Candidate, List.take_zero, ← nullable_iff, Nat.zero_le, true_and]
    constructor
    · rintro (h | ⟨m, hm, -, h, -⟩)
      · by_contra hn
        simp [hn] at h
      · omega
    · intro h
      exact .inl (by simp [h])
  | succ k =>
    constructor
    · rintro (h | ⟨m, -, hl, hk, h⟩)
      · split_ifs at h
        simp at h
      · rw [show k + 1 = m by omega]
        exact ⟨hl, hany.mp h⟩
    · rintro ⟨hl, h⟩
      exact .inr ⟨k + 1, by omega, hl, by omega, hany.mpr h⟩

/-- The longest match is a prefix that matches. -/
theorem matches_of_longest {k : Nat} (h : p.longest s = some k) :
    k ≤ s.length ∧ Matches p (s.take k) := by
  have hb : ∀ b ∈ (if p.nullable then some 0 else none : Option Nat), b ≤ 0 := by
    split_ifs <;> simp
  exact candidate_zero.mp (((follow_spec hb).1 k h).1)

/-- No prefix that matches is longer than the longest match. -/
theorem exists_longest {k : Nat} (hk : k ≤ s.length) (h : Matches p (s.take k)) :
    ∃ n, p.longest s = some n ∧ k ≤ n := by
  have hb : ∀ b ∈ (if p.nullable then some 0 else none : Option Nat), b ≤ 0 := by
    split_ifs <;> simp
  obtain ⟨hs, hnone⟩ := @follow_spec s [p] 0 _ hb
  have hcandidate := candidate_zero.mpr ⟨hk, h⟩
  cases hl : p.longest s with
  | none => exact absurd hcandidate (hnone hl k)
  | some n => exact ⟨n, rfl, (hs n hl).2 k hcandidate⟩

end Pattern

end MacroBridge
