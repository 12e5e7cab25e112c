import MacroBridge.Proofs.Pattern
import MacroBridge.Token.Lexer

/-!
What the tokens of a source look like: their texts make up the source, and the kinds with a fixed
form have that form.
-/
namespace MacroBridge
open Pattern

namespace Lexer

/-! ### The winning rule -/

/-- The better of the best rule so far and one more. -/
def better (s : List Char) (best : Option (Rule × Nat)) (r : Rule) : Option (Rule × Nat) :=
  match r.pattern.longest s, best with
  | none, _ => best
  | some n, none => some (r, n)
  | some n, some (_, m) => if m < n then some (r, n) else best

variable {s : List Char} {best : Option (Rule × Nat)} {r r' : Rule} {rules : List Rule} {m n : Nat}

/-- Whether a match of length `m` has been found, or a longer one. -/
def Reaches (m : Nat) (best : Option (Rule × Nat)) : Prop := ∃ r n, best = some (r, n) ∧ m ≤ n

theorem better_eq_some (h : better s best r = some (r', n)) :
    best = some (r', n) ∨ r' = r ∧ r.pattern.longest s = some n := by
  unfold better at h
  split at h
  · exact .inl h
  · next k hk =>
    obtain ⟨rfl, rfl⟩ := Prod.mk.inj (Option.some.inj h)
    exact .inr ⟨rfl, hk⟩
  · next k r₀ m hk =>
    split_ifs at h
    · obtain ⟨rfl, rfl⟩ := Prod.mk.inj (Option.some.inj h)
      exact .inr ⟨rfl, hk⟩
    · exact .inl h

theorem Reaches.better (h : Reaches m best) (r : Rule) : Reaches m (better s best r) := by
  obtain ⟨r₀, k, rfl, hm⟩ := h
  unfold Lexer.better
  cases r.pattern.longest s with
  | none => exact ⟨r₀, k, rfl, hm⟩
  | some n =>
    simp only
    split_ifs with hk
    · exact ⟨r, n, rfl, by omega⟩
    · exact ⟨r₀, k, rfl, hm⟩

theorem reaches_better (h : r.pattern.longest s = some m) : Reaches m (better s best r) := by
  unfold better
  rw [h]
  cases best with
  | none => exact ⟨r, m, rfl, Nat.le_refl m⟩
  | some p =>
    simp only
    split_ifs with hk
    · exact ⟨r, m, rfl, Nat.le_refl m⟩
    · exact ⟨p.1, p.2, rfl, by omega⟩

theorem Reaches.foldl (h : Reaches m best) (rules : List Rule) :
    Reaches m (rules.foldl (Lexer.better s) best) := by
  induction rules generalizing best with
  | nil => exact h
  | cons r rules ih => exact ih (h.better r)

theorem foldl_better_eq_some (h : rules.foldl (better s) best = some (r, n)) :
    best = some (r, n) ∨ r ∈ rules ∧ r.pattern.longest s = some n := by
  induction rules generalizing best with
  | nil => exact .inl h
  | cons r' rules ih =>
    rcases ih h with hb | ⟨hr, hn⟩
    · rcases better_eq_some hb with hb | ⟨rfl, hn⟩
      · exact .inl hb
      · exact .inr ⟨List.mem_cons_self, hn⟩
    · exact .inr ⟨List.mem_cons_of_mem _ hr, hn⟩

/-- The winner is one of the rules, with its longest match. -/
theorem winner_eq_some (h : winner rules s = some (r, n)) :
    r ∈ rules ∧ n ≤ s.length ∧ Matches r.pattern (s.take n) := by
  have hf : rules.foldl (better s) none = some (r, n) := h
  rcases foldl_better_eq_some hf with hb | ⟨hr, hn⟩
  · simp at hb
  · exact ⟨hr, matches_of_longest hn⟩

/-- No rule matches more than the winner. -/
theorem exists_winner (hr : r ∈ rules) (hm : m ≤ s.length) (h : Matches r.pattern (s.take m)) :
    ∃ r' n, winner rules s = some (r', n) ∧ m ≤ n := by
  obtain ⟨k, hk, hmk⟩ := exists_longest hm h
  have hfold (best : Option (Rule × Nat)) : Reaches k (rules.foldl (better s) best) := by
    induction rules generalizing best with
    | nil => simp at hr
    | cons r' rules ih =>
      rcases List.mem_cons.mp hr with rfl | hr
      · exact (reaches_better hk).foldl rules
      · exact ih hr _
  obtain ⟨r', n, hw, hn⟩ := hfold none
  exact ⟨r', n, hw, by omega⟩

/-! ### The first token -/

/-- The first token is that of the winner, but for the quote of a broken lifetime. -/
theorem first_of_winner (h : winner Grammar.rules s = some (r, n)) (hk : r.kind ≠ .lifetime) :
    first s = (r.kind, n + tailLength r.tail (s.take n) (s.drop n)) := by
  have hb (text rest : List Char) : isBrokenLifetime r.kind text rest = false := by
    simp [isBrokenLifetime, hk]
  simp [first, h, hb]

theorem first_kind (h : (first s).1 ≠ .unknown) :
    ∃ r n, winner Grammar.rules s = some (r, n) ∧
      first s = (r.kind, n + tailLength r.tail (s.take n) (s.drop n)) := by
  unfold first at h ⊢
  split at h
  · simp at h
  · next r n hw =>
    dsimp only at h ⊢
    split_ifs at h with hb
    · simp at h
    · exact ⟨r, n, hw, if_neg hb⟩

/-- A token of a kind that only one rule gives has the text of its pattern. -/
theorem first_matches {kind : Kind} {p : Pattern} (hk : (first s).1 = kind) (hu : kind ≠ .unknown)
    (hp : ∀ r ∈ Grammar.rules, r.kind = kind → r.pattern = p ∧ r.tail = .plain) :
    (first s).2 ≤ s.length ∧ Matches p (s.take (first s).2) := by
  obtain ⟨r, n, hw, hf⟩ := first_kind (hk ▸ hu)
  obtain ⟨hr, hn, hm⟩ := winner_eq_some hw
  rw [hf] at hk ⊢
  obtain ⟨rfl, htail⟩ := hp r hr hk
  simpa [htail, tailLength] using ⟨hn, hm⟩

/-! ### All tokens -/

theorem cut_append (done base : List Token) (s : List Char) :
    cut (done ++ base) s = base.reverse ++ cut done s := by
  fun_induction cut done s with
  | case1 done => rw [cut, List.reverse_append]
  | case2 done c s kind n hf ih =>
    rw [cut]
    simp only [hf]
    exact ih

end Lexer

open Lexer

@[simp] theorem tokenize_nil : tokenize [] = [] := by simp [tokenize, cut]

theorem tokenize_cons (c : Char) (s : List Char) :
    tokenize (c :: s) = ⟨(first (c :: s)).1, c :: s.take ((first (c :: s)).2 - 1)⟩ ::
      tokenize (s.drop ((first (c :: s)).2 - 1)) := by
  rw [tokenize, cut]
  exact cut_append [] [_] _

/-- The first token of a text, and what is left for the others. -/
theorem tokenize_eq_cons {s : List Char} {t : Token} {ts : List Token} (h : tokenize s = t :: ts) :
    t.kind = (first s).1 ∧ t.text = s.take (max 1 (first s).2) ∧ t.text ≠ [] ∧
      s = t.text ++ s.drop t.text.length ∧ ts = tokenize (s.drop t.text.length) := by
  cases s with
  | nil => simp at h
  | cons c s =>
    rw [tokenize_cons] at h
    obtain ⟨rfl, rfl⟩ := List.cons.inj h
    generalize (first (c :: s)).2 = n
    have htake : (c :: s).take (max 1 n) = c :: s.take (n - 1) := by
      rw [show max 1 n = n - 1 + 1 by omega, List.take_succ_cons]
    have hdrop : (c :: s).drop (c :: s.take (n - 1)).length = s.drop (n - 1) := by
      rw [List.length_cons, List.drop_succ_cons, List.length_take]
      exact List.drop_eq_drop_min.symm
    exact ⟨rfl, htake.symm, by simp, by rw [hdrop]; simp, by rw [hdrop]⟩

theorem exists_tokenize_eq_cons {s : List Char} (h : s ≠ []) : ∃ t ts, tokenize s = t :: ts := by
  obtain ⟨c, s, rfl⟩ := List.exists_cons_of_ne_nil h
  exact ⟨_, _, tokenize_cons c s⟩

theorem tokenize_rest {a b : List Char} {t : Token} {ts : List Token}
    (h : tokenize (a ++ b) = t :: ts) (ht : t.text = a) : ts = tokenize b := by
  obtain ⟨-, -, -, -, hts⟩ := tokenize_eq_cons h
  rw [hts, ht, List.drop_left]

/-- Every character of the source is in exactly one token. -/
theorem sourceOf_tokenize (s : List Char) : Token.sourceOf (tokenize s) = s := by
  generalize ht : tokenize s = ts
  induction ts generalizing s with
  | nil =>
    cases s with
    | nil => rfl
    | cons c s => simp [tokenize_cons] at ht
  | cons t ts ih =>
    obtain ⟨-, -, -, hs, hts⟩ := tokenize_eq_cons ht
    rw [Token.sourceOf, List.flatMap_cons, ← Token.sourceOf, ih _ hts.symm, ← hs]

/-- The tokens from some place on are those of their own text. -/
theorem tokenize_sourceOf {s : List Char} {a ts : List Token} (h : tokenize s = a ++ ts) :
    tokenize (Token.sourceOf ts) = ts := by
  induction a generalizing s with
  | nil =>
    rw [List.nil_append] at h
    rw [← h, sourceOf_tokenize]
  | cons t a ih =>
    obtain ⟨-, -, -, -, hrest⟩ := tokenize_eq_cons h
    exact ih hrest.symm

/-! ### Kinds with a fixed form -/

open Grammar

theorem rule_opening (b : Bracket) : ∀ r ∈ rules, r.kind = .opening b →
    r.pattern = char b.openChar ∧ r.tail = .plain := by
  cases b <;> decide

theorem rule_closing (b : Bracket) : ∀ r ∈ rules, r.kind = .closing b →
    r.pattern = char b.closeChar ∧ r.tail = .plain := by
  cases b <;> decide

theorem rule_lifetime : ∀ r ∈ rules, r.kind = .lifetime →
    r.pattern = .seq (char '\'') name ∧ r.tail = .plain := by
  decide

theorem rule_intNumber : ∀ r ∈ rules, r.kind = .intNumber →
    r.pattern = .seq digits (opt suffix) ∧ r.tail = .plain := by
  decide

/-- A token of a kind that only one rule gives has the text of its pattern. -/
theorem matches_of_tokenize {s : List Char} {t : Token} {ts : List Token}
    (h : tokenize s = t :: ts) {p : Pattern} (hu : t.kind ≠ .unknown)
    (hp : ∀ r ∈ rules, r.kind = t.kind → r.pattern = p ∧ r.tail = .plain)
    (hn : p.nullable = false) : Matches p t.text := by
  obtain ⟨hk, ht, -⟩ := tokenize_eq_cons h
  obtain ⟨hl, hm⟩ := first_matches hk.symm hu hp
  have hpos : (first s).2 ≠ 0 := by
    intro h0
    rw [h0, List.take_zero, ← nullable_iff, hn] at hm
    simp at hm
  rwa [ht, show max 1 (first s).2 = (first s).2 by omega]

theorem text_of_opening {s : List Char} {t : Token} {ts : List Token} {b : Bracket}
    (h : tokenize s = t :: ts) (hk : t.kind = .opening b) : t.text = [b.openChar] := by
  have hm := matches_of_tokenize h (by simp [hk])
    (fun r hr hrk => rule_opening b r hr (hrk.trans hk)) rfl
  exact matches_char_iff.mp hm

theorem text_of_closing {s : List Char} {t : Token} {ts : List Token} {b : Bracket}
    (h : tokenize s = t :: ts) (hk : t.kind = .closing b) : t.text = [b.closeChar] := by
  have hm := matches_of_tokenize h (by simp [hk])
    (fun r hr hrk => rule_closing b r hr (hrk.trans hk)) rfl
  exact matches_char_iff.mp hm

theorem text_of_lifetime {s : List Char} {t : Token} {ts : List Token}
    (h : tokenize s = t :: ts) (hk : t.kind = .lifetime) : ∃ name, t.text = '\'' :: name := by
  have hm := matches_of_tokenize h (by simp [hk])
    (fun r hr hrk => rule_lifetime r hr (hrk.trans hk)) rfl
  obtain ⟨a, b, hs, ha, -⟩ := matches_seq_iff.mp hm
  exact ⟨b, by rw [hs, matches_char_iff.mp ha]; rfl⟩

end MacroBridge
