import MacroBridge.Proofs.Token.Fraction
import MacroBridge.Token.Cursor

/-!
A cursor that moves through the tokens of a text stays on tokens of what is left of the text, and
passes over nothing but trivia.
-/
namespace MacroBridge

/-- The tokens that are not trivia. -/
def Token.significant (ts : List Token) : List Token := ts.filter fun t => !t.kind.isTrivia

theorem significant_cons {t : Token} (h : t.kind.isTrivia = false) (ts : List Token) :
    Token.significant (t :: ts) = t :: Token.significant ts := by
  simp [Token.significant, h]

theorem significant_append {ts : List Token} (h : ∀ t ∈ ts, t.kind.isTrivia = false)
    (us : List Token) : Token.significant (ts ++ us) = ts ++ Token.significant us := by
  have hall : Token.significant ts = ts := List.filter_eq_self.mpr fun t ht => by simp [h t ht]
  rw [Token.significant, List.filter_append, ← Token.significant, ← Token.significant, hall]

namespace Cursor

/-- The tokens ahead are those of the text ahead, and the first one is not trivia. -/
structure Ready (c : Cursor) : Prop where
  tokens_eq : c.tokens = tokenize c.rest
  atTrivia : c.atTrivia = false

variable {c : Cursor} {t : Token} {ts : List Token}

theorem dropFirst_cons (h : c.tokens = t :: ts) :
    c.dropFirst.tokens = ts ∧ c.dropFirst.rest = c.rest.drop t.text.length ∧
      c.dropFirst.offset = c.offset + t.byteLength := by
  unfold dropFirst
  split
  · next hn => simp [hn] at h
  · next u us hc =>
    obtain ⟨rfl, rfl⟩ := List.cons.inj (hc.symm.trans h)
    exact ⟨rfl, rfl, rfl⟩

theorem tokens_dropFirst (h : c.tokens = tokenize c.rest) :
    c.dropFirst.tokens = tokenize c.dropFirst.rest := by
  cases hc : c.tokens with
  | nil =>
    unfold dropFirst
    split
    · exact h
    · next hn => simp [hn] at hc
  | cons t ts =>
    obtain ⟨htokens, hrest, -⟩ := dropFirst_cons hc
    obtain ⟨-, -, -, -, hts⟩ := tokenize_eq_cons (h.symm.trans hc)
    rw [htokens, hrest, hts]

theorem atTrivia_eq (h : c.tokens = t :: ts) : c.atTrivia = t.kind.isTrivia := by
  simp [atTrivia, current, h]

theorem currentText_eq (h : c.tokens = t :: ts) : c.currentText = t.text := by
  rw [currentText, h]

theorem current_eq (h : c.tokens = t :: ts) : c.current = some t.kind := by
  rw [current, h]
  rfl

theorem exists_tokens_of_current {k : Kind} (hk : c.current = some k) :
    ∃ u us, c.tokens = u :: us ∧ u.kind = k := by
  obtain ⟨u, hu, rfl⟩ := Option.map_eq_some_iff.mp hk
  obtain ⟨us, hus⟩ := List.head?_eq_some_iff.mp hu
  exact ⟨u, us, hus, rfl⟩

theorem skipTrivia_spec (h : c.tokens = tokenize c.rest) :
    c.skipTrivia.Ready ∧ Token.significant c.skipTrivia.tokens = Token.significant c.tokens := by
  fun_induction skipTrivia c with
  | case1 c hc ih =>
    obtain ⟨hready, hsame⟩ := ih (tokens_dropFirst h)
    refine ⟨hready, hsame.trans ?_⟩
    obtain ⟨t, ts, ht⟩ := List.exists_cons_of_ne_nil (tokens_ne_nil_of_atTrivia hc)
    rw [(dropFirst_cons ht).1, ht, Token.significant, Token.significant,
      List.filter_cons_of_neg (by simpa [atTrivia_eq ht] using hc)]
  | case2 c hc => exact ⟨⟨h, by simpa using hc⟩, rfl⟩

theorem ofSource_spec (source : List Char) : (ofSource source).Ready ∧
    Token.significant (ofSource source).tokens = Token.significant (tokenize source) := by
  unfold ofSource
  exact skipTrivia_spec (congrArg tokenize (sourceOf_tokenize source)).symm

theorem bump_nil (h : c.tokens = []) : c.bump = c := by
  unfold Cursor.bump
  split
  · rfl
  · next hn => simp [h] at hn

theorem bump_cons (h : c.tokens = t :: ts) : c.bump = c.dropFirst.skipTrivia := by
  unfold Cursor.bump
  split
  · next hn => simp [h] at hn
  · rfl

theorem Ready.bump (h : c.Ready) : c.bump.Ready := by
  cases hc : c.tokens with
  | nil => rwa [bump_nil hc]
  | cons t ts =>
    rw [bump_cons hc]
    exact (skipTrivia_spec (tokens_dropFirst h.tokens_eq)).1

/-- A step passes over the current token and otherwise only over trivia. -/
theorem Ready.significant_bump (h : c.Ready) (ht : c.tokens = t :: ts) :
    Token.significant c.bump.tokens = Token.significant ts := by
  rw [bump_cons ht, (skipTrivia_spec (tokens_dropFirst h.tokens_eq)).2, (dropFirst_cons ht).1]

theorem Ready.significant_tokens (h : c.Ready) (ht : c.tokens = t :: ts) :
    Token.significant c.tokens = t :: Token.significant ts := by
  rw [ht, significant_cons ((atTrivia_eq ht).symm.trans h.atTrivia)]

/-- In front of a token that is not trivia, a step takes one token. -/
theorem bump_eq {u : Token} (ht : c.tokens = t :: u :: ts) (hu : u.kind.isTrivia = false) :
    c.bump.tokens = u :: ts ∧ c.bump.offset = c.offset + t.byteLength := by
  obtain ⟨htokens, -, hoffset⟩ := dropFirst_cons ht
  have hstay : c.dropFirst.skipTrivia = c.dropFirst := by
    rw [skipTrivia, if_neg]
    simp [atTrivia_eq htokens, hu]
  rw [bump_cons ht, hstay]
  exact ⟨htokens, hoffset⟩

/-- An advance to the end of a run of tokens without trivia stops on the last of them. -/
theorem Ready.advanceTo {used left : List Token} {last : Token} (h : c.Ready)
    (ht : c.tokens = used ++ last :: left) (hlast : last.text ≠ [])
    (hplain : ∀ u ∈ used ++ [last], u.kind.isTrivia = false) :
    (c.advanceTo (c.offset + Utf8.byteLength (Token.sourceOf (used ++ [last])))).Ready ∧
      (c.advanceTo (c.offset + Utf8.byteLength (Token.sourceOf (used ++ [last])))).tokens =
        last :: left := by
  induction used generalizing c with
  | nil =>
    have hstop : c.currentStop = c.offset + Utf8.byteLength (Token.sourceOf ([] ++ [last])) := by
      simp [currentStop, currentText, ht, Token.sourceOf]
    rw [Cursor.advanceTo, if_neg (by simp [ht]), if_neg (by omega)]
    exact ⟨h, ht⟩
  | cons u used ih =>
    have hstop : c.currentStop <
        c.offset + Utf8.byteLength (Token.sourceOf (u :: used ++ [last])) := by
      have hpos := Utf8.byteLength_pos hlast
      simp only [currentStop, currentText, ht, Token.sourceOf, List.cons_append, List.flatMap_cons,
        List.flatMap_append, List.flatMap_nil, Utf8.byteLength_append]
      omega
    have hnext : c.bump.tokens = used ++ last :: left ∧
        c.bump.offset = c.offset + u.byteLength := by
      cases used with
      | nil => exact bump_eq ht (hplain last (by simp))
      | cons v used => exact bump_eq ht (hplain v (by simp))
    have hready : c.bump.Ready := h.bump
    have hsum : c.offset + Utf8.byteLength (Token.sourceOf (u :: used ++ [last])) =
        c.bump.offset + Utf8.byteLength (Token.sourceOf (used ++ [last])) := by
      rw [hnext.2, Token.byteLength, List.cons_append, Token.sourceOf, List.flatMap_cons,
        Utf8.byteLength_append, ← Token.sourceOf, Nat.add_assoc]
    rw [Cursor.advanceTo, if_neg (by simp [ht]), if_pos hstop, hsum]
    exact ih hready hnext.1 fun v hv => hplain v (by simpa using .inr (by simpa using hv))

/-- An advance over a number with a point stops on the last token of it. -/
theorem Ready.advanceTo_fraction {n : Nat} (h : c.Ready) (ht : c.tokens = t :: ts)
    (hk : t.kind = .intNumber) (hn : Fraction.length c.rest = some n) :
    ∃ used last left, ts = used ++ last :: left ∧ Fraction.Covers c.rest n t used last ∧
      (c.advanceTo (c.offset + n)).Ready ∧ (c.advanceTo (c.offset + n)).tokens = last :: left := by
  obtain ⟨used, last, left, hts, hcovers⟩ := exists_covers (h.tokens_eq.symm.trans ht) hk hn
  have hused : c.tokens = (t :: used) ++ last :: left := by rw [ht, hts, List.cons_append]
  have hland := h.advanceTo hused hcovers.last_ne_nil fun u hu => (hcovers.plain u hu).1
  rw [hcovers.text, hcovers.bytes] at hland
  exact ⟨used, last, left, hts, hcovers, hland⟩

/-! ### Cursors on texts -/

/-- The cursor with a text ahead. -/
def ahead (s : List Char) (offset : Nat) : Cursor :=
  ⟨tokenize s, s, offset, (sourceOf_tokenize s).symm⟩

@[simp] theorem tokens_ahead (s : List Char) (offset : Nat) :
    (ahead s offset).tokens = tokenize s := rfl

@[simp] theorem rest_ahead (s : List Char) (offset : Nat) : (ahead s offset).rest = s := rfl

theorem eq_ahead (h : c.tokens = tokenize c.rest) : c = ahead c.rest c.offset := by
  rcases c with ⟨tokens, rest, offset, hrest⟩
  simp only [ahead, Cursor.mk.injEq, and_true]
  exact h

theorem ofSource_eq (source : List Char) : ofSource source = (ahead source 0).skipTrivia := by
  rw [ofSource, eq_ahead (c := ⟨tokenize source, _, 0, rfl⟩)
    (congrArg tokenize (sourceOf_tokenize source)).symm]
  simp only [sourceOf_tokenize]

theorem atTrivia_ahead (s : List Char) (o o' : Nat) :
    (ahead s o).atTrivia = (ahead s o').atTrivia := rfl

variable {a s : List Char}

theorem dropFirst_ahead (h : tokenize (a ++ s) = t :: ts) (ht : t.text = a) (o : Nat) :
    ∃ o', (ahead (a ++ s) o).dropFirst = ahead s o' := by
  have hc : (ahead (a ++ s) o).tokens = t :: ts := h
  have hrest := (dropFirst_cons hc).2.1
  rw [rest_ahead, ht, List.drop_left] at hrest
  refine ⟨(ahead (a ++ s) o).dropFirst.offset, ?_⟩
  conv_lhs => rw [eq_ahead (tokens_dropFirst (c := ahead (a ++ s) o) rfl), hrest]

theorem skipTrivia_eq (h : c.atTrivia = false) : c.skipTrivia = c := by
  rw [skipTrivia, if_neg (by simp [h])]

/-- A step over the token at the front of a text. -/
theorem bump_ahead (h : tokenize (a ++ s) = t :: ts) (ht : t.text = a)
    (hs : (ahead s 0).atTrivia = false) (o : Nat) :
    ∃ o', (ahead (a ++ s) o).bump = ahead s o' := by
  obtain ⟨o', ho⟩ := dropFirst_ahead h ht o
  exact ⟨o', by rw [bump_cons (c := ahead (a ++ s) o) h, ho,
    skipTrivia_eq (hs ▸ atTrivia_ahead s o' 0)]⟩

/-- A step over the token at the front of a text and over a space behind it. -/
theorem bump_ahead_space (h : tokenize (a ++ ' ' :: s) = t :: ts) (ht : t.text = a)
    (hspace : tokenize (' ' :: s) = ⟨.whitespace, [' ']⟩ :: tokenize s)
    (hs : (ahead s 0).atTrivia = false) (o : Nat) :
    ∃ o', (ahead (a ++ ' ' :: s) o).bump = ahead s o' := by
  obtain ⟨o₁, h₁⟩ := dropFirst_ahead h ht o
  have htrivia : (ahead (' ' :: s) o₁).atTrivia = true :=
    atTrivia_eq (c := ahead (' ' :: s) o₁) hspace
  obtain ⟨o₂, h₂⟩ := dropFirst_ahead (a := [' ']) hspace rfl o₁
  refine ⟨o₂, ?_⟩
  rw [bump_cons (c := ahead (a ++ ' ' :: s) o) h, h₁, skipTrivia, if_pos htrivia]
  exact (congrArg skipTrivia h₂).trans (skipTrivia_eq (hs ▸ atTrivia_ahead s o₂ 0))

/-! ### Tokens ahead -/

/-- The tokens ahead with the byte offsets at which they start and end. -/
def ranges (c : Cursor) : List (Token × Nat × Nat) := Token.withRanges c.offset c.tokens

theorem ranges_cons (h : c.tokens = t :: ts) :
    c.ranges = (t, c.offset, c.offset + t.byteLength) :: c.dropFirst.ranges := by
  obtain ⟨htokens, -, hoffset⟩ := dropFirst_cons h
  rw [ranges, ranges, h, htokens, hoffset]
  rfl

theorem ranges_dropFirst (c : Cursor) : c.dropFirst.ranges <:+ c.ranges := by
  cases hc : c.tokens with
  | nil =>
    unfold dropFirst
    split
    · exact List.suffix_rfl
    · next hn => simp [hc] at hn
  | cons t ts =>
    rw [ranges_cons hc]
    exact List.suffix_cons _ _

theorem ranges_skipTrivia (c : Cursor) : c.skipTrivia.ranges <:+ c.ranges := by
  fun_induction skipTrivia c with
  | case1 c hc ih => exact ih.trans c.ranges_dropFirst
  | case2 c hc => exact List.suffix_rfl

theorem ranges_bump (c : Cursor) : c.bump.ranges <:+ c.ranges := by
  cases hc : c.tokens with
  | nil => simp only [bump_nil hc, List.suffix_rfl]
  | cons t ts =>
    rw [bump_cons hc]
    exact c.dropFirst.ranges_skipTrivia.trans c.ranges_dropFirst

theorem ranges_advanceTo (stop : Nat) (c : Cursor) : (c.advanceTo stop).ranges <:+ c.ranges := by
  fun_induction advanceTo stop c with
  | case1 => exact List.suffix_rfl
  | case2 c _ _ ih => exact ih.trans c.ranges_bump
  | case3 => exact List.suffix_rfl

@[simp] theorem fst_withRanges (o : Nat) (ts : List Token) :
    (Token.withRanges o ts).map Prod.fst = ts := by
  induction ts generalizing o with
  | nil => rfl
  | cons t ts ih => rw [Token.withRanges, List.map_cons, ih]

theorem suffix_of_ranges {c' : Cursor} (h : c'.ranges <:+ c.ranges) : c'.tokens <:+ c.tokens := by
  have hmap := h.map Prod.fst
  rwa [ranges, ranges, fst_withRanges, fst_withRanges] at hmap

theorem skipTrivia_suffix (c : Cursor) : c.skipTrivia.tokens <:+ c.tokens :=
  suffix_of_ranges c.ranges_skipTrivia

theorem bump_suffix (c : Cursor) : c.bump.tokens <:+ c.tokens := suffix_of_ranges c.ranges_bump

/-- Only trivia is skipped. -/
theorem exists_tokens_skipTrivia {used : List Token} (ht : c.tokens = used ++ t :: ts)
    (htrivia : t.kind.isTrivia = false) : ∃ used', c.skipTrivia.tokens = used' ++ t :: ts := by
  fun_induction skipTrivia c generalizing used with
  | case1 c hc ih =>
    cases used with
    | nil => simp [atTrivia_eq ht, htrivia] at hc
    | cons u used => exact ih (dropFirst_cons ht).1
  | case2 c hc => exact ⟨used, ht⟩

theorem exists_tokens_bump {u : Token} {used : List Token} (ht : c.tokens = u :: used ++ t :: ts)
    (htrivia : t.kind.isTrivia = false) : ∃ used', c.bump.tokens = used' ++ t :: ts := by
  rw [bump_cons ht]
  exact exists_tokens_skipTrivia (dropFirst_cons ht).1 htrivia

theorem offset_skipTrivia_le (c : Cursor) : c.offset ≤ c.skipTrivia.offset := by
  fun_induction skipTrivia c with
  | case1 c hc ih =>
    obtain ⟨t, ts, ht⟩ := List.exists_cons_of_ne_nil (tokens_ne_nil_of_atTrivia hc)
    have := (dropFirst_cons ht).2.2
    omega
  | case2 c hc => exact Nat.le_refl _

end Cursor

end MacroBridge
