import Mathlib
import MacroBridge.Proofs.Text.Alphanumeric
import MacroBridge.Proofs.Token.Number
import MacroBridge.Proofs.Tree.Places
import MacroBridge.Proofs.Tree.Point

/-!
Points that belong to what stands behind them, as in `1.foo()` and `1..2`. No number takes such a
point, so the integer in front of it ends its literal.
-/
namespace MacroBridge
open Lexer Grammar
open Pattern (Matches)

/-! ### What may stand behind a number that ends with its point -/

namespace Fraction

/-- Signs that start a name without being alphanumeric. -/
def signs : List Char := ['℘', '℮']

theorem continuesPoint_of_nameStart {c : Char} (h : isNameStart c = true ∨ c = '_')
    (hc : c ∉ signs) : continuesPoint c = true := by
  rcases h with h | rfl
  · simp only [signs, List.mem_cons, List.not_mem_nil, or_false, not_or] at hc
    simp [continuesPoint, (isAlphanumeric_iff_of_isNameStart h).mpr hc]
  · rfl

end Fraction

/-! ### Integers in front of such points -/

variable {t u : Token} {ts after : List Token}

theorem head_of_ident {s : List Char} (h : tokenize s = t :: ts) (hk : t.kind = .ident) :
    ∃ c w, t.text = c :: w ∧ (isNameStart c = true ∨ c = '_') := by
  have hrule : ∀ r ∈ rules, r.kind = .ident →
      r.pattern = name ∨ r.pattern = .seq (Pattern.literal ['r', '#']) name := by
    decide
  have hshort : t.kind.isShort = true := by
    rw [hk]
    decide
  obtain ⟨r, hr, hrk, -, hm, -⟩ := exists_short_rule h (by simp [hk]) hshort
  rcases hrule r hr (hrk.trans hk) with hp | hp
  · rw [hp, name] at hm
    obtain ⟨a, w, htext, ha, -⟩ := Pattern.matches_seq_iff.mp hm
    obtain ⟨c, hc, rfl⟩ := Pattern.matches_one_iff.mp ha
    refine ⟨c, w, htext, ?_⟩
    rcases CharSet.contains_union_iff.mp hc with hc | hc
    · exact .inl hc
    · exact .inr (CharSet.contains_exactly_iff.mp hc)
  · rw [hp] at hm
    obtain ⟨a, w, htext, ha, -⟩ := Pattern.matches_seq_iff.mp hm
    rw [Pattern.matches_literal_iff.mp ha] at htext
    exact ⟨'r', '#' :: w, htext, .inl (by decide)⟩

/-- The point in front of an identifier is not taken into a number. -/
theorem length_eq_none_of_ident {s : List Char}
    (h : tokenize s = t :: ⟨.punct, ['.']⟩ :: u :: after) (hk : t.kind = .intNumber)
    (hu : u.kind = .ident) (hsign : ∀ c ∈ u.text.head?, c ∉ Fraction.signs) :
    Fraction.length s = none := by
  cases hn : Fraction.length s with
  | none => rfl
  | some n =>
    obtain ⟨used, last, left, hsplit, hcovers⟩ := exists_covers h hk hn
    rcases hcovers.kinds (hsplit ▸ h) with ⟨rfl, rfl⟩ | ⟨rfl, hlast⟩
    · obtain ⟨-, rfl⟩ := List.cons.inj hsplit
      obtain ⟨c, w, htext, hc⟩ :=
        head_of_ident (tokenize_sourceOf (a := [t, ⟨.punct, ['.']⟩]) h) hu
      have htake : s.take n = t.text ++ ['.'] := by simpa [Token.sourceOf] using hcovers.text.symm
      have hs : s = s.take n ++ Token.sourceOf (u :: after) := by
        rw [htake, ← sourceOf_tokenize s, h]
        simp [Token.sourceOf]
      have hdrop : (s.drop n).head? = some c := by
        have hsplit := List.take_append_drop n s
        rw [List.append_cancel_left (hsplit.trans hs)]
        simp [Token.sourceOf, htext]
      have hno := Fraction.not_continuesPoint hn htake
      have hyes := Fraction.continuesPoint_of_nameStart hc (hsign c (by simp [htext]))
      simp [hdrop, hyes] at hno
    · simp only [List.cons_append, List.nil_append, List.cons.injEq, true_and] at hsplit
      obtain ⟨rfl, -⟩ := hsplit
      simp [hu] at hlast

/-- The points of `..` are not taken into a number. -/
theorem length_eq_none_of_points {s : List Char} (h : tokenize s = t :: u :: after)
    (hk : t.kind = .intNumber) (hu : ['.', '.'] <+: u.text) : Fraction.length s = none := by
  cases hn : Fraction.length s with
  | none => rfl
  | some n =>
    obtain ⟨used, last, left, hsplit, hcovers⟩ := exists_covers h hk hn
    have hpoint : u = ⟨.punct, ['.']⟩ := by
      rcases hcovers.kinds (hsplit ▸ h) with ⟨rfl, rfl⟩ | ⟨rfl, -⟩
      · exact (List.cons.inj hsplit).1
      · exact (List.cons.inj hsplit).1
    simp [hpoint] at hu

/-- Where a number with a point ends at an integer or behind it, the integer is what stands behind
the point. -/
theorem Fraction.Covers.eq_last {s : List Char} {n : Nat} {v z : Token}
    {used used' left : List Token} (hcovers : Fraction.Covers s n v used' z)
    (h : tokenize s = v :: (used' ++ z :: left)) (hk : t.kind = .intNumber)
    (hsplit : used ++ t :: ts = used' ++ z :: left) (hle : (z :: left).length ≤ (t :: ts).length) :
    used = [⟨.punct, ['.']⟩] ∧ used' = [⟨.punct, ['.']⟩] ∧ z = t ∧ left = ts := by
  have hlen := congrArg List.length hsplit
  simp only [List.length_append, List.length_cons] at hlen hle
  -- The point is no integer, so the integer can only be what stands behind it.
  have hpoint : t ≠ ⟨.punct, ['.']⟩ := by
    rintro rfl
    simp at hk
  rcases hcovers.kinds h with ⟨rfl, rfl⟩ | ⟨rfl, -⟩
  · cases used with
    | nil => exact absurd (List.cons.inj hsplit).1 hpoint
    | cons w used =>
      simp only [List.length_cons, List.length_nil] at hlen
      omega
  · rcases used with _ | ⟨w, _ | ⟨x, used⟩⟩
    · exact absurd (List.cons.inj hsplit).1 hpoint
    · simpa [eq_comm] using hsplit
    · simp only [List.length_cons, List.length_nil] at hlen
      omega

/-! ### The literal that an integer ends -/

/-- In the tree of a source there is a literal with id `id` that ends with the integer token `t`,
which `before` stand in front of. It is either the integer alone or a number with a point that
another integer starts right in front of it. -/
def Subtree.EndsLiteral (tree : Subtree) (before : List Token) (t : Token) (id : TokenId)
    (later : List TokenTree) : Prop :=
  ∃ front taken d, before = front ++ taken ∧
    (taken = [] ∨ ∃ s, s.kind = .intNumber ∧ taken = [s, ⟨.punct, ['.']⟩]) ∧
    tree.Spot (Token.sourceOf (Token.significant front)) d
      (.leaf (.literal ⟨String.ofList (Token.sourceOf (taken ++ [t])), id⟩) :: later)

namespace Builder
variable {stack : List Bracket} {c stop : Cursor} {next last : TokenId} {trees : List TokenTree}

/-- Behind a token stand a point and an identifier. -/
theorem Built.point_ident (h : Built stack c.bump next trees stop last)
    (ht : c.tokens = t :: ⟨.punct, ['.']⟩ :: u :: after) (hu : u.kind = .ident) :
    ∃ later, trees = .leaf (.punct ⟨'.', .alone, next⟩) ::
      .leaf (.ident ⟨String.ofList u.text, next + 1⟩) :: later := by
  obtain ⟨hpoint, -⟩ := Cursor.bump_eq ht rfl
  have htext : c.bump.currentText = ['.'] := by rw [Cursor.currentText, hpoint]
  have hspacing : lastSpacing c.bump = .alone := by
    simp [lastSpacing, Cursor.lookahead, hpoint, hu, Kind.isIdent]
  obtain ⟨trees, rfl, hbehind⟩ := h.of_stays hpoint (Token.stays_of_isPlain (by decide) stack)
  rw [leavesAt_puncts rfl rfl (by simp), htext, hspacing] at hbehind ⊢
  obtain ⟨hident, -⟩ := Cursor.bump_eq hpoint (by rw [hu]; rfl)
  have htext := Cursor.currentText_eq hident
  obtain ⟨later, rfl, -⟩ :=
    hbehind.of_stays hident (Token.stays_of_isPlain (by rw [hu]; decide) stack)
  rw [leavesAt_ident (by rw [hu]; rfl), htext]
  exact ⟨later, rfl⟩

/-- Behind a token stands punctuation that begins with two points. -/
theorem Built.points (h : Built stack c.bump next trees stop last)
    (ht : c.tokens = t :: u :: after) (hu : u.kind = .punct) (hpoints : ['.', '.'] <+: u.text) :
    ∃ spacing later, trees = .leaf (.punct ⟨'.', .joint, next⟩) ::
      .leaf (.punct ⟨'.', spacing, next + 1⟩) :: later := by
  obtain ⟨hpoint, -⟩ := Cursor.bump_eq ht (by rw [hu]; rfl)
  obtain ⟨w, hw⟩ := hpoints
  have htext : c.bump.currentText = '.' :: '.' :: w := by
    rw [Cursor.currentText, hpoint]
    exact hw.symm
  obtain ⟨trees, rfl, -⟩ := h.of_stays hpoint (Token.stays_of_isPlain (by rw [hu]; decide) stack)
  rw [hu, leavesAt_puncts rfl rfl (by simp), htext]
  cases w with
  | nil => exact ⟨_, trees, rfl⟩
  | cons x w => exact ⟨.joint, _, rfl⟩

/-- An integer that starts no number with a point is taken alone or as what stands behind the point
of another. -/
theorem exists_integer_taken {us used : List Token} (hc : c.Ready)
    (hu : c.tokens = u :: us) (ht : c.tokens = used ++ t :: ts) (hk : t.kind = .intNumber)
    (hnone : Fraction.length (Token.sourceOf (t :: ts)) = none)
    (hstand : (leavesAt u.kind c next).2.tokens <:+ t :: ts) :
    (used = [] ∨ ∃ s, s.kind = .intNumber ∧ used = [s, ⟨.punct, ['.']⟩]) ∧ ∃ stand,
      leavesAt u.kind c next =
        ([.literal ⟨String.ofList (Token.sourceOf (used ++ [t])), next⟩], stand) ∧
      stand.Ready ∧ stand.tokens = t :: ts := by
  cases used with
  | nil =>
    obtain ⟨rfl, rfl⟩ := List.cons.inj (hu.symm.trans ht)
    have hrest : c.rest = Token.sourceOf (u :: us) := by rw [c.rest_eq, hu]
    have htext := Cursor.currentText_eq hu
    refine ⟨.inl rfl, c, ?_, hc, hu⟩
    rw [hk, leavesAt_integer (hrest ▸ hnone), htext]
    simp [Token.sourceOf]
  | cons v used =>
    obtain ⟨rfl, rfl⟩ := List.cons.inj (hu.symm.trans ht)
    have hmoves : (leavesAt u.kind c next).2 ≠ c := by
      intro hsame
      have hlen := hstand.length_le
      rw [hsame, hu] at hlen
      simp at hlen
      omega
    by_cases hint : u.kind = .intNumber
    · cases hn : Fraction.length c.rest with
      | none => exact absurd (by rw [hint, leavesAt_integer hn]) hmoves
      | some n =>
        obtain ⟨used', last, left, hsplit, hcovers, hready, hland⟩ :=
          hc.advanceTo_fraction hu hint hn
        have htext := Cursor.currentText_eq hu
        have hleaves : leavesAt u.kind c next = _ :=
          hint ▸ leavesAt_fraction hn (htext ▸ hcovers.length_lt)
        have hle : (last :: left).length ≤ (t :: ts).length := by
          rw [hleaves, hland] at hstand
          exact hstand.length_le
        obtain ⟨rfl, hused, rfl, rfl⟩ :=
          hcovers.eq_last (hsplit ▸ hu ▸ hc.tokens_eq.symm) hk hsplit hle
        refine ⟨.inr ⟨u, hint, rfl⟩, _, hleaves.trans ?_, hready, hland⟩
        rw [← hcovers.text, hused]
    · exact absurd (leavesAt_stays hint) hmoves

/-- An integer that starts no number with a point ends a literal, and the builder goes on right
behind it. -/
theorem exists_endsLiteral {source : List Char} {before : List Token}
    (h : tokenize source = before ++ t :: ts) (hk : t.kind = .intNumber)
    (hnone : Fraction.length (Token.sourceOf (t :: ts)) = none) (options : ParseOptions) :
    ∃ (id : TokenId) (later : List TokenTree) (c stop : Cursor) (stack : List Bracket)
      (last : TokenId),
      (Subtree.ofSource source options).EndsLiteral before t id later ∧ c.Ready ∧
      c.tokens = t :: ts ∧
      Built stack c.bump (id + 1) later stop last := by
  obtain ⟨hready, -⟩ := Cursor.ofSource_spec source
  obtain ⟨trees, stop, last, hbuilt, hend, hroot⟩ := Subtree.exists_built_ofSource source
  have hskip := (Cursor.ahead source 0).passes_skipTrivia rfl
  obtain ⟨used, hused⟩ :=
    Cursor.exists_tokens_skipTrivia (c := Cursor.ahead source 0) h (by rw [hk]; rfl)
  rw [← Cursor.ofSource_eq] at hskip hused
  obtain ⟨c, s, e, u, next, later, used, hsite, hspot, hsplit, hstand⟩ :=
    hbuilt.exists_site (d := none) hready rfl hused (by simp [hend]) (by rw [hk]; decide)
  obtain ⟨us, hu⟩ := hsite.current
  obtain ⟨front, hfront, rfl⟩ := (hskip.trans hsite.passes).tokens
  have hbefore : before = front ++ used := by
    rw [Cursor.tokens_ahead, h, hsplit, ← List.append_assoc] at hfront
    exact List.append_cancel_right hfront
  obtain ⟨htaken, stand, hleaves, hland, hstands⟩ :=
    exists_integer_taken hsite.ready hu hsplit hk hnone hstand
  obtain ⟨stack, stop, last, -, hbehind⟩ := hsite.built
  rw [hleaves] at hspot hbehind
  refine ⟨next, later, stand, stop, stack, last, ⟨front, used, e, hbefore, htaken, ?_⟩, hland,
    hstands, hbehind⟩
  rw [hroot]
  exact spot_rootOf.mpr hspot

end Builder

open Builder

/-- A point that belongs to what stands behind it is taken into no number. Behind a number that
ends with its point stands neither a point nor a letter or digit nor, two signs apart, the start of
a name. In a tree an integer right in front of a point with an identifier at it, or in front of two
points or more, ends its literal; the point and the identifier have leaves of their own. Whether
that literal is the integer alone is left open, since `1.2.foo` has `1.2` there and `0.1.2.foo` has
`2`. -/
theorem points_of_followers :
    (∀ (s d : List Char) (n : Nat), Fraction.length s = some n → s.take n = d ++ ['.'] →
      ∀ c ∈ (s.drop n).head?,
      c ≠ '.' ∧ isAlphanumeric c = false ∧ (isNameStart c = true ∨ c = '_' → c ∈ Fraction.signs)) ∧
    (∀ (source : List Char) (options : ParseOptions) (before after : List Token) (t u : Token),
      tokenize source = before ++ t :: ⟨.punct, ['.']⟩ :: u :: after → t.kind = .intNumber →
      u.kind = .ident →
      (∀ c ∈ u.text.head?, c ∉ Fraction.signs) →
      ∃ id later, (Subtree.ofSource source options).EndsLiteral before t id
        (.leaf (.punct ⟨'.', .alone, id + 1⟩) ::
          .leaf (.ident ⟨String.ofList u.text, id + 1 + 1⟩) :: later)) ∧
    ∀ (source : List Char) (options : ParseOptions) (before after : List Token) (t u : Token),
      tokenize source = before ++ t :: u :: after → t.kind = .intNumber → u.kind = .punct →
      ['.', '.'] <+: u.text →
      ∃ id spacing later, (Subtree.ofSource source options).EndsLiteral before t id
        (.leaf (.punct ⟨'.', .joint, id + 1⟩) ::
          .leaf (.punct ⟨'.', spacing, id + 1 + 1⟩) :: later) := by
  refine ⟨fun s d n hn hd c hc => ?_, fun source options before after t u h hk hu hsign => ?_,
    fun source options before after t u h hk hu hpoints => ?_⟩
  · have hno := Fraction.not_continuesPoint hn hd
    rw [hc, Option.any_some] at hno
    refine ⟨?_, ?_, fun hstart => ?_⟩
    · rintro rfl
      simp [Fraction.continuesPoint] at hno
    · simp only [Fraction.continuesPoint, Bool.or_eq_false_iff] at hno
      exact hno.2
    · by_contra hc
      rw [Fraction.continuesPoint_of_nameStart hstart hc] at hno
      simp at hno
  · have hnone := length_eq_none_of_ident (tokenize_sourceOf h) hk hu hsign
    obtain ⟨id, later, c, stop, stack, last, hends, hc, ht, hbuilt⟩ :=
      exists_endsLiteral h hk hnone options
    obtain ⟨later, rfl⟩ := hbuilt.point_ident ht hu
    exact ⟨id, later, hends⟩
  · have hnone := length_eq_none_of_points (tokenize_sourceOf h) hk hpoints
    obtain ⟨id, later, c, stop, stack, last, hends, hc, ht, hbuilt⟩ :=
      exists_endsLiteral h hk hnone options
    obtain ⟨spacing, later, rfl⟩ := hbuilt.points ht hu hpoints
    exact ⟨id, spacing, later, hends⟩

def fieldTokens : List Token :=
  [⟨.intNumber, ['1']⟩, ⟨.punct, ['.']⟩, ⟨.intNumber, ['2']⟩, ⟨.punct, ['.']⟩,
    ⟨.ident, "foo".toList⟩]

/-- Integers in front of the end of a statement, a name and a range. -/
theorem points_of_followers_field :
    (Fraction.length "1.;".toList = some 2 ∧ ∀ c ∈ ("1.;".toList.drop 2).head?,
      c ≠ '.' ∧ isAlphanumeric c = false ∧ (isNameStart c = true ∨ c = '_' → c ∈ Fraction.signs)) ∧
    (tokenize "1.2.foo".toList = fieldTokens ∧ ∃ id later,
      (Subtree.ofSource "1.2.foo".toList).EndsLiteral (fieldTokens.take 2) ⟨.intNumber, ['2']⟩ id
        (.leaf (.punct ⟨'.', .alone, id + 1⟩) :: .leaf (.ident ⟨"foo", id + 1 + 1⟩) :: later)) ∧
    tokenize "0..9".toList = [⟨.intNumber, ['0']⟩, ⟨.punct, ['.', '.']⟩, ⟨.intNumber, ['9']⟩] ∧
      ∃ id spacing later, (Subtree.ofSource "0..9".toList).EndsLiteral [] ⟨.intNumber, ['0']⟩ id
        (.leaf (.punct ⟨'.', .joint, id + 1⟩) ::
          .leaf (.punct ⟨'.', spacing, id + 1 + 1⟩) :: later) := by
  obtain ⟨hnumber, hfield, hrange⟩ := points_of_followers
  have hn : Fraction.length "1.;".toList = some 2 := by cbv
  have hfieldTokens : tokenize "1.2.foo".toList = fieldTokens := by cbv
  have hrangeTokens : tokenize "0..9".toList =
      [⟨.intNumber, ['0']⟩, ⟨.punct, ['.', '.']⟩, ⟨.intNumber, ['9']⟩] := by cbv
  refine ⟨⟨hn, hnumber _ ['1'] 2 hn rfl⟩, ⟨hfieldTokens, ?_⟩, hrangeTokens, ?_⟩
  · exact hfield _ {} (fieldTokens.take 2) [] _ _ hfieldTokens rfl rfl (by simp [Fraction.signs])
  · exact hrange _ {} [] _ _ _ hrangeTokens rfl rfl (by simp)

/-- An integer that stands behind a point of another one is no literal of its own, and a sign that
starts a name may stand behind a number that ends with its point. -/
theorem integer_in_front_of_field :
    tokenize "1.2.foo".toList = fieldTokens ∧
    Subtree.ofSource "1.2.foo".toList =
      ⟨none, [.leaf (.literal ⟨"1.2", 0⟩), .leaf (.punct ⟨'.', .alone, 1⟩),
        .leaf (.ident ⟨"foo", 2⟩)]⟩ ∧
    (∀ id, Visit.leaf (.literal ⟨"2", id⟩) ∉ (Subtree.ofSource "1.2.foo".toList).visits) ∧
    Fraction.length "1.℘".toList = some 2 ∧ isNameStart '℘' = true := by
  have htree : Subtree.ofSource "1.2.foo".toList =
      ⟨none, [.leaf (.literal ⟨"1.2", 0⟩), .leaf (.punct ⟨'.', .alone, 1⟩),
        .leaf (.ident ⟨"foo", 2⟩)]⟩ := by cbv
  refine ⟨by cbv, htree, fun id => ?_, by decide +kernel, by decide +kernel⟩
  rw [htree]
  simp [Subtree.visits, Subtree.toTree]

end MacroBridge
