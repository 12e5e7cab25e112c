import Mathlib
import MacroBridge.Proofs.Tree.Places

/-!
What the spacing of punctuation says about the source. Joint punctuation touches the next
character, which is punctuation beside it or the bracket that closes its group; where punctuation
that stands alone is followed by more of it, trivia lies in between.
-/
namespace MacroBridge
open Utf8 (charLength byteLength)

/-- Right at the byte `stop` there is the punctuation that comes next among siblings, or the
closing bracket of the group if none comes any more. -/
inductive Touches (d : Option Delimiter) (stop : Nat) : List TokenTree → List SourceChar → Prop
  | punct (q : Punct) (later : List TokenTree) (kind : Kind) (behind : List SourceChar) :
      Touches d stop (.leaf (.punct q) :: later) (⟨kind, q.char, stop⟩ :: behind)
  | closing {e : Delimiter} (hd : d = some e) (behind : List SourceChar) :
      Touches d stop [] (⟨.closing e.bracket, e.bracket.closeChar, stop⟩ :: behind)

/-- Trivia of the source lies between the byte `stop` and the next character, which is `c`. -/
def Parted (source : List Char) (stop : Nat) (c : Char) (behind : List SourceChar) : Prop :=
  ∃ kind start places t first last, behind = ⟨kind, c, start⟩ :: places ∧
    (t, first, last) ∈ Token.withRanges 0 (tokenize source) ∧ t.kind.isTrivia = true ∧
    stop ≤ first ∧ last ≤ start

/-- What its spacing says about punctuation at byte `start` in a token of some kind: `later` stands
behind it among its siblings in a group, and `behind` in the source. -/
structure Spaced (source : List Char) (d : Option Delimiter) (p : Punct)
    (later : List TokenTree) (kind : Kind) (start : Nat) (behind : List SourceChar) : Prop where
  /-- The quote of a lifetime. -/
  lifetime : kind = .lifetime → p.char = '\'' ∧ p.spacing = .joint ∧ ∃ i rest stop,
    later = .leaf (.ident i) :: rest ∧
    (⟨.lifetime, p.char :: i.text.toList⟩, start, stop) ∈ Token.withRanges 0 (tokenize source)
  joint : kind ≠ .lifetime → p.spacing = .joint →
    Touches d (start + charLength p.char) later behind
  alone : kind ≠ .lifetime → p.spacing = .alone → ∀ q rest, later = .leaf (.punct q) :: rest →
    Parted source (start + charLength p.char) q.char behind

namespace Builder

variable {c stop : Cursor} {t : Token} {ts : List Token} {next last next' : TokenId}
  {stack : List Bracket}
  {d : Option Delimiter} {trees : List TokenTree} {q : Punct} {rest : List TokenTree}

/-- The first leaf of a token that is neither literal nor word is its first character. -/
theorem exists_punct_head (next : TokenId) (hc : c.Ready) (ht : c.tokens = t :: ts)
    (hl : t.kind.isLiteral = false) (hi : t.kind.isIdent = false) :
    ∃ q ls s, (leavesAt t.kind c next).1 = .punct q :: ls ∧ t.text = q.char :: s := by
  have htokens := hc.tokens_eq.symm.trans ht
  have htext := Cursor.currentText_eq ht
  by_cases hlife : t.kind = .lifetime
  · obtain ⟨name, hname⟩ := text_of_lifetime htokens hlife
    rw [hlife, leavesAt_lifetime]
    exact ⟨_, _, name, rfl, hname⟩
  · obtain ⟨-, -, hne, -⟩ := tokenize_eq_cons htokens
    obtain ⟨x, s, hs⟩ := List.exists_cons_of_ne_nil hne
    rw [leavesAt_puncts hl hi hlife, htext, hs]
    obtain ⟨p, ls, hp, rfl⟩ := exists_puncts_cons (lastSpacing c) next x s
    exact ⟨p, ls, s, hp, rfl⟩

/-- Only a token that is neither literal nor word gives punctuation first. -/
theorem text_of_punct_head (hc : c.Ready) (ht : c.tokens = t :: ts)
    (h : (leavesAt t.kind c next).1.map .leaf ++ trees = .leaf (.punct q) :: rest) :
    t.kind.isLiteral = false ∧ t.kind.isIdent = false ∧ ∃ s, t.text = q.char :: s := by
  cases hl : t.kind.isLiteral with
  | true =>
    obtain ⟨l, hleaf⟩ := exists_literal hl c next
    simp [hleaf] at h
  | false =>
  cases hi : t.kind.isIdent with
  | true => simp [leavesAt_ident hi] at h
  | false =>
    obtain ⟨q', ls, s, hleaves, hs⟩ := exists_punct_head next hc ht hl hi
    rw [hleaves] at h
    obtain ⟨rfl, -⟩ : q' = q ∧ _ := by simpa using h
    exact ⟨rfl, rfl, s, hs⟩

/-! ### The last character of a token -/

/-- The characters ahead begin with that of a token. -/
theorem places_eq_cons (hc : c.Ready) (ht : c.tokens = t :: ts) {x : Char} {s : List Char}
    (hs : t.text = x :: s) : ∃ ps, Token.places c.ranges = ⟨t.kind, x, c.offset⟩ :: ps := by
  rw [hc.places_eq ht, hs]
  exact ⟨_, rfl⟩

/-- What follows joint punctuation touches it. -/
theorem Built.touches (h : Built stack c.bump next trees stop last) (hc : c.Ready)
    (ht : c.tokens = t :: ts) (hd : stack.head? = d.map Delimiter.bracket)
    (hjoint : lastSpacing c = .joint) :
    Touches d (c.offset + t.byteLength) trees (Token.places c.bump.ranges) := by
  obtain ⟨u, us, rfl, hu, hoffset, hopening, hl, hi⟩ := exists_joined ht hjoint
  rw [← hoffset]
  cases h with
  | stop h =>
    obtain ⟨b, hb, hk⟩ := Option.map_eq_some_iff.mp (closerOf_eq hu h)
    obtain ⟨e, rfl, rfl⟩ := Option.map_eq_some_iff.mp (hd.symm.trans hb)
    obtain ⟨ps, hps⟩ :=
      places_eq_cons hc.bump hu (text_of_closing (hc.bump.tokens_eq.symm.trans hu) hk.symm)
    rw [hps, ← hk]
    exact .closing rfl ps
  | group hu' hk =>
    obtain ⟨rfl, -⟩ := List.cons.inj (hu.symm.trans hu')
    simp [hk, Kind.isOpening] at hopening
  | leaves hu' =>
    obtain ⟨rfl, -⟩ := List.cons.inj (hu.symm.trans hu')
    obtain ⟨q, ls, s, hleaves, hs⟩ := exists_punct_head next hc.bump hu hl hi
    obtain ⟨ps, hps⟩ := places_eq_cons hc.bump hu hs
    rw [hps, hleaves]
    exact .punct q _ _ ps

/-- Trivia parts punctuation that stands alone from more punctuation. -/
theorem Built.parted {source : List Char}
    (h : Built stack c.bump next (.leaf (.punct q) :: rest) stop last) (hc : c.Ready)
    (ht : c.tokens = t :: ts) (hranges : c.ranges <:+ Token.withRanges 0 (tokenize source))
    (halone : lastSpacing c = .alone) :
    Parted source (c.offset + t.byteLength) q.char (Token.places c.bump.ranges) := by
  generalize htrees : TokenTree.leaf (.punct q) :: rest = trees at h
  cases h with
  | stop => simp at htrees
  | group => simp at htrees
  | @leaves _ _ _ _ _ trees u us hu ho =>
    obtain ⟨hl, hi, s, hs⟩ := text_of_punct_head hc.bump hu htrees.symm
    obtain ⟨ps, hps⟩ := places_eq_cons hc.bump hu hs
    obtain ⟨v, vs, rfl⟩ : ∃ v vs, ts = v :: vs := by
      refine List.exists_cons_of_ne_nil fun hnil => ?_
      have hlen := c.length_bump_le
      rw [hu, ht, hnil] at hlen
      simp at hlen
    have htrivia : v.kind.isTrivia = true := by
      by_contra hv
      -- A token that is no trivia would be the one behind the punctuation.
      obtain ⟨rfl, -⟩ := List.cons.inj (hu.symm.trans (Cursor.bump_eq ht (by simpa using hv)).1)
      have hopening : u.kind.isOpening = false := by
        cases hk : u.kind <;> simp_all [Kind.isOpening]
      simp [lastSpacing, Cursor.lookahead, ht, hv, hopening, hl, hi] at halone
    obtain ⟨hdrop, -, hoffset⟩ := Cursor.dropFirst_cons ht
    obtain ⟨-, -, hoffset'⟩ := Cursor.dropFirst_cons hdrop
    refine ⟨u.kind, c.bump.offset, ps, v, c.dropFirst.offset, c.dropFirst.offset + v.byteLength,
      hps, ?_, htrivia, by omega, ?_⟩
    · refine (c.ranges_dropFirst.trans hranges).subset ?_
      rw [Cursor.ranges_cons hdrop]
      exact List.mem_cons_self
    · have hskip : c.bump = c.dropFirst.dropFirst.skipTrivia := by
        rw [Cursor.bump_cons ht, Cursor.skipTrivia,
          if_pos ((Cursor.atTrivia_eq hdrop).trans htrivia)]
      rw [hskip, ← hoffset']
      exact c.dropFirst.dropFirst.offset_skipTrivia_le

/-! ### Punctuation of a tree -/

variable {source front : List Char} {p : Punct} {later : List TokenTree} {before after : List Leaf}

/-- What a token that is neither literal nor word gives of punctuation is spaced by what follows in
the source. -/
theorem spaced_puncts (hc : c.Ready) (ht : c.tokens = t :: ts)
    (hranges : c.ranges <:+ Token.withRanges 0 (tokenize source)) (hlife : t.kind ≠ .lifetime)
    (hd : stack.head? = d.map Delimiter.bracket)
    (hleaves : puncts (lastSpacing c) next t.text = before ++ .punct p :: after)
    (hbuilt : Built stack c.bump last trees stop next') :
    ∃ start behind, Token.places c.ranges =
        SourceChar.spread t.kind c.offset (before.flatMap Leaf.text) ++
          ⟨t.kind, p.char, start⟩ :: behind ∧
      Spaced source d p (after.map .leaf ++ trees) t.kind start behind := by
  obtain ⟨p', b, n, hp, htext, rfl, hspacing⟩ := puncts_eq_append hleaves
  obtain rfl := Leaf.punct.inj hp
  have hplaces := hc.places_eq ht
  rw [htext, SourceChar.spread_append, SourceChar.spread, List.append_assoc,
    List.cons_append] at hplaces
  have hstop (hb : b = []) :
      c.offset + Utf8.byteLength (before.flatMap Leaf.text) + charLength p.char =
        c.offset + t.byteLength := by
    simp [Token.byteLength, htext, hb, Utf8.byteLength, Nat.add_assoc]
  refine ⟨_, _, hplaces, fun h => absurd h hlife,
    fun _ hjoint => ?_, fun _ halone q rest hlater => ?_⟩
  · cases b with
    | nil =>
      rw [hstop rfl]
      exact hbuilt.touches hc ht hd (hspacing.symm.trans hjoint)
    | cons x b =>
      obtain ⟨q, ls, hls, rfl⟩ := exists_puncts_cons (lastSpacing c) n x b
      rw [hls]
      exact .punct q _ _ _
  · cases b with
    | nil =>
      obtain rfl : trees = .leaf (.punct q) :: rest := by simpa [puncts] using hlater
      rw [hstop rfl]
      exact hbuilt.parted hc ht hranges (hspacing.symm.trans halone)
    | cons x b => simp [hspacing] at halone

/-- The quote of a lifetime stands before its name. -/
theorem spaced_lifetime (hc : c.Ready) (ht : c.tokens = t :: ts)
    (hranges : c.ranges <:+ Token.withRanges 0 (tokenize source)) (hlife : t.kind = .lifetime)
    (hleaves : (leavesAt t.kind c next).1 = before ++ .punct p :: after) :
    before = [] ∧ ∃ behind, Token.places c.ranges = ⟨t.kind, p.char, c.offset⟩ :: behind ∧
      Spaced source d p (after.map .leaf ++ trees) t.kind c.offset behind := by
  obtain ⟨name, hname⟩ := text_of_lifetime (hc.tokens_eq.symm.trans ht) hlife
  have htext : c.currentText = '\'' :: name := by rw [Cursor.currentText, ht, ← hname]
  rw [hlife, leavesAt_lifetime, htext, List.drop_one, List.tail_cons] at hleaves
  obtain ⟨rfl, rfl, rfl⟩ : before = [] ∧ p = ⟨'\'', .joint, next⟩ ∧
      after = [.ident ⟨String.ofList name, next + 1⟩] := by
    cases before with
    | nil => simpa [eq_comm] using hleaves
    | cons l before => cases before <;> simp at hleaves
  obtain ⟨ps, hps⟩ := places_eq_cons hc ht hname
  refine ⟨rfl, ps, hps, fun _ => ⟨rfl, rfl, _, _, c.offset + t.byteLength, rfl, ?_⟩,
    fun h => absurd hlife h, fun h => absurd hlife h⟩
  have ht' : t = ⟨.lifetime, '\'' :: name⟩ := by rw [← hlife, ← hname]
  refine hranges.subset ?_
  rw [Cursor.ranges_cons ht, ht', String.toList_ofList]
  exact List.mem_cons_self

theorem Origin.spaced (h : Origin c front d (.punct p) later)
    (hranges : c.ranges <:+ Token.withRanges 0 (tokenize source)) :
    ∃ before kind start behind, Token.places c.ranges = before ++ ⟨kind, p.char, start⟩ :: behind ∧
      before.map SourceChar.char = front ∧ Spaced source d p later kind start behind := by
  cases h with
  | @mk c' s _ t next before after _ trees site hleaves =>
    obtain ⟨⟨mid, hmid, rfl⟩, hc, ⟨ts, ht⟩, -, stack, stop, last, hd, hbuilt⟩ := site
    have hsuffix : c'.ranges <:+ c.ranges := ⟨mid, hmid.symm⟩
    have hranges' := hsuffix.trans hranges
    have hplaces : Token.places c.ranges = Token.places mid ++ Token.places c'.ranges := by
      rw [hmid, Token.places_append]
    by_cases hlife : t.kind = .lifetime
    · obtain ⟨rfl, behind, hps, hspaced⟩ := spaced_lifetime hc ht hranges' hlife hleaves
      rw [hps] at hplaces
      exact ⟨_, _, _, behind, hplaces, by simp, hspaced⟩
    · cases hl : t.kind.isLiteral with
      | true =>
        obtain ⟨l, hleaf⟩ := exists_literal hl c' next
        rw [hleaf] at hleaves
        cases before <;> simp at hleaves
      | false =>
      cases hi : t.kind.isIdent with
      | true =>
        rw [leavesAt_ident hi] at hleaves
        cases before <;> simp at hleaves
      | false =>
        have htext := Cursor.currentText_eq ht
        rw [leavesAt_puncts hl hi hlife, htext] at hleaves hbuilt
        obtain ⟨start, behind, hps, hspaced⟩ :=
          spaced_puncts hc ht hranges' hlife hd hleaves hbuilt
        rw [hps, ← List.append_assoc] at hplaces
        exact ⟨_, _, start, behind,
          hplaces, by rw [List.map_append, SourceChar.chars_spread], hspaced⟩

end Builder

open Builder

/-- Punctuation in the tree of a source, each leaf of which is at a spot, is spaced by what stands
behind it in the source: joint where the next punctuation of its group or the bracket that closes
the group is at the very next byte, alone where trivia parts it from the next. -/
theorem spacing_ofSource (source : List Char) (options : ParseOptions) (p : Punct) :
    (Visit.leaf (.punct p) ∈ (Subtree.ofSource source options).visits → ∃ front d later,
      (Subtree.ofSource source options).Spot front d (.leaf (.punct p) :: later)) ∧
    ∀ (front : List Char) (d : Option Delimiter) (later : List TokenTree),
      (Subtree.ofSource source options).Spot front d (.leaf (.punct p) :: later) →
      ∃ before kind start behind,
        Token.places (Token.withRanges 0 (tokenize source)) =
          before ++ ⟨kind, p.char, start⟩ :: behind ∧
        before.map SourceChar.char = front ∧ Spaced source d p later kind start behind := by
  refine ⟨Subtree.exists_spot, fun front d later h => ?_⟩
  obtain ⟨hready, -⟩ := Cursor.ofSource_spec source
  obtain ⟨trees, stop, last, hbuilt, -, hroot⟩ := Subtree.exists_built_ofSource source
  rw [hroot, spot_rootOf] at h
  have hranges : (Cursor.ahead source 0).ranges = Token.withRanges 0 (tokenize source) := rfl
  have hsuffix : (Cursor.ofSource source).ranges <:+ Token.withRanges 0 (tokenize source) := by
    rw [Cursor.ofSource_eq, ← hranges]
    exact (Cursor.ahead source 0).ranges_skipTrivia
  have hspaced := (hbuilt.origin hready rfl h).spaced hsuffix
  rwa [Cursor.ofSource_eq, Cursor.places_skipTrivia, hranges] at hspaced

/-- A point that a closing bracket touches. -/
theorem spacing_ofSource_closing :
    Visit.leaf (.punct ⟨'.', .joint, 1⟩) ∈ (Subtree.ofSource "(.)".toList).visits ∧
    (∃ front d later,
      (Subtree.ofSource "(.)".toList).Spot front d (.leaf (.punct ⟨'.', .joint, 1⟩) :: later)) ∧
    (Subtree.ofSource "(.)".toList).Spot ['('] (some ⟨0, .paren⟩)
      [.leaf (.punct ⟨'.', .joint, 1⟩)] ∧
    ∃ before kind start behind,
      Token.places (Token.withRanges 0 (tokenize "(.)".toList)) =
        before ++ ⟨kind, '.', start⟩ :: behind ∧
      before.map SourceChar.char = ['('] ∧
      Spaced "(.)".toList (some ⟨0, .paren⟩) ⟨'.', .joint, 1⟩ [] kind start behind := by
  have htree : Subtree.ofSource "(.)".toList =
      ⟨some ⟨0, .paren⟩, [.leaf (.punct ⟨'.', .joint, 1⟩)]⟩ := by cbv
  have hspot : (Subtree.ofSource "(.)".toList).Spot ['('] (some ⟨0, .paren⟩)
      [.leaf (.punct ⟨'.', .joint, 1⟩)] := by
    rw [htree]
    exact .inside .here
  have hvisit : Visit.leaf (.punct ⟨'.', .joint, 1⟩) ∈ (Subtree.ofSource "(.)".toList).visits := by
    rw [htree]
    simp [Subtree.visits, Subtree.toTree]
  obtain ⟨hexists, hspaced⟩ := spacing_ofSource "(.)".toList {} ⟨'.', .joint, 1⟩
  exact ⟨hvisit, hexists hvisit, hspot, hspaced _ _ _ hspot⟩

end MacroBridge
