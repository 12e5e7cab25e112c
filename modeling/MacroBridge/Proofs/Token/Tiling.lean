import MacroBridge.Proofs.Token.Counted
import MacroBridge.Proofs.Tree.Restart

/-!
The byte ranges of the tokens of a source. They lead from one end of the source to the other
without a gap, each has a slice of the source, and a token without its own end has the rest of the
source.
-/
namespace MacroBridge
open Pattern Lexer Grammar
open Utf8 (encode isBoundary slice? slice?_append length_encode)

/-! ### Closing quotes -/

/-- The character with which every match of a pattern ends, where the pattern shows one. -/
def Pattern.lastChar? : Pattern → Option Char
  | .seq _ q => q.lastChar?
  | .one (.exactly c) => some c
  | _ => none

theorem Pattern.getLast_of_lastChar {p : Pattern} {x : List Char} {c : Char}
    (hp : p.lastChar? = some c) (hm : Matches p x) : x.getLast? = some c := by
  induction p generalizing x with
  | seq p q _ ih =>
    obtain ⟨a, b, rfl, -, hb⟩ := matches_seq_iff.mp hm
    rw [List.getLast?_append, ih hp hb]
    rfl
  | one cs =>
    cases cs with
    | exactly d =>
      obtain rfl : d = c := Option.some.inj hp
      rw [matches_char_iff.mp hm]
      rfl
    | _ => simp [lastChar?] at hp
  | _ => simp [lastChar?] at hp

/-- The quote that closes a literal, raw strings apart. -/
def Kind.quoteMark? : Kind → Option Char
  | char | byte => some '\''
  | str | byteStr | cStr => some '"'
  | _ => none

variable {s after source : List Char} {t : Token} {ts : List Token} {offset start stop : Nat}

theorem last_of_quoted (h : tokenize s = t :: ts) {q : Char} (hq : t.kind.quoteMark? = some q) :
    t.text.getLast? = some q := by
  have hrule : ∀ r ∈ rules, r.kind.quoteMark?.isSome →
      r.pattern.lastChar? = r.kind.quoteMark? ∧ r.tail = .plain := by decide
  have hu : t.kind ≠ .unknown := by
    intro hu
    simp [hu, Kind.quoteMark?] at hq
  obtain ⟨r, hr, n, hrk, -, -, hm, ht⟩ := exists_rule h hu
  obtain ⟨hlast, htail⟩ := hrule r hr (by simp [hrk, hq])
  rw [htail, tailLength, Nat.add_zero] at ht
  rw [ht]
  exact getLast_of_lastChar (hlast.trans (hrk ▸ hq)) hm

/-! ### Tokens without an end -/

/-- Whether a comment or a literal in front of `after` lacks its own end. -/
inductive Token.Unterminated (t : Token) (after : List Char) : Prop
  /-- No line break stands behind a line comment. -/
  | lineComment (kind : t.kind = .lineComment) (next : after.head? ≠ some '\n')
  /-- A block comment in which not all that open are closed. -/
  | blockComment (kind : t.kind = .blockComment) (unclosed : ¬ IsComment t.text)
  /-- A raw string without a quote and the hashes of its opening at the end. -/
  | rawString (unclosed : t.isTerminated = false)
  /-- Another literal between quotes that does not end with one. -/
  | quoted (q : Char) (kind : t.kind.quoteMark? = some q) (unclosed : t.text.getLast? ≠ some q)

theorem Token.Unterminated.eq_nil (h : t.Unterminated after)
    (ht : tokenize (t.text ++ after) = t :: ts) : after = [] := by
  cases h with
  | lineComment hk hnext =>
    have hbreak := lineComment_next ht hk
    rw [List.drop_left] at hbreak
    cases after with
    | nil => rfl
    | cons c after =>
      obtain rfl := hbreak c rfl
      exact absurd rfl hnext
  | blockComment hk hopen => simpa using drop_of_not_isComment ht hk hopen
  | rawString hopen =>
    have hu : t.kind ≠ .unknown := by
      intro hu
      simp [Token.isTerminated, hu, Kind.rawMark?] at hopen
    simpa using drop_of_not_isTerminated ht hu hopen
  | quoted q hq hopen => exact absurd (last_of_quoted ht hq) hopen

/-! ### Ranges -/

/-- Ranges that lead from one offset to another: none is empty, and each begins where the one
before it ends. -/
inductive Tiles : (start stop : Nat) → List (Nat × Nat) → Prop
  | nil (offset : Nat) : Tiles offset offset []
  | cons {start mid stop : Nat} {ranges : List (Nat × Nat)} (h : start < mid)
      (hs : Tiles mid stop ranges) :
      Tiles start stop ((start, mid) :: ranges)

namespace Token

/-- The byte ranges of the tokens of a source. -/
def ranges (source : List Char) : List (Nat × Nat) := (withRanges 0 (tokenize source)).map (·.2)

theorem text_ne_nil (h : t ∈ tokenize s) : t.text ≠ [] := by
  obtain ⟨a, b, hab⟩ := List.append_of_mem h
  have htokens := tokenize_sourceOf hab
  exact (tokenize_eq_cons htokens).2.2.1

theorem tiles_withRanges (h : ∀ t ∈ ts, t.text ≠ []) (offset : Nat) :
    Tiles offset (offset + Utf8.byteLength (sourceOf ts)) ((withRanges offset ts).map (·.2)) := by
  induction ts generalizing offset with
  | nil => exact .nil offset
  | cons t ts ih =>
    obtain ⟨ht, hts⟩ := List.forall_mem_cons.mp h
    have hsource : Utf8.byteLength (sourceOf (t :: ts)) =
        t.byteLength + Utf8.byteLength (sourceOf ts) :=
      Utf8.byteLength_append t.text (sourceOf ts)
    rw [hsource, ← Nat.add_assoc]
    exact .cons (Nat.lt_add_of_pos_right (Utf8.byteLength_pos ht)) (ih hts _)

/-- The slices of tokens are their texts. -/
theorem slices_withRanges (front : List Char) (ts : List Token) :
    (withRanges (Utf8.byteLength front) ts).mapM
      (fun r => slice? (encode (front ++ sourceOf ts)) r.2.1 r.2.2) =
      some (ts.map fun t => encode t.text) := by
  induction ts generalizing front with
  | nil => rfl
  | cons t ts ih =>
    have hsource : front ++ sourceOf (t :: ts) = (front ++ t.text) ++ sourceOf ts :=
      (List.append_assoc front t.text (sourceOf ts)).symm
    have hslice := slice?_append front t.text (sourceOf ts)
    have hrest := ih (front ++ t.text)
    rw [Utf8.byteLength_append] at hrest
    rw [← List.append_assoc] at hslice
    rw [hsource, withRanges, List.mapM_cons]
    simp only [Token.byteLength, hslice, hrest]
    rfl

theorem slices_ranges (source : List Char) :
    ((ranges source).mapM fun r => slice? (encode source) r.1 r.2).map List.flatten =
    some (encode source) := by
  have hslices := slices_withRanges [] (tokenize source)
  rw [List.nil_append, sourceOf_tokenize] at hslices
  have hflatten : ((tokenize source).map fun t => encode t.text).flatten =
      encode (sourceOf (tokenize source)) := by
    rw [sourceOf, encode, List.flatMap_assoc, List.flatMap_def]
    rfl
  rw [sourceOf_tokenize] at hflatten
  have hwhole := congrArg (Option.map List.flatten) hslices
  rw [Option.map_some, hflatten] at hwhole
  rw [ranges, List.mapM_map]
  exact hwhole

/-- A token at its range in a source, with `after` behind it. -/
structure Tile (source : List Char) (t : Token) (start stop : Nat) (after : List Char) : Prop where
  begins : isBoundary (encode source) start = true
  ends : isBoundary (encode source) stop = true
  slice : slice? (encode source) start stop = some (encode t.text)
  remainder : slice? (encode source) start (encode source).length = some (encode (t.text ++ after))
  /-- The characters of the token are as many as have been counted. -/
  whole : first (t.text ++ after) = (t.kind, t.text.length)
  /-- So are the bytes, those of the opening and those that are counted behind it. -/
  counted : t.kind ≠ .unknown → ∃ r ∈ declared, ∃ opening rest, r.kind = t.kind ∧
    Matches r.pattern opening ∧
    t.text ++ after = opening ++ rest ∧
    stop = start + (encode opening).length + tailBytes r.tail (encode opening) (encode rest)
  /-- Only the end of the source ends a comment or a literal that has no end of its own. -/
  unclosed : t.Unterminated after → stop = (encode source).length

theorem tile (h : (t, start, stop) ∈ withRanges 0 (tokenize source)) :
    ∃ after, t.Tile source start stop after := by
  obtain ⟨before, after, ts, rfl, hstart, hstop, ht⟩ := exists_place h
  rw [Nat.zero_add] at hstart
  subst hstart hstop
  refine ⟨after, ?_⟩
  constructor
  · exact Utf8.isBoundary_byteLength before _
  · have hends := Utf8.isBoundary_byteLength (before ++ t.text) after
    rwa [List.append_assoc, Utf8.byteLength_append] at hends
  · exact slice?_append before t.text after
  · have hrest := slice?_append before (t.text ++ after) []
    rw [length_encode, Utf8.byteLength_append]
    rwa [List.append_nil] at hrest
  · obtain ⟨hk, htext, hne, -⟩ := tokenize_eq_cons ht
    obtain ⟨hpos, hle⟩ := first_bounds (s := t.text ++ after) (by simp [hne])
    have hlen := congrArg List.length htext
    rw [Nat.max_eq_right hpos, List.length_take_of_le hle] at hlen
    exact Prod.ext hk.symm hlen.symm
  · intro hu
    obtain ⟨r, opening, extra, htext, hrk, hgives⟩ := exists_gives ht hu
    refine ⟨r, hgives.declared, opening, extra ++ after, hrk,
      hgives.opens, by rw [htext, List.append_assoc], ?_⟩
    rw [tailBytes_encode, hgives.tail, List.take_left, length_encode, Token.byteLength, htext,
      Utf8.byteLength_append, Nat.add_assoc]
  · intro hopen
    rw [hopen.eq_nil ht, List.append_nil, length_encode, Utf8.byteLength_append]
    rfl

end Token

/-! ### Cursors -/

namespace Cursor
variable {c : Cursor}

/-- The slices at a cursor that stands in a source. -/
theorem StandsIn.slices (h : c.StandsIn source) :
    slice? (encode source) c.offset c.currentStop = some (encode c.currentText) ∧
      slice? (encode source) c.offset (encode source).length = some (encode c.rest) := by
  obtain ⟨before, rfl, hbefore⟩ := h
  obtain ⟨more, hmore⟩ : ∃ more, c.rest = c.currentText ++ more := by
    cases ht : c.tokens with
    | nil => exact ⟨c.rest, by rw [currentText, ht]; rfl⟩
    | cons t ts => exact ⟨Token.sourceOf ts, by rw [c.rest_eq, currentText_eq ht, ht]; rfl⟩
  have hrest := slice?_append before c.rest []
  rw [List.append_nil] at hrest
  rw [currentStop, length_encode, Utf8.byteLength_append, ← hbefore]
  exact ⟨by rw [hmore]; exact slice?_append before c.currentText more, hrest⟩

end Cursor

/-- The tokens of a source tile it: their ranges lead from its beginning to its end, the slices at
them are defined and make up the source, and so are the slices from each of them on. A cursor has
the slices of the token that it stands on wherever it has moved, and at the end. -/
theorem tokens_tile (source : List Char) :
    Tiles 0 (encode source).length (Token.ranges source) ∧
    ((Token.ranges source).mapM fun r => slice? (encode source) r.1 r.2).map List.flatten =
    some (encode source) ∧
    (∀ t start stop, (t, start, stop) ∈ Token.withRanges 0 (tokenize source) →
      ∃ after, t.Tile source start stop after) ∧
    ∀ n, slice? (encode source) ((Cursor.ofSource source).bumpTimes n).offset
          ((Cursor.ofSource source).bumpTimes n).currentStop =
        some (encode ((Cursor.ofSource source).bumpTimes n).currentText) ∧
      slice? (encode source) ((Cursor.ofSource source).bumpTimes n).offset (encode source).length =
        some (encode ((Cursor.ofSource source).bumpTimes n).rest) := by
  refine ⟨?_, Token.slices_ranges source, fun t start stop => Token.tile, fun n => ?_⟩
  · have htiles :=
      Token.tiles_withRanges (fun t (h : t ∈ tokenize source) => Token.text_ne_nil h) 0
    rwa [sourceOf_tokenize, Nat.zero_add, ← length_encode] at htiles
  · exact ((Cursor.standsIn_ofSource source).bumpTimes n).slices

def openSource : List Char := "é r#\"日\"".toList

def openToken : Token := ⟨.rawStr, "r#\"日\"".toList⟩

set_option maxRecDepth 4000 in
/-- The closing hash is missing, so the raw string goes on to the end of the source. -/
theorem tokens_tile_open : (openToken, 3, 10) ∈ Token.withRanges 0 (tokenize openSource) ∧
    openToken.isTerminated = false ∧ 10 = (encode openSource).length ∧
    slice? (encode openSource) 3 10 = some (encode openToken.text) := by
  have hmem : (openToken, 3, 10) ∈ Token.withRanges 0 (tokenize openSource) :=
    List.mem_of_getElem? (i := 2) (by cbv)
  obtain ⟨-, -, htile, -⟩ := tokens_tile openSource
  obtain ⟨after, h⟩ := htile openToken 3 10 hmem
  have hopen : openToken.isTerminated = false := by cbv
  exact ⟨hmem, hopen, h.unclosed (.rawString hopen), h.slice⟩

end MacroBridge
