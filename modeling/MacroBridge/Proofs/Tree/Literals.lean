import Mathlib
import MacroBridge.Proofs.Tree.Reparse

/-!
Literals in the source text of a tree. Their texts are read again exactly if no number runs into
what is rendered right behind it; the first number that does is read with another text.
-/
namespace MacroBridge
open Lexer Grammar
open Pattern (Matches)
open TokenTree (render numbersEndAll)

/-! ### Texts of literals -/

/-- The text of the literal met at a station. -/
def Visit.literal? : Visit → Option String
  | leaf (.literal l) => some l.text
  | _ => none

/-- The texts of the literals in trees, in depth-first order. -/
def TokenTree.literalsAll (ts : List TokenTree) : List String :=
  ts.flatMap fun t => t.visits.filterMap Visit.literal?

/-- The texts of all literals in depth-first order. -/
def Subtree.literals (s : Subtree) : List String := s.visits.filterMap Visit.literal?

namespace TokenTree

theorem literalsAll_append (ts us : List TokenTree) :
    literalsAll (ts ++ us) = literalsAll ts ++ literalsAll us :=
  List.flatMap_append

theorem literalsAll_group (d : Option Delimiter) (cs ts : List TokenTree) :
    literalsAll (group d cs :: ts) = literalsAll cs ++ literalsAll ts := by
  simp [literalsAll, visits_group, List.filterMap_cons, List.filterMap_flatMap, Visit.literal?]

end TokenTree

open TokenTree (literalsAll)

theorem Subtree.literals_eq (s : Subtree) : s.literals = literalsAll s.children := by
  simp [Subtree.literals, Subtree.visits, Subtree.toTree, literalsAll, List.filterMap_cons,
    List.filterMap_flatMap, Visit.literal?]

/-- Two lists differ at some place where both have an element, and are the same up to there. -/
def Diverge {α : Type} (l l' : List α) : Prop := ∃ p x y, x ≠ y ∧ p ++ [x] <+: l ∧ p ++ [y] <+: l'

namespace Diverge
variable {α : Type} {l l' : List α}

theorem cons {x y : α} (h : x ≠ y) (l l' : List α) : Diverge (x :: l) (y :: l') :=
  ⟨[], x, y, h, ⟨l, rfl⟩, ⟨l', rfl⟩⟩

theorem append_left (h : Diverge l l') (r : List α) : Diverge (r ++ l) (r ++ l') := by
  obtain ⟨p, x, y, hne, hl, hl'⟩ := h
  refine ⟨r ++ p, x, y, hne, ?_, ?_⟩
  · rw [List.append_assoc]
    exact (List.prefix_append_right_inj r).mpr hl
  · rw [List.append_assoc]
    exact (List.prefix_append_right_inj r).mpr hl'

theorem append_right (h : Diverge l l') (r r' : List α) : Diverge (l ++ r) (l' ++ r') := by
  obtain ⟨p, x, y, hne, hl, hl'⟩ := h
  exact ⟨p, x, y, hne, hl.trans (List.prefix_append l r), hl'.trans (List.prefix_append l' r')⟩

theorem ne (h : Diverge l l') : l ≠ l' := by
  rintro rfl
  obtain ⟨p, x, y, hne, hl, hl'⟩ := h
  have hsame := List.prefix_of_prefix_length_le hl hl' (by simp)
  have heq := hsame.eq_of_length (by simp)
  exact hne (List.singleton_inj.mp (List.append_cancel_left heq))

end Diverge

namespace Builder
variable {stack : List Bracket} {c stop : Cursor} {next last last' : TokenId}
  {trees : List TokenTree}
  {t : Token} {ts : List Token} {tail a w : List Char}

theorem literals_rootOf (options : ParseOptions) (ts : List TokenTree) :
    (rootOf options ts).literals = literalsAll ts := by
  rw [Subtree.literals_eq]
  unfold rootOf
  split
  · split_ifs
    · rw [TokenTree.literalsAll_group]
      simp [literalsAll]
    · rfl
  · rfl

theorem numbersEndAll_rootOf (options : ParseOptions) (ts : List TokenTree) :
    numbersEndAll (rootOf options ts).children = numbersEndAll ts := by
  unfold rootOf
  split
  · split_ifs
    · rw [TokenTree.numbersEndAll_group]
      simp [numbersEndAll]
    · rfl
  · rfl

/-! ### Numbers that are read with another text -/

/-- In front of `w` the number `a` is read as a number with another text. -/
def Misread (next : TokenId) (a w : List Char) : Prop :=
  ∀ o, ∃ t ts l, tokenize (a ++ w) = t :: ts ∧ t.kind.isNumber = true ∧
    (leavesAt t.kind (Cursor.ahead (a ++ w) o) next).1 = [.literal l] ∧ l.text.toList ≠ a

theorem misread_of_word {x : Char} {p : Pattern} (hp : p ∈ [integer, scientific])
    (hm : Matches p a) (hx : wordChar.contains x = true) : Misread next a (x :: w) := by
  intro o
  obtain ⟨t, ts, ht⟩ := exists_tokenize_eq_cons (s := a ++ x :: w) (by simp)
  obtain ⟨hk, hlong⟩ := number_longer hp hm hx ht
  obtain ⟨htrivia, hbracket⟩ := Kind.isPlain_of_isNumber hk
  have hready : (Cursor.ahead (a ++ x :: w) o).Ready :=
    ⟨rfl, (Cursor.atTrivia_eq (c := Cursor.ahead (a ++ x :: w) o) ht).trans htrivia⟩
  obtain ⟨l, hleaf⟩ :=
    exists_literal (Kind.isLiteral_of_isNumber hk) (Cursor.ahead (a ++ x :: w) o) next
  have hle := (prefix_literal hready ht (fun b => (hbracket b).1) hleaf).length_le
  refine ⟨t, ts, l, ht, hk, hleaf, fun heq => ?_⟩
  rw [heq] at hle
  omega

/-- A number with a point that an integer starts, if that is another number than `a`. -/
theorem misread_of_fraction {n : Nat} (ht : tokenize (a ++ w) = t :: ts) (hk : t.kind = .intNumber)
    (hn : Fraction.length (a ++ w) = some n) (hne : (a ++ w).take n ≠ a) : Misread next a w := by
  intro o
  obtain ⟨used, last, left, -, hcovers⟩ := exists_covers ht hk hn
  have hleaf : leavesAt .intNumber (Cursor.ahead (a ++ w) o) next = _ :=
    leavesAt_fraction hn (by rw [currentText_ahead ht]; exact hcovers.length_lt)
  exact ⟨t, ts, _, ht, by rw [hk]; rfl, by rw [hk, hleaf], by simpa using hne⟩

theorem misread_float (h : tokenize a = t :: ts) (hk : t.kind = .floatNumber)
    (hw : numberRunsInto t.text w = true) : Misread next t.text w := by
  have hm := floatNumber_matches h hk
  rcases cases_of_numberRunsInto hw with ⟨hlast, -⟩ | ⟨-, ⟨x, v, rfl, hx⟩ | ⟨hall, -⟩⟩
  · exact absurd hlast (getLast_scientific hm)
  · exact misread_of_word (by simp) hm hx
  · exact absurd hall (not_digits_of_scientific hm)

theorem misread_integer (h : tokenize a = t :: ts) (hk : t.kind = .intNumber)
    (hw : numberRunsInto t.text w = true) (hpunct : Punctuated w) : Misread next t.text w := by
  have hm := intNumber_matches h hk
  rcases cases_of_numberRunsInto hw with ⟨hlast, -⟩ | ⟨-, ⟨x, v, rfl, hx⟩ | ⟨hall, v, rfl, hv⟩⟩
  · exact absurd hlast (getLast_integer hm)
  · exact misread_of_word (by simp) hm hx
  · -- The point is taken along, as nothing behind it goes on with it.
    have hpoint : v.head?.any Fraction.continuesPoint = false := by
      cases v with
      | nil => rfl
      | cons d v =>
        exact continuesPoint_of_behindOperator d (hpunct '.' _ rfl (by simp) d rfl)
          (by simpa using hv)
    have hfirst := tokenize_number h (by rw [hk]; rfl) (afterNumber_point v)
    obtain ⟨n, hn⟩ := Fraction.exists_length_of_trailing (digits_of_integer hm hall) hpoint
    obtain ⟨used, last, left, -, hcovers⟩ := exists_covers hfirst hk hn
    refine misread_of_fraction hfirst hk hn fun heq => ?_
    have hlong := hcovers.length_lt_take
    rw [heq] at hlong
    exact absurd hlong (Nat.lt_irrefl _)

theorem misread_point {s : List Char} {n : Nat} (h : tokenize s = t :: ts)
    (hk : t.kind = .intNumber) (hn : Fraction.length s = some n)
    (hw : numberRunsInto (s.take n) w = true) : Misread next (s.take n) w := by
  obtain ⟨us, hfirst⟩ := tokenize_fraction h hk hn w
  obtain ⟨used, last, left, -, hcovers⟩ := exists_covers h hk hn
  have hlong := hcovers.length_lt_take
  have hm := Fraction.matches_of_length hn
  obtain ⟨d, q, r, -, htake, -⟩ := Fraction.exists_point hn
  generalize s.take n = a at *
  rcases cases_of_numberRunsInto hw with ⟨hlast, hpoint⟩ | ⟨hlast, ⟨x, v, rfl, hx⟩ | ⟨hall, -⟩⟩
  · -- The point at the end is cut off, or it is not the end any more.
    cases hagain : Fraction.length (a ++ w) with
    | none =>
      intro o
      refine ⟨t, us, _, hfirst, by rw [hk]; rfl,
        by rw [hk, leavesAt_integer (c := Cursor.ahead (a ++ w) o) hagain], ?_⟩
      rw [currentText_ahead hfirst, String.toList_ofList]
      rintro rfl
      exact absurd hlong (Nat.lt_irrefl _)
    | some m =>
      refine misread_of_fraction hfirst hk hagain fun heq => ?_
      obtain ⟨b, rfl⟩ := List.getLast?_eq_some_iff.mp hlast
      have hno := Fraction.not_continuesPoint hagain heq
      have hsplit := List.take_append_drop m (b ++ ['.'] ++ w)
      rw [heq] at hsplit
      rw [List.append_cancel_left hsplit, hpoint] at hno
      simp at hno
  · rcases Pattern.matches_alt_iff.mp hm with hfull | htrail
    · obtain ⟨m, hagain, hlonger⟩ := Fraction.exists_length_of_full (w := v) hfull hx
      refine misread_of_fraction hfirst hk hagain fun heq => ?_
      have hlen := congrArg List.length heq
      simp only [List.length_take, List.length_append, List.length_cons] at hlen
      omega
    · obtain ⟨d', rfl, -⟩ := matches_trailing_iff.mp htrail
      simp at hlast
  · have hdot := hall '.' (by simp [htake])
    simp [digit, CharSet.contains] at hdot

/-- A number that runs into the text behind it is misread in front of that text. -/
theorem misread_literal (hc : c.Ready) (ht : c.tokens = t :: ts)
    (hk : t.kind.isNumber = true) {l : Literal} (hleaf : (leavesAt t.kind c next).1 = [.literal l])
    (hw : numberRunsInto l.text.toList w = true) (hpunct : Punctuated w) :
    Misread next l.text.toList w := by
  have htokens := hc.tokens_eq.symm.trans ht
  have htext := Cursor.currentText_eq ht
  by_cases hint : t.kind = .intNumber
  · cases hn : Fraction.length c.rest with
    | none =>
      rw [hint, leavesAt_integer hn, htext] at hleaf
      obtain rfl : Literal.mk _ next = l := by simpa using hleaf
      rw [String.toList_ofList] at hw ⊢
      exact misread_integer htokens hint hw hpunct
    | some n =>
      obtain ⟨used, last, left, -, hcovers⟩ := exists_covers htokens hint hn
      rw [hint, leavesAt_fraction hn (htext ▸ hcovers.length_lt)] at hleaf
      obtain rfl : Literal.mk _ next = l := by simpa using hleaf
      rw [String.toList_ofList] at hw ⊢
      exact misread_point htokens hint hn hw
  · have hfloat := (Kind.isNumber_iff.mp hk).resolve_left hint
    rw [hfloat, leavesAt_literal rfl (by simp), htext] at hleaf
    obtain rfl : Literal.mk _ next = l := by simpa using hleaf
    rw [String.toList_ofList] at hw ⊢
    exact misread_float htokens hfloat hw

/-! ### The first number that is misread -/

/-- A number among what is built that runs into what is built behind it. -/
theorem Built.misread (hbehind : Built stack (leavesAt t.kind c next).2.bump last trees stop last')
    (hc : c.Ready) (hclean : Clean c) (ht : c.tokens = t :: ts)
    (ho : ∀ b, t.kind ≠ .opening b) {l : Literal}
    (hleaf : (leavesAt t.kind c next).1 = [.literal l]) (htail : Follows stack tail)
    (hruns : (TokenTree.leaf (.literal l)).runsInto (render trees) = true) :
    Misread next l.text.toList (render trees ++ tail) := by
  obtain ⟨taken, htakes⟩ := exists_takes hc ht ho next
  have hclean' := hclean.leavesAt t.kind next
  rw [TokenTree.runsInto_literal, Bool.and_eq_true, head_literal hc ht ho hleaf] at hruns
  have hk := isNumber_of_digit (hc.tokens_eq.symm.trans ht) (hclean t (by simp [ht])).1 hruns.1
  exact misread_literal hc ht hk hleaf ((numberRunsInto_append _ _ htail).trans hruns.2)
    (hbehind.punctuated htakes.ready hclean' htail)

/-- Where a number runs into what is built behind it, other literals are built over the source
text. -/
theorem Built.diverges (h : Built stack c next trees stop last) (hc : c.Ready) (hclean : Clean c)
    (hends : numbersEndAll trees ≠ true) (htail : Follows stack tail) {o : Nat}
    {trees' : List TokenTree} {stop' : Cursor} {last' : TokenId}
    (h' : Built stack (Cursor.ahead (render trees ++ tail) o) next trees' stop' last') :
    Diverge (literalsAll trees) (literalsAll trees') := by
  induction h generalizing tail o trees' stop' last' with
  | stop => exact absurd rfl hends
  | @group stack c mid stop next between last children trees t ts b ht hk hin hbehind ih₁ ih₂ =>
    obtain ⟨hmid, -⟩ := hin.ready hc.bump
    have hcleanmid : Clean mid := hclean.bump.of_suffix hin.suffix
    have hcloses : Follows (b :: stack) (b.closeChar :: (render trees ++ tail)) := rfl
    obtain ⟨⟨us, hopen⟩, hinto, hout⟩ := Built.ahead_group hc hclean ht hk hin hbehind htail next
    obtain ⟨children', later, mid', between', rfl, hin', hbehind'⟩ := h'.of_opening hopen hk
    obtain ⟨o₁, hinto⟩ := hinto o
    rw [hinto] at hin'
    rw [TokenTree.numbersEndAll_group, ne_eq, Bool.and_eq_true,
      Decidable.not_and_iff_or_not] at hends
    rw [TokenTree.literalsAll_group, TokenTree.literalsAll_group]
    by_cases hinside : numbersEndAll children = true
    · -- The group is read as it is, and the difference is behind it.
      obtain ⟨o₂, hagain⟩ := hin.reparse hc.bump hclean.bump hinside hcloses o₁
      obtain ⟨rfl, rfl, rfl⟩ := hagain.unique hin'
      obtain ⟨o₃, hout⟩ := hout o₂
      rw [hout] at hbehind'
      exact (ih₂ hmid.bump hcleanmid.bump (hends.resolve_left (not_not.mpr hinside)) htail
        hbehind').append_left _
    · exact (ih₁ hc.bump hclean.bump hinside hcloses hin').append_right _ _
  | @leaves stack c stop next last trees t ts ht ho hclose hbehind ih =>
    obtain ⟨taken, htakes⟩ := exists_takes hc ht ho next
    have hclean' := hclean.leavesAt t.kind next
    rw [TokenTree.literalsAll_append]
    rw [TokenTree.render_leaves, List.append_assoc] at h'
    by_cases hruns : ∀ l, (leavesAt t.kind c next).1 = [.literal l] →
      (TokenTree.leaf (.literal l)).runsInto (render trees) = false
    · -- The leaves are read again, and the difference is behind them.
      obtain ⟨o', hcurrent, hleaves, hbump⟩ := reread_leaves hc hclean ht ho
        (hbehind.continues htakes.ready hclean' htail)
        (fun hk l hleaf => Built.numberEnds hc ht ho hclean hk hleaf hbehind htail
          (hruns l hleaf)) o
      obtain ⟨u, us, hu, hk⟩ := Cursor.exists_tokens_of_current hcurrent
      obtain ⟨later, rfl, hlater⟩ := h'.of_stays hu ⟨hk ▸ ho, hk ▸ hclose⟩
      rw [hk, hleaves, hbump] at hlater
      rw [hk, hleaves, TokenTree.literalsAll_append]
      have hends' : numbersEndAll trees ≠ true :=
        fun hall => hends (numbersEndAll_leavesAt_iff.mpr ⟨hruns, hall⟩)
      exact (ih htakes.ready hclean' hends' htail hlater).append_left _
    · push Not at hruns
      obtain ⟨l, hleaf, hl⟩ := hruns
      obtain ⟨u, us, l', hu, huk, hleaf', hne⟩ :=
        hbehind.misread hc hclean ht ho hleaf htail (by simpa using hl) o
      have hs : (leavesAt t.kind c next).1.flatMap Leaf.sourceText = l.text.toList := by
        simp [hleaf, Leaf.sourceText]
      rw [hs] at h'
      obtain ⟨later, rfl, -⟩ :=
        h'.of_stays hu (Token.stays_of_isPlain (Kind.isPlain_of_isNumber huk) stack)
      rw [hleaf, hleaf', TokenTree.literalsAll_append]
      exact .cons (fun heq => hne (by rw [heq])) _ _

end Builder

open Builder

/-- From the source text of a tree the same literal texts are read again exactly if no number runs
into the text that is rendered right behind it among its siblings. The source the tree is of is to
have no unknown token and no open raw string. -/
theorem literals_sourceText (source : List Char) (options : ParseOptions)
    (hknown : ∀ t ∈ tokenize source, t.kind ≠ .unknown)
    (hclosed : ∀ t ∈ tokenize source, t.isTerminated = true) :
    (Subtree.ofSource (Subtree.ofSource source options).sourceText options).literals =
        (Subtree.ofSource source options).literals ↔
      numbersEndAll (Subtree.ofSource source options).children = true := by
  obtain ⟨trees, trees', stop, stop', last, last', hbuilt, hclean, hbuilt', hroot⟩ :=
    Subtree.exists_built_sourceText source hknown hclosed
  obtain ⟨hready, -⟩ := Cursor.ofSource_spec source
  obtain ⟨htree, hagain⟩ := hroot options
  rw [hagain, htree, literals_rootOf, literals_rootOf, numbersEndAll_rootOf]
  constructor
  · intro hsame
    by_contra hends
    exact (hbuilt.diverges hready hclean hends (show Follows [] [] from rfl) hbuilt').ne hsame.symm
  · intro hends
    obtain ⟨o, hreparse⟩ := hbuilt.reparse hready hclean hends (show Follows [] [] from rfl) 0
    rw [(hreparse.unique hbuilt').1]

/-- Numbers in front of points and brackets, and literals in front of words. -/
def numberedSource : List Char := "'x' in[2.5..0x1f,\"a\"b]".toList

set_option maxRecDepth 4000 in
theorem literals_sourceText_numbered :
    (∀ t ∈ tokenize numberedSource, t.kind ≠ .unknown) ∧
    (∀ t ∈ tokenize numberedSource, t.isTerminated = true) ∧
    ((Subtree.ofSource (Subtree.ofSource numberedSource).sourceText).literals =
        (Subtree.ofSource numberedSource).literals ↔
      numbersEndAll (Subtree.ofSource numberedSource).children = true) ∧
    numbersEndAll (Subtree.ofSource numberedSource).children = true := by
  have htokens :
      (tokenize numberedSource).all (fun t => t.kind ≠ .unknown && t.isTerminated) = true := by cbv
  have hall : ∀ t ∈ tokenize numberedSource, t.kind ≠ .unknown ∧ t.isTerminated = true := by
    simpa using htokens
  have hends : numbersEndAll (Subtree.ofSource numberedSource).children = true := by cbv
  have hknown : ∀ t ∈ tokenize numberedSource, t.kind ≠ .unknown := fun t ht => (hall t ht).1
  have hclosed : ∀ t ∈ tokenize numberedSource, t.isTerminated = true := fun t ht => (hall t ht).2
  exact ⟨hknown, hclosed, literals_sourceText numberedSource {} hknown hclosed, hends⟩

/-- A number is read together with the word behind it, and a number that ends with its point is
read without it. -/
theorem literals_not_kept :
    (∀ s ∈ ["1 as u8".toList, "1. .x".toList], ∀ t ∈ tokenize s,
      t.kind ≠ .unknown ∧ t.isTerminated = true) ∧
    (Subtree.ofSource "1 as u8".toList).literals = ["1"] ∧
    (Subtree.ofSource (Subtree.ofSource "1 as u8".toList).sourceText).literals = ["1as"] ∧
    (Subtree.ofSource "1. .x".toList).literals = ["1."] ∧
    (Subtree.ofSource (Subtree.ofSource "1. .x".toList).sourceText).literals = ["1"] := by
  have htokens : ["1 as u8".toList, "1. .x".toList].all
      (fun s => (tokenize s).all fun t => t.kind ≠ .unknown && t.isTerminated) = true := by cbv
  refine ⟨fun s hs t ht => ?_, by cbv, by cbv, by cbv, by cbv⟩
  simpa using List.all_eq_true.mp (List.all_eq_true.mp htokens s hs) t ht

end MacroBridge
