import Mathlib.Data.List.Basic
import MacroBridge.Proofs.Token.Number
import MacroBridge.Proofs.Tree.Built
import MacroBridge.Tree.Display

/-!
The source text of a tree: what it begins with, and how its leaves are read again.
-/
namespace MacroBridge
open Lexer Grammar

namespace TokenTree

/-- The source text of trees in their order. -/
def render (ts : List TokenTree) : List Char :=
  ts.flatMap fun t => t.visits.flatMap Visit.sourceText

@[simp] theorem render_nil : render [] = [] := rfl

theorem render_leaves (ls : List Leaf) (ts : List TokenTree) :
    render (ls.map .leaf ++ ts) = ls.flatMap Leaf.sourceText ++ render ts := by
  induction ls with
  | nil => rfl
  | cons l ls ih =>
    rw [render, List.map_cons, List.cons_append, List.flatMap_cons, ← render, ih, visits_leaf,
      List.flatMap_singleton, List.flatMap_cons, List.append_assoc]
    rfl

theorem render_group (d : Delimiter) (cs ts : List TokenTree) :
    render (group (some d) cs :: ts) =
      d.bracket.openChar :: (render cs ++ d.bracket.closeChar :: render ts) := by
  simp [render, visits_group, List.flatMap_assoc, Visit.sourceText]

/-! ### Numbers and what follows them -/

/-- A literal that starts with a digit. -/
def isNumber : TokenTree → Bool
  | leaf (.literal l) => l.text.toList.head?.any Char.isDigit
  | _ => false

/-- What would go on with a number in front of it. -/
def extendsNumber : TokenTree → Bool
  | leaf (.literal _) => true
  | leaf (.ident _) => true
  | leaf (.punct p) => p.char = '.'
  | group .. => false

mutual

/-- Whether no number within a tree is followed by something that would go on with it. -/
def numbersApart : TokenTree → Bool
  | leaf _ => true
  | group _ cs => numbersApartAll cs

def numbersApartAll : List TokenTree → Bool
  | [] => true
  | t :: ts => t.numbersApart && !(t.isNumber && ts.head?.any extendsNumber) && numbersApartAll ts

end

theorem numbersApartAll_append (ls : List Leaf) (ts : List TokenTree)
    (h : numbersApartAll (ls.map .leaf ++ ts) = true) : numbersApartAll ts = true := by
  induction ls with
  | nil => exact h
  | cons l ls ih =>
    rw [List.map_cons, List.cons_append, numbersApartAll, Bool.and_eq_true] at h
    exact ih h.2

/-- Whether a tree is a number that is read together with some of the text right behind it, or
without its point. -/
def runsInto (w : List Char) : TokenTree → Bool
  | leaf (.literal l) => l.text.toList.head?.any Char.isDigit && numberRunsInto l.text.toList w
  | _ => false

theorem runsInto_literal (w : List Char) (l : Literal) : (leaf (.literal l)).runsInto w =
    (l.text.toList.head?.any Char.isDigit && numberRunsInto l.text.toList w) := rfl

mutual

/-- Whether no number within a tree runs into the source text of its later siblings. -/
def numbersEnd : TokenTree → Bool
  | leaf _ => true
  | group _ cs => numbersEndAll cs

def numbersEndAll : List TokenTree → Bool
  | [] => true
  | t :: ts => t.numbersEnd && !t.runsInto (render ts) && numbersEndAll ts

end

theorem numbersEndAll_group (d : Option Delimiter) (cs ts : List TokenTree) :
    numbersEndAll (group d cs :: ts) = (numbersEndAll cs && numbersEndAll ts) := by
  simp [numbersEndAll, numbersEnd, runsInto]

theorem numbersEndAll_literal (l : Literal) (ts : List TokenTree) :
    numbersEndAll (leaf (.literal l) :: ts) =
      (!(leaf (.literal l)).runsInto (render ts) && numbersEndAll ts) := by
  simp [numbersEndAll, numbersEnd]

theorem numbersEndAll_leaves {ls : List Leaf} (h : ∀ l ∈ ls, ∀ x, l ≠ .literal x)
    (ts : List TokenTree) : numbersEndAll (ls.map .leaf ++ ts) = numbersEndAll ts := by
  induction ls with
  | nil => rfl
  | cons l ls ih =>
    have hl : (leaf l).runsInto (render (ls.map .leaf ++ ts)) = false := by
      cases l with
      | literal x => exact absurd rfl (h _ List.mem_cons_self x)
      | punct p => rfl
      | ident i => rfl
    rw [List.map_cons, List.cons_append, numbersEndAll, hl, ih fun l hl =>
      h l (List.mem_cons_of_mem _ hl)]
    simp [numbersEnd]

end TokenTree

open TokenTree (render numbersApartAll numbersEndAll)

theorem Subtree.sourceText_eq (s : Subtree) :
    s.sourceText = Visit.sourceText (.enter s.delimiter) ++ render s.children ++
      Visit.sourceText (.leave s.delimiter) := by
  simp [Subtree.sourceText, Subtree.visits, Subtree.toTree, render, List.flatMap_assoc]

namespace Builder

theorem sourceText_rootOf (options : ParseOptions) (ts : List TokenTree) :
    (rootOf options ts).sourceText = render ts := by
  have hroot : (Subtree.mk none ts).sourceText = render ts := by
    simp [Subtree.sourceText_eq, Visit.sourceText]
  unfold rootOf
  split
  · next d cs =>
    split_ifs
    · simp [Subtree.sourceText_eq, render, List.flatMap_assoc]
    · exact hroot
  · exact hroot

theorem numbersApartAll_rootOf (options : ParseOptions) (ts : List TokenTree) :
    numbersApartAll (rootOf options ts).children = numbersApartAll ts := by
  unfold rootOf
  split
  · split_ifs
    · simp [numbersApartAll, TokenTree.numbersApart, TokenTree.isNumber]
    · rfl
  · rfl

/-- The text of punctuation: only the last character may have a space behind it. -/
theorem sourceText_puncts (last : Spacing) (next : TokenId) {s : List Char} (hs : s ≠ []) :
    (puncts last next s).flatMap Leaf.sourceText = s ++ if last = .alone then [' '] else [] := by
  fun_induction puncts last next s with
  | case1 => exact absurd rfl hs
  | case2 next c => cases last <;> rfl
  | case3 next c s hne ih =>
    rw [List.flatMap_cons, ih fun hnil => hne hnil]
    rfl

/-! ### What a text begins with -/

/-- What may stand behind the trees within the open groups: the bracket that closes the innermost
group, or nothing if there is none. -/
def Follows (stack : List Bracket) (tail : List Char) : Prop :=
  match stack with
  | [] => tail = []
  | b :: _ => tail.head? = some b.closeChar

/-- Whether all tokens ahead are known, and the raw strings among them closed. -/
def Clean (c : Cursor) : Prop := ∀ t ∈ c.tokens, t.kind ≠ .unknown ∧ t.isTerminated = true

theorem Clean.of_suffix {c c' : Cursor} (h : Clean c) (hs : c'.tokens <:+ c.tokens) : Clean c' :=
  fun t ht => h t (hs.subset ht)

theorem Clean.bump {c : Cursor} (h : Clean c) : Clean c.bump := h.of_suffix c.bump_suffix

theorem Clean.leavesAt {c : Cursor} (h : Clean c) (k : Kind) (next : TokenId) :
    Clean (leavesAt k c next).2.bump :=
  (h.of_suffix (leavesAt_suffix k c next)).bump

variable {stack : List Bracket} {c stop : Cursor} {next last : TokenId} {trees : List TokenTree}
  {t : Token} {ts : List Token} {tail : List Char}

/-- Leaves begin with the text of their first token. -/
theorem Gives.head {taken : List Token} {ls : List Leaf} (h : Gives next (t :: taken) ls)
    (hne : t.text ≠ []) (w : List Char) :
    (ls.flatMap Leaf.sourceText ++ w).head? = t.text.head? := by
  cases h with
  | literal => simp [Leaf.sourceText, List.head?_append_of_ne_nil _ hne]
  | fraction =>
    simp only [Leaf.sourceText, String.toList_ofList, Token.sourceOf, List.flatMap_cons,
      List.append_assoc]
    exact List.head?_append_of_ne_nil _ hne
  | ident => simp [Leaf.sourceText, List.head?_append_of_ne_nil _ hne]
  | lifetime hk ht => simp [Leaf.sourceText, ht]
  | puncts _ _ _ _ last =>
    rw [sourceText_puncts last next hne, List.append_assoc]
    exact List.head?_append_of_ne_nil _ hne

theorem Takes.eq_cons {mid : Cursor} {ls : List Leaf} {taken : List Token}
    (h : Takes c mid next ls taken) (hc : c.Ready) (ht : c.tokens = t :: ts) :
    ∃ us, taken = t :: us := by
  have htokens := h.tokens
  rw [hc.significant_tokens ht] at htokens
  cases taken with
  | nil => exact absurd h.gives (by rintro ⟨⟩)
  | cons u us => exact ⟨us, by rw [(List.cons.inj htokens).1]⟩

/-- A literal begins with the text of its first token. -/
theorem prefix_literal {l : Literal} (hc : c.Ready) (ht : c.tokens = t :: ts)
    (ho : ∀ b, t.kind ≠ .opening b) (hleaf : (leavesAt t.kind c next).1 = [.literal l]) :
    t.text <+: l.text.toList := by
  obtain ⟨taken, htakes⟩ := exists_takes hc ht ho next
  obtain ⟨us, rfl⟩ := htakes.eq_cons hc ht
  have htext := htakes.gives.text
  rw [hleaf] at htext
  have htext : l.text.toList = t.text ++ Token.sourceOf us := by
    simpa [Leaf.text, Token.sourceOf] using htext
  exact htext ▸ List.prefix_append _ _

theorem head_literal {l : Literal} (hc : c.Ready) (ht : c.tokens = t :: ts)
    (ho : ∀ b, t.kind ≠ .opening b) (hleaf : (leavesAt t.kind c next).1 = [.literal l]) :
    l.text.toList.head? = t.text.head? := by
  obtain ⟨w, hw⟩ := prefix_literal hc ht ho hleaf
  obtain ⟨-, -, hne, -⟩ := tokenize_eq_cons (hc.tokens_eq.symm.trans ht)
  rw [← hw, List.head?_append_of_ne_nil _ hne]

/-- The first character of what the builder builds is that of the next token, or that of the
bracket that closes the innermost group at the end. -/
theorem Built.head (h : Built stack c next trees stop last) (hc : c.Ready)
    (htail : Follows stack tail) :
    (∀ t ts, c.tokens = t :: ts → (render trees ++ tail).head? = t.text.head?) ∧
      (c.tokens = [] → (render trees ++ tail).head? = stack.head?.map Bracket.closeChar) := by
  have hclose : tail.head? = stack.head?.map Bracket.closeChar := by
    unfold Follows at htail
    split at htail
    · rw [htail]
      rfl
    · rw [htail]
      rfl
  cases h with
  | stop h =>
    refine ⟨fun t ts ht => ?_, fun _ => hclose⟩
    obtain ⟨b, hb, hk⟩ := Option.map_eq_some_iff.mp (closerOf_eq ht h)
    rw [render, List.flatMap_nil, List.nil_append, hclose, hb,
      text_of_closing (hc.tokens_eq.symm.trans ht) hk.symm]
    rfl
  | group ht hk =>
    refine ⟨fun u us hu => ?_, fun hnil => by simp [hnil] at ht⟩
    obtain ⟨rfl, -⟩ := List.cons.inj (ht.symm.trans hu)
    rw [TokenTree.render_group, text_of_opening (hc.tokens_eq.symm.trans ht) hk]
    rfl
  | @leaves _ _ _ _ _ trees t ts ht ho =>
    refine ⟨fun u us hu => ?_, fun hnil => by simp [hnil] at ht⟩
    obtain ⟨rfl, -⟩ := List.cons.inj (ht.symm.trans hu)
    obtain ⟨taken, htakes⟩ := exists_takes hc ht ho next
    obtain ⟨us, rfl⟩ := htakes.eq_cons hc ht
    obtain ⟨-, -, hne, -⟩ := tokenize_eq_cons (hc.tokens_eq.symm.trans ht)
    rw [TokenTree.render_leaves, List.append_assoc]
    exact htakes.gives.head hne _

/-! ### Punctuation -/

/-- What is left when a token is neither literal nor word nor opening bracket. -/
theorem punct_or_closing (hc : c.Ready) (hclean : Clean c) (ht : c.tokens = t :: ts)
    (hl : t.kind.isLiteral = false) (hi : t.kind.isIdent = false) (hlife : t.kind ≠ .lifetime)
    (ho : ∀ b, t.kind ≠ .opening b) : t.kind = .punct ∨ ∃ b, t.kind = .closing b := by
  have hu := (hclean t (by simp [ht])).1
  have htrivia : t.kind.isTrivia = false := (Cursor.atTrivia_eq ht).symm.trans hc.atTrivia
  cases hk : t.kind <;>
    simp [hk, Kind.isTrivia, Kind.isLiteral, Kind.isIdent] at hl hi hlife ho hu htrivia ⊢

/-! ### What follows a number -/

/-- Joint punctuation is followed by punctuation, a lifetime or a closing bracket. -/
def isJoining (k : Kind) : Bool :=
  match k with
  | .punct | .lifetime | .closing _ => true
  | _ => false

theorem lastSpacing_eq_joint (hc : c.Ready) (hclean : Clean c) (ht : c.tokens = t :: ts)
    (h : lastSpacing c = .joint) :
    ∃ u us, ts = u :: us ∧ isJoining u.kind = true ∧ c.bump.tokens = u :: us := by
  obtain ⟨u, us, rfl, hu, -, hopening, hl, hi⟩ := exists_joined ht h
  refine ⟨u, us, rfl, ?_, hu⟩
  have hknown := (hclean u (by simp [ht])).1
  have htrivia : u.kind.isTrivia = false := (Cursor.atTrivia_eq hu).symm.trans hc.bump.atTrivia
  cases hkind : u.kind <;>
    simp [hkind, Kind.isTrivia, Kind.isOpening, Kind.isLiteral, Kind.isIdent, isJoining]
      at hopening hl hi hknown htrivia ⊢

theorem isNumber_of_joining {k : Kind} (h : isJoining k = true) : k.isNumber = false := by
  cases k <;> simp_all [isJoining, Kind.isNumber]

/-- A token that may follow joint punctuation begins with no letter, digit or quote of a string. -/
theorem head_of_joining {s : List Char} (h : tokenize s = t :: ts) (hk : isJoining t.kind = true) :
    ∃ c ∈ behindOperator, t.text.head? = some c := by
  unfold isJoining at hk
  split at hk
  · next hp =>
    have hall : ∀ o ∈ operators, behindOperator.any (fun c => o.head? = some c) = true := by decide
    obtain ⟨c, hc, ho⟩ := List.any_eq_true.mp (hall _ (text_of_punct h hp))
    exact ⟨c, hc, of_decide_eq_true ho⟩
  · next hl =>
    obtain ⟨name, hname⟩ := text_of_lifetime h hl
    exact ⟨'\'', by decide, by rw [hname]; rfl⟩
  · next b hb =>
    rw [text_of_closing h hb]
    exact ⟨b.closeChar, by cases b <;> decide, rfl⟩
  · simp at hk

/-- What begins with a point or a sign is punctuation. -/
theorem kind_of_operator {s : List Char} (h : tokenize s = t :: ts)
    (hu : t.kind ≠ .unknown) {x : Char} (hx : x ∈ ['.', '+', '-'])
    (hhead : t.text.head? = some x) : t.kind = .punct := by
  have hall : ['.', '+', '-'].all (fun x => rules.all fun r =>
      decide (r.pattern.derivatives x ≠ [] → r.kind = .punct ∨ r.kind = .unknown)) =
        true := by decide
  obtain ⟨r, hr, hk, hder⟩ := exists_rule_head h hu hhead
  rw [← hk] at hu ⊢
  have hrule := List.all_eq_true.mp (List.all_eq_true.mp hall x hx) r hr
  exact (of_decide_eq_true hrule hder).resolve_right hu

/-- Behind a point or a sign that stands first there is a space, or operators, lifetimes and
brackets go on. -/
theorem Built.punctuated (h : Built stack c next trees stop last) (hc : c.Ready) (hclean : Clean c)
    (htail : Follows stack tail) : Punctuated (render trees ++ tail) := by
  intro x v hv hx d hd
  have hbracket {b : Bracket} : x ≠ b.openChar ∧ x ≠ b.closeChar := by
    constructor
    · rintro rfl
      revert hx
      cases b <;> decide
    · rintro rfl
      revert hx
      cases b <;> decide
  have hsecond : ∀ o ∈ operators, o.head?.any (['.', '+', '-'].contains ·) = true →
      o.tail.head?.all (behindOperator.contains ·) = true := by decide
  cases h with
  | stop h =>
    unfold Follows at htail
    split at htail
    · simp [htail] at hv
    · next b stack =>
      rw [TokenTree.render_nil, List.nil_append] at hv
      rw [hv] at htail
      exact absurd (Option.some.inj htail) hbracket.2
  | @group _ _ _ _ _ _ _ children trees t ts b ht hk =>
    rw [TokenTree.render_group] at hv
    exact absurd (List.cons.inj hv).1.symm hbracket.1
  | @leaves _ _ _ _ _ trees t ts ht ho hclose hbehind =>
    have htokens := hc.tokens_eq.symm.trans ht
    have htext := Cursor.currentText_eq ht
    obtain ⟨taken, htakes⟩ := exists_takes hc ht ho next
    obtain ⟨us, rfl⟩ := htakes.eq_cons hc ht
    obtain ⟨-, -, hne, -⟩ := tokenize_eq_cons htokens
    rw [TokenTree.render_leaves, List.append_assoc] at hv
    have hhead : t.text.head? = some x := by
      rw [← htakes.gives.head hne (render trees ++ tail), hv]
      rfl
    have hk := kind_of_operator htokens (hclean t (by simp [ht])).1 hx hhead
    have hop := text_of_punct htokens hk
    rw [hk, leavesAt_puncts rfl rfl (by simp), htext, sourceText_puncts _ _ hne] at hv
    rw [hk, leavesAt_puncts rfl rfl (by simp)] at hbehind
    obtain ⟨a, ha⟩ := List.head?_eq_some_iff.mp hhead
    rw [ha, List.cons_append, List.cons_append] at hv
    obtain ⟨-, rfl⟩ := List.cons.inj hv
    cases a with
    | cons e a =>
      obtain rfl := Option.some.inj hd
      have hnext := hsecond _ hop (by simpa [hhead] using hx)
      simpa [ha] using hnext
    | nil =>
      cases hspacing : lastSpacing c with
      | alone =>
        rw [hspacing] at hd
        obtain rfl := Option.some.inj hd
        decide
      | joint =>
        obtain ⟨u, us, -, hu, hbump⟩ := lastSpacing_eq_joint hc hclean ht hspacing
        obtain ⟨e, he, heq⟩ := head_of_joining (hc.bump.tokens_eq.symm.trans hbump) hu
        have hnext := (hbehind.head hc.bump htail).1 u us hbump
        rw [hspacing, if_neg (by simp), List.nil_append, List.nil_append, hnext, heq] at hd
        exact Option.some.inj hd ▸ he

/-! ### Numbers that end -/

/-- Whether a number runs into a text does not depend on the bracket behind the text. -/
theorem numberRunsInto_append (a w : List Char) (htail : Follows stack tail) :
    numberRunsInto a (w ++ tail) = numberRunsInto a w := by
  cases w with
  | cons x w =>
    cases w with
    | cons y w => rfl
    | nil =>
      have hpoint : tail.head? ≠ some '.' := by
        unfold Follows at htail
        split at htail
        · simp [htail]
        · next b stack =>
          rw [htail]
          cases b <;> decide
      simp [numberRunsInto, hpoint]
  | nil =>
    unfold Follows at htail
    split at htail
    · rw [htail]
      rfl
    · next b stack =>
      obtain ⟨tail, rfl⟩ := List.head?_eq_some_iff.mp htail
      have hclose : Fraction.continuesPoint b.closeChar = false ∧
          wordChar.contains b.closeChar = false ∧
          b.closeChar ≠ '.' := by cases b <;> decide
      simp [numberRunsInto, hclose]

/-- What is built does not begin with what goes on with a number, unless its first tree does. -/
theorem Built.head_marks (h : Built stack c next trees stop last) (hc : c.Ready) (hclean : Clean c)
    (hfirst : trees.head?.any TokenTree.extendsNumber = false) :
    ∀ x ∈ (render trees).head?, x ∈ '+' :: '-' :: marks := by
  intro x hx
  cases h with
  | stop => simp at hx
  | @group _ _ _ _ _ _ _ children trees t ts b ht hk =>
    rw [TokenTree.render_group] at hx
    obtain rfl := Option.some.inj hx
    change b.openChar ∈ _
    cases b <;> decide
  | @leaves _ _ _ _ _ trees t ts ht ho hclose hbehind =>
    have htokens := hc.tokens_eq.symm.trans ht
    have htext := Cursor.currentText_eq ht
    rw [TokenTree.render_leaves] at hx
    cases hl : t.kind.isLiteral with
    | true =>
      obtain ⟨l, hleaf⟩ := exists_literal hl c next
      simp [hleaf, TokenTree.extendsNumber] at hfirst
    | false =>
    cases hi : t.kind.isIdent with
    | true =>
      rw [leavesAt_ident hi] at hfirst
      simp [TokenTree.extendsNumber] at hfirst
    | false =>
    by_cases hlife : t.kind = .lifetime
    · rw [hlife, leavesAt_lifetime] at hx
      obtain rfl := Option.some.inj hx
      change '\'' ∈ _
      decide
    · obtain ⟨-, -, hne, -⟩ := tokenize_eq_cons htokens
      obtain ⟨y, a, ha⟩ := List.exists_cons_of_ne_nil hne
      rw [leavesAt_puncts hl hi hlife, htext] at hfirst hx
      rw [sourceText_puncts _ _ hne, ha] at hx
      obtain rfl := Option.some.inj hx
      obtain ⟨p, ls, hp, rfl⟩ := exists_puncts_cons (lastSpacing c) next y a
      have hdot : p.char ≠ '.' := by simpa [ha, hp, TokenTree.extendsNumber] using hfirst
      rcases punct_or_closing hc hclean ht hl hi hlife ho with hk | ⟨b, hk⟩
      · have hall : ∀ o ∈ operators,
            o.head?.all (fun x => x = '.' || ('+' :: '-' :: marks).contains x) = true := by
          decide
        have hfirst := hall _ (text_of_punct htokens hk)
        rw [ha, List.head?_cons, Option.all_some, Bool.or_eq_true, List.contains_eq_mem,
          decide_eq_true_eq] at hfirst
        exact of_decide_eq_true (hfirst.resolve_left hdot)
      · rw [text_of_closing htokens hk] at ha
        obtain ⟨hb, -⟩ := List.cons.inj ha
        rw [← hb]
        cases b <;> decide

/-- Numbers that are apart from what would go on with them do not run into it. -/
theorem Built.numbersEnd_of_apart (h : Built stack c next trees stop last) (hc : c.Ready)
    (hclean : Clean c) (hapart : numbersApartAll trees = true) : numbersEndAll trees = true := by
  have hall : ('+' :: '-' :: marks).all (fun x =>
      !Fraction.continuesPoint x && !wordChar.contains x && x ≠ '.') = true := by decide
  induction h with
  | stop => rfl
  | @group stack c mid stop next between last children trees t ts b ht hk hin hbehind ih₁ ih₂ =>
    have hparts : numbersApartAll children = true ∧ numbersApartAll trees = true := by
      simpa [numbersApartAll, TokenTree.numbersApart, TokenTree.isNumber] using hapart
    have hcleanmid : Clean mid := hclean.bump.of_suffix hin.suffix
    rw [TokenTree.numbersEndAll_group, ih₁ hc.bump hclean.bump hparts.1,
      ih₂ (hin.ready hc.bump).1.bump hcleanmid.bump hparts.2, Bool.and_self]
  | @leaves stack c stop next last trees t ts ht ho hclose hbehind ih =>
    obtain ⟨taken, htakes⟩ := exists_takes hc ht ho next
    have hclean' := hclean.leavesAt t.kind next
    have htrees := ih htakes.ready hclean' (TokenTree.numbersApartAll_append _ _ hapart)
    cases hl : t.kind.isLiteral with
    | false => rwa [TokenTree.numbersEndAll_leaves fun l hmem x => not_literal_of_mem hl hmem x]
    | true =>
      obtain ⟨l, hleaf⟩ := exists_literal hl c next
      rw [hleaf] at hapart ⊢
      rw [List.map_singleton, List.singleton_append, TokenTree.numbersEndAll_literal, htrees,
        Bool.and_true]
      cases hnumber : l.text.toList.head?.any Char.isDigit with
      | false => simp [TokenTree.runsInto, hnumber]
      | true =>
        have hfirst : trees.head?.any TokenTree.extendsNumber = false := by
          have hisNumber : TokenTree.isNumber (.leaf (.literal l)) = true := hnumber
          simp only [List.map_singleton, List.singleton_append, numbersApartAll, hisNumber,
            Bool.true_and, Bool.and_eq_true, Bool.not_eq_true'] at hapart
          exact hapart.1.2
        have hhead := hbehind.head_marks htakes.ready hclean' hfirst
        cases hrender : render trees with
        | nil => simp [TokenTree.runsInto, numberRunsInto]
        | cons x w =>
          have hx := List.all_eq_true.mp hall x (hhead x (by simp [hrender]))
          simp only [Bool.and_eq_true, Bool.not_eq_true', decide_eq_true_eq] at hx
          simp [TokenTree.runsInto, numberRunsInto, hx]

end Builder

end MacroBridge
