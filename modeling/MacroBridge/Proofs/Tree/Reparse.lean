import Mathlib
import MacroBridge.Proofs.Token.Kept
import MacroBridge.Proofs.Tree.Render

/-!
The source text of a tree reads back as that tree. The builder is followed over the source and over
the text that is rendered from what it builds there; both show it the same tokens.
-/
namespace MacroBridge
open Lexer Grammar
open TokenTree (render numbersApartAll numbersEndAll)

namespace Builder
variable {stack : List Bracket} {c stop : Cursor} {next last : TokenId} {trees : List TokenTree}
  {t : Token} {ts : List Token} {tail w : List Char}

/-- A text that begins like the source from the cursor `c` on, with no trivia in front. Where a
number comes first, the first token of the text may be a longer one. -/
structure Continues (c : Cursor) (w : List Char) : Prop where
  atTrivia : (Cursor.ahead w 0).atTrivia = false
  blank : ∀ x ∈ w.head?, x ∉ blanks
  head : ∀ u us, c.tokens = u :: us → w.head? = u.text.head?
  current : ∀ u us, c.tokens = u :: us → u.kind.isNumber = false →
    (Cursor.ahead w 0).current = some u.kind

/-- Leaves are read again from their text, and the cursor is left behind it. -/
def Reread (c : Cursor) (k : Kind) (next : TokenId) (w : List Char) : Prop :=
  ∀ o, ∃ o', (Cursor.ahead ((leavesAt k c next).1.flatMap Leaf.sourceText ++ w) o).current =
    some k ∧
    (leavesAt k (Cursor.ahead ((leavesAt k c next).1.flatMap Leaf.sourceText ++ w) o) next).1 =
      (leavesAt k c next).1 ∧
    (leavesAt k (Cursor.ahead ((leavesAt k c next).1.flatMap Leaf.sourceText ++ w) o)
      next).2.bump =
      Cursor.ahead w o'

theorem current_ahead {s : List Char} (h : tokenize s = t :: ts) (o : Nat) :
    (Cursor.ahead s o).current = some t.kind :=
  Cursor.current_eq (c := Cursor.ahead s o) h

theorem currentText_ahead {s : List Char} (h : tokenize s = t :: ts) (o : Nat) :
    (Cursor.ahead s o).currentText = t.text :=
  Cursor.currentText_eq (c := Cursor.ahead s o) h

theorem reread_literal (hl : t.kind.isLiteral = true) (hint : t.kind ≠ .intNumber)
    (ht : c.tokens = t :: ts) (hw : tokenize (t.text ++ w) = t :: tokenize w)
    (htrivia : (Cursor.ahead w 0).atTrivia = false) : Reread c t.kind next w := by
  intro o
  have htext := Cursor.currentText_eq ht
  simp only [leavesAt_literal hl hint, htext]
  have hs : [Leaf.literal ⟨String.ofList t.text, next⟩].flatMap Leaf.sourceText = t.text := by
    simp [Leaf.sourceText]
  rw [hs]
  obtain ⟨o', ho⟩ := Cursor.bump_ahead hw rfl htrivia o
  exact ⟨o', current_ahead hw o, by rw [currentText_ahead hw], ho⟩

theorem reread_ident (hi : t.kind.isIdent = true) (hc : c.Ready) (ht : c.tokens = t :: ts)
    (hw : Continues (leavesAt t.kind c next).2.bump w) : Reread c t.kind next w := by
  intro o
  have htext := Cursor.currentText_eq ht
  have hword := tokenize_word (hc.tokens_eq.symm.trans ht) (.inl hi) w
  simp only [leavesAt_ident hi, htext]
  have hs : [Leaf.ident ⟨String.ofList t.text, next⟩].flatMap Leaf.sourceText ++ w =
      t.text ++ ' ' :: w := by
    simp [Leaf.sourceText]
  rw [hs]
  obtain ⟨o', ho⟩ := Cursor.bump_ahead_space hword rfl (tokenize_space hw.blank) hw.atTrivia o
  exact ⟨o', current_ahead hword o, by rw [currentText_ahead hword], ho⟩

theorem reread_lifetime (hl : t.kind = .lifetime) (hc : c.Ready) (ht : c.tokens = t :: ts)
    (hw : Continues (leavesAt t.kind c next).2.bump w) : Reread c t.kind next w := by
  intro o
  have htext := Cursor.currentText_eq ht
  have htokens := hc.tokens_eq.symm.trans ht
  have hword := tokenize_word htokens (.inr hl) w
  obtain ⟨name, hname⟩ := text_of_lifetime htokens hl
  simp only [hl, leavesAt_lifetime, htext]
  have hs : [Leaf.punct ⟨'\'', .joint, next⟩,
      .ident ⟨String.ofList (t.text.drop 1), next + 1⟩].flatMap
      Leaf.sourceText ++ w = t.text ++ ' ' :: w := by
    simp [Leaf.sourceText, hname]
  rw [hs]
  obtain ⟨o', ho⟩ := Cursor.bump_ahead_space hword rfl (tokenize_space hw.blank) hw.atTrivia o
  exact ⟨o', hl ▸ current_ahead hword o, by rw [currentText_ahead hword], ho⟩

/-- An integer that is a literal of its own. -/
theorem reread_integer (hk : t.kind = .intNumber) (hc : c.Ready) (ht : c.tokens = t :: ts)
    (hleaf : leavesAt .intNumber c next = ([.literal ⟨String.ofList t.text, next⟩], c))
    (hw : Continues (leavesAt t.kind c next).2.bump w) (hends : NumberEnds t.text w) :
    Reread c t.kind next w := by
  intro o
  have htokens := hc.tokens_eq.symm.trans ht
  have hfirst := tokenize_number htokens (by rw [hk]; rfl) hends.afterNumber
  have hnone := Fraction.length_integer (intNumber_matches htokens hk) hends.apart
  have hs : [Leaf.literal ⟨String.ofList t.text, next⟩].flatMap Leaf.sourceText = t.text := by
    simp [Leaf.sourceText]
  rw [hk, hleaf]
  simp only [hs]
  obtain ⟨o', ho⟩ := Cursor.bump_ahead hfirst rfl hw.atTrivia o
  refine ⟨o', hk ▸ current_ahead hfirst o, ?_⟩
  rw [leavesAt_integer (c := Cursor.ahead (t.text ++ w) o) hnone, currentText_ahead hfirst]
  exact ⟨rfl, ho⟩

/-- A step behind a number with a point leads to what stands behind it. -/
theorem bump_fraction {a : List Char} (h : tokenize (a ++ w) = t :: ts) (hk : t.kind = .intNumber)
    (hn : Fraction.length (a ++ w) = some a.length)
    (htrivia : (Cursor.ahead w 0).atTrivia = false) (o : Nat) :
    ∃ o', ((Cursor.ahead (a ++ w) o).advanceTo (o + a.length)).bump = Cursor.ahead w o' := by
  have hready : (Cursor.ahead (a ++ w) o).Ready :=
    ⟨rfl, (Cursor.atTrivia_eq (c := Cursor.ahead (a ++ w) o) h).trans (by rw [hk]; rfl)⟩
  obtain ⟨used, last, left, hts, hcovers, hland, hstand⟩ := hready.advanceTo_fraction h hk hn
  have hleft : Token.sourceOf left = w := by
    have htext := hcovers.text
    rw [Cursor.rest_ahead, List.take_left] at htext
    have hall : Token.sourceOf ((t :: used ++ [last]) ++ left) = a ++ w := by
      rw [← sourceOf_tokenize (a ++ w), h, hts]
      simp
    rw [Token.sourceOf, List.flatMap_append, ← Token.sourceOf, ← Token.sourceOf, htext] at hall
    exact List.append_cancel_left hall
  obtain ⟨stand, hdef⟩ : ∃ stand, stand = (Cursor.ahead (a ++ w) o).advanceTo (o + a.length) :=
    ⟨_, rfl⟩
  change ((Cursor.ahead (a ++ w) o).advanceTo (o + a.length)).Ready at hland
  change ((Cursor.ahead (a ++ w) o).advanceTo (o + a.length)).tokens = _ at hstand
  rw [← hdef] at hland hstand ⊢
  -- The cursor stands on the last token of the number.
  have hahead : stand.rest = last.text ++ w := by
    rw [stand.rest_eq, hstand, Token.sourceOf, List.flatMap_cons, ← Token.sourceOf, hleft]
  have hlasttoken : tokenize (last.text ++ w) = last :: left := by
    rw [← hahead, ← hland.tokens_eq, hstand]
  rw [Cursor.eq_ahead hland.tokens_eq, hahead]
  exact Cursor.bump_ahead hlasttoken rfl htrivia stand.offset

/-- A number with a point. -/
theorem reread_fraction {n : Nat} (hk : t.kind = .intNumber) (hc : c.Ready)
    (ht : c.tokens = t :: ts) (hn : Fraction.length c.rest = some n)
    (hw : Continues (leavesAt t.kind c next).2.bump w) (hends : NumberEnds (c.rest.take n) w) :
    Reread c t.kind next w := by
  intro o
  have htokens := hc.tokens_eq.symm.trans ht
  have htext := Cursor.currentText_eq ht
  obtain ⟨a, ha⟩ : ∃ a, a = c.rest.take n := ⟨_, rfl⟩
  obtain ⟨used, last, left, -, hcovers⟩ := exists_covers htokens hk hn
  have hlong := hcovers.length_lt
  have hleaf : leavesAt .intNumber c next =
      ([.literal ⟨String.ofList a, next⟩], c.advanceTo (c.offset + n)) :=
    ha ▸ leavesAt_fraction hn (htext ▸ hlong)
  obtain ⟨us, hfirst⟩ := tokenize_fraction htokens hk hn w
  obtain ⟨hlen, hagain⟩ := Fraction.length_replace hn hends
  rw [← ha] at hlen hagain hfirst
  have hleaf' (o : Nat) : leavesAt .intNumber (Cursor.ahead (a ++ w) o) next =
      ([.literal ⟨String.ofList a, next⟩], (Cursor.ahead (a ++ w) o).advanceTo (o + n)) := by
    rw [leavesAt_fraction (c := Cursor.ahead (a ++ w) o) hagain
      (by rwa [currentText_ahead hfirst]), Cursor.rest_ahead, List.take_left' hlen]
    rfl
  have hs : [Leaf.literal ⟨String.ofList a, next⟩].flatMap Leaf.sourceText = a := by
    simp [Leaf.sourceText]
  obtain ⟨o', ho⟩ := bump_fraction hfirst hk (hlen.symm ▸ hagain) hw.atTrivia o
  rw [hk, hleaf]
  simp only [hs]
  refine ⟨o', hk ▸ current_ahead hfirst o, ?_⟩
  rw [hleaf', ← hlen]
  exact ⟨rfl, ho⟩

/-- Punctuation is read again with its spacing. -/
theorem reread_puncts (hl : t.kind.isLiteral = false) (hi : t.kind.isIdent = false)
    (hlife : t.kind ≠ .lifetime) (hk : t.kind = .punct ∨ ∃ b, t.kind = .closing b) (hc : c.Ready)
    (hclean : Clean c) (ht : c.tokens = t :: ts)
    (hw : Continues (leavesAt t.kind c next).2.bump w) : Reread c t.kind next w := by
  intro o
  have htokens := hc.tokens_eq.symm.trans ht
  have htext := Cursor.currentText_eq ht
  obtain ⟨-, -, hne, -⟩ := tokenize_eq_cons htokens
  have hagain {v : List Char} (hv : t.kind = .punct → ∀ d ∈ v.head?, joins t.text d = false) :
      tokenize (t.text ++ v) = t :: tokenize v := by
    rcases hk with hk | ⟨b, hk⟩
    · exact tokenize_operator htokens hk (hv hk)
    · exact tokenize_showsItsEnd htokens (by rw [hk]; rfl) v
  rw [leavesAt_puncts hl hi hlife] at hw
  simp only [leavesAt_puncts hl hi hlife, htext]
  rw [sourceText_puncts _ _ hne]
  cases hspacing : lastSpacing c with
  | alone =>
    have hspace := tokenize_space hw.blank
    have hword : tokenize (t.text ++ ' ' :: w) = t :: tokenize (' ' :: w) := by
      refine hagain fun hp d hd => ?_
      rw [← Option.some.inj hd]
      exact joins_blank _ (text_of_punct htokens hp) _ (by decide)
    have hlast : lastSpacing (Cursor.ahead (t.text ++ ' ' :: w) o) = .alone := by
      simp [lastSpacing, Cursor.lookahead, hword, hspace, Kind.isTrivia]
    obtain ⟨o', ho⟩ := Cursor.bump_ahead_space hword rfl hspace hw.atTrivia o
    have hs : t.text ++ [' '] ++ w = t.text ++ ' ' :: w := by simp
    rw [if_pos rfl, hs, hlast, currentText_ahead hword]
    exact ⟨o', current_ahead hword o, rfl, ho⟩
  | joint =>
    obtain ⟨u, us, rfl, hu, hbump⟩ := lastSpacing_eq_joint hc hclean ht hspacing
    have hhead := hw.head u us hbump
    have hcurrent := hw.current u us hbump (isNumber_of_joining hu)
    have hbehind : (c.rest.drop t.text.length).head? = u.text.head? := by
      obtain ⟨-, -, hne, -⟩ := tokenize_eq_cons (hc.bump.tokens_eq.symm.trans hbump)
      obtain ⟨e, s, hs⟩ := List.exists_cons_of_ne_nil hne
      simp [c.rest_eq, ht, Token.sourceOf, hs]
    have hword : tokenize (t.text ++ w) = t :: tokenize w := by
      refine hagain fun hp d hd => joins_next htokens hp d ?_
      rwa [hbehind, ← hhead]
    have hlast : lastSpacing (Cursor.ahead (t.text ++ w) o) = .joint := by
      have hnext : (Cursor.ahead (t.text ++ w) o).lookahead 1 = c.lookahead 1 := by
        rw [Cursor.current, Cursor.tokens_ahead] at hcurrent
        simp only [Cursor.lookahead, Cursor.tokens_ahead, hword, ht, List.getElem?_cons_succ,
          List.getElem?_cons_zero, Option.map_some]
        rw [← hcurrent, List.head?_eq_getElem?]
      rw [← hspacing, lastSpacing, lastSpacing, hnext]
    obtain ⟨o', ho⟩ := Cursor.bump_ahead hword rfl hw.atTrivia o
    have hs : t.text ++ (if Spacing.joint = .alone then [' '] else []) ++ w = t.text ++ w := by
      simp
    rw [hs, hlast, currentText_ahead hword]
    exact ⟨o', current_ahead hword o, rfl, ho⟩

/-- Literals other than integers. -/
theorem tokenize_literal (hl : t.kind.isLiteral = true) (hint : t.kind ≠ .intNumber) (hc : c.Ready)
    (hclean : Clean c) (ht : c.tokens = t :: ts)
    (hends : t.kind = .floatNumber → NumberEnds t.text w) :
    tokenize (t.text ++ w) = t :: tokenize w := by
  have htokens := hc.tokens_eq.symm.trans ht
  obtain ⟨hu, hend⟩ := hclean t (by simp [ht])
  by_cases hfloat : t.kind = .floatNumber
  · exact tokenize_number htokens (by rw [hfloat]; rfl) (hends hfloat).afterNumber
  · cases hmark : t.kind.rawMark? with
    | some mark => exact tokenize_raw htokens hu hmark hend w
    | none =>
      refine tokenize_showsItsEnd htokens ?_ w
      cases hk : t.kind <;> simp [hk, Kind.isLiteral, Kind.rawMark?, Kind.showsItsEnd]
        at hl hint hfloat hmark ⊢

/-- All leaves are read again, numbers if they end in front of what follows. -/
theorem reread_leaves (hc : c.Ready) (hclean : Clean c) (ht : c.tokens = t :: ts)
    (ho : ∀ b, t.kind ≠ .opening b) (hw : Continues (leavesAt t.kind c next).2.bump w)
    (hends : t.kind.isNumber = true → ∀ l, (leavesAt t.kind c next).1 = [.literal l] →
      NumberEnds l.text.toList w) :
    Reread c t.kind next w := by
  have htext := Cursor.currentText_eq ht
  by_cases hint : t.kind = .intNumber
  · cases hn : Fraction.length c.rest with
    | none =>
      have hleaf : leavesAt .intNumber c next = ([.literal ⟨String.ofList t.text, next⟩], c) := by
        rw [leavesAt_integer hn, htext]
      have hnumber := hends (by rw [hint]; rfl) _ (by rw [hint, hleaf])
      rw [String.toList_ofList] at hnumber
      exact reread_integer hint hc ht hleaf hw hnumber
    | some n =>
      obtain ⟨used, last, left, -, hcovers⟩ := exists_covers (hc.tokens_eq.symm.trans ht) hint hn
      have hnumber := hends (by rw [hint]; rfl) _
        (by rw [hint, leavesAt_fraction hn (htext ▸ hcovers.length_lt)])
      rw [String.toList_ofList] at hnumber
      exact reread_fraction hint hc ht hn hw hnumber
  cases hl : t.kind.isLiteral with
  | true =>
    refine reread_literal hl hint ht (tokenize_literal hl hint hc hclean ht fun hfloat =>
      ?_) hw.atTrivia
    have hnumber := hends (by rw [hfloat]; rfl) _ (by rw [leavesAt_literal hl hint])
    rwa [String.toList_ofList, htext] at hnumber
  | false =>
  cases hi : t.kind.isIdent with
  | true => exact reread_ident hi hc ht hw
  | false =>
  by_cases hlife : t.kind = .lifetime
  · exact reread_lifetime hlife hc ht hw
  · exact reread_puncts hl hi hlife (punct_or_closing hc hclean ht hl hi hlife ho) hc hclean ht hw

/-! ### What the source text begins with -/

/-- A text that begins with a token of the same kind. -/
theorem continues_of_token (hc : c.Ready) (hclean : Clean c) (ht : c.tokens = t :: ts) {u : Token}
    {us : List Token} (hu : tokenize w = u :: us) (hk : u.kind = t.kind)
    (hhead : w.head? = t.text.head?) : Continues c w := by
  have htrivia : u.kind.isTrivia = false := hk ▸ (Cursor.atTrivia_eq ht).symm.trans hc.atTrivia
  constructor
  · exact (Cursor.atTrivia_eq (c := Cursor.ahead w 0) hu).trans htrivia
  · exact head_of_tokenize hu (hk ▸ (hclean t (by simp [ht])).1) htrivia
  · intro t' ts' ht'
    obtain ⟨rfl, -⟩ := List.cons.inj (ht.symm.trans ht')
    exact hhead
  · intro t' ts' ht' _
    obtain ⟨rfl, -⟩ := List.cons.inj (ht.symm.trans ht')
    rw [current_ahead hu, hk]

/-- A text that begins with the same number, or a longer one. -/
theorem continues_of_number (hc : c.Ready) (ht : c.tokens = t :: ts) (hk : t.kind.isNumber = true)
    (hhead : w.head? = t.text.head?) : Continues c w := by
  obtain ⟨p, hp, hm⟩ := number_matches (hc.tokens_eq.symm.trans ht) hk
  obtain ⟨x, a, ha, hx⟩ := head_of_number hp hm
  rw [ha, List.head?_cons] at hhead
  obtain ⟨w, rfl⟩ := List.head?_eq_some_iff.mp hhead
  obtain ⟨u, us, hu⟩ := exists_tokenize_eq_cons (s := x :: w) (by simp)
  constructor
  · exact (Cursor.atTrivia_eq (c := Cursor.ahead (x :: w) 0) hu).trans (isPlain_of_digit hx hu).1
  · intro y hy
    obtain rfl := Option.some.inj hy
    obtain ⟨n, hn, rfl⟩ := eq_digitChar hx
    have hall : ∀ n < 10, n.digitChar ∉ blanks := by decide
    exact hall n hn
  · intro t' ts' ht'
    obtain ⟨rfl, -⟩ := List.cons.inj (ht.symm.trans ht')
    rw [ha]
    rfl
  · intro t' ts' ht' hno
    obtain ⟨rfl, -⟩ := List.cons.inj (ht.symm.trans ht')
    simp [hk] at hno

/-- The tail of a text that the builder has come to the end of. -/
theorem current_tail (htail : Follows stack tail) (o : Nat) :
    (Cursor.ahead tail o).current = closerOf stack := by
  unfold Follows at htail
  split at htail
  · rw [htail, Cursor.current, Cursor.tokens_ahead, tokenize_nil]
    rfl
  · next b stack =>
    obtain ⟨tail, rfl⟩ := List.head?_eq_some_iff.mp htail
    exact current_ahead (tokenize_closeChar b tail) o

/-- What is built begins in its source text as it does in the source. -/
theorem Built.continues (h : Built stack c next trees stop last) (hc : c.Ready) (hclean : Clean c)
    (htail : Follows stack tail) : Continues c (render trees ++ tail) := by
  have hhead := h.head hc htail
  induction h generalizing tail with
  | @stop stack c next h =>
    rw [TokenTree.render_nil, List.nil_append] at hhead ⊢
    have hcurrent := current_tail htail 0
    constructor
    · rw [Cursor.atTrivia, hcurrent, closerOf]
      cases stack.head? <;> rfl
    · intro x hx
      unfold Follows at htail
      split at htail
      · simp [htail] at hx
      · next b stack =>
        rw [htail] at hx
        obtain rfl := Option.some.inj hx
        cases b <;> decide
    · exact fun u us hu => hhead.1 u us hu
    · intro u us hu _
      rw [hcurrent, closerOf_eq hu h]
  | @group stack c mid stop next between last children trees t ts b ht hk hin hbehind ih₁ ih₂ =>
    have htokens := hc.tokens_eq.symm.trans ht
    rw [TokenTree.render_group, List.cons_append] at hhead ⊢
    have hopen := tokenize_showsItsEnd htokens (by rw [hk]; rfl)
      (render children ++ b.closeChar :: render trees ++ tail)
    rw [text_of_opening htokens hk] at hopen
    exact continues_of_token hc hclean ht hopen rfl (hhead.1 t ts ht)
  | @leaves stack c stop next last trees t ts ht ho hclose hbehind ih =>
    obtain ⟨taken, htakes⟩ := exists_takes hc ht ho next
    have hclean' := hclean.leavesAt t.kind next
    cases hk : t.kind.isNumber with
    | true => exact continues_of_number hc ht hk (hhead.1 t ts ht)
    | false =>
      have hw := ih htakes.ready hclean' htail (hbehind.head htakes.ready htail)
      have hhead' := hhead.1 t ts ht
      rw [TokenTree.render_leaves, List.append_assoc] at hhead' ⊢
      obtain ⟨-, hcurrent, -⟩ := reread_leaves hc hclean ht ho hw (by simp [hk]) 0
      obtain ⟨u, us, hu, hkind⟩ := Cursor.exists_tokens_of_current hcurrent
      exact continues_of_token hc hclean ht hu hkind hhead'

/-- A number among what is built ends, if it does not run into what is built behind it. -/
theorem Built.numberEnds (hc : c.Ready) (ht : c.tokens = t :: ts) (ho : ∀ b, t.kind ≠ .opening b)
    (hclean : Clean c) (hk : t.kind.isNumber = true) {l : Literal}
    (hleaf : (leavesAt t.kind c next).1 = [.literal l]) (hbehind : Built stack
      (leavesAt t.kind c next).2.bump last trees stop next') (htail : Follows stack tail)
    (hruns : (TokenTree.leaf (.literal l)).runsInto (render trees) = false) :
    NumberEnds l.text.toList (render trees ++ tail) := by
  have htokens := hc.tokens_eq.symm.trans ht
  obtain ⟨taken, htakes⟩ := exists_takes hc ht ho next
  have hclean' := hclean.leavesAt t.kind next
  have hdigit : l.text.toList.head?.any Char.isDigit = true := by
    rw [head_literal hc ht ho hleaf]
    exact isDigit_of_number htokens hk
  refine ⟨hbehind.punctuated htakes.ready hclean' htail, ?_⟩
  rw [numberRunsInto_append _ _ htail]
  simpa [TokenTree.runsInto, hdigit] using hruns

/-- The brackets of a group are single tokens of its source text, with what the group holds between
them. -/
theorem Built.ahead_group {mid : Cursor} {between : TokenId} {children : List TokenTree}
    {b : Bracket} (hc : c.Ready) (hclean : Clean c) (ht : c.tokens = t :: ts)
    (hk : t.kind = .opening b) (hin : Built (b :: stack) c.bump (next + 1) children mid between)
    (hbehind : Built stack mid.bump between trees stop last) (htail : Follows stack tail)
    (id : TokenId) :
    (∃ us, tokenize (render (.group (some ⟨id, b⟩) children :: trees) ++ tail) = t :: us) ∧
    (∀ o, ∃ o', (Cursor.ahead (render (.group (some ⟨id, b⟩) children :: trees) ++ tail) o).bump =
      Cursor.ahead (render children ++ b.closeChar :: (render trees ++ tail)) o') ∧
    ∀ o, ∃ o', (Cursor.ahead (b.closeChar :: (render trees ++ tail)) o).bump =
      Cursor.ahead (render trees ++ tail) o' := by
  obtain ⟨hmid, -⟩ := hin.ready hc.bump
  have hcleanmid : Clean mid := hclean.bump.of_suffix hin.suffix
  have hcloses : Follows (b :: stack) (b.closeChar :: (render trees ++ tail)) := rfl
  have htext := text_of_opening (hc.tokens_eq.symm.trans ht) hk
  have hopen : tokenize ([b.openChar] ++
      (render children ++ b.closeChar :: (render trees ++ tail))) =
      t :: tokenize (render children ++ b.closeChar :: (render trees ++ tail)) := by
    rw [← htext]
    exact tokenize_showsItsEnd (hc.tokens_eq.symm.trans ht) (by rw [hk]; rfl) _
  have hs : render (.group (some ⟨id, b⟩) children :: trees) ++ tail =
      [b.openChar] ++ (render children ++ b.closeChar :: (render trees ++ tail)) := by
    simp [TokenTree.render_group]
  rw [hs]
  refine ⟨⟨_, hopen⟩, ?_, ?_⟩
  · exact Cursor.bump_ahead hopen htext (hin.continues hc.bump hclean.bump hcloses).atTrivia
  · exact Cursor.bump_ahead (a := [b.closeChar]) (tokenize_closeChar b _) rfl
      (hbehind.continues hmid.bump hcleanmid.bump htail).atTrivia

/-! ### The whole tree -/

/-- Numbers end among the leaves of a token and what follows if they do in what follows, and the
leaf does if it is one. -/
theorem numbersEndAll_leavesAt_iff {k : Kind} :
    numbersEndAll ((leavesAt k c next).1.map .leaf ++ trees) = true ↔
    (∀ l, (leavesAt k c next).1 = [.literal l] →
      (TokenTree.leaf (.literal l)).runsInto (render trees) = false) ∧
      numbersEndAll trees = true := by
  cases hl : k.isLiteral with
  | true =>
    obtain ⟨l, hleaf⟩ := exists_literal hl c next
    simp [hleaf, TokenTree.numbersEndAll_literal]
  | false =>
    rw [TokenTree.numbersEndAll_leaves fun l hmem x => not_literal_of_mem hl hmem x]
    refine (and_iff_right fun l hleaf => ?_).symm
    exact absurd rfl (not_literal_of_mem hl (l := .literal l) (by rw [hleaf]; simp) l)

/-- The builder does over the text of what it has built the same as over the source. -/
theorem Built.reparse (h : Built stack c next trees stop last) (hc : c.Ready) (hclean : Clean c)
    (hends : numbersEndAll trees = true) (htail : Follows stack tail) :
    ∀ o, ∃ o', Built stack (Cursor.ahead (render trees ++ tail) o) next trees
      (Cursor.ahead tail o') last := by
  induction h generalizing tail with
  | @stop stack c next h =>
    intro o
    rw [TokenTree.render_nil, List.nil_append]
    exact ⟨o, .stop fun _ => current_tail htail o⟩
  | @group stack c mid stop next between last children trees t ts b ht hk hin hbehind ih₁ ih₂ =>
    intro o
    obtain ⟨hmid, -⟩ := hin.ready hc.bump
    have hcleanmid : Clean mid := hclean.bump.of_suffix hin.suffix
    obtain ⟨hends₁, hends₂⟩ :=
      Bool.and_eq_true_iff.mp (TokenTree.numbersEndAll_group _ _ _ ▸ hends)
    obtain ⟨⟨us, hopen⟩, hinto, hout⟩ := Built.ahead_group hc hclean ht hk hin hbehind htail next
    obtain ⟨o₁, hinto⟩ := hinto o
    have hcloses : Follows (b :: stack) (b.closeChar :: (render trees ++ tail)) := rfl
    obtain ⟨o₂, hinside⟩ := ih₁ hc.bump hclean.bump hends₁ hcloses o₁
    obtain ⟨o₃, hout⟩ := hout o₂
    obtain ⟨o₄, houtside⟩ := ih₂ hmid.bump hcleanmid.bump hends₂ htail o₃
    exact ⟨o₄, .group hopen hk (hinto ▸ hinside) (hout ▸ houtside)⟩
  | @leaves stack c stop next last trees t ts ht ho hclose hbehind ih =>
    intro o
    obtain ⟨taken, htakes⟩ := exists_takes hc ht ho next
    have hclean' := hclean.leavesAt t.kind next
    have hcontinues := hbehind.continues htakes.ready hclean' htail
    obtain ⟨hruns, hends'⟩ := numbersEndAll_leavesAt_iff.mp hends
    rw [TokenTree.render_leaves, List.append_assoc]
    obtain ⟨o₁, hcurrent, hleaves, hbump⟩ := reread_leaves hc hclean ht ho hcontinues
      (fun hk l hleaf => Built.numberEnds hc ht ho hclean hk hleaf hbehind htail (hruns l hleaf)) o
    obtain ⟨o₂, hagain⟩ := ih htakes.ready hclean' hends' htail o₁
    obtain ⟨u, us, hu, hk⟩ := Cursor.exists_tokens_of_current hcurrent
    generalize (leavesAt t.kind c next).1.flatMap Leaf.sourceText ++
      (render trees ++ tail) = s at *
    rw [← hleaves, ← hbump, ← hk] at hagain
    have hbuilt := Built.leaves hu (hk ▸ ho) (hk ▸ hclose) hagain
    rw [hk, hleaves] at hbuilt
    exact ⟨o₂, hbuilt⟩

end Builder

open Builder

/-- The trees of a source, and those of the text that they render to. -/
theorem Subtree.exists_built_sourceText (source : List Char)
    (hknown : ∀ t ∈ tokenize source, t.kind ≠ .unknown)
    (hclosed : ∀ t ∈ tokenize source, t.isTerminated = true) :
    ∃ (trees trees' : List TokenTree) (stop stop' : Cursor) (last last' : TokenId),
      Built [] (Cursor.ofSource source) 0 trees stop last ∧ Clean (Cursor.ofSource source) ∧
      Built [] (Cursor.ahead (render trees ++ []) 0) 0 trees' stop' last' ∧
      ∀ options, Subtree.ofSource source options = rootOf options trees ∧
        Subtree.ofSource (Subtree.ofSource source options).sourceText options =
          rootOf options trees' := by
  obtain ⟨hready, -⟩ := Cursor.ofSource_spec source
  obtain ⟨trees, stop, last, hbuilt, -, hroot⟩ := Subtree.exists_built_ofSource source
  have hclean : Clean (Cursor.ofSource source) := by
    intro t ht
    rw [Cursor.ofSource_eq] at ht
    have hmem : t ∈ tokenize source := (Cursor.ahead source 0).skipTrivia_suffix.subset ht
    exact ⟨hknown t hmem, hclosed t hmem⟩
  have hcontinues := hbuilt.continues hready hclean (show Follows [] [] from rfl)
  obtain ⟨trees', stop', last', hbuilt', -, hroot'⟩ := Subtree.exists_built_ofSource (render trees)
  rw [List.append_nil] at hcontinues
  rw [Cursor.ofSource_eq, Cursor.skipTrivia_eq hcontinues.atTrivia] at hbuilt'
  refine ⟨trees, trees', stop, stop', last, last', hbuilt,
    hclean, by rwa [List.append_nil], fun options => ?_⟩
  exact ⟨hroot options, by rw [hroot, sourceText_rootOf, hroot']⟩

/-- The source text of a tree reads back as that tree, with the same nesting, texts, spacing and
ids, if the source it is of has no unknown token and no open raw string, and if no number in the
tree is followed by a word, a literal or a point. -/
theorem ofSource_sourceText (source : List Char) (options : ParseOptions)
    (hknown : ∀ t ∈ tokenize source, t.kind ≠ .unknown)
    (hclosed : ∀ t ∈ tokenize source, t.isTerminated = true)
    (hnumbers : numbersApartAll (Subtree.ofSource source options).children = true) :
    Subtree.ofSource (Subtree.ofSource source options).sourceText options =
      Subtree.ofSource source options := by
  obtain ⟨trees, trees', stop, stop', last, last', hbuilt, hclean, hbuilt', hroot⟩ :=
    Subtree.exists_built_sourceText source hknown hclosed
  obtain ⟨hready, -⟩ := Cursor.ofSource_spec source
  have hapart : numbersApartAll trees = true := by
    rwa [(hroot options).1, numbersApartAll_rootOf] at hnumbers
  have hends := hbuilt.numbersEnd_of_apart hready hclean hapart
  obtain ⟨o, hagain⟩ := hbuilt.reparse hready hclean hends (show Follows [] [] from rfl) 0
  rw [(hroot options).2, (hroot options).1, (hagain.unique hbuilt').1]

/-- A source with compound operators, a lifetime, numbers with a point, names outside of ASCII,
brackets that close nothing and groups that nothing closes. -/
def raggedSource : List Char := "ñ<<=0.1+'a)\x7b[r\"q\")".toList

set_option maxRecDepth 4000 in
theorem ofSource_sourceText_ragged :
    (∀ t ∈ tokenize raggedSource, t.kind ≠ .unknown) ∧
    (∀ t ∈ tokenize raggedSource, t.isTerminated = true) ∧
    numbersApartAll (Subtree.ofSource raggedSource).children = true ∧
    Subtree.ofSource (Subtree.ofSource raggedSource).sourceText =
      Subtree.ofSource raggedSource := by
  have htokens :
      (tokenize raggedSource).all (fun t => t.kind ≠ .unknown && t.isTerminated) = true := by cbv
  have hall : ∀ t ∈ tokenize raggedSource, t.kind ≠ .unknown ∧ t.isTerminated = true := by
    simpa using htokens
  have hnumbers : numbersApartAll (Subtree.ofSource raggedSource).children = true := by cbv
  have hknown : ∀ t ∈ tokenize raggedSource, t.kind ≠ .unknown := fun t ht => (hall t ht).1
  have hclosed : ∀ t ∈ tokenize raggedSource, t.isTerminated = true := fun t ht => (hall t ht).2
  exact ⟨hknown, hclosed, hnumbers, ofSource_sourceText raggedSource {} hknown hclosed hnumbers⟩

end MacroBridge
