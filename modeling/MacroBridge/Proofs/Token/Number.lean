import MacroBridge.Proofs.Token.Fraction
import MacroBridge.Proofs.Token.Relex

/-!
Numbers in front of another text. A letter, a digit, a point or a quote could go on with a number,
and so could a sign with a digit behind it; in front of anything else the same number is read
again.
-/
namespace MacroBridge
open Pattern Grammar Lexer

/-! ### What may follow -/

/-- Characters of brackets, operators and lifetimes other than points and signs. -/
def marks : List Char :=
  [';', ',', '@', '#', '~', '?', ':', '$', '=', '!', '<', '>', '&', '|', '*', '/', '^', '%', '(',
    ')', '[', ']',
   '\x7b', '\x7d', '\'']

/-- Characters that stand right behind a point or a sign in the source text of a tree. -/
def behindOperator : List Char := ' ' :: '.' :: '+' :: '-' :: marks

/-- Characters other than signs that go on with no word. -/
def breaks : CharSet :=
  .union (.range '\x00' '*')
    (.union (.exactly ',') (.union (.range '.' '/') (.union (.range ':' '@')
      (.union (.range '[' '^') (.union (.exactly '\x60') (.range '\x7b' (Char.ofNat 0x10FFFF)))))))

/-- Texts that do not make a sign that of an exponent. -/
def afterSign : Pattern := opt (.seq (oneOf behindOperator) anyText)

/-- Texts that go on with no word and no exponent. -/
def afterNumber : Pattern :=
  choice [done, .seq (one breaks) anyText, .seq (oneOf ['+', '-']) afterSign]

/-- Right behind a point or sign at the start of a text there is what operators have behind
them. -/
def Punctuated (w : List Char) : Prop :=
  ∀ c v, w = c :: v → c ∈ ['.', '+', '-'] → ∀ d ∈ v.head?, d ∈ behindOperator

/-- Whether a number `a` that `w` stands right behind is read together with some of it, or without
its point. -/
def numberRunsInto (a w : List Char) : Bool :=
  if a.getLast? = some '.' then w.head?.any Fraction.continuesPoint
  else w.head?.any wordChar.contains ||
    (a.all (CharSet.union digit (.exactly '_')).contains &&
      w.head? = some '.' && w.tail.head? ≠ some '.')

/-- In front of `w` a number `a` is read as it is. -/
structure NumberEnds (a w : List Char) : Prop where
  punctuated : Punctuated w
  apart : numberRunsInto a w = false

variable {a s v w : List Char} {c : Char} {t : Token} {ts : List Token}

theorem breaks_of_not_word (hword : wordChar.contains c = false) (hsign : c ∉ ['+', '-']) :
    breaks.contains c = true := by
  by_cases hascii : c.toNat < 128
  · have hall : ∀ n < 128, wordChar.contains (Char.ofNat n) = true ∨ Char.ofNat n ∈ ['+', '-'] ∨
        breaks.contains (Char.ofNat n) = true := by decide
    have hc := hall c.toNat hascii
    rw [Char.ofNat_toNat, hword] at hc
    simpa [hsign] using hc
  · have hmax : c.toNat ≤ (Char.ofNat 0x10FFFF).toNat := by
      have hvalid : c.toNat < 0xD800 ∨ 0xDFFF < c.toNat ∧ c.toNat < 0x110000 := c.valid
      have hlast : (Char.ofNat 0x10FFFF).toNat = 0x10FFFF := by decide
      omega
    have hrange : (CharSet.range '\x7b' (Char.ofNat 0x10FFFF)).contains c = true :=
      CharSet.contains_range_iff.mpr ⟨Nat.le_trans (by decide) (Nat.not_lt.mp hascii), hmax⟩
    simp only [breaks, CharSet.contains_union_iff, hrange, or_true]

theorem continuesPoint_of_wordChar (h : wordChar.contains c = true) :
    Fraction.continuesPoint c = true := by
  have hascii := (ascii_of_wordChar h).1
  rcases CharSet.contains_union_iff.mp h with hletter | h
  · have hletter : isAsciiLetter c = true := hletter
    simp [Fraction.continuesPoint, isAlphanumeric, hascii, hletter]
  · rcases CharSet.contains_union_iff.mp h with hdigit | hunder
    · have hdigit : isAsciiDigit c = true := hdigit
      simp [Fraction.continuesPoint, isAlphanumeric, hascii, hdigit]
    · rw [CharSet.contains_exactly_iff.mp hunder]
      rfl

theorem continuesPoint_of_behindOperator :
    ∀ x ∈ behindOperator, x ≠ '.' → Fraction.continuesPoint x = false := by
  have hall : behindOperator.all (fun x => x = '.' || !Fraction.continuesPoint x) = true := by
    decide
  intro x hx hdot
  simpa [hdot] using List.all_eq_true.mp hall x hx

/-- A number runs into what goes on with its point or, if it does not end with a point, into a word
or a point. -/
theorem cases_of_numberRunsInto (h : numberRunsInto a w = true) :
    (a.getLast? = some '.' ∧ w.head?.any Fraction.continuesPoint = true) ∨
    a.getLast? ≠ some '.' ∧ ((∃ x v, w = x :: v ∧ wordChar.contains x = true) ∨
      (∀ x ∈ a, (CharSet.union digit (.exactly '_')).contains x = true) ∧ ∃ v, w = '.' :: v ∧
        v.head? ≠ some '.') := by
  unfold numberRunsInto at h
  split_ifs at h with hlast
  · exact .inl ⟨hlast, h⟩
  · refine .inr ⟨hlast, ?_⟩
    cases w with
    | nil => simp at h
    | cons x v =>
      rcases Bool.or_eq_true_iff.mp h with hword | hpoint
      · exact .inl ⟨x, v, rfl, hword⟩
      · simp only [Bool.and_eq_true, decide_eq_true_eq, List.all_eq_true, List.head?_cons,
          Option.some.injEq, List.tail_cons] at hpoint
        obtain ⟨⟨hall, rfl⟩, hnext⟩ := hpoint
        exact .inr ⟨hall, v, rfl, of_decide_eq_true hnext⟩

theorem afterNumber_point (v : List Char) : Matches afterNumber ('.' :: v) :=
  matches_choice_iff.mpr
    ⟨.seq (one breaks) anyText,
      by simp, Matches.seq (s := ['.']) (.one (by decide)) (matches_anyText v)⟩

namespace NumberEnds

theorem not_word (h : NumberEnds a w) : w.head?.any wordChar.contains = false := by
  have hapart := h.apart
  unfold numberRunsInto at hapart
  split_ifs at hapart
  · cases hc : w.head? with
    | none => rfl
    | some c =>
      rw [hc, Option.any_some] at hapart
      rw [Option.any_some, Bool.eq_false_iff]
      intro hword
      simp [continuesPoint_of_wordChar hword] at hapart
  · exact (Bool.or_eq_false_iff.mp hapart).1

theorem afterNumber (h : NumberEnds a w) : Matches afterNumber w := by
  cases w with
  | nil => exact matches_choice_iff.mpr ⟨done, by simp, .done⟩
  | cons c v =>
    by_cases hsign : c ∈ ['+', '-']
    · have hbehind := h.punctuated c v rfl (List.mem_cons_of_mem _ hsign)
      refine matches_choice_iff.mpr ⟨.seq (oneOf ['+', '-']) afterSign, by simp,
        Matches.seq (s := [c]) (matches_oneOf_iff.mpr ⟨c, hsign, rfl⟩) ?_⟩
      cases v with
      | nil => exact matches_opt_iff.mpr (.inr rfl)
      | cons d v =>
        exact matches_opt_iff.mpr
          (.inl (Matches.seq (s := [d]) (matches_oneOf_iff.mpr ⟨d, hbehind d rfl, rfl⟩)
            (matches_anyText v)))
    · have hbreaks := breaks_of_not_word (by simpa using h.not_word) hsign
      exact matches_choice_iff.mpr
        ⟨_, by simp, Matches.seq (s := [c]) (.one hbreaks) (matches_anyText v)⟩

end NumberEnds

/-! ### Number tokens -/

/-- Numbers with an exponent and without a point. -/
def scientific : Pattern := chain [digits, exponent, opt suffix]

theorem number_separates : ∀ p ∈ [integer, scientific], ∀ q ∈ [integer, scientific],
    separates p afterNumber q = true := by
  decide +kernel

/-- Only the rules for numbers may reach over a text that starts with a digit. -/
theorem endsBy_of_digit (hc : digit.contains c = true) (hint : integer.EndsBy (c :: a) v)
    (hsci : scientific.EndsBy (c :: a) v) : ∀ r ∈ rules, r.pattern.EndsBy (c :: a) v := by
  intro r hr x hx hm
  have hder : r.pattern.derivatives c ≠ [] := by
    obtain ⟨p, hp, -⟩ := exists_derivative_iff.mpr hm
    exact List.ne_nil_of_mem hp
  rcases (rules_digit hc hr hder).2.2.2 with hp | hp | hp
  · rw [hp] at hm
    exact hsci x hx hm
  · exact hint x hx (hp ▸ hm)
  · rw [hp] at hm
    obtain ⟨d, -, hd⟩ := matches_one_iff.mp hm
    exact (List.append_eq_nil_iff.mp (List.cons.inj hd).2).2

theorem intNumber_matches (h : tokenize s = t :: ts) (hk : t.kind = .intNumber) :
    Matches integer t.text :=
  matches_of_tokenize h (by simp [hk]) (fun r hr hrk => rule_intNumber r hr (hrk.trans hk)) rfl

theorem floatNumber_matches (h : tokenize s = t :: ts) (hk : t.kind = .floatNumber) :
    Matches scientific t.text := by
  have hrule : ∀ r ∈ rules, r.kind = .floatNumber → r.pattern = scientific ∧ r.tail = .plain := by
    decide
  exact matches_of_tokenize h (by simp [hk])
    (fun r hr hrk => hrule r hr (hrk.trans hk)) (by decide)

theorem number_matches (h : tokenize s = t :: ts) (hk : t.kind.isNumber = true) :
    ∃ p ∈ [integer, scientific], Matches p t.text := by
  rcases Kind.isNumber_iff.mp hk with hk | hk
  · exact ⟨integer, by simp, intNumber_matches h hk⟩
  · exact ⟨scientific, by simp, floatNumber_matches h hk⟩

theorem head_of_number {p : Pattern} (hp : p ∈ [integer, scientific]) (h : Matches p a) :
    ∃ c a', a = c :: a' ∧ digit.contains c = true := by
  have hform : ∃ q, p = .seq digits q := by
    simp only [List.mem_cons, List.not_mem_nil, or_false] at hp
    rcases hp with rfl | rfl
    · exact ⟨_, rfl⟩
    · exact ⟨_, rfl⟩
  obtain ⟨q, rfl⟩ := hform
  obtain ⟨d, e, rfl, hd, -⟩ := matches_seq_iff.mp h
  obtain ⟨c, d', rfl, hc, -⟩ := head_of_digits hd
  exact ⟨c, d' ++ e, rfl, hc⟩

/-- A number with an exponent is not all digits. -/
theorem not_digits_of_scientific (h : Matches scientific a) :
    ¬ ∀ x ∈ a, (CharSet.union digit (.exactly '_')).contains x = true := by
  have hdisjoint : scientific.disjoint (star (one (.union digit (.exactly '_')))) = true := by
    decide +kernel
  exact fun hall => not_matches_of_disjoint hdisjoint h (matches_star_one_iff.mpr hall)

theorem getLast_of_disjoint {p : Pattern} (hp : p.disjoint (.seq anyText (char '.')) = true)
    (h : Matches p a) : a.getLast? ≠ some '.' := by
  intro hlast
  obtain ⟨b, rfl⟩ := List.getLast?_eq_some_iff.mp hlast
  exact not_matches_of_disjoint hp h (.seq (matches_anyText b) (matches_char_iff.mpr rfl))

theorem getLast_scientific (h : Matches scientific a) : a.getLast? ≠ some '.' :=
  getLast_of_disjoint (by decide +kernel) h

theorem getLast_integer (h : Matches integer a) : a.getLast? ≠ some '.' :=
  fun hlast => (ascii_of_wordChar (matches_integer h _ (List.mem_of_getLast? hlast))).2 rfl

theorem digits_of_integer (h : Matches integer a)
    (hall : ∀ x ∈ a, (CharSet.union digit (.exactly '_')).contains x = true) :
    Matches digits a := by
  obtain ⟨c, a, rfl, hc⟩ := head_of_number (by simp) h
  exact matches_digits_iff.mpr ⟨c, a, rfl, hc, fun x hx => hall x (List.mem_cons_of_mem _ hx)⟩

theorem tokenize_number (h : tokenize s = t :: ts) (hk : t.kind.isNumber = true)
    (hv : Matches afterNumber v) : tokenize (t.text ++ v) = t :: tokenize v := by
  have hall : ∀ k ∈ [Kind.intNumber, .floatNumber], k ≠ .unknown ∧ k ≠ .lifetime ∧
      k.isShort = true := by decide
  obtain ⟨hu, hlife, hshort⟩ := hall t.kind (by simpa using Kind.isNumber_iff.mp hk)
  obtain ⟨p, hp, hm⟩ := number_matches h hk
  refine tokenize_replace h hu hshort (isBrokenLifetime_eq_false (fun hl => absurd hl hlife) _) ?_
  obtain ⟨c, a, ha, hc⟩ := head_of_number hp hm
  rw [ha] at hm ⊢
  refine endsBy_of_digit hc ?_ ?_
  · exact endsBy_of_separates (number_separates p hp integer (by simp)) hm hv
  · exact endsBy_of_separates (number_separates p hp scientific (by simp)) hm hv

/-- An integer in front of a point ends there, whatever is behind the point. -/
theorem tokenize_point {q : List Char} (h : tokenize (t.text ++ '.' :: q) = t :: ts)
    (hk : t.kind = .intNumber) (hd : Matches digits t.text) (v : List Char) :
    tokenize (t.text ++ '.' :: v) = t :: tokenize ('.' :: v) := by
  have hsep : Kind.intNumber.isShort = true ∧
      rules.all (fun r => separates digits (.seq (char '.') anyText) r.pattern) = true := by
        decide +kernel
  refine tokenize_replace h (by simp [hk]) (hk ▸ hsep.1)
    (isBrokenLifetime_eq_false (by simp [hk]) _) fun r hr => ?_
  exact endsBy_of_separates (List.all_eq_true.mp hsep.2 r hr) hd
    (Matches.seq (s := ['.']) (matches_char_iff.mpr rfl) (matches_anyText v))

theorem digit_contains (c : Char) : digit.contains c = c.isDigit := by
  rw [Bool.eq_iff_iff, digit, CharSet.contains_range_iff, Char.isDigit, Bool.and_eq_true,
    decide_eq_true_eq, decide_eq_true_eq]
  exact Iff.rfl

/-- A known token that starts with a digit is a number. -/
theorem isNumber_of_digit (h : tokenize s = t :: ts) (hu : t.kind ≠ .unknown)
    (hdigit : t.text.head?.any Char.isDigit = true) : t.kind.isNumber = true := by
  have hall : ∀ n < 10, ∀ r ∈ rules, r.pattern.derivatives n.digitChar ≠ [] →
      r.kind.isNumber = true ∨ r.kind = .unknown := by decide
  cases hx : t.text.head? with
  | none => simp [hx] at hdigit
  | some x =>
    rw [hx, Option.any_some, ← digit_contains] at hdigit
    obtain ⟨n, hn, rfl⟩ := eq_digitChar hdigit
    obtain ⟨r, hr, hk, hder⟩ := exists_rule_head h hu hx
    rw [← hk] at hu ⊢
    exact (hall n hn r hr hder).resolve_right hu

theorem isDigit_of_number (h : tokenize s = t :: ts) (hk : t.kind.isNumber = true) :
    t.text.head?.any Char.isDigit = true := by
  obtain ⟨p, hp, hm⟩ := number_matches h hk
  obtain ⟨c, a, ha, hc⟩ := head_of_number hp hm
  rw [ha]
  rwa [List.head?_cons, Option.any_some, ← digit_contains]

/-! ### Numbers that words go on with -/

theorem digits_append (h : Matches digits a)
    (hc : (CharSet.union digit (.exactly '_')).contains c = true) : Matches digits (a ++ [c]) := by
  obtain ⟨d, t, rfl, hd, ht⟩ := matches_digits_iff.mp h
  refine matches_digits_iff.mpr ⟨d, t ++ [c], rfl, hd, fun x hx => ?_⟩
  rcases List.mem_append.mp hx with hx | hx
  · exact ht x hx
  · rwa [List.mem_singleton.mp hx]

/-- A letter, digit or underscore goes on with a suffix, or with the digits in front of where one
would be. -/
theorem suffix_append {p : Pattern}
    (hp : ∀ b, Matches p b → (CharSet.union digit (.exactly '_')).contains c = true →
      Matches p (b ++ [c]))
    (h : Matches (.seq p (opt suffix)) a) (hc : wordChar.contains c = true) :
    Matches (.seq p (opt suffix)) (a ++ [c]) := by
  obtain ⟨b, u, rfl, hb, hu⟩ := matches_seq_iff.mp h
  have hletter (hc : (CharSet.union letter (.exactly '_')).contains c = true) :
      Matches suffix [c] :=
    Matches.seq (s := [c]) (.one hc) (matches_star_one_iff.mpr (by simp))
  rcases matches_opt_iff.mp hu with hu | rfl
  · obtain ⟨x, y, rfl, hx, hy⟩ := matches_seq_iff.mp hu
    have hlonger : Matches suffix (x ++ (y ++ [c])) := by
      refine .seq hx (matches_star_one_iff.mpr fun z hz => ?_)
      rcases List.mem_append.mp hz with hz | hz
      · exact matches_star_one_iff.mp hy z hz
      · rwa [List.mem_singleton.mp hz]
    rw [List.append_assoc, List.append_assoc]
    exact .seq hb (matches_opt_iff.mpr (.inl hlonger))
  · rcases CharSet.contains_union_iff.mp hc with hl | hd
    · rw [List.append_nil]
      exact .seq hb (matches_opt_iff.mpr
        (.inl (hletter (CharSet.contains_union_iff.mpr (.inl hl)))))
    · have hlonger := Matches.seq (hp b hb hd) hu
      rwa [List.append_nil] at hlonger ⊢

theorem number_append {p : Pattern} (hp : p ∈ [integer, scientific]) (h : Matches p a)
    (hc : wordChar.contains c = true) : Matches p (a ++ [c]) := by
  simp only [List.mem_cons, List.not_mem_nil, or_false] at hp
  rcases hp with rfl | rfl
  · exact suffix_append (fun b hb hd => digits_append hb hd) h hc
  · obtain ⟨d, e, rfl, hd, he⟩ := matches_seq_iff.mp h
    rw [List.append_assoc]
    refine .seq hd (suffix_append (fun b hb hdigit => ?_) he hc)
    obtain ⟨x, y, rfl, hx, hy⟩ := matches_seq_iff.mp hb
    obtain ⟨g, z, rfl, hg, hz⟩ := matches_seq_iff.mp hy
    rw [List.append_assoc, List.append_assoc]
    exact .seq hx (.seq hg (digits_append hz hdigit))

theorem full_append (h : Matches Fraction.full a) (hc : wordChar.contains c = true) :
    Matches Fraction.full (a ++ [c]) := by
  obtain ⟨d, q, rfl, hd, hq⟩ := matches_full_iff.mp h
  refine matches_full_iff.mpr ⟨d, q ++ [c], by simp, hd, ?_⟩
  rcases matches_afterPoint_iff.mp hq with hq | hq
  · exact matches_afterPoint_iff.mpr (.inl (number_append (p := scientific) (by simp) hq hc))
  · exact matches_afterPoint_iff.mpr (.inr (number_append (p := integer) (by simp) hq hc))

/-- In front of a letter, digit or underscore a number is cut off longer. -/
theorem number_longer {p : Pattern} (hp : p ∈ [integer, scientific]) (hm : Matches p a)
    (hc : wordChar.contains c = true) (h : tokenize (a ++ c :: w) = t :: ts) :
    t.kind.isNumber = true ∧ a.length < t.text.length := by
  have hrules : (∀ p ∈ [integer, scientific], rules.any (fun r => r.pattern = p) = true) ∧
      ∀ r ∈ rules, r.pattern = scientific ∨ r.pattern = integer → r.kind.isNumber = true := by
        decide
  obtain ⟨r₀, hr₀, hp₀⟩ := List.any_eq_true.mp (hrules.1 p hp)
  obtain ⟨x, b, rfl, hx⟩ := head_of_number hp hm
  have hlonger : (x :: b ++ c :: w).take ((x :: b).length + 1) = x :: b ++ [c] := by
    rw [List.take_length_add_append]
    rfl
  have hm₀ : Matches r₀.pattern ((x :: b ++ c :: w).take ((x :: b).length + 1)) := by
    rw [hlonger, of_decide_eq_true hp₀]
    exact number_append hp hm hc
  obtain ⟨r₁, n₁, hw₁, hle⟩ := exists_winner hr₀ (by simp) hm₀
  have hnl : x ≠ '\n' := by
    rintro rfl
    simp [digit, CharSet.contains] at hx
  rw [List.cons_append] at h hw₁
  obtain ⟨r, hr, n, hw, hn, hmr, hder, ht⟩ := exists_token_rule hnl h
  obtain ⟨hlife, -, htail, hpattern⟩ := rules_digit hx hr hder
  obtain ⟨hkind, htext⟩ := ht hlife htail
  rw [hw] at hw₁
  obtain ⟨-, rfl⟩ := Prod.mk.inj (Option.some.inj hw₁)
  have hlength : t.text.length = n + 1 := by
    rw [htext, List.length_cons, List.length_take, Nat.min_eq_left hn]
  refine ⟨?_, by omega⟩
  rw [hkind]
  rcases hpattern with hpattern | hpattern | hpattern
  · exact hrules.2 r hr (.inl hpattern)
  · exact hrules.2 r hr (.inr hpattern)
  · -- A single character is shorter than a number with one more behind it.
    rw [hpattern] at hmr
    obtain ⟨y, -, hy⟩ := matches_one_iff.mp hmr
    rw [← htext] at hy
    rw [hy, List.length_singleton] at hlength
    simp at hle
    omega

/-! ### Numbers with a point -/

namespace Fraction

theorem separates_number : separates full afterNumber full = true ∧
    separates trailing afterNumber full = true ∧
    separates trailing anyText trailing = true := by
  decide +kernel

/-- The longest match is all of a text that is itself one, if no match reaches over it. -/
theorem longest_eq {p : Pattern} {a : List Char} (hm : Matches p a) (hends : p.EndsBy a v) :
    p.longest (a ++ v) = some a.length := by
  obtain ⟨n, hn, hle⟩ := exists_longest (p := p) (s := a ++ v) (k := a.length) (by simp)
    (by rwa [List.take_left])
  rw [hn, Nat.le_antisymm (hends.longest_le hn) hle]

/-- There is no match if there is none within a text and none reaches over it. -/
theorem longest_eq_none {p : Pattern} {a : List Char} (hno : ∀ n, ¬ Matches p (a.take n))
    (hends : p.EndsBy a v) : p.longest (a ++ v) = none := by
  cases hn : p.longest (a ++ v) with
  | none => rfl
  | some n =>
    obtain ⟨-, hm⟩ := matches_of_longest hn
    rw [List.take_append_of_le_length (hends.longest_le hn)] at hm
    exact absurd hm (hno n)

/-- In front of a letter, digit or underscore a number with digits behind its point is read
longer. -/
theorem exists_length_of_full (h : Matches full a) (hc : wordChar.contains c = true) :
    ∃ n, length (a ++ c :: w) = some n ∧ a.length < n := by
  have htake : (a ++ c :: w).take (a.length + 1) = a ++ [c] := by
    rw [List.take_length_add_append]
    rfl
  obtain ⟨n, hn, hle⟩ :=
    exists_longest (p := full) (s := a ++ c :: w) (by simp) (htake.symm ▸ full_append h hc)
  exact ⟨n, by simp [length, hn], hle⟩

/-- Digits and a point are a number if nothing goes on with the point. -/
theorem exists_length_of_trailing {d : List Char} (hd : Matches digits d)
    (hw : w.head?.any continuesPoint = false) : ∃ n, length (d ++ '.' :: w) = some n := by
  have hm : Matches trailing (d ++ ['.']) := matches_trailing_iff.mpr ⟨d, rfl, hd⟩
  have htrail := longest_eq hm (endsBy_of_separates separates_number.2.2 hm (matches_anyText w))
  rw [List.append_assoc, List.singleton_append] at htrail
  have hdrop : (d ++ '.' :: w).drop (d ++ ['.']).length = w := by
    rw [show d ++ '.' :: w = d ++ ['.'] ++ w by simp, List.drop_left]
  unfold length
  split
  · exact ⟨_, rfl⟩
  · rw [htrail]
    simp only [hdrop, hw, Bool.false_eq_true, if_false]
    exact ⟨_, rfl⟩

/-- A point that digits stand in front of is right behind a text that has none, if no word goes on
behind the text. -/
theorem point_behind {a d q : List Char} (ha : '.' ∉ a)
    (hw : w.head?.any wordChar.contains = false) (hd : Matches digits d)
    (h : a ++ w = d ++ '.' :: q) : a = d ∧ w = '.' :: q := by
  rcases List.append_eq_append_iff.mp h with ⟨x, rfl, rfl⟩ | ⟨x, rfl, hx⟩
  · cases x with
    | nil => exact ⟨by simp, rfl⟩
    | cons c x =>
      have hc := matches_digits hd c (by simp)
      simp [hc] at hw
  · cases x with
    | nil => exact ⟨by simp, by simpa using hx.symm⟩
    | cons c x =>
      obtain ⟨rfl, -⟩ := List.cons.inj hx
      simp at ha

/-- An integer in front of what does not run together with it has no point. -/
theorem length_integer {a : List Char} (ha : Matches integer a) (hw : numberRunsInto a w = false) :
    length (a ++ w) = none := by
  have hpoint : '.' ∉ a := fun hmem => (ascii_of_wordChar (matches_integer ha _ hmem)).2 rfl
  rw [numberRunsInto, if_neg fun hlast => hpoint (List.mem_of_getLast? hlast),
    Bool.or_eq_false_iff] at hw
  obtain ⟨hword, hw⟩ := hw
  have hall {d : List Char} (hd : Matches digits d) :
      d.all (CharSet.union digit (.exactly '_')).contains = true := by
    obtain ⟨c, d, rfl, hc, hd⟩ := matches_digits_iff.mp hd
    simp only [List.all_cons, CharSet.contains_union_iff.mpr (.inl hc), List.all_eq_true.mpr hd,
      Bool.and_self]
  cases hn : length (a ++ w) with
  | none => rfl
  | some n =>
    rcases length_eq_some hn with ⟨d, q, r, hs, -, hd, hq, -⟩ | ⟨d, r, hs, -, hd, hr⟩
    · obtain ⟨rfl, rfl⟩ := point_behind hpoint hword hd hs
      obtain ⟨c, q', rfl, -, -, hc⟩ := head_of_afterPoint hq
      simp [hall hd, hc] at hw
    · obtain ⟨rfl, rfl⟩ := point_behind hpoint hword hd hs
      have hdot : r.head? = some '.' := by
        by_contra hne
        simp [hall hd, hne] at hw
      simp [hdot, continuesPoint] at hr

/-- A number with digits behind its point does not end with the point. -/
theorem getLast_full {a : List Char} (h : Matches full a) : a.getLast? ≠ some '.' :=
  getLast_of_disjoint (by decide +kernel) h

/-- What follows a number that ends with its point does not go on with the point. -/
theorem not_continuesPoint {d : List Char} {n : Nat} (h : length s = some n)
    (hd : s.take n = d ++ ['.']) : (s.drop n).head?.any continuesPoint = false := by
  rcases length_eq_some h with ⟨d', q, r, rfl, rfl, hd', hq, -⟩ | ⟨d', r, rfl, rfl, -, hr⟩
  · have htake : (d' ++ '.' :: (q ++ r)).take (d' ++ '.' :: q).length = d' ++ '.' :: q := by
      rw [← List.cons_append, ← List.append_assoc, List.take_left]
    have hfull : Matches full (d ++ ['.']) := by
      rw [← hd, htake]
      exact matches_full_iff.mpr ⟨d', q, rfl, hd', hq⟩
    exact absurd (by simp) (getLast_full hfull)
  · have hdrop : (d' ++ '.' :: r).drop (d' ++ ['.']).length = r := by
      rw [show d' ++ '.' :: r = d' ++ ['.'] ++ r by simp, List.drop_left]
    rwa [hdrop]

/-- A number with a point is found again in front of what does not run together with it. -/
theorem length_replace {n : Nat} (h : length s = some n) (hv : NumberEnds (s.take n) v) :
    (s.take n).length = n ∧ length (s.take n ++ v) = some n := by
  obtain ⟨hff, htf, htt⟩ := separates_number
  unfold length at h
  split at h
  · next k hfull =>
    obtain rfl := Option.some.inj h
    obtain ⟨hk, hm⟩ := matches_of_longest hfull
    have hlen : (s.take k).length = k := by rw [List.length_take, Nat.min_eq_left hk]
    refine ⟨hlen, ?_⟩
    simp [length, longest_eq hm (endsBy_of_separates hff hm hv.afterNumber), hlen]
  · next hfull =>
    split at h
    · next k htrail =>
      split_ifs at h
      obtain rfl := Option.some.inj h
      obtain ⟨hk, hm⟩ := matches_of_longest htrail
      have hlen : (s.take k).length = k := by rw [List.length_take, Nat.min_eq_left hk]
      have hnone : full.longest (s.take k ++ v) = none := by
        refine longest_eq_none (fun n hn => ?_) (endsBy_of_separates htf hm hv.afterNumber)
        rw [List.take_take] at hn
        obtain ⟨m, hm, -⟩ := exists_longest (by omega) hn
        rw [hfull] at hm
        simp at hm
      have hpoint : v.head?.any continuesPoint = false := by
        obtain ⟨d, hd, -⟩ := matches_trailing_iff.mp hm
        have hapart := hv.apart
        rwa [numberRunsInto, if_pos (by simp [hd])] at hapart
      refine ⟨hlen, ?_⟩
      simp [length, hnone, longest_eq hm (endsBy_of_separates htt hm (matches_anyText v)), hlen,
        List.drop_left' hlen, hpoint]
    · simp at h

/-- The point of a number stands behind digits. -/
theorem exists_point {n : Nat} (h : length s = some n) : ∃ d q r, s = d ++ '.' :: (q ++ r) ∧
    s.take n = d ++ '.' :: q ∧ Matches digits d := by
  rcases length_eq_some h with ⟨d, q, r, rfl, rfl, hd, -⟩ | ⟨d, r, rfl, rfl, hd, -⟩
  · refine ⟨d, q, r, rfl, ?_, hd⟩
    rw [← List.cons_append, ← List.append_assoc, List.take_left]
  · refine ⟨d, [], r, rfl, ?_, hd⟩
    rw [show d ++ '.' :: r = d ++ ['.'] ++ r by simp, List.take_left]

end Fraction

/-- A number with a point starts with the same integer in front of any other text. -/
theorem tokenize_fraction {n : Nat} (h : tokenize s = t :: ts) (hk : t.kind = .intNumber)
    (hn : Fraction.length s = some n) (w : List Char) :
    ∃ us, tokenize (s.take n ++ w) = t :: us := by
  obtain ⟨d, q, r, hs, htake, hd⟩ := Fraction.exists_point hn
  obtain rfl := integer_token hd (hs ▸ h) hk
  refine ⟨tokenize ('.' :: (q ++ w)), ?_⟩
  have hpoint := tokenize_point (q := q ++ r) (by rw [← hs]; exact h) hk hd (q ++ w)
  rwa [← List.cons_append, ← List.append_assoc, ← htake] at hpoint

end MacroBridge
