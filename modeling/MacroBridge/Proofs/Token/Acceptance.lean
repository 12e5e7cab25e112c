import Mathlib
import MacroBridge.Proofs.Token.Fraction
import MacroBridge.Proofs.Token.Relex

/-!
Every token is one of the grammar: a declared rule matches its opening, no rule matches more of the
source, and of the rules that match as much none is declared to go before the one that gave the
token. Where no declared rule does so the token is of unknown kind.
-/
namespace MacroBridge
open Pattern

/-! ### Which kind goes before which -/

/-- Whether the first kind is declared to win over the second where rules of both match the same
text. -/
def Kind.outranks : Kind → Kind → Bool
  | .floatNumber, .intNumber => true
  | .unknown, _ => false
  | _, .unknown => true
  | _, _ => false

namespace Lexer
open Grammar
variable {s x : List Char} {r r' : Rule} {l₁ l₂ rs : List Rule} {m n : Nat}

/-- A later rule takes the place of the best one only with a longer match. -/
theorem foldl_better_some (h : rs.foldl (better s) (some (r, m)) = some (r', n)) :
    r = r' ∧ m = n ∨ m < n := by
  induction rs generalizing r m with
  | nil => exact .inl (by simpa using h)
  | cons r₀ rs ih =>
    rw [List.foldl_cons] at h
    unfold better at h
    split at h
    · exact ih h
    · next k hk hbest => simp at hbest
    · next k r₁ m₁ hk hbest =>
      obtain ⟨rfl, rfl⟩ := Prod.mk.inj (Option.some.inj hbest)
      split_ifs at h with hlt
      · rcases ih h with ⟨-, rfl⟩ | hn
        · exact .inr hlt
        · exact .inr (Nat.lt_trans hlt hn)
      · exact ih h

/-- The winner stands no later than any rule that matches as much. -/
theorem winner_mem_front (h : winner (l₁ ++ l₂) s = some (r, n)) (hr' : r' ∈ l₁)
    (hm : r'.pattern.longest s = some n) : r ∈ l₁ := by
  have hfold : l₂.foldl (better s) (l₁.foldl (better s) none) = some (r, n) := by
    rw [← List.foldl_append]
    exact h
  obtain ⟨u, v, rfl⟩ := List.append_of_mem hr'
  obtain ⟨r₁, m, hfront, hle⟩ : Reaches n ((u ++ r' :: v).foldl (better s) none) := by
    rw [List.foldl_append, List.foldl_cons]
    exact (reaches_better hm).foldl v
  rw [hfront] at hfold
  rcases foldl_better_some hfold with ⟨rfl, -⟩ | hlt
  · rcases foldl_better_eq_some hfront with hnone | ⟨hmem, -⟩
    · simp at hnone
    · exact hmem
  · omega

/-- Where no later rule outranks an earlier one, none that matches as much outranks the winner. -/
theorem not_outranks_winner (hord : rs.Pairwise fun r r' => r'.kind.outranks r.kind = false)
    (hself : ∀ k : Kind, k.outranks k = false) (h : winner rs s = some (r, n)) (hr' : r' ∈ rs)
    (hm : r'.pattern.longest s = some n) : r'.kind.outranks r.kind = false := by
  obtain ⟨u, v, rfl⟩ := List.append_of_mem hr'
  have hmem : r ∈ u ++ [r'] := by
    have hsplit : winner ((u ++ [r']) ++ v) s = some (r, n) := by rwa [List.append_assoc]
    exact winner_mem_front hsplit (by simp) hm
  rcases List.mem_append.mp hmem with hu | hlast
  · exact (List.pairwise_append.mp hord).2.2 r hu r' List.mem_cons_self
  · rw [List.mem_singleton.mp hlast]
    exact hself r'.kind

theorem outranks_self (k : Kind) : k.outranks k = false := by
  cases k <;> rfl

theorem rules_pairwise : rules.Pairwise fun r r' => r'.kind.outranks r.kind = false := by
  decide

theorem declared_of_rule (hr : r ∈ rules) (hu : r.kind ≠ .unknown) : r ∈ declared := by
  have hall : ∀ r ∈ malformed, r.kind = .unknown := by decide
  rcases List.mem_append.mp hr with hr | hr
  · exact hr
  · exact absurd (hall r hr) hu

/-- Rules of different kinds have no text in common, numbers and unknown tokens apart. -/
theorem declared_disjoint : ∀ r ∈ declared, ∀ r' ∈ declared, r.kind ≠ .unknown →
    r'.kind ≠ .unknown →
    r.kind.isNumber = false → r'.kind.isNumber = false →
    r.kind = r'.kind ∨ r.pattern.disjoint r'.pattern = true := by
  decide +kernel

/-- A rule that matches a text that is a number is one of the rules for numbers, or takes any
character. -/
theorem kind_of_number (hr : r ∈ rules) (hr' : r' ∈ rules) (hnum : r.kind.isNumber = true)
    (hm : Matches r.pattern x) (hm' : Matches r'.pattern x) :
    r'.kind.isNumber = true ∨ r'.kind = .unknown := by
  have hform : ∀ r ∈ rules, r.kind.isNumber = true → ∃ q, r.pattern = .seq digits q := by
    have hall : ∀ r ∈ rules, r.kind.isNumber = true →
        r.pattern = .seq digits (chain [exponent, opt suffix]) ∨
          r.pattern = .seq digits (opt suffix) := by
      decide
    intro r hr hnum
    rcases hall r hr hnum with h | h
    · exact ⟨_, h⟩
    · exact ⟨_, h⟩
  obtain ⟨q, hq⟩ := hform r hr hnum
  rw [hq] at hm
  obtain ⟨d, w, rfl, hd, -⟩ := matches_seq_iff.mp hm
  obtain ⟨c, d', rfl, hc⟩ : ∃ c d', d = c :: d' ∧ digit.contains c = true := by
    obtain ⟨c, d', rfl, hc, -⟩ := matches_digits_iff.mp hd
    exact ⟨c, d', rfl, hc⟩
  have hder : r'.pattern.derivatives c ≠ [] := by
    obtain ⟨p, hp, -⟩ := exists_derivative_iff.mpr hm'
    exact List.ne_nil_of_mem hp
  have hkind : ∀ r ∈ rules,
      (r.pattern = chain [digits, exponent, opt suffix] ∨ r.pattern = integer ∨
      r.pattern = one notNewline) → r.kind.isNumber = true ∨ r.kind = .unknown := by decide
  exact hkind r' hr' (rules_digit hc hr' hder).2.2.2

/-- Of two rules that match the same text one outranks the other, if they are not of one kind. -/
theorem kinds_compare (hr : r ∈ rules) (hr' : r' ∈ rules) (hm : Matches r.pattern x)
    (hm' : Matches r'.pattern x) :
    r'.kind = r.kind ∨ r.kind.outranks r'.kind = true ∨ r'.kind.outranks r.kind = true := by
  have hunknown : ∀ k : Kind, k ≠ .unknown → k.outranks .unknown = true := by
    intro k hk
    cases k <;> simp_all [Kind.outranks]
  have hnumbers : ∀ {k k' : Kind}, k.isNumber = true → k'.isNumber = true →
      k' = k ∨ k.outranks k' = true ∨ k'.outranks k = true := by
    intro k k' hk hk'
    cases k <;> cases k' <;> simp_all [Kind.isNumber, Kind.outranks]
  by_cases hu : r.kind = .unknown
  · by_cases hu' : r'.kind = .unknown
    · exact .inl (hu'.trans hu.symm)
    · exact .inr (.inr (hu ▸ hunknown _ hu'))
  by_cases hu' : r'.kind = .unknown
  · exact .inr (.inl (hu' ▸ hunknown _ hu))
  cases hnum : r.kind.isNumber with
  | true => exact hnumbers hnum ((kind_of_number hr hr' hnum hm hm').resolve_right hu')
  | false =>
    cases hnum' : r'.kind.isNumber with
    | true =>
      have := (kind_of_number hr' hr hnum' hm' hm).resolve_right hu
      rw [hnum] at this
      simp at this
    | false =>
      rcases declared_disjoint r (declared_of_rule hr hu) r' (declared_of_rule hr' hu') hu hu' hnum
        hnum' with h | h
      · exact .inl h.symm
      · exact absurd hm' (not_matches_of_disjoint h hm)

/-- Every rule that matches what the winner does is of its kind or outranked by it. -/
theorem winner_outranks (h : winner rules s = some (r, n)) (hr' : r' ∈ rules)
    (hm : Matches r'.pattern (s.take n)) : r'.kind = r.kind ∨ r.kind.outranks r'.kind = true := by
  obtain ⟨hr, hn, hmr⟩ := winner_eq_some h
  have hlong : r'.pattern.longest s = some n := by
    obtain ⟨k, hk, hle⟩ := exists_longest hn hm
    obtain ⟨hk', hmk⟩ := matches_of_longest hk
    obtain ⟨r₁, n₁, hw, hle'⟩ := exists_winner hr' hk' hmk
    rw [h] at hw
    obtain ⟨-, rfl⟩ := Prod.mk.inj (Option.some.inj hw)
    rw [hk, show k = n by omega]
  have hno := not_outranks_winner rules_pairwise outranks_self h hr' hlong
  rcases kinds_compare hr hr' hmr hm with hkind | hout | hout
  · exact .inl hkind
  · exact .inr hout
  · rw [hno] at hout
    simp at hout

/-- Integers and unknown tokens apart, the kind of a token is that of any rule that matches as
much. -/
theorem kind_of_winner (h : winner rules s = some (r, n)) (hr' : r' ∈ rules)
    (hm : Matches r'.pattern (s.take n)) (hk : r'.kind ≠ .unknown) (hint : r'.kind ≠ .intNumber) :
    r.kind = r'.kind := by
  rcases winner_outranks h hr' hm with hsame | hout
  · exact hsame.symm
  · unfold Kind.outranks at hout
    split at hout
    · exact absurd ‹_› hint
    · simp at hout
    · exact absurd ‹_› hk
    · simp at hout

/-- The first token where a rule matches a text and none reaches over it into what follows. -/
theorem first_of_matches {o v : List Char} (hr : r ∈ rules) (hm : Matches r.pattern o)
    (hends : ∀ q ∈ rules, q.pattern.EndsBy o v) (hu : r.kind ≠ .unknown)
    (hint : r.kind ≠ .intNumber) (hlife : r.kind ≠ .lifetime) :
    first (o ++ v) = (r.kind, o.length + tailLength r.tail o v) := by
  have htail : ∀ r ∈ rules, ∀ r' ∈ rules, r'.kind = r.kind → r'.tail = r.tail := by decide
  obtain ⟨r', hr', hw, -⟩ := exists_winner_eq hr hm hends
  have hkind : r'.kind = r.kind := kind_of_winner hw hr (by rwa [List.take_left]) hu hint
  have hfirst := first_of_winner hw (hkind ▸ hlife)
  rwa [List.take_left, List.drop_left, hkind, htail r hr r' hr' hkind] at hfirst

end Lexer

/-! ### Tokens at their places -/

open Lexer Grammar

theorem exists_place {offset start stop : Nat} {s : List Char} {t : Token}
    (h : (t, start, stop) ∈ Token.withRanges offset (tokenize s)) :
    ∃ before after ts, s = before ++ (t.text ++ after) ∧ start = offset + Utf8.byteLength before ∧
      stop = start + t.byteLength ∧ tokenize (t.text ++ after) = t :: ts := by
  generalize hts : tokenize s = ts at h
  induction ts generalizing offset s with
  | nil => simp [Token.withRanges] at h
  | cons u us ih =>
    obtain ⟨-, -, -, hs, hus⟩ := tokenize_eq_cons hts
    simp only [Token.withRanges, List.mem_cons, Prod.mk.injEq] at h
    rcases h with ⟨rfl, rfl, rfl⟩ | h
    · exact ⟨[], s.drop t.text.length, us, hs, by simp [Utf8.byteLength], rfl, hs ▸ hts⟩
    · obtain ⟨before, after, ts, hsplit, hstart, hstop, htok⟩ := ih hus.symm h
      refine ⟨u.text ++ before, after, ts, ?_, ?_, hstop, htok⟩
      · rw [List.append_assoc, ← hsplit, ← hs]
      · rw [hstart, Token.byteLength, Utf8.byteLength_append, Nat.add_assoc]

theorem commentLength_le (depth n : Nat) (s : List Char) :
    commentLength depth n s ≤ n + s.length := by
  fun_induction commentLength depth n s <;> simp only [List.length_cons, List.length_nil]
    at * <;> omega

theorem tailLength_le (tail : Tail) (opening s : List Char) :
    tailLength tail opening s ≤ s.length := by
  cases tail with
  | plain => exact Nat.zero_le _
  | comment => simpa [tailLength] using commentLength_le 0 0 s
  | rawString => simpa [tailLength] using rawStringLength_le (opening.count '#') 0 s

/-! ### What is accepted -/

/-- Kinds of which only the opening has a pattern. -/
def Kind.hasTail : Kind → Bool
  | .blockComment | .rawStr | .rawByteStr | .rawCStr => true
  | _ => false

/-- A rule gives the token `opening ++ extra` in front of `after`. -/
structure Rule.Gives (r : Rule) (opening extra after : List Char) : Prop where
  declared : r ∈ declared
  opens : Matches r.pattern opening
  tail : tailLength r.tail opening (extra ++ after) = extra.length
  whole : r.kind.hasTail = false → extra = []
  longest : ∀ r' ∈ rules, r'.pattern.EndsBy opening (extra ++ after)
  first : ∀ r' ∈ rules, Matches r'.pattern opening →
    r'.kind = r.kind ∨ r.kind.outranks r'.kind = true

variable {s after : List Char} {t : Token} {ts : List Token}

theorem gives_of_winner {r : Rule} {n : Nat} (hw : winner rules s = some (r, n))
    (hu : r.kind ≠ .unknown) (extra : List Char) (hdrop : s.drop n = extra ++ after)
    (htail : tailLength r.tail (s.take n) (s.drop n) = extra.length) :
    r.Gives (s.take n) extra after := by
  obtain ⟨hr, hn, hm⟩ := winner_eq_some hw
  constructor
  · exact declared_of_rule hr hu
  · exact hm
  · rw [← hdrop, htail]
  · intro hplain
    have hall : ∀ r ∈ rules, r.kind.hasTail = false → r.tail = .plain := by decide
    rw [hall r hr hplain, tailLength] at htail
    exact List.length_eq_zero_iff.mp htail.symm
  · apply endsBy_of_winner (r := r)
    rw [← hdrop, List.take_append_drop, List.length_take_of_le hn, hw]
  · intro r' hr' hm'
    exact winner_outranks hw hr' hm'

theorem exists_gives (h : tokenize (t.text ++ after) = t :: ts) (hu : t.kind ≠ .unknown) :
    ∃ (r : Rule) (opening extra : List Char),
      t.text = opening ++ extra ∧ r.kind = t.kind ∧ r.Gives opening extra after := by
  obtain ⟨r, -, n, hk, hw, hn, -, ht⟩ := exists_rule h hu
  generalize hs : t.text ++ after = s at hw hn ht
  generalize hextra : (s.drop n).take (tailLength r.tail (s.take n) (s.drop n)) = extra
  have htext : t.text = s.take n ++ extra := by rw [ht, ← hextra, List.take_add]
  have hdrop : s.drop n = extra ++ after := by
    rw [← hs, htext, List.append_assoc, List.drop_left' (List.length_take_of_le hn)]
  refine ⟨r, s.take n, extra, htext, hk, gives_of_winner hw (hk ▸ hu) extra hdrop ?_⟩
  rw [← hextra, List.length_take, Nat.min_eq_left (tailLength_le _ _ _)]

/-! ### What is not -/

/-- Why a token in front of `after` is of unknown kind. -/
inductive Token.Rejected (t : Token) (after : List Char) : Prop
  /-- No declared rule matches anything there. -/
  | single (c : Char) (text : t.text = [c])
      (none : ∀ r ∈ declared, r.kind ≠ .unknown → ∀ x, x <+: t.text ++ after →
        ¬ Matches r.pattern x)
  /-- A broken form is longer than what any declared rule matches. -/
  | malformed (r : Rule) (mem : r ∈ malformed) (form : Matches r.pattern t.text)
      (shorter : ∀ r ∈ declared, r.kind ≠ .unknown → ∀ x, x <+: t.text ++ after →
        Matches r.pattern x → x.length < t.text.length)
  /-- A lifetime with a name of one character stands in front of a foreign one. -/
  | lifetime (r : Rule) (kind : r.kind = .lifetime) (gives : r.Gives t.text [] after)
      (short : t.text.length = 2) (foreign : after.head?.any isForeign = true)

/-- A rule of known kind matches less than the winner that is of unknown kind. -/
theorem lt_winner_unknown {r r' : Rule} {n : Nat} (hw : winner rules s = some (r, n))
    (hu : r.kind = .unknown) (hr' : r' ∈ declared) (hu' : r'.kind ≠ .unknown) {x : List Char}
    (hx : x <+: s) (hm : Matches r'.pattern x) : x.length < n := by
  have hmem : r' ∈ rules := List.mem_append_left _ hr'
  have htake : s.take x.length = x := (List.prefix_iff_eq_take.mp hx).symm
  obtain ⟨r₁, n₁, hw₁, hle⟩ := exists_winner hmem hx.length_le (htake.symm ▸ hm)
  rw [hw] at hw₁
  obtain ⟨-, rfl⟩ := Prod.mk.inj (Option.some.inj hw₁)
  refine Nat.lt_of_le_of_ne hle ?_
  rintro rfl
  rcases winner_outranks hw hmem (htake.symm ▸ hm) with hk | hout
  · exact hu' (hk.trans hu)
  · rw [hu] at hout
    simp [Kind.outranks] at hout

theorem first_unknown (h : (first s).1 = .unknown) :
    winner rules s = none ∧ (first s).2 = 1 ∨
      ∃ r n, winner rules s = some (r, n) ∧ (first s).2 = n ∧
        (r.kind = .unknown ∨ isBrokenLifetime r.kind (s.take n) (s.drop n) = true) := by
  have htail : ∀ r ∈ rules, r.kind = .unknown → r.tail = .plain := by decide
  unfold first at h ⊢
  cases hw : winner rules s with
  | none => exact .inl ⟨rfl, rfl⟩
  | some best =>
    obtain ⟨r, n⟩ := best
    obtain ⟨hr, -⟩ := winner_eq_some hw
    simp only [hw] at h ⊢
    refine .inr ⟨r, n, rfl, ?_⟩
    split_ifs at h ⊢ with hb
    · exact ⟨rfl, .inr hb⟩
    · exact ⟨by simp [htail r hr h, tailLength], .inl h⟩

theorem not_matches_of_winner_none (h : winner rules s = none) {r : Rule} (hr : r ∈ rules)
    {x : List Char} (hx : x <+: s) : ¬ Matches r.pattern x := by
  intro hm
  obtain ⟨r', n, hw, -⟩ := exists_winner hr hx.length_le ((List.prefix_iff_eq_take.mp hx) ▸ hm)
  rw [h] at hw
  simp at hw

theorem pos_of_winner {r : Rule} {n : Nat} (h : winner rules s = some (r, n)) : 0 < n := by
  obtain ⟨hr, -, hm⟩ := winner_eq_some h
  rw [Nat.pos_iff_ne_zero]
  rintro rfl
  exact not_matches_nil hr hm

/-- The token of a winner that is of unknown kind. -/
theorem rejected_of_winner {r : Rule}
    (hw : winner rules (t.text ++ after) = some (r, t.text.length)) (hu : r.kind = .unknown) :
    t.Rejected after := by
  obtain ⟨hr, -, hm⟩ := winner_eq_some hw
  rw [List.take_left] at hm
  have hless : ∀ r' ∈ declared, r'.kind ≠ .unknown → ∀ x, x <+: t.text ++ after →
      Matches r'.pattern x →
      x.length < t.text.length := by
    intro r' hr' hu' x hx hm'
    exact lt_winner_unknown hw hu hr' hu' hx hm'
  rcases List.mem_append.mp hr with hdecl | hbad
  · have hpattern : ∀ r ∈ declared, r.kind = .unknown → r.pattern = one notNewline := by decide
    rw [hpattern r hdecl hu, matches_one_iff] at hm
    obtain ⟨c, -, hc⟩ := hm
    apply Token.Rejected.single c hc
    intro r' hr' hu' x hx hm'
    have hlt := hless r' hr' hu' x hx hm'
    rw [hc, List.length_singleton, Nat.lt_one_iff, List.length_eq_zero_iff] at hlt
    exact not_matches_nil (List.mem_append_left _ hr') (hlt ▸ hm')
  · exact .malformed r hbad hm hless

/-- The quote and the name character of a broken lifetime. -/
theorem rejected_of_brokenLifetime {r : Rule}
    (hw : winner rules (t.text ++ after) = some (r, t.text.length))
    (hb : isBrokenLifetime r.kind t.text after = true) : t.Rejected after := by
  simp only [isBrokenLifetime, Bool.and_eq_true, decide_eq_true_eq] at hb
  obtain ⟨⟨hlife, htwo⟩, hforeign⟩ := hb
  have hplain : ∀ r ∈ rules, r.kind = .lifetime → r.tail = .plain := by decide
  have hgives := gives_of_winner hw (by simp [hlife]) [] (List.drop_left ..)
    (by simp [hplain r (winner_eq_some hw).1 hlife, tailLength])
  rw [List.take_left] at hgives
  exact .lifetime r hlife hgives htwo hforeign

theorem rejected (h : tokenize (t.text ++ after) = t :: ts) (hu : t.kind = .unknown) :
    t.Rejected after := by
  obtain ⟨hk, ht, hne, -⟩ := tokenize_eq_cons h
  rcases first_unknown (hu ▸ hk.symm) with ⟨hnone, hlen⟩ | ⟨r, n, hw, hlen, hcase⟩
  · obtain ⟨c, u, hcons⟩ := List.exists_cons_of_ne_nil hne
    have hc : t.text = [c] := by
      rw [ht, hlen, hcons]
      rfl
    apply Token.Rejected.single c hc
    intro r hr _ x hx
    exact not_matches_of_winner_none hnone (List.mem_append_left _ hr) hx
  · obtain ⟨-, hn, -⟩ := winner_eq_some hw
    have hlength : t.text.length = n := by
      rw [ht, hlen, Nat.max_eq_right (pos_of_winner hw), List.length_take_of_le hn]
    rw [← hlength] at hw hcase
    rw [List.take_left, List.drop_left] at hcase
    rcases hcase with hunknown | hbroken
    · exact rejected_of_winner hw hunknown
    · exact rejected_of_brokenLifetime hw hbroken

/-- A token that a declared rule matches all of is of the kind of that rule, or of one that goes
before it. -/
theorem kind_of_matches {r : Rule} (h : tokenize (t.text ++ after) = t :: ts) (hr : r ∈ declared)
    (hu : r.kind ≠ .unknown) (hlife : r.kind ≠ .lifetime) (hm : Matches r.pattern t.text) :
    r.kind = t.kind ∨ t.kind.outranks r.kind = true := by
  have hmem : r ∈ rules := List.mem_append_left _ hr
  by_cases hunknown : t.kind = .unknown
  · cases rejected h hunknown with
    | single c htext hnone => exact absurd hm (hnone r hr hu _ (List.prefix_append _ _))
    | malformed r' _ _ hshorter =>
      exact absurd (hshorter r hr hu _ (List.prefix_append _ _) hm) (Nat.lt_irrefl _)
    | lifetime r' hr' hgives =>
      rcases hgives.first r hmem hm with hk | hout
      · exact absurd (hk.trans hr') hlife
      · rw [hr'] at hout
        cases hk : r.kind <;> simp_all [Kind.outranks]
  · obtain ⟨r', opening, extra, htext, hk, hgives⟩ := exists_gives h hunknown
    rw [htext] at hm
    obtain rfl := hgives.longest r hmem extra (List.prefix_append _ _) hm
    rw [List.append_nil] at hm
    rw [← hk]
    exact hgives.first r hmem hm

/-- Every token stands at its range in the source. One of a known kind is what a declared rule of
that kind gives there, and one of unknown kind is there because no declared rule gives a token. -/
theorem tokens_accepted {source : List Char} {t : Token} {start stop : Nat}
    (h : (t, start, stop) ∈ Token.withRanges 0 (tokenize source)) :
    ∃ before after, source = before ++ (t.text ++ after) ∧ Utf8.byteLength before = start ∧
      Utf8.byteLength (before ++ t.text) = stop ∧
      (t.kind ≠ .unknown → ∃ (r : Rule) (opening extra : List Char),
        t.text = opening ++ extra ∧ r.kind = t.kind ∧ r.Gives opening extra after) ∧
      (t.kind = .unknown → t.Rejected after) := by
  obtain ⟨before, after, ts, hsource, hstart, hstop, htok⟩ := exists_place h
  rw [Nat.zero_add] at hstart
  refine ⟨before, after, hsource, hstart.symm, ?_, exists_gives htok, rejected htok⟩
  rw [hstop, hstart, Utf8.byteLength_append, Token.byteLength]

def placedSource : List Char := "é 1e5 br#\"\"a\"#'b".toList

def placedToken : Token := ⟨.rawByteStr, "br#\"\"a\"#".toList⟩

set_option maxRecDepth 4000 in
theorem tokens_accepted_rawString :
    (placedToken, 7, 15) ∈ Token.withRanges 0 (tokenize placedSource) ∧
      ∃ before after, placedSource = before ++ (placedToken.text ++ after) ∧
        Utf8.byteLength before = 7 ∧
        Utf8.byteLength (before ++ placedToken.text) = 15 ∧
        ∃ (r : Rule) (opening extra : List Char),
          placedToken.text = opening ++ extra ∧ r.kind = placedToken.kind ∧
          r.Gives opening extra after := by
  have hmem : (placedToken, 7, 15) ∈ Token.withRanges 0 (tokenize placedSource) :=
    List.mem_of_getElem? (i := 4) (by cbv)
  obtain ⟨before, after, hsource, hstart, hstop, hknown, -⟩ := tokens_accepted hmem
  exact ⟨hmem, before, after, hsource, hstart, hstop, hknown (by decide)⟩

end MacroBridge
