import MacroBridge.Proofs.Text.Utf8
import MacroBridge.Proofs.Token.Lexer
import MacroBridge.Token.Fraction

/-!
The tokens of a number with a point: an integer, the point and, unless the point is the end of it,
one more token for the rest.
-/
namespace MacroBridge
open Pattern Grammar Lexer
open CharSet (contains_range_iff contains_union_iff contains_exactly_iff)
open Utf8 (IsAscii)

/-! ### Texts of numbers -/

/-- A letter, a digit or an underscore. -/
def wordChar : CharSet := .union letter (.union digit (.exactly '_'))

theorem ascii_of_wordChar {c : Char} (h : wordChar.contains c = true) :
    c.toNat < 128 ∧ c ≠ '.' := by
  have hrange {lo hi : Char} (hhi : hi.toNat < 128) (hlo : 46 < lo.toNat)
      (h : (CharSet.range lo hi).contains c = true) : c.toNat < 128 ∧ c ≠ '.' := by
    obtain ⟨h₁, h₂⟩ := contains_range_iff.mp h
    refine ⟨by omega, ?_⟩
    rintro rfl
    exact absurd h₁ (by simpa using hlo)
  rcases contains_union_iff.mp h with h | h
  · rcases contains_union_iff.mp h with h | h
    · exact hrange (by decide) (by decide) h
    · exact hrange (by decide) (by decide) h
  · rcases contains_union_iff.mp h with h | h
    · exact hrange (by decide) (by decide) h
    · obtain rfl := contains_exactly_iff.mp h
      decide

theorem eq_digitChar {c : Char} (h : digit.contains c = true) : ∃ n < 10, c = n.digitChar := by
  obtain ⟨h₁, h₂⟩ := contains_range_iff.mp h
  change 48 ≤ c.toNat at h₁
  change c.toNat ≤ 57 at h₂
  rw [← Char.ofNat_toNat c]
  generalize c.toNat = n at h₁ h₂
  have hn : ∀ n ≤ 57, 48 ≤ n → Char.ofNat n = (n - 48).digitChar := by decide
  exact ⟨n - 48, by omega, hn n h₂ h₁⟩

theorem matches_digits_iff {s : List Char} :
    Matches digits s ↔ ∃ c t, s = c :: t ∧ digit.contains c = true ∧
      ∀ x ∈ t, (CharSet.union digit (.exactly '_')).contains x = true := by
  rw [digits, matches_seq_iff]
  constructor
  · rintro ⟨a, b, rfl, ha, hb⟩
    obtain ⟨c, hc, rfl⟩ := matches_one_iff.mp ha
    exact ⟨c, b, rfl, hc, matches_star_one_iff.mp hb⟩
  · rintro ⟨c, t, rfl, hc, ht⟩
    exact ⟨[c], t, rfl, .one hc, matches_star_one_iff.mpr ht⟩

theorem matches_suffix {s : List Char} (h : Matches suffix s) :
    ∀ c ∈ s, wordChar.contains c = true := by
  obtain ⟨a, b, rfl, ha, hb⟩ := matches_seq_iff.mp h
  obtain ⟨c, hc, rfl⟩ := matches_one_iff.mp ha
  refine List.forall_mem_cons.mpr ⟨?_, matches_star_one_iff.mp hb⟩
  rcases contains_union_iff.mp hc with hc | hc
  · exact contains_union_iff.mpr (.inl hc)
  · exact contains_union_iff.mpr (.inr (contains_union_iff.mpr (.inr hc)))

theorem matches_digits {s : List Char} (h : Matches digits s) :
    ∀ c ∈ s, wordChar.contains c = true := by
  obtain ⟨c, t, rfl, hc, ht⟩ := matches_digits_iff.mp h
  refine List.forall_mem_cons.mpr ⟨?_, fun x hx => contains_union_iff.mpr (.inr (ht x hx))⟩
  exact contains_union_iff.mpr (.inr (contains_union_iff.mpr (.inl hc)))

theorem matches_opt {p : Pattern} {P : Char → Prop} (hp : ∀ s, Matches p s → ∀ c ∈ s, P c)
    {s : List Char} (h : Matches (opt p) s) : ∀ c ∈ s, P c := by
  rcases matches_opt_iff.mp h with h | rfl
  · exact hp s h
  · simp

/-- The pattern of an integer. -/
def integer : Pattern := .seq digits (opt suffix)

theorem matches_integer {s : List Char} (h : Matches integer s) :
    ∀ c ∈ s, wordChar.contains c = true := by
  obtain ⟨a, b, rfl, ha, hb⟩ := matches_seq_iff.mp h
  intro c hc
  rcases List.mem_append.mp hc with hc | hc
  · exact matches_digits ha c hc
  · exact matches_opt (fun _ => matches_suffix) hb c hc

/-- What may stand behind a point: digits, an exponent and a suffix. -/
def afterPoint : Pattern := chain [digits, opt exponent, opt suffix]

theorem matches_afterPoint_iff {s : List Char} :
    Matches afterPoint s ↔ Matches (chain [digits, exponent, opt suffix]) s ∨
    Matches integer s := by
  simp only [afterPoint, chain, integer]
  constructor
  · intro h
    obtain ⟨a, b, rfl, ha, hb⟩ := matches_seq_iff.mp h
    obtain ⟨e, u, rfl, he, hu⟩ := matches_seq_iff.mp hb
    rcases matches_opt_iff.mp he with he | rfl
    · exact .inl (.seq ha (.seq he hu))
    · exact .inr (.seq ha hu)
  · rintro (h | h)
    · obtain ⟨a, b, rfl, ha, hb⟩ := matches_seq_iff.mp h
      obtain ⟨e, u, rfl, he, hu⟩ := matches_seq_iff.mp hb
      exact .seq ha (.seq (.altLeft he) hu)
    · obtain ⟨a, b, rfl, ha, hb⟩ := matches_seq_iff.mp h
      exact .seq ha (Matches.seq (matches_opt_iff.mpr (.inr rfl)) hb)

theorem ascii_of_afterPoint {s : List Char} (h : Matches afterPoint s) : IsAscii s := by
  have hword {s : List Char} (h : ∀ c ∈ s, wordChar.contains c = true) : IsAscii s :=
    fun c hc => (ascii_of_wordChar (h c hc)).1
  have hmark {a : List Char} {cs : List Char} (hcs : ∀ c ∈ cs, c.toNat < 128)
      (h : Matches (oneOf cs) a) : IsAscii a := by
    obtain ⟨c, hc, rfl⟩ := matches_oneOf_iff.mp h
    simpa [IsAscii] using hcs c hc
  obtain ⟨a, b, rfl, ha, hb⟩ := matches_seq_iff.mp h
  obtain ⟨e, u, rfl, he, hu⟩ := matches_seq_iff.mp hb
  refine (hword (matches_digits ha)).append
    (IsAscii.append ?_ (hword (matches_opt (fun _ => matches_suffix) hu)))
  refine matches_opt (fun s hs => ?_) he
  obtain ⟨x, y, rfl, hx, hy⟩ := matches_seq_iff.mp hs
  obtain ⟨g, d, rfl, hg, hd⟩ := matches_seq_iff.mp hy
  refine (hmark (by simp) hx).append (IsAscii.append ?_ (hword (matches_digits hd)))
  exact matches_opt (fun _ => hmark (by simp)) hg

theorem matches_full_iff {s : List Char} :
    Matches Fraction.full s ↔ ∃ d q, s = d ++ '.' :: q ∧ Matches digits d ∧
      Matches afterPoint q := by
  simp only [Fraction.full, afterPoint, chain]
  constructor
  · intro h
    obtain ⟨d, x, rfl, hd, hx⟩ := matches_seq_iff.mp h
    obtain ⟨y, q, rfl, hy, hq⟩ := matches_seq_iff.mp hx
    exact ⟨d, q, by rw [matches_char_iff.mp hy]; rfl, hd, hq⟩
  · rintro ⟨d, q, rfl, hd, hq⟩
    exact .seq hd (Matches.seq (s := ['.']) (matches_char_iff.mpr rfl) hq)

theorem matches_trailing_iff {s : List Char} :
    Matches Fraction.trailing s ↔ ∃ d, s = d ++ ['.'] ∧ Matches digits d := by
  simp only [Fraction.trailing, chain]
  constructor
  · intro h
    obtain ⟨d, x, rfl, hd, hx⟩ := matches_seq_iff.mp h
    exact ⟨d, by rw [matches_char_iff.mp hx], hd⟩
  · rintro ⟨d, rfl, hd⟩
    exact .seq hd (matches_char_iff.mpr rfl)

/-! ### Tokens at a number -/

def Kind.isNumber : Kind → Bool
  | .intNumber | .floatNumber => true
  | _ => false

/-- Kinds of tokens that neither separate nor group others. -/
def Kind.IsPlain (k : Kind) : Prop :=
  k.isTrivia = false ∧ ∀ b, k ≠ .opening b ∧ k ≠ .closing b

instance (k : Kind) : Decidable k.IsPlain :=
  decidable_of_iff (k.isTrivia = false ∧ ∀ b ∈ [Bracket.paren, .brace, .square], k ≠ .opening b ∧
    k ≠ .closing b)
    (and_congr_right fun _ => ⟨fun h b => h b (by cases b <;> simp), fun h b _ => h b⟩)

theorem Kind.isNumber_iff {k : Kind} : k.isNumber = true ↔ k = .intNumber ∨ k = .floatNumber := by
  cases k <;> simp [isNumber]

theorem Kind.isLiteral_of_isNumber {k : Kind} (h : k.isNumber = true) : k.isLiteral = true := by
  rcases isNumber_iff.mp h with rfl | rfl
  · rfl
  · rfl

theorem Kind.isPlain_of_isNumber {k : Kind} (h : k.isNumber = true) : k.IsPlain := by
  rcases isNumber_iff.mp h with rfl | rfl
  · decide
  · decide

/-- The rules for a text that starts with a point. -/
theorem rules_point : ∀ r ∈ rules, r.pattern.derivatives '.' ≠ [] →
    r.kind ≠ .lifetime ∧ r.kind.IsPlain ∧
    r.tail = .plain ∧ (r.pattern = choice (operators.map literal) ∨
      r.pattern = one notNewline) := by
  decide

theorem rules_digitChar : ∀ n < 10, ∀ r ∈ rules, r.pattern.derivatives n.digitChar ≠ [] →
    r.kind ≠ .lifetime ∧ r.kind.IsPlain ∧ r.tail = .plain ∧
      (r.pattern = chain [digits, exponent, opt suffix] ∨ r.pattern = integer ∨
        r.pattern = one notNewline) := by
  decide

/-- The rules for a text that starts with a digit. -/
theorem rules_digit {c : Char} (hc : digit.contains c = true) {r : Rule} (hr : r ∈ rules)
    (h : r.pattern.derivatives c ≠ []) : r.kind ≠ .lifetime ∧ r.kind.IsPlain ∧ r.tail = .plain ∧
      (r.pattern = chain [digits, exponent, opt suffix] ∨ r.pattern = integer ∨
        r.pattern = one notNewline) := by
  obtain ⟨n, hn, rfl⟩ := eq_digitChar hc
  exact rules_digitChar n hn r hr h

/-- The rule that gives the first token, and the token if nothing is to be looked at behind its
match. -/
theorem exists_token_rule {c : Char} {s : List Char} {t : Token} {ts : List Token} (hc : c ≠ '\n')
    (h : tokenize (c :: s) = t :: ts) :
    ∃ r ∈ rules, ∃ n, winner rules (c :: s) = some (r, n + 1) ∧ n ≤ s.length ∧
      Matches r.pattern (c :: s.take n) ∧ r.pattern.derivatives c ≠ [] ∧
      (r.kind ≠ .lifetime → r.tail = .plain → t.kind = r.kind ∧ t.text = c :: s.take n) := by
  have hunknown : Rule.mk .unknown (one notNewline) .plain ∈ rules := by simp [rules, declared]
  have hone : Matches (one notNewline) ((c :: s).take 1) :=
    .one (by simp [notNewline, CharSet.contains, hc])
  obtain ⟨r, n, hw, hn⟩ := exists_winner hunknown (by simp) hone
  obtain ⟨n, rfl⟩ : ∃ k, n = k + 1 := ⟨n - 1, by omega⟩
  obtain ⟨hr, hl, hm⟩ := winner_eq_some hw
  rw [List.take_succ_cons] at hm
  obtain ⟨d, hd, -⟩ := exists_derivative_iff.mpr hm
  refine ⟨r, hr, n, hw, by simpa using hl, hm, List.ne_nil_of_mem hd, fun hk ht => ?_⟩
  obtain ⟨hkind, htext, -⟩ := tokenize_eq_cons h
  have hf := first_of_winner hw hk
  rw [ht, tailLength, Nat.add_zero] at hf
  rw [hf] at hkind htext
  refine ⟨hkind, ?_⟩
  rw [htext, show max 1 (n + 1) = n + 1 by omega, List.take_succ_cons]

theorem isPlain_of_digit {c : Char} {s : List Char} {t : Token} {ts : List Token}
    (hc : digit.contains c = true) (h : tokenize (c :: s) = t :: ts) : t.kind.IsPlain := by
  have hnl : c ≠ '\n' := by
    rintro rfl
    simp [digit, CharSet.contains] at hc
  obtain ⟨r, hr, n, -, -, -, hd, ht⟩ := exists_token_rule hnl h
  obtain ⟨hk, hplain, htail, -⟩ := rules_digit hc hr hd
  rw [(ht hk htail).1]
  exact hplain

/-- A point is a token of its own if no other one follows. -/
theorem point_token {s : List Char} {t : Token} {ts : List Token} (hs : s.head? ≠ some '.')
    (h : tokenize ('.' :: s) = t :: ts) : t.text = ['.'] ∧ t.kind.IsPlain := by
  obtain ⟨r, hr, n, -, hn, hm, hd, ht⟩ := exists_token_rule (by decide) h
  obtain ⟨hk, hplain, htail, hp⟩ := rules_point r hr hd
  obtain ⟨hkind, htext⟩ := ht hk htail
  have htake : s.take n = [] := by
    rcases hp with hp | hp
    · rw [hp] at hm
      obtain ⟨p, hmem, hmp⟩ := matches_choice_iff.mp hm
      obtain ⟨o, ho, rfl⟩ := List.mem_map.mp hmem
      rw [matches_literal_iff] at hmp
      have hop : ∀ o ∈ operators, o.head? = some '.' → o.tail = [] ∨ o.tail.head? = some '.' := by
        decide
      rcases hop o ho (by rw [← hmp]; rfl) with hnil | hhead
      · rwa [← hmp] at hnil
      · rw [← hmp, List.tail_cons] at hhead
        cases s with
        | nil => simp at hhead
        | cons x s =>
          cases n with
          | zero => rfl
          | succ n => exact absurd hhead hs
    · rw [hp] at hm
      obtain ⟨c, -, hc⟩ := matches_one_iff.mp hm
      exact (List.cons.inj hc).2
  exact ⟨by rw [htext, htake], hkind ▸ hplain⟩

theorem head_of_digits {d : List Char} (h : Matches digits d) :
    ∃ c d', d = c :: d' ∧ digit.contains c = true ∧ c ≠ '\n' ∧ c ≠ '.' := by
  obtain ⟨c, t, rfl, hc, -⟩ := matches_digits_iff.mp h
  obtain ⟨n, hn, rfl⟩ := eq_digitChar hc
  have hne : ∀ n < 10, n.digitChar ≠ '\n' ∧ n.digitChar ≠ '.' := by decide
  exact ⟨n.digitChar, t, rfl, hc, hne n hn⟩

theorem head_of_afterPoint {q : List Char} (h : Matches afterPoint q) :
    ∃ c q', q = c :: q' ∧ digit.contains c = true ∧ c ≠ '\n' ∧ c ≠ '.' := by
  obtain ⟨d, e, rfl, hd, -⟩ := matches_seq_iff.mp h
  obtain ⟨c, d', rfl, hc, hne⟩ := head_of_digits hd
  exact ⟨c, d' ++ e, rfl, hc, hne⟩

/-- What stands behind a point up to the end of the number is one token. -/
theorem number_token {q s : List Char} {t : Token} {ts : List Token} (hq : Matches afterPoint q)
    (hmax : ∀ m ≤ (q ++ s).length, Matches afterPoint ((q ++ s).take m) → m ≤ q.length)
    (h : tokenize (q ++ s) = t :: ts) : t.text = q ∧ t.kind.IsPlain := by
  obtain ⟨d, e, hqe, hd, -⟩ := matches_seq_iff.mp hq
  obtain ⟨c, d', rfl, hc, hnl, -⟩ := head_of_digits hd
  have hcons : q ++ s = c :: (d' ++ e ++ s) := by rw [hqe]; simp
  have hlow : ∃ r n, winner rules (q ++ s) = some (r, n) ∧ q.length ≤ n := by
    have htake : (q ++ s).take q.length = q := List.take_left
    rcases matches_afterPoint_iff.mp hq with hf | hi
    · have hr : Rule.mk .floatNumber (chain [digits, exponent, opt suffix]) .plain ∈ rules := by
        simp [rules, declared]
      exact exists_winner hr (by simp) (htake.symm ▸ hf)
    · have hr : Rule.mk .intNumber integer .plain ∈ rules := by
        simp [rules, declared, integer]
      exact exists_winner hr (by simp) (htake.symm ▸ hi)
  rw [hcons] at h
  obtain ⟨r, hr, n, hw, hn, hm, hder, ht⟩ := exists_token_rule hnl h
  obtain ⟨hk, hplain, htail, hp⟩ := rules_digit hc hr hder
  obtain ⟨hkind, htext⟩ := ht hk htail
  have hle : q.length ≤ n + 1 := by
    obtain ⟨r', n', hw', hle⟩ := hlow
    rw [hcons, hw] at hw'
    obtain ⟨-, rfl⟩ := Prod.mk.inj (Option.some.inj hw')
    exact hle
  have hge : n + 1 ≤ q.length := by
    have hlen : n + 1 ≤ (q ++ s).length := by rw [hcons, List.length_cons]; omega
    have htake : (q ++ s).take (n + 1) = c :: (d' ++ e ++ s).take n := by
      rw [hcons, List.take_succ_cons]
    rcases hp with hp | hp | hp
    · exact hmax _ hlen (htake ▸ matches_afterPoint_iff.mpr (.inl (hp ▸ hm)))
    · exact hmax _ hlen (htake ▸ matches_afterPoint_iff.mpr (.inr (hp ▸ hm)))
    · rw [hp] at hm
      obtain ⟨x, -, hx⟩ := matches_one_iff.mp hm
      have hnil := (List.cons.inj hx).2
      rw [hqe, List.cons_append, List.length_cons]
      rcases List.take_eq_nil_iff.mp hnil with h0 | hrest
      · omega
      · rw [hrest, List.length_nil] at hn
        omega
  refine ⟨?_, hkind ▸ hplain⟩
  rw [htext, ← List.take_succ_cons, ← hcons, show n + 1 = q.length by omega, List.take_left]

/-- An integer in front of a point is all digits up to it. -/
theorem integer_token {d q : List Char} {t : Token} {ts : List Token} (hd : Matches digits d)
    (h : tokenize (d ++ '.' :: q) = t :: ts) (hk : t.kind = .intNumber) : t.text = d := by
  have hm : Matches integer t.text :=
    matches_of_tokenize h (by simp [hk]) (fun r hr hrk => rule_intNumber r hr (hrk.trans hk)) rfl
  obtain ⟨-, -, -, hs, -⟩ := tokenize_eq_cons h
  have hge : t.text.length ≤ d.length := by
    by_contra hlt
    have hmem : '.' ∈ t.text := by
      have hall : t.text <+: d ++ '.' :: q := ⟨_, hs.symm⟩
      have hpre : d ++ ['.'] <+: t.text := by
        refine List.prefix_of_prefix_length_le ⟨q, by simp⟩ hall ?_
        rw [List.length_append, List.length_singleton]
        omega
      exact hpre.subset (by simp)
    exact (ascii_of_wordChar (matches_integer hm _ hmem)).2 rfl
  obtain ⟨c, d', rfl, hc, hnl, -⟩ := head_of_digits hd
  have hle : (c :: d').length ≤ t.text.length := by
    have hr : Rule.mk .intNumber integer .plain ∈ rules := by simp [rules, declared, integer]
    have htake : ((c :: d') ++ '.' :: q).take (c :: d').length = c :: d' := List.take_left
    have hint : Matches integer (c :: d') := by
      simpa [integer] using Matches.seq hd (matches_opt_iff.mpr (.inr rfl))
    obtain ⟨r', n', hw', hle⟩ :=
      exists_winner (m := (c :: d').length) hr (by simp) (htake.symm ▸ hint)
    rw [List.cons_append] at h
    obtain ⟨r, hr, n, hw, hn, -, hder, ht⟩ := exists_token_rule hnl h
    obtain ⟨hlife, -, htail, -⟩ := rules_digit hc hr hder
    obtain ⟨-, htext⟩ := ht hlife htail
    rw [List.cons_append, hw] at hw'
    obtain ⟨-, rfl⟩ := Prod.mk.inj (Option.some.inj hw')
    rw [htext]
    simp only [List.length_cons, List.length_take] at hle ⊢
    omega
  have hlen : t.text.length = (c :: d').length := Nat.le_antisymm hge hle
  have htake := congrArg (List.take t.text.length) hs
  rwa [List.take_left, hlen, List.take_left, eq_comm] at htake

/-! ### The tokens of the number -/

/-- What makes up a number with a point at the start of a text. -/
theorem length_eq_some {s : List Char} {n : Nat} (h : Fraction.length s = some n) :
    (∃ d q r, s = d ++ '.' :: (q ++ r) ∧ n = (d ++ '.' :: q).length ∧ Matches digits d ∧
      Matches afterPoint q ∧
      ∀ m ≤ (q ++ r).length, Matches afterPoint ((q ++ r).take m) → m ≤ q.length) ∨
    ∃ d r, s = d ++ '.' :: r ∧ n = (d ++ ['.']).length ∧ Matches digits d ∧
      r.head?.any Fraction.continuesPoint = false := by
  unfold Fraction.length at h
  split at h
  · next k hfull =>
    obtain rfl := Option.some.inj h
    left
    obtain ⟨hk, hm⟩ := matches_of_longest hfull
    obtain ⟨d, q, hs, hd, hq⟩ := matches_full_iff.mp hm
    have hn : k = (d ++ '.' :: q).length := by rw [← hs, List.length_take, Nat.min_eq_left hk]
    have hsplit : s = d ++ '.' :: (q ++ s.drop k) := by
      rw [← List.cons_append, ← List.append_assoc, ← hs, List.take_append_drop]
    refine ⟨d, q, s.drop k, hsplit, hn, hd, hq, fun m hm hqm => ?_⟩
    -- A longer rest would make a longer number.
    have hlonger : Matches Fraction.full (s.take (d.length + 1 + m)) := by
      refine matches_full_iff.mpr ⟨d, (q ++ s.drop k).take m, ?_, hd, hqm⟩
      conv_lhs => rw [hsplit]
      rw [Nat.add_assoc, List.take_length_add_append, Nat.add_comm 1, List.take_succ_cons]
    have hlen : s.length = d.length + 1 + (q ++ s.drop k).length := by
      conv_lhs => rw [hsplit]
      rw [List.length_append, List.length_cons]
      omega
    obtain ⟨k', hk', hle⟩ := exists_longest (by omega) hlonger
    rw [hfull] at hk'
    obtain rfl := Option.some.inj hk'
    rw [hn, List.length_append, List.length_cons] at hle
    omega
  · split at h
    · next k htrail =>
      split_ifs at h with hnext
      obtain rfl := Option.some.inj h
      right
      obtain ⟨hk, hm⟩ := matches_of_longest htrail
      obtain ⟨d, hs, hd⟩ := matches_trailing_iff.mp hm
      have hn : k = (d ++ ['.']).length := by rw [← hs, List.length_take, Nat.min_eq_left hk]
      refine ⟨d, s.drop k, ?_, hn, hd, by simpa using hnext⟩
      rw [← List.singleton_append, ← List.append_assoc, ← hs, List.take_append_drop]
    · simp at h

theorem Fraction.matches_of_length {s : List Char} {n : Nat} (h : Fraction.length s = some n) :
    (Fraction.full.alt Fraction.trailing).Matches (s.take n) := by
  unfold Fraction.length at h
  rw [matches_alt_iff]
  split at h
  · next k hfull =>
    obtain rfl := Option.some.inj h
    exact .inl (matches_of_longest hfull).2
  · split at h
    · next k htrail =>
      split_ifs at h
      obtain rfl := Option.some.inj h
      exact .inr (matches_of_longest htrail).2
    · simp at h

theorem ascii_of_digits {d : List Char} (h : Matches digits d) : IsAscii d :=
  fun c hc => (ascii_of_wordChar (matches_digits h c hc)).1

/-- The tokens of a number with a point of length `n` at the start of `s`: an integer, the point
and, unless the point ends it, one more token. The integer is `t`, and the others are those of
`used` and `last`. -/
structure Fraction.Covers (s : List Char) (n : Nat) (t : Token) (used : List Token)
    (last : Token) : Prop where
  digits : Matches digits t.text
  shape : used = [] ∧ last.text = ['.'] ∨
    ∃ p, used = [p] ∧ p.text = ['.'] ∧ Matches afterPoint last.text
  text : Token.sourceOf (t :: used ++ [last]) = s.take n
  bytes : Utf8.byteLength (s.take n) = n
  plain : ∀ u ∈ t :: used ++ [last], u.kind.IsPlain

theorem exists_covers {s : List Char} {t : Token} {ts : List Token} {n : Nat}
    (h : tokenize s = t :: ts) (hk : t.kind = .intNumber) (hn : Fraction.length s = some n) :
    ∃ used last left, ts = used ++ last :: left ∧ Fraction.Covers s n t used last := by
  have hplain : t.kind.IsPlain := by
    rw [hk]
    decide
  have hdot : IsAscii ['.'] := by simp [IsAscii]
  rcases length_eq_some hn with ⟨d, q, r, rfl, rfl, hd, hq, hmax⟩ | ⟨d, r, rfl, rfl, hd, hr⟩
  · have ht := integer_token hd h hk
    obtain ⟨c, q', hcons, -, -, hc⟩ := head_of_afterPoint hq
    obtain ⟨p, ps, hp⟩ := exists_tokenize_eq_cons (s := '.' :: (q ++ r)) (by simp)
    obtain ⟨u, us, hu⟩ := exists_tokenize_eq_cons (s := q ++ r) (by simp [hcons])
    obtain ⟨hpt, hpk⟩ := point_token (by simpa [hcons] using hc) hp
    obtain ⟨hut, huk⟩ := number_token hq hmax hu
    have hps : ps = tokenize (q ++ r) := tokenize_rest (a := ['.']) hp hpt
    have htake : (d ++ '.' :: (q ++ r)).take (d ++ '.' :: q).length = d ++ '.' :: q := by
      rw [← List.cons_append, ← List.append_assoc, List.take_left]
    refine ⟨[p], u, us, by
      rw [tokenize_rest h ht, hp, hps, hu]; rfl, ht ▸ hd, .inr ⟨p, rfl, hpt, hut ▸ hq⟩, ?_, ?_, by
        simp [hplain, hpk, huk]⟩
    · rw [htake]
      simp [Token.sourceOf, ht, hpt, hut]
    · rw [htake]
      exact ((ascii_of_digits hd).append (hdot.append (ascii_of_afterPoint hq))).byteLength_eq
  · have ht := integer_token hd h hk
    obtain ⟨p, ps, hp⟩ := exists_tokenize_eq_cons (s := '.' :: r) (by simp)
    have hhead : r.head? ≠ some '.' := by
      intro hdot
      rw [hdot] at hr
      simp [Fraction.continuesPoint] at hr
    obtain ⟨hpt, hpk⟩ := point_token hhead hp
    have htake : (d ++ '.' :: r).take (d ++ ['.']).length = d ++ ['.'] := by
      rw [show d ++ '.' :: r = d ++ ['.'] ++ r by simp, List.take_left]
    refine ⟨[], p, ps, by rw [tokenize_rest h ht, hp]; rfl, ht ▸ hd, .inl ⟨rfl, hpt⟩, ?_, ?_,
      by simp [hplain, hpk]⟩
    · rw [htake]
      simp [Token.sourceOf, ht, hpt]
    · rw [htake]
      exact ((ascii_of_digits hd).append hdot).byteLength_eq

namespace Fraction.Covers
variable {s : List Char} {n : Nat} {t last : Token} {used : List Token}

theorem last_ne_nil (h : Covers s n t used last) : last.text ≠ [] := by
  rcases h.shape with ⟨-, hlast⟩ | ⟨p, -, -, hlast⟩
  · simp [hlast]
  · obtain ⟨c, q, hq, -⟩ := head_of_afterPoint hlast
    simp [hq]

/-- A number with a point is longer than the integer it starts with. -/
theorem length_lt_take (h : Covers s n t used last) : t.text.length < (s.take n).length := by
  have hlen := congrArg List.length h.text
  have hpos := List.length_pos_iff.mpr h.last_ne_nil
  simp only [Token.sourceOf, List.cons_append, List.flatMap_cons, List.flatMap_append,
    List.flatMap_nil, List.length_append, List.append_nil] at hlen
  omega

theorem length_lt (h : Covers s n t used last) : t.text.length < n :=
  Nat.lt_of_lt_of_le h.length_lt_take (List.length_take_le n s)

end Fraction.Covers

end MacroBridge
