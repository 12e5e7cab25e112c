import MacroBridge.Proofs.Pattern.Separation
import MacroBridge.Proofs.Token.Lexer

/-!
When a token is cut off in the same way in front of another text. What matters is that no rule
matches the token together with more of that text.
-/
namespace MacroBridge
open Pattern

namespace Pattern
variable {p q v : Pattern} {a s w : List Char}

/-- Whether no text of the pattern reaches over `a` into `s`. -/
def EndsBy (p : Pattern) (a s : List Char) : Prop := ∀ x, x <+: s → Matches p (a ++ x) → x = []

theorem endsBy_of_separates (h : separates p v q = true) (hp : Matches p a) (hv : Matches v s) :
    q.EndsBy a s := by
  rintro x ⟨y, rfl⟩ hq
  exact eq_nil_of_separates h hp hv hq

theorem EndsBy.longest_le (h : p.EndsBy a s) {n : Nat} (hn : p.longest (a ++ s) = some n) :
    n ≤ a.length := by
  obtain ⟨-, hm⟩ := matches_of_longest hn
  by_contra hlt
  rw [List.take_append, List.take_of_length_le (by omega)] at hm
  have hnil := h _ (List.take_prefix _ _) hm
  have hlen := (matches_of_longest hn).1
  rcases List.take_eq_nil_iff.mp hnil with h0 | rfl
  · omega
  · rw [List.append_nil] at hlen
    omega

/-- A match in the first text that does not reach over `a` is one in the second. -/
theorem EndsBy.le_longest (h : p.EndsBy a s) (t : List Char) {n : Nat}
    (hn : p.longest (a ++ s) = some n) : ∃ m, p.longest (a ++ t) = some m ∧ n ≤ m := by
  have hle := h.longest_le hn
  obtain ⟨-, hm⟩ := matches_of_longest hn
  rw [List.take_append_of_le_length hle] at hm
  refine exists_longest ?_ ?_
  · rw [List.length_append]
    omega
  · rwa [List.take_append_of_le_length hle]

theorem EndsBy.longest_congr (hs : p.EndsBy a s) (hw : p.EndsBy a w) :
    p.longest (a ++ s) = p.longest (a ++ w) := by
  cases hn : p.longest (a ++ s) with
  | none =>
    cases hm : p.longest (a ++ w) with
    | none => rfl
    | some m =>
      obtain ⟨n, hn', -⟩ := hw.le_longest s hm
      rw [hn] at hn'
      simp at hn'
  | some n =>
    obtain ⟨m, hm, hle⟩ := hs.le_longest w hn
    obtain ⟨n', hn', hge⟩ := hw.le_longest s hm
    rw [hn] at hn'
    obtain rfl := Option.some.inj hn'
    rw [hm, show m = n by omega]

end Pattern

namespace Lexer
variable {rules : List Rule} {r : Rule} {a s w : List Char}

theorem winner_congr (h : ∀ r ∈ rules, r.pattern.longest s = r.pattern.longest w) :
    winner rules s = winner rules w := by
  have hfold (best : Option (Rule × Nat)) :
      rules.foldl (better s) best = rules.foldl (better w) best := by
    induction rules generalizing best with
    | nil => rfl
    | cons r rules ih =>
      have hr : better s best r = better w best r := by
        simp only [better, h r List.mem_cons_self]
      rw [List.foldl_cons, List.foldl_cons, hr, ih fun r' hr' => h r' (List.mem_cons_of_mem _ hr')]
  exact hfold none

/-- No rule reaches over the match of the winner. -/
theorem endsBy_of_winner (h : winner rules (a ++ w) = some (r, a.length)) :
    ∀ r' ∈ rules, r'.pattern.EndsBy a w := by
  rintro r' hr' x ⟨y, rfl⟩ hm
  have hlen : a.length + x.length ≤ (a ++ (x ++ y)).length := by
    simp only [List.length_append]
    omega
  have htake : (a ++ (x ++ y)).take (a.length + x.length) = a ++ x := by
    rw [← List.append_assoc, List.take_left' (by rw [List.length_append])]
  obtain ⟨r₀, n, hn, hle⟩ := exists_winner hr' hlen (htake.symm ▸ hm)
  rw [h] at hn
  obtain ⟨-, rfl⟩ := Prod.mk.inj (Option.some.inj hn)
  exact List.length_eq_zero_iff.mp (by omega)

theorem winner_replace (h : winner rules (a ++ w) = some (r, a.length))
    (hs : ∀ r' ∈ rules, r'.pattern.EndsBy a s) : winner rules (a ++ s) = some (r, a.length) := by
  rw [← h]
  exact winner_congr fun r' hr' => (hs r' hr').longest_congr (endsBy_of_winner h r' hr')

/-- Where a rule matches a text over which none reaches, the winner matches all of it. -/
theorem exists_winner_eq (hr : r ∈ rules) (hm : Matches r.pattern a)
    (hs : ∀ r' ∈ rules, r'.pattern.EndsBy a s) :
    ∃ r' ∈ rules, winner rules (a ++ s) = some (r', a.length) ∧ Matches r'.pattern a := by
  obtain ⟨r', n, hw, hle⟩ :=
    exists_winner (s := a ++ s) (m := a.length) hr (by simp) (by rwa [List.take_left])
  obtain ⟨hr', hn, hm'⟩ := winner_eq_some hw
  obtain ⟨k, rfl⟩ := Nat.exists_eq_add_of_le hle
  rw [List.take_length_add_append] at hm'
  obtain rfl : k = 0 := by
    have hlen := congrArg List.length (hs r' hr' _ (List.take_prefix _ _) hm')
    rw [List.length_append] at hn
    rw [List.length_take, List.length_nil] at hlen
    omega
  exact ⟨r', hr', hw, by simpa using hm'⟩

theorem tokenize_of_first {kind : Kind} (ha : a ≠ []) (h : first (a ++ s) = (kind, a.length)) :
    tokenize (a ++ s) = ⟨kind, a⟩ :: tokenize s := by
  obtain ⟨c, a, rfl⟩ := List.exists_cons_of_ne_nil ha
  rw [List.cons_append] at h ⊢
  rw [tokenize_cons, h]
  simp

end Lexer

open Lexer Grammar

theorem not_matches_nil {r : Rule} (hr : r ∈ rules) : ¬ Matches r.pattern [] := by
  have hnull : ∀ r ∈ rules, r.pattern.nullable = false := by decide
  rw [← nullable_iff, hnull r hr]
  simp

/-- The rule behind a token that is not unknown, and how much of the token it matches. -/
theorem exists_rule {s : List Char} {t : Token} {ts : List Token} (h : tokenize s = t :: ts)
    (hu : t.kind ≠ .unknown) :
    ∃ r ∈ rules, ∃ n, r.kind = t.kind ∧ winner rules s = some (r, n) ∧ n ≤ s.length ∧
      Matches r.pattern (s.take n) ∧
      t.text = s.take (n + tailLength r.tail (s.take n) (s.drop n)) := by
  obtain ⟨hk, ht, -⟩ := tokenize_eq_cons h
  obtain ⟨r, n, hw, hf⟩ := first_kind (hk ▸ hu)
  obtain ⟨hr, hn, hm⟩ := winner_eq_some hw
  rw [hf] at hk ht
  have hpos : n ≠ 0 := by
    rintro rfl
    exact not_matches_nil hr hm
  exact ⟨r, hr, n, hk.symm, hw, hn, hm, by rw [ht, Nat.max_eq_right (by omega)]⟩

variable {s v : List Char} {t : Token} {ts : List Token}

/-- The rule behind a token is one for the character that the token begins with. -/
theorem exists_rule_head (h : tokenize s = t :: ts) (hu : t.kind ≠ .unknown) {x : Char}
    (hx : t.text.head? = some x) :
    ∃ r ∈ rules, r.kind = t.kind ∧ r.pattern.derivatives x ≠ [] := by
  obtain ⟨-, -, -, hs, -⟩ := tokenize_eq_cons h
  obtain ⟨a, ha⟩ := List.head?_eq_some_iff.mp hx
  obtain ⟨r, hr, n, hk, -, -, hm, -⟩ := exists_rule h hu
  cases n with
  | zero => exact absurd hm (not_matches_nil hr)
  | succ n =>
    rw [hs, ha, List.cons_append, List.take_succ_cons] at hm
    obtain ⟨p, hp, -⟩ := exists_derivative_iff.mpr hm
    exact ⟨r, hr, hk, List.ne_nil_of_mem hp⟩

/-- Whether all rules of a kind are without tail. -/
def Kind.isShort (k : Kind) : Bool := rules.all fun r => r.kind ≠ k || r.tail = .plain

theorem exists_short_rule (h : tokenize s = t :: ts) (hu : t.kind ≠ .unknown)
    (hshort : t.kind.isShort = true) :
    ∃ r ∈ rules, r.kind = t.kind ∧ r.tail = .plain ∧ Matches r.pattern t.text ∧
      winner rules (t.text ++ s.drop t.text.length) = some (r, t.text.length) := by
  obtain ⟨r, hr, n, hk, hw, hn, hm, ht⟩ := exists_rule h hu
  have htail : r.tail = .plain := by
    have := List.all_eq_true.mp hshort r hr
    simpa [hk] using this
  rw [htail, tailLength, Nat.add_zero] at ht
  have hlen : t.text.length = n := by rw [ht, List.length_take, Nat.min_eq_left hn]
  obtain ⟨-, -, -, hs, -⟩ := tokenize_eq_cons h
  refine ⟨r, hr, hk, htail, ht ▸ hm, ?_⟩
  rw [← hs, hlen, hw]

theorem isBrokenLifetime_eq_false {k : Kind} (h : k = .lifetime → v.head?.any isForeign = false)
    (text : List Char) : isBrokenLifetime k text v = false := by
  by_cases hl : k = .lifetime
  · simp [isBrokenLifetime, h hl]
  · simp [isBrokenLifetime, hl]

/-- What follows a token that is not unknown does not break it. -/
theorem isBrokenLifetime_next (h : tokenize s = t :: ts) (hu : t.kind ≠ .unknown)
    (hshort : t.kind.isShort = true) :
    isBrokenLifetime t.kind t.text (s.drop t.text.length) = false := by
  obtain ⟨r, hr, hk, -, -, hw⟩ := exists_short_rule h hu hshort
  obtain ⟨hkind, -, -, hs, -⟩ := tokenize_eq_cons h
  rw [hs, first, hw] at hkind
  simp only [List.take_left, List.drop_left] at hkind
  split_ifs at hkind with hb
  · exact absurd hkind hu
  · rw [← hk]
    simpa using hb

/-- A token without tail in front of a text into which no rule reaches. -/
theorem tokenize_replace (h : tokenize s = t :: ts) (hu : t.kind ≠ .unknown)
    (hshort : t.kind.isShort = true) (hb : isBrokenLifetime t.kind t.text v = false)
    (hv : ∀ r ∈ rules, r.pattern.EndsBy t.text v) : tokenize (t.text ++ v) = t :: tokenize v := by
  obtain ⟨r, hr, hk, htail, -, hw⟩ := exists_short_rule h hu hshort
  obtain ⟨-, -, hne, -⟩ := tokenize_eq_cons h
  refine tokenize_of_first hne ?_
  simp [first, winner_replace hw hv, hb, htail, tailLength, hk]

/-- Whether all rules of a kind keep apart from the texts of `v`. -/
def Kind.apart (k : Kind) (v : Pattern) : Bool :=
  rules.all fun r => r.kind ≠ k || rules.all fun r' => separates r.pattern v r'.pattern

/-- Tokens of a kind in front of texts that it keeps apart from. -/
theorem tokenize_apart (h : tokenize s = t :: ts) (hu : t.kind ≠ .unknown)
    (hshort : t.kind.isShort = true) {p : Pattern} (hapart : t.kind.apart p = true)
    (hv : Matches p v) (hlife : t.kind = .lifetime → v.head?.any isForeign = false) :
    tokenize (t.text ++ v) = t :: tokenize v := by
  obtain ⟨r, hr, hk, -, hm, -⟩ := exists_short_rule h hu hshort
  refine tokenize_replace h hu hshort (isBrokenLifetime_eq_false hlife _) fun r' hr' => ?_
  have hsep := List.all_eq_true.mp hapart r hr
  simp only [hk, ne_eq, not_true_eq_false, decide_false, Bool.false_or] at hsep
  exact endsBy_of_separates (List.all_eq_true.mp hsep r' hr') hm hv

/-! ### Tokens that are not to be mistaken whatever follows -/

def anyText : Pattern := star (one anyChar)

theorem matches_anyText (s : List Char) : Matches anyText s :=
  matches_star_one_iff.mpr fun c _ => by simp [anyChar, CharSet.contains]

/-- Kinds that show their own end. -/
def Kind.showsItsEnd : Kind → Bool
  | char | byte | str | byteStr | cStr | opening _ | closing _ => true
  | _ => false

theorem apart_showsItsEnd {k : Kind} (h : k.showsItsEnd = true) :
    k.isShort = true ∧ k.apart anyText = true := by
  have hall : ∀ k ∈ [Kind.char, .byte, .str, .byteStr, .cStr, .opening .paren, .opening .brace,
      .opening .square, .closing .paren, .closing .brace, .closing .square],
      k.isShort = true ∧ k.apart anyText = true := by decide +kernel
  refine hall k ?_
  match k with
  | .char | .byte | .str | .byteStr | .cStr => simp
  | .opening b => cases b <;> simp
  | .closing b => cases b <;> simp

theorem tokenize_showsItsEnd (h : tokenize s = t :: ts) (hk : t.kind.showsItsEnd = true)
    (v : List Char) : tokenize (t.text ++ v) = t :: tokenize v := by
  obtain ⟨hshort, hapart⟩ := apart_showsItsEnd hk
  refine tokenize_apart h ?_ hshort hapart (matches_anyText v) fun hl => ?_
  · intro hu
    simp [hu, Kind.showsItsEnd] at hk
  · simp [hl, Kind.showsItsEnd] at hk

/-! ### Raw strings -/

namespace Kind

/-- What stands before the hashes of a raw string. -/
def rawMark? : Kind → Option (List Char)
  | rawStr => some ['r']
  | rawByteStr => some ['b', 'r']
  | rawCStr => some ['c', 'r']
  | _ => none

end Kind

/-- Hashes in front of the first quote of a text. -/
def hashesOf (text : List Char) : Nat := (text.takeWhile (· ≠ '"')).count '#'

/-- Whether a token that is a raw string ends with a quote and the hashes of its opening. -/
def Token.isTerminated (t : Token) : Bool :=
  t.kind.rawMark?.isNone ||
    ('"' :: List.replicate (hashesOf t.text) '#').isSuffixOf ((t.text.dropWhile (· ≠ '"')).drop 1)

theorem rule_raw {k : Kind} {mark : List Char} (hk : k.rawMark? = some mark) :
    ∀ r ∈ rules, r.kind = k →
    r.pattern = rawStringOpening mark ∧ r.tail = .rawString ∧ (∀ c ∈ mark, c ≠ '"' ∧ c ≠ '#') ∧
      rules.all (fun r' => separates r.pattern anyText r'.pattern) = true := by
  have hall : ∀ k ∈ [Kind.rawStr, .rawByteStr, .rawCStr], ∀ mark ∈ k.rawMark?,
      ∀ r ∈ rules, r.kind = k →
      r.pattern = rawStringOpening mark ∧ r.tail = .rawString ∧
        mark.all (fun c => decide (c ≠ '"' ∧ c ≠ '#')) = true ∧
        rules.all (fun r' => separates r.pattern anyText r'.pattern) = true := by decide +kernel
  have hmem : k ∈ [Kind.rawStr, .rawByteStr, .rawCStr] := by
    unfold Kind.rawMark? at hk
    split at hk
    · simp
    · simp
    · simp
    · simp at hk
  intro r hr hrk
  obtain ⟨hp, htail, hmark, hsep⟩ := hall k hmem mark hk r hr hrk
  exact ⟨hp, htail, fun c hc => of_decide_eq_true (List.all_eq_true.mp hmark c hc), hsep⟩

theorem matches_rawStringOpening_iff {mark o : List Char} :
    Matches (rawStringOpening mark) o ↔ ∃ n, o = mark ++ (List.replicate n '#' ++ ['"']) := by
  simp only [rawStringOpening, chain, matches_seq_iff, matches_literal_iff]
  constructor
  · rintro ⟨a, b, rfl, rfl, c, d, rfl, hc, hd⟩
    have hall : c = List.replicate c.length '#' := by
      refine List.eq_replicate_iff.mpr ⟨rfl, fun x hx => ?_⟩
      simpa [CharSet.contains] using matches_star_one_iff.mp hc x hx
    exact ⟨c.length, by rw [matches_char_iff.mp hd, ← hall]⟩
  · rintro ⟨n, rfl⟩
    refine ⟨mark, _, rfl, rfl, _, _, rfl, ?_, matches_char_iff.mpr rfl⟩
    exact matches_star_one_iff.mpr fun x hx => by
      simp [CharSet.contains, List.eq_of_mem_replicate hx]

theorem count_hashes {mark : List Char} (hmark : ∀ c ∈ mark, c ≠ '"' ∧ c ≠ '#') (count : Nat) :
    (mark ++ (List.replicate count '#' ++ ['"'])).count '#' = count := by
  have hnone : mark.count '#' = 0 := List.count_eq_zero.mpr fun hmem => (hmark _ hmem).2 rfl
  simp [hnone]

/-- The end of a raw string is found without a look behind it. -/
theorem rawStringLength_replace {count : Nat} {b w : List Char}
    (hb : '"' :: List.replicate count '#' <:+ b) {n : Nat}
    (h : rawStringLength count n (b ++ w) = n + b.length) (v : List Char) :
    rawStringLength count n (b ++ v) = n + b.length := by
  induction b generalizing n with
  | nil => simp at hb
  | cons c b ih =>
    have hlen : count + 1 ≤ (c :: b).length := by simpa using hb.length_le
    have hat (u : List Char) : atTerminator count (c :: b ++ u) = atTerminator count (c :: b) := by
      rw [Bool.eq_iff_iff]
      simp only [atTerminator, List.isPrefixOf_iff_prefix]
      constructor
      · intro hpre
        exact List.prefix_of_prefix_length_le hpre (List.prefix_append _ _) (by simpa using hlen)
      · intro hpre
        exact hpre.trans (List.prefix_append _ _)
    rw [List.cons_append, rawStringLength, ← List.cons_append, hat] at h ⊢
    split_ifs at h ⊢ with hnow
    · exact h
    · have hb' : '"' :: List.replicate count '#' <:+ b := by
        refine (List.suffix_cons_iff.mp hb).resolve_left fun heq => hnow ?_
        simp [atTerminator, ← heq]
      rw [List.length_cons, ← Nat.add_assoc, Nat.add_right_comm] at h ⊢
      exact ih hb' h

theorem rawStringLength_le (count n : Nat) (s : List Char) :
    rawStringLength count n s ≤ n + s.length := by
  fun_induction rawStringLength count n s with
  | case1 n => simp
  | case2 n c s hat =>
    have := (List.isPrefixOf_iff_prefix.mp hat).length_le
    simp only [List.length_cons, List.length_replicate] at this ⊢
    omega
  | case3 n c s hat ih =>
    rw [List.length_cons]
    omega

/-- What a raw string takes behind its opening ends with its terminator, or with the text. -/
theorem rawStringLength_eq (count n : Nat) (s : List Char) :
    rawStringLength count n s = n + s.length ∨
      ∃ k, rawStringLength count n s = n + k ∧ '"' :: List.replicate count '#' <:+ s.take k := by
  fun_induction rawStringLength count n s with
  | case1 n => exact .inl rfl
  | case2 n c s hat =>
    refine .inr ⟨count + 1, by omega, ?_⟩
    have htake := List.prefix_iff_eq_take.mp (List.isPrefixOf_iff_prefix.mp hat)
    rw [List.length_cons, List.length_replicate] at htake
    exact ⟨[], htake⟩
  | case3 n c s hat ih =>
    rcases ih with h | ⟨k, h, hk⟩
    · exact .inl (by rw [h, List.length_cons]; omega)
    · refine .inr ⟨k + 1, by omega, ?_⟩
      rw [List.take_succ_cons]
      exact hk.trans (List.suffix_cons c _)

/-- A raw string is its opening and what its tail takes. -/
theorem exists_raw (h : tokenize s = t :: ts) (hu : t.kind ≠ .unknown) {mark : List Char}
    (hk : t.kind.rawMark? = some mark) :
    ∃ r ∈ rules, ∃ o count b, r.kind = t.kind ∧ r.pattern = rawStringOpening mark ∧
      r.tail = .rawString ∧
      o = mark ++ (List.replicate count '#' ++ ['"']) ∧ o.count '#' = count ∧ t.text = o ++ b ∧
      s = o ++ (b ++ s.drop t.text.length) ∧ winner rules s = some (r, o.length) ∧
      rawStringLength count 0 (b ++ s.drop t.text.length) = b.length := by
  obtain ⟨r, hr, n, hrk, hw, hn, hm, ht⟩ := exists_rule h hu
  obtain ⟨hp, htail, hmark, -⟩ := rule_raw hk r hr hrk
  obtain ⟨count, ho⟩ := matches_rawStringOpening_iff.mp (hp ▸ hm)
  obtain ⟨-, -, -, hs, -⟩ := tokenize_eq_cons h
  have hcount : (s.take n).count '#' = count := by
    rw [ho, count_hashes hmark]
  rw [htail, tailLength, hcount] at ht
  have htake : (s.take n).length = n := by rw [List.length_take, Nat.min_eq_left hn]
  obtain ⟨b, hb⟩ : ∃ b, b = (s.drop n).take (rawStringLength count 0 (s.drop n)) := ⟨_, rfl⟩
  have htext : t.text = s.take n ++ b := by rw [ht, hb, List.take_add]
  have hrest : s.drop n = b ++ s.drop t.text.length := by
    have hdrop := congrArg (List.drop n) hs
    rwa [htext, List.append_assoc, List.drop_left' htake, ← htext] at hdrop
  refine ⟨r, hr, s.take n, count, b, hrk, hp, htail, ho, hcount, htext, ?_, ?_, ?_⟩
  · rw [← hrest, List.take_append_drop]
  · rw [hw, htake]
  · have hle := rawStringLength_le count 0 (s.drop n)
    have := congrArg List.length hb
    rw [List.length_take] at this
    rw [← hrest]
    omega

/-- A raw string is terminated if what its tail takes ends with a quote and as many hashes as it
opens with. -/
theorem isTerminated_iff {mark b : List Char} {count : Nat} (hk : t.kind.rawMark? = some mark)
    (hmark : ∀ c ∈ mark, c ≠ '"' ∧ c ≠ '#')
    (ht : t.text = mark ++ (List.replicate count '#' ++ ['"']) ++ b) :
    t.isTerminated = true ↔ '"' :: List.replicate count '#' <:+ b := by
  have hfront : ∀ c ∈ mark ++ List.replicate count '#', decide (c ≠ '"') = true := by
    intro c hc
    rcases List.mem_append.mp hc with hc | hc
    · simpa using (hmark c hc).1
    · rw [List.eq_of_mem_replicate hc]
      decide
  have hparts : t.text = (mark ++ List.replicate count '#') ++ '"' :: b := by
    rw [ht]
    simp
  have hhashes : hashesOf t.text = count := by
    have hnone : mark.count '#' = 0 := List.count_eq_zero.mpr fun hmem => (hmark _ hmem).2 rfl
    rw [hashesOf, hparts, List.takeWhile_append_of_pos hfront]
    simp [hnone]
  have htail : t.text.dropWhile (· ≠ '"') = '"' :: b := by
    rw [hparts, List.dropWhile_append_of_pos hfront]
    simp
  simp only [Token.isTerminated, hk, Option.isNone_some, Bool.false_or, hhashes, htail,
    List.isSuffixOf_iff_suffix, List.drop_succ_cons, List.drop_zero]

theorem tokenize_raw (h : tokenize s = t :: ts) (hu : t.kind ≠ .unknown) {mark : List Char}
    (hk : t.kind.rawMark? = some mark) (hend : t.isTerminated = true) (v : List Char) :
    tokenize (t.text ++ v) = t :: tokenize v := by
  obtain ⟨r, hr, o, count, b, hrk, hp, htail, ho, hcount, htext, hs, hw, hlen⟩ :=
    exists_raw h hu hk
  obtain ⟨-, -, hmark, hsep⟩ := rule_raw hk r hr hrk
  obtain ⟨-, -, hne, -⟩ := tokenize_eq_cons h
  have hclosed := (isTerminated_iff hk hmark (ho ▸ htext)).mp hend
  have hwin : winner rules (o ++ (b ++ v)) = some (r, o.length) := by
    refine winner_replace (hs ▸ hw) fun r' hr' => ?_
    refine endsBy_of_separates (List.all_eq_true.mp hsep r' hr') ?_ (matches_anyText _)
    rw [hp]
    exact matches_rawStringOpening_iff.mpr ⟨count, ho⟩
  have hlife : r.kind ≠ .lifetime := by
    intro hl
    rw [← hrk, hl] at hk
    simp [Kind.rawMark?] at hk
  have hfirst := first_of_winner hwin hlife
  rw [List.take_left, List.drop_left, htail, tailLength, hcount,
    rawStringLength_replace hclosed (hlen.trans (Nat.zero_add _).symm) v, hrk] at hfirst
  refine tokenize_of_first hne ?_
  rw [htext, List.append_assoc, hfirst, List.length_append, Nat.zero_add]

/-- Nothing follows a raw string that is not terminated. -/
theorem drop_of_not_isTerminated (h : tokenize s = t :: ts) (hu : t.kind ≠ .unknown)
    (hend : t.isTerminated = false) : s.drop t.text.length = [] := by
  obtain ⟨mark, hk⟩ : ∃ mark, t.kind.rawMark? = some mark := by
    cases hk : t.kind.rawMark? with
    | none => simp [Token.isTerminated, hk] at hend
    | some mark => exact ⟨mark, rfl⟩
  obtain ⟨r, hr, o, count, b, hrk, -, -, ho, -, htext, -, -, hlen⟩ := exists_raw h hu hk
  obtain ⟨-, -, hmark, -⟩ := rule_raw hk r hr hrk
  rcases rawStringLength_eq count 0 (b ++ s.drop t.text.length) with hall | ⟨k, hlen', hsuffix⟩
  · rw [hlen, List.length_append] at hall
    exact List.length_eq_zero_iff.mp (by omega)
  · obtain rfl : k = b.length := by omega
    rw [List.take_left] at hsuffix
    rw [(isTerminated_iff hk hmark (ho ▸ htext)).mpr hsuffix] at hend
    simp at hend

/-! ### Words -/

/-- Texts that begin with a space. -/
def spaced : Pattern := .seq (char ' ') anyText

theorem matches_spaced (s : List Char) : Matches spaced (' ' :: s) :=
  Matches.seq (s := [' ']) (matches_char_iff.mpr rfl) (matches_anyText s)

/-- Identifiers and lifetimes in front of a space. -/
theorem tokenize_word (h : tokenize s = t :: ts) (hk : t.kind.isIdent = true ∨ t.kind = .lifetime)
    (v : List Char) : tokenize (t.text ++ ' ' :: v) = t :: tokenize (' ' :: v) := by
  have hall : ∀ k ∈ [Kind.ident, .lifetime], k ≠ .unknown ∧ k.isShort = true ∧
      k.apart spaced = true := by
    decide +kernel
  obtain ⟨hu, hshort, hapart⟩ := hall t.kind (by
    rcases hk with hk | hk
    · cases hkind : t.kind <;> simp [hkind, Kind.isIdent] at hk ⊢
    · simp [hk])
  refine tokenize_apart h hu hshort hapart (matches_spaced v) fun _ => ?_
  rw [List.head?_cons, Option.any_some]
  decide

/-! ### White space -/

def blanks : List Char := [' ', '\t', '\r', '\n', '\x0c', '\x0b']

/-- Texts that do not begin with white space. -/
def unspaced : Pattern := opt (.seq (one (.except blanks)) anyText)

theorem matches_unspaced (h : ∀ c ∈ v.head?, c ∉ blanks) : Matches unspaced v := by
  cases v with
  | nil => exact matches_opt_iff.mpr (.inr rfl)
  | cons c v =>
    have hc : (CharSet.except blanks).contains c = true := by simpa [CharSet.contains] using h
    exact matches_opt_iff.mpr (.inl (Matches.seq (s := [c]) (.one hc) (matches_anyText v)))

/-- A token that is neither white space nor unknown does not begin with white space. -/
theorem head_of_tokenize (h : tokenize s = t :: ts) (hu : t.kind ≠ .unknown)
    (htrivia : t.kind.isTrivia = false) : ∀ c ∈ s.head?, c ∉ blanks := by
  intro c hc hblank
  obtain ⟨r, hr, n, hk, -, -, hm, -⟩ := exists_rule h hu
  obtain ⟨s, rfl⟩ := List.head?_eq_some_iff.mp hc
  have hrules : ∀ r ∈ rules, r.pattern.nullable = false ∧ blanks.all (fun c =>
      decide (r.pattern.derivatives c ≠ [] → r.kind = .unknown ∨ r.kind.isTrivia = true)) =
        true := by decide
  obtain ⟨hnull, hkinds⟩ := hrules r hr
  have hkind := of_decide_eq_true (List.all_eq_true.mp hkinds c hblank)
  cases n with
  | zero =>
    rw [List.take_zero, ← nullable_iff, hnull] at hm
    simp at hm
  | succ n =>
    rw [List.take_succ_cons] at hm
    obtain ⟨d, hd, -⟩ := exists_derivative_iff.mpr hm
    rcases hkind (List.ne_nil_of_mem hd) with hkind | hkind
    · exact hu (hk ▸ hkind)
    · rw [hk, htrivia] at hkind
      simp at hkind

/-! ### Brackets -/

theorem tokenize_closeChar (b : Bracket) (v : List Char) :
    tokenize (b.closeChar :: v) = ⟨.closing b, [b.closeChar]⟩ :: tokenize v := by
  have hone : tokenize [b.closeChar] = [⟨.closing b, [b.closeChar]⟩] := by
    have hfirst : first [b.closeChar] = (.closing b, 1) := by cases b <;> decide
    rw [tokenize_cons, hfirst]
    simp
  exact tokenize_showsItsEnd hone rfl v

/-! ### Operators -/

theorem text_of_punct (h : tokenize s = t :: ts) (hk : t.kind = .punct) : t.text ∈ operators := by
  have hrule : ∀ r ∈ rules, r.kind = .punct → r.pattern = choice (operators.map literal) ∧
      r.tail = .plain := by
    decide
  have hm := matches_of_tokenize h (by simp [hk])
    (fun r hr hrk => hrule r hr (hrk.trans hk)) (by decide)
  obtain ⟨p, hp, hmp⟩ := matches_choice_iff.mp hm
  obtain ⟨o, ho, rfl⟩ := List.mem_map.mp hp
  rwa [matches_literal_iff.mp hmp]

/-- Whether an operator and one more character begin a longer operator or a comment. -/
def joins (o : List Char) (c : Char) : Bool :=
  operators.contains (o ++ [c]) || o ++ [c] = ['/', '/'] || o ++ [c] = ['/', '*']

/-- The rules for a text that starts with an operator. -/
theorem rules_operator : ∀ o ∈ operators, ∀ c ∈ o.head?, ∀ r ∈ rules,
    r.pattern.derivatives c ≠ [] →
    r.pattern = .seq (literal ['/', '/']) (star (one notNewline)) ∨
    r.pattern = literal ['/', '*'] ∨
      r.pattern = choice (operators.map literal) ∨ r.pattern = one notNewline := by
  have hall : ∀ o ∈ operators, o.head?.all (fun c => rules.all fun r =>
      decide (r.pattern.derivatives c ≠ [] →
        r.pattern = .seq (literal ['/', '/']) (star (one notNewline)) ∨
        r.pattern = literal ['/', '*'] ∨
          r.pattern = choice (operators.map literal) ∨ r.pattern = one notNewline)) = true := by
    decide +kernel
  intro o ho c hc r hr
  exact of_decide_eq_true (List.all_eq_true.mp
    (Option.all_eq_true _ _ |>.mp (hall o ho) c hc) r hr)

/-- No rule reaches over an operator into a text if none does into its first character. -/
theorem endsBy_operator {o : List Char} (ho : o ∈ operators)
    (h : ∀ c ∈ v.head?, joins o c = false) : ∀ r ∈ rules, r.pattern.EndsBy o v := by
  rintro r hr x ⟨y, rfl⟩ hm
  cases x with
  | nil => rfl
  | cons c x =>
    exfalso
    have hjoin : joins o c = false := h c (by simp)
    simp only [joins, Bool.or_eq_false_iff, decide_eq_false_iff_not] at hjoin
    obtain ⟨⟨hop, hline⟩, hblock⟩ := hjoin
    obtain ⟨d, o', rfl⟩ : ∃ d o', o = d :: o' := by
      have hne : ∀ o ∈ operators, o ≠ [] := by decide
      exact List.exists_cons_of_ne_nil (hne o ho)
    have hder : r.pattern.derivatives d ≠ [] := by
      obtain ⟨p, hp, -⟩ := exists_derivative_iff.mpr hm
      exact List.ne_nil_of_mem hp
    have hshort : ∀ o ∈ operators, ¬ ['/', '/'] <+: o ∧ ¬ ['/', '*'] <+: o := by decide
    have hmark {m : List Char} (hlen : m.length = 2) (hpre : m <+: (d :: o') ++ c :: x)
        (hno : ¬ (d :: o') ++ [c] = m) (hlong : ¬ m <+: d :: o') : False := by
      have hpre' : m <+: (d :: o') ++ [c] :=
        List.prefix_of_prefix_length_le hpre ⟨x, by simp⟩ (by simp [hlen])
      rcases List.prefix_concat_iff.mp hpre' with rfl | hpre'
      · exact hno rfl
      · exact hlong hpre'
    rcases rules_operator _ ho d rfl r hr hder with hp | hp | hp | hp
    · rw [hp, matches_seq_iff] at hm
      obtain ⟨a, b, hab, ha, -⟩ := hm
      rw [matches_literal_iff.mp ha] at hab
      exact hmark rfl ⟨b, hab.symm⟩ hline (hshort _ ho).1
    · rw [hp, matches_literal_iff] at hm
      exact hmark rfl (hm ▸ List.prefix_rfl) hblock (hshort _ ho).2
    · rw [hp] at hm
      obtain ⟨p, hmem, hmp⟩ := matches_choice_iff.mp hm
      obtain ⟨u, hu, rfl⟩ := List.mem_map.mp hmem
      rw [matches_literal_iff] at hmp
      have hfront : ∀ u ∈ operators, ∀ n < u.length, n ≠ 0 → u.take n ∈ operators := by decide
      have htake : u.take ((d :: o').length + 1) = (d :: o') ++ [c] := by
        rw [← hmp, List.take_length_add_append]
        rfl
      have hmem' : (d :: o') ++ [c] ∈ operators := by
        rw [← htake]
        by_cases hlt : (d :: o').length + 1 < u.length
        · exact hfront u hu _ hlt (by simp)
        · rwa [List.take_of_length_le (by omega)]
      rw [List.contains_eq_mem, decide_eq_false_iff_not] at hop
      exact hop hmem'
    · rw [hp] at hm
      obtain ⟨e, -, he⟩ := matches_one_iff.mp hm
      simpa using (List.cons.inj he).2

theorem tokenize_operator (h : tokenize s = t :: ts) (hk : t.kind = .punct)
    (hv : ∀ c ∈ v.head?, joins t.text c = false) : tokenize (t.text ++ v) = t :: tokenize v := by
  have hshort : Kind.punct.isShort = true := by decide
  refine tokenize_replace h (by simp [hk]) (by rw [hk]; exact hshort)
    (isBrokenLifetime_eq_false (by simp [hk]) _) ?_
  exact endsBy_operator (text_of_punct h hk) hv

/-- White space never joins an operator. -/
theorem joins_blank : ∀ o ∈ operators, ∀ c ∈ blanks, joins o c = false := by
  have hall : operators.all (fun o => blanks.all fun c => !joins o c) = true := by decide +kernel
  simpa only [List.all_eq_true, Bool.not_eq_true'] using hall

/-- What follows an operator token does not join it. -/
theorem joins_next (h : tokenize s = t :: ts) (hk : t.kind = .punct) :
    ∀ c ∈ (s.drop t.text.length).head?, joins t.text c = false := by
  intro c hc
  obtain ⟨r, hr, -, -, hm, hw⟩ := exists_short_rule h (by simp [hk]) (by rw [hk]; decide)
  have hends := endsBy_of_winner hw
  obtain ⟨w, hw⟩ := List.head?_eq_some_iff.mp hc
  have hno (k : Kind) (p : Pattern) (tail : Tail) (hp : ⟨k, p, tail⟩ ∈ rules) :
      ¬ Matches p (t.text ++ [c]) := by
    intro hm'
    have := hends _ hp [c] (hw ▸ ⟨w, rfl⟩) hm'
    simp at this
  simp only [joins, Bool.or_eq_false_iff, decide_eq_false_iff_not]
  refine ⟨⟨?_, fun hline => ?_⟩, fun hblock => ?_⟩
  · rw [List.contains_eq_mem, decide_eq_false_iff_not]
    intro hop
    refine hno .punct (choice (operators.map literal)) .plain (by simp [rules, declared]) ?_
    exact matches_choice_iff.mpr ⟨_, List.mem_map_of_mem hop, matches_literal_iff.mpr rfl⟩
  · refine hno .lineComment (.seq (literal ['/', '/']) (star (one notNewline))) .plain
      (by simp [rules, declared]) ?_
    rw [hline]
    exact Matches.seq (s := ['/', '/']) (matches_literal_iff.mpr rfl) .starNil
  · refine hno .blockComment (literal ['/', '*']) .comment (by simp [rules, declared]) ?_
    exact matches_literal_iff.mpr hblock

end MacroBridge
