import MacroBridge.Proofs.Token.Acceptance
import MacroBridge.Proofs.Token.Linked

/-!
Tokens that are kept when the trivia between them is exchanged for other trivia. No rule reaches
from a token over those that follow at once into the trivia behind them.
-/
namespace MacroBridge
open Pattern Lexer Grammar
open Token (atToken linked linked_cons linked_trivia)

variable {s w a v : List Char} {t : Token} {ts : List Token} {later : List (Token × Bool)}

/-! ### White space -/

theorem subset_gapHeads : ∀ c ∈ blanks, c ∈ gapHeads := fun _ => List.mem_cons_of_mem _

/-- White space is one token up to where it ends. -/
theorem tokenize_blank (ha : a ≠ []) (hblank : ∀ c ∈ a, c ∈ blanks)
    (hv : ∀ c ∈ v.head?, c ∉ blanks) : tokenize (a ++ v) = ⟨.whitespace, a⟩ :: tokenize v := by
  have hrule : Rule.mk .whitespace (plus (oneOf blanks)) .plain ∈ rules := by
    simp [rules, declared, blanks]
  have hmany : Matches (plus (oneOf blanks)) a := matches_plus_oneOf_iff.mpr ⟨ha, hblank⟩
  have hsep : ∀ r ∈ rules, separates (plus (oneOf blanks)) unspaced r.pattern = true := by
    decide +kernel
  have hends : ∀ r ∈ rules, r.pattern.EndsBy a v := fun r hr =>
    endsBy_of_separates (hsep r hr) hmany (matches_unspaced hv)
  exact tokenize_of_first ha (first_of_matches hrule hmany hends (by simp) (by simp) (by simp))

theorem tokenize_space (hv : ∀ c ∈ v.head?, c ∉ blanks) :
    tokenize (' ' :: v) = ⟨.whitespace, [' ']⟩ :: tokenize v :=
  tokenize_blank (a := [' ']) (List.cons_ne_nil _ _) (by simp [blanks]) hv

/-- What is seen of a text does not depend on white space at its beginning. -/
theorem linked_blank (hblank : ∀ c ∈ a, c ∈ blanks) (v : List Char) :
    linked (tokenize (a ++ v)) = linked (tokenize v) ∧
    (a ≠ [] → atToken (tokenize (a ++ v)) = false) := by
  have hdrop (w : List Char) :
      ∃ lead rest, w = lead ++ rest ∧ (∀ c ∈ lead, c ∈ blanks) ∧ ∀ c ∈ rest.head?, c ∉ blanks := by
    refine ⟨w.takeWhile (· ∈ blanks), w.dropWhile (· ∈ blanks),
      List.takeWhile_append_dropWhile.symm, ?_, ?_⟩
    · intro c hc
      simpa using List.mem_takeWhile_imp hc
    · intro c hc hblank
      have hnot := List.head?_dropWhile_not (fun x => decide (x ∈ blanks)) w
      rw [Option.mem_def.mp hc] at hnot
      simp [hblank] at hnot
  have htokens {lead rest : List Char} (hlead : ∀ c ∈ lead, c ∈ blanks)
      (hrest : ∀ c ∈ rest.head?, c ∉ blanks) :
      linked (tokenize (lead ++ rest)) = linked (tokenize rest) ∧
        (lead ≠ [] → atToken (tokenize (lead ++ rest)) = false) := by
    by_cases hne : lead = []
    · rw [hne]
      exact ⟨rfl, fun h => absurd rfl h⟩
    · rw [tokenize_blank hne hlead hrest]
      exact ⟨linked_trivia rfl _, fun _ => rfl⟩
  obtain ⟨lead, rest, rfl, hlead, hrest⟩ := hdrop v
  have hall : ∀ c ∈ a ++ lead, c ∈ blanks := List.forall_mem_append.mpr ⟨hblank, hlead⟩
  obtain ⟨hlinked, hat⟩ := htokens hall hrest
  rw [List.append_assoc] at hlinked hat
  exact ⟨hlinked.trans (htokens hlead hrest).1.symm, fun hne => hat (by simp [hne])⟩

/-! ### What stands behind a token -/

def charLiteral : Pattern :=
  chain [char '\'', choice [quotedChar, anyCharEscape, byteEscape, unicodeEscape], char '\'']

/-- Texts that begin with a token, and the empty one. A quote begins only lifetimes, characters and
strings. -/
def stretch : Pattern :=
  opt (choice [.seq (.seq (char '\'') name) anyText, .seq charLiteral anyText,
    .seq (stringAfter []) anyText, .seq (one (.except ['\'', '"'])) anyText])

theorem matches_stretch (h : tokenize s = t :: ts) (hu : t.kind ≠ .unknown) (m : List Char) :
    Matches stretch (t.text ++ m) := by
  have hall := matches_anyText m
  have hbegins {p : Pattern} (hp : p ∈ [.seq (char '\'') name, charLiteral, stringAfter []])
      (hm : Matches p t.text) : Matches stretch (t.text ++ m) := by
    refine matches_opt_iff.mpr (.inl (matches_choice_iff.mpr ⟨.seq p anyText, ?_, .seq hm hall⟩))
    rcases List.mem_cons.mp hp with rfl | hp
    · simp
    · simp only [List.mem_cons, List.not_mem_nil, or_false] at hp
      rcases hp with rfl | rfl <;> simp
  have hkinds : ∀ r ∈ rules, ['\'', '"'].all (fun c =>
      decide (r.pattern.derivatives c ≠ [] → r.kind ∈ [Kind.unknown, .lifetime, .char, .str])) =
        true := by decide
  have hform : ∀ k ∈ [Kind.lifetime, .char, .str],
      ∃ p ∈ [.seq (char '\'') name, charLiteral, stringAfter []],
      ∀ r ∈ rules, r.kind = k → r.pattern = p ∧ r.tail = .plain := by decide
  have hnull : ∀ p ∈ [.seq (char '\'') name, charLiteral, stringAfter []], p.nullable = false := by
    decide
  obtain ⟨-, -, hne, -⟩ := tokenize_eq_cons h
  obtain ⟨c, x, hx⟩ := List.exists_cons_of_ne_nil hne
  by_cases hc : c ∈ ['\'', '"']
  · obtain ⟨r, hr, hk, hd⟩ := exists_rule_head h hu (x := c) (by rw [hx]; rfl)
    have hkind : t.kind ∈ [Kind.unknown, .lifetime, .char, .str] :=
      hk ▸ of_decide_eq_true (List.all_eq_true.mp (hkinds r hr) c hc) hd
    obtain ⟨p, hp, hrules⟩ := hform t.kind ((List.mem_cons.mp hkind).resolve_left hu)
    exact hbegins hp (matches_of_tokenize h hu hrules (hnull p hp))
  · rw [hx]
    refine matches_opt_iff.mpr (.inl (matches_choice_iff.mpr ⟨_, List.mem_of_getLast? rfl, ?_⟩))
    exact Matches.seq (s := [c]) (.one (by simpa [CharSet.contains] using hc)) (matches_anyText _)

/-- Behind the text `m`, which begins with a token if it is not empty, `o` can be exchanged for
`v`. -/
structure Seam (m o v : List Char) : Prop where
  begins : Matches stretch m
  gap : Gap v
  head : v.head? = o.head? ∨ ∃ c ∈ blanks, v.head? = some c

variable {m o : List Char}

/-- The kinds of tokens that only what follows ends. -/
def Kind.isOpenEnded : Kind → Bool
  | ident | lifetime | intNumber | floatNumber => true
  | _ => false

theorem openEnded_separates : ∀ r ∈ rules, r.kind.isOpenEnded = true →
    ∀ q ∈ rules, separates (.seq r.pattern stretch) gapped q.pattern = true := by
  decide +kernel

/-- A rule that does not reach from a token into what follows does not do so if there is other
trivia behind it. -/
theorem Seam.endsBy (h : Seam m o v) {r q : Rule} (hr : r ∈ rules) (hk : r.kind.isOpenEnded = true)
    (hm : Matches r.pattern a) (hq : q ∈ rules) (hold : q.pattern.EndsBy a (m ++ o)) :
    q.pattern.EndsBy a (m ++ v) := by
  intro x hx hmx
  rcases List.prefix_or_prefix_of_prefix hx (List.prefix_append m v) with hpre | ⟨y, rfl⟩
  · exact hold x (hpre.trans (List.prefix_append m o)) hmx
  obtain ⟨z, rfl⟩ := (List.prefix_append_right_inj m).mp hx
  cases y with
  | nil => exact hold _ (by simp) hmx
  | cons c y =>
    have hcross := eq_nil_of_separates (openEnded_separates r hr hk q hq) (.seq hm h.begins)
      (matches_gapped (h.gap c rfl) (y ++ z)) (x := c :: y) (by rwa [List.append_assoc])
    simp at hcross

/-- The exchange shows right behind a token only if nothing stands between. -/
theorem head_append (m o v : List Char) : (m ++ v).head? = (m ++ o).head? ∨ m = [] := by
  cases m with
  | nil => exact .inr rfl
  | cons c m => exact .inl rfl

/-- An operator does not begin a longer one in front of other trivia. -/
theorem Seam.not_joins (h : Seam m o v) (ht : tokenize (t.text ++ (m ++ o)) = t :: ts)
    (hk : t.kind = .punct) : ∀ c ∈ (m ++ v).head?, joins t.text c = false := by
  intro c hc
  have hold := joins_next ht hk
  rw [List.drop_left] at hold
  obtain hsame | rfl := head_append m o v
  · exact hold c (hsame ▸ hc)
  · obtain hsame | ⟨d, hd, hhead⟩ := h.head
    · exact hold c (by simpa [hsame] using hc)
    · rw [List.nil_append, hhead] at hc
      rw [← Option.some.inj hc]
      exact joins_blank _ (text_of_punct ht hk) d hd

theorem Seam.isBrokenLifetime_eq (h : Seam m o v) (ht : tokenize (t.text ++ (m ++ o)) = t :: ts)
    (hu : t.kind ≠ .unknown) (hshort : t.kind.isShort = true) :
    isBrokenLifetime t.kind t.text (m ++ v) = false := by
  obtain hsame | rfl := head_append m o v
  · have hold := isBrokenLifetime_next ht hu hshort
    rw [List.drop_left] at hold
    rwa [isBrokenLifetime, hsame]
  · refine isBrokenLifetime_eq_false (fun _ => ?_) _
    have hforeign : gapHeads.all (fun c => !isForeign c) = true := by decide
    cases v with
    | nil => rfl
    | cons c v => simpa using List.all_eq_true.mp hforeign c (h.gap c rfl)

theorem Kind.isShort_of_isOpenEnded {k : Kind} (hk : k.isOpenEnded = true) : k.isShort = true := by
  have hall : ∀ k ∈ [Kind.ident, .lifetime, .intNumber, .floatNumber], k.isShort = true := by
    decide
  refine hall k ?_
  cases k <;> simp [Kind.isOpenEnded] at hk ⊢

theorem kind_cases (hu : t.kind ≠ .unknown) (htrivia : t.kind.isTrivia = false) :
    t.kind.showsItsEnd = true ∨ (∃ mark, t.kind.rawMark? = some mark) ∨ t.kind = .punct ∨
      t.kind.isOpenEnded = true := by
  cases hk : t.kind <;>
    simp_all [Kind.isTrivia, Kind.showsItsEnd, Kind.rawMark?, Kind.isOpenEnded]

/-- A token in front of the same tokens and other trivia. -/
theorem tokenize_kept (h : tokenize (t.text ++ (m ++ o)) = t :: ts) (hu : t.kind ≠ .unknown)
    (htrivia : t.kind.isTrivia = false) (hend : t.isTerminated = true) (hseam : Seam m o v) :
    tokenize (t.text ++ (m ++ v)) = t :: tokenize (m ++ v) := by
  rcases kind_cases hu htrivia with hk | ⟨mark, hk⟩ | hk | hk
  · exact tokenize_showsItsEnd h hk _
  · exact tokenize_raw h hu hk hend _
  · exact tokenize_operator h hk (hseam.not_joins h hk)
  · have hshort := Kind.isShort_of_isOpenEnded hk
    obtain ⟨r, hr, hrk, -, hm, hw⟩ := exists_short_rule h hu hshort
    rw [List.drop_left] at hw
    refine tokenize_replace h hu hshort (hseam.isBrokenLifetime_eq h hu hshort) fun q hq => ?_
    exact hseam.endsBy hr (hrk ▸ hk) hm hq (endsBy_of_winner hw q hq)

/-! ### Texts in which the same is seen -/

/-- In the second text the same is seen as in the first, and `later` behind that. -/
structure Shows (later : List (Token × Bool)) (s w : List Char) : Prop where
  seam : ∃ m o v, s = m ++ o ∧ w = m ++ v ∧ Seam m o v
  atToken_eq : atToken (tokenize w) = atToken (tokenize s)
  linked_eq : linked (tokenize w) = linked (tokenize s) ++ later

/-- No token comes first in both texts. -/
theorem shows_of_gap (hs : atToken (tokenize s) = false) (hw : atToken (tokenize w) = false)
    (hgap : Gap w) (hhead : w.head? = s.head? ∨ ∃ c ∈ blanks, w.head? = some c)
    (hlinked : linked (tokenize w) = linked (tokenize s) ++ later) : Shows later s w :=
  ⟨⟨[], s, w, rfl, rfl, matches_opt_iff.mpr (.inr rfl), hgap, hhead⟩, hw.trans hs.symm, hlinked⟩

/-- A token in front of both texts. -/
theorem Shows.token (h : Shows later s w) (ht : tokenize (t.text ++ s) = t :: tokenize s)
    (hu : t.kind ≠ .unknown) (htrivia : t.kind.isTrivia = false)
    (hend : t.isTerminated = true ∨ s = w) : Shows later (t.text ++ s) (t.text ++ w) := by
  obtain ⟨m, o, v, rfl, rfl, hseam⟩ := h.seam
  have ht' : tokenize (t.text ++ (m ++ v)) = t :: tokenize (m ++ v) := by
    rcases hend with hend | hsame
    · exact tokenize_kept ht hu htrivia hend hseam
    · rwa [← hsame]
  refine ⟨⟨t.text ++ m, o, v, by simp, by simp, matches_stretch ht hu m, hseam.gap, hseam.head⟩,
    ?_, ?_⟩
  · rw [ht, ht']
    simp
  · rw [ht, ht', linked_cons htrivia, linked_cons htrivia, h.atToken_eq, h.linked_eq,
      List.cons_append]

end MacroBridge
