import Mathlib
import MacroBridge.Proofs.Token.Kept
import MacroBridge.Proofs.Tree.Prolonged

/-!
All trivia is one to the builder. A source and the same source with white space in the place of
every stretch of comments and white space give the same tree.
-/
namespace MacroBridge
open Token (linked atToken linked_append_trivia)

/-- The text of tokens with each run of trivia, taken as long as it goes, exchanged for some white
space. -/
inductive Respaced : List Token → List Char → Prop
  | nil : Respaced [] []
  | token {t : Token} {ts : List Token} {w : List Char} (ht : t.kind.isTrivia = false)
      (h : Respaced ts w) :
      Respaced (t :: ts) (t.text ++ w)
  | trivia {run ts : List Token} {blank w : List Char} (hrun : run ≠ [])
      (htrivia : ∀ t ∈ run, t.kind.isTrivia = true) (hall : ∀ t ∈ ts.head?, t.kind.isTrivia =
        false) (hne : blank ≠ []) (hblank : ∀ c ∈ blank, c ∈ blanks)
      (h : Respaced ts w) : Respaced (run ++ ts) (blank ++ w)

variable {s w : List Char} {ts : List Token}

theorem Respaced.eq_nil (h : Respaced [] w) : w = [] := by
  generalize hts : ([] : List Token) = ts at h
  cases h with
  | nil => rfl
  | token => simp at hts
  | trivia hrun => exact absurd (List.append_eq_nil_iff.mp hts.symm).1 hrun

/-- In the respaced text the same is seen. -/
theorem Respaced.shows (h : Respaced ts w) (hs : tokenize s = ts)
    (hu : ∀ t ∈ ts, t.kind ≠ .unknown) : Shows [] s w := by
  induction h generalizing s with
  | nil =>
    have hnil := sourceOf_tokenize s
    rw [hs] at hnil
    obtain rfl : s = [] := hnil.symm
    exact shows_of_gap (by simp) (by simp) (by simp [Gap]) (.inl rfl) (by simp)
  | @token t ts w ht hrest ih =>
    obtain ⟨-, -, -, hsplit, hts⟩ := tokenize_eq_cons hs
    obtain ⟨hut, hus⟩ := List.forall_mem_cons.mp hu
    have hshows := ih hts.symm hus
    rw [hsplit]
    refine hshows.token (by rw [← hsplit, hs, hts]) hut ht ?_
    cases hend : t.isTerminated with
    | true => exact .inl rfl
    | false =>
      have hnil := drop_of_not_isTerminated hs hut hend
      rw [hts, hnil, tokenize_nil] at hrest
      exact .inr (by rw [hnil, hrest.eq_nil])
  | @trivia run ts blank w hrun htrivia hall hne hblank hrest ih =>
    have hshows := ih (tokenize_sourceOf hs) fun t ht => hu t (List.mem_append_right _ ht)
    obtain ⟨hlinked, hat⟩ := linked_blank hblank w
    have hfirst : atToken (tokenize s) = false := by
      obtain ⟨t, run, rfl⟩ := List.exists_cons_of_ne_nil hrun
      simp [hs, htrivia t List.mem_cons_self]
    obtain ⟨c, blank, rfl⟩ := List.exists_cons_of_ne_nil hne
    have hc : c ∈ blanks := hblank c List.mem_cons_self
    have hgap : Gap (c :: blank ++ w) := by
      intro d hd
      rw [← Option.some.inj hd]
      exact subset_gapHeads c hc
    refine shows_of_gap hfirst (hat hne) hgap (.inr ⟨c, hc, rfl⟩) ?_
    rw [hlinked, hs, linked_append_trivia htrivia, hshows.linked_eq, tokenize_sourceOf hs]

/-- A source without unknown tokens gives the same tree as one that has white space wherever it has
trivia: the same groups, texts, spacings and ids. -/
theorem ofSource_respaced {s w : List Char} (hu : ∀ t ∈ tokenize s, t.kind ≠ .unknown)
    (h : Respaced (tokenize s) w) (options : ParseOptions) :
    Subtree.ofSource w options = Subtree.ofSource s options := by
  have hshows := h.shows rfl hu
  exact Subtree.ofSource_congr (by rw [hshows.linked_eq, List.append_nil]) options

/-- A source with trivia of each form, the last of which the source does not close. -/
def commentedSource : List Char := "f(/**/ 1.// one\n5)+/*".toList

/-- The same source with white space of each kind. -/
def blankSource : List Char := ['f', '(', '\t', '\n', '1', '.', '\x0c', '5', ')', '+', '\x0b']

theorem ofSource_respaced_comments :
    Subtree.ofSource blankSource {} = Subtree.ofSource commentedSource {} := by
  have htokens : tokenize commentedSource =
      [⟨.ident, ['f']⟩, ⟨.opening .paren, ['(']⟩, ⟨.blockComment, "/**/".toList⟩,
        ⟨.whitespace, [' ']⟩, ⟨.intNumber, ['1']⟩, ⟨.punct, ['.']⟩,
        ⟨.lineComment, "// one".toList⟩, ⟨.whitespace, ['\n']⟩, ⟨.intNumber, ['5']⟩,
        ⟨.closing .paren, [')']⟩, ⟨.punct, ['+']⟩, ⟨.blockComment, "/*".toList⟩] := by
    cbv
  have hrespaced : Respaced (tokenize commentedSource) blankSource := by
    rw [htokens]
    refine .token rfl (.token rfl ?_)
    refine @Respaced.trivia [_, _] _ ['\t', '\n'] _ (by simp) (by simp [Kind.isTrivia])
      (by simp [Kind.isTrivia]) (by simp) (by simp [blanks]) (.token rfl (.token rfl ?_))
    refine @Respaced.trivia [_, _] _ ['\x0c'] _ (by simp) (by simp [Kind.isTrivia])
      (by simp [Kind.isTrivia]) (by simp) (by simp [blanks])
      (.token rfl (.token rfl (.token rfl ?_)))
    exact @Respaced.trivia [_] _ ['\x0b'] _ (by simp) (by simp [Kind.isTrivia]) (by simp) (by simp)
      (by simp [blanks]) .nil
  exact ofSource_respaced (by rw [htokens]; decide) hrespaced {}

end MacroBridge
