import MacroBridge.Proofs.Token.Kept

/-!
Comments that the source closes, and the tokens in front of a line break. Where the opening of a
comment or a raw string stands, no other token begins. Neither a comment that is closed nor any
other token that is complete takes anything of the text behind the break.
-/
namespace MacroBridge
open Pattern Lexer Grammar
open Token (atToken linked linked_cons linked_trivia)

/-! ### Openings -/

/-- Where the opening of a token with a tail stands, no other token begins. -/
theorem first_of_opening {r : Rule} (hr : r ∈ rules) (htail : r.kind.hasTail = true)
    {o : List Char} (ho : Matches r.pattern o) (s : List Char) :
    first (o ++ s) = (r.kind, o.length + tailLength r.tail o s) := by
  have hsep : ∀ r ∈ rules, r.kind.hasTail = true →
      ∀ q ∈ rules, separates r.pattern anyText q.pattern = true := by
    decide +kernel
  have hends : ∀ q ∈ rules, q.pattern.EndsBy o s := fun q hq =>
    endsBy_of_separates (hsep r hr htail q hq) ho (matches_anyText s)
  have hother {k : Kind} (hk : k.hasTail = false) : r.kind ≠ k := by
    rintro rfl
    simp [hk] at htail
  exact first_of_matches hr ho hends (hother rfl) (hother rfl) (hother rfl)

/-! ### Block comments -/

/-- What follows the opening of a comment: comments and single characters, where neither an opening
nor a closing mark begins, up to the closing mark. -/
inductive CommentBody : List Char → Prop
  | close : CommentBody ['*', '/']
  | nested {a b : List Char} (ha : CommentBody a) (hb : CommentBody b) :
      CommentBody ('/' :: '*' :: (a ++ b))
  | char {c : Char} {s : List Char} (hopen : ¬ ['/', '*'] <+: c :: s)
      (hclose : ¬ ['*', '/'] <+: c :: s) (h : CommentBody s) : CommentBody (c :: s)

/-- A comment that is closed, with all that are in it. -/
def IsComment (s : List Char) : Prop := ∃ b, s = '/' :: '*' :: b ∧ CommentBody b

variable {s v a b : List Char} {t : Token} {ts : List Token}

theorem CommentBody.ne_nil (h : CommentBody s) : s ≠ [] := by
  cases h <;> simp

/-- The characters of open comments when the innermost is closed behind `n` of them. -/
def commentClosed : (depth n : Nat) → List Char → Nat
  | 0, n, _ => n
  | depth + 1, n, s => commentLength depth n s

theorem commentLength_open (depth n : Nat) (s : List Char) :
    commentLength depth n ('/' :: '*' :: s) = commentLength (depth + 1) (n + 2) s := by
  rw [commentLength.eq_def]
  simp

theorem commentLength_close (depth n : Nat) (s : List Char) :
    commentLength depth n ('*' :: '/' :: s) = commentClosed depth (n + 2) s := by
  rw [commentLength.eq_def]
  cases depth <;> simp [commentClosed]

theorem commentLength_char {c d : Char} {s : List Char} (hopen : ¬ ['/', '*'] <+: c :: d :: s)
    (hclose : ¬ ['*', '/'] <+: c :: d :: s) (depth n : Nat) (v : List Char) :
    commentLength depth n (c :: d :: v) = commentLength depth (n + 1) (d :: v) := by
  have hopen' : ¬ (c = '/' ∧ d = '*') := by
    rintro ⟨rfl, rfl⟩
    exact hopen ⟨s, rfl⟩
  have hclose' : ¬ (c = '*' ∧ d = '/') := by
    rintro ⟨rfl, rfl⟩
    exact hclose ⟨s, rfl⟩
  rw [commentLength.eq_def]
  simp only [if_neg hopen', if_neg hclose']

/-- A comment is closed at its end, whatever follows. -/
theorem CommentBody.length_eq (h : CommentBody s) (depth n : Nat) (v : List Char) :
    commentLength depth n (s ++ v) = commentClosed depth (n + s.length) v := by
  induction h generalizing depth n v with
  | close => exact commentLength_close depth n v
  | @nested a b ha hb iha ihb =>
    rw [List.cons_append, List.cons_append, commentLength_open, List.append_assoc, iha,
      commentClosed, ihb]
    congr 1
    simp only [List.length_cons, List.length_append]
    omega
  | @char c s hopen hclose h ih =>
    obtain ⟨d, s, rfl⟩ := List.exists_cons_of_ne_nil h.ne_nil
    rw [List.cons_append, List.cons_append, commentLength_char hopen hclose,
      ← List.cons_append, ih]
    congr 1
    simp only [List.length_cons]
    omega

theorem first_comment (s : List Char) :
    first ('/' :: '*' :: s) = (.blockComment, 2 + commentLength 0 0 s) := by
  have hrule : Rule.mk .blockComment (literal ['/', '*']) .comment ∈ rules := by
    simp [rules, declared]
  exact first_of_opening hrule rfl (matches_literal_iff.mpr rfl) s

/-- A comment is one token in front of any text. -/
theorem tokenize_comment (h : CommentBody b) (v : List Char) :
    tokenize ('/' :: '*' :: b ++ v) = ⟨.blockComment, '/' :: '*' :: b⟩ :: tokenize v := by
  refine tokenize_of_first (by simp) ?_
  rw [List.cons_append, List.cons_append, first_comment, h.length_eq, commentClosed]
  simp only [List.length_cons]
  congr 1
  omega

/-! ### Line comments -/

theorem rule_lineComment : ∀ r ∈ rules, r.kind = .lineComment →
    r.pattern = .seq (literal ['/', '/']) (star (one notNewline)) ∧ r.tail = .plain := by
  decide

/-- A line comment ends with its line. -/
theorem lineComment_next (h : tokenize s = t :: ts) (hk : t.kind = .lineComment) :
    ∀ c ∈ (s.drop t.text.length).head?, c = '\n' := by
  intro c hc
  obtain ⟨r, hr, hrk, -, hm, hw⟩ := exists_short_rule h (by simp [hk]) (by rw [hk]; decide)
  obtain ⟨v, hv⟩ := List.head?_eq_some_iff.mp hc
  rw [hv] at hw
  by_contra hne
  rw [(rule_lineComment r hr (hrk.trans hk)).1] at hm
  obtain ⟨x, y, hxy, hx, hy⟩ := matches_seq_iff.mp hm
  have hlonger : Matches r.pattern (t.text ++ [c]) := by
    rw [(rule_lineComment r hr (hrk.trans hk)).1, hxy, List.append_assoc]
    refine .seq hx (matches_star_one_iff.mpr fun d hd => ?_)
    rcases List.mem_append.mp hd with hd | hd
    · exact matches_star_one_iff.mp hy d hd
    · rw [List.mem_singleton.mp hd]
      simpa [notNewline, CharSet.contains] using hne
  have hnil := endsBy_of_winner hw r hr [c] ⟨v, rfl⟩ hlonger
  simp at hnil

theorem tokenize_lineComment (h : tokenize s = t :: ts) (hk : t.kind = .lineComment)
    (v : List Char) : tokenize (t.text ++ '\n' :: v) = t :: tokenize ('\n' :: v) := by
  have hall : Kind.lineComment.isShort = true ∧
      Kind.lineComment.apart (.seq (char '\n') anyText) = true := by
    decide +kernel
  refine tokenize_apart h (by simp [hk]) (hk ▸ hall.1) (hk ▸ hall.2) ?_ (by simp [hk])
  exact Matches.seq (s := ['\n']) (matches_char_iff.mpr rfl) (matches_anyText v)

/-! ### In front of a line break -/

/-- A token that ends where its own form ends and not just with the source. -/
structure Token.IsComplete (t : Token) : Prop where
  isTerminated : t.isTerminated = true
  isComment : t.kind = .blockComment → IsComment t.text

/-- Trivia in front of a line break, or of a text that ends before one, goes no further than
that. -/
theorem linked_of_trivia (h : tokenize (t.text ++ a) = t :: ts) (ht : t.kind.isTrivia = true)
    (hend : t.IsComplete) (b : List Char) :
    linked (tokenize (t.text ++ (a ++ '\n' :: b))) = linked (tokenize (a ++ '\n' :: b)) ∧
      atToken (tokenize (t.text ++ (a ++ '\n' :: b))) = false := by
  have hkind : t.kind = .whitespace ∨ t.kind = .lineComment ∨ t.kind = .blockComment := by
    cases hk : t.kind <;> simp [hk, Kind.isTrivia] at ht ⊢
  have hkept (hw : tokenize (t.text ++ (a ++ '\n' :: b)) = t :: tokenize (a ++ '\n' :: b)) :
      linked (tokenize (t.text ++ (a ++ '\n' :: b))) = linked (tokenize (a ++ '\n' :: b)) ∧
        atToken (tokenize (t.text ++ (a ++ '\n' :: b))) = false := by
    rw [hw, linked_trivia ht]
    simp [ht]
  rcases hkind with hk | hk | hk
  · have hrule : ∀ r ∈ rules, r.kind = .whitespace →
        r.pattern = plus (oneOf blanks) ∧ r.tail = .plain := by decide
    have hm := matches_of_tokenize h (by simp [hk])
      (fun r hr hrk => hrule r hr (hrk.trans hk)) (by decide)
    obtain ⟨hne, hblank⟩ := matches_plus_oneOf_iff.mp hm
    obtain ⟨hlinked, hat⟩ := linked_blank hblank (a ++ '\n' :: b)
    exact ⟨hlinked, hat hne⟩
  · refine hkept ?_
    have hnext := lineComment_next h hk
    rw [List.drop_left] at hnext
    cases a with
    | nil => exact tokenize_lineComment h hk b
    | cons c a =>
      obtain rfl := hnext c rfl
      exact tokenize_lineComment h hk _
  · refine hkept ?_
    obtain ⟨body, htext, hbody⟩ := hend.isComment hk
    rw [htext, tokenize_comment hbody, ← htext, ← hk]

/-- In front of a line break and another text, a text of complete tokens shows what it shows by
itself, and behind that is seen what the other text shows. -/
theorem shows_append (hu : ∀ t ∈ tokenize a, t.kind ≠ .unknown)
    (hend : ∀ t ∈ tokenize a, t.IsComplete) (b : List Char) :
    Shows (linked (tokenize b)) a (a ++ '\n' :: b) := by
  generalize hts : tokenize a = ts at hu hend
  induction ts generalizing a with
  | nil =>
    have hnil := sourceOf_tokenize a
    rw [hts] at hnil
    obtain rfl : a = [] := hnil.symm
    obtain ⟨hlinked, hat⟩ := linked_blank (a := ['\n']) (by simp [blanks]) b
    exact shows_of_gap (by simp) (hat (by simp)) (by simp [Gap, gapHeads, blanks])
      (.inr ⟨'\n', by simp [blanks], rfl⟩) (by simpa using hlinked)
  | cons t ts ih =>
    obtain ⟨-, -, hne, hsplit, hrest⟩ := tokenize_eq_cons hts
    obtain ⟨hut, hus⟩ := List.forall_mem_cons.mp hu
    obtain ⟨het, hes⟩ := List.forall_mem_cons.mp hend
    have hshows := ih hrest.symm hus hes
    have htokens : tokenize (t.text ++ a.drop t.text.length) =
        t :: tokenize (a.drop t.text.length) := by
      rw [← hsplit, hts, hrest]
    cases htrivia : t.kind.isTrivia with
    | false =>
      have htoken := hshows.token htokens hut htrivia (.inl het.isTerminated)
      rwa [← List.append_assoc, ← hsplit] at htoken
    | true =>
      obtain ⟨hlinked, hat⟩ := linked_of_trivia htokens htrivia het b
      rw [← List.append_assoc, ← hsplit] at hlinked hat
      have hhead : (a ++ '\n' :: b).head? = a.head? := by
        rw [hsplit]
        obtain ⟨c, x, hx⟩ := List.exists_cons_of_ne_nil hne
        simp [hx]
      refine shows_of_gap (by simp [hts, htrivia]) hat ?_ (.inl hhead) ?_
      · intro c hc
        exact head_of_trivia hts htrivia c (hhead ▸ hc)
      · rw [hlinked, hshows.linked_eq, hts, linked_trivia htrivia, hrest]

end MacroBridge
