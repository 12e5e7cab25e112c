import MacroBridge.Proofs.Token.Counted

/-!
Where comments and raw strings end. A comment ends with the mark that closes it, whatever follows,
and a raw string with the first quote that has the hashes of its opening behind it. Without an end
of its own either takes the rest of the source.
-/
namespace MacroBridge
open Pattern Lexer Grammar
open Utf8 (encode byteLength byteLength_append)

variable {s c c' source before rest : List Char} {t : Token} {ts : List Token}

/-! ### Comments -/

theorem tokenize_isComment (hc : IsComment c) (v : List Char) :
    tokenize (c ++ v) = ⟨.blockComment, c⟩ :: tokenize v := by
  obtain ⟨b, rfl, hb⟩ := hc
  exact tokenize_comment hb v

/-- No two comments stand at the front of the same text. -/
theorem IsComment.unique (hc : IsComment c) (hp : c <+: s) (hc' : IsComment c') (hp' : c' <+: s) :
    c' = c := by
  obtain ⟨v, rfl⟩ := hp
  obtain ⟨v', hv'⟩ := hp'
  have hsame := tokenize_isComment hc' v'
  rw [hv', tokenize_isComment hc] at hsame
  exact (congrArg Token.text (List.cons.inj hsame).1).symm

/-- The token at the mark of a comment, with the number of its bytes. -/
theorem token_of_mark (h : tokenize ('/' :: '*' :: s) = t :: ts) :
    t.kind = .blockComment ∧ t.byteLength = 2 + commentBytes 0 0 (encode s) := by
  obtain ⟨hk, ht, -⟩ := tokenize_eq_cons h
  rw [first_comment] at hk ht
  have hbytes := tailBytes_encode .comment [] s
  rw [tailBytes, tailLength] at hbytes
  rw [Nat.max_eq_right (by omega), Nat.add_comm, List.take_succ_cons, List.take_succ_cons] at ht
  rw [Token.byteLength, ht, byteLength_marks (by decide) (by decide), hbytes]
  exact ⟨hk, rfl⟩

/-- Where no comment is closed, the token goes on to the end of the text. -/
theorem text_of_unclosed (h : tokenize ('/' :: '*' :: s) = t :: ts)
    (hopen : ∀ c, IsComment c → ¬ c <+: '/' :: '*' :: s) : t.text = '/' :: '*' :: s := by
  obtain ⟨-, -, -, hs, -⟩ := tokenize_eq_cons h
  have hnot : ¬ IsComment t.text := fun hc => hopen t.text hc ⟨_, hs.symm⟩
  rw [drop_of_not_isComment h (token_of_mark h).1 hnot, List.append_nil] at hs
  exact hs.symm

/-- A token at which the mark of a comment stands is the comment that begins with this mark, if one
does. No other comment begins there, and nothing of the text behind it matters. Otherwise the token
is the rest of the source. The bytes are as many as a loop counts that goes through them with the
number of open comments. -/
theorem comment_extent {stop : Nat}
    (h : (t, byteLength before, stop) ∈ Token.withRanges 0 (tokenize source))
    (hmark : source = before ++ '/' :: '*' :: rest) :
    t.kind = .blockComment ∧ stop = byteLength before + 2 + commentBytes 0 0 (encode rest) ∧
      (∀ c, IsComment c → c <+: '/' :: '*' :: rest →
        (∀ c', IsComment c' → c' <+: '/' :: '*' :: rest → c' = c) ∧ t.text = c ∧
        stop = byteLength (before ++ c) ∧
          ∀ after, tokenize (c ++ after) = t :: tokenize after) ∧
      ((∀ c, IsComment c → ¬ c <+: '/' :: '*' :: rest) → t.text = '/' :: '*' :: rest ∧
        stop = byteLength source) := by
  obtain ⟨front, after, ts, hsource, hstart, hstop, htok⟩ := exists_place h
  rw [Nat.zero_add] at hstart
  obtain ⟨rfl, hrest⟩ := Utf8.append_inj_of_byteLength (hmark.symm.trans hsource) hstart
  rw [← hrest] at htok
  obtain ⟨hkind, hbytes⟩ := token_of_mark htok
  refine ⟨hkind, by rw [hstop, hbytes, Nat.add_assoc], fun c hc hp => ?_, fun hopen => ?_⟩
  · have htext : t = ⟨.blockComment, c⟩ := by
      obtain ⟨v, hv⟩ := hp
      rw [← hv, tokenize_isComment hc] at htok
      exact (List.cons.inj htok).1.symm
    refine ⟨fun c' hc' hp' => hc.unique hp hc' hp', by rw [htext], ?_, fun v => ?_⟩
    · rw [hstop, htext, byteLength_append]
      rfl
    · rw [htext, tokenize_isComment hc]
  · have htext := text_of_unclosed htok hopen
    refine ⟨htext, ?_⟩
    rw [hstop, Token.byteLength, htext, hmark, byteLength_append]

/-- A comment in a comment, with a slash at once behind its opening mark, and the two closing marks
side by side. -/
def nestedComment : List Char := ['/', '*', ' ', '/', '*', '/', '日', '*', '/', '*', '/']

def nestedSource : List Char := ['é', ' '] ++ (nestedComment ++ ['*', '/'])

/-- A slash behind the mark does not close a comment. -/
def unclosedComment : List Char := ['/', '*', '/']

theorem not_isComment_unclosed (hc : IsComment c) : ¬ c <+: unclosedComment := by
  obtain ⟨b, rfl, hb⟩ := hc
  intro hp
  have hb' : b <+: ['/'] := (List.prefix_append_right_inj ['/', '*']).mp hp
  cases hb with
  | close => simp at hb'
  | nested ha hb => simp at hb'
  | char hopen hclose h =>
    have hnil := List.prefix_nil.mp (List.cons_prefix_cons.mp hb').2
    exact h.ne_nil hnil

set_option maxRecDepth 4000 in
theorem comment_extent_nested :
    ((⟨.blockComment, nestedComment⟩ : Token), byteLength ['é', ' '], 16) ∈
    Token.withRanges 0 (tokenize nestedSource) ∧
      IsComment nestedComment ∧
      (∀ c, IsComment c → c <+: nestedComment ++ ['*', '/'] → c = nestedComment) ∧
      16 = byteLength (['é', ' '] ++ nestedComment) ∧
    ((⟨.blockComment, unclosedComment⟩ : Token), byteLength [], 3) ∈
    Token.withRanges 0 (tokenize unclosedComment) ∧
      (∀ c, IsComment c → ¬ c <+: unclosedComment) ∧ 3 = byteLength unclosedComment := by
  have hnested : ((⟨.blockComment, nestedComment⟩ : Token), byteLength ['é', ' '], 16) ∈
      Token.withRanges 0 (tokenize nestedSource) := List.mem_of_getElem? (i := 2) (by cbv)
  have hunclosed : ((⟨.blockComment, unclosedComment⟩ : Token), byteLength [], 3) ∈
      Token.withRanges 0 (tokenize unclosedComment) := List.mem_of_getElem? (i := 0) (by cbv)
  have hinner : CommentBody ['/', '日', '*', '/'] :=
    .char (by decide) (by decide) (.char (by decide) (by decide) .close)
  have hcomment : IsComment nestedComment :=
    ⟨_, rfl, .char (by decide) (by decide) (.nested hinner .close)⟩
  obtain ⟨-, -, hclosed, -⟩ := comment_extent hnested rfl
  obtain ⟨honly, -, hstop, -⟩ := hclosed nestedComment hcomment (List.prefix_append _ _)
  obtain ⟨-, -, -, hopen⟩ := comment_extent hunclosed rfl
  have hnone : ∀ c, IsComment c → ¬ c <+: unclosedComment := fun c => not_isComment_unclosed
  exact ⟨hnested, hcomment, honly, hstop, hunclosed, hnone, (hopen hnone).2⟩

/-! ### Raw strings -/

/-- The mark of a raw string, hashes, and the quote behind which its text begins. -/
def rawOpening (mark : List Char) (count : Nat) : List Char :=
  mark ++ (List.replicate count '#' ++ ['"'])

/-- The quote and the hashes that close a raw string. -/
def terminator (count : Nat) : List Char := '"' :: List.replicate count '#'

variable {k : Kind} {mark body : List Char} {count : Nat}

theorem atTerminator_iff : atTerminator count s = true ↔ terminator count <+: s :=
  List.isPrefixOf_iff_prefix

/-- In front of a terminator no other one begins in a text that has none. -/
theorem not_prefix_terminator (hne : body ≠ []) (h : ¬ terminator count <:+: body)
    (rest : List Char) : ¬ terminator count <+: body ++ (terminator count ++ rest) := by
  intro hp
  rcases List.prefix_or_prefix_of_prefix hp (List.prefix_append body _) with hpre | ⟨w, hw⟩
  · exact h hpre.isInfix
  · obtain ⟨q, body, rfl⟩ := List.exists_cons_of_ne_nil hne
    cases w with
    | nil =>
      rw [List.append_nil] at hw
      exact h (hw ▸ List.infix_rfl)
    | cons d w =>
      -- behind the body the terminator would go on with a quote, where it has only hashes left
      have hquote : d = '"' := by
        have hcut : (q :: body) ++ d :: w <+: (q :: body) ++ (terminator count ++ rest) := by
          rwa [hw]
        exact (List.cons_prefix_cons.mp ((List.prefix_append_right_inj _).mp hcut)).1
      have hhash : d ∈ List.replicate count '#' := by
        rw [← (List.cons.inj hw).2]
        simp
      rw [hquote] at hhash
      exact absurd (List.eq_of_mem_replicate hhash) (by decide)

theorem rawStringLength_body (h : ¬ terminator count <:+: body) (n : Nat) (rest : List Char) :
    rawStringLength count n (body ++ (terminator count ++ rest)) =
      n + (body ++ terminator count).length := by
  induction body generalizing n with
  | nil =>
    have hat : atTerminator count ('"' :: (List.replicate count '#' ++ rest)) = true :=
      atTerminator_iff.mpr (List.prefix_append (terminator count) rest)
    rw [List.nil_append, terminator, List.cons_append, rawStringLength, if_pos hat]
    simp only [List.nil_append, List.length_cons, List.length_replicate]
    omega
  | cons c body ih =>
    have hat := mt atTerminator_iff.mp (not_prefix_terminator (List.cons_ne_nil c body) h rest)
    have hbody : ¬ terminator count <:+: body :=
      fun hin => h (hin.trans (List.suffix_cons c body).isInfix)
    rw [List.cons_append] at hat ⊢
    rw [rawStringLength, if_neg hat, ih hbody, List.cons_append, List.length_cons]
    omega

theorem rawStringLength_open (h : ¬ terminator count <:+: s) (n : Nat) :
    rawStringLength count n s = n + s.length := by
  rcases rawStringLength_eq count n s with hall | ⟨k, -, hsuffix⟩
  · exact hall
  · exact absurd (hsuffix.isInfix.trans (List.take_prefix k s).isInfix) h

theorem first_raw (hk : k.rawMark? = some mark) (count : Nat) (s : List Char) :
    first (rawOpening mark count ++ s) =
      (k, (rawOpening mark count).length + rawStringLength count 0 s) := by
  have hkinds : ∀ k ∈ [Kind.rawStr, .rawByteStr, .rawCStr], k.hasTail = true ∧
      ∃ r ∈ rules, r.kind = k := by decide
  have hmem : k ∈ [Kind.rawStr, .rawByteStr, .rawCStr] := by
    cases k <;> simp [Kind.rawMark?] at hk ⊢
  obtain ⟨htail, r, hr, rfl⟩ := hkinds k hmem
  obtain ⟨hp, hraw, hmark, -⟩ := rule_raw hk r hr rfl
  have hopens : Matches r.pattern (rawOpening mark count) :=
    hp ▸ matches_rawStringOpening_iff.mpr ⟨count, rfl⟩
  rw [first_of_opening hr htail hopens, hraw, tailLength, rawOpening, count_hashes hmark]

/-- A raw string goes from its opening to the first quote with as many hashes behind it as the
opening has, whatever stands between and behind them. Where there is none behind the opening, the
rest of the text belongs to the token. -/
theorem rawString_extent (hk : k.rawMark? = some mark) (count : Nat)
    (h : ¬ terminator count <:+: body) :
    (∀ rest, tokenize (rawOpening mark count ++ (body ++ (terminator count ++ rest))) =
        ⟨k, rawOpening mark count ++ (body ++ terminator count)⟩ :: tokenize rest) ∧
      tokenize (rawOpening mark count ++ body) = [⟨k, rawOpening mark count ++ body⟩] := by
  have hne (s : List Char) : rawOpening mark count ++ s ≠ [] := by simp [rawOpening]
  constructor
  · intro rest
    have hfirst := first_raw hk count (body ++ (terminator count ++ rest))
    rw [rawStringLength_body h, Nat.zero_add, ← List.length_append] at hfirst
    rw [← List.append_assoc body, ← List.append_assoc] at hfirst ⊢
    exact tokenize_of_first (hne _) hfirst
  · have hfirst := first_raw hk count body
    rw [rawStringLength_open h, Nat.zero_add, ← List.length_append] at hfirst
    have htokens := tokenize_of_first (s := []) (hne body) (by rwa [List.append_nil])
    rwa [List.append_nil, tokenize_nil] at htokens

/-- Quotes with fewer than two hashes behind them, one of them last. -/
def hashedBody : List Char := ['"', '#', '\\', '\n', '/', '*', '"']

theorem rawString_extent_hashes :
    Kind.rawByteStr.rawMark? = some ['b', 'r'] ∧ ¬ terminator 2 <:+: hashedBody ∧
      tokenize (rawOpening ['b', 'r'] 2 ++ (hashedBody ++ (terminator 2 ++ ['#', 'x']))) =
        ⟨.rawByteStr, rawOpening ['b', 'r'] 2 ++ (hashedBody ++ terminator 2)⟩ ::
          tokenize ['#', 'x'] ∧
      tokenize (rawOpening ['b', 'r'] 2 ++ hashedBody) =
        [⟨.rawByteStr, rawOpening ['b', 'r'] 2 ++ hashedBody⟩] := by
  have hnone : ¬ terminator 2 <:+: hashedBody := by decide
  obtain ⟨hclosed, hopen⟩ := rawString_extent (k := .rawByteStr) rfl 2 hnone
  exact ⟨rfl, hnone, hclosed _, hopen⟩

end MacroBridge
