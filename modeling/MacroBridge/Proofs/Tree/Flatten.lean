import MacroBridge.Proofs.Token.Cursor
import MacroBridge.Tree.Builder

/-!
A tree read back as text. The builder neither drops nor repeats a token: the tree reads as the
tokens of the source, with the brackets that the source left open closed at its end.
-/
namespace MacroBridge

def Leaf.text : Leaf → List Char
  | literal l => l.text.toList
  | punct p => [p.char]
  | ident i => i.text.toList

/-- What is to be read at a station of the walk through a tree. -/
def Visit.text : Visit → List Char
  | enter (some d) => [d.bracket.openChar]
  | leave (some d) => [d.bracket.closeChar]
  | leaf l => l.text
  | _ => []

/-- The text of trees in their order. -/
def TokenTree.flattenAll (ts : List TokenTree) : List Char :=
  ts.flatMap fun t => t.visits.flatMap Visit.text

/-- The text of a group: opening bracket, children in order, closing bracket. -/
def Subtree.flatten (s : Subtree) : List Char := s.visits.flatMap Visit.text

/-- Brackets open behind a token in front of which those of `stack` are open, the innermost first.
A closing bracket closes the innermost group if it is of its form, and none otherwise. -/
def openBehind (stack : List Bracket) (t : Token) : List Bracket :=
  match t.kind with
  | .opening b => b :: stack
  | .closing b => if stack.head? = some b then stack.tail else stack
  | _ => stack

/-- Brackets open behind all of the tokens. -/
def openAfter (stack : List Bracket) (ts : List Token) : List Bracket := ts.foldl openBehind stack

@[simp] theorem openAfter_nil (stack : List Bracket) : openAfter stack [] = stack := rfl

@[simp] theorem openAfter_cons (stack : List Bracket) (t : Token) (ts : List Token) :
    openAfter stack (t :: ts) = openAfter (openBehind stack t) ts := rfl

theorem openAfter_append (stack : List Bracket) (ts us : List Token) :
    openAfter stack (ts ++ us) = openAfter (openAfter stack ts) us := List.foldl_append

/-- The token that closes the innermost of the open groups. -/
def closerOf (stack : List Bracket) : Option Kind := stack.head?.map Kind.closing

/-- A token that neither opens a group nor closes the innermost one. -/
def Token.Stays (stack : List Bracket) (t : Token) : Prop :=
  (∀ b, t.kind ≠ .opening b) ∧ closerOf stack ≠ some t.kind

theorem Token.stays_of_isPlain {t : Token} (h : t.kind.IsPlain) (stack : List Bracket) :
    t.Stays stack := by
  refine ⟨fun b => (h.2 b).1, fun hc => ?_⟩
  obtain ⟨b, -, hb⟩ := Option.map_eq_some_iff.mp hc
  exact (h.2 b).2 hb.symm

theorem openBehind_eq {stack : List Bracket} {t : Token} (h : t.Stays stack) :
    openBehind stack t = stack := by
  unfold openBehind
  split
  · next b hb => exact absurd hb (h.1 b)
  · next b hb =>
    rw [if_neg]
    intro hhead
    exact h.2 (by rw [closerOf, hhead, hb]; rfl)
  · rfl

/-- Such tokens leave open what is open. -/
theorem openAfter_eq {stack : List Bracket} {ts : List Token} (h : ∀ t ∈ ts, t.Stays stack) :
    openAfter stack ts = stack := by
  induction ts with
  | nil => rfl
  | cons t ts ih =>
    obtain ⟨ht, hts⟩ := List.forall_mem_cons.mp h
    rw [openAfter_cons, openBehind_eq ht, ih hts]

/-! ### Texts of trees -/

namespace TokenTree

@[simp] theorem flattenAll_nil : flattenAll [] = [] := rfl

@[simp] theorem flattenAll_append (ts us : List TokenTree) :
    flattenAll (ts ++ us) = flattenAll ts ++ flattenAll us :=
  List.flatMap_append

@[simp] theorem flattenAll_leaves (ls : List Leaf) :
    flattenAll (ls.map .leaf) = ls.flatMap Leaf.text := by
  induction ls with
  | nil => rfl
  | cons l ls ih =>
    rw [flattenAll, List.map_cons, List.flatMap_cons, ← flattenAll, ih, visits_leaf,
      List.flatMap_singleton]
    rfl

theorem flattenAll_leaf (l : Leaf) : flattenAll [.leaf l] = l.text := by
  simpa using flattenAll_leaves [l]

theorem flattenAll_group (d : Option Delimiter) (ts : List TokenTree) :
    flattenAll [group d ts] = Visit.text (.enter d) ++ flattenAll ts ++ Visit.text (.leave d) := by
  simp [flattenAll, visits_group, List.flatMap_assoc]

end TokenTree

open TokenTree (flattenAll)

theorem Subtree.flatten_eq (s : Subtree) :
    s.flatten = Visit.text (.enter s.delimiter) ++ flattenAll s.children ++
      Visit.text (.leave s.delimiter) := by
  rw [← TokenTree.flattenAll_group]
  simp [Subtree.flatten, Subtree.visits, Subtree.toTree, flattenAll]

namespace Builder

theorem flatten_rootOf (options : ParseOptions) (ts : List TokenTree) :
    (rootOf options ts).flatten = flattenAll ts := by
  have hroot : (Subtree.mk none ts).flatten = flattenAll ts := by
    rw [Subtree.flatten_eq]
    simp [Visit.text]
  unfold rootOf
  split
  · next d cs =>
    split_ifs
    · rw [Subtree.flatten_eq, TokenTree.flattenAll_group]
    · exact hroot
  · exact hroot

theorem flattenAll_puncts (last : Spacing) (next : TokenId) (s : List Char) :
    (puncts last next s).flatMap Leaf.text = s := by
  fun_induction puncts last next s with
  | case1 => rfl
  | case2 => rfl
  | case3 next c s hs ih => rw [List.flatMap_cons, ih]; rfl

/-- Punctuation on which the rest of its token follows, if there is a rest. -/
theorem puncts_eq_append {last : Spacing} {next : TokenId} {s : List Char}
    {before after : List Leaf} {l : Leaf} (h : puncts last next s = before ++ l :: after) :
    ∃ p b n, l = .punct p ∧ s = before.flatMap Leaf.text ++ p.char :: b ∧ after = puncts last n b ∧
      p.spacing = if b = [] then last else .joint := by
  fun_induction puncts last next s generalizing before with
  | case1 => simp at h
  | case2 next c =>
    obtain ⟨rfl, rfl, rfl⟩ : before = [] ∧ l = .punct ⟨c, last, next⟩ ∧ after = [] := by
      cases before <;> simp_all
    exact ⟨_, [], next, rfl, rfl, rfl, rfl⟩
  | case3 next c s hs ih =>
    cases before with
    | nil =>
      obtain ⟨rfl, rfl⟩ := List.cons.inj h
      exact ⟨_, s, next + 1, rfl, rfl, rfl, (if_neg hs).symm⟩
    | cons l' before =>
      obtain ⟨rfl, hrest⟩ := List.cons.inj h
      obtain ⟨p, b, n, rfl, rfl, rfl, hp⟩ := ih hrest
      exact ⟨p, b, n, rfl, rfl, rfl, hp⟩

theorem exists_puncts_cons (last : Spacing) (next : TokenId) (c : Char) (s : List Char) :
    ∃ p ls, puncts last next (c :: s) = .punct p :: ls ∧ p.char = c := by
  cases s with
  | nil => exact ⟨_, _, rfl, rfl⟩
  | cons d s => exact ⟨_, _, rfl, rfl⟩

theorem mem_puncts {last : Spacing} {next : TokenId} {s : List Char} {l : Leaf}
    (h : l ∈ puncts last next s) : ∃ p, l = .punct p := by
  obtain ⟨before, after, heq⟩ := List.append_of_mem h
  obtain ⟨p, -, -, hp, -⟩ := puncts_eq_append heq
  exact ⟨p, hp⟩

/-- The leaves of tokens, with ids from `next` on. A number with a point is one literal, whatever
tokens it has been cut into; any other leaf is of one token. -/
inductive Gives (next : TokenId) : List Token → List Leaf → Prop
  | literal {t : Token} (hk : t.kind.isLiteral = true) :
      Gives next [t] [.literal ⟨String.ofList t.text, next⟩]
  | fraction {t : Token} {ts : List Token} (hk : t.kind = .intNumber) (hts : ts ≠ [])
      (hplain : ∀ u ∈ t :: ts, u.kind.IsPlain)
      (hm : (Fraction.full.alt Fraction.trailing).Matches (Token.sourceOf (t :: ts))) :
      Gives next (t :: ts) [.literal ⟨String.ofList (Token.sourceOf (t :: ts)), next⟩]
  | ident {t : Token} (hk : t.kind.isIdent = true) :
      Gives next [t] [.ident ⟨String.ofList t.text, next⟩]
  | lifetime {t : Token} {name : List Char} (hk : t.kind = .lifetime)
      (ht : t.text = '\'' :: name) :
      Gives next [t] [.punct ⟨'\'', .joint, next⟩, .ident ⟨String.ofList name, next + 1⟩]
  | puncts {t : Token} (hl : t.kind.isLiteral = false) (hi : t.kind.isIdent = false)
      (hlife : t.kind ≠ .lifetime) (ho : ∀ b, t.kind ≠ .opening b) (last : Spacing) :
      Gives next [t] (puncts last next t.text)

theorem Gives.text {next : TokenId} {ts : List Token} {ls : List Leaf} (h : Gives next ts ls) :
    ls.flatMap Leaf.text = Token.sourceOf ts := by
  cases h with
  | literal => simp [Leaf.text, Token.sourceOf]
  | fraction => simp [Leaf.text]
  | ident => simp [Leaf.text, Token.sourceOf]
  | lifetime hk ht => simp [Leaf.text, Token.sourceOf, ht]
  | puncts => rw [flattenAll_puncts]; simp [Token.sourceOf]

theorem leavesAt_ranges (kind : Kind) (c : Cursor) (next : TokenId) :
    (leavesAt kind c next).2.ranges <:+ c.ranges := by
  unfold leavesAt
  dsimp only
  repeat' split
  all_goals first | exact List.suffix_rfl | exact c.ranges_advanceTo _

theorem leavesAt_suffix (kind : Kind) (c : Cursor) (next : TokenId) :
    (leavesAt kind c next).2.tokens <:+ c.tokens :=
  Cursor.suffix_of_ranges (leavesAt_ranges kind c next)

/-- The leaves of the tokens `taken`, which end with the one under the cursor `stop` and leave open
what is open. -/
structure Takes (c stop : Cursor) (next : TokenId) (ls : List Leaf) (taken : List Token) :
    Prop where
  ready : stop.bump.Ready
  tokens : Token.significant c.tokens = taken ++ Token.significant stop.bump.tokens
  gives : Gives next taken ls
  stays : ∀ stack, closerOf stack ≠ c.current → ∀ u ∈ taken, u.Stays stack

variable {c : Cursor} {t : Token} {ts : List Token} {next : TokenId}

/-! ### Leaves of single tokens -/

theorem leavesAt_ident {k : Kind} (hk : k.isIdent = true) :
    leavesAt k c next = ([.ident ⟨String.ofList c.currentText, next⟩], c) := by
  cases k <;> simp [Kind.isIdent] at hk
  rfl

theorem leavesAt_lifetime : leavesAt .lifetime c next =
    ([.punct ⟨'\'', .joint, next⟩, .ident ⟨String.ofList (c.currentText.drop 1), next + 1⟩], c) :=
  rfl

theorem leavesAt_literal {k : Kind} (hk : k.isLiteral = true) (hint : k ≠ .intNumber) :
    leavesAt k c next = ([.literal ⟨String.ofList c.currentText, next⟩], c) := by
  simp [leavesAt, hint, hk]

theorem leavesAt_integer (h : Fraction.length c.rest = none) :
    leavesAt .intNumber c next = ([.literal ⟨String.ofList c.currentText, next⟩], c) := by
  simp [leavesAt, h]

theorem leavesAt_fraction {n : Nat} (hn : Fraction.length c.rest = some n)
    (hlong : c.currentText.length < n) : leavesAt .intNumber c next =
      ([.literal ⟨String.ofList (c.rest.take n), next⟩], c.advanceTo (c.offset + n)) := by
  simp [leavesAt, hn, Nat.not_le.mpr hlong]

theorem leavesAt_puncts {k : Kind} (hl : k.isLiteral = false) (hi : k.isIdent = false)
    (hlife : k ≠ .lifetime) :
    leavesAt k c next = (puncts (lastSpacing c) next c.currentText, c) := by
  have hint : k ≠ .intNumber := by
    rintro rfl
    simp [Kind.isLiteral] at hl
  simp [leavesAt, hint, hl, hi, hlife]

/-- Only a number may take more than its token. -/
theorem leavesAt_stays {k : Kind} (hint : k ≠ .intNumber) : (leavesAt k c next).2 = c := by
  unfold leavesAt
  dsimp only
  rw [if_neg hint]
  repeat' split
  all_goals rfl

/-- Every literal is one leaf. -/
theorem exists_literal {k : Kind} (hk : k.isLiteral = true) (c : Cursor) (next : TokenId) :
    ∃ l, (leavesAt k c next).1 = [.literal l] := by
  by_cases hint : k = .intNumber
  · unfold leavesAt
    simp only [hint, ↓reduceIte]
    split
    · split_ifs
      · exact ⟨_, rfl⟩
      · exact ⟨_, rfl⟩
    · exact ⟨_, rfl⟩
  · exact ⟨_, by rw [leavesAt_literal hk hint]⟩

/-- A token that is no literal gives none. -/
theorem not_literal_of_mem {k : Kind} (hl : k.isLiteral = false) {l : Leaf}
    (h : l ∈ (leavesAt k c next).1) (x : Literal) : l ≠ .literal x := by
  rintro rfl
  cases hi : k.isIdent with
  | true => simp [leavesAt_ident hi] at h
  | false =>
    by_cases hlife : k = .lifetime
    · simp [hlife, leavesAt_lifetime] at h
    · rw [leavesAt_puncts hl hi hlife] at h
      obtain ⟨p, hp⟩ := mem_puncts h
      simp at hp

/-- Right behind joint punctuation there is a token that opens no group and is no literal or
word. -/
theorem exists_joined (ht : c.tokens = t :: ts) (h : lastSpacing c = .joint) :
    ∃ u us, ts = u :: us ∧ c.bump.tokens = u :: us ∧ c.bump.offset = c.offset + t.byteLength ∧
      u.kind.isOpening = false ∧ u.kind.isLiteral = false ∧ u.kind.isIdent = false := by
  cases ts with
  | nil => simp [lastSpacing, Cursor.lookahead, ht] at h
  | cons u us =>
    simp only [lastSpacing, Cursor.lookahead, ht, List.getElem?_cons_succ, List.getElem?_cons_zero,
      Option.map_some] at h
    split_ifs at h with hkind
    simp only [Bool.or_eq_true, not_or, Bool.not_eq_true] at hkind
    obtain ⟨⟨⟨htrivia, hopening⟩, hl⟩, hi⟩ := hkind
    obtain ⟨hu, hoffset⟩ := Cursor.bump_eq ht htrivia
    exact ⟨u, us, rfl, hu, hoffset, hopening, hl, hi⟩

/-! ### What the leaves take -/

/-- The current token is taken by its leaves if it opens no group. -/
theorem takes_one (hc : c.Ready) (ht : c.tokens = t :: ts) (ho : ∀ b, t.kind ≠ .opening b)
    {ls : List Leaf} (hls : Gives next [t] ls) : Takes c c next ls [t] where
  ready := hc.bump
  tokens := by rw [hc.significant_tokens ht, hc.significant_bump ht, List.singleton_append]
  gives := hls
  stays stack hstack := by simpa using ⟨ho, by simpa [Cursor.current, ht] using hstack⟩

/-- The leaves at a token are those of the tokens they take. -/
theorem exists_takes (hc : c.Ready) (ht : c.tokens = t :: ts) (ho : ∀ b, t.kind ≠ .opening b)
    (next : TokenId) :
    ∃ taken, Takes c (leavesAt t.kind c next).2 next (leavesAt t.kind c next).1 taken := by
  have htokens : tokenize c.rest = t :: ts := hc.tokens_eq.symm.trans ht
  have htext := Cursor.currentText_eq ht
  have hone {ls : List Leaf} (hls : Gives next [t] ls) : ∃ taken, Takes c c next ls taken :=
    ⟨[t], takes_one hc ht ho hls⟩
  have hliteral (hk : t.kind.isLiteral = true) :
      Gives next [t] [Leaf.literal ⟨String.ofList c.currentText, next⟩] := htext ▸ .literal hk
  by_cases hint : t.kind = .intNumber
  · cases hn : Fraction.length c.rest with
    | none =>
      rw [hint, leavesAt_integer hn]
      exact hone (hliteral (by rw [hint]; rfl))
    | some n =>
      obtain ⟨used, last, left, hts, hcovers, hready, hland⟩ := hc.advanceTo_fraction ht hint hn
      have hused : c.tokens = (t :: used) ++ last :: left := by rw [ht, hts, List.cons_append]
      have hnone : ∀ u ∈ t :: used ++ [last], u.kind.isTrivia = false :=
        fun u hu => (hcovers.plain u hu).1
      rw [hint, leavesAt_fraction hn (htext ▸ hcovers.length_lt)]
      refine ⟨t :: used ++ [last], hready.bump, ?_, ?_,
        fun stack _ u hu => Token.stays_of_isPlain (hcovers.plain u hu) stack⟩
      · rw [hready.significant_bump hland, ← significant_append hnone, hused, List.append_assoc,
          List.singleton_append]
      · have hm := Fraction.matches_of_length hn
        rw [← hcovers.text] at hm ⊢
        exact .fraction hint (by simp) hcovers.plain hm
  cases hl : t.kind.isLiteral with
  | true =>
    rw [leavesAt_literal hl hint]
    exact hone (hliteral hl)
  | false =>
  cases hi : t.kind.isIdent with
  | true =>
    rw [leavesAt_ident hi]
    exact hone (htext ▸ .ident hi)
  | false =>
  by_cases hlife : t.kind = .lifetime
  · obtain ⟨name, hname⟩ := text_of_lifetime htokens hlife
    rw [hlife, leavesAt_lifetime, htext, hname, List.drop_one, List.tail_cons]
    exact hone (.lifetime hlife hname)
  · rw [leavesAt_puncts hl hi hlife, htext]
    exact hone (.puncts hl hi hlife ho _)

/-- What a run of the builder has done: `consumed` are the tokens it has taken, and `opened` the
groups it has begun that only the end of the source closes. -/
structure Grows (stack : List Bracket) (c : Cursor) (done trees : List TokenTree) (stop : Cursor)
    (consumed : List Token) (opened : List Bracket) : Prop where
  ready : stop.Ready
  tokens : Token.significant c.tokens = consumed ++ Token.significant stop.tokens
  stack_eq : openAfter stack consumed = opened ++ stack
  text : flattenAll trees =
    flattenAll done.reverse ++ Token.sourceOf consumed ++ opened.map Bracket.closeChar
  closed : stop.tokens ≠ [] → opened = [] ∧ stop.current = closerOf stack

variable {stack : List Bracket} {stop : Cursor} {done trees : List TokenTree}
  {consumed : List Token}
  {opened : List Bracket}

theorem grows_nil (hc : c.Ready) (h : c.tokens ≠ [] → c.current = closerOf stack) :
    Grows stack c done done.reverse c [] [] where
  ready := hc
  tokens := rfl
  stack_eq := rfl
  text := by simp [Token.sourceOf]
  closed hne := ⟨rfl, h hne⟩

theorem Takes.grows {mid : Cursor} {ls : List Leaf} {taken : List Token}
    (h : Takes c mid next ls taken) (hclose : closerOf stack ≠ c.current)
    (hg : Grows stack mid.bump (ls.reverse.map .leaf ++ done) trees stop consumed opened) :
    Grows stack c done trees stop (taken ++ consumed) opened where
  ready := hg.ready
  tokens := by rw [h.tokens, hg.tokens, List.append_assoc]
  stack_eq := by rw [openAfter_append, openAfter_eq (h.stays stack hclose), hg.stack_eq]
  text := by
    rw [hg.text, List.reverse_append, ← List.map_reverse, List.reverse_reverse,
      TokenTree.flattenAll_append, TokenTree.flattenAll_leaves, h.gives.text, Token.sourceOf,
      Token.sourceOf, Token.sourceOf, List.flatMap_append, ← List.append_assoc]
  closed := hg.closed

/-- A group closes with the token after its children, or with the source. -/
theorem Grows.group {b : Bracket} {id : TokenId} {mid : Cursor} {children : List TokenTree}
    {inside : List Token} {open' : List Bracket} (hc : c.Ready) (ht : c.tokens = t :: ts)
    (hk : t.kind = .opening b) (hin : Grows (b :: stack) c.bump [] children mid inside open')
    (hg : Grows stack mid.bump (.group (some ⟨id, b⟩) children :: done) trees stop
      consumed opened) :
    ∃ consumed opened, Grows stack c done trees stop consumed opened := by
  have htokens : tokenize c.rest = t :: ts := hc.tokens_eq.symm.trans ht
  have htext : t.text = [b.openChar] := text_of_opening htokens hk
  have hopen : openBehind stack t = b :: stack := by rw [openBehind, hk]
  have hstart : Token.significant c.tokens = t :: (inside ++ Token.significant mid.tokens) := by
    rw [hc.significant_tokens ht, ← hc.significant_bump ht, hin.tokens]
  have hflat : flattenAll trees = flattenAll done.reverse ++ t.text ++ Token.sourceOf inside ++
      open'.map Bracket.closeChar ++ [b.closeChar] ++ Token.sourceOf consumed ++
        opened.map Bracket.closeChar := by
    rw [hg.text, List.reverse_cons, TokenTree.flattenAll_append, TokenTree.flattenAll_group,
      hin.text, htext]
    simp [Visit.text]
  cases hm : mid.tokens with
  | nil =>
    -- The source ends inside the group, and so nothing follows it.
    have hend : consumed = [] ∧ Token.significant stop.tokens = [] := by
      have := hg.tokens
      rw [Cursor.bump_nil hm, hm] at this
      exact List.append_eq_nil_iff.mp this.symm
    obtain ⟨rfl, hstop⟩ := hend
    obtain rfl : opened = [] := by
      have := congrArg List.length hg.stack_eq
      rw [openAfter_nil, List.length_append] at this
      exact List.length_eq_zero_iff.mp (by omega)
    have hnone : stop.tokens = [] := by
      cases hs : stop.tokens with
      | nil => rfl
      | cons u us =>
        rw [hg.ready.significant_tokens hs] at hstop
        simp at hstop
    refine ⟨t :: inside, open' ++ [b], hg.ready, ?_, ?_, ?_, fun hne => absurd hnone hne⟩
    · rw [hstart, hm, hstop]
      simp [Token.significant]
    · rw [openAfter_cons, hopen, hin.stack_eq, List.append_assoc, List.singleton_append]
    · rw [hflat]
      simp [Token.sourceOf]
  | cons u us =>
    obtain ⟨rfl, hcur⟩ := hin.closed (by simp [hm])
    have huk : u.kind = .closing b := by simpa [Cursor.current, hm, closerOf] using hcur
    have hutext : u.text = [b.closeChar] := text_of_closing (hin.ready.tokens_eq.symm.trans hm) huk
    refine ⟨t :: inside ++ u :: consumed, opened, hg.ready, ?_, ?_, ?_, hg.closed⟩
    · rw [hstart, hin.ready.significant_tokens hm, ← hin.ready.significant_bump hm, hg.tokens]
      simp
    · have hback : openBehind (b :: stack) u = stack := by simp [openBehind, huk]
      rw [List.cons_append, openAfter_cons, hopen, openAfter_append, hin.stack_eq, List.nil_append,
        openAfter_cons, hback, hg.stack_eq]
    · rw [hflat]
      simp [Token.sourceOf, hutext]

theorem grow_spec (bound : Nat) (stack : List Bracket) (close : Option Kind) (c : Cursor)
    (next : TokenId) (done : List TokenTree) (h : c.tokens.length ≤ bound) (hc : c.Ready)
    (hclose : close = closerOf stack) :
    ∃ consumed opened, Grows stack c done (grow bound close c next done h).trees
      (grow bound close c next done h).cursor consumed opened := by
  fun_induction grow bound close c next done h generalizing stack with
  | case1 bound close c next done h hn => exact ⟨[], [], grows_nil hc fun hne => absurd hn hne⟩
  | case2 bound c next done h t ts ht hne =>
    exact ⟨[], [], grows_nil hc fun _ => (Cursor.current_eq ht).trans hclose⟩
  | case3 bound close c next done h t ts ht hne hopen b hk inner hle hlt ih₃ ih₂ ih₁ =>
    obtain ⟨inside, open', hin⟩ := ih₂ (b :: stack) hc.bump rfl
    obtain ⟨consumed, opened, hg⟩ := ih₁ stack hin.ready.bump hclose
    exact hin.group hc ht hk hg
  | case4 bound close c next done h t ts ht hne hopen ho leaves hle hlt ih =>
    obtain ⟨taken, htakes⟩ := exists_takes hc ht ho next
    obtain ⟨consumed, opened, hg⟩ := ih stack htakes.ready hclose
    refine ⟨taken ++ consumed, opened, htakes.grows ?_ hg⟩
    simpa [Cursor.current, ht, ← hclose] using hopen

end Builder

open Builder in
/-- The tree of a source reads as its tokens other than trivia, in order, and then closes the
groups that the source leaves open, the innermost first. -/
theorem flatten_ofSource (source : List Char) (options : ParseOptions) :
    (Subtree.ofSource source options).flatten =
      Token.sourceOf (Token.significant (tokenize source)) ++
        (openAfter [] (Token.significant (tokenize source))).map Bracket.closeChar := by
  obtain ⟨hready, hsame⟩ := Cursor.ofSource_spec source
  obtain ⟨consumed, opened, hg⟩ := grow_spec (Cursor.ofSource source).tokens.length [] none
    (Cursor.ofSource source) 0 [] (Nat.le_refl _) hready rfl
  have hend : Token.significant (tokenize source) = consumed := by
    -- No token closes the root, so the builder stops at the end of the source only.
    cases hs : (grow (Cursor.ofSource source).tokens.length none (Cursor.ofSource source) 0 []
      (Nat.le_refl _)).cursor.tokens with
    | nil => rw [← hsame, hg.tokens, hs, Token.significant, List.filter_nil, List.append_nil]
    | cons t ts =>
      obtain ⟨-, hcur⟩ := hg.closed (by simp [hs])
      simp [Cursor.current, hs, closerOf] at hcur
  rw [Subtree.ofSource, Cursor.parse, flatten_rootOf, hg.text, hend, hg.stack_eq]
  simp

end MacroBridge
