import MacroBridge.Proofs.Tree.Built

/-!
Where the leaves of a tree stand in its source. What the tree reads in front of a leaf is what the
source reads, without its trivia, in front of the token that the leaf is of.
-/
namespace MacroBridge

/-- A character of a token that is no trivia: the kind of the token, and the byte at which the
character starts. -/
structure SourceChar where
  kind : Kind
  char : Char
  start : Nat

namespace SourceChar

/-- The characters of a text in a token, from byte `start` on. -/
def spread (kind : Kind) : (start : Nat) → List Char → List SourceChar
  | _, [] => []
  | start, c :: s => ⟨kind, c, start⟩ :: spread kind (start + Utf8.charLength c) s

theorem chars_spread (kind : Kind) (start : Nat) (s : List Char) :
    (spread kind start s).map char = s := by
  induction s generalizing start with
  | nil => rfl
  | cons c s ih => rw [spread, List.map_cons, ih]

theorem spread_append (kind : Kind) (start : Nat) (s w : List Char) :
    spread kind start (s ++ w) =
      spread kind start s ++ spread kind (start + Utf8.byteLength s) w := by
  induction s generalizing start with
  | nil => simp [spread, Utf8.byteLength]
  | cons c s ih =>
    rw [List.cons_append, spread, spread, ih, Utf8.byteLength_cons, Nat.add_assoc,
      List.cons_append]

end SourceChar

/-- The characters of tokens at their ranges, without those of trivia. -/
def Token.places (rs : List (Token × Nat × Nat)) : List SourceChar :=
  rs.flatMap fun r => if r.1.kind.isTrivia then [] else SourceChar.spread r.1.kind r.2.1 r.1.text

namespace Token
variable {t : Token} {start stop : Nat} {rs : List (Token × Nat × Nat)}

theorem places_append (rs rs' : List (Token × Nat × Nat)) :
    places (rs ++ rs') = places rs ++ places rs' :=
  List.flatMap_append

theorem places_trivia (h : t.kind.isTrivia = true) :
    places ((t, start, stop) :: rs) = places rs := by
  simp [places, h]

theorem places_cons (h : t.kind.isTrivia = false) :
    places ((t, start, stop) :: rs) = SourceChar.spread t.kind start t.text ++ places rs := by
  simp [places, h]

theorem chars_places (rs : List (Token × Nat × Nat)) :
    (places rs).map SourceChar.char = sourceOf (significant (rs.map Prod.fst)) := by
  induction rs with
  | nil => rfl
  | cons r rs ih =>
    obtain ⟨t, start, stop⟩ := r
    cases h : t.kind.isTrivia with
    | true => simpa [places_trivia h, significant, h] using ih
    | false =>
      rw [places_cons h, List.map_append, SourceChar.chars_spread, ih, List.map_cons,
        significant_cons h]
      rfl

end Token

namespace Cursor
variable {c c' c'' : Cursor} {s s' : List Char} {t : Token} {ts : List Token}

theorem places_skipTrivia (c : Cursor) :
    Token.places c.skipTrivia.ranges = Token.places c.ranges := by
  fun_induction skipTrivia c with
  | case1 c hc ih =>
    obtain ⟨t, ts, ht⟩ := List.exists_cons_of_ne_nil (tokens_ne_nil_of_atTrivia hc)
    rw [ih, ranges_cons ht, Token.places_trivia (by rwa [← atTrivia_eq ht])]
  | case2 c hc => rfl

/-- The characters ahead are those of the current token and those ahead behind it. -/
theorem Ready.places_eq (h : c.Ready) (ht : c.tokens = t :: ts) :
    Token.places c.ranges = SourceChar.spread t.kind c.offset t.text ++
      Token.places c.bump.ranges := by
  rw [ranges_cons ht, Token.places_cons ((atTrivia_eq ht).symm.trans h.atTrivia), bump_cons ht,
    places_skipTrivia]

/-- The tokens between two cursors read, without trivia, as `s`. -/
def Passes (c c' : Cursor) (s : List Char) : Prop :=
  ∃ mid, c.ranges = mid ++ c'.ranges ∧ (Token.places mid).map SourceChar.char = s

theorem passes_refl (c : Cursor) : c.Passes c [] := ⟨[], rfl, rfl⟩

theorem Passes.trans (h : c.Passes c' s) (h' : c'.Passes c'' s') : c.Passes c'' (s ++ s') := by
  obtain ⟨mid, hmid, rfl⟩ := h
  obtain ⟨mid', hmid', rfl⟩ := h'
  exact ⟨mid ++ mid', by rw [hmid, hmid', List.append_assoc],
    by rw [Token.places_append, List.map_append]⟩

theorem passes_of_significant (h : c'.ranges <:+ c.ranges) {used : List Token}
    (hs : Token.significant c.tokens = used ++ Token.significant c'.tokens) :
    c.Passes c' (Token.sourceOf used) := by
  obtain ⟨mid, hmid⟩ := h
  refine ⟨mid, hmid.symm, ?_⟩
  have htokens : c.tokens = mid.map Prod.fst ++ c'.tokens := by
    have := congrArg (List.map Prod.fst) hmid
    rwa [List.map_append, ranges, ranges, fst_withRanges, fst_withRanges, eq_comm] at this
  have hused : Token.significant (mid.map Prod.fst) = used := by
    rw [htokens, Token.significant, List.filter_append] at hs
    exact List.append_cancel_right hs
  rw [Token.chars_places, hused]

theorem Ready.passes_bump (h : c.Ready) (ht : c.tokens = t :: ts) : c.Passes c.bump t.text := by
  have hs : Token.significant c.tokens = [t] ++ Token.significant c.bump.tokens := by
    rw [h.significant_tokens ht, h.significant_bump ht, List.singleton_append]
  simpa [Token.sourceOf] using passes_of_significant c.ranges_bump hs

theorem passes_skipTrivia (h : c.tokens = tokenize c.rest) : c.Passes c.skipTrivia [] := by
  have hs : Token.significant c.tokens = [] ++ Token.significant c.skipTrivia.tokens :=
    (skipTrivia_spec h).2.symm
  exact passes_of_significant c.ranges_skipTrivia hs

theorem Passes.tokens (h : c.Passes c' s) :
    ∃ front, c.tokens = front ++ c'.tokens ∧ Token.sourceOf (Token.significant front) = s := by
  obtain ⟨mid, hmid, rfl⟩ := h
  refine ⟨mid.map Prod.fst, ?_, (Token.chars_places mid).symm⟩
  have hmap := congrArg (List.map Prod.fst) hmid
  rwa [List.map_append, ranges, ranges, fst_withRanges, fst_withRanges] at hmap

end Cursor

/-! ### Places in a tree -/

/-- A spot among the children of a group: what the trees read in front of it, the delimiter of the
group, and the children from there on. -/
inductive TokenTree.Spot :
    (d : Option Delimiter) → List TokenTree → List Char → Option Delimiter → List TokenTree → Prop
  | here {d : Option Delimiter} {ts : List TokenTree} : Spot d ts [] d ts
  | behind {d e : Option Delimiter} {t : TokenTree} {ts rest : List TokenTree} {s : List Char}
      (h : Spot d ts s e rest) : Spot d (t :: ts) (flattenAll [t] ++ s) e rest
  | inside {d d' e : Option Delimiter} {cs ts rest : List TokenTree} {s : List Char}
      (h : Spot d' cs s e rest) :
      Spot d (.group d' cs :: ts) (Visit.text (.enter d') ++ s) e rest

/-- A spot in a tree. -/
def Subtree.Spot (t : Subtree) : List Char → Option Delimiter → List TokenTree → Prop :=
  TokenTree.Spot none [t.toTree]

namespace TokenTree

mutual

theorem exists_spot_of_mem {l : Leaf} (d : Option Delimiter) (t : TokenTree) (ts : List TokenTree)
    (h : Visit.leaf l ∈ t.visits) : ∃ s e later, Spot d (t :: ts) s e (.leaf l :: later) := by
  cases t with
  | leaf l' =>
    obtain rfl : l = l' := by simpa using h
    exact ⟨[], d, ts, .here⟩
  | group d' cs =>
    obtain ⟨s, e, later, hspot⟩ := exists_spot_of_mem_all d' cs (by simpa using h)
    exact ⟨_, e, later, .inside hspot⟩

theorem exists_spot_of_mem_all {l : Leaf} (d : Option Delimiter) (ts : List TokenTree)
    (h : Visit.leaf l ∈ ts.flatMap visits) : ∃ s e later, Spot d ts s e (.leaf l :: later) := by
  cases ts with
  | nil => simp at h
  | cons t ts =>
    rcases List.mem_append.mp (List.flatMap_cons ▸ h) with ht | hts
    · exact exists_spot_of_mem d t ts ht
    · obtain ⟨s, e, later, hspot⟩ := exists_spot_of_mem_all d ts hts
      exact ⟨_, e, later, .behind hspot⟩

end

end TokenTree

/-- Every leaf of a tree is at a spot of it. -/
theorem Subtree.exists_spot {t : Subtree} {l : Leaf} (h : Visit.leaf l ∈ t.visits) :
    ∃ s d later, t.Spot s d (.leaf l :: later) :=
  TokenTree.exists_spot_of_mem none t.toTree [] h

namespace Builder
open TokenTree (Spot)
variable {d e : Option Delimiter} {s : List Char} {l : Leaf} {later trees : List TokenTree}

theorem spot_rootOf {options : ParseOptions} :
    (rootOf options trees).Spot s e (.leaf l :: later) ↔
    Spot none trees s e (.leaf l :: later) := by
  have hroot : (Subtree.mk none trees).Spot s e (.leaf l :: later) ↔
      Spot none trees s e (.leaf l :: later) := by
    constructor
    · rintro (_ | h | h)
      · nomatch h
      · exact h
    · exact .inside
  unfold rootOf
  split
  · split_ifs
    · rfl
    · exact hroot
  · exact hroot

/-- A spot in front of a leaf, if some leaves are the first trees, is among them or behind them. -/
theorem spot_leaves {ls : List Leaf} (h : Spot d (ls.map .leaf ++ trees) s e (.leaf l :: later)) :
    (∃ before after, ls = before ++ l :: after ∧ s = before.flatMap Leaf.text ∧ e = d ∧
      later = after.map .leaf ++ trees) ∨
    ∃ s', s = ls.flatMap Leaf.text ++ s' ∧ Spot d trees s' e (.leaf l :: later) := by
  induction ls generalizing s with
  | nil => exact .inr ⟨s, rfl, h⟩
  | cons l' ls ih =>
    rw [List.map_cons, List.cons_append] at h
    cases h with
    | here => exact .inl ⟨[], ls, rfl, rfl, rfl, rfl⟩
    | behind h =>
      rw [TokenTree.flattenAll_leaf]
      rcases ih h with ⟨before, after, rfl, rfl, rfl, rfl⟩ | ⟨s', rfl, h'⟩
      · exact .inl ⟨l' :: before, after, rfl, rfl, rfl, rfl⟩
      · exact .inr ⟨s', by simp, h'⟩

theorem spot_behind_leaves {ls : List Leaf} {rest : List TokenTree} (h : Spot d trees s e rest) :
    Spot d (ls.map .leaf ++ trees) (ls.flatMap Leaf.text ++ s) e rest := by
  induction ls with
  | nil => exact h
  | cons l ls ih =>
    rw [List.map_cons, List.cons_append, List.flatMap_cons, List.append_assoc,
      ← TokenTree.flattenAll_leaf]
    exact .behind ih

variable {stack : List Bracket} {c c' c'' mid stop : Cursor} {next last : TokenId}
  {taken : List Token} {ls : List Leaf}

theorem Takes.passes (h : Takes c mid next ls taken) (hmid : mid.ranges <:+ c.ranges) :
    c.Passes mid.bump (ls.flatMap Leaf.text) := by
  rw [h.gives.text]
  exact Cursor.passes_of_significant (mid.ranges_bump.trans hmid) h.tokens

/-- The text of a group that the source closes. -/
theorem passes_group {b : Bracket} {children : List TokenTree} {t : Token} {ts : List Token}
    (hc : c.Ready) (ht : c.tokens = t :: ts) (hk : t.kind = .opening b)
    (hin : Built (b :: stack) c.bump (next + 1) children mid last) (hmid : mid.tokens ≠ [])
    (hpass : c.bump.Passes mid (TokenTree.flattenAll children)) :
    c.Passes mid.bump (TokenTree.flattenAll [.group (some ⟨next, b⟩) children]) := by
  obtain ⟨hready, hcloses⟩ := hin.ready hc.bump
  obtain ⟨u, us, hu⟩ := List.exists_cons_of_ne_nil hmid
  have huk : u.kind = .closing b := by simpa [Cursor.current, hu, closerOf] using hcloses hmid
  have hfront := (hc.passes_bump ht).trans (hpass.trans (hready.passes_bump hu))
  rw [text_of_opening (hc.tokens_eq.symm.trans ht) hk,
    text_of_closing (hready.tokens_eq.symm.trans hu) huk, ← List.append_assoc] at hfront
  rwa [TokenTree.flattenAll_group]

/-- What the builder passes over reads as what it builds, if the source does not end there. -/
theorem Built.passes (h : Built stack c next trees stop last) (hc : c.Ready)
    (hstop : stop.tokens ≠ []) : c.Passes stop (TokenTree.flattenAll trees) := by
  induction h with
  | @stop stack c next h => exact c.passes_refl
  | @group stack c mid stop next between last children trees t ts b ht hk hin hbehind ih₁ ih₂ =>
    have hmid : mid.tokens ≠ [] := by
      intro hnil
      have hsuffix := hbehind.suffix
      rw [Cursor.bump_nil hnil, hnil, List.suffix_nil] at hsuffix
      exact hstop hsuffix
    have hgroup := passes_group hc ht hk hin hmid (ih₁ hc.bump hmid)
    rw [← List.singleton_append, TokenTree.flattenAll_append]
    exact hgroup.trans (ih₂ (hin.ready hc.bump).1.bump hstop)
  | @leaves stack c stop next last trees t ts ht ho hclose hbehind ih =>
    obtain ⟨taken, htakes⟩ := exists_takes hc ht ho next
    rw [TokenTree.flattenAll_append, TokenTree.flattenAll_leaves]
    exact (htakes.passes (leavesAt_ranges _ _ _)).trans (ih htakes.ready hstop)

/-! ### Leaves and the tokens they are of -/

/-- The builder, which starts on `c`, comes to the cursor `c'` when it has built what reads as `s`.
It takes the leaves of the token there and then goes on among the same siblings in a group
delimited by `d`. -/
structure Site (c c' : Cursor) (s : List Char) (d : Option Delimiter) (t : Token) (next : TokenId)
    (later : List TokenTree) : Prop where
  passes : c.Passes c' s
  ready : c'.Ready
  current : ∃ ts, c'.tokens = t :: ts
  opens : ∀ b, t.kind ≠ .opening b
  built : ∃ stack stop last, stack.head? = d.map Delimiter.bracket ∧
    Built stack (leavesAt t.kind c' next).2.bump
      (next + (leavesAt t.kind c' next).1.length.toUInt32) later stop last

variable {t : Token} {ts : List Token}

theorem Site.of_passes {s' : List Char} (h : Site c' c'' s' d t next later)
    (hpass : c.Passes c' s) : Site c c'' (s ++ s') d t next later :=
  { h with passes := hpass.trans h.passes }

/-- A leaf of what is built from `c` on, with what is read in front of it and its later siblings:
it is one of those of a token. -/
inductive Origin (c : Cursor) : List Char → Option Delimiter → Leaf → List TokenTree → Prop
  | mk {c' : Cursor} {s : List Char} {d : Option Delimiter} {t : Token} {next : TokenId}
      {before after : List Leaf} {l : Leaf} {later : List TokenTree}
      (site : Site c c' s d t next later)
      (leaves : (leavesAt t.kind c' next).1 = before ++ l :: after) :
      Origin c (s ++ before.flatMap Leaf.text) d l (after.map .leaf ++ later)

theorem Origin.of_passes {s' : List Char} (h : Origin c' s' d l later) (hpass : c.Passes c' s) :
    Origin c (s ++ s') d l later := by
  cases h with
  | mk site leaves =>
    rw [← List.append_assoc]
    exact .mk (site.of_passes hpass) leaves

/-- Every leaf of what is built comes from a token. -/
theorem Built.origin (h : Built stack c next trees stop last) (hc : c.Ready)
    (hd : stack.head? = d.map Delimiter.bracket) (hs : Spot d trees s e (.leaf l :: later)) :
    Origin c s e l later := by
  induction h generalizing d s with
  | stop => nomatch hs
  | @group stack c mid stop next between last children trees t ts b ht hk hin hbehind ih₁ ih₂ =>
    cases hs with
    | behind hs =>
      have hmid : mid.tokens ≠ [] := by
        intro hnil
        cases hbehind with
        | stop => nomatch hs
        | group ht => simp [Cursor.bump_nil hnil, hnil] at ht
        | leaves ht => simp [Cursor.bump_nil hnil, hnil] at ht
      have hgroup := passes_group hc ht hk hin hmid (hin.passes hc.bump hmid)
      exact (ih₂ (hin.ready hc.bump).1.bump hd hs).of_passes hgroup
    | inside hs =>
      have hopen := hc.passes_bump ht
      rw [text_of_opening (hc.tokens_eq.symm.trans ht) hk] at hopen
      exact (ih₁ hc.bump rfl hs).of_passes hopen
  | @leaves stack c stop next last trees t ts ht ho hclose hbehind ih =>
    rcases spot_leaves hs with ⟨before, after, hls, rfl, rfl, rfl⟩ | ⟨s', rfl, hs'⟩
    · exact .mk ⟨c.passes_refl, hc, ⟨ts, ht⟩, ho, stack, stop, last, hd, hbehind⟩ hls
    · obtain ⟨taken, htakes⟩ := exists_takes hc ht ho next
      exact (ih htakes.ready hd hs').of_passes (htakes.passes (leavesAt_ranges _ _ _))

/-- Every token that is neither trivia nor a bracket is among those that are taken for leaves
somewhere. -/
theorem Built.exists_site {used : List Token} (h : Built stack c next trees stop last)
    (hc : c.Ready) (hd : stack.head? = d.map Delimiter.bracket) (ht : c.tokens = used ++ t :: ts)
    (hstop : stop.tokens <:+ ts) (hplain : t.kind.IsPlain) :
    ∃ c' s e u next' later used', Site c c' s e u next' later ∧
      Spot d trees s e ((leavesAt u.kind c' next').1.map .leaf ++ later) ∧
      c'.tokens = used' ++ t :: ts ∧ (leavesAt u.kind c' next').2.tokens <:+ t :: ts := by
  induction h generalizing d used with
  | @stop stack c next h =>
    have hlen := hstop.length_le
    simp [ht] at hlen
    omega
  | @group stack c mid stop next between last children trees u us b hu hk hin hbehind ih₁ ih₂ =>
    obtain ⟨hready, hcloses⟩ := hin.ready hc.bump
    cases used with
    | nil =>
      obtain ⟨rfl, -⟩ := List.cons.inj (hu.symm.trans ht)
      exact absurd hk (hplain.2 b).1
    | cons u' used =>
      obtain ⟨used, ht'⟩ := Cursor.exists_tokens_bump ht hplain.1
      -- The token is one of those inside the group or behind it, as it is not the closing bracket.
      have hbracket : mid.tokens ≠ t :: ts := by
        intro hmid
        have hcloser := hcloses (by simp [hmid])
        rw [Cursor.current, hmid] at hcloser
        exact (hplain.2 b).2 (Option.some.inj hcloser)
      rcases List.suffix_or_suffix_of_suffix hin.suffix ⟨used, ht'.symm⟩ with hmid | ⟨used', hmid⟩
      · have hinside := (List.suffix_cons_iff.mp hmid).resolve_left hbracket
        obtain ⟨c', s, e, v, next', later, used', hsite, hspot, hsplit⟩ :=
          ih₁ hc.bump (d := some ⟨next, b⟩) rfl ht' hinside
        have hopen := hc.passes_bump hu
        rw [text_of_opening (hc.tokens_eq.symm.trans hu) hk] at hopen
        exact ⟨c', _, e, v, next', later, used', hsite.of_passes hopen, .inside hspot, hsplit⟩
      · cases used' with
        | nil => exact absurd hmid.symm hbracket
        | cons v' used' =>
          obtain ⟨used', hbump⟩ := Cursor.exists_tokens_bump hmid.symm hplain.1
          obtain ⟨c', s, e, v, next', later, used', hsite, hspot, hsplit⟩ :=
            ih₂ hready.bump hd hbump hstop
          have hne : mid.tokens ≠ [] := by simp [← hmid]
          have hgroup := passes_group hc hu hk hin hne (hin.passes hc.bump hne)
          exact ⟨c', _, e, v, next', later, used', hsite.of_passes hgroup, .behind hspot, hsplit⟩
  | @leaves stack c stop next last trees u us hu ho hclose hbehind ih =>
    by_cases hmid : (leavesAt u.kind c next).2.tokens <:+ t :: ts
    · exact ⟨c, [], d, u, next, trees, used,
        ⟨c.passes_refl, hc, ⟨us, hu⟩, ho, stack, stop, last, hd, hbehind⟩, .here, ht, hmid⟩
    · obtain ⟨used', hmid'⟩ :=
        (List.suffix_or_suffix_of_suffix (leavesAt_suffix u.kind c next) ⟨used,
          ht.symm⟩).resolve_left hmid
      cases used' with
      | nil => exact absurd ⟨[], hmid'.symm⟩ hmid
      | cons v' used' =>
        obtain ⟨taken, htakes⟩ := exists_takes hc hu ho next
        obtain ⟨used', hbump⟩ := Cursor.exists_tokens_bump hmid'.symm hplain.1
        obtain ⟨c', s, e, v, next', later, used', hsite, hspot, hsplit⟩ :=
          ih htakes.ready hd hbump hstop
        have hleaves := htakes.passes (leavesAt_ranges u.kind c next)
        exact ⟨c', _, e, v, next', later, used', hsite.of_passes hleaves,
          spot_behind_leaves hspot, hsplit⟩

end Builder

end MacroBridge
