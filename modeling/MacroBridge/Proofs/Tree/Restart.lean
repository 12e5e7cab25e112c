import MacroBridge.Proofs.Tree.Prolonged

/-!
The builder begins at any token of a source as it does at the beginning of what is left there, and
it passes each token that is left once.

What is passed is seen in a builder with a log, which is the builder once the log is left out.
-/
namespace MacroBridge

namespace Cursor

/-- The cursor stands in the source where its text begins. -/
def StandsIn (source : List Char) (c : Cursor) : Prop :=
  ∃ before, source = before ++ c.rest ∧ Utf8.byteLength before = c.offset

variable {c c' c'' : Cursor} {t : Token} {ts log log' : List Token} {source : List Char}

theorem StandsIn.dropFirst (h : c.StandsIn source) : c.dropFirst.StandsIn source := by
  cases ht : c.tokens with
  | nil =>
    unfold Cursor.dropFirst
    split
    · exact h
    · next hn => simp [hn] at ht
  | cons t ts =>
    obtain ⟨before, hsource, hbefore⟩ := h
    obtain ⟨-, hrest, hoffset⟩ := dropFirst_cons ht
    have htext : c.rest = t.text ++ Token.sourceOf ts := by rw [c.rest_eq, ht]; rfl
    refine ⟨before ++ t.text, ?_, ?_⟩
    · rw [hrest, htext, List.drop_left, List.append_assoc, ← htext, hsource]
    · rw [hoffset, Utf8.byteLength_append, hbefore, Token.byteLength]

theorem StandsIn.skipTrivia (h : c.StandsIn source) : c.skipTrivia.StandsIn source := by
  fun_induction Cursor.skipTrivia c with
  | case1 c hc ih => exact ih h.dropFirst
  | case2 c hc => exact h

theorem StandsIn.bump (h : c.StandsIn source) : c.bump.StandsIn source := by
  cases ht : c.tokens with
  | nil => rwa [bump_nil ht]
  | cons t ts =>
    rw [bump_cons ht]
    exact h.dropFirst.skipTrivia

theorem StandsIn.bumpTimes (h : c.StandsIn source) (n : Nat) :
    (c.bumpTimes n).StandsIn source := by
  induction n generalizing c with
  | zero => exact h
  | succ n ih => exact ih h.bump

theorem standsIn_ofSource (source : List Char) : (ofSource source).StandsIn source := by
  rw [ofSource_eq]
  exact StandsIn.skipTrivia ⟨[], rfl, rfl⟩

theorem Ready.bumpTimes (h : c.Ready) (n : Nat) : (c.bumpTimes n).Ready := by
  induction n generalizing c with
  | zero => exact h
  | succ n ih => exact ih h.bump

theorem bumpTimes_add (c : Cursor) (m n : Nat) :
    c.bumpTimes (m + n) = (c.bumpTimes m).bumpTimes n := by
  induction m generalizing c with
  | zero => rw [Nat.zero_add, Cursor.bumpTimes]
  | succ m ih => rw [Nat.add_right_comm, Cursor.bumpTimes, ih, Cursor.bumpTimes]

/-! ### Bumps -/

/-- The token under the cursor, if there is one. -/
def here (c : Cursor) : List Token := c.tokens.head?.toList

/-- From one cursor to another with bumps over the tokens of `log`, which are all that the second
has left behind. -/
structure Walks (c : Cursor) (log : List Token) (c' : Cursor) : Prop where
  ready : c'.Ready
  tokens : Token.significant c.tokens = log ++ Token.significant c'.tokens
  bumps : c' = c.bumpTimes log.length

theorem Walks.trans (h : c.Walks log c') (h' : c'.Walks log' c'') : c.Walks (log ++ log') c'' where
  ready := h'.ready
  tokens := by rw [h.tokens, h'.tokens, List.append_assoc]
  bumps := by rw [h'.bumps, h.bumps, List.length_append, bumpTimes_add]

/-- An advance with the tokens under the cursor at each of its bumps. -/
def advanceToLogged (stop : Nat) (c : Cursor) : Cursor × List Token :=
  if c.tokens.isEmpty then (c, [])
  else if c.currentStop < stop then
    let behind := c.bump.advanceToLogged stop
    (behind.1, c.here ++ behind.2)
  else (c, [])
  termination_by c.tokens.length
  decreasing_by
    rename_i h _
    exact length_bump_lt (by simpa using h)

@[simp] theorem advanceToLogged_value (stop : Nat) (c : Cursor) :
    (c.advanceToLogged stop).1 = c.advanceTo stop := by
  fun_induction advanceToLogged stop c with
  | case1 c hn => rw [advanceTo, if_pos hn]
  | case2 c hn hlt behind ih => rw [advanceTo, if_neg hn, if_pos hlt, ih]
  | case3 c hn hlt => rw [advanceTo, if_neg hn, if_neg hlt]

end Cursor

namespace Builder

variable {bound : Nat} {close : Option Kind} {c : Cursor}

/-- The leaves at a token, with the tokens under the cursor at each bump that is made for them.
Only an integer is followed by tokens of its own literal. -/
def leavesAtLogged (kind : Kind) (c : Cursor) (next : TokenId) :
    (List Leaf × Cursor) × List Token :=
  if kind = .intNumber then
    let literal (text : List Char) : Leaf := .literal ⟨String.ofList text, next⟩
    match Fraction.length c.rest with
    | some n =>
        if n ≤ c.currentText.length then (([literal c.currentText], c), [])
        else
          let stand := c.advanceToLogged (c.offset + n)
          (([literal (c.rest.take n)], stand.1), stand.2)
    | none => (([literal c.currentText], c), [])
  else (leavesAt kind c next, [])

@[simp] theorem leavesAtLogged_value (kind : Kind) (c : Cursor) (next : TokenId) :
    (leavesAtLogged kind c next).1 = leavesAt kind c next := by
  unfold leavesAtLogged
  split_ifs with hint
  · subst hint
    cases hn : Fraction.length c.rest with
    | none => simp [leavesAt, hn]
    | some n =>
      simp only [leavesAt, hn, if_true]
      split_ifs
      · rfl
      · rw [Cursor.advanceToLogged_value]
  · rfl

/-- The builder with the tokens under the cursor at each of its bumps. A bump at the end has
none. -/
def growLogged (bound : Nat) (close : Option Kind) (c : Cursor) (next : TokenId)
    (done : List TokenTree) (h : c.tokens.length ≤ bound) : Grown bound × List Token :=
  match hc : c.tokens with
  | [] => (⟨done.reverse, c, next, h⟩, [])
  | t :: _ =>
      have hne : c.tokens ≠ [] := fun h => List.cons_ne_nil _ _ (hc.symm.trans h)
      if close = some t.kind then (⟨done.reverse, c, next, h⟩, [])
      else
        match t.kind with
        | .opening b =>
            let inner := growLogged c.bump.tokens.length (some (.closing b)) c.bump (next + 1) []
              (Nat.le_refl _)
            have hle : inner.1.cursor.bump.tokens.length ≤ c.bump.tokens.length :=
              Nat.le_trans inner.1.cursor.length_bump_le
                (Nat.le_trans (Nat.sub_le _ _) inner.1.length_le)
            have hlt : inner.1.cursor.bump.tokens.length < c.tokens.length :=
              Nat.lt_of_le_of_lt hle (Cursor.length_bump_lt hne)
            let behind := growLogged bound close inner.1.cursor.bump inner.1.next
              (.group (some ⟨next, b⟩) inner.1.trees :: done) (Nat.le_trans (Nat.le_of_lt hlt) h)
            (behind.1, c.here ++ (inner.2 ++ (inner.1.cursor.here ++ behind.2)))
        | kind =>
            let leaves := leavesAtLogged kind c next
            have hle : leaves.1.2.bump.tokens.length ≤ c.tokens.length - 1 :=
              Nat.le_trans leaves.1.2.length_bump_le
                (Nat.sub_le_sub_right
                  (leavesAtLogged_value kind c next ▸ length_leavesAt_le kind c next) 1)
            have hlt : leaves.1.2.bump.tokens.length < c.tokens.length :=
              Nat.lt_of_le_of_lt hle (Nat.sub_lt (List.length_pos_iff.mpr hne) Nat.one_pos)
            let behind := growLogged bound close leaves.1.2.bump
              (next + leaves.1.1.length.toUInt32) (leaves.1.1.reverse.map .leaf ++ done)
              (Nat.le_trans (Nat.le_of_lt hlt) h)
            (behind.1, leaves.2 ++ (leaves.1.2.here ++ behind.2))
  termination_by c.tokens.length
  decreasing_by
    · exact Cursor.length_bump_lt hne
    · exact hlt
    · exact hlt

/-- The tokens under the cursor at each bump that the builder makes. -/
def passed (close : Option Kind) (c : Cursor) (next : TokenId) : List Token :=
  let bound := c.tokens.length
  (growLogged bound close c next [] (Nat.le_refl bound)).2

end Builder

open Builder

end MacroBridge
