import MacroBridge.Proofs.Token.Comment
import MacroBridge.Proofs.Tree.Numbering
import MacroBridge.Proofs.Tree.Prolonged

/-!
The tree of two sources with a line break between them: behind the trees of the first stand those
of the second, with ids that go on from those of the first.
-/
namespace MacroBridge

/-! ### Ids counted from elsewhere -/

theorem TokenId.add_right_comm (a b c : TokenId) : a + b + c = a + c + b := by
  rw [UInt32.add_assoc, UInt32.add_comm b, ← UInt32.add_assoc]

def Leaf.renumber (n : TokenId) : Leaf → Leaf
  | literal l => literal { l with id := l.id + n }
  | punct p => punct { p with id := p.id + n }
  | ident i => ident { i with id := i.id + n }

def Delimiter.renumber (n : TokenId) (d : Delimiter) : Delimiter := { d with id := d.id + n }

mutual

/-- The tree with every id increased by `n`. -/
def TokenTree.renumber (n : TokenId) : TokenTree → TokenTree
  | leaf l => leaf (l.renumber n)
  | group d cs => group (d.map (Delimiter.renumber n)) (TokenTree.renumberAll n cs)

def TokenTree.renumberAll (n : TokenId) : List TokenTree → List TokenTree
  | [] => []
  | t :: ts => t.renumber n :: TokenTree.renumberAll n ts

end

namespace TokenTree

@[simp] theorem renumberAll_eq (n : TokenId) (ts : List TokenTree) :
    renumberAll n ts = ts.map (renumber n) := by
  induction ts with
  | nil => rw [renumberAll, List.map_nil]
  | cons t ts ih => rw [renumberAll, ih, List.map_cons]

@[simp] theorem renumber_leaf (n : TokenId) (l : Leaf) :
    (leaf l).renumber n = leaf (l.renumber n) := by
  rw [renumber]

@[simp] theorem renumber_group (n : TokenId) (d : Option Delimiter) (cs : List TokenTree) :
    (group d cs).renumber n = group (d.map (Delimiter.renumber n)) (cs.map (renumber n)) := by
  rw [renumber, renumberAll_eq]

theorem map_renumber_leaves (n : TokenId) (ls : List Leaf) :
    (ls.map TokenTree.leaf).map (renumber n) = (ls.map (Leaf.renumber n)).map .leaf := by
  simp

end TokenTree

namespace Builder
variable {stack : List Bracket} {c stop : Cursor} {next last : TokenId} {trees : List TokenTree}

theorem puncts_renumber (spacing : Spacing) (next n : TokenId) (s : List Char) :
    puncts spacing (next + n) s = (puncts spacing next s).map (Leaf.renumber n) := by
  fun_induction puncts spacing next s with
  | case1 => rfl
  | case2 => rfl
  | case3 next c s hs ih =>
    rw [puncts.eq_def]
    cases s with
    | nil => exact absurd rfl hs
    | cons d s =>
      rw [List.map_cons, ← ih, TokenId.add_right_comm]
      rfl

/-- The id that is next moves the ids of leaves and nothing else. -/
theorem leavesAt_renumber (kind : Kind) (c : Cursor) (next n : TokenId) :
    leavesAt kind c (next + n) =
      ((leavesAt kind c next).1.map (Leaf.renumber n), (leavesAt kind c next).2) := by
  unfold leavesAt
  dsimp only
  split_ifs
  · split
    · split_ifs <;> rfl
    · rfl
  · rfl
  · rfl
  · simp [Leaf.renumber, TokenId.add_right_comm]
  · rw [puncts_renumber]

theorem Built.renumber (h : Built stack c next trees stop last) (n : TokenId) :
    Built stack c (next + n) (trees.map (TokenTree.renumber n)) stop (last + n) := by
  induction h with
  | stop h => exact .stop h
  | group ht hk _ _ ih₁ ih₂ =>
    rw [TokenId.add_right_comm] at ih₁
    rw [List.map_cons, TokenTree.renumber_group]
    exact .group ht hk ih₁ ih₂
  | @leaves stack c stop next last trees t ts ht ho hclose _ ih =>
    have hleaves := leavesAt_renumber t.kind c next n
    have hfirst : (leavesAt t.kind c next).1.map (Leaf.renumber n) =
        (leavesAt t.kind c (next + n)).1 := by
      rw [hleaves]
    rw [List.map_append, TokenTree.map_renumber_leaves, hfirst]
    refine .leaves ht ho hclose ?_
    rw [hleaves, List.length_map, TokenId.add_right_comm]
    exact ih

theorem rootOf_uncollapsed (trees : List TokenTree) : rootOf ⟨false⟩ trees = ⟨none, trees⟩ := by
  unfold rootOf
  split <;> rfl

end Builder

open Builder

/-- Two sources that a line break parts have the trees of both, those of the second with ids that
go on from the first, if the first has no unknown token, closes its comments and raw strings and
leaves no group open. -/
theorem children_append {a b : List Char} (hu : ∀ t ∈ tokenize a, t.kind ≠ .unknown)
    (hend : ∀ t ∈ tokenize a, t.IsComplete)
    (hopen : openAfter [] (Token.significant (tokenize a)) = []) :
    let tree (s : List Char) := Subtree.ofSource s ⟨false⟩
    let n := (tree a).ids.length
    (tree (a ++ '\n' :: b)).children =
        (tree a).children ++ (tree b).children.map (TokenTree.renumber n.toUInt32) ∧
      (n + (tree b).ids.length ≤ 2 ^ 32 →
        ∀ id ∈ (tree b).ids, (id + n.toUInt32).toNat = id.toNat + n) := by
  obtain ⟨treesA, stopA, lastA, hbuiltA, hstopA, hrootA⟩ := Subtree.exists_built_ofSource a
  obtain ⟨treesB, stopB, lastB, hbuiltB, hstopB, hrootB⟩ := Subtree.exists_built_ofSource b
  obtain ⟨trees, stop, last, hbuilt, -, hroot⟩ := Subtree.exists_built_ofSource (a ++ '\n' :: b)
  obtain ⟨hreadyA, hsameA⟩ := Cursor.ofSource_spec a
  have hids (s : List Char) {trees : List TokenTree}
      (h : Subtree.ofSource s ⟨false⟩ = rootOf ⟨false⟩ trees) :
      (Subtree.ofSource s ⟨false⟩).ids = TokenTree.idsAll trees := by
    rw [h, (ids_rootOf _ _).1]
  have hcount : (Subtree.ofSource a ⟨false⟩).ids.length = TokenTree.sizeAll treesA := by
    rw [hids a (hrootA _), hbuiltA.ids.1, TokenId.countFrom, List.length_map, List.length_range]
  have hlast : lastA = 0 + (TokenTree.sizeAll treesA).toUInt32 := hbuiltA.ids.2
  dsimp only
  rw [hcount]
  constructor
  · -- The builder goes over the first source as it does without the second, and then over the
    -- second.
    have hprolonged : Cursor.Prolonged (Token.linked (tokenize b)) (Cursor.ofSource a)
        (Cursor.ofSource (a ++ '\n' :: b)) := by
      refine ⟨hreadyA, (Cursor.ofSource_spec _).1, ?_⟩
      rw [Cursor.linked_ofSource, Cursor.linked_ofSource, (shows_append hu hend b).linked_eq]
    obtain ⟨mid, hmid, hmore⟩ := hbuiltA.prolong hprolonged (.inr (by rw [hsameA, hopen]))
    have hlinked : Token.linked mid.tokens = Token.linked (Cursor.ofSource b).tokens := by
      rw [hmid.linked_eq, hstopA, Cursor.linked_ofSource, Token.linked_nil, List.nil_append]
    have hbehind : Built [] (Cursor.ofSource b) lastA
        (treesB.map (TokenTree.renumber (TokenTree.sizeAll treesA).toUInt32)) stopB
          (lastB + (TokenTree.sizeAll treesA).toUInt32) := hlast ▸ hbuiltB.renumber _
    obtain ⟨stop', hbehind', -⟩ :=
      hbehind.same (Cursor.ofSource_spec b).1 hmid.right hlinked hstopB
    obtain ⟨rfl, -⟩ := hbuilt.unique (hmore _ _ _ hbehind')
    rw [hroot, hrootA, hrootB, rootOf_uncollapsed, rootOf_uncollapsed, rootOf_uncollapsed]
  · intro hle id hid
    rw [hids b (hrootB _), hbuiltB.ids.1] at hle hid
    obtain ⟨k, hk, rfl⟩ := List.mem_map.mp hid
    rw [TokenId.countFrom, List.length_map, List.length_range] at hle
    have hk' : k < TokenTree.sizeAll treesB := List.mem_range.mp hk
    simp only [UInt32.zero_add, Nat.toUInt32_eq, UInt32.toNat_add, UInt32.toNat_ofNat']
    omega

/-- A source that ends with an operator and has one comment inside another. -/
def openedComparison : List Char := "f(1/*/**/*/)<".toList

/-- A source that begins with an operator and leaves a group open. -/
def closedComparison : List Char := "=2[.".toList

theorem children_append_comparison :
    (Subtree.ofSource (openedComparison ++ '\n' :: closedComparison) ⟨false⟩).children =
      (Subtree.ofSource openedComparison ⟨false⟩).children ++
        (Subtree.ofSource closedComparison ⟨false⟩).children.map (TokenTree.renumber 4) ∧
      ∀ id ∈ (Subtree.ofSource closedComparison ⟨false⟩).ids, (id + 4).toNat = id.toNat + 4 := by
  have htokens : tokenize openedComparison =
      [⟨.ident, ['f']⟩, ⟨.opening .paren, ['(']⟩, ⟨.intNumber, ['1']⟩,
        ⟨.blockComment, ['/', '*', '/', '*', '*', '/', '*', '/']⟩, ⟨.closing .paren, [')']⟩,
        ⟨.punct, ['<']⟩] := by
    cbv
  have hkinds : ∀ t ∈ tokenize openedComparison, t.kind ≠ .unknown ∧ t.isTerminated = true ∧
      (t.kind = .blockComment → t.text = ['/', '*', '/', '*', '*', '/', '*', '/']) := by
    rw [htokens]
    decide
  have hend : ∀ t ∈ tokenize openedComparison, t.IsComplete := by
    intro t ht
    obtain ⟨-, hterminated, hcomment⟩ := hkinds t ht
    exact ⟨hterminated, fun hk => ⟨_, hcomment hk, .nested .close .close⟩⟩
  have hopen : openAfter [] (Token.significant (tokenize openedComparison)) = [] := by
    rw [htokens]
    decide
  have hcount : (Subtree.ofSource openedComparison ⟨false⟩).ids.length = 4 := by cbv
  have hfits : 4 + (Subtree.ofSource closedComparison ⟨false⟩).ids.length ≤ 2 ^ 32 := by cbv
  obtain ⟨hchildren, hids⟩ :=
    children_append (b := closedComparison) (fun t ht => (hkinds t ht).1) hend hopen
  rw [hcount] at hchildren hids
  exact ⟨hchildren, hids hfits⟩

end MacroBridge
