import Mathlib
import MacroBridge.Proofs.Tree.Built

/-!
Ids of a built tree. They number its leaves and delimiters from 0 on in the order of the walk
through the tree, wherever in the source the builder begins.
-/
namespace MacroBridge

namespace TokenTree

mutual

/-- How many leaves and delimiters a tree has. -/
def size : TokenTree → Nat
  | leaf _ => 1
  | group d cs => (if d.isSome then 1 else 0) + sizeAll cs

def sizeAll : List TokenTree → Nat
  | [] => 0
  | t :: ts => t.size + sizeAll ts

end

/-- A tree all of whose groups have a delimiter. -/
inductive Delimited : TokenTree → Prop
  | leaf (l : Leaf) : Delimited (.leaf l)
  | group (d : Delimiter) {cs : List TokenTree} (h : ∀ t ∈ cs, Delimited t) :
      Delimited (.group (some d) cs)

@[simp] theorem sizeAll_nil : sizeAll [] = 0 := by rw [sizeAll]

@[simp] theorem sizeAll_cons (t : TokenTree) (ts : List TokenTree) :
    sizeAll (t :: ts) = t.size + sizeAll ts := by
  rw [sizeAll]

@[simp] theorem sizeAll_append (ts us : List TokenTree) :
    sizeAll (ts ++ us) = sizeAll ts + sizeAll us := by
  induction ts with
  | nil => simp
  | cons t ts ih => simp [ih, Nat.add_assoc]

@[simp] theorem size_leaf (l : Leaf) : (leaf l).size = 1 := by rw [size]

@[simp] theorem sizeAll_leaves (ls : List Leaf) : sizeAll (ls.map .leaf) = ls.length := by
  induction ls with
  | nil => simp
  | cons l ls ih => simp [ih, Nat.add_comm]

/-- Ids of trees in the order of the walk through them. -/
def idsAll (ts : List TokenTree) : List TokenId := (ts.flatMap visits).filterMap Visit.id?

@[simp] theorem idsAll_append (ts us : List TokenTree) :
    idsAll (ts ++ us) = idsAll ts ++ idsAll us := by
  simp [idsAll]

@[simp] theorem idsAll_leaves (ls : List Leaf) : idsAll (ls.map .leaf) = ls.map Leaf.id := by
  induction ls with
  | nil => rfl
  | cons l ls ih =>
    rw [List.map_cons, List.map_cons, ← ih]
    rfl

theorem idsAll_group (d : Option Delimiter) (cs ts : List TokenTree) :
    idsAll (group d cs :: ts) = (d.map Delimiter.id).toList ++ idsAll cs ++ idsAll ts := by
  cases d with
  | none => simp [idsAll, List.filterMap_cons, Visit.id?]
  | some d => simp [idsAll, List.filterMap_cons, Visit.id?]

end TokenTree

open TokenTree (size sizeAll idsAll Delimited sizeAll_cons sizeAll_append sizeAll_leaves
  idsAll_append idsAll_leaves
  idsAll_group)

/-- How many leaves and delimiters a tree has, its own delimiter included. -/
def Subtree.size (s : Subtree) : Nat := s.toTree.size

theorem Subtree.ids_eq (s : Subtree) : s.ids = idsAll [s.toTree] := by
  simp [Subtree.ids, Subtree.visits, idsAll]

namespace TokenId

/-- `n` ids from `next` on. -/
def countFrom (next : TokenId) (n : Nat) : List TokenId :=
  (List.range n).map fun k => next + k.toUInt32

@[simp] theorem countFrom_zero (next : TokenId) : countFrom next 0 = [] := rfl

@[simp] theorem countFrom_one (next : TokenId) : countFrom next 1 = [next] := by
  simp [countFrom, List.range_one]

theorem countFrom_add (next : TokenId) (m n : Nat) :
    countFrom next (m + n) = countFrom next m ++ countFrom (next + m.toUInt32) n := by
  simp only [countFrom, List.range_add, List.map_append, List.map_map, List.append_cancel_left_eq]
  apply List.map_congr_left
  intro k _
  simp [UInt32.add_assoc]

/-- Ids do not run out within their range. -/
theorem countFrom_toNat {n : Nat} (h : n ≤ 2 ^ 32) :
    (countFrom 0 n).map UInt32.toNat = List.range n := by
  rw [countFrom, List.map_map]
  conv_rhs => rw [← List.map_id (List.range n)]
  apply List.map_congr_left
  intro k hk
  have hlt : k < 2 ^ 32 := Nat.lt_of_lt_of_le (List.mem_range.mp hk) h
  simpa using Nat.mod_eq_of_lt hlt

end TokenId

open TokenId (countFrom countFrom_add countFrom_one countFrom_toNat)

namespace Builder

/-! ### Numbers given while building -/

theorem ids_puncts (last : Spacing) (next : TokenId) (cs : List Char) :
    (puncts last next cs).map Leaf.id = countFrom next (puncts last next cs).length := by
  fun_induction puncts last next cs with
  | case1 => rfl
  | case2 next c => simp [Leaf.id]
  | case3 next c cs _ ih =>
    rw [List.map_cons, ih, List.length_cons, Nat.add_comm, countFrom_add]
    simp [Leaf.id]

/-- The leaves of a token are numbered one after the other. -/
theorem ids_leavesAt (kind : Kind) (c : Cursor) (next : TokenId) :
    (leavesAt kind c next).1.map Leaf.id = countFrom next (leavesAt kind c next).1.length := by
  unfold leavesAt
  dsimp only
  split_ifs
  · split
    · split_ifs
      · simp [Leaf.id]
      · simp [Leaf.id]
    · simp [Leaf.id]
  · simp [Leaf.id]
  · simp [Leaf.id]
  · simpa [Leaf.id] using (countFrom_add next 1 1).symm
  · exact ids_puncts _ next _

variable {stack : List Bracket} {c stop : Cursor} {next last : TokenId} {trees : List TokenTree}

/-- The id of a group comes before those of what it holds, and the count goes on behind them. -/
theorem Built.ids (h : Built stack c next trees stop last) :
    idsAll trees = countFrom next (sizeAll trees) ∧ last = next + (sizeAll trees).toUInt32 := by
  induction h with
  | stop => exact ⟨by simp [idsAll], by simp⟩
  | @group stack c mid stop next between last children trees t ts b _ _ _ _ ih₁ ih₂ =>
    obtain ⟨hinside, rfl⟩ := ih₁
    obtain ⟨hbehind, rfl⟩ := ih₂
    have hsize : sizeAll (.group (some ⟨next, b⟩) children :: trees) =
        1 + sizeAll children + sizeAll trees := by
      simp [TokenTree.size]
    constructor
    · rw [hsize, countFrom_add, countFrom_add, countFrom_one, idsAll_group, hinside, hbehind]
      simp [UInt32.add_assoc]
    · simp [hsize, UInt32.add_assoc]
  | @leaves stack c stop next last trees t ts _ _ _ _ ih =>
    obtain ⟨hbehind, rfl⟩ := ih
    constructor
    · rw [idsAll_append, idsAll_leaves, ids_leavesAt, sizeAll_append, sizeAll_leaves,
        countFrom_add, hbehind]
    · simp [UInt32.add_assoc]

theorem Built.delimited (h : Built stack c next trees stop last) : ∀ t ∈ trees, t.Delimited := by
  induction h with
  | stop => simp
  | group _ _ _ _ ih₁ ih₂ => exact List.forall_mem_cons.mpr ⟨.group _ ih₁, ih₂⟩
  | @leaves stack c stop next last trees t ts _ _ _ _ ih =>
    refine List.forall_mem_append.mpr ⟨?_, ih⟩
    intro t ht
    obtain ⟨l, -, rfl⟩ := List.mem_map.mp ht
    exact .leaf l

/-! ### The root -/

theorem ids_rootOf (options : ParseOptions) (ts : List TokenTree) :
    (rootOf options ts).ids = idsAll ts ∧ (rootOf options ts).size = sizeAll ts := by
  have hroot : (Subtree.mk none ts).ids = idsAll ts ∧ (Subtree.mk none ts).size = sizeAll ts := by
    constructor
    · simp [Subtree.ids_eq, Subtree.toTree, idsAll, List.filterMap_cons, Visit.id?]
    · simp [Subtree.size, Subtree.toTree, TokenTree.size]
  unfold rootOf
  split
  · next d cs =>
    split_ifs
    · exact ⟨Subtree.ids_eq _, by simp [Subtree.size, Subtree.toTree]⟩
    · exact hroot
  · exact hroot

theorem delimited_rootOf (options : ParseOptions) {ts : List TokenTree}
    (h : ∀ t ∈ ts, t.Delimited) : ∀ t ∈ (rootOf options ts).children, t.Delimited := by
  unfold rootOf
  split
  · next d cs =>
    split_ifs
    · cases h _ List.mem_cons_self with
      | group _ hcs => exact hcs
    · exact h
  · exact h

end Builder

open Builder

/-- The tree that is built from any token of a source on has the ids 0, 1, 2 and so on in the order
of the walk through it, one for each leaf and delimiter, and no group below its root is without a
delimiter. -/
theorem ids_parse (source : List Char) (bumps : Nat) (options : ParseOptions) :
    let tree := (((Cursor.ofSource source).bumpTimes bumps).parse options).1
    (tree.size ≤ 2 ^ 32 → tree.ids.map UInt32.toNat = List.range tree.size) ∧
      ∀ t ∈ tree.children, t.Delimited := by
  generalize (Cursor.ofSource source).bumpTimes bumps = c
  obtain ⟨trees, htrees, hbuilt⟩ := exists_built c.tokens.length [] none c 0 [] (Nat.le_refl _) rfl
  have htree : (c.parse options).1 = rootOf options trees := by
    simp only [Cursor.parse, htrees, List.reverse_nil, List.nil_append]
  obtain ⟨hids, hsize⟩ := ids_rootOf options trees
  simp only [htree]
  constructor
  · intro hle
    rw [hsize] at hle ⊢
    rw [hids, hbuilt.ids.1, countFrom_toNat hle]
  · exact delimited_rootOf options hbuilt.delimited

/-- A source whose builder begins at a group that nothing closes. -/
def lateSource : List Char := "x(1.5..'a[b])<<=".toList

set_option maxRecDepth 4000 in
theorem ids_parse_late :
    let tree := (((Cursor.ofSource lateSource).bumpTimes 1).parse {}).1
    tree.size ≤ 2 ^ 32 ∧ tree.ids.map UInt32.toNat = List.range tree.size := by
  have hsize : (((Cursor.ofSource lateSource).bumpTimes 1).parse {}).1.size = 11 := by cbv
  have hle : (((Cursor.ofSource lateSource).bumpTimes 1).parse {}).1.size ≤ 2 ^ 32 := by
    rw [hsize]
    decide
  exact ⟨hle, (ids_parse lateSource 1 {}).1 hle⟩

end MacroBridge
