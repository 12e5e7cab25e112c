import MacroBridge.Tree.Basic

/-!
Walking a token tree in depth-first order. Ids, texts and encodings of a tree are all read off this
walk.
-/
namespace MacroBridge

/-- One station of the walk. -/
inductive Visit
  | enter (delimiter : Option Delimiter)
  | leaf (leaf : Leaf)
  | leave (delimiter : Option Delimiter)
  deriving DecidableEq, Repr

namespace TokenTree

mutual

/-- The walk through a tree in front of what `done` holds, last first. -/
def visitsOnto (done : List Visit) : TokenTree → List Visit
  | leaf l => .leaf l :: done
  | group d cs => .leave d :: visitsAllOnto (.enter d :: done) cs

def visitsAllOnto (done : List Visit) : List TokenTree → List Visit
  | [] => done
  | t :: ts => visitsAllOnto (t.visitsOnto done) ts

end

def visits (t : TokenTree) : List Visit := (t.visitsOnto []).reverse

mutual

theorem visitsOnto_eq (done : List Visit) (t : TokenTree) :
    t.visitsOnto done = t.visitsOnto [] ++ done := by
  cases t with
  | leaf l => simp [visitsOnto]
  | group d cs =>
    rw [visitsOnto, visitsOnto, visitsAllOnto_eq (.enter d :: done) cs,
      visitsAllOnto_eq [.enter d] cs]
    simp

theorem visitsAllOnto_eq (done : List Visit) (ts : List TokenTree) :
    visitsAllOnto done ts = visitsAllOnto [] ts ++ done := by
  cases ts with
  | nil => simp [visitsAllOnto]
  | cons t ts =>
    rw [visitsAllOnto, visitsAllOnto, visitsAllOnto_eq (t.visitsOnto done) ts,
      visitsAllOnto_eq (t.visitsOnto []) ts, visitsOnto_eq done t]
    simp

end

@[simp] theorem visits_leaf (l : Leaf) : (leaf l).visits = [.leaf l] := rfl

theorem reverse_visitsAllOnto (ts : List TokenTree) :
    (visitsAllOnto [] ts).reverse = ts.flatMap visits := by
  induction ts with
  | nil => simp [visitsAllOnto]
  | cons t ts ih =>
    rw [visitsAllOnto, visitsAllOnto_eq, List.reverse_append, ih, List.flatMap_cons]
    rfl

@[simp] theorem visits_group (d : Option Delimiter) (cs : List TokenTree) :
    (group d cs).visits = .enter d :: cs.flatMap visits ++ [.leave d] := by
  rw [visits, visitsOnto, visitsAllOnto_eq, List.reverse_cons, List.reverse_append,
    reverse_visitsAllOnto]
  simp

end TokenTree

namespace Visit

/-- The id met at a station. A group shows its id where it is entered. -/
def id? : Visit → Option TokenId
  | enter (some d) => some d.id
  | leaf l => some l.id
  | _ => none

end Visit

namespace Subtree

def visits (s : Subtree) : List Visit := s.toTree.visits

/-- Ids of every delimiter and leaf in depth-first order. -/
def ids (s : Subtree) : List TokenId := s.visits.filterMap Visit.id?

end Subtree

end MacroBridge
