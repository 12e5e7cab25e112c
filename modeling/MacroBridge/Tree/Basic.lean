import MacroBridge.Bracket

/-!
Token trees: the form in which macro input and output travel. Every delimiter and leaf has an id.
-/
namespace MacroBridge

abbrev TokenId := UInt32

structure Delimiter where
  id : TokenId
  bracket : Bracket
  deriving DecidableEq, Repr

/-- Whether a punctuation character is fused with the punctuation after it. -/
inductive Spacing
  | alone
  | joint
  deriving DecidableEq, Repr

/-- Source text of a single literal. -/
structure Literal where
  text : String
  id : TokenId
  deriving DecidableEq, Repr

structure Punct where
  char : Char
  spacing : Spacing
  id : TokenId
  deriving DecidableEq, Repr

structure Ident where
  text : String
  id : TokenId
  deriving DecidableEq, Repr

inductive Leaf
  | literal (literal : Literal)
  | punct (punct : Punct)
  | ident (ident : Ident)
  deriving DecidableEq, Repr

def Leaf.id : Leaf → TokenId
  | literal l => l.id
  | punct p => p.id
  | ident i => i.id

inductive TokenTree
  | leaf (leaf : Leaf)
  | group (delimiter : Option Delimiter) (children : List TokenTree)
  deriving Repr

/-- A group of token trees. Only the synthetic root of tokens outside all brackets has no
delimiter. -/
structure Subtree where
  delimiter : Option Delimiter
  children : List TokenTree
  deriving Repr

namespace TokenTree

def isLeaf : TokenTree → Bool
  | leaf _ => true
  | group .. => false

def isGroup : TokenTree → Bool
  | leaf _ => false
  | group .. => true

mutual

def decEq : (a b : TokenTree) → Decidable (a = b)
  | leaf a, leaf b => decidable_of_iff (a = b) (by simp)
  | leaf _, group .. => isFalse nofun
  | group .., leaf _ => isFalse nofun
  | group d cs, group e ds =>
      if h : d = e then
        match decEqList cs ds with
        | isTrue hs => isTrue (by rw [h, hs])
        | isFalse hs => isFalse (by simp [hs])
      else isFalse (by simp [h])

def decEqList : (as bs : List TokenTree) → Decidable (as = bs)
  | [], [] => isTrue rfl
  | [], _ :: _ => isFalse nofun
  | _ :: _, [] => isFalse nofun
  | a :: as, b :: bs =>
      match decEq a b with
      | isFalse h => isFalse (by simp [h])
      | isTrue h =>
          match decEqList as bs with
          | isTrue hs => isTrue (by rw [h, hs])
          | isFalse hs => isFalse (by simp [hs])

end

instance : DecidableEq TokenTree := decEq

end TokenTree

deriving instance DecidableEq for Subtree

/-- The group as a tree among others. -/
def Subtree.toTree (s : Subtree) : TokenTree := .group s.delimiter s.children

end MacroBridge
