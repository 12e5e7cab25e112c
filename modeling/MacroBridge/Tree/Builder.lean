import MacroBridge.Token.Cursor
import MacroBridge.Token.Fraction
import MacroBridge.Tree.Visit

/-!
Building a token tree from the tokens of a source.

Brackets group what stands between them; a closing bracket that does not match the innermost open
group is punctuation, and the end of the source closes all groups. Ids count up from 0 in the order
in which delimiters and leaves begin.
-/
namespace MacroBridge

structure ParseOptions where
  /-- A source that is one bracketed group gives that group itself, without a root around it. -/
  collapseSingleGroup : Bool := true
  deriving DecidableEq, Repr

namespace Builder

/-- Spacing of the last character of the punctuation under the cursor, by the raw token that
follows: joint exactly before more punctuation. -/
def lastSpacing (c : Cursor) : Spacing :=
  match c.lookahead 1 with
  | none => .alone
  | some kind =>
      if kind.isTrivia || kind.isOpening || kind.isLiteral || kind.isIdent then .alone else .joint

/-- One punct for each character; only the last is spaced by what follows. -/
def puncts (last : Spacing) : (next : TokenId) → List Char → List Leaf
  | _, [] => []
  | next, [c] => [.punct ⟨c, last, next⟩]
  | next, c :: cs => .punct ⟨c, .joint, next⟩ :: puncts last (next + 1) cs

/-- The leaves of the token under the cursor, which is no opening bracket, and the cursor on the
last token that they take. An integer takes a decimal point and the digits after it along; the
quote of a lifetime is a punct of its own. -/
def leavesAt (kind : Kind) (c : Cursor) (next : TokenId) : List Leaf × Cursor :=
  let literal (text : List Char) : Leaf := .literal ⟨String.ofList text, next⟩
  if kind = .intNumber then
    match Fraction.length c.rest with
    | some n =>
        if n ≤ c.currentText.length then ([literal c.currentText], c)
        else ([literal (c.rest.take n)], c.advanceTo (c.offset + n))
    | none => ([literal c.currentText], c)
  else if kind.isLiteral then ([literal c.currentText], c)
  else if kind.isIdent then ([.ident ⟨String.ofList c.currentText, next⟩], c)
  else if kind = .lifetime then
    ([.punct ⟨'\'', .joint, next⟩, .ident ⟨String.ofList (c.currentText.drop 1), next + 1⟩], c)
  else (puncts (lastSpacing c) next c.currentText, c)

theorem length_leavesAt_le (kind : Kind) (c : Cursor) (next : TokenId) :
    (leavesAt kind c next).2.tokens.length ≤ c.tokens.length := by
  unfold leavesAt
  dsimp only
  repeat' split
  all_goals first | exact Nat.le_refl _ | exact c.length_advanceTo_le _

/-- Trees built from a cursor with at most `bound` tokens ahead: the trees, where the cursor then
stands, and the next free id. -/
structure Grown (bound : Nat) where
  trees : List TokenTree
  cursor : Cursor
  next : TokenId
  length_le : cursor.tokens.length ≤ bound

/-- The trees up to the token `close` or the end, behind those of `done`, last first. The cursor
stays on the closing token. -/
def grow (bound : Nat) (close : Option Kind) (c : Cursor) (next : TokenId) (done : List TokenTree)
    (h : c.tokens.length ≤ bound) : Grown bound :=
  match hc : c.tokens with
  | [] => ⟨done.reverse, c, next, h⟩
  | t :: _ =>
      have hne : c.tokens ≠ [] := fun h => List.cons_ne_nil _ _ (hc.symm.trans h)
      if close = some t.kind then ⟨done.reverse, c, next, h⟩
      else
        match t.kind with
        | .opening b =>
            let inner := grow c.bump.tokens.length (some (.closing b)) c.bump (next + 1) []
              (Nat.le_refl _)
            have hle : inner.cursor.bump.tokens.length ≤ c.bump.tokens.length :=
              Nat.le_trans inner.cursor.length_bump_le
                (Nat.le_trans (Nat.sub_le _ _) inner.length_le)
            have hlt : inner.cursor.bump.tokens.length < c.tokens.length :=
              Nat.lt_of_le_of_lt hle (Cursor.length_bump_lt hne)
            grow bound close inner.cursor.bump inner.next
              (.group (some ⟨next, b⟩) inner.trees :: done) (Nat.le_trans (Nat.le_of_lt hlt) h)
        | kind =>
            let leaves := leavesAt kind c next
            have hle : leaves.2.bump.tokens.length ≤ c.tokens.length - 1 :=
              Nat.le_trans leaves.2.length_bump_le
                (Nat.sub_le_sub_right (length_leavesAt_le kind c next) 1)
            have hlt : leaves.2.bump.tokens.length < c.tokens.length :=
              Nat.lt_of_le_of_lt hle (Nat.sub_lt (List.length_pos_iff.mpr hne) Nat.one_pos)
            grow bound close leaves.2.bump (next + leaves.1.length.toUInt32)
              (leaves.1.reverse.map .leaf ++ done) (Nat.le_trans (Nat.le_of_lt hlt) h)
  termination_by c.tokens.length
  decreasing_by
    · exact Cursor.length_bump_lt hne
    · exact hlt
    · exact hlt

/-- The root over top-level trees. -/
def rootOf (options : ParseOptions) (trees : List TokenTree) : Subtree :=
  match trees with
  | [.group d cs] => if options.collapseSingleGroup then ⟨d, cs⟩ else ⟨none, trees⟩
  | _ => ⟨none, trees⟩

end Builder

/-- The tree of the tokens from a cursor on, and the cursor at the end. -/
def Cursor.parse (c : Cursor) (options : ParseOptions := {}) : Subtree × Cursor :=
  let grown := Builder.grow c.tokens.length none c 0 [] (Nat.le_refl _)
  (Builder.rootOf options grown.trees, grown.cursor)

/-- The tree of a source text. -/
def Subtree.ofSource (source : List Char) (options : ParseOptions := {}) : Subtree :=
  ((Cursor.ofSource source).parse options).1

end MacroBridge
