import MacroBridge.Proofs.Json.Members
import MacroBridge.Wire.Message

/-! The types that travel. All of them have decoders that keep to the grammar. -/
namespace MacroBridge
open Json Json.Decoder

namespace Wire

theorem lawful_ofNames {α : Type} (names : List (String × α)) (name : α → String) :
    (ofNames names name).decoder.Lawful := by
  apply lawful_oneOf
  intro c hc
  obtain ⟨n, -, rfl⟩ := List.mem_map.mp hc
  exact lawful_bare n.2

theorem lawful_tokenId : (decoder : Decoder TokenId).Lawful := (lawful_natural _).map _

theorem lawful_bracket : (decoder : Decoder Bracket).Lawful := lawful_ofNames _ _

theorem lawful_spacing : (decoder : Decoder Spacing).Lawful := lawful_ofNames _ _

theorem lawful_macroKind : (decoder : Decoder MacroKind).Lawful := lawful_ofNames _ _

theorem lawful_errorCode : (decoder : Decoder ErrorCode).Lawful := lawful_ofNames _ _

theorem lawful_option {α : Type} [Wire α] (h : (decoder : Decoder α).Lawful) :
    (decoder : Decoder (Option α)).Lawful := h.option

/-! ### Trees -/

theorem lawful_delimiter : (decoder : Decoder Delimiter).Lawful :=
  lawful_record (.cons lawful_tokenId.field (.cons lawful_bracket.field lawfulFields_nil))

theorem lawful_textAndId {α : Type} (make : String → TokenId → α) : (textAndId make).Lawful :=
  lawful_record (.cons lawful_string.field (.cons lawful_tokenId.field lawfulFields_nil))

theorem lawful_literal : (decoder : Decoder Literal).Lawful := lawful_textAndId _

theorem lawful_ident : (decoder : Decoder Ident).Lawful := lawful_textAndId _

theorem lawful_punct : (decoder : Decoder Punct).Lawful :=
  lawful_record (.cons lawful_char.field (.cons lawful_spacing.field
    (.cons lawful_tokenId.field lawfulFields_nil)))

theorem lawful_leaf : (decoder : Decoder Leaf).Lawful :=
  lawful_oneOf (.carrying (lawful_literal.map _) (.carrying (lawful_punct.map _)
    (.carrying (lawful_ident.map _) lawfulCases_nil)))

theorem lawful_groupDecoder {child : Decoder TokenTree} (hc : child.Lawful) :
    (groupDecoder child).Lawful :=
  lawful_record (.cons lawful_delimiter.option.field (.cons hc.list.field lawfulFields_nil))

theorem lawful_treeDecoder (levels : Nat) : (treeDecoder levels).Lawful := by
  induction levels with
  | zero => exact lawful_never
  | succ levels ih =>
    exact lawful_oneOf (.carrying (lawful_leaf.map _)
      (.carrying ((lawful_groupDecoder ih).map _) lawfulCases_nil))

theorem lawful_tokenTree : (decoder : Decoder TokenTree).Lawful := lawful_treeDecoder _

theorem lawful_subtree : (decoder : Decoder Subtree).Lawful :=
  lawful_groupDecoder (lawful_treeDecoder _)

/-! ### Requests and responses -/

theorem lawful_listTask : (decoder : Decoder ListTask).Lawful :=
  lawful_record (.cons lawful_string.field lawfulFields_nil)

theorem lawful_listResult : (decoder : Decoder ListResult).Lawful :=
  lawful_record (.cons (lawful_string.pair lawful_macroKind).list.field lawfulFields_nil)

theorem lawful_expansionTask : (decoder : Decoder ExpansionTask).Lawful :=
  lawful_record (.cons lawful_subtree.field (.cons lawful_string.field
    (.cons (lawful_option lawful_subtree).field (.cons lawful_string.field lawfulFields_nil))))

theorem lawful_expansionResult : (decoder : Decoder ExpansionResult).Lawful :=
  lawful_record (.cons lawful_subtree.field lawfulFields_nil)

theorem lawful_reportedError : (decoder : Decoder ReportedError).Lawful :=
  lawful_record (.cons lawful_errorCode.field (.cons lawful_string.field lawfulFields_nil))

theorem lawful_request : (decoder : Decoder Request).Lawful :=
  lawful_oneOf (.carrying (lawful_listTask.map _)
    (.carrying (lawful_expansionTask.map _) lawfulCases_nil))

theorem lawful_response : (decoder : Decoder Response).Lawful :=
  lawful_oneOf (.carrying (lawful_reportedError.map _) (.carrying (lawful_listResult.map _)
    (.carrying (lawful_expansionResult.map _) lawfulCases_nil)))

end Wire

/-- The types of which a message can be read. -/
inductive MessageType
  | tokenId
  | bracket
  | spacing
  | delimiter
  | literal
  | ident
  | punct
  | leaf
  | tokenTree
  | subtree
  | optionSubtree
  | macroKind
  | errorCode
  | listTask
  | listResult
  | expansionTask
  | expansionResult
  | reportedError
  | request
  | response
  deriving DecidableEq, Repr

namespace MessageType

/-- The values of a type. -/
@[reducible] def Value : MessageType → Type
  | tokenId => TokenId
  | bracket => Bracket
  | spacing => Spacing
  | delimiter => Delimiter
  | literal => Literal
  | ident => Ident
  | punct => Punct
  | leaf => Leaf
  | tokenTree => TokenTree
  | subtree => Subtree
  | optionSubtree => Option Subtree
  | macroKind => MacroKind
  | errorCode => ErrorCode
  | listTask => ListTask
  | listResult => ListResult
  | expansionTask => ExpansionTask
  | expansionResult => ExpansionResult
  | reportedError => ReportedError
  | request => Request
  | response => Response

instance wire : (type : MessageType) → Wire type.Value
  | tokenId => inferInstanceAs (Wire TokenId)
  | bracket => inferInstanceAs (Wire Bracket)
  | spacing => inferInstanceAs (Wire Spacing)
  | delimiter => inferInstanceAs (Wire Delimiter)
  | literal => inferInstanceAs (Wire Literal)
  | ident => inferInstanceAs (Wire Ident)
  | punct => inferInstanceAs (Wire Punct)
  | leaf => inferInstanceAs (Wire Leaf)
  | tokenTree => inferInstanceAs (Wire TokenTree)
  | subtree => inferInstanceAs (Wire Subtree)
  | optionSubtree => inferInstanceAs (Wire (Option Subtree))
  | macroKind => inferInstanceAs (Wire MacroKind)
  | errorCode => inferInstanceAs (Wire ErrorCode)
  | listTask => inferInstanceAs (Wire ListTask)
  | listResult => inferInstanceAs (Wire ListResult)
  | expansionTask => inferInstanceAs (Wire ExpansionTask)
  | expansionResult => inferInstanceAs (Wire ExpansionResult)
  | reportedError => inferInstanceAs (Wire ReportedError)
  | request => inferInstanceAs (Wire Request)
  | response => inferInstanceAs (Wire Response)

theorem lawful (type : MessageType) : (Wire.decoder (α := type.Value)).Lawful := by
  cases type with
  | tokenId => exact Wire.lawful_tokenId
  | bracket => exact Wire.lawful_bracket
  | spacing => exact Wire.lawful_spacing
  | delimiter => exact Wire.lawful_delimiter
  | literal => exact Wire.lawful_literal
  | ident => exact Wire.lawful_ident
  | punct => exact Wire.lawful_punct
  | leaf => exact Wire.lawful_leaf
  | tokenTree => exact Wire.lawful_tokenTree
  | subtree => exact Wire.lawful_subtree
  | optionSubtree => exact Wire.lawful_option Wire.lawful_subtree
  | macroKind => exact Wire.lawful_macroKind
  | errorCode => exact Wire.lawful_errorCode
  | listTask => exact Wire.lawful_listTask
  | listResult => exact Wire.lawful_listResult
  | expansionTask => exact Wire.lawful_expansionTask
  | expansionResult => exact Wire.lawful_expansionResult
  | reportedError => exact Wire.lawful_reportedError
  | request => exact Wire.lawful_request
  | response => exact Wire.lawful_response

end MessageType

end MacroBridge
