import MacroBridge.Proofs.Json.Steady.Members
import MacroBridge.Proofs.Wire.Lawful

/-! The decoders of all types that travel are settled on bytes that a closing bracket ends. -/
namespace MacroBridge
open Json Json.Decoder

namespace Wire

theorem steady_ofNames {α : Type} (names : List (String × α)) (name : α → String) :
    (ofNames names name).decoder.Steady := by
  apply steady_oneOf
  intro c hc
  obtain ⟨n, -, rfl⟩ := List.mem_map.mp hc
  exact steady_bare n.2

theorem steady_tokenId : (decoder : Decoder TokenId).Steady := (steady_natural _).map _

theorem steady_bracket : (decoder : Decoder Bracket).Steady := steady_ofNames _ _

theorem steady_spacing : (decoder : Decoder Spacing).Steady := steady_ofNames _ _

theorem steady_macroKind : (decoder : Decoder MacroKind).Steady := steady_ofNames _ _

theorem steady_errorCode : (decoder : Decoder ErrorCode).Steady := steady_ofNames _ _

theorem steady_option {α : Type} [Wire α] (h : (decoder : Decoder α).Steady) :
    (decoder : Decoder (Option α)).Steady := h.option

/-! ### Trees -/

theorem steady_delimiter : (decoder : Decoder Delimiter).Steady :=
  steady_record (.cons steady_tokenId.field (.cons steady_bracket.field steadyFields_nil))

theorem steady_textAndId {α : Type} (make : String → TokenId → α) : (textAndId make).Steady :=
  steady_record (.cons steady_string.field (.cons steady_tokenId.field steadyFields_nil))

theorem steady_literal : (decoder : Decoder Literal).Steady := steady_textAndId _

theorem steady_ident : (decoder : Decoder Ident).Steady := steady_textAndId _

theorem steady_punct : (decoder : Decoder Punct).Steady :=
  steady_record (.cons steady_char.field (.cons steady_spacing.field
    (.cons steady_tokenId.field steadyFields_nil)))

theorem steady_leaf : (decoder : Decoder Leaf).Steady :=
  steady_oneOf (.carrying (steady_literal.map _) (.carrying (steady_punct.map _)
    (.carrying (steady_ident.map _) steadyCases_nil)))

theorem steady_groupDecoder {child : Decoder TokenTree} (hc : child.Steady) :
    (groupDecoder child).Steady :=
  steady_record (.cons steady_delimiter.option.field (.cons hc.list.field steadyFields_nil))

theorem steady_treeDecoder (levels : Nat) : (treeDecoder levels).Steady := by
  induction levels with
  | zero => exact steady_never
  | succ levels ih =>
    exact steady_oneOf (.carrying (steady_leaf.map _)
      (.carrying ((steady_groupDecoder ih).map _) steadyCases_nil))

theorem steady_tokenTree : (decoder : Decoder TokenTree).Steady := steady_treeDecoder _

theorem steady_subtree : (decoder : Decoder Subtree).Steady :=
  steady_groupDecoder (steady_treeDecoder _)

/-! ### Requests and responses -/

theorem steady_listTask : (decoder : Decoder ListTask).Steady :=
  steady_record (.cons steady_string.field steadyFields_nil)

theorem steady_listResult : (decoder : Decoder ListResult).Steady :=
  steady_record (.cons (steady_string.pair steady_macroKind).list.field steadyFields_nil)

theorem steady_expansionTask : (decoder : Decoder ExpansionTask).Steady :=
  steady_record (.cons steady_subtree.field (.cons steady_string.field
    (.cons (steady_option steady_subtree).field (.cons steady_string.field steadyFields_nil))))

theorem steady_expansionResult : (decoder : Decoder ExpansionResult).Steady :=
  steady_record (.cons steady_subtree.field steadyFields_nil)

theorem steady_reportedError : (decoder : Decoder ReportedError).Steady :=
  steady_record (.cons steady_errorCode.field (.cons steady_string.field steadyFields_nil))

theorem steady_request : (decoder : Decoder Request).Steady :=
  steady_oneOf (.carrying (steady_listTask.map _)
    (.carrying (steady_expansionTask.map _) steadyCases_nil))

theorem steady_response : (decoder : Decoder Response).Steady :=
  steady_oneOf (.carrying (steady_reportedError.map _) (.carrying (steady_listResult.map _)
    (.carrying (steady_expansionResult.map _) steadyCases_nil)))

end Wire

theorem MessageType.steady (type : MessageType) : (Wire.decoder (α := type.Value)).Steady := by
  cases type with
  | tokenId => exact Wire.steady_tokenId
  | bracket => exact Wire.steady_bracket
  | spacing => exact Wire.steady_spacing
  | delimiter => exact Wire.steady_delimiter
  | literal => exact Wire.steady_literal
  | ident => exact Wire.steady_ident
  | punct => exact Wire.steady_punct
  | leaf => exact Wire.steady_leaf
  | tokenTree => exact Wire.steady_tokenTree
  | subtree => exact Wire.steady_subtree
  | optionSubtree => exact Wire.steady_option Wire.steady_subtree
  | macroKind => exact Wire.steady_macroKind
  | errorCode => exact Wire.steady_errorCode
  | listTask => exact Wire.steady_listTask
  | listResult => exact Wire.steady_listResult
  | expansionTask => exact Wire.steady_expansionTask
  | expansionResult => exact Wire.steady_expansionResult
  | reportedError => exact Wire.steady_reportedError
  | request => exact Wire.steady_request
  | response => exact Wire.steady_response

end MacroBridge
