import MacroBridge.Session.Client
import MacroBridge.Tree.Builder

/-! Expanding macro calls given as source text. -/
namespace MacroBridge

structure Expander where
  client : Client
  options : ParseOptions

namespace Expander

/-- Builds the tree of `body`, and of `attributes` if there are any, and expands it with a macro of
`lib`. The result is `none` where the server could not be talked to. -/
def expandSource (e : Expander) (body : List Char) (attributes : Option (List Char))
    (name : String) (lib : OsPath) : Client.Call (Option (Except ReportedError Subtree)) :=
  let tree (source : List Char) := Subtree.ofSource source e.options
  (e.client.expand ⟨tree body, name, attributes.map tree, lib⟩).map Except.toOption

end Expander

end MacroBridge
