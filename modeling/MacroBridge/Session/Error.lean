import MacroBridge.Duration
import MacroBridge.Framing.Reader
import MacroBridge.Message

/-! Why a call to a server gives no response. -/
namespace MacroBridge

inductive ServerError
  /-- The server's command could not be started. -/
  | spawn (command : String) (kind : IoKind)
  | codec (error : CodecError)
  | timeout (limit : Duration)
  /-- An earlier call left the channel in an unknown state. -/
  | broken
  /-- A response of a form that does not answer the request. -/
  | unexpectedResponse (request : Request OsPath) (response : Response)

namespace ServerError

def message : ServerError → String
  | spawn command _ => "failed to spawn command: " ++ command
  | codec e => e.message
  | timeout limit => "proc-macro server did not answer within " ++ limit.text
  | broken => "proc-macro server channel is unusable after an earlier failure"
  | unexpectedResponse request response =>
      "proc-macro server answered a " ++ request.name ++ " request with " ++ response.name

/-- Whether the failure may have left part of a message on the channel. -/
def breaksChannel : ServerError → Bool
  | codec .encode => false
  | codec _ | timeout _ => true
  | _ => false

end ServerError

end MacroBridge
