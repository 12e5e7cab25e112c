import Mathlib.Logic.Function.Basic
import Mathlib.Logic.Relation
import MacroBridge.Proofs.Framing.RoundTrip

/-!
Callers that share one client, as a system of steps. A caller holds the channel from before the
first byte of its request until its result is there. Between its steps come those of other callers,
those of the server and those of the bytes on their way, in any order.
-/
namespace MacroBridge
open Json (Apart Blank byte decodeFirst)

/-- How far a caller has come. -/
inductive Phase
  /-- It has not called. -/
  | absent
  /-- It waits for the channel. -/
  | queued
  /-- It holds the channel and has `rest` of its request to write. -/
  | writing (rest : List UInt8)
  /-- Its request is written and flushed. It is about to look at the buffer. -/
  | looking
  /-- There is no response in the buffer, and it waits for bytes. -/
  | reading
  | returned (result : Except ServerError Response)

namespace Phase

/-- Whether the caller is in an exchange, and so holds the channel. -/
def Exchanges : Phase → Prop
  | writing _ | looking | reading => True
  | _ => False

/-- What the caller has not yet written of its request. -/
def unsent : Phase → List UInt8
  | writing rest => rest
  | _ => []

@[simp] theorem not_exchanges_absent : ¬ absent.Exchanges := id

@[simp] theorem not_exchanges_queued : ¬ queued.Exchanges := id

@[simp] theorem exchanges_writing (rest : List UInt8) : (writing rest).Exchanges := trivial

@[simp] theorem exchanges_looking : looking.Exchanges := trivial

@[simp] theorem exchanges_reading : reading.Exchanges := trivial

@[simp] theorem not_exchanges_returned (result : Except ServerError Response) :
    ¬ (returned result).Exchanges := id

@[simp] theorem unsent_writing (rest : List UInt8) : (writing rest).unsent = rest := rfl

@[simp] theorem unsent_looking : looking.unsent = [] := rfl

@[simp] theorem unsent_reading : reading.unsent = [] := rfl

/-- The failures of the streams, and of the clock, that a caller may meet where it waits for
them. -/
inductive Fails (limit : Option Duration) : Phase → ServerError → Prop
  | write (rest : List UInt8) (kind : IoKind) : Fails limit (writing rest) (.codec (.io kind))
  | writeTimeout (rest : List UInt8) {duration : Duration} (h : limit = some duration) :
      Fails limit (writing rest) (.timeout duration)
  | ended : Fails limit reading (.codec .unexpectedEof)
  | read (kind : IoKind) : Fails limit reading (.codec (.io kind))
  | readTimeout {duration : Duration} (h : limit = some duration) :
      Fails limit reading (.timeout duration)

end Phase

/-- What a server sends for one line: white space and the text of a response. The text is a JSON
value that shows its own end. A client reads it as the response or rejects it, as it does if too
many of its containers are open at once. -/
structure Reply where
  gap : List UInt8
  text : List UInt8
  response : Response
  blank : Blank gap
  closed : Closed text
  settled : ∀ p t, Blank p → Apart t →
    decodeFirst Wire.decoder (p ++ (text ++ t)) = .value response t ∨
    decodeFirst (α := Response) Wire.decoder (p ++ (text ++ t)) = .malformed

namespace Reply

def bytes (reply : Reply) : List UInt8 := reply.gap ++ reply.text

/-- Any response in its own encoding. -/
def ofResponse (response : Response) : Reply where
  gap := []
  text := Json.bytes (Wire.pieces response)
  response := response
  blank := Json.blank_nil
  closed := (Reader.readable_response response).closed
  settled p t hp ht := by
    have h := Reader.readable_response response
    rw [h.reads.decodeFirst_behind h.opens hp ht]
    split_ifs
    · exact .inl rfl
    · exact .inr rfl

end Reply

/-- A text that ends with its only line break. -/
def IsLine (line : List UInt8) : Prop := ∃ text, line = text ++ [byte '\n'] ∧ byte '\n' ∉ text

theorem Request.Encodes.isLine {request : Request OsPath} (h : request.Encodes) :
    IsLine request.line := by
  obtain ⟨message, hm⟩ := h
  exact ⟨_, (line_eq hm).trans (Wire.line_eq message), Json.newline_bytesFrom _ _⟩

namespace IsLine
variable {a b s t : List UInt8}

theorem ne_nil (h : IsLine a) : a ≠ [] := by
  obtain ⟨x, rfl, -⟩ := h
  simp

/-- Two streams that are the same have the same first line. -/
theorem append_inj (ha : IsLine a) (hb : IsLine b) (h : a ++ s = b ++ t) : a = b ∧ s = t := by
  obtain ⟨x, rfl, hx⟩ := ha
  obtain ⟨y, rfl, hy⟩ := hb
  simp only [List.append_assoc, List.singleton_append] at h
  have hxy : x = y := by
    have htake := congrArg (List.takeWhile (· ≠ byte '\n')) h
    have hall {z : List UInt8} (hz : byte '\n' ∉ z) (u : List UInt8) :
        (z ++ byte '\n' :: u).takeWhile (· ≠ byte '\n') = z := by
      rw [List.takeWhile_append_of_pos fun c hc => ?_]
      · simp
      · simpa using fun heq : c = byte '\n' => hz (heq ▸ hc)
    rwa [hall hx, hall hy] at htake
  subst hxy
  simpa using h

end IsLine

/-- A call that has returned, and the bytes it has written. -/
structure Past (ι : Type) where
  caller : ι
  result : Except ServerError Response
  sent : List UInt8

/-- Whether a call has returned a response. -/
def Past.isAnswered {ι : Type} (p : Past ι) : Bool := p.result.toBool

/-- A client that callers share, and the server behind it. -/
structure Shared (ι : Type) where
  phase : ι → Phase := fun _ => .absent
  /-- Who holds the lock of the channel. -/
  holder : Option ι := none
  reader : Reader := {}
  broken : Bool := false
  /-- What the holder of the lock has written. -/
  written : List UInt8 := []
  /-- The calls that have returned. -/
  past : List (Past ι) := []
  /-- Bytes on their way to the server. -/
  upstream : List UInt8 := []
  /-- Bytes that the server has received behind the lines it has answered. -/
  pending : List UInt8 := []
  /-- The lines that the server has answered, each with its response. -/
  served : List (List UInt8 × Response) := []
  /-- Bytes on their way to the client. -/
  downstream : List UInt8 := []

namespace Shared
variable {ι : Type} [DecidableEq ι]

/-- All bytes that have been written to the server. -/
def stream (s : Shared ι) : List UInt8 := s.served.flatMap Prod.fst ++ (s.pending ++ s.upstream)

/-- The calls that have returned a response. -/
def answered (s : Shared ι) : List (Past ι) := s.past.filter Past.isAnswered

/-- The caller goes on to another phase. -/
def move (s : Shared ι) (i : ι) (phase : Phase) : Shared ι :=
  { s with phase := Function.update s.phase i phase }

/-- The call returns and gives the lock back, with the channel marked if it has failed in a way
that breaks it. -/
def finish (s : Shared ι) (i : ι) (result : Except ServerError Response) : Shared ι :=
  { s.move i (.returned result) with
    holder := none
    broken := s.broken || match result with
      | .ok _ => false
      | .error e => e.breaksChannel
    written := []
    past := s.past ++ [⟨i, result, s.written⟩] }

variable (request : ι → Request OsPath) (limit : Option Duration)

/-- One step of a caller, of the server or of the bytes between them. -/
inductive Step : Shared ι → Shared ι → Prop
  | call {s : Shared ι} {i : ι} (h : s.phase i = .absent) : Step s (s.move i .queued)
  /-- The lock is free for any of those who wait for it. -/
  | acquire {s : Shared ι} {i : ι} (h : s.phase i = .queued) (free : s.holder = none)
      (usable : s.broken = false) (encodes : (request i).Encodes) :
      Step s { s.move i (.writing (request i).line) with holder := some i }
  /-- A request that has no encoding fails as soon as its caller has the lock. Nothing is
  written. -/
  | reject {s : Shared ι} {i : ι} (h : s.phase i = .queued) (free : s.holder = none)
      (usable : s.broken = false) (unencodable : ¬ (request i).Encodes) :
      Step s (s.finish i (.error (.codec .encode)))
  | refuse {s : Shared ι} {i : ι} (h : s.phase i = .queued) (free : s.holder = none)
      (broken : s.broken = true) : Step s (s.finish i (.error .broken))
  /-- A write takes some of the bytes. -/
  | write {s : Shared ι} {i : ι} {bs rest : List UInt8} (h : s.phase i = .writing (bs ++ rest))
      (nonempty : bs ≠ []) :
      Step s { s.move i (.writing rest) with
        written := s.written ++ bs, upstream := s.upstream ++ bs }
  | flush {s : Shared ι} {i : ι} (h : s.phase i = .writing []) : Step s (s.move i .looking)
  | found {s : Shared ι} {i : ι} {response : Response} {reader : Reader} (h : s.phase i = .looking)
      (poll : s.reader.poll Response = (.value response, reader)) :
      Step s { s.finish i (.ok response) with reader }
  | garbled {s : Shared ι} {i : ι} {reader : Reader} (h : s.phase i = .looking)
      (poll : s.reader.poll Response = (.malformed, reader)) :
      Step s { s.finish i (.error (.codec .decode)) with reader }
  | wanting {s : Shared ι} {i : ι} {reader : Reader} (h : s.phase i = .looking)
      (poll : s.reader.poll Response = (.more, reader)) : Step s { s.move i .reading with reader }
  /-- A read brings the next bytes. -/
  | receive {s : Shared ι} {i : ι} {bs rest : List UInt8} (h : s.phase i = .reading)
      (ahead : s.downstream = bs ++ rest) (nonempty : bs ≠ [])
      (fits : bs.length ≤ Event.readSize) :
      Step s { s.move i .looking with reader := s.reader.feed bs, downstream := rest }
  | fail {s : Shared ι} {i : ι} {e : ServerError} (h : (s.phase i).Fails limit e) :
      Step s (s.finish i (.error e))
  /-- Bytes reach the server. -/
  | arrive {s : Shared ι} {bs rest : List UInt8} (ahead : s.upstream = bs ++ rest) :
      Step s { s with upstream := rest, pending := s.pending ++ bs }
  /-- The server answers the first line that it has not answered. -/
  | answer {s : Shared ι} {line rest : List UInt8} (reply : Reply) (whole : IsLine line)
      (ahead : s.pending = line ++ rest) :
      Step s { s with
        pending := rest
        served := s.served ++ [(line, reply.response)]
        downstream := s.downstream ++ reply.bytes }
  /-- The server sends white space. -/
  | pad {s : Shared ι} {bs : List UInt8} (blank : Blank bs) :
      Step s { s with downstream := s.downstream ++ bs }

/-- Any number of steps. -/
def Steps : Shared ι → Shared ι → Prop := Relation.ReflTransGen (Step request limit)

/-- The states of a new client, its callers and its server. -/
def Reachable (s : Shared ι) : Prop := Steps request limit {} s

end Shared

end MacroBridge
