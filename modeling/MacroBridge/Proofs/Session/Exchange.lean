import MacroBridge.Proofs.Framing.Receipt
import MacroBridge.Proofs.Framing.Silence
import MacroBridge.Proofs.Session.Writing
import MacroBridge.Proofs.Text.Utf8
import MacroBridge.Proofs.Wire.Lawful
import MacroBridge.Session.Client

/-!
One exchange of a client with its server: what is sent, what is read, which failures end the
session, and when it never returns.
-/
namespace MacroBridge
open Json (Blank decodeFirst)
open Event (carried)

/-! ### Requests of callers -/

/-- A path that is a text is that text. -/
theorem OsPath.text?_ofText (text : String) : (OsPath.ofText text).text? = some text := by
  simp [OsPath.text?, ofText, Utf8.decode_encode, Except.toOption]

namespace Request

/-- A request for a library whose path is a text goes on the wire as it is. -/
theorem text?_given (r : Request) : r.given.text? = some r := by
  cases r <;> simp [text?, given, withLib, lib, OsPath.text?_ofText]

/-- Whether a request can go on the wire. -/
def Encodes (r : Request OsPath) : Prop := ∃ message, r.text? = some message

/-- The line of a request on the wire. It is empty if the request has no encoding. -/
def line (r : Request OsPath) : List UInt8 := (r.text?.map Wire.line).getD []

variable {r : Request OsPath} {message : Request}

theorem line_eq (h : r.text? = some message) : r.line = Wire.line message := by
  rw [line, h, Option.map_some, Option.getD_some]

theorem text?_eq_none (h : ¬ r.Encodes) : r.text? = none :=
  Option.eq_none_iff_forall_ne_some.mpr fun m hm => h ⟨m, hm⟩

theorem not_encodes (h : r.text? = none) : ¬ r.Encodes := by
  rintro ⟨message, hm⟩
  rw [h] at hm
  cases hm

theorem encodes_given (r : Request) : r.given.Encodes := ⟨r, r.text?_given⟩

end Request

/-! ### Exchanges -/

/-- The failures of the streams between client and server. -/
inductive ServerError.IsTransport : ServerError → Prop
  | codec {e : CodecError} (h : e ≠ .encode) : IsTransport (.codec e)
  | timeout (limit : Duration) : IsTransport (.timeout limit)

/-- A failure of the streams ends the use of the channel. -/
theorem ServerError.IsTransport.breaksChannel {e : ServerError} (h : e.IsTransport) :
    e.breaksChannel = true := by
  cases h with
  | @codec e h =>
    cases e with
    | encode => exact absurd rfl h
    | decode => rfl
    | io kind => rfl
    | unexpectedEof => rfl
  | timeout limit => rfl

theorem ServerError.IsTransport.ne_encode {e : ServerError} (h : e.IsTransport) :
    e ≠ .codec .encode := by
  rintro rfl
  cases h with
  | codec h => exact h rfl

theorem opens_response : (Wire.decoder (α := Response)).Opens := Json.Decoder.opens_oneOf _

namespace Reader
variable {α : Type} [Wire α] {r : Reader} {isOpen : Bool} {budget : Option Nat}
  {stream : List Event} {e : CodecError}

theorem await_failed (h : (r.await α isOpen budget stream).outcome = .failed e) : e ≠ .encode := by
  have hforever (budget : Option Nat) : waitForever (α := α) budget ≠ .failed e := by
    cases budget <;> simp [waitForever]
  induction stream generalizing r budget with
  | nil =>
    simp only [await] at h
    split at h
    · exact absurd h (hforever budget)
    · simp [← Outcome.failed.inj h]
  | cons event stream ih =>
    cases event with
    | bytes bs =>
      simp only [await] at h
      split at h
      · cases h
      · simp [← Outcome.failed.inj h]
      · exact ih h
    | ended => simp [← Outcome.failed.inj h]
    | failed kind => simp [← Outcome.failed.inj h]
    | delay n =>
      cases budget with
      | none => exact ih h
      | some left =>
        simp only [await] at h
        split at h
        · cases h
        · exact ih h
    | silence => exact absurd h (hforever budget)

/-- No read fails for want of an encoding. -/
theorem read_failed (h : (r.read α isOpen budget stream).outcome = .failed e) : e ≠ .encode := by
  rw [read] at h
  split at h
  · cases h
  · simp [← Outcome.failed.inj h]
  · exact await_failed h

end Reader

namespace Client

/-- A client that may be used, with a reader that has not begun to scan. -/
structure Live (c : Client) : Prop where
  usable : c.broken = false
  fresh : c.reader.boundary = {}

theorem Live.tracks {c : Client} (h : c.Live) : c.reader.Tracks := .inl h.fresh

theorem Live.sound {c : Client} (h : c.Live) : c.reader.Sound :=
  ⟨[], c.reader.buffer, rfl, h.fresh, trivial⟩

/-- Why a call that sends a line never returns, with the bytes of the line that the server takes.
The line never gets through, or the server goes silent behind bytes that do not begin with the text
of a response. -/
inductive Hangs (c : Client) (line : List UInt8) : List UInt8 → Prop
  | untaken {sent : List UInt8} (h : (c.link.peer.deliver c.link.taken line).Hangs line sent) :
      Hangs c line sent
  | unanswered {heard silent : List Event}
      (incoming_eq : c.link.incoming ++
        (c.link.peer.deliver c.link.taken line).replies.flatMap Event.reads = heard ++ silent)
      (passes : ∀ e ∈ heard, e.Passes)
      (silence : Event.Silent (c.link.peer.isOpen (c.link.taken ++ [line])) silent)
      (no_response : ∀ p text (response : Response) t, Blank p →
        Decodes Wire.decoder text response →
        c.reader.buffer ++ carried heard ≠ p ++ (text ++ t)) : Hangs c line line

/-- What became of a request that was sent. -/
inductive Exchanged (c : Client) (request : Request) : Call (Except ServerError Response) → Prop
  /-- It was answered with the first value that was to be read. -/
  | answered {response : Response} {c' : Client} (live : c'.Live) (limit : c'.limit = c.limit)
      (peer : c'.link.peer = c.link.peer)
      (taken : c'.link.taken = c.link.taken ++ [Wire.line request])
      (next : ∀ more, decodeFirst Wire.decoder (c.reader.buffer ++ (carried (c.link.incoming ++
          (c.link.peer.deliver c.link.taken (Wire.line request)).replies.flatMap Event.reads) ++
          more)) =
        .value response (c'.reader.buffer ++ (carried c'.link.incoming ++ more))) :
      Exchanged c request ⟨some (.ok response), Wire.line request, c'⟩
  | failed {e : ServerError} {sent : List UInt8} {c' : Client} (transport : e.IsTransport)
      (sent_initial : sent <+: Wire.line request) (broken : c'.broken = true) :
      Exchanged c request ⟨some (.error e), sent, c'⟩
  /-- It never returned. -/
  | stuck {sent : List UInt8} {c' : Client} (unlimited : c.limit = none)
      (hangs : c.Hangs (Wire.line request) sent) :
      Exchanged c request ⟨none, sent, c'⟩

theorem exchanged_fail {c c' : Client} {request : Request} {sent : List UInt8} {e : ServerError}
    (he : e.IsTransport) (hs : sent <+: Wire.line request) :
    Exchanged c request (c'.fail sent e) :=
  .failed he hs (by simp [failed, he.breaksChannel])

theorem converse_exchanged {c : Client} (h : c.Live) (request : Request) :
    Exchanged c request (c.converse (Wire.line request)) := by
  obtain ⟨hp, hd⟩ := c.link.write_spec (Wire.line request) (c.limit.map (·.millis))
  have hunlimited := c.link.unlimited_write (Wire.line request) (c.limit.map (·.millis))
  have hstuck := c.link.write_stuck (Wire.line request) (c.limit.map (·.millis))
  rw [Option.map_eq_none_iff] at hunlimited
  unfold converse
  generalize c.link.write (Wire.line request) (c.limit.map (·.millis)) =
    written at hp hd hunlimited hstuck
  dsimp only
  split
  · exact exchanged_fail (.codec (by simp)) hp
  · exact exchanged_fail (.timeout _) hp
  · next hw => exact .stuck (hunlimited (hw ▸ trivial)) (.untaken (hstuck hw))
  · next budget hw =>
    obtain ⟨htaken, hlink⟩ := hd budget hw
    generalize hr :
      c.reader.read Response written.link.isOpen budget written.link.incoming = receipt
    rcases receipt with ⟨outcome, reader, stream⟩
    cases outcome with
    | value response =>
      have hnext := Reader.read_eq_value Wire.lawful_response opens_response h.tracks hr
      simp only [htaken]
      refine .answered ⟨h.usable, (hnext []).2⟩ rfl ?_ ?_ fun more => ?_
      · rw [hlink]
      · rw [hlink]
      · rw [hlink] at hnext
        exact (hnext more).1
    | failed e =>
      exact exchanged_fail (.codec (Reader.read_failed (congrArg Reader.Receipt.outcome hr))) hp
    | expired => exact exchanged_fail (.timeout _) hp
    | stuck =>
      obtain ⟨rfl, heard, silent, hstream, hpass, hsilent, hno⟩ :=
        Reader.read_stuck Wire.lawful_response h.sound (congrArg Reader.Receipt.outcome hr)
      rw [hlink] at hstream hsilent
      simp only [htaken]
      exact .stuck (hunlimited (hw ▸ trivial)) (.unanswered hstream hpass hsilent hno)

theorem send_of_broken {c : Client} (h : c.broken = true) (request : Request OsPath) :
    c.send request = ⟨some (.error .broken), [], c⟩ := by
  simp [send, h]

/-- A request without an encoding fails with nothing sent, and leaves the client as it was. -/
theorem send_of_unencodable {c : Client} (h : c.broken = false) {request : Request OsPath}
    (hr : request.text? = none) : c.send request = ⟨some (.error (.codec .encode)), [], c⟩ := by
  have hfailed : c.failed (.codec .encode) = c := by simp [failed, ServerError.breaksChannel]
  simp only [send, h, Bool.false_eq_true, ↓reduceIte, exchange, hr, fail, hfailed]

theorem send_of_text {c : Client} (h : c.broken = false) {given : Request OsPath}
    {request : Request} (hr : given.text? = some request) :
    c.send given = c.converse (Wire.line request) := by
  simp [send, h, exchange, hr]

theorem send_of_encodes {c : Client} (h : c.broken = false) {request : Request OsPath}
    (hr : request.Encodes) : c.send request = c.converse request.line := by
  obtain ⟨message, hm⟩ := hr
  rw [send_of_text h hm, Request.line_eq hm]

theorem send_exchanged {c : Client} (h : c.Live) (request : Request) :
    Exchanged c request (c.send request.given) :=
  send_of_text h.usable request.text?_given ▸ converse_exchanged h request

end Client

end MacroBridge
