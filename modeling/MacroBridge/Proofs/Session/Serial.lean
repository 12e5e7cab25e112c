import MacroBridge.Proofs.Session.InFlight

/-!
The calls on a shared client are calls of the client alone, one after the other, on some link. The
link takes and gives the bytes in the pieces in which they moved, and fails where a call has
failed.
-/
namespace MacroBridge

variable {ι : Type} {request : ι → Request OsPath} {limit : Option Duration}

/-- Calls one after the other. -/
inductive Client.Serves (request : ι → Request OsPath) (c : Client) : List (Past ι) → Client → Prop
  | nil : Serves request c [] c
  | snoc {past : List (Past ι)} {c' c'' : Client} {p : Past ι} (h : Serves request c past c')
      (call : c'.send (request p.caller) = ⟨some p.result, p.sent, c''⟩) :
        Serves request c (past ++ [p]) c''

namespace Delivery

/-- A write that takes the first bytes of a message leaves the others. -/
theorem writeAll_took (budget : Option Nat) {bs : List UInt8} (hne : bs ≠ []) (rest : List UInt8)
    (more : List WriteReply) : writeAll budget (bs ++ rest) (.took bs.length :: more) =
      (bs ++ (writeAll budget rest more).1, (writeAll budget rest more).2) := by
  obtain ⟨b, bs, rfl⟩ := List.exists_cons_of_ne_nil hne
  simp [writeAll]

end Delivery

namespace Reader

theorem read_more {r r' : Reader} (h : r.poll Response = (.more, r')) (isOpen : Bool)
    (budget : Option Nat) (stream : List Event) :
    r.read Response isOpen budget stream = r'.await Response isOpen budget stream := by
  rw [read, h]

end Reader

/-- Bytes that one read takes. -/
def Event.IsPiece (e : Event) : Prop := ∃ bs, e = .bytes bs ∧ bs ≠ [] ∧ bs.length ≤ readSize

theorem Event.reads_pieces {es : List Event} (h : ∀ e ∈ es, e.IsPiece) :
    es.flatMap reads = es := by
  induction es with
  | nil => rfl
  | cons e es ih =>
    obtain ⟨bs, rfl, hne, hlen⟩ := h e (by simp)
    obtain ⟨b, bs, rfl⟩ := List.exists_cons_of_ne_nil hne
    have hle : bs.length ≤ readSize - 1 := by
      simp only [List.length_cons] at hlen
      omega
    have hchunks : chunks (b :: bs) = [.bytes (b :: bs)] := by
      rw [chunks, List.take_of_length_le hle, List.drop_of_length_le hle, chunks]
    rw [List.flatMap_cons, ih fun x hx => h x (by simp [hx]), reads, hchunks]
    rfl

/-- The time that one exchange may take. -/
def budget (limit : Option Duration) : Option Nat := limit.map (·.millis)

/-- A call in its exchange as the scripts that have led to where it is: replies to its writes, and
the pieces that it has read. Whatever follows in the scripts is met from there. -/
inductive Midway (limit : Option Duration) (line : List UInt8) (r₀ : Reader) :
    Phase → List UInt8 → Reader → Prop
  | writing {written rest : List UInt8} (writes : List WriteReply) (whole : line = written ++ rest)
      (h : ∀ more, Delivery.writeAll (budget limit) line (writes ++ more) =
        (written ++ (Delivery.writeAll (budget limit) rest more).1,
          (Delivery.writeAll (budget limit) rest more).2)) :
      Midway limit line r₀ (.writing rest) written r₀
  | looking {r : Reader} (writes : List WriteReply) (events : List Event)
      (hw : Delivery.writeAll (budget limit) line writes = (line, .done (budget limit)))
      (pieces : ∀ e ∈ events, e.IsPiece)
      (h : ∀ isOpen more, r₀.read Response isOpen (budget limit) (events ++ more) =
        r.read Response isOpen (budget limit) more) :
      Midway limit line r₀ .looking line r
  | reading {r : Reader} (writes : List WriteReply) (events : List Event)
      (hw : Delivery.writeAll (budget limit) line writes = (line, .done (budget limit)))
      (pieces : ∀ e ∈ events, e.IsPiece)
      (h : ∀ isOpen more, r₀.read Response isOpen (budget limit) (events ++ more) =
        r.await Response isOpen (budget limit) more) :
      Midway limit line r₀ .reading line r

namespace Midway
variable {line written : List UInt8} {r₀ r : Reader}

theorem start (line : List UInt8) (r₀ : Reader) : Midway limit line r₀ (.writing line) [] r₀ :=
  .writing [] rfl fun _ => rfl

theorem write {bs rest : List UInt8} (h : Midway limit line r₀ (.writing (bs ++ rest)) written r)
    (hne : bs ≠ []) : Midway limit line r₀ (.writing rest) (written ++ bs) r := by
  cases h with
  | writing writes whole h =>
    refine .writing (writes ++ [.took bs.length]) (by rw [whole, List.append_assoc]) fun more => ?_
    rw [List.append_assoc, h, List.singleton_append, Delivery.writeAll_took _ hne,
      List.append_assoc]

/-- All of a request is written once nothing is left of it. -/
theorem writeAll_done {line : List UInt8} {writes : List WriteReply}
    (h : ∀ more, Delivery.writeAll (budget limit) line (writes ++ more) =
      (written ++ (Delivery.writeAll (budget limit) [] more).1,
        (Delivery.writeAll (budget limit) [] more).2)) :
    Delivery.writeAll (budget limit) line writes = (written, .done (budget limit)) := by
  simpa [Delivery.writeAll] using h []

theorem flush (h : Midway limit line r₀ (.writing []) written r) :
    Midway limit line r₀ .looking written r := by
  cases h with
  | writing writes whole h =>
    rw [List.append_nil] at whole
    subst whole
    refine .looking writes [] ?_ (by simp) fun _ _ => rfl
    exact writeAll_done h

theorem want {r' : Reader} (h : Midway limit line r₀ .looking written r)
    (hp : r.poll Response = (.more, r')) : Midway limit line r₀ .reading written r' := by
  cases h with
  | looking writes events hw pieces h =>
    exact .reading writes events hw pieces fun isOpen more => by rw [h, Reader.read_more hp]

theorem receive {bs : List UInt8} (h : Midway limit line r₀ .reading written r) (hne : bs ≠ [])
    (hfits : bs.length ≤ Event.readSize) : Midway limit line r₀ .looking written (r.feed bs) := by
  cases h with
  | reading writes events hw pieces h =>
    refine .looking writes (events ++ [.bytes bs]) hw ?_ fun isOpen more => ?_
    · intro e he
      rcases List.mem_append.mp he with he | he
      · exact pieces e he
      · exact ⟨bs, List.mem_singleton.mp he, hne, hfits⟩
    · rw [List.append_assoc, h, List.singleton_append, Reader.await_bytes]

end Midway

/-! ### The end of a call -/

namespace Client

/-- A client before an exchange in which its server takes the request as `d` says. -/
structure Meets (limit : Option Duration) (line : List UInt8) (r₀ : Reader) (d : Delivery)
    (c : Client) : Prop where
  usable : c.broken = false
  limit_eq : c.limit = limit
  reader_eq : c.reader = r₀
  incoming_eq : c.link.incoming = []
  deliver_eq : c.link.peer.deliver c.link.taken line = d

/-- The end of a call whose request is written, with what the reader has come to. -/
def conclude (c : Client) (sent : List UInt8) :
    Reader.Outcome Response → Call (Except ServerError Response)
  | .value response => ⟨some (.ok response), sent, c⟩
  | .failed e => c.fail sent (.codec e)
  | .expired => c.fail sent c.timeout
  | .stuck => ⟨none, sent, c⟩

variable {r₀ : Reader} {c : Client} {own : List UInt8} {writes : List WriteReply}
  {replies : List Event}

theorem wait_zero (left : Option Nat) : Progress.wait left (some 0) = .done left := by
  cases left <;> simp [Progress.wait]

/-- The line is written, and what the server sends then is read. -/
theorem Meets.converse_eq (h : c.Meets limit (own) r₀ { writes, replies })
    (hw : Delivery.writeAll (budget limit) (own) writes = (own, .done (budget limit)))
    (outcome : Reader.Outcome Response) (r : Reader) (stream : List Event)
    (hr : ∀ isOpen, r₀.read Response isOpen (budget limit) (replies.flatMap Event.reads) =
      ⟨outcome, r, stream⟩) :
    c.converse own = ({ c with
      link := { c.link with taken := c.link.taken ++ [own], incoming := stream }
      reader := r } : Client).conclude (own) outcome := by
  obtain ⟨usable, rfl, rfl, hincoming, hdeliver⟩ := h
  have hwrite : c.link.write (own) (c.limit.map (·.millis)) =
      ⟨own, .done (budget c.limit), { c.link with
        taken := c.link.taken ++ [own], incoming := replies.flatMap Event.reads }⟩ := by
    rw [budget] at hw ⊢
    simp only [Link.write, hdeliver, hw, wait_zero, hincoming, List.nil_append]
  simp only [converse, hwrite, hr]
  cases outcome <;> rfl

/-- Whether a call that sends the line fails, with `r` as it leaves the reader. -/
def Ends (own : List UInt8) (written : List UInt8) (e : ServerError) (r : Reader) (c : Client) :
    Prop :=
  ∃ c', c.converse own = ⟨some (.error e), written, c'⟩ ∧ c'.reader = r ∧ c'.broken = true

theorem ends_of_fail {written : List UInt8} {e : ServerError} (c' : Client) (he : e.IsTransport)
    (h : c.converse own = c'.fail written e) : c.Ends own written e c'.reader := by
  exact ⟨_, h, rfl, by simp [failed, he.breaksChannel]⟩

/-- The request is not written or not flushed. -/
theorem Meets.ends_of_failed {d : Delivery} (h : c.Meets limit (own) r₀ d) {written : List UInt8}
    {kind : IoKind} {l : Link}
    (hw : c.link.write (own) (budget limit) = ⟨written, .failed kind, l⟩) :
    c.Ends own written (.codec (.io kind)) r₀ := by
  obtain ⟨usable, rfl, rfl, hincoming, hdeliver⟩ := h
  rw [budget] at hw
  have hcall : c.converse own =
      ({ c with link := l } : Client).fail written (.codec (.io kind)) := by
    simp only [converse, hw]
  exact ends_of_fail { c with link := l } (.codec (by simp)) hcall

theorem Meets.ends_of_expired {d : Delivery} (h : c.Meets limit (own) r₀ d) {written : List UInt8}
    {duration : Duration} (hl : limit = some duration) {l : Link}
    (hw : c.link.write (own) (budget limit) = ⟨written, .expired, l⟩) :
    c.Ends own written (.timeout duration) r₀ := by
  obtain ⟨usable, rfl, rfl, hincoming, hdeliver⟩ := h
  rw [budget] at hw
  have hcall : c.converse own =
      ({ c with link := l } : Client).fail written (.timeout duration) := by
    simp only [converse, hw]
    simp only [timeout, hl, Option.getD_some]
  exact ends_of_fail { c with link := l } (.timeout _) hcall

end Client

namespace Midway
variable {own : List UInt8} {written : List UInt8} {r₀ r r' : Reader} {e : ServerError}

/-- The response is in the buffer. -/
theorem exists_found (h : Midway limit (own) r₀ .looking written r) {response : Response}
    (hp : r.poll Response = (.value response, r')) :
    ∃ d : Delivery, ∀ c : Client, c.Meets limit (own) r₀ d →
      c.converse own = ⟨some (.ok response), written, { c with
        link :=
  { c.link with taken := c.link.taken ++ [own], incoming := [] }, reader := r' }⟩ := by
  cases h with
  | looking writes events hw pieces h =>
    refine ⟨{ writes, replies := events }, fun c hc => ?_⟩
    refine hc.converse_eq hw (.value response) r' [] fun isOpen => ?_
    rw [Event.reads_pieces pieces, ← List.append_nil events, h, Reader.read, hp]

/-- What is in the buffer is no response. -/
theorem exists_garbled (h : Midway limit (own) r₀ .looking written r)
    (hp : r.poll Response = (.malformed, r')) :
    ∃ d : Delivery, ∀ c : Client, c.Meets limit (own) r₀ d →
      c.Ends own written (.codec .decode) r' := by
  cases h with
  | looking writes events hw pieces h =>
    refine ⟨{ writes, replies := events }, fun c hc => ?_⟩
    refine Client.ends_of_fail _ (.codec (by simp))
      (hc.converse_eq hw (.failed .decode) r' [] fun isOpen => ?_)
    rw [Event.reads_pieces pieces, ← List.append_nil events, h, Reader.read, hp]

/-- An event that ends a wait. -/
theorem exists_ended (h : Midway limit (own) r₀ .reading written r) (event : Event)
    (outcome : Reader.Outcome Response) {stream : List Event} (hevent : event.reads = [event])
    (hr : ∀ isOpen, r.await Response isOpen (budget limit) [event] = ⟨outcome, r, stream⟩) :
    ∃ d : Delivery, ∀ c : Client, c.Meets limit (own) r₀ d → ∃ l : Link,
      c.converse own = ({ c with link := l, reader := r } : Client).conclude written outcome := by
  cases h with
  | reading writes events hw pieces h =>
    refine ⟨{ writes, replies := events ++ [event] }, fun c hc => ?_⟩
    refine ⟨{ c.link with taken := c.link.taken ++ [own], incoming := stream }, ?_⟩
    refine hc.converse_eq hw outcome r stream fun isOpen => ?_
    rw [List.flatMap_append, Event.reads_pieces pieces, List.flatMap_singleton, hevent, h, hr]

/-- A failure of a write, or of the flush behind the last one. -/
theorem exists_refused {rest : List UInt8} (h : Midway limit (own) r₀ (.writing rest) written r)
    (kind : IoKind) : ∃ d : Delivery, ∀ c : Client, c.Meets limit (own) r₀ d →
      c.Ends own written (.codec (.io kind)) r := by
  cases h with
  | writing writes whole h =>
    -- With nothing left to write it is the flush that fails.
    cases rest with
    | nil =>
      refine ⟨{ writes, flushFault := some kind }, fun c hc => ?_⟩
      refine hc.ends_of_failed (l := { c.link with taken := c.link.taken ++ [own] }) ?_
      simp only [Link.write, hc.deliver_eq, writeAll_done h, Client.wait_zero]
    | cons b rest =>
      refine ⟨{ writes := writes ++ [.refused kind] },
        fun c hc => hc.ends_of_failed (l := c.link) ?_⟩
      simp only [Link.write, hc.deliver_eq, h, Delivery.writeAll, List.append_nil]

/-- A write that takes too long, or the flush behind the last one. -/
theorem exists_late {rest : List UInt8} (h : Midway limit (own) r₀ (.writing rest) written r)
    {duration : Duration} (hl : limit = some duration) :
    ∃ d : Delivery, ∀ c : Client, c.Meets limit (own) r₀ d →
      c.Ends own written (.timeout duration) r := by
  have hwait : Progress.wait (budget limit) none = .expired := by
    rw [hl]
    rfl
  cases h with
  | writing writes whole h =>
    cases rest with
    | nil =>
      refine ⟨{ writes, flushTime := none }, fun c hc => hc.ends_of_expired hl (l := c.link) ?_⟩
      simp only [Link.write, hc.deliver_eq, writeAll_done h, hwait]
    | cons b rest =>
      refine ⟨{ writes := writes ++ [.silence] },
        fun c hc => hc.ends_of_expired hl (l := c.link) ?_⟩
      simp only [Link.write, hc.deliver_eq, h, Delivery.writeAll, hwait, List.append_nil]

/-- A failure that ends the call. -/
theorem exists_failure {p : Phase} (h : Midway limit (own) r₀ p written r) (he : p.Fails limit e) :
    ∃ d : Delivery, ∀ c : Client, c.Meets limit (own) r₀ d → c.Ends own written e r := by
  cases he with
  | write rest kind => exact h.exists_refused kind
  | writeTimeout rest hl => exact h.exists_late hl
  | ended =>
    obtain ⟨d, hd⟩ := h.exists_ended .ended (.failed .unexpectedEof) rfl fun isOpen => rfl
    refine ⟨d, fun c hc => ?_⟩
    obtain ⟨l, hcall⟩ := hd c hc
    exact Client.ends_of_fail _ (.codec (by simp)) hcall
  | read kind =>
    obtain ⟨d, hd⟩ := h.exists_ended (.failed kind) (.failed (.io kind)) rfl fun isOpen => rfl
    refine ⟨d, fun c hc => ?_⟩
    obtain ⟨l, hcall⟩ := hd c hc
    exact Client.ends_of_fail _ (.codec (by simp)) hcall
  | @readTimeout duration hl =>
    obtain ⟨d, hd⟩ := h.exists_ended .silence .expired rfl fun isOpen => by
      rw [hl]
      rfl
    refine ⟨d, fun c hc => ?_⟩
    obtain ⟨l, hcall⟩ := hd c hc
    have htimeout : ({ c with link := l, reader := r } : Client).timeout = .timeout duration := by
      rw [Client.timeout, hc.limit_eq, hl]
      rfl
    rw [Client.conclude, htimeout] at hcall
    exact Client.ends_of_fail _ (.timeout duration) hcall

end Midway

/-! ### Runs -/

/-- A client on a link that follows a script, with some messages taken and nothing left to read. -/
def Client.scripted (limit : Option Duration) (deliveries : List Delivery)
    (taken : List (List UInt8)) (reader : Reader) : Client :=
  { link := { peer := .ofScript deliveries, taken }, reader, limit }

theorem Client.scripted_meets {deliveries : List Delivery} {taken : List (List UInt8)}
    (h : taken.length = deliveries.length) (line : List UInt8) (r : Reader) (d : Delivery)
    (more : List Delivery) :
    (scripted limit (deliveries ++ d :: more) taken r).Meets limit line r d where
  usable := rfl
  limit_eq := rfl
  reader_eq := rfl
  incoming_eq := rfl
  deliver_eq := by simp [scripted, Peer.ofScript, h]

namespace Shared

/-- The calls that have returned are calls of a client alone on a scripted link. While the channel
is in use the script may go on in any way, and the current call has come as far as its part of the
script. -/
inductive Replayed (request : ι → Request OsPath) (limit : Option Duration) (s : Shared ι) : Prop
  | inUse (deliveries : List Delivery) (taken : List (List UInt8)) (r₀ : Reader)
      (length_eq : taken.length = deliveries.length)
      (serves : ∀ more, (Client.scripted limit (deliveries ++ more) [] {}).Serves request s.past
        (.scripted limit (deliveries ++ more) taken r₀))
      (usable : s.broken = false) (free : s.holder = none → r₀ = s.reader)
      (busy : ∀ i, s.holder = some i →
        Midway limit (request i).line r₀ (s.phase i) s.written s.reader)
  | stopped (deliveries : List Delivery) (c : Client)
      (serves : (Client.scripted limit deliveries [] {}).Serves request s.past c)
      (reader_eq : c.reader = s.reader) (broken_eq : c.broken = s.broken)
      (broken : s.broken = true) (free : s.holder = none)

variable {s s' : Shared ι} {i : ι}

theorem replayed_fresh : Replayed request limit ({} : Shared ι) :=
  .inUse [] [] {} rfl (fun _ => .nil) rfl (fun _ => rfl) (by simp)

namespace Replayed

/-- The script of a channel in use. -/
theorem exists_script (h : Replayed request limit s) (hs : s.Sound request)
    (hi : (s.phase i).Exchanges) :
    ∃ deliveries taken r₀, taken.length = deliveries.length ∧ (request i).Encodes ∧
      (∀ more, (Client.scripted limit (deliveries ++ more) [] {}).Serves request s.past
        (.scripted limit (deliveries ++ more) taken r₀)) ∧
      Midway limit (request i).line r₀ (s.phase i) s.written s.reader := by
  obtain ⟨hold, hb, hencodes, -⟩ := hs.exchanges hi
  cases h with
  | inUse deliveries taken r₀ length_eq serves usable free busy =>
    exact ⟨deliveries, taken, r₀, length_eq, hencodes, serves, busy i hold⟩
  | stopped deliveries c serves reader_eq broken_eq broken free =>
    rw [hb] at broken
    simp at broken

/-- A step outside the callers. -/
theorem outside {upstream pending downstream : List UInt8} {served : List (List UInt8 × Response)}
    (h : Replayed request limit s) :
    Replayed request limit { s with upstream, pending, served, downstream } := by
  cases h with
  | inUse deliveries taken r₀ length_eq serves usable free busy =>
    exact .inUse deliveries taken r₀ length_eq serves usable free busy
  | stopped deliveries c serves reader_eq broken_eq broken free =>
    exact .stopped deliveries c serves reader_eq broken_eq broken free

variable [DecidableEq ι]

/-- A step of the caller in the exchange that keeps it there. -/
theorem goOn {p : Phase} {written upstream downstream : List UInt8} {reader : Reader}
    (h : Replayed request limit s) (hs : s.Sound request) (hi : (s.phase i).Exchanges)
    (hm : ∀ r₀, Midway limit (request i).line r₀ (s.phase i) s.written s.reader →
      Midway limit (request i).line r₀ p written reader) :
    Replayed request limit { s.move i p with written, upstream, downstream, reader } := by
  obtain ⟨hold, hb, -⟩ := hs.exchanges hi
  obtain ⟨deliveries, taken, r₀, length_eq, -, serves, hmid⟩ := h.exists_script hs hi
  refine .inUse deliveries taken r₀ length_eq serves hb (fun hnone => ?_) fun j hj => ?_
  · exact absurd (hold.symm.trans hnone) (by simp)
  · obtain rfl : j = i := Option.some.inj (hj.symm.trans hold)
    simpa [move] using hm r₀ hmid

/-- A call that fails in its exchange. -/
theorem fail {e : ServerError} {reader : Reader} (h : Replayed request limit s)
    (hs : s.Sound request) (hi : (s.phase i).Exchanges) (he : e.IsTransport)
    (hm : ∀ r₀, Midway limit (request i).line r₀ (s.phase i) s.written s.reader →
      ∃ d : Delivery, ∀ c : Client, c.Meets limit (request i).line r₀ d →
        c.Ends (request i).line s.written e reader) :
    Replayed request limit { s.finish i (.error e) with reader } := by
  obtain ⟨deliveries, taken, r₀, length_eq, hencodes, serves, hmid⟩ := h.exists_script hs hi
  obtain ⟨d, hd⟩ := hm r₀ hmid
  obtain ⟨c', hcall, hreader, hbroken⟩ := hd _ (Client.scripted_meets length_eq _ r₀ d [])
  have hb : (s.broken || e.breaksChannel) = true := by simp [he.breaksChannel]
  have hsend := (Client.send_of_encodes rfl hencodes).trans hcall
  exact .stopped (deliveries ++ [d]) c' (.snoc (serves [d]) hsend) hreader
    (hbroken.trans hb.symm) hb rfl

theorem step (h : Replayed request limit s) (hsound : s.Sound request)
    (hs : Step request limit s s') : Replayed request limit s' := by
  cases hs with
  | @call i hi =>
    cases h with
    | inUse deliveries taken r₀ length_eq serves usable free busy =>
      refine .inUse deliveries taken r₀ length_eq serves usable free fun j hj => ?_
      have hne : j ≠ i := by
        rintro rfl
        simpa [hi] using (hsound.callers.holder_iff j).mp hj
      simpa [move, Function.update_of_ne hne] using busy j hj
    | stopped deliveries c serves reader_eq broken_eq broken free =>
      exact .stopped deliveries c serves reader_eq broken_eq broken free
  -- The exchange starts from the reader as the call before has left it.
  | @acquire i hi free usable encodes =>
    cases h with
    | inUse deliveries taken r₀ length_eq serves _ hfree busy =>
      refine .inUse deliveries taken r₀ length_eq serves usable (by simp) fun j hj => ?_
      obtain rfl : i = j := Option.some.inj hj
      have hstart : Midway limit (request i).line s.reader (.writing (request i).line)
          [] s.reader :=
        .start _ _
      simpa [move, hfree free, hsound.idle free] using hstart
    | stopped deliveries c serves reader_eq broken_eq broken =>
      rw [usable] at broken
      simp at broken
  -- The call that is rejected takes nothing of the script.
  | @reject i hi free usable unencodable =>
    cases h with
    | inUse deliveries taken r₀ length_eq serves _ hfree busy =>
      refine .inUse deliveries taken r₀ length_eq (fun more => .snoc (serves more) ?_)
        ((finish_encode s i).trans usable) (fun _ => hfree free) (by simp [finish])
      rw [Client.send_of_unencodable rfl (Request.text?_eq_none unencodable), hsound.idle free]
    | stopped deliveries c serves reader_eq broken_eq broken =>
      rw [usable] at broken
      simp at broken
  | @refuse i hi free broken =>
    cases h with
    | inUse deliveries taken r₀ length_eq serves usable =>
      rw [usable] at broken
      simp at broken
    | stopped deliveries c serves reader_eq broken_eq =>
      have hcall : c.send (request i) = ⟨some (.error .broken), s.written, c⟩ := by
        rw [Client.send_of_broken (broken_eq.trans broken), hsound.idle free]
      have hb : s.broken = (s.finish i (.error .broken)).broken := by
        simp [finish, ServerError.breaksChannel]
      exact .stopped deliveries c (.snoc serves hcall) reader_eq (broken_eq.trans hb)
        (hb ▸ broken) rfl
  | @write i bs rest hi hne =>
    exact h.goOn hsound (by simp [hi]) fun r₀ hm => (hi ▸ hm).write hne
  | @flush i hi =>
    exact h.goOn hsound (by simp [hi]) fun r₀ hm => (hi ▸ hm).flush
  | @found i response reader hi hp =>
    obtain ⟨deliveries, taken, r₀, length_eq, hencodes, serves, hmid⟩ :=
      h.exists_script hsound (i := i) (by simp [hi])
    -- The script of the finished call is fixed, and what may follow it stays open.
    obtain ⟨d, hd⟩ := (hi ▸ hmid).exists_found hp
    refine .inUse (deliveries ++ [d]) (taken ++ [(request i).line]) reader ?_ (fun more => ?_) ?_
      (fun _ => rfl) ?_
    · simp [length_eq]
    · rw [List.append_assoc, List.singleton_append]
      refine .snoc (serves (d :: more)) ?_
      exact (Client.send_of_encodes rfl hencodes).trans
        (hd _ (Client.scripted_meets length_eq _ r₀ d more))
    · simpa [finish] using (hsound.exchanges (i := i) (by simp [hi])).2.1
    · simp [finish]
  | @garbled i reader hi hp =>
    exact h.fail hsound (by simp [hi]) (.codec (by simp)) fun r₀ hm => (hi ▸ hm).exists_garbled hp
  | @wanting i reader hi hp =>
    exact h.goOn hsound (by simp [hi]) fun r₀ hm => (hi ▸ hm).want hp
  | @receive i bs rest hi ahead hne fits =>
    exact h.goOn hsound (by simp [hi]) fun r₀ hm => (hi ▸ hm).receive hne fits
  | @fail i e he =>
    exact h.fail hsound he.exchanges.1 he.exchanges.2 fun r₀ hm => hm.exists_failure he
  | arrive ahead => exact h.outside
  | answer reply whole ahead => exact h.outside
  | pad hb => exact h.outside

theorem of_reachable (h : Reachable request limit s) : Replayed request limit s := by
  induction h with
  | refl => exact replayed_fresh
  | tail hsteps hstep ih => exact ih.step (.of_reachable hsteps) hstep

end Replayed

end Shared

end MacroBridge
