import Mathlib
import MacroBridge.Proofs.Framing.Receipt
import MacroBridge.Proofs.Wire.Lawful

/-!
What becomes of the bytes that a reader receives. A reader keeps every byte until it has been part
of a message, with two exceptions: white space, and closing brackets at which a message should have
begun. The latter are dropped with the white space around them once a call has been refused at each
of them.
-/
namespace MacroBridge
open Json (Blank Container byte isSpace skipSpace_cons skipSpace_blank_cons decodeFirst)
open Event (carried)

open Json (closes closes_iff closes_of_isSpace)

/-! ### Closing brackets -/

namespace Json.Decoder
variable {α β σ : Type} {d : Decoder α}

/-- Whether a decoder finds fault with a closing bracket whatever follows it. -/
def Refuses (d : Decoder α) : Prop :=
  ∀ limits (c : Container) s, d limits (byte c.last :: s) = .error .malformed

theorem Refuses.map (h : d.Refuses) (f : α → β) : (d.map f).Refuses := by
  intro limits c s
  rw [Decoder.map, h]
  rfl

theorem Refuses.refine (h : d.Refuses) (f : α → Option β) : (d.refine f).Refuses := by
  intro limits c s
  rw [Decoder.refine, h]
  rfl

theorem Refuses.option (h : d.Refuses) : d.option.Refuses := by
  intro limits c s
  have hn : byte c.last ≠ byte 'n' := by cases c <;> decide
  simp only [Decoder.option, skipSpace_cons (Container.isSpace_last c), hn, ↓reduceIte]
  exact h.map some limits c s

theorem reject_last (c : Container) (s : List UInt8) : reject (byte c.last) s = .malformed := by
  cases c <;> rfl

theorem refuses_natural (bound : Nat) : (natural bound).Refuses := by
  intro limits c s
  have hno : (byte c.last = byte '-' || isDigit (byte c.last)) = false := by cases c <;> decide
  simp [natural, skipSpace_cons (Container.isSpace_last c), hno, reject_last]

theorem refuses_container {first last : Char} (hf : ∀ c : Container, byte c.last ≠ byte first)
    (body : Decoder α) : (container first last body).Refuses := by
  intro limits c s
  simp [container, skipSpace_cons (Container.isSpace_last c), hf c, reject_last]

theorem refuses_record (fields : List (Field σ)) (start : σ) (finish : σ → Option α)
    (mayEnd : Bool) : (record fields start finish mayEnd).Refuses := by
  refine Refuses.refine (fun limits c s => ?_) finish
  have hno : byte c.last ≠ byte '[' := by cases c <;> decide
  simp only [skipSpace_cons (Container.isSpace_last c), List.head?_cons, Option.some.injEq,
    hno, ↓reduceIte]
  exact refuses_container (by rintro (_ | _) <;> decide) _ limits c s

theorem refuses_oneOf (cases : List (String × Case α)) : (oneOf cases).Refuses := by
  intro limits c s
  have hno : byte c.last ≠ byte '\x7b' ∧ byte c.last ≠ byte '"' := by cases c <;> decide
  simp [oneOf, skipSpace_cons (Container.isSpace_last c), hno]

/-- White space before the bracket makes no difference. -/
theorem Refuses.decodeFirst_eq (h : d.Refuses) {p : List UInt8} (hp : Blank p) (c : Container)
    (s : List UInt8) : decodeFirst d (p ++ byte c.last :: s) = .malformed := by
  simp [decodeFirst, skipSpace_blank_cons hp (Container.isSpace_last c), h _ c s]

end Json.Decoder

open Json.Decoder in
theorem Wire.refuses_groupDecoder (child : Json.Decoder TokenTree) :
    (groupDecoder child).Refuses :=
  refuses_record _ _ _ _

open Json.Decoder in
theorem Wire.refuses_textAndId {α : Type} (make : String → TokenId → α) :
    (textAndId make).Refuses :=
  refuses_record _ _ _ _

open Json.Decoder in
/-- No message begins with a closing bracket. -/
theorem MessageType.refuses (type : MessageType) : (Wire.decoder (α := type.Value)).Refuses := by
  cases type with
  | tokenId => exact (refuses_natural _).map _
  | literal | ident => exact Wire.refuses_textAndId _
  | subtree => exact Wire.refuses_groupDecoder _
  | optionSubtree => exact Refuses.option (Wire.refuses_groupDecoder _)
  | delimiter | punct | listTask | listResult | expansionTask | expansionResult | reportedError =>
    exact refuses_record _ _ _ _
  | bracket | spacing | leaf | tokenTree | macroKind | errorCode | request | response =>
    exact refuses_oneOf _

/-- A message that is decoded has a JSON text at the front, behind white space. -/
theorem Json.decodeFirst_spells {α : Type} {d : Json.Decoder α} (hd : d.Lawful)
    {s t : List UInt8} {a : α} (h : decodeFirst d s = .value a t) :
    ∃ p w, Blank p ∧ Json.IsValue w ∧ s = p ++ (w ++ t) := by
  cases hs : Json.skipSpace s with
  | nil => simp [decodeFirst, hs] at h
  | cons b u =>
    obtain ⟨q, hq, -, rfl⟩ := Json.skipSpace_eq_cons_iff.mp hs
    simp only [decodeFirst, hs] at h
    split at h
    · simp at h
    · simp at h
    · next a' rest ho =>
      split at h
      · obtain ⟨rfl, rfl⟩ := Json.Attempt.value.inj h
        obtain ⟨p, w, hp, hw, hu⟩ := hd.spells ho
        exact ⟨q ++ p, w, hq.append hp, hw, by rw [hu, List.append_assoc]⟩
      · simp at h

/-! ### Scanning where no message has begun -/

namespace Boundary
variable {b : Boundary}

/-- A scan that is not inside a value. -/
structure Idle (b : Boundary) : Prop extends Outside b where
  depth : b.depth = 0
  started : b.started = false

theorem idle_past (n : Nat) : (({} : Boundary).past n).Idle := ⟨⟨rfl, rfl⟩, rfl, rfl⟩

theorem Idle.past (h : b.Idle) (n : Nat) : (b.past n).Idle :=
  ⟨h.toOutside.past n, h.depth, h.started⟩

theorem Idle.step_last (h : b.Idle) (c : Container) : b.step (byte c.last) = (b.past 1, true) := by
  rw [Boundary.step_last h.toOutside, h.depth]
  simp [Boundary.past, h.depth]

/-- A byte that is neither white space nor a closing bracket begins a value. -/
theorem Idle.step_other (h : b.Idle) {x : UInt8} (hx : isSpace x = false) (hc : closes x = false) :
    (b.step x).1.started = true := by
  unfold step
  simp only [closes, Bool.or_eq_false_iff, beq_eq_false_iff_ne] at hc
  simp only [h.inString, hx, hc, Bool.false_eq_true, ↓reduceIte, decide_false, Bool.or_self]
  split_ifs
  · rfl
  · rfl
  · rfl

/-- A scan that is not inside a value begins one, or passes over white space, or stops at a closing
bracket. -/
theorem Idle.scan (h : b.Idle) (s : List UInt8) :
    (b.scan s).1.started = true ∨ Blank s ∧ b.scan s = (b.past s.length, false) ∨
      ∃ p c t, s = p ++ byte (Container.last c) :: t ∧ Blank p ∧
        b.scan s = (b.past (p.length + 1), true) := by
  induction s generalizing b with
  | nil => exact .inr (.inl ⟨Json.blank_nil, rfl⟩)
  | cons x s ih =>
    by_cases hx : isSpace x = true
    · rw [Boundary.scan, step_space h.toOutside hx]
      rcases ih (h.past 1) with hs | ⟨hs, he⟩ | ⟨p, c, t, rfl, hp, he⟩
      · exact .inl hs
      · refine .inr (.inl ⟨List.forall_mem_cons.mpr ⟨hx, hs⟩, ?_⟩)
        simp only [he, past_past, List.length_cons, Nat.add_comm]
      · refine .inr (.inr ⟨x :: p, c, t, rfl, List.forall_mem_cons.mpr ⟨hx, hp⟩, ?_⟩)
        simp only [he, past_past, List.length_cons, Nat.add_comm 1]
    · by_cases hc : closes x = true
      · obtain ⟨c, rfl⟩ := closes_iff.mp hc
        refine .inr (.inr ⟨[], c, s, rfl, Json.blank_nil, ?_⟩)
        rw [Boundary.scan, h.step_last]
        rfl
      · left
        have hstart := h.step_other (by simpa using hx) (by simpa using hc)
        rw [Boundary.scan]
        split
        · next b' hb => rwa [hb] at hstart
        · next b' hb =>
          rw [hb] at hstart
          exact started_scan hstart s

end Boundary

/-! ### The account -/

/-- A message of any type. -/
structure Message where
  type : MessageType
  value : type.Value

/-- A reader and its past: the bytes that it has received, the messages that it has returned, and
how often it has refused to decode. -/
structure Ledger where
  reader : Reader := {}
  received : List UInt8 := []
  messages : List Message := []
  refusals : Nat := 0

/-- What happens to a reader: bytes come, or its buffer is looked at for a message. -/
inductive Happening
  | came (bytes : List UInt8)
  | asked (type : MessageType)

namespace Ledger

def step (l : Ledger) : Happening → Ledger
  | .came bytes => { l with reader := l.reader.feed bytes, received := l.received ++ bytes }
  | .asked type =>
      match l.reader.poll type.Value with
      | (.value a, r) => { l with reader := r, messages := l.messages ++ [⟨type, a⟩] }
      | (.malformed, r) => { l with reader := r, refusals := l.refusals + 1 }
      | (.more, r) => { l with reader := r }

/-- A new reader after all that has happened to it. -/
def after (hs : List Happening) : Ledger := hs.foldl step {}

/-- What a call to read a message adds, if it has taken the bytes `taken` from the stream. -/
def book (l : Ledger) {type : MessageType} (taken : List UInt8)
    (receipt : Reader.Receipt type.Value) : Ledger where
  reader := receipt.reader
  received := l.received ++ taken
  messages := l.messages ++
    match receipt.outcome with
    | .value a => [⟨type, a⟩]
    | _ => []
  refusals := l.refusals +
    match receipt.outcome with
    | .failed .decode => 1
    | _ => 0

end Ledger

/-- Bytes that are not kept: white space, the texts of messages in their order, and closing
brackets at which a message should have begun. -/
inductive Spent : (messages : List Message) → (strays : List UInt8) → List UInt8 → Prop
  | nil : Spent [] [] []
  | space {ms : List Message} {strays s : List UInt8} {b : UInt8} (h : Spent ms strays s)
      (hb : isSpace b = true) : Spent ms strays (s ++ [b])
  | message {ms : List Message} {strays s p w t : List UInt8} {m : Message} (h : Spent ms strays s)
      (hp : Blank p) (hw : Json.IsValue w)
      (hm : decodeFirst Wire.decoder (p ++ (w ++ t)) = .value m.value t) :
      Spent (ms ++ [m]) strays (s ++ (p ++ w))
  | stray {ms : List Message} {strays s : List UInt8} {b : UInt8} (h : Spent ms strays s)
      (hb : closes b = true) : Spent ms (strays ++ [b]) (s ++ [b])

namespace Spent
variable {ms : List Message} {strays s front : List UInt8}

theorem blank (h : Spent ms strays s) (hb : Blank front) : Spent ms strays (s ++ front) := by
  induction front generalizing s with
  | nil => simpa using h
  | cons b front ih =>
    obtain ⟨hb, hfront⟩ := List.forall_mem_cons.mp hb
    simpa using ih (h.space hb) hfront

/-- White space and closing brackets among it. -/
theorem loose (h : Spent ms strays s) (hf : ∀ b ∈ front, isSpace b = true ∨ closes b = true) :
    Spent ms (strays ++ front.filter closes) (s ++ front) := by
  induction front generalizing s strays with
  | nil => simpa using h
  | cons b front ih =>
    obtain ⟨hb, hfront⟩ := List.forall_mem_cons.mp hf
    rcases hb with hb | hb
    · simpa [closes_of_isSpace hb] using ih (h.space hb) hfront
    · simpa [hb] using ih (h.stray hb) hfront

end Spent

namespace Reader
variable {r : Reader} {front : List UInt8}

/-- A reader whose scan has either begun a value or passed over `front`, in which none begins. -/
structure Fronted (r : Reader) (front : List UInt8) : Prop where
  loose : ∀ b ∈ front, isSpace b = true ∨ closes b = true
  scan : r.boundary.started = true ∨
    ∃ ahead, r.buffer = front ++ ahead ∧ r.boundary = ({} : Boundary).past front.length

theorem fronted_fresh (buffer : List UInt8) : Fronted { buffer := buffer } [] :=
  ⟨by simp, .inr ⟨buffer, rfl, rfl⟩⟩

theorem fronted_of_started (h : r.boundary.started = true) : r.Fronted [] := ⟨by simp, .inl h⟩

theorem Fronted.feed (h : r.Fronted front) (bytes : List UInt8) :
    (r.feed bytes).Fronted front := by
  refine ⟨h.loose, h.scan.imp_right ?_⟩
  rintro ⟨ahead, hb, hr⟩
  exact ⟨ahead ++ bytes, by simp [Reader.feed, hb], hr⟩

/-- Bytes in which no value begins are white space, or have a first closing bracket. -/
theorem blank_or_closes {s : List UInt8} (h : ∀ b ∈ s, isSpace b = true ∨ closes b = true) :
    Blank s ∨ ∃ p c t, s = p ++ byte (Container.last c) :: t ∧ Blank p := by
  induction s with
  | nil => exact .inl Json.blank_nil
  | cons b s ih =>
    obtain ⟨hb, hs⟩ := List.forall_mem_cons.mp h
    by_cases hspace : isSpace b = true
    · rcases ih hs with hs | ⟨p, c, t, rfl, hp⟩
      · exact .inl (List.forall_mem_cons.mpr ⟨hspace, hs⟩)
      · exact .inr ⟨b :: p, c, t, rfl, List.forall_mem_cons.mpr ⟨hspace, hp⟩⟩
    · obtain ⟨c, rfl⟩ := closes_iff.mp (hb.resolve_left hspace)
      exact .inr ⟨[], c, s, rfl, Json.blank_nil⟩

/-- No message is decoded behind a closing bracket. -/
theorem decodeFirst_loose (type : MessageType) {s t : List UInt8} {c : Container}
    (hs : ∀ b ∈ s, isSpace b = true ∨ closes b = true) :
    decodeFirst (Wire.decoder (α := type.Value)) (s ++ byte c.last :: t) = .malformed := by
  rcases blank_or_closes hs with hs | ⟨p, c', u, rfl, hp⟩
  · exact type.refuses.decodeFirst_eq hs c t
  · simpa using type.refuses.decodeFirst_eq hp c' (u ++ byte c.last :: t)

/-- What one look at the buffer takes from its front: a message with the white space before it, or
bytes in which no value begins, or nothing. Only a refusal makes the scan pass over another closing
bracket. -/
inductive Looked (type : MessageType) (r : Reader) (front : List UInt8) :
    Poll type.Value → Reader → Prop
  | value {p w t : List UInt8} {a : type.Value} (hb : r.buffer = p ++ (w ++ t)) (hp : Blank p)
      (hw : Json.IsValue w) (hd : decodeFirst Wire.decoder r.buffer = .value a t) :
      Looked type r front (.value a) { buffer := t }
  | dropped (h : ∀ b ∈ r.buffer, isSpace b = true ∨ closes b = true)
      (hc : (r.buffer.filter closes).length ≤ (front.filter closes).length) :
        Looked type r front .more {}
  | kept {r' : Reader} {front' : List UInt8} (hb : r'.buffer = r.buffer) (h : r'.Fronted front')
      (hc : (front'.filter closes).length ≤ (front.filter closes).length) :
        Looked type r front .more r'
  | refused {r' : Reader} {front' : List UInt8} (hb : r'.buffer = r.buffer) (h : r'.Fronted front')
      (hc : (front'.filter closes).length ≤ (front.filter closes).length + 1) :
      Looked type r front .malformed r'

/-- A look at a buffer in which a value has begun. -/
theorem looked_started (type : MessageType)
    (h : (r.boundary.advance r.buffer).1.started = true) :
    Looked type r front (r.poll type.Value).1 (r.poll type.Value).2 := by
  unfold poll
  split
  · next b hadv =>
    rw [hadv] at h
    have hstarted : Fronted { r with boundary := b } [] := fronted_of_started h
    split
    · next hblank =>
      have hb : Blank r.buffer := decodeFirst_eq_blank hblank
      refine .dropped (fun b hmem => .inl (hb b hmem)) ?_
      rw [List.filter_eq_nil_iff.mpr fun b hmem => by simp [closes_of_isSpace (hb b hmem)]]
      simp
    · next a rest hvalue =>
      obtain ⟨p, w, hp, hw, hb⟩ := Json.decodeFirst_spells type.lawful hvalue
      exact .value hb hp hw hvalue
    · exact .kept rfl hstarted (by simp)
    · exact .refused rfl hstarted (by simp)
  · next b hadv =>
    rw [hadv] at h
    simp only at h
    simp only [h, ↓reduceIte]
    exact .kept rfl (fronted_of_started h) (by simp)

/-- Every look at a buffer is one of these. -/
theorem Fronted.looked (h : r.Fronted front) (type : MessageType) :
    Looked type r front (r.poll type.Value).1 (r.poll type.Value).2 := by
  rcases h.scan with hs | ⟨ahead, hb, hr⟩
  · exact looked_started type (Boundary.started_scan hs _)
  have hadv : r.boundary.advance r.buffer = (({} : Boundary).past front.length).scan ahead := by
    rw [Boundary.advance, hr, hb]
    simp [Boundary.past]
  rcases (Boundary.idle_past front.length).scan ahead with
    hs | ⟨hblank, hs⟩ | ⟨p, c, t, hahead, hp, hs⟩
  · exact looked_started type (by rw [hadv]; exact hs)
  · -- Nothing was taken for the start of a value, so the buffer goes, brackets of earlier refusals
    -- with it.
    have hpoll : r.poll type.Value = (.more, {}) := by
      simp only [poll, hadv, hs]
      rfl
    rw [hpoll]
    refine .dropped ?_ ?_
    · rw [hb]
      simpa only [List.forall_mem_append] using ⟨h.loose, fun b hmem => .inl (hblank b hmem)⟩
    · have hnone : ahead.filter closes = [] :=
        List.filter_eq_nil_iff.mpr fun b hmem => by simp [closes_of_isSpace (hblank b hmem)]
      exact Nat.le_of_eq (by rw [hb, List.filter_append, hnone, List.append_nil])
  · -- The scan stops at the bracket but does not count it as a start.
    have hloose : ∀ b ∈ front ++ p, isSpace b = true ∨ closes b = true :=
      List.forall_mem_append.mpr ⟨h.loose, fun b hmem => .inl (hp b hmem)⟩
    have hpoll : r.poll type.Value =
        (.malformed, ⟨r.buffer, ({} : Boundary).past (front.length + (p.length + 1))⟩) := by
      have hmal := decodeFirst_loose type (c := c) (t := t) hloose
      rw [List.append_assoc, ← hahead, ← hb] at hmal
      simp only [poll, hadv, hs, hmal, Boundary.past_past]
    rw [hpoll]
    have hlast : closes (byte c.last) = true := closes_iff.mpr ⟨c, rfl⟩
    have hfront : Fronted ⟨r.buffer, ({} : Boundary).past (front.length + (p.length + 1))⟩
        (front ++ p ++ [byte c.last]) := by
      refine ⟨List.forall_mem_append.mpr ⟨hloose, by simpa using .inr hlast⟩, .inr ⟨t, ?_, ?_⟩⟩
      · simp [hb, hahead]
      · simp
    refine .refused rfl hfront ?_
    have hnone : p.filter closes = [] :=
      List.filter_eq_nil_iff.mpr fun b hmem => by simp [closes_of_isSpace (hp b hmem)]
    simp [List.filter_append, hnone, hlast]

end Reader

namespace Ledger
variable {l : Ledger}

/-- Every byte received is still in the buffer or accounted for, and there have been as many
refusals as closing brackets that are gone or about to go. -/
structure Balances (l : Ledger) (dropped strays front : List UInt8) : Prop where
  received : l.received = dropped ++ l.reader.buffer
  spent : Spent l.messages strays dropped
  fronted : l.reader.Fronted front
  refusals : strays.length + (front.filter closes).length ≤ l.refusals

theorem balances_new : Balances {} [] [] [] := ⟨rfl, .nil, Reader.fronted_fresh [], by simp⟩

theorem Balances.came {dropped strays front : List UInt8} (h : l.Balances dropped strays front)
    (bytes : List UInt8) : (l.step (.came bytes)).Balances dropped strays front where
  received := by simp [step, Reader.feed, h.received]
  spent := h.spent
  fronted := h.fronted.feed bytes
  refusals := h.refusals

theorem Balances.asked {dropped strays front : List UInt8} (h : l.Balances dropped strays front)
    (type : MessageType) :
    ∃ dropped' strays' front', (l.step (.asked type)).Balances dropped' strays' front' := by
  have hlook := h.fronted.looked type
  have hreceived := h.received
  have hrefusals := h.refusals
  rcases hp : l.reader.poll type.Value with ⟨outcome, r'⟩
  rw [hp] at hlook
  cases hlook with
  | @value p w t a hb hblank hw hd =>
    refine ⟨dropped ++ (p ++ w), strays, [], ?_⟩
    simp only [step, hp]
    refine ⟨?_, ?_, Reader.fronted_fresh t, ?_⟩
    · simp [hreceived, hb]
    · rw [hb] at hd
      exact h.spent.message (m := ⟨type, a⟩) hblank hw hd
    · simp only [List.filter_nil, List.length_nil]
      omega
  | dropped hloose hc =>
    refine ⟨dropped ++ l.reader.buffer, strays ++ l.reader.buffer.filter closes, [], ?_⟩
    simp only [step, hp]
    refine ⟨?_, h.spent.loose hloose, Reader.fronted_fresh [], ?_⟩
    · simp [hreceived]
    · simp only [List.length_append, List.filter_nil, List.length_nil]
      omega
  | @kept _ front' hb hf hc =>
    refine ⟨dropped, strays, front', ?_⟩
    simp only [step, hp]
    have hle : strays.length + (front'.filter closes).length ≤ l.refusals := by omega
    exact ⟨by rw [hb]; exact hreceived, h.spent, hf, hle⟩
  | @refused _ front' hb hf hc =>
    refine ⟨dropped, strays, front', ?_⟩
    simp only [step, hp]
    have hle : strays.length + (front'.filter closes).length ≤ l.refusals + 1 := by omega
    exact ⟨by rw [hb]; exact hreceived, h.spent, hf, hle⟩

/-- What has happened to a reader keeps the account. -/
theorem Balances.run {dropped strays front : List UInt8} (h : l.Balances dropped strays front)
    (hs : List Happening) :
    ∃ dropped' strays' front', (hs.foldl step l).Balances dropped' strays' front' := by
  induction hs generalizing l dropped strays front with
  | nil => exact ⟨dropped, strays, front, h⟩
  | cons e hs ih =>
    cases e with
    | came bytes => exact ih (h.came bytes)
    | asked type =>
      obtain ⟨dropped', strays', front', h'⟩ := h.asked type
      exact ih h'

theorem after_append (hs hs' : List Happening) :
    after (hs ++ hs') = hs'.foldl step (after hs) := by
  rw [after, List.foldl_append]
  rfl

/-! ### Calls as runs -/

/-- Waiting for a message is a run in which bytes come and are looked at. -/
theorem await_run (type : MessageType) (isOpen : Bool) (budget : Option Nat) (l : Ledger)
    (stream : List Event) :
    ∃ (hs : List Happening) (taken : List UInt8),
      carried stream = taken ++ carried (l.reader.await type.Value isOpen budget stream).stream ∧
      hs.foldl step l = l.book taken (l.reader.await type.Value isOpen budget stream) := by
  have hstay {outcome : Reader.Outcome type.Value} (stream : List Event) (l : Ledger)
      (hv : ∀ a, outcome ≠ .value a) (hd : outcome ≠ .failed .decode) :
      ([] : List Happening).foldl step l = l.book [] ⟨outcome, l.reader, stream⟩ := by
    rcases outcome with a | e | _ | _
    · exact absurd rfl (hv a)
    · cases e
      case decode => exact absurd rfl hd
      all_goals simp [book]
    all_goals simp [book]
  have hforever (budget : Option Nat) (stream : List Event) (l : Ledger) :
      ([] : List Happening).foldl step l =
        l.book [] ⟨Reader.waitForever (α := type.Value) budget, l.reader, stream⟩ := by
    cases budget
    · exact hstay stream l (by simp [Reader.waitForever]) (by simp [Reader.waitForever])
    · exact hstay stream l (by simp [Reader.waitForever]) (by simp [Reader.waitForever])
  induction stream generalizing l budget with
  | nil =>
    refine ⟨[], [], rfl, ?_⟩
    cases isOpen
    · exact hstay [] l (by simp) (by simp)
    · exact hforever budget [] l
  | cons e stream ih =>
    cases e with
    | bytes bs =>
      rw [Reader.await]
      rcases hp : (l.reader.feed bs).poll type.Value with ⟨outcome, r⟩
      cases outcome with
      | value a =>
        exact ⟨[.came bs, .asked type], bs, rfl, by simp [step, hp, book]⟩
      | malformed =>
        exact ⟨[.came bs, .asked type], bs, rfl, by simp [step, hp, book]⟩
      | more =>
        obtain ⟨hs, taken, hc, hr⟩ :=
          ih budget { l with reader := r, received := l.received ++ bs }
        refine ⟨.came bs :: .asked type :: hs, bs ++ taken, by simp [carried, hc], ?_⟩
        simp only [List.foldl_cons, step, hp]
        simpa [book] using hr
    | ended => exact ⟨[], [], rfl, hstay stream l (by simp) (by simp)⟩
    | failed kind => exact ⟨[], [], rfl, hstay stream l (by simp) (by simp)⟩
    | delay n =>
      cases budget with
      | none => exact ih none l
      | some left =>
        rw [Reader.await]
        by_cases hn : left < n
        · simp only [hn, ↓reduceIte]
          exact ⟨[], [], rfl, hstay _ l (by simp) (by simp)⟩
        · simp only [hn, ↓reduceIte]
          exact ih _ l
    | silence => exact ⟨[], [], rfl, hforever budget _ l⟩

/-- A call to read a message is a run. -/
theorem read_run (type : MessageType) (isOpen : Bool) (budget : Option Nat) (l : Ledger)
    (stream : List Event) :
    ∃ (hs : List Happening) (taken : List UInt8),
      carried stream = taken ++ carried (l.reader.read type.Value isOpen budget stream).stream ∧
      hs.foldl step l = l.book taken (l.reader.read type.Value isOpen budget stream) := by
  rw [Reader.read]
  rcases hp : l.reader.poll type.Value with ⟨outcome, r⟩
  cases outcome with
  | value a => exact ⟨[.asked type], [], rfl, by simp [step, hp, book]⟩
  | malformed => exact ⟨[.asked type], [], rfl, by simp [step, hp, book]⟩
  | more =>
    obtain ⟨hs, taken, hc, hr⟩ := await_run type isOpen budget { l with reader := r } stream
    refine ⟨.asked type :: hs, taken, hc, ?_⟩
    simp only [List.foldl_cons, step, hp]
    exact hr

end Ledger

/-- At every point of the life of a reader the bytes that it has received are bytes that are spent
and its buffer: white space, the texts of the messages that it has returned in their order, and no
more stray closing brackets than calls that have been refused. Each call to read a message of any
type, from any stream and within any time, leads from such a point to such a point. -/
theorem reader_keeps_bytes (hs : List Happening) :
    (∃ dropped strays, (Ledger.after hs).received = dropped ++ (Ledger.after hs).reader.buffer ∧
      Spent (Ledger.after hs).messages strays dropped ∧
      strays.length ≤ (Ledger.after hs).refusals) ∧
    ∀ (type : MessageType) (isOpen : Bool) (budget : Option Nat) (stream : List Event),
      let receipt := (Ledger.after hs).reader.read type.Value isOpen budget stream
      ∃ hs' taken, carried stream = taken ++ carried receipt.stream ∧
        Ledger.after (hs ++ hs') = (Ledger.after hs).book taken receipt := by
  constructor
  · obtain ⟨dropped, strays, front, h⟩ := Ledger.balances_new.run hs
    exact ⟨dropped, strays, h.received, h.spent, Nat.le_of_add_right_le h.refusals⟩
  · intro type isOpen budget stream
    obtain ⟨hs', taken, hc, hr⟩ := Ledger.read_run type isOpen budget (Ledger.after hs) stream
    exact ⟨hs', taken, hc, by rw [Ledger.after_append, hr]⟩

/-- A bracket that a call was refused at is gone when the next call returns a message from behind
it. -/
theorem stray_bracket_dropped :
    let first := ({} : Reader).read Bracket false none
      [.bytes [byte '\x7d'], .bytes ("\"Brace\"".toList.map byte)]
    let second := first.reader.read Bracket false none first.stream
    first.outcome = .failed .decode ∧ second.outcome = .value .brace ∧
      second.reader.buffer = [] := by
  cbv

end MacroBridge
