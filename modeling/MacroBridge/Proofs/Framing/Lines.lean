import MacroBridge.Proofs.Framing.Forward
import MacroBridge.Proofs.Framing.Retention
import MacroBridge.Proofs.Wire.Distinct

/-!
A stream of messages is a stream of lines. Every message is one line without control characters,
and a reader who knows nothing but the lines knows the messages.
-/
namespace MacroBridge
open Json (Known bytes byte)

namespace Wire

/-- A request is told from a response by the first name in it, or by the first behind that. -/
theorem request_ne_response (request : Request) (response : Response) :
    pieces request ≠ pieces response := by
  have hname {m n : String} {ps qs : List Json.Piece} (h : tagged m ps = tagged n qs) : m = n :=
    tagged_name_unique (congrArg (· ++ []) h)
  have hinner {m a b : String} {ps qs : List Json.Piece} {as bs : List (String × List Json.Piece)}
      (h : tagged m (object ((a, ps) :: as)) = tagged m (object ((b, qs) :: bs))) : a = b := by
    simp only [tagged, object, List.flatMap_cons, List.cons_append, List.cons.injEq, true_and] at h
    exact Json.Piece.key.inj h.1
  intro h
  cases request with
  | listMacros task =>
    cases response with
    | macros result => exact absurd (hinner h) (by decide)
    | _ => exact absurd (hname h) (by decide)
  | expand task =>
    cases response with
    | expansion result => exact absurd (hinner h) (by decide)
    | _ => exact absurd (hname h) (by decide)

theorem subtree_ne_request (tree : Subtree) (request : Request) :
    pieces tree ≠ pieces request := by
  rw [pieces_subtree]
  intro h
  cases request <;> exact absurd (object_name_unique (congrArg (· ++ []) h)) (by decide)

theorem subtree_ne_response (tree : Subtree) (response : Response) :
    pieces tree ≠ pieces response := by
  rw [pieces_subtree]
  intro h
  cases response <;> exact absurd (object_name_unique (congrArg (· ++ []) h)) (by decide)

end Wire

/-- A message of one of the types with messages of their own. -/
structure Envelope extends Message where
  isEnvelope : type.IsEnvelope

namespace Envelope

/-- The text of a message without the newline behind it. -/
def encoding (m : Envelope) : List UInt8 := Utf8.encode (Wire.text m.value)

theorem encoding_eq (m : Envelope) : m.encoding = bytes (Wire.pieces m.value) :=
  Json.encode_render _

theorem line_eq (m : Envelope) : Wire.line m.value = m.encoding ++ [byte '\n'] := rfl

theorem printable (m : Envelope) : ∀ b ∈ m.encoding, 0x20 ≤ b := by
  rw [encoding_eq]
  exact Json.printable_bytesFrom .start _

/-- Different messages, also those of different types, have different texts. -/
theorem encoding_injective : Function.Injective encoding := by
  rintro ⟨⟨type, v⟩, ht⟩ ⟨⟨type', v'⟩, ht'⟩ h
  rw [encoding_eq, encoding_eq] at h
  have hpieces := Json.bytesFrom_injective .start h
  have hsame {α : Type} [Wire α] {a b : α} (ha : Known Wire.pieces a)
      (h : Wire.pieces a = Wire.pieces b) :
      a = b := (ha (congrArg (· ++ []) h)).1
  -- Messages of two types differ in a name already; those of one type are known from their pieces.
  cases ht with
  | subtree =>
    cases ht' with
    | subtree =>
      obtain rfl := hsame (Wire.known_subtree v) hpieces
      rfl
    | request => exact absurd hpieces (Wire.subtree_ne_request v v')
    | response => exact absurd hpieces (Wire.subtree_ne_response v v')
  | request =>
    cases ht' with
    | subtree => exact absurd hpieces.symm (Wire.subtree_ne_request v' v)
    | request =>
      obtain rfl := hsame (Wire.known_request v) hpieces
      rfl
    | response => exact absurd hpieces (Wire.request_ne_response v v')
  | response =>
    cases ht' with
    | subtree => exact absurd hpieces.symm (Wire.subtree_ne_response v' v)
    | request => exact absurd hpieces.symm (Wire.request_ne_response v' v)
    | response =>
      obtain rfl := hsame (Wire.known_response v) hpieces
      rfl

/-- The lines of messages, one behind the other. -/
def lines (ms : List Envelope) : List UInt8 := ms.flatMap fun m => m.encoding ++ [byte '\n']

theorem lines_cons (m : Envelope) (ms : List Envelope) :
    lines (m :: ms) = m.encoding ++ byte '\n' :: lines ms := by
  simp [lines]

theorem splitOn_lines (ms : List Envelope) :
    (lines ms).splitOn (byte '\n') = ms.map encoding ++ [[]] := by
  induction ms with
  | nil => rfl
  | cons m ms ih =>
    have hnewline : ∀ b ∈ m.encoding, (b == byte '\n') = false := by
      intro b hb
      have hle := m.printable b hb
      rw [beq_eq_false_iff_ne]
      rintro rfl
      exact absurd hle (by decide)
    rw [lines_cons, List.splitOn,
      List.splitOnP_append_cons_of_forall_mem hnewline (byte '\n') (by decide), ← List.splitOn, ih]
    rfl

theorem control_lines (ms : List Envelope) :
    (lines ms).filter (· < 0x20) = List.replicate ms.length (byte '\n') := by
  induction ms with
  | nil => rfl
  | cons m ms ih =>
    have hnone : m.encoding.filter (· < 0x20) = [] :=
      List.filter_eq_nil_iff.mpr fun b hb => by simpa using m.printable b hb
    rw [lines_cons, List.filter_append, hnone, List.nil_append,
      List.filter_cons_of_pos (by decide), ih, List.length_cons, List.replicate_succ]

/-- Messages with the same lines are the same. -/
theorem lines_injective : Function.Injective lines := by
  intro ms ns h
  have hsplit := congrArg (List.splitOn (byte '\n')) h
  rw [splitOn_lines, splitOn_lines] at hsplit
  exact encoding_injective.list_map (List.append_cancel_right hsplit)

end Envelope

/-- Successive messages that are written in full, with the bytes that the other end takes. -/
inductive Link.Writes : Link → List Envelope → List UInt8 → Prop
  | nil (l : Link) : Writes l [] []
  | cons {l : Link} {m : Envelope} {ms : List Envelope} {budget left : Option Nat}
      {rest : List UInt8} (hw : (l.write (Wire.line m.value) budget).progress = .done left)
      (h : Writes (l.write (Wire.line m.value) budget).link ms rest) :
      Writes l (m :: ms) ((l.write (Wire.line m.value) budget).taken ++ rest)

variable {l : Link} {ms : List Envelope} {written : List UInt8}

theorem Link.Writes.eq_lines (h : l.Writes ms written) : written = Envelope.lines ms := by
  induction h with
  | nil => rfl
  | @cons l m ms budget left rest hw _ ih =>
    obtain ⟨htaken, -⟩ := (l.write_spec (Wire.line m.value) budget).2 left hw
    rw [htaken, ih, m.line_eq, Envelope.lines_cons, List.append_assoc, List.singleton_append]

/-- A peer that takes all it is given takes any messages. -/
theorem Link.exists_writes (h : ∀ taken message, (l.peer.deliver taken message).Obliging)
    (ms : List Envelope) : ∃ written, l.Writes ms written := by
  induction ms generalizing l with
  | nil => exact ⟨[], .nil l⟩
  | cons m ms ih =>
    have hw : (l.write (Wire.line m.value) none).progress = .done none :=
      Link.write_obliging (h _ _) none
    obtain ⟨-, hlink⟩ := (l.write_spec (Wire.line m.value) none).2 none hw
    obtain ⟨rest, hrest⟩ := ih (l := (l.write (Wire.line m.value) none).link) (by rwa [hlink])
    exact ⟨_, .cons hw hrest⟩

/-- The bytes of messages are their texts, each with a newline behind it and with no other control
character. Cut at the newlines they are the texts again, and no other messages are written with the
same bytes. -/
theorem written_lines (h : l.Writes ms written) :
    written = ms.flatMap (fun m => m.encoding ++ [byte '\n']) ∧
    (∀ m ∈ ms, ∀ b ∈ m.encoding, 0x20 ≤ b) ∧
    written.filter (· < 0x20) = List.replicate ms.length (byte '\n') ∧
    written.splitOn (byte '\n') = ms.map Envelope.encoding ++ [[]] ∧
    ∀ (k : Link) (ns : List Envelope), k.Writes ns written → ns = ms := by
  have heq := h.eq_lines
  refine ⟨heq, fun m _ => m.printable, ?_, ?_, fun k ns hns => ?_⟩
  · rw [heq, Envelope.control_lines]
  · rw [heq, Envelope.splitOn_lines]
  · exact Envelope.lines_injective (hns.eq_lines.symm.trans heq)

/-- Messages whose texts have line breaks, quotes, backslashes, a control character and an accent
in them. -/
def oddMessages : List Envelope := [
  ⟨⟨.subtree, ⟨none, [.leaf (.literal ⟨"\"a\nb\\\"", 0⟩), .leaf (.ident ⟨"é", 1⟩)]⟩⟩, .subtree⟩,
  ⟨⟨.request, .listMacros ⟨"lib\r\n.so"⟩⟩, .request⟩,
  ⟨⟨.response, .error ⟨.expansionError, "\u0001"⟩⟩, .response⟩]

theorem written_lines_odd : ∃ written, Link.closed.Writes oddMessages written ∧
    written.filter (· < 0x20) = [byte '\n', byte '\n', byte '\n'] ∧
    written.splitOn (byte '\n') = oddMessages.map Envelope.encoding ++ [[]] ∧
    ∀ (k : Link) (ns : List Envelope), k.Writes ns written → ns = oddMessages := by
  have hall (taken : List (List UInt8)) (message : List UInt8) :
      (Link.closed.peer.deliver taken message).Obliging :=
    ⟨by simp [Link.closed, Link.ofScript, Peer.ofScript], rfl, rfl⟩
  obtain ⟨written, hw⟩ := Link.exists_writes hall oddMessages
  obtain ⟨-, -, hcontrol, hsplit, hunique⟩ := written_lines hw
  exact ⟨written, hw, hcontrol, hsplit, hunique⟩

end MacroBridge
