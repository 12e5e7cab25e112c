import MacroBridge.Proofs.Json.Reads

/-!
Different pieces have different texts. Which pieces were written, and where each of them ends, is
seen from the bytes alone, however deep the containers go.
-/
namespace MacroBridge.Json
open Utf8 (encode)

namespace Piece

/-- Whether a piece is written without a comma before it wherever it stands. -/
def closes : Piece → Bool
  | closeObject | closeArray => true
  | _ => false

/-- What the next piece stands behind. -/
def after : Piece → Place
  | openObject | openArray => .opened
  | key _ => .afterKey
  | _ => .afterItem

/-- The character that shows the form of a piece, where a zero stands for any digit. -/
def lead : Piece → Char
  | openObject => '\x7b'
  | closeObject => '\x7d'
  | openArray => '['
  | closeArray => ']'
  | key _ | string _ => '"'
  | natural _ => '0'
  | null => 'n'

end Piece

/-- A byte, or a zero for a digit. -/
def leadOf (b : UInt8) : UInt8 := if isDigit b then byte '0' else b

variable {p q : Piece} {s t : List UInt8}

theorem bytes_open (c : Container) : bytes [c.openPiece] = [byte c.first] := by
  rw [bytes, c.bytesFrom_open]
  rfl

theorem bytes_close (c : Container) : bytes [c.closePiece] = [byte c.last] := by
  rw [bytes, c.bytesFrom_close]
  rfl

theorem bytes_key_one (name : String) :
    bytes [.key name] = encode (quote name.toList) ++ [byte ':'] := by
  rw [bytes, bytes_key]
  simp [comma, bytesFrom]

theorem bytes_string_one (text : String) : bytes [.string text] = encode (quote text.toList) := by
  rw [bytes_string, encode_quote]

/-- A piece is written in the same way at every place, but for the comma. -/
theorem bytesFrom_piece (place : Place) (p : Piece) (ps : List Piece) : bytesFrom place (p :: ps) =
    (if p.closes then [] else comma place) ++ (bytes [p] ++ bytesFrom p.after ps) := by
  have hvalue {p : Piece} (h : Complete .value [p]) : bytesFrom place (p :: ps) =
      comma place ++ (bytes [p] ++ bytesFrom .afterItem ps) := by
    rw [← List.append_assoc]
    exact h.bytes_eq place ps
  have hopen (c : Container) : bytesFrom place (c.openPiece :: ps) =
      comma place ++ (bytes [c.openPiece] ++ bytesFrom .opened ps) := by
    rw [bytes_open, c.bytesFrom_open, List.singleton_append]
  have hclose (c : Container) : bytesFrom place (c.closePiece :: ps) =
      bytes [c.closePiece] ++ bytesFrom .afterItem ps := by
    rw [bytes_close, c.bytesFrom_close, List.singleton_append]
  cases p with
  | openObject => exact hopen .object
  | openArray => exact hopen .array
  | closeObject => exact hclose .object
  | closeArray => exact hclose .array
  | key name =>
    rw [bytes_key_one, bytes_key]
    simp [Piece.closes, Piece.after]
  | string text => exact hvalue (complete_string text)
  | natural n => exact hvalue (complete_natural n)
  | null => exact hvalue complete_null

/-- The first byte of a piece shows its form. -/
theorem lead_bytes (p : Piece) : ∃ b u, bytes [p] = b :: u ∧ leadOf b = byte p.lead := by
  have hquote : leadOf (byte '"') = byte '"' := by decide
  cases p with
  | openObject => exact ⟨byte '\x7b', [], bytes_open .object, by decide⟩
  | openArray => exact ⟨byte '[', [], bytes_open .array, by decide⟩
  | closeObject => exact ⟨byte '\x7d', [], bytes_close .object, by decide⟩
  | closeArray => exact ⟨byte ']', [], bytes_close .array, by decide⟩
  | key name =>
    rw [bytes_key_one, encode_quote]
    exact ⟨_, _, rfl, hquote⟩
  | string text =>
    rw [bytes_string]
    exact ⟨_, _, rfl, hquote⟩
  | natural n =>
    obtain ⟨-, b, u, hb, hdigit⟩ := number_toDigits n (t := []) (by simp [Apart])
    exact ⟨b, u, by rw [bytes_natural, hb], if_pos hdigit⟩
  | null => exact ⟨byte 'n', "ull".toList.map byte, by decide, by decide⟩

theorem lead_eq (h : bytes [p] ++ s = bytes [q] ++ t) : p.lead = q.lead := by
  have hascii (p : Piece) : p.lead.toNat < 0x80 := by cases p <;> simp [Piece.lead]
  obtain ⟨b, u, hb, hp⟩ := lead_bytes p
  obtain ⟨c, v, hc, hq⟩ := lead_bytes q
  rw [hb, hc] at h
  exact byte_inj (hascii p) (hascii q) (by rw [← hp, ← hq, (List.cons.inj h).1])

/-- Bytes that may stand behind a value. -/
def Behind (t : List UInt8) : Prop := ∀ b ∈ t.head?, b ∈ [byte ',', byte '\x7d', byte ']']

theorem behind_bytesFrom (ps : List Piece) : Behind (bytesFrom .afterItem ps) := by
  cases ps with
  | nil => simp [Behind, bytesFrom]
  | cons p ps =>
    rw [bytesFrom_piece]
    intro b hb
    cases p with
    | closeObject =>
      rw [show bytes [.closeObject] = [byte '\x7d'] from bytes_close .object] at hb
      exact Option.some.inj hb ▸ by decide
    | closeArray =>
      rw [show bytes [.closeArray] = [byte ']'] from bytes_close .array] at hb
      exact Option.some.inj hb ▸ by decide
    | _ => exact Option.some.inj hb ▸ List.mem_cons_self

theorem Behind.apart (h : Behind t) : Apart t := by
  intro b hb
  have hmem := h b hb
  simp only [List.mem_cons, List.not_mem_nil, or_false] at hmem
  rcases hmem with rfl | rfl | rfl <;> decide

theorem Behind.ne_colon (h : Behind (byte ':' :: t)) : False :=
  absurd (h (byte ':') rfl) (by decide)

/-- A string ends at its closing quote, whatever follows. -/
theorem quote_unique {a b : String}
    (h : encode (quote a.toList) ++ s = encode (quote b.toList) ++ t) : a = b ∧ s = t := by
  simp only [encode_quote, List.cons_append, List.append_assoc, List.nil_append] at h
  have hread := stringText_quoted a s
  rw [(List.cons.inj h).2, stringText_quoted] at hread
  obtain ⟨rfl, rfl⟩ := Prod.mk.inj (Except.ok.inj hread)
  exact ⟨rfl, rfl⟩

/-- A number ends where no digit follows. -/
theorem digits_unique {m n : Nat} (hs : Behind s) (ht : Behind t)
    (h : encode (Nat.toDigits 10 m) ++ s = encode (Nat.toDigits 10 n) ++ t) : m = n ∧ s = t := by
  have hread := (number_toDigits m hs.apart).1
  rw [h, (number_toDigits n ht.apart).1] at hread
  obtain ⟨hnumber, rfl⟩ := Prod.mk.inj (Except.ok.inj hread)
  exact ⟨(Number.natural.inj hnumber).symm, rfl⟩

/-- A piece is known from the bytes that begin with its text. -/
theorem piece_unique (hs : p.after = .afterItem → Behind s) (ht : q.after = .afterItem → Behind t)
    (h : bytes [p] ++ s = bytes [q] ++ t) : p = q ∧ s = t := by
  have hlead := lead_eq h
  -- Pieces of different forms differ in the first byte; a key differs from a string in what stands
  -- behind.
  cases p <;> cases q <;> simp [Piece.lead] at hlead
  case key.key a b =>
    rw [bytes_key_one, bytes_key_one, List.append_assoc, List.append_assoc] at h
    obtain ⟨rfl, hrest⟩ := quote_unique h
    exact ⟨rfl, List.append_cancel_left hrest⟩
  case string.string a b =>
    rw [bytes_string_one, bytes_string_one] at h
    obtain ⟨rfl, rfl⟩ := quote_unique h
    exact ⟨rfl, rfl⟩
  case key.string a b =>
    rw [bytes_key_one, bytes_string_one, List.append_assoc] at h
    obtain ⟨rfl, rfl⟩ := quote_unique h
    exact (ht rfl).ne_colon.elim
  case string.key a b =>
    rw [bytes_key_one, bytes_string_one, List.append_assoc] at h
    obtain ⟨rfl, rfl⟩ := quote_unique h
    exact (hs rfl).ne_colon.elim
  case natural.natural m n =>
    rw [bytes_natural, bytes_natural] at h
    obtain ⟨rfl, rfl⟩ := digits_unique (hs rfl) (ht rfl) h
    exact ⟨rfl, rfl⟩
  all_goals exact ⟨rfl, List.append_cancel_left h⟩

/-- No piece begins with what separates it from others. -/
theorem bytes_ne_comma (p : Piece) : bytes [p] ++ s ≠ byte ',' :: t := by
  intro h
  obtain ⟨b, u, hb, hlead⟩ := lead_bytes p
  rw [hb] at h
  rw [(List.cons.inj h).1] at hlead
  cases p <;> exact absurd hlead (by simp only [Piece.lead]; decide)

/-- Whether a comma was written is seen from what follows. -/
theorem comma_unique {place : Place}
    (h : (if p.closes then [] else comma place) ++ (bytes [p] ++ s) =
      (if q.closes then [] else comma place) ++ (bytes [q] ++ t)) : bytes [p] ++ s =
        bytes [q] ++ t := by
  by_cases hplace : comma place = []
  · simpa [hplace] using h
  obtain rfl : place = .afterItem := by cases place <;> first | rfl | exact absurd rfl hplace
  cases hp : p.closes <;> cases hq : q.closes
  · simpa [hp, hq] using h
  · rw [hp, hq] at h
    exact absurd h.symm (bytes_ne_comma q)
  · rw [hp, hq] at h
    exact absurd h (bytes_ne_comma p)
  · simpa [hp, hq] using h

theorem bytesFrom_ne_nil (place : Place) (p : Piece) (ps : List Piece) :
    bytesFrom place (p :: ps) ≠ [] := by
  obtain ⟨b, u, hb, -⟩ := lead_bytes p
  rw [bytesFrom_piece, hb]
  simp

/-- Different pieces have different texts. -/
theorem bytesFrom_injective (place : Place) : Function.Injective (bytesFrom place) := by
  intro ps
  induction ps generalizing place with
  | nil =>
    intro qs h
    cases qs with
    | nil => rfl
    | cons q qs => exact absurd h.symm (bytesFrom_ne_nil place q qs)
  | cons p ps ih =>
    intro qs h
    cases qs with
    | nil => exact absurd h (bytesFrom_ne_nil place p ps)
    | cons q qs =>
      rw [bytesFrom_piece, bytesFrom_piece] at h
      have hbehind {p : Piece} (ps : List Piece) (h : p.after = .afterItem) :
          Behind (bytesFrom p.after ps) :=
        h ▸ behind_bytesFrom ps
      obtain ⟨rfl, hrest⟩ := piece_unique (hbehind ps) (hbehind qs) (comma_unique h)
      rw [ih _ hrest]

end MacroBridge.Json
