import MacroBridge.Proofs.Json.Scalar

/-!
The compact text of a value, put together from the texts of its parts.
-/
namespace MacroBridge.Json
open Utf8 (encode)

/-! ### Pieces in a row -/

/-- The bytes of pieces behind what stands at `place`. -/
def bytesFrom (place : Place) : List Piece → List UInt8
  | [] => []
  | p :: ps => encode (p.write .compact 0 place).1 ++ bytesFrom (p.write .compact 0 place).2.2 ps

/-- The bytes of pieces at the start of a text. -/
def bytes (ps : List Piece) : List UInt8 := bytesFrom .start ps

theorem bytesFrom_cons (place : Place) (p : Piece) (ps : List Piece) : bytesFrom place (p :: ps) =
    encode (p.write .compact 0 place).1 ++ bytesFrom (p.write .compact 0 place).2.2 ps := rfl

theorem write_compact (depth : Nat) (place : Place) (p : Piece) :
    (p.write .compact depth place).1 = (p.write .compact 0 place).1 ∧
      (p.write .compact depth place).2.2 = (p.write .compact 0 place).2.2 := by
  cases p <;> cases place <;> exact ⟨rfl, rfl⟩

theorem encode_renderOnto (depth : Nat) (place : Place) (done : List Char) (ps : List Piece) :
    encode (renderOnto .compact depth place done ps).reverse =
      encode done.reverse ++ bytesFrom place ps := by
  induction ps generalizing depth place done with
  | nil => simp [renderOnto, bytesFrom]
  | cons p ps ih =>
    obtain ⟨htext, hplace⟩ := write_compact depth place p
    rw [renderOnto, bytesFrom_cons, ← htext, ← hplace]
    dsimp only
    rw [ih, List.reverseAux_eq, List.reverse_append, List.reverse_reverse, Utf8.encode_append,
      List.append_assoc]

theorem encode_render (ps : List Piece) : encode (render .compact ps) = bytes ps := by
  simpa [encode, bytes, render] using encode_renderOnto 0 .start [] ps

/-! ### Control characters -/

/-- Whether there are no control characters in a text. -/
def Printable (s : List Char) : Prop := ∀ c ∈ s, 0x20 ≤ c.toNat

instance (s : List Char) : Decidable (Printable s) :=
  List.decidableBAll (fun c : Char => 0x20 ≤ c.toNat) s

theorem printable_append {s t : List Char} (hs : Printable s) (ht : Printable t) :
    Printable (s ++ t) :=
  List.forall_mem_append.mpr ⟨hs, ht⟩

/-- Without control characters in a text there are none in its bytes. -/
theorem printable_encode {s : List Char} (h : Printable s) : ∀ b ∈ encode s, 0x20 ≤ b := by
  induction s with
  | nil => simp [encode]
  | cons c s ih =>
    obtain ⟨hc, hs⟩ := List.forall_mem_cons.mp h
    rw [Utf8.encode_cons, List.forall_mem_append]
    refine ⟨fun b hb => ?_, ih hs⟩
    rw [UInt8.le_iff_toNat_le, show (0x20 : UInt8).toNat = 0x20 from rfl]
    rcases Utf8.encodeChar_cases c with ⟨hlow, heq⟩ | ⟨-, hhigh⟩
    · rw [heq, List.mem_singleton] at hb
      rwa [hb, Utf8.toNat_toUInt8 (by omega)]
    · exact Nat.le_trans (by decide) (hhigh b hb)

theorem printable_quoteChar (c : Char) : Printable (quoteChar c) := by
  have hdigit : ∀ n < 16, 0x20 ≤ (hexDigit n).toNat := by decide
  unfold quoteChar
  split_ifs with hquote hback hn hr ht hb hf hcontrol
  · decide
  · decide
  · decide
  · decide
  · decide
  · decide
  · decide
  · have hdigits : Printable [hexDigit (c.toNat / 16), hexDigit (c.toNat % 16)] :=
      List.forall_mem_cons.mpr ⟨hdigit _ (by omega),
        List.forall_mem_singleton.mpr (hdigit _ (by omega))⟩
    exact printable_append (s := ['\\', 'u', '0', '0']) (by decide) hdigits
  · exact List.forall_mem_singleton.mpr (Nat.le_of_not_lt hcontrol)

theorem printable_quote (s : List Char) : Printable (quote s) := by
  have hchars : Printable (s.flatMap quoteChar) :=
    List.forall_mem_flatMap.mpr fun c _ => printable_quoteChar c
  exact List.forall_mem_cons.mpr ⟨by decide, printable_append hchars (by decide)⟩

theorem printable_write (p : Piece) (place : Place) : Printable (p.write .compact 0 place).1 := by
  have hbefore : Printable (Style.compact.before 0 place) := by cases place <;> decide
  cases p with
  | openObject => exact printable_append hbefore (by decide)
  | openArray => exact printable_append hbefore (by decide)
  | closeObject => cases place <;> decide
  | closeArray => cases place <;> decide
  | key name => exact printable_append (printable_append hbefore (printable_quote _)) (by decide)
  | string text => exact printable_append hbefore (printable_quote _)
  | natural n =>
    refine printable_append hbefore fun d hd => ?_
    have hd := Nat.isDigit_of_mem_toDigits (by decide) (by decide) hd
    simp only [Char.isDigit, Bool.and_eq_true, decide_eq_true_eq, UInt32.le_iff_toNat_le] at hd
    exact Nat.le_trans (by decide) hd.1
  | null => exact printable_append hbefore (by decide)

/-- A compact text has no control characters. -/
theorem printable_bytesFrom (place : Place) (ps : List Piece) :
    ∀ b ∈ bytesFrom place ps, 0x20 ≤ b := by
  induction ps generalizing place with
  | nil => simp [bytesFrom]
  | cons p ps ih =>
    rw [bytesFrom_cons, List.forall_mem_append]
    exact ⟨printable_encode (printable_write p place), ih _⟩

/-- A compact text is all on one line. -/
theorem newline_bytesFrom (place : Place) (ps : List Piece) : byte '\n' ∉ bytesFrom place ps :=
  fun h => absurd (printable_bytesFrom place ps _ h) (by decide)

/-! ### Containers open at once -/

theorem le_nestingFrom (depth : Nat) (ps : List Piece) : depth ≤ nestingFrom depth ps := by
  cases ps with
  | nil => exact Nat.le_refl _
  | cons p ps => cases p <;> exact Nat.le_max_left _ _

/-- Pieces that close all they open, and close nothing else. -/
def Balanced (ps : List Piece) : Prop := ∀ depth qs,
  nestingFrom depth (ps ++ qs) = max (depth + nestingFrom 0 ps) (nestingFrom depth qs)

theorem balanced_nil : Balanced [] := fun depth qs => by
  have := le_nestingFrom depth qs
  simp only [List.nil_append, nestingFrom]
  omega

theorem Balanced.append {ps qs : List Piece} (hp : Balanced ps) (hq : Balanced qs) :
    Balanced (ps ++ qs) := by
  intro depth rs
  rw [List.append_assoc, hp, hq, hp 0 qs]
  omega

theorem balanced_flatten {entries : List (List Piece)} (h : ∀ e ∈ entries, Balanced e) :
    Balanced entries.flatten := by
  induction entries with
  | nil => exact balanced_nil
  | cons e entries ih => exact (h e (by simp)).append (ih fun x hx => h x (by simp [hx]))

/-! ### Complete values -/

/-- What separates a value from what stands before it. -/
def comma : Place → List UInt8
  | .afterItem => [byte ',']
  | _ => []

theorem encode_before (depth : Nat) (place : Place) :
    encode (Style.compact.before depth place) = comma place := by
  cases place
  · rfl
  · rfl
  · rfl
  · exact encode_ascii (s := [',']) (by simp)

/-- The pieces of one whole phrase, with text before and behind that does not depend on what they
are. -/
structure Complete (k : Phrase) (ps : List Piece) : Prop where
  balanced : Balanced ps
  bytes_eq (place : Place) (qs : List Piece) :
    bytesFrom place (ps ++ qs) = comma place ++ bytes ps ++ bytesFrom .afterItem qs
  spells : Spells k (bytes ps)

/-- Pieces that open nothing and end a value. -/
theorem complete_one {p : Piece} {text : List Char}
    (hopen : ∀ depth qs, nestingFrom depth (p :: qs) =
      max depth (nestingFrom depth qs))
    (hwrite : ∀ place, p.write .compact 0 place =
      (Style.compact.before 0 place ++ text, 0, .afterItem))
    (hs : IsValue (encode text)) : Complete .value [p] := by
  have hbytes : bytes [p] = encode text := by
    simp [bytes, bytesFrom, hwrite, Style.before]
  refine ⟨fun depth qs => ?_, fun place qs => ?_, hbytes ▸ hs⟩
  · rw [List.singleton_append, hopen, hopen]
    simp [nestingFrom]
  · rw [List.singleton_append, bytesFrom_cons, hwrite, hbytes, Utf8.encode_append, encode_before]

theorem complete_string (text : String) : Complete .value [.string text] := by
  refine complete_one (fun _ _ => rfl) (fun _ => rfl) ?_
  rw [encode_quote]
  exact .string (stringTail_quoted text)

theorem complete_natural (n : Nat) : Complete .value [.natural n] := by
  have happart : Apart [] := by simp [Apart]
  obtain ⟨w, hw, hs⟩ := number_spells (number_toDigits n happart).1
  refine complete_one (fun _ _ => rfl) (fun _ => rfl) ?_
  rw [List.append_nil, List.append_nil] at hs
  exact .scalar (hs ▸ hw)

theorem complete_null : Complete .value [.null] := by
  refine complete_one (fun _ _ => rfl) (fun _ => rfl) ?_
  have hnull : encode ['n', 'u', 'l', 'l'] = "null".toList.map byte := encode_ascii (by simp)
  exact hnull ▸ .scalar .null

theorem Complete.element {ps : List Piece} (h : Complete .value ps) :
    Complete (.entry .array) ps :=
  ⟨h.balanced, h.bytes_eq, .element h.spells⟩

/-- The bytes of a member of an object. -/
theorem bytes_key (name : String) (place : Place) (qs : List Piece) :
    bytesFrom place (.key name :: qs) =
    comma place ++ encode (quote name.toList) ++ [byte ':'] ++ bytesFrom .afterKey qs := by
  have hcolon : encode [':'] = [byte ':'] := encode_ascii (by simp)
  rw [bytesFrom_cons, Piece.write, Utf8.encode_append, Utf8.encode_append, encode_before,
    Style.colon, hcolon]

theorem Complete.member {ps : List Piece} (h : Complete .value ps) (name : String) :
    Complete (.entry .object) (.key name :: ps) := by
  have hps : bytesFrom .afterKey ps = bytes ps := by
    simpa [comma, bytesFrom] using h.bytes_eq .afterKey []
  have hbytes : bytes (.key name :: ps) = encode (quote name.toList) ++ [byte ':'] ++
      bytes ps := by
    rw [bytes, bytes_key, hps]
    rfl
  have hkey (depth : Nat) (qs : List Piece) : nestingFrom depth (.key name :: qs) =
      nestingFrom depth qs := by
    have := le_nestingFrom depth qs
    simp only [nestingFrom]
    omega
  refine ⟨fun depth qs => ?_, fun place qs => ?_, ?_⟩
  · rw [List.cons_append, hkey, hkey, h.balanced]
  · rw [List.cons_append, bytes_key, h.bytes_eq, hbytes]
    simp [comma]
  · rw [hbytes, encode_quote]
    have hm := Spells.member (stringTail_quoted name) blank_nil blank_nil h.spells
    simpa using hm

/-! ### Containers -/

namespace Container

def openPiece : Container → Piece
  | array => .openArray
  | object => .openObject

def closePiece : Container → Piece
  | array => .closeArray
  | object => .closeObject

/-- A container with its entries. -/
def pieces (c : Container) (entries : List (List Piece)) : List Piece :=
  c.openPiece :: entries.flatten ++ [c.closePiece]

theorem bytesFrom_open (c : Container) (place : Place) (qs : List Piece) :
    bytesFrom place (c.openPiece :: qs) = comma place ++ byte c.first :: bytesFrom .opened qs := by
  have hfirst : encode [c.first] = [byte c.first] := encode_ascii (by cases c <;> simp [first])
  have hwrite : c.openPiece.write .compact 0 place =
      (Style.compact.before 0 place ++ [c.first], 1, .opened) := by
    cases c <;> rfl
  rw [bytesFrom_cons, hwrite, Utf8.encode_append, encode_before, hfirst, List.append_assoc,
    List.singleton_append]

theorem bytesFrom_close (c : Container) {place : Place} (qs : List Piece) :
    bytesFrom place (c.closePiece :: qs) = byte c.last :: bytesFrom .afterItem qs := by
  have hlast : encode [c.last] = [byte c.last] := encode_ascii (by cases c <;> simp [last])
  have hwrite : c.closePiece.write .compact 0 place = ([c.last], 0, .afterItem) := by
    cases c <;> cases place <;> rfl
  rw [bytesFrom_cons, hwrite, hlast, List.singleton_append]

theorem nestingFrom_open (c : Container) (depth : Nat) (qs : List Piece) :
    nestingFrom depth (c.openPiece :: qs) = nestingFrom (depth + 1) qs := by
  have := le_nestingFrom (depth + 1) qs
  cases c <;> simp only [openPiece, nestingFrom] <;> omega

theorem nestingFrom_close (c : Container) (depth : Nat) (qs : List Piece) :
    nestingFrom (depth + 1) (c.closePiece :: qs) = max (depth + 1) (nestingFrom depth qs) := by
  cases c <;> simp only [closePiece, nestingFrom, Nat.add_sub_cancel]

variable {c : Container} {entries : List (List Piece)}

/-- Nothing before a container's closing bracket shows behind it. -/
theorem bytesFrom_entries (h : ∀ e ∈ entries, Complete (.entry c) e) (place : Place)
    (qs : List Piece) : bytesFrom place (entries.flatten ++ c.closePiece :: qs) =
      bytesFrom place (entries.flatten ++ [c.closePiece]) ++ bytesFrom .afterItem qs := by
  induction entries generalizing place with
  | nil =>
    rw [List.flatten_nil, List.nil_append, List.nil_append, bytesFrom_close, bytesFrom_close]
    rfl
  | cons e entries ih =>
    have he := (h e (by simp)).bytes_eq place
    rw [List.flatten_cons, List.append_assoc, List.append_assoc, he, he,
      ih fun x hx => h x (by simp [hx]), List.append_assoc _ _ (bytesFrom .afterItem qs)]

theorem spells_tail (h : ∀ e ∈ entries, Complete (.entry c) e) :
    Spells (.tail c) (bytesFrom .afterItem (entries.flatten ++ [c.closePiece])) := by
  induction entries with
  | nil =>
    rw [List.flatten_nil, List.nil_append, bytesFrom_close]
    exact .done blank_nil
  | cons e entries ih =>
    have he := h e (by simp)
    rw [List.flatten_cons, List.append_assoc, he.bytes_eq, List.append_assoc]
    exact .more blank_nil blank_nil he.spells (ih fun x hx => h x (by simp [hx]))

theorem bytes_pieces (c : Container) (entries : List (List Piece)) : bytes (c.pieces entries) =
    byte c.first :: bytesFrom .opened (entries.flatten ++ [c.closePiece]) := by
  rw [bytes, pieces, List.cons_append, bytesFrom_open]
  rfl

/-- A container opens one level around what its entries open. -/
theorem nestingFrom_pieces (h : ∀ e ∈ entries, Complete (.entry c) e) (depth : Nat)
    (qs : List Piece) : nestingFrom depth (c.pieces entries ++ qs) =
      max (depth + (nestingFrom 0 entries.flatten + 1)) (nestingFrom depth qs) := by
  have hb : Balanced entries.flatten := balanced_flatten fun e he => (h e he).balanced
  rw [pieces, List.cons_append, List.cons_append, nestingFrom_open, List.append_assoc, hb,
    List.singleton_append, nestingFrom_close]
  omega

theorem nesting_pieces (h : ∀ e ∈ entries, Complete (.entry c) e) :
    nestingFrom 0 (c.pieces entries) = nestingFrom 0 entries.flatten + 1 := by
  have := nestingFrom_pieces h 0 []
  rw [List.append_nil, nestingFrom] at this
  omega

theorem complete_pieces (h : ∀ e ∈ entries, Complete (.entry c) e) :
    Complete .value (c.pieces entries) where
  balanced depth qs := by rw [nestingFrom_pieces h, nesting_pieces h]
  bytes_eq place qs := by
    rw [bytes_pieces, pieces, List.cons_append, List.cons_append, bytesFrom_open,
      List.append_assoc, List.singleton_append, bytesFrom_entries h, List.append_assoc,
      List.cons_append]
  spells := by
    rw [bytes_pieces]
    cases entries with
    | nil =>
      rw [List.flatten_nil, List.nil_append, bytesFrom_close]
      exact .empty blank_nil
    | cons e entries =>
      have he := h e (by simp)
      rw [List.flatten_cons, List.append_assoc, he.bytes_eq, List.append_assoc]
      exact .filled blank_nil he.spells (spells_tail fun x hx => h x (by simp [hx]))

end Container

end MacroBridge.Json
