import MacroBridge.Proofs.Framing.Boundary
import MacroBridge.Proofs.Json.Compact
import MacroBridge.Wire.Basic

/-!
How deep the containers of an encoding go. What is counted over the pieces of a value is what a
scan of its bytes finds.
-/
namespace MacroBridge
open Json (Piece Place StringTail Apart byte bytesFrom comma nestingFrom quote quoteChar isSpace)
open Utf8 (encode)

namespace Boundary

/-- The greatest number of containers that are open at once in a scan. -/
def peak (b : Boundary) : List UInt8 → Nat
  | [] => b.depth
  | x :: s => max b.depth ((b.step x).1.peak s)

@[simp] theorem peak_nil (b : Boundary) : b.peak [] = b.depth := rfl

theorem peak_cons (b : Boundary) (x : UInt8) (s : List UInt8) :
    b.peak (x :: s) = max b.depth ((b.step x).1.peak s) := rfl

theorem depth_le_peak (b : Boundary) (s : List UInt8) : b.depth ≤ b.peak s := by
  cases s with
  | nil => exact Nat.le_refl _
  | cons x s => exact Nat.le_max_left _ _

theorem peak_append (b : Boundary) (s t : List UInt8) :
    b.peak (s ++ t) = max (b.peak s) ((b.after s).peak t) := by
  induction s generalizing b with
  | nil => exact (Nat.max_eq_right (depth_le_peak b t)).symm
  | cons x s ih => rw [List.cons_append, peak_cons, peak_cons, ih, after_cons, Nat.max_assoc]

theorem depth_after_le_peak (b : Boundary) (s : List UInt8) : (b.after s).depth ≤ b.peak s := by
  induction s generalizing b with
  | nil => exact Nat.le_refl _
  | cons x s ih =>
    rw [after_cons, peak_cons]
    exact Nat.le_trans (ih _) (Nat.le_max_right _ _)

/-! ### Texts that open nothing -/

/-- A scan that keeps to its depth. -/
structure Level (b : Boundary) (s : List UInt8) : Prop where
  depth : (b.after s).depth = b.depth
  peak : b.peak s = b.depth

variable {b : Boundary} {s t : List UInt8} {x : UInt8}

theorem level_nil (b : Boundary) : b.Level [] := ⟨rfl, rfl⟩

theorem level_one (h : (b.step x).1.depth = b.depth) : b.Level [x] := by
  refine ⟨h, ?_⟩
  rw [peak_cons, peak_nil, h, Nat.max_self]

theorem Level.append (hs : b.Level s) (ht : (b.after s).Level t) : b.Level (s ++ t) := by
  constructor
  · rw [after_append, ht.depth, hs.depth]
  · rw [peak_append, ht.peak, hs.peak, hs.depth, Nat.max_self]

/-- An end that opens nothing leaves the greatest depth as it was. -/
theorem peak_append_level (ht : (b.after s).Level t) : b.peak (s ++ t) = b.peak s := by
  rw [Boundary.peak_append, ht.peak]
  exact Nat.max_eq_left (depth_after_le_peak b s)

/-- What follows decides how deep the scan goes. -/
theorem Level.peak_append (hs : b.Level s) (t : List UInt8) :
    b.peak (s ++ t) = (b.after s).peak t := by
  have hle := depth_le_peak (b.after s) t
  rw [hs.depth] at hle
  rw [Boundary.peak_append, hs.peak, Nat.max_eq_right hle]

/-- Texts that a scan outside strings passes at its depth, with no string open at the end. -/
def Flat (s : List UInt8) : Prop := ∀ b : Boundary, b.Outside → (b.after s).Outside ∧ b.Level s

theorem flat_nil : Flat [] := fun b h => ⟨h, level_nil b⟩

theorem Flat.append (hs : Flat s) (ht : Flat t) : Flat (s ++ t) := by
  intro b h
  obtain ⟨hout, hlevel⟩ := hs b h
  obtain ⟨hout', hlevel'⟩ := ht _ hout
  exact ⟨after_append b s t ▸ hout', hlevel.append hlevel'⟩

theorem flat_plain (hs : ∀ x ∈ s, Plain x) : Flat s := by
  induction s with
  | nil => exact flat_nil
  | cons x s ih =>
    have hx : Flat [x] := by
      intro b h
      obtain ⟨hspace, hobject, harray, hobject', harray', hquote⟩ := hs x (by simp)
      have hstep : (b.step x).1 = { b.past 1 with started := true } := by
        simp [step, past, h.inString, hspace, hobject, harray, hobject', harray', hquote]
      refine ⟨?_, level_one (by rw [hstep]; rfl)⟩
      rw [after_cons, hstep]
      exact ⟨h.inString, h.escaped⟩
    exact hx.append (ih fun y hy => hs y (by simp [hy]))

/-! ### Strings -/

theorem level_inString (h : b.inString = true) (x : UInt8) : b.Level [x] := by
  refine level_one ?_
  unfold step
  dsimp only
  rw [if_pos h]
  split_ifs <;> rfl

/-- A line break opens nothing, in a string or outside. -/
theorem level_newline (b : Boundary) : b.Level [byte '\n'] := by
  by_cases hin : b.inString = true
  · exact level_inString hin _
  · have hspace : isSpace (byte '\n') = true := by decide
    refine level_one ?_
    unfold step
    dsimp only
    rw [if_neg hin, if_pos hspace]

theorem level_quoted (h : b.Quoted) (hq : x ≠ byte '"') (hb : x ≠ byte '\\') :
    (b.after [x]).Quoted ∧ b.Level [x] := by
  refine ⟨?_, level_inString h.inString x⟩
  rw [after_cons, step_quoted h hq hb]
  exact h.past 1

theorem level_escape (h : b.Quoted) (x : UInt8) :
    (b.after [byte '\\', x]).Quoted ∧ b.Level [byte '\\', x] := by
  have hback : (b.after [byte '\\']).inString = true := by
    simp [step, h.inString, h.escaped]
  refine ⟨?_, (level_inString h.inString _).append (level_inString hback x)⟩
  rw [(passes_escape h x).after_eq]
  exact h.past 2

/-- A string is over where its text is, and opens nothing. -/
theorem level_stringTail {k : List UInt8} (hk : StringTail k) (h : b.Quoted) :
    (b.after k).Outside ∧ b.Level k := by
  have hcons {s t : List UInt8} {b : Boundary} (hs : (b.after s).Quoted ∧ b.Level s)
      (ht : ∀ b : Boundary, b.Quoted → (b.after t).Outside ∧ b.Level t) :
      (b.after (s ++ t)).Outside ∧ b.Level (s ++ t) := by
    obtain ⟨hout, hlevel⟩ := ht _ hs.1
    exact ⟨after_append b s t ▸ hout, hs.2.append hlevel⟩
  induction hk generalizing b with
  | close =>
    refine ⟨?_, level_inString h.inString _⟩
    rw [after_cons, step_closeQuote h]
    exact ⟨rfl, h.escaped⟩
  | plain hq _ hb _ ih => exact hcons (level_quoted h hq hb) fun b h => ih h
  | escape _ _ ih => exact hcons (level_escape h _) fun b h => ih h
  | unicode hhex _ ih =>
    obtain ⟨hx, hy, hz, hw⟩ := hexFour_isSome hhex
    have hdigit {x : UInt8} (hx : (Json.hexValue x).isSome) {b : Boundary} (h : b.Quoted) :=
      level_quoted h (hexValue_quoted hx).1 (hexValue_quoted hx).2
    refine hcons (level_escape h _) fun b h => hcons (hdigit hx h) fun b h =>
      hcons (hdigit hy h) fun b h => ?_
    exact hcons (hdigit hz h) fun b h => hcons (hdigit hw h) fun b h => ih h

theorem flat_quote (text : String) : Flat (encode (quote text.toList)) := by
  intro b h
  obtain ⟨hout, hlevel⟩ := level_stringTail (Json.stringTail_quoted text) h.quoted
  have hopen : b.Level [byte '"'] := level_one (by rw [step_openQuote h]; rfl)
  have hafter : b.after [byte '"'] = b.quoted := by rw [after_cons, step_openQuote h, after_nil]
  rw [Json.encode_quote]
  refine ⟨?_, hopen.append (t := _) (hafter ▸ hlevel)⟩
  rwa [after_cons, step_openQuote h]

/-! ### Pieces -/

theorem flat_comma (place : Place) : Flat (comma place) := by
  cases place with
  | afterItem =>
    have hcomma : Plain (byte ',') := by decide
    exact flat_plain (by simpa [comma] using hcomma)
  | start => exact flat_nil
  | opened => exact flat_nil
  | afterKey => exact flat_nil

theorem flat_natural (n : Nat) : Flat (encode (Nat.toDigits 10 n)) := by
  refine flat_plain fun x hx => plain_digit ?_
  rw [Json.encode_toDigits] at hx
  obtain ⟨c, hc, rfl⟩ := List.mem_map.mp hx
  exact (Json.isDigit_byte (Nat.isDigit_of_mem_toDigits (by decide) (by decide) hc)).1

theorem flat_null : Flat (encode ['n', 'u', 'l', 'l']) := by
  have hnull : encode ['n', 'u', 'l', 'l'] = "null".toList.map byte := Json.encode_ascii (by simp)
  rw [hnull]
  exact flat_plain (plain_scalar .null)

/-- A scan of an encoding goes as deep as its pieces. -/
theorem peak_bytesFrom (h : b.Outside) (place : Place) (ps : List Piece) :
    b.peak (bytesFrom place ps) = nestingFrom b.depth ps := by
  induction ps generalizing b place with
  | nil => rfl
  | cons p ps ih =>
    have hflat {s : List UInt8} (hs : Flat s) (place : Place) :
        b.peak (comma place ++ s ++ bytesFrom .afterItem ps) =
          max b.depth (nestingFrom b.depth ps) := by
      obtain ⟨hout, hlevel⟩ := (flat_comma place).append hs b h
      rw [hlevel.peak_append, ih hout, hlevel.depth, Nat.max_eq_right (Json.le_nestingFrom _ _)]
    have hopen (c : Json.Container) : b.peak (bytesFrom place (c.openPiece :: ps)) =
        max b.depth (nestingFrom (b.depth + 1) ps) := by
      obtain ⟨hout, hlevel⟩ := flat_comma place b h
      rw [c.bytesFrom_open, hlevel.peak_append, peak_cons, step_first hout,
        ih hout.opened.toOutside, hlevel.depth]
      exact congrArg (fun d => max b.depth (nestingFrom (d + 1) ps)) hlevel.depth
    have hclose (c : Json.Container) : b.peak (bytesFrom place (c.closePiece :: ps)) =
        max b.depth (nestingFrom (b.depth - 1) ps) := by
      have hout : ({ b.past 1 with depth := b.depth - 1 } : Boundary).Outside :=
        ⟨h.inString, h.escaped⟩
      rw [c.bytesFrom_close, peak_cons, step_last h]
      exact congrArg (max b.depth) (ih hout .afterItem)
    cases p with
    | openObject => exact hopen .object
    | openArray => exact hopen .array
    | closeObject => exact hclose .object
    | closeArray => exact hclose .array
    | key name =>
      have hcolon : Flat [byte ':'] := flat_plain (by simpa using (by decide : Plain (byte ':')))
      obtain ⟨hout, hlevel⟩ := ((flat_comma place).append (flat_quote name)).append hcolon b h
      rw [Json.bytes_key, hlevel.peak_append, ih hout, hlevel.depth]
      exact (Nat.max_eq_right (Json.le_nestingFrom _ _)).symm
    | string text =>
      rw [Json.bytesFrom_cons, Piece.write, Utf8.encode_append, Json.encode_before]
      exact hflat (flat_quote text) place
    | natural n =>
      rw [Json.bytesFrom_cons, Piece.write, Utf8.encode_append, Json.encode_before]
      exact hflat (flat_natural n) place
    | null =>
      rw [Json.bytesFrom_cons, Piece.write, Utf8.encode_append, Json.encode_before]
      exact hflat flat_null place

end Boundary

/-- The greatest number of containers open at once in a text, as a scan of its bytes finds it. -/
def Boundary.deepest (s : List UInt8) : Nat := ({} : Boundary).peak s

variable {α : Type} [Wire α]

theorem Wire.line_eq (v : α) : Wire.line v = Json.bytes (Wire.pieces v) ++ [byte '\n'] := by
  rw [Wire.line, Wire.text, Json.encode_render]

/-- The nesting of a value is that of the brackets in its encoding. -/
theorem deepest_line (v : α) : Boundary.deepest (Wire.line v) = Wire.nesting v := by
  rw [Boundary.deepest, Wire.line_eq, Boundary.peak_append_level (Boundary.level_newline _)]
  exact Boundary.peak_bytesFrom ⟨rfl, rfl⟩ .start (Wire.pieces v)

end MacroBridge
