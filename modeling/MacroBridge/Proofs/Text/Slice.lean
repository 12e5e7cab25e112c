import MacroBridge.Proofs.Text.Utf8

/-!
Parts of a text between byte offsets. A part is defined where both offsets are at boundaries of
characters, and these are the offsets behind the first characters of the text.
-/
namespace MacroBridge.Utf8

/-- Whether an offset is at the boundary of a character: at an end of the bytes, or at a byte that
begins one. -/
def isBoundary (bytes : List UInt8) (offset : Nat) : Bool :=
  offset = 0 || match bytes[offset]? with
    | some b => !isContinuation b
    | none => offset = bytes.length

/-- The bytes between two offsets, if these are in order and at boundaries. -/
def slice? (bytes : List UInt8) (start stop : Nat) : Option (List UInt8) :=
  if start ≤ stop ∧ isBoundary bytes start = true ∧ isBoundary bytes stop = true then
    some ((bytes.drop start).take (stop - start))
  else none

variable {a b c : List Char}

theorem length_encodeChar (c : Char) : (encodeChar c).length = charLength c := by
  unfold encodeChar charLength
  dsimp only
  split_ifs <;> rfl

theorem length_encode (s : List Char) : (encode s).length = byteLength s := by
  induction s with
  | nil => rfl
  | cons c s ih => rw [encode_cons, List.length_append, length_encodeChar, ih, byteLength_cons]

/-- Two cuts of a text at the same offset are the same. -/
theorem append_inj_of_byteLength {x y : List Char} (h : a ++ x = b ++ y)
    (hlen : byteLength a = byteLength b) : a = b ∧ x = y := by
  have hnil {w : List Char} (hw : byteLength w = 0) : w = [] := by
    by_contra hne
    exact Nat.ne_of_gt (byteLength_pos hne) hw
  rcases List.append_eq_append_iff.mp h with ⟨w, rfl, rfl⟩ | ⟨w, rfl, rfl⟩
  · rw [byteLength_append] at hlen
    obtain rfl : w = [] := hnil (by omega)
    simp
  · rw [byteLength_append] at hlen
    obtain rfl : w = [] := hnil (by omega)
    simp

/-- No character begins with a byte that goes on with one. -/
theorem head_encodeChar (c : Char) : ∃ b u, encodeChar c = b :: u ∧ isContinuation b = false := by
  have hvalid := toNat_valid c
  have hno {n : Nat} (h : n < 256) (hn : n < 0x80 ∨ 0xC0 ≤ n) :
      isContinuation n.toUInt8 = false := by
    rw [isContinuation_toUInt8 h, decide_eq_false_iff_not]
    omega
  unfold encodeChar
  dsimp only
  split_ifs with h₁ h₂ h₃
  · exact ⟨_, _, rfl, hno (by omega) (.inl h₁)⟩
  · exact ⟨_, _, rfl, hno (by omega) (.inr (by omega))⟩
  · exact ⟨_, _, rfl, hno (by omega) (.inr (by omega))⟩
  · exact ⟨_, _, rfl, hno (by omega) (.inr (by omega))⟩

/-- There is a boundary behind every character. -/
theorem isBoundary_byteLength (a b : List Char) :
    isBoundary (encode (a ++ b)) (byteLength a) = true := by
  rw [isBoundary, encode_append, ← length_encode,
    List.getElem?_append_right (Nat.le_refl _), Nat.sub_self]
  cases b with
  | nil => simp [encode]
  | cons c b =>
    obtain ⟨x, u, hx, hno⟩ := head_encodeChar c
    simp [encode_cons, hx, hno]

/-- A part of the characters is the part of the bytes between the offsets at its ends. -/
theorem slice?_append (a b c : List Char) :
    slice? (encode (a ++ (b ++ c))) (byteLength a) (byteLength a + byteLength b) =
      some (encode b) := by
  have hstop := isBoundary_byteLength (a ++ b) c
  rw [byteLength_append, List.append_assoc] at hstop
  rw [slice?, if_pos ⟨Nat.le_add_right _ _, isBoundary_byteLength a (b ++ c), hstop⟩,
    Nat.add_sub_cancel_left, encode_append, encode_append, ← length_encode, ← length_encode,
    List.drop_left, List.take_left]

end MacroBridge.Utf8
