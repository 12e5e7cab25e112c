import Mathlib.Tactic.Common
import MacroBridge.Text.Utf8

/-!
Bytes of a text are read back as the text.
-/
namespace MacroBridge.Utf8

theorem toNat_valid (c : Char) : c.toNat < 0xD800 ∨ 0xDFFF < c.toNat ∧ c.toNat < 0x110000 :=
  c.valid

theorem toNat_toUInt8 {n : Nat} (h : n < 256) : n.toUInt8.toNat = n := by
  rw [UInt8.toNat_ofNat', Nat.mod_eq_of_lt h]

theorem width_toUInt8 {n : Nat} (h : n < 256) : width n.toUInt8 =
    if n < 0x80 then 1 else if n < 0xC2 then 0 else if n < 0xE0 then 2 else if n < 0xF0 then 3
    else if n < 0xF5 then 4 else 0 := by
  simp only [width, UInt8.lt_iff_toNat_lt, toNat_toUInt8 h]
  rfl

theorem isContinuation_toUInt8 {n : Nat} (h : n < 256) :
    isContinuation n.toUInt8 = decide (0x80 ≤ n ∧ n < 0xC0) := by
  simp only [isContinuation, UInt8.lt_iff_toNat_lt, UInt8.le_iff_toNat_le, toNat_toUInt8 h,
    Bool.decide_and]
  rfl

theorem isSecond_toUInt8 {m n : Nat} (hm : m < 256) (hn : n < 256) : isSecond m.toUInt8 n.toUInt8 =
    if m = 0xE0 then decide (0xA0 ≤ n ∧ n < 0xC0)
    else if m = 0xED then decide (0x80 ≤ n ∧ n < 0xA0)
    else if m = 0xF0 then decide (0x90 ≤ n ∧ n < 0xC0)
    else if m = 0xF4 then decide (0x80 ≤ n ∧ n < 0x90)
    else decide (0x80 ≤ n ∧ n < 0xC0) := by
  simp only [isSecond, isContinuation_toUInt8 hn, UInt8.lt_iff_toNat_lt, UInt8.le_iff_toNat_le,
    ← UInt8.toNat_inj, toNat_toUInt8 hm, toNat_toUInt8 hn, Bool.decide_and]
  rfl

variable {index : Nat} {done : List Char} {b b₂ b₃ b₄ : UInt8}

theorem decodeFrom_one (hb : width b = 1) (s : List UInt8) :
    decodeFrom index done (b :: s) = decodeFrom (index + 1) (Char.ofNat b.toNat :: done) s := by
  rw [decodeFrom.eq_def]
  simp only [hb]

theorem decodeFrom_two (hb : width b = 2) (h₂ : isContinuation b₂ = true) (s : List UInt8) :
    decodeFrom index done (b :: b₂ :: s) =
      decodeFrom (index + 2) (Char.ofNat (b.toNat % 0x20 * 0x40 + low b₂) :: done) s := by
  rw [decodeFrom.eq_def]
  simp only [hb, h₂, Bool.not_true, Bool.false_eq_true, ↓reduceIte]

theorem decodeFrom_three (hb : width b = 3) (h₂ : isSecond b b₂ = true)
    (h₃ : isContinuation b₃ = true) (s : List UInt8) : decodeFrom index done (b :: b₂ :: b₃ :: s) =
      decodeFrom (index + 3)
        (Char.ofNat (b.toNat % 0x10 * 0x1000 + low b₂ * 0x40 + low b₃) :: done) s := by
  rw [decodeFrom.eq_def]
  simp only [hb, h₂, h₃, Bool.not_true, Bool.false_eq_true, ↓reduceIte]

theorem decodeFrom_four (hb : width b = 4) (h₂ : isSecond b b₂ = true)
    (h₃ : isContinuation b₃ = true) (h₄ : isContinuation b₄ = true) (s : List UInt8) :
    decodeFrom index done (b :: b₂ :: b₃ :: b₄ :: s) =
      decodeFrom (index + 4)
        (Char.ofNat (b.toNat % 8 * 0x40000 + low b₂ * 0x1000 + low b₃ * 0x40 + low b₄) :: done)
        s := by
  rw [decodeFrom.eq_def]
  simp only [hb, h₂, h₃, h₄, Bool.not_true, Bool.false_eq_true, ↓reduceIte]

/-- The bytes of one character are read as that character. -/
theorem decodeFrom_encodeChar (c : Char) (index : Nat) (done : List Char) (t : List UInt8) :
    decodeFrom index done (encodeChar c ++ t) =
      decodeFrom (index + charLength c) (c :: done) t := by
  have hvalid := toNat_valid c
  have hc {n : Nat} (h : n = c.toNat) : Char.ofNat n = c := by rw [h, Char.ofNat_toNat]
  have hlast : isContinuation (0x80 + c.toNat % 0x40).toUInt8 = true := by
    rw [isContinuation_toUInt8 (by omega), decide_eq_true_eq]
    omega
  have hmiddle : isContinuation (0x80 + c.toNat / 0x40 % 0x40).toUInt8 = true := by
    rw [isContinuation_toUInt8 (by omega), decide_eq_true_eq]
    omega
  unfold encodeChar charLength
  dsimp only
  split_ifs with h₁ h₂ h₃
  · have hw : width c.toNat.toUInt8 = 1 := by
      rw [width_toUInt8 (by omega), if_pos h₁]
    rw [List.singleton_append, decodeFrom_one hw, hc (toNat_toUInt8 (by omega))]
  · have hw : width (0xC0 + c.toNat / 0x40).toUInt8 = 2 := by
      rw [width_toUInt8 (by omega)]
      split_ifs <;> omega
    rw [List.cons_append, List.singleton_append, decodeFrom_two hw hlast, hc]
    rw [low, toNat_toUInt8 (by omega), toNat_toUInt8 (by omega)]
    omega
  · have hw : width (0xE0 + c.toNat / 0x1000).toUInt8 = 3 := by
      rw [width_toUInt8 (by omega)]
      split_ifs <;> omega
    have hs : isSecond (0xE0 + c.toNat / 0x1000).toUInt8 (0x80 + c.toNat / 0x40 % 0x40).toUInt8 =
        true := by
      rw [isSecond_toUInt8 (by omega) (by omega)]
      split_ifs <;> simp only [decide_eq_true_eq] <;> omega
    rw [List.cons_append, List.cons_append, List.singleton_append,
      decodeFrom_three hw hs hlast, hc]
    rw [low, low, toNat_toUInt8 (by omega), toNat_toUInt8 (by omega), toNat_toUInt8 (by omega)]
    omega
  · have hw : width (0xF0 + c.toNat / 0x40000).toUInt8 = 4 := by
      rw [width_toUInt8 (by omega)]
      split_ifs <;> omega
    have hs : isSecond (0xF0 + c.toNat / 0x40000).toUInt8
        (0x80 + c.toNat / 0x1000 % 0x40).toUInt8 = true := by
      rw [isSecond_toUInt8 (by omega) (by omega)]
      split_ifs <;> simp only [decide_eq_true_eq] <;> omega
    rw [List.cons_append, List.cons_append, List.cons_append, List.singleton_append,
      decodeFrom_four hw hs hmiddle hlast, hc]
    rw [low, low, low, toNat_toUInt8 (by omega), toNat_toUInt8 (by omega),
      toNat_toUInt8 (by omega), toNat_toUInt8 (by omega)]
    omega

theorem encode_cons (c : Char) (s : List Char) : encode (c :: s) = encodeChar c ++ encode s := rfl

@[simp] theorem encode_append (s t : List Char) : encode (s ++ t) = encode s ++ encode t :=
  List.flatMap_append

theorem decodeFrom_encode (s : List Char) (index : Nat) (done : List Char) :
    decodeFrom index done (encode s) = .ok (done.reverse ++ s) := by
  induction s generalizing index done with
  | nil => simp [encode, decodeFrom]
  | cons c s ih =>
    rw [encode_cons, decodeFrom_encodeChar, ih, List.reverse_cons, List.append_assoc,
      List.singleton_append]

/-- Every text is read back from its bytes. -/
theorem decode_encode (s : List Char) : decode (encode s) = .ok s := decodeFrom_encode s 0 []

/-- A character of one byte is that byte, and one of more has none of these. -/
theorem encodeChar_cases (c : Char) :
    (c.toNat < 0x80 ∧ encodeChar c = [c.toNat.toUInt8]) ∨
      0x80 ≤ c.toNat ∧ ∀ b ∈ encodeChar c, 0x80 ≤ b.toNat := by
  have hvalid := toNat_valid c
  have high {n : Nat} (h : 0x80 ≤ n) (h' : n < 256) : 0x80 ≤ n.toUInt8.toNat := by
    rwa [toNat_toUInt8 h']
  unfold encodeChar
  dsimp only
  split_ifs with h₁ h₂ h₃
  · exact .inl ⟨h₁, rfl⟩
  all_goals
    refine .inr ⟨by omega, ?_⟩
    simp only [List.mem_cons, List.not_mem_nil, or_false, forall_eq_or_imp, forall_eq]
  · exact ⟨high (by omega) (by omega), high (by omega) (by omega)⟩
  · exact ⟨high (by omega) (by omega), high (by omega) (by omega), high (by omega) (by omega)⟩
  · exact ⟨high (by omega) (by omega), high (by omega) (by omega), high (by omega) (by omega),
      high (by omega) (by omega)⟩

/-! ### Lengths in bytes -/

/-- Whether all characters take one byte each. -/
def IsAscii (s : List Char) : Prop := ∀ c ∈ s, c.toNat < 128

theorem IsAscii.append {s t : List Char} (hs : IsAscii s) (ht : IsAscii t) : IsAscii (s ++ t) := by
  intro c hc
  rcases List.mem_append.mp hc with hc | hc
  · exact hs c hc
  · exact ht c hc

theorem foldl_charLength (s : List Char) (n : Nat) :
    s.foldl (fun n c => n + charLength c) n = n + byteLength s := by
  induction s generalizing n with
  | nil => rfl
  | cons c s ih =>
    rw [byteLength, List.foldl_cons, List.foldl_cons, ih, ih (0 + charLength c)]
    omega

theorem byteLength_cons (c : Char) (s : List Char) :
    byteLength (c :: s) = charLength c + byteLength s := by
  rw [byteLength, List.foldl_cons, foldl_charLength, Nat.zero_add]

theorem byteLength_append (s t : List Char) :
    byteLength (s ++ t) = byteLength s + byteLength t := by
  rw [byteLength, List.foldl_append, foldl_charLength]
  rfl

theorem charLength_pos (c : Char) : 0 < charLength c := by
  unfold charLength
  dsimp only
  split_ifs <;> omega

theorem byteLength_pos {s : List Char} (h : s ≠ []) : 0 < byteLength s := by
  obtain ⟨c, t, rfl⟩ := List.exists_cons_of_ne_nil h
  have := charLength_pos c
  rw [byteLength_cons]
  omega

theorem IsAscii.byteLength_eq {s : List Char} (h : IsAscii s) : byteLength s = s.length := by
  induction s with
  | nil => rfl
  | cons c s ih =>
    have hc : charLength c = 1 := if_pos (h c (by simp))
    rw [byteLength_cons, hc, ih fun x hx => h x (by simp [hx]), List.length_cons, Nat.add_comm]

end MacroBridge.Utf8
