import MacroBridge.Json.Piece
import MacroBridge.Proofs.Json.Scan
import MacroBridge.Proofs.Text.Utf8

/-!
Strings and numbers that are written are read back.
-/
namespace MacroBridge.Json
open Utf8 (encode encodeChar)

/-- Characters of one byte are written as their numbers. -/
theorem encode_ascii {s : List Char} (h : ∀ c ∈ s, c.toNat < 0x80) : encode s = s.map byte := by
  induction s with
  | nil => rfl
  | cons c s ih =>
    have hc : encodeChar c = [byte c] := by
      rcases Utf8.encodeChar_cases c with ⟨-, hc⟩ | ⟨hc, -⟩
      · exact hc
      · have := h c (by simp)
        omega
    rw [Utf8.encode_cons, hc, ih fun x hx => h x (by simp [hx])]
    rfl

/-- Characters of one byte are known from it. -/
theorem byte_inj {c d : Char} (hc : c.toNat < 0x80) (hd : d.toNat < 0x80) (h : byte c = byte d) :
    c = d := by
  have hnat := congrArg UInt8.toNat h
  rw [byte, byte, Utf8.toNat_toUInt8 (by omega), Utf8.toNat_toUInt8 (by omega)] at hnat
  exact Char.toNat_inj.mp hnat

/-! ### Strings -/

theorem stringBytes_append {bs : List UInt8}
    (h : ∀ b ∈ bs, b ≠ byte '"' ∧ ¬ b < 0x20 ∧ b ≠ byte '\\') (done s : List UInt8) :
    stringBytes done (bs ++ s) = stringBytes (bs.reverse ++ done) s := by
  induction bs generalizing done with
  | nil => rfl
  | cons b bs ih =>
    obtain ⟨hq, hc, hb⟩ := h b (by simp)
    rw [List.cons_append, stringBytes_plain hq hc hb, ih fun x hx => h x (by simp [hx]),
      List.reverse_cons, List.append_assoc, List.singleton_append]

theorem hexFour_control : ∀ n < 0x20,
    hexFour (byte '0') (byte '0') (byte (hexDigit (n / 16))) (byte (hexDigit (n % 16))) = some n ∧
      (hexDigit (n / 16)).toNat < 0x80 ∧ (hexDigit (n % 16)).toNat < 0x80 := by
  decide

/-- A character is read back from the form it has inside a string. -/
theorem stringBytes_quoteChar (c : Char) (done s : List UInt8) :
    stringBytes done (encode (quoteChar c) ++ s) =
      stringBytes ((encodeChar c).reverse ++ done) s := by
  have hsimple {e c : Char} (hascii : e.toNat < 0x80 ∧ c.toNat < 0x80)
      (he : simpleEscape (byte e) = some (byte c)) :
      stringBytes done (encode ['\\', e] ++ s) =
        stringBytes ((encodeChar c).reverse ++ done) s := by
    have hc : encodeChar c = [byte c] := by
      simpa [encode] using encode_ascii (s := [c]) (by simpa using hascii.2)
    rw [encode_ascii (by simpa using hascii.1), hc]
    exact stringBytes_escape he done s
  unfold quoteChar
  split_ifs with hquote hback hn hr ht hb hf hcontrol
  · subst hquote
    exact hsimple (by decide) (by decide)
  · subst hback
    exact hsimple (by decide) (by decide)
  · subst hn
    exact hsimple (by decide) (by decide)
  · subst hr
    exact hsimple (by decide) (by decide)
  · subst ht
    exact hsimple (by decide) (by decide)
  · subst hb
    exact hsimple (by decide) (by decide)
  · subst hf
    exact hsimple (by decide) (by decide)
  · obtain ⟨hhex, h₁, h₂⟩ := hexFour_control c.toNat hcontrol
    have hlow : isLowSurrogate c.toNat = false := by simp [isLowSurrogate]; omega
    have hhigh : isHighSurrogate c.toNat = false := by simp [isHighSurrogate]; omega
    rw [encode_ascii (by simpa using ⟨h₁, h₂⟩)]
    refine (stringBytes_unicode hhex hlow hhigh done s).trans ?_
    rw [pushCode, Char.ofNat_toNat, List.reverseAux_eq]
  · have henc : encode [c] = encodeChar c := by simp [encode]
    rw [henc]
    refine stringBytes_append (fun b hmem => ?_) done s
    have hne {a : Char} (ha : a.toNat < 0x80) (hca : c ≠ a) : b ≠ byte a := by
      rintro rfl
      have hbyte : (byte a).toNat = a.toNat := Utf8.toNat_toUInt8 (by omega)
      rcases Utf8.encodeChar_cases c with ⟨hlt, hc⟩ | ⟨-, hge⟩
      · have heq : (byte a).toNat = c.toNat := by
          rw [hc, List.mem_singleton] at hmem
          rw [hmem, Utf8.toNat_toUInt8 (by omega)]
        exact hca (by rw [← Char.ofNat_toNat c, ← Char.ofNat_toNat a, ← heq, hbyte])
      · have := hge _ hmem
        omega
    refine ⟨hne (by decide) hquote, ?_, hne (by decide) hback⟩
    rw [UInt8.lt_iff_toNat_lt, show (0x20 : UInt8).toNat = 0x20 from rfl]
    rcases Utf8.encodeChar_cases c with ⟨hlt, hc⟩ | ⟨-, hge⟩
    · rw [hc, List.mem_singleton] at hmem
      rw [hmem, Utf8.toNat_toUInt8 (by omega)]
      exact hcontrol
    · have := hge _ hmem
      omega

theorem stringBytes_quoted (text : List Char) (done t : List UInt8) :
    stringBytes done (encode (text.flatMap quoteChar) ++ byte '"' :: t) =
      .ok (done.reverse ++ encode text, t) := by
  induction text generalizing done with
  | nil => simpa [encode] using stringBytes_quote done t
  | cons c text ih =>
    rw [List.flatMap_cons, Utf8.encode_append, List.append_assoc, stringBytes_quoteChar, ih,
      Utf8.encode_cons, List.reverse_append, List.reverse_reverse, List.append_assoc]

/-- A string is read back from the text it is written as. -/
theorem stringText_quoted (text : String) (t : List UInt8) :
    stringText (encode (text.toList.flatMap quoteChar) ++ byte '"' :: t) = .ok (text, t) := by
  simp only [stringText, stringBytes_quoted, List.reverse_nil, List.nil_append, Utf8.decode_encode,
    String.ofList_toList]

theorem encode_quote (s : List Char) :
    encode (quote s) = byte '"' :: (encode (s.flatMap quoteChar) ++ [byte '"']) := by
  have hq : encode ['"'] = [byte '"'] := encode_ascii (by simp)
  rw [quote, Utf8.encode_append, hq, Utf8.encode_cons]
  rfl

theorem stringTail_quoted (text : String) :
    StringTail (encode (text.toList.flatMap quoteChar) ++ [byte '"']) := by
  obtain ⟨k, hk, hs, -⟩ := stringText_spells (stringText_quoted text [])
  rw [List.append_nil] at hs
  exact hs ▸ hk

/-! ### Numbers -/

/-- Bytes that cannot go on with a number. -/
def Apart (t : List UInt8) : Prop :=
  ∀ b ∈ t.head?, isDigit b = false ∧ b ≠ byte '.' ∧ b ≠ byte 'e' ∧ b ≠ byte 'E'

theorem fraction_apart {t : List UInt8} (h : Apart t) (n : Number) :
    fraction n t = .ok (n, t) := by
  cases t with
  | nil => rfl
  | cons b t =>
    obtain ⟨-, hdot, he, hE⟩ := h b rfl
    simp [fraction, exponent, hdot, he, hE]

theorem isDigit_byte {c : Char} (h : c.isDigit = true) :
    isDigit (byte c) = true ∧ (byte c - byte '0').toNat = c.toNat - '0'.toNat ∧
    c.toNat < 0x80 := by
  have hbounds : 48 ≤ c.toNat ∧ c.toNat ≤ 57 := by
    simpa [Char.isDigit, UInt32.le_iff_toNat_le] using h
  obtain ⟨h₁, h₂⟩ := hbounds
  have hall : ∀ n ≤ 57, 48 ≤ n →
      isDigit n.toUInt8 = true ∧ (n.toUInt8 - byte '0').toNat = n - 48 := by
    decide
  obtain ⟨hd, hv⟩ := hall c.toNat h₂ h₁
  exact ⟨hd, hv, by omega⟩

theorem digits_append_apart {ds : List Char} (hds : ∀ c ∈ ds, c.isDigit = true) {t : List UInt8}
    (ht : Apart t) (n : Nat) : digits n (ds.map byte ++ t) = (Nat.ofDigitChars 10 ds n, t) := by
  induction ds generalizing n with
  | nil =>
    cases t with
    | nil => simp [digits]
    | cons b t => simp [digits, (ht b rfl).1]
  | cons c ds ih =>
    obtain ⟨hd, hv, -⟩ := isDigit_byte (hds c (by simp))
    simp only [List.map_cons, List.cons_append, digits, hd, ↓reduceIte, hv, Nat.ofDigitChars_cons]
    rw [ih fun x hx => hds x (by simp [hx]), Nat.mul_comm]

/-- A number above zero does not start with a zero. -/
theorem head_toDigits {n : Nat} (hn : 0 < n) :
    ∃ c ds, Nat.toDigits 10 n = c :: ds ∧ byte c ≠ byte '0' := by
  induction n using Nat.strongRecOn with
  | ind n ih =>
    rw [Nat.toDigits_eq_if (by decide)]
    split_ifs with h
    · have hall : ∀ n < 10, 0 < n → byte n.digitChar ≠ byte '0' := by decide
      exact ⟨n.digitChar, [], rfl, hall n h hn⟩
    · obtain ⟨c, ds, hc, hne⟩ := ih (n / 10) (by omega) (by omega)
      exact ⟨c, ds ++ [(n % 10).digitChar], by rw [hc]; rfl, hne⟩

theorem encode_toDigits (n : Nat) : encode (Nat.toDigits 10 n) = (Nat.toDigits 10 n).map byte :=
  encode_ascii fun _ hc =>
    (isDigit_byte (Nat.isDigit_of_mem_toDigits (by decide) (by decide) hc)).2.2

/-- A number is read back from its digits. -/
theorem number_toDigits (n : Nat) {t : List UInt8} (ht : Apart t) :
    number (encode (Nat.toDigits 10 n) ++ t) = .ok (.natural n, t) ∧
      ∃ b s, encode (Nat.toDigits 10 n) = b :: s ∧ isDigit b = true := by
  have hdigit : ∀ c ∈ Nat.toDigits 10 n, c.isDigit = true := fun c hc =>
    Nat.isDigit_of_mem_toDigits (by decide) (by decide) hc
  have hminus : isDigit (byte '-') = false := by decide
  rw [encode_toDigits]
  rcases Nat.eq_zero_or_pos n with rfl | hn
  · have hhead : t.head?.any isDigit = false := by
      cases t with
      | nil => rfl
      | cons b t => exact (ht b rfl).1
    rw [Nat.toDigits_zero]
    refine ⟨?_, _, _, rfl, by decide⟩
    simp [number, unsigned, show byte '0' ≠ byte '-' by decide, hhead, fraction_apart ht]
  · obtain ⟨c, ds, hc, hne⟩ := head_toDigits hn
    have hvalue := digits_append_apart hdigit ht 0
    rw [Nat.ofDigitChars_ten_toDigits, hc] at hvalue
    rw [hc] at hdigit ⊢
    obtain ⟨hd, -⟩ := isDigit_byte (hdigit c (by simp))
    refine ⟨?_, _, _, rfl, hd⟩
    have hsign : byte c ≠ byte '-' := by
      intro h
      rw [h, hminus] at hd
      simp at hd
    rw [List.map_cons, List.cons_append] at hvalue ⊢
    simp [number, unsigned, hsign, hne, hd, hvalue, fraction_apart ht]

end MacroBridge.Json
