import MacroBridge.Proofs.Json.Scalar
import MacroBridge.Proofs.Text.Slice
import MacroBridge.Proofs.Token.Acceptance
import MacroBridge.Proofs.Token.Comment

/-!
The ends of comments and raw strings. Counting bytes comes to the same place as counting
characters, whatever other characters there are, and that place is behind the closing mark or at
the end of the text.
-/
namespace MacroBridge
open Json (byte)
open Utf8 (IsAscii encode encodeChar byteLength charLength encode_cons byteLength_cons
  length_encodeChar)

namespace Utf8
variable {c d : Char} {p s : List Char} {u : List UInt8}

theorem encodeChar_ascii (h : c.toNat < 0x80) : encodeChar c = [byte c] := by
  rcases encodeChar_cases c with ⟨-, hc⟩ | ⟨hhigh, -⟩
  · exact hc
  · omega

/-- A byte of an ASCII character is that character. -/
theorem eq_of_byte_head (hc : c.toNat < 0x80) (h : encodeChar d = byte c :: u) :
    d = c ∧ u = [] := by
  rcases encodeChar_cases d with ⟨hd, heq⟩ | ⟨-, hhigh⟩
  · rw [heq] at h
    obtain ⟨hbyte, rfl⟩ := List.cons.inj h
    exact ⟨Json.byte_inj hd hc hbyte, rfl⟩
  · have hb := hhigh (byte c) (by simp [h])
    rw [byte, toNat_toUInt8 (by omega)] at hb
    omega

/-- ASCII characters stand first in a text if their bytes do. -/
theorem prefix_encode_iff (hp : IsAscii p) : p.map byte <+: encode s ↔ p <+: s := by
  induction p generalizing s with
  | nil => simp
  | cons c p ih =>
    obtain ⟨hc, hp'⟩ := List.forall_mem_cons.mp hp
    cases s with
    | nil => simp [encode]
    | cons d s =>
      rw [encode_cons, List.map_cons, List.cons_prefix_cons]
      constructor
      · intro h
        obtain ⟨y, u, hy, -⟩ := head_encodeChar d
        rw [hy, List.cons_append, List.cons_prefix_cons] at h
        obtain ⟨rfl, hrest⟩ := h
        obtain ⟨rfl, rfl⟩ := eq_of_byte_head hc hy
        exact ⟨rfl, (ih hp').mp hrest⟩
      · rintro ⟨rfl, hrest⟩
        rw [encodeChar_ascii hc, List.singleton_append, List.cons_prefix_cons]
        exact ⟨rfl, (ih hp').mpr hrest⟩

end Utf8

open Utf8 (encodeChar_ascii prefix_encode_iff head_encodeChar)

namespace Lexer

/-! ### Comments in bytes -/

/-- Bytes up to the end of a block comment that is already open `depth + 1` times, counted onto
`n`. -/
def commentBytes : (depth n : Nat) → List UInt8 → Nat
  | _, n, [] => n
  | _, n, [_] => n + 1
  | depth, n, a :: b :: s =>
      if a = byte '/' ∧ b = byte '*' then commentBytes (depth + 1) (n + 2) s
      else if a = byte '*' ∧ b = byte '/' then
        match depth with
        | 0 => n + 2
        | depth + 1 => commentBytes depth (n + 2) s
      else commentBytes depth (n + 1) (b :: s)

variable {c : Char} {s : List Char} {u : List UInt8} {x : UInt8}

theorem commentBytes_skip {u : List UInt8} (hopen : ¬ [byte '/', byte '*'] <+: x :: u)
    (hclose : ¬ [byte '*', byte '/'] <+: x :: u) (depth n : Nat) :
    commentBytes depth n (x :: u) = commentBytes depth (n + 1) u := by
  cases u with
  | nil => rfl
  | cons y u =>
    have hopen' : ¬ (x = byte '/' ∧ y = byte '*') := by
      rintro ⟨rfl, rfl⟩
      exact hopen ⟨u, rfl⟩
    have hclose' : ¬ (x = byte '*' ∧ y = byte '/') := by
      rintro ⟨rfl, rfl⟩
      exact hclose ⟨u, rfl⟩
    rw [commentBytes.eq_def]
    simp only [if_neg hopen', if_neg hclose']

theorem ne_byte_of_high (h : 0x80 ≤ x.toNat) (hc : (byte c).toNat < 0x80) : x ≠ byte c := by
  rintro rfl
  omega

theorem commentBytes_high {w : List UInt8} (h : ∀ x ∈ w, 0x80 ≤ x.toNat) (depth n : Nat)
    (u : List UInt8) : commentBytes depth n (w ++ u) = commentBytes depth (n + w.length) u := by
  induction w generalizing n with
  | nil => rfl
  | cons x w ih =>
    obtain ⟨hx, hw⟩ := List.forall_mem_cons.mp h
    have hopen : ¬ [byte '/', byte '*'] <+: x :: (w ++ u) := fun hp =>
      ne_byte_of_high hx (by decide) (List.cons_prefix_cons.mp hp).1.symm
    have hclose : ¬ [byte '*', byte '/'] <+: x :: (w ++ u) := fun hp =>
      ne_byte_of_high hx (by decide) (List.cons_prefix_cons.mp hp).1.symm
    rw [List.cons_append, commentBytes_skip hopen hclose, ih hw, List.length_cons, Nat.add_assoc,
      Nat.add_comm 1]

/-- A character with which no mark begins is passed with all its bytes. -/
theorem commentBytes_char (hopen : ¬ ['/', '*'] <+: c :: s) (hclose : ¬ ['*', '/'] <+: c :: s)
    (depth n : Nat) :
    commentBytes depth n (encode (c :: s)) = commentBytes depth (n + charLength c) (encode s) := by
  have hascii : IsAscii ['/', '*'] ∧ IsAscii ['*', '/'] := by simp [IsAscii]
  rw [← prefix_encode_iff hascii.1, encode_cons] at hopen
  rw [← prefix_encode_iff hascii.2, encode_cons] at hclose
  rw [encode_cons, ← length_encodeChar]
  rcases Utf8.encodeChar_cases c with ⟨hlow, -⟩ | ⟨-, hhigh⟩
  · rw [encodeChar_ascii hlow] at hopen hclose ⊢
    exact commentBytes_skip hopen hclose depth n
  · exact commentBytes_high hhigh depth n (encode s)

theorem commentBytes_open (depth n : Nat) (s : List Char) :
    commentBytes depth n (encode ('/' :: '*' :: s)) =
      commentBytes (depth + 1) (n + 2) (encode s) := by
  change commentBytes depth n (byte '/' :: byte '*' :: encode s) = _
  rw [commentBytes.eq_def]
  simp

theorem commentBytes_last (n : Nat) (s : List Char) :
    commentBytes 0 n (encode ('*' :: '/' :: s)) = n + 2 := by
  change commentBytes 0 n (byte '*' :: byte '/' :: encode s) = _
  have hne : byte '*' ≠ byte '/' := by decide
  rw [commentBytes.eq_def]
  simp [hne]

theorem commentBytes_close (depth n : Nat) (s : List Char) :
    commentBytes (depth + 1) n (encode ('*' :: '/' :: s)) =
      commentBytes depth (n + 2) (encode s) := by
  change commentBytes (depth + 1) n (byte '*' :: byte '/' :: encode s) = _
  have hne : byte '*' ≠ byte '/' := by decide
  rw [commentBytes.eq_def]
  simp [hne]

theorem byteLength_marks {c d : Char} (hc : c.toNat < 0x80) (hd : d.toNat < 0x80) (s : List Char) :
    byteLength (c :: d :: s) = 2 + byteLength s := by
  have hone {c : Char} (hc : c.toNat < 0x80) : charLength c = 1 := if_pos hc
  rw [byteLength_cons, byteLength_cons, hone hc, hone hd, ← Nat.add_assoc]

/-- A comment takes as many bytes as the characters that it takes. -/
theorem commentBytes_encode (depth n m : Nat) (s : List Char) :
    ∃ k, commentLength depth n s = n + k ∧
      commentBytes depth m (encode s) = m + byteLength (s.take k) := by
  -- The characters are counted from another number than the bytes, as soon as one of them has more
  -- than one byte.
  fun_induction commentLength depth n s generalizing m with
  | case1 depth n => exact ⟨0, rfl, rfl⟩
  | case2 depth n c =>
    refine ⟨1, rfl, ?_⟩
    rw [commentBytes_char (by simp) (by simp)]
    simp [encode, commentBytes, byteLength]
  | case3 depth n c d s h ih =>
    obtain ⟨rfl, rfl⟩ := h
    obtain ⟨k, hk, hbytes⟩ := ih (m + 2)
    refine ⟨k + 2, by rw [hk, Nat.add_assoc, Nat.add_comm 2], ?_⟩
    rw [commentBytes_open, hbytes, List.take_succ_cons, List.take_succ_cons,
      byteLength_marks (by decide) (by decide), Nat.add_assoc]
  | case4 n c d s h h' =>
    obtain ⟨rfl, rfl⟩ := h'
    refine ⟨2, rfl, ?_⟩
    rw [commentBytes_last]
    rfl
  | case5 n c d s h h' depth ih =>
    obtain ⟨rfl, rfl⟩ := h'
    obtain ⟨k, hk, hbytes⟩ := ih (m + 2)
    refine ⟨k + 2, by rw [hk, Nat.add_assoc, Nat.add_comm 2], ?_⟩
    rw [commentBytes_close, hbytes, List.take_succ_cons, List.take_succ_cons,
      byteLength_marks (by decide) (by decide), Nat.add_assoc]
  | case6 depth n c d s h h' ih =>
    have hopen : ¬ ['/', '*'] <+: c :: d :: s := by simpa [List.cons_prefix_cons, eq_comm] using h
    have hclose : ¬ ['*', '/'] <+: c :: d :: s := by
      simpa [List.cons_prefix_cons, eq_comm] using h'
    obtain ⟨k, hk, hbytes⟩ := ih (m + charLength c)
    refine ⟨k + 1, by rw [hk, Nat.add_assoc, Nat.add_comm 1], ?_⟩
    rw [commentBytes_char hopen hclose, hbytes, List.take_succ_cons, byteLength_cons,
      Nat.add_assoc]

/-! ### Raw strings in bytes -/

/-- Bytes through the first quote followed by `count` hashes, counted onto `n`; without one,
all. -/
def rawStringBytes (count : Nat) : (n : Nat) → List UInt8 → Nat
  | n, [] => n
  | n, b :: s =>
      if (byte '"' :: List.replicate count (byte '#')).isPrefixOf (b :: s) then n + 1 + count
      else rawStringBytes count (n + 1) s

theorem rawStringBytes_high {w : List UInt8} (h : ∀ x ∈ w, 0x80 ≤ x.toNat) (count n : Nat)
    (u : List UInt8) :
    rawStringBytes count n (w ++ u) = rawStringBytes count (n + w.length) u := by
  induction w generalizing n with
  | nil => rfl
  | cons x w ih =>
    obtain ⟨hx, hw⟩ := List.forall_mem_cons.mp h
    have hno : ¬ (byte '"' :: List.replicate count (byte '#')).isPrefixOf (x :: (w ++ u)) =
        true := fun hp =>
      ne_byte_of_high hx (by decide)
        (List.cons_prefix_cons.mp (List.isPrefixOf_iff_prefix.mp hp)).1.symm
    rw [List.cons_append, rawStringBytes, if_neg hno, ih hw, List.length_cons, Nat.add_assoc,
      Nat.add_comm 1]

theorem ascii_terminator (count : Nat) : IsAscii ('"' :: List.replicate count '#') := by
  refine List.forall_mem_cons.mpr ⟨by decide, fun c hc => ?_⟩
  rw [List.eq_of_mem_replicate hc]
  decide

/-- A terminator stands first in the bytes if it does in the text. -/
theorem atTerminator_encode (count : Nat) (s : List Char) :
    (byte '"' :: List.replicate count (byte '#')).isPrefixOf (encode s) =
    atTerminator count s := by
  rw [Bool.eq_iff_iff, atTerminator, List.isPrefixOf_iff_prefix, List.isPrefixOf_iff_prefix,
    ← prefix_encode_iff (ascii_terminator count), List.map_cons, List.map_replicate]

/-- A character with which no terminator begins is passed with all its bytes. -/
theorem rawStringBytes_char {count : Nat} (h : ¬ atTerminator count (c :: s) = true) (n : Nat) :
    rawStringBytes count n (encode (c :: s)) =
      rawStringBytes count (n + charLength c) (encode s) := by
  rw [← atTerminator_encode] at h
  rw [encode_cons] at h ⊢
  rw [← length_encodeChar]
  rcases Utf8.encodeChar_cases c with ⟨hlow, -⟩ | ⟨-, hhigh⟩
  · rw [encodeChar_ascii hlow, List.singleton_append] at h ⊢
    rw [rawStringBytes, if_neg h, List.length_singleton]
  · exact rawStringBytes_high hhigh count n (encode s)

/-- A raw string takes as many bytes as the characters that it takes. -/
theorem rawStringBytes_encode (count n m : Nat) (s : List Char) :
    ∃ k, rawStringLength count n s = n + k ∧
      rawStringBytes count m (encode s) = m + byteLength (s.take k) := by
  fun_induction rawStringLength count n s generalizing m with
  | case1 n => exact ⟨0, rfl, rfl⟩
  | case2 n c s hat =>
    refine ⟨count + 1, by omega, ?_⟩
    have htake := List.prefix_iff_eq_take.mp (List.isPrefixOf_iff_prefix.mp hat)
    rw [List.length_cons, List.length_replicate] at htake
    rw [← htake, (ascii_terminator count).byteLength_eq]
    have hbytes := atTerminator_encode count (c :: s)
    rw [hat] at hbytes
    obtain ⟨x, u, hx, -⟩ := head_encodeChar c
    rw [encode_cons, hx, List.cons_append] at hbytes ⊢
    rw [rawStringBytes, if_pos hbytes, List.length_cons, List.length_replicate]
    omega
  | case3 n c s hat ih =>
    obtain ⟨k, hk, hbytes⟩ := ih (m + charLength c)
    refine ⟨k + 1, by rw [hk, Nat.add_assoc, Nat.add_comm 1], ?_⟩
    rw [rawStringBytes_char hat, hbytes, List.take_succ_cons, byteLength_cons, Nat.add_assoc]

/-- Number of bytes that a token takes behind its opening. -/
def tailBytes (tail : Tail) (opening rest : List UInt8) : Nat :=
  match tail with
  | .plain => 0
  | .comment => commentBytes 0 0 rest
  | .rawString => rawStringBytes (opening.count (byte '#')) 0 rest

theorem count_encode {c : Char} (hc : c.toNat < 0x80) (s : List Char) :
    (encode s).count (byte c) = s.count c := by
  induction s with
  | nil => rfl
  | cons d s ih =>
    rw [encode_cons, List.count_append, ih, Nat.add_comm]
    by_cases hd : d = c
    · rw [hd, encodeChar_ascii hc, List.count_singleton_self, List.count_cons_self]
    · have hnone : byte c ∉ encodeChar d := by
        intro hmem
        rcases Utf8.encodeChar_cases d with ⟨hlow, heq⟩ | ⟨-, hhigh⟩
        · rw [heq, List.mem_singleton] at hmem
          exact hd (Utf8.eq_of_byte_head hc (hmem ▸ heq)).1
        · have hbyte := hhigh _ hmem
          rw [byte, Utf8.toNat_toUInt8 (by omega)] at hbyte
          omega
      rw [List.count_cons_of_ne hd, List.count_eq_zero.mpr hnone, Nat.add_zero]

/-- A token takes as many bytes behind its opening as the characters that it takes. -/
theorem tailBytes_encode (tail : Tail) (opening rest : List Char) :
    tailBytes tail (encode opening) (encode rest) =
      byteLength (rest.take (tailLength tail opening rest)) := by
  cases tail with
  | plain => rfl
  | comment =>
    obtain ⟨k, hk, hbytes⟩ := commentBytes_encode 0 0 0 rest
    rw [Nat.zero_add] at hk hbytes
    rw [tailBytes, hbytes, tailLength, hk]
  | rawString =>
    obtain ⟨k, hk, hbytes⟩ := rawStringBytes_encode (opening.count '#') 0 0 rest
    rw [Nat.zero_add] at hk hbytes
    rw [tailBytes, count_encode (by decide), hbytes, tailLength, hk]

/-! ### Comments that are not closed -/

/-- The rest of `depth + 1` comments, the innermost first, each of which is closed. -/
def ClosesAll : (depth : Nat) → List Char → Prop
  | 0, s => CommentBody s
  | depth + 1, s => ∃ a b, s = a ++ b ∧ CommentBody a ∧ ClosesAll depth b

namespace ClosesAll
variable {depth : Nat} {c d : Char} {s : List Char}

theorem ne_nil (h : ClosesAll depth s) : s ≠ [] := by
  cases depth with
  | zero => exact CommentBody.ne_nil h
  | succ depth =>
    obtain ⟨a, b, rfl, ha, -⟩ := h
    simp [ha.ne_nil]

theorem nested (h : ClosesAll (depth + 1) s) : ClosesAll depth ('/' :: '*' :: s) := by
  obtain ⟨a, b, rfl, ha, hb⟩ := h
  cases depth with
  | zero => exact .nested ha hb
  | succ depth =>
    obtain ⟨b, b', rfl, hb, hb'⟩ := hb
    exact ⟨'/' :: '*' :: (a ++ b), b', by simp, .nested ha hb, hb'⟩

theorem close (h : ClosesAll depth s) : ClosesAll (depth + 1) ('*' :: '/' :: s) :=
  ⟨['*', '/'], s, rfl, .close, h⟩

theorem char (h : ClosesAll depth (d :: s)) (hopen : ¬ (c = '/' ∧ d = '*'))
    (hclose : ¬ (c = '*' ∧ d = '/')) : ClosesAll depth (c :: d :: s) := by
  have hbody {a : List Char} (ha : CommentBody (d :: a)) : CommentBody (c :: d :: a) := by
    refine .char ?_ ?_ ha
    · simpa [List.cons_prefix_cons, eq_comm] using hopen
    · simpa [List.cons_prefix_cons, eq_comm] using hclose
  cases depth with
  | zero => exact hbody h
  | succ depth =>
    obtain ⟨a, b, hab, ha, hb⟩ := h
    obtain ⟨x, a, rfl⟩ := List.exists_cons_of_ne_nil ha.ne_nil
    obtain ⟨rfl, rfl⟩ := List.cons.inj hab
    exact ⟨c :: d :: a, b, rfl, hbody ha, hb⟩

end ClosesAll

/-- What open comments take closes all of them, or is all of the text. -/
theorem commentLength_eq (depth n : Nat) (s : List Char) : commentLength depth n s = n + s.length ∨
    ∃ k, commentLength depth n s = n + k ∧ ClosesAll depth (s.take k) := by
  fun_induction commentLength depth n s with
  | case1 depth n => exact .inl rfl
  | case2 depth n c => exact .inl rfl
  | case3 depth n c d s h ih =>
    obtain ⟨rfl, rfl⟩ := h
    rcases ih with hall | ⟨k, hk, hcloses⟩
    · exact .inl (by rw [hall, List.length_cons, List.length_cons]; omega)
    · exact .inr ⟨k + 2, by omega, hcloses.nested⟩
  | case4 n c d s h h' =>
    obtain ⟨rfl, rfl⟩ := h'
    exact .inr ⟨2, rfl, CommentBody.close⟩
  | case5 n c d s h h' depth ih =>
    obtain ⟨rfl, rfl⟩ := h'
    rcases ih with hall | ⟨k, hk, hcloses⟩
    · exact .inl (by rw [hall, List.length_cons, List.length_cons]; omega)
    · exact .inr ⟨k + 2, by omega, hcloses.close⟩
  | case6 depth n c d s h h' ih =>
    rcases ih with hall | ⟨k, hk, hcloses⟩
    · exact .inl (by rw [hall, List.length_cons, List.length_cons, List.length_cons]; omega)
    · obtain ⟨j, rfl⟩ : ∃ j, k = j + 1 := Nat.exists_eq_succ_of_ne_zero fun hzero => by
        rw [hzero, List.take_zero] at hcloses
        exact hcloses.ne_nil rfl
      exact .inr ⟨j + 2, by omega, hcloses.char h h'⟩

end Lexer

open Pattern Lexer Grammar

variable {s : List Char} {t : Token} {ts : List Token}

/-- Nothing follows a block comment in which not all are closed. -/
theorem drop_of_not_isComment (h : tokenize s = t :: ts) (hk : t.kind = .blockComment)
    (hopen : ¬ IsComment t.text) : s.drop t.text.length = [] := by
  have hrule : ∀ r ∈ rules, r.kind = .blockComment →
      r.pattern = literal ['/', '*'] ∧ r.tail = .comment := by decide
  obtain ⟨r, hr, n, hrk, -, hn, hm, ht⟩ := exists_rule h (by simp [hk])
  obtain ⟨hp, htail⟩ := hrule r hr (hrk.trans hk)
  have hopening : s.take n = ['/', '*'] := matches_literal_iff.mp (hp ▸ hm)
  rw [htail, tailLength, List.take_add, hopening] at ht
  rcases commentLength_eq 0 0 (s.drop n) with hall | ⟨k, hk', hcloses⟩
  · rw [hall, Nat.zero_add, List.take_length, ← hopening, List.take_append_drop] at ht
    rw [ht, List.drop_length]
  · rw [hk', Nat.zero_add] at ht
    exact absurd ⟨_, ht, hcloses⟩ hopen

/-- Every text begins with a token that has characters, all of them from the text. -/
theorem first_bounds (h : s ≠ []) : 0 < (first s).2 ∧ (first s).2 ≤ s.length := by
  have hpos := List.length_pos_iff.mpr h
  by_cases hu : (first s).1 = .unknown
  · rcases first_unknown hu with ⟨-, hone⟩ | ⟨r, n, hw, hlen, -⟩
    · rw [hone]
      exact ⟨Nat.one_pos, hpos⟩
    · rw [hlen]
      exact ⟨pos_of_winner hw, (winner_eq_some hw).2.1⟩
  · obtain ⟨r, n, hw, hf⟩ := first_kind hu
    have hn := (winner_eq_some hw).2.1
    have htail := tailLength_le r.tail (s.take n) (s.drop n)
    rw [List.length_drop] at htail
    rw [hf]
    exact ⟨Nat.add_pos_left (pos_of_winner hw) _, by simp only; omega⟩

end MacroBridge
