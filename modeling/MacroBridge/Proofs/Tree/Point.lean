import Mathlib
import MacroBridge.Proofs.Token.Acceptance
import MacroBridge.Proofs.Tree.Flatten

/-!
Numbers with a point, read once by the lexer, which cuts them into tokens, and once again by the
builder, which puts them together. Both end them at the same place.
-/
namespace MacroBridge
open Lexer Grammar

variable {t : Token} {ts : List Token} {after : List Char}

theorem kind_of_point (h : tokenize (t.text ++ after) = t :: ts) (ht : t.text = ['.']) :
    t.kind = .punct := by
  have hmem : Rule.mk .punct (Pattern.choice (operators.map Pattern.literal)) .plain ∈
      declared := by
    simp [declared]
  have hm : (Pattern.choice (operators.map Pattern.literal)).Matches t.text := by
    rw [ht]
    exact Pattern.matches_choice_iff.mpr
      ⟨Pattern.literal ['.'], by decide, Pattern.matches_literal_iff.mpr rfl⟩
  rcases kind_of_matches h hmem (by simp) (by simp) hm with hk | hout
  · exact hk.symm
  · cases hk : t.kind <;> simp_all [Kind.outranks]

theorem kind_of_afterPoint (h : tokenize (t.text ++ after) = t :: ts)
    (ht : afterPoint.Matches t.text) : t.kind = .intNumber ∨ t.kind = .floatNumber := by
  rcases matches_afterPoint_iff.mp ht with hm | hm
  · have hmem : Rule.mk .floatNumber (Pattern.chain [digits, exponent, Pattern.opt suffix])
        .plain ∈ declared := by
      simp [declared]
    rcases kind_of_matches h hmem (by simp) (by simp) hm with hk | hout
    · exact .inr hk.symm
    · cases hk : t.kind <;> simp_all [Kind.outranks]
  · have hmem : Rule.mk .intNumber integer .plain ∈ declared := by simp [declared, integer]
    rcases kind_of_matches h hmem (by simp) (by simp) hm with hk | hout
    · exact .inl hk.symm
    · cases hk : t.kind <;> simp_all [Kind.outranks]

/-- The tokens that a number with a point takes behind its integer: a point, or a point and one
more number. -/
theorem Fraction.Covers.kinds {s : List Char} {n : Nat} {used left : List Token} {last : Token}
    (hcovers : Fraction.Covers s n t used last) (h : tokenize s = t :: (used ++ last :: left)) :
    used = [] ∧ last = ⟨.punct, ['.']⟩ ∨
      used = [⟨.punct, ['.']⟩] ∧ (last.kind = .intNumber ∨ last.kind = .floatNumber) := by
  rcases hcovers.shape with ⟨rfl, hlast⟩ | ⟨p, rfl, hp, hlast⟩
  · have hk := kind_of_point (tokenize_sourceOf (a := [t]) h) hlast
    exact .inl ⟨rfl, by rw [← hk, ← hlast]⟩
  · have hk := kind_of_point (tokenize_sourceOf (a := [t]) h) hp
    exact .inr ⟨by rw [← hk, ← hp], kind_of_afterPoint (tokenize_sourceOf (a := [t, p]) h) hlast⟩

/-- Where an integer in the source starts a number with a point, the integer is the digits before
the point, and the number ends with the token of the point or with the number behind it. The
builder takes these tokens and no others, all of each, and stays on the last of them. -/
theorem tokens_of_fraction {source : List Char} {before : List Token} {n : Nat}
    (h : tokenize source = before ++ t :: ts) (hk : t.kind = .intNumber)
    (hn : Fraction.length (Token.sourceOf (t :: ts)) = some n) :
    digits.Matches t.text ∧ ∃ used last left, ts = used ++ last :: left ∧
      (used = [] ∧ last = ⟨.punct, ['.']⟩ ∨
        used = [⟨.punct, ['.']⟩] ∧ (last.kind = .intNumber ∨ last.kind = .floatNumber)) ∧
      Utf8.byteLength (Token.sourceOf (t :: used ++ [last])) = n ∧
      ∀ (c : Cursor) (next : TokenId), c.tokens = t :: ts → ∃ stop,
        Builder.leavesAt .intNumber c next =
          ([.literal ⟨String.ofList (Token.sourceOf (t :: used ++ [last])), next⟩], stop) ∧
        stop.tokens = last :: left := by
  have htokens := tokenize_sourceOf h
  obtain ⟨used, last, left, rfl, hcovers⟩ := exists_covers htokens hk hn
  refine ⟨hcovers.digits, used, last, left, rfl, hcovers.kinds htokens, ?_, fun c next hc => ?_⟩
  · rw [hcovers.text, hcovers.bytes]
  · have hrest : c.rest = Token.sourceOf (t :: (used ++ last :: left)) := by rw [c.rest_eq, hc]
    have hready : c.Ready :=
      ⟨by rw [hrest, htokens, hc], (Cursor.atTrivia_eq hc).trans (by rw [hk]; rfl)⟩
    have htext := Cursor.currentText_eq hc
    have hused : c.tokens = (t :: used) ++ last :: left := hc
    have hland := (hready.advanceTo hused hcovers.last_ne_nil fun u hu => (hcovers.plain u hu).1).2
    rw [hcovers.text, hcovers.bytes] at hland
    refine ⟨_, ?_, hland⟩
    rw [Builder.leavesAt_fraction (hrest ▸ hn) (htext ▸ hcovers.length_lt), hcovers.text, hrest]

/-- The tokens of a number with an exponent. -/
def exponentTokens : List Token :=
  [⟨.intNumber, "1_0".toList⟩, ⟨.punct, ['.']⟩, ⟨.floatNumber, "2e-5".toList⟩]

theorem tokens_of_fraction_exponent :
    tokenize "-1_0.2e-5".toList = [⟨.punct, ['-']⟩] ++ exponentTokens ∧
    Fraction.length (Token.sourceOf exponentTokens) = some 8 ∧
    digits.Matches "1_0".toList ∧ ∃ used last left, exponentTokens.tail = used ++ last :: left ∧
      (used = [] ∧ last = ⟨.punct, ['.']⟩ ∨
        used = [⟨.punct, ['.']⟩] ∧ (last.kind = .intNumber ∨ last.kind = .floatNumber)) ∧
      Utf8.byteLength (Token.sourceOf (⟨.intNumber, "1_0".toList⟩ :: used ++ [last])) = 8 ∧
      ∀ (c : Cursor) (next : TokenId), c.tokens = exponentTokens → ∃ stop,
        Builder.leavesAt .intNumber c next =
          ([.literal ⟨String.ofList
            (Token.sourceOf (⟨.intNumber, "1_0".toList⟩ :: used ++ [last])), next⟩], stop) ∧
        stop.tokens = last :: left := by
  have htokens : tokenize "-1_0.2e-5".toList = [⟨.punct, ['-']⟩] ++ exponentTokens := by cbv
  have hn : Fraction.length (Token.sourceOf exponentTokens) = some 8 := by cbv
  exact ⟨htokens, hn, tokens_of_fraction htokens rfl hn⟩

end MacroBridge
