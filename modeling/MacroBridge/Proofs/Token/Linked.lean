import MacroBridge.Proofs.Token.Cursor
import MacroBridge.Proofs.Token.Relex

/-!
What is seen of a text by one who passes over its trivia: the other tokens, and behind which of
them the next one follows at once. A number with a point is the same in texts in which the same is
seen.
-/
namespace MacroBridge
open Pattern Lexer Grammar

namespace Token

/-- Whether a token that is no trivia comes first. -/
def atToken (ts : List Token) : Bool := ts.head?.any fun t => !t.kind.isTrivia

/-- The tokens that are not trivia, each with whether the next one follows without trivia between
them. -/
def linked : List Token → List (Token × Bool)
  | [] => []
  | t :: ts => if t.kind.isTrivia then linked ts else (t, atToken ts) :: linked ts

/-- The text of linked tokens up to the first one behind which there is trivia or nothing. -/
def reach : List (Token × Bool) → List Char
  | [] => []
  | (t, true) :: ls => t.text ++ reach ls
  | (t, false) :: _ => t.text

variable {t : Token} {ts : List Token}

@[simp] theorem linked_nil : linked [] = [] := rfl

@[simp] theorem atToken_nil : atToken [] = false := rfl

@[simp] theorem atToken_cons (t : Token) (ts : List Token) :
    atToken (t :: ts) = !t.kind.isTrivia := by
  simp [atToken]

theorem linked_trivia (h : t.kind.isTrivia = true) (ts : List Token) :
    linked (t :: ts) = linked ts := by
  simp [linked, h]

theorem linked_cons (h : t.kind.isTrivia = false) (ts : List Token) :
    linked (t :: ts) = (t, atToken ts) :: linked ts := by
  simp [linked, h]

theorem linked_append_trivia {run : List Token} (h : ∀ t ∈ run, t.kind.isTrivia = true)
    (ts : List Token) : linked (run ++ ts) = linked ts := by
  induction run with
  | nil => rfl
  | cons t run ih =>
    obtain ⟨ht, hrun⟩ := List.forall_mem_cons.mp h
    rw [List.cons_append, linked_trivia ht, ih hrun]

theorem map_fst_linked (ts : List Token) : (linked ts).map Prod.fst = significant ts := by
  induction ts with
  | nil => rfl
  | cons t ts ih =>
    cases h : t.kind.isTrivia with
    | true => simpa [linked_trivia h, significant, h] using ih
    | false => rw [linked_cons h, List.map_cons, ih, significant_cons h]

/-- Tokens without trivia among them give one link each. -/
theorem exists_linked_append {front : List Token} (h : ∀ t ∈ front, t.kind.isTrivia = false)
    (ts : List Token) :
    ∃ ls, linked (front ++ ts) = ls ++ linked ts ∧ ls.map Prod.fst = front := by
  induction front with
  | nil => exact ⟨[], rfl, rfl⟩
  | cons t front ih =>
    obtain ⟨ht, hfront⟩ := List.forall_mem_cons.mp h
    obtain ⟨ls, hls, hmap⟩ := ih hfront
    exact ⟨(t, atToken (front ++ ts)) ::
      ls, by rw [List.cons_append, linked_cons ht, hls, List.cons_append], by
        rw [List.map_cons, hmap]⟩

theorem exists_of_atToken (h : atToken ts = true) :
    ∃ u us, ts = u :: us ∧ u.kind.isTrivia = false := by
  cases ts with
  | nil => simp at h
  | cons u us => exact ⟨u, us, rfl, by simpa using h⟩

end Token

open Token (atToken linked reach linked_cons linked_trivia exists_of_atToken)

/-! ### Where trivia begins -/

/-- The characters that trivia begins with. -/
def gapHeads : List Char := '/' :: blanks

/-- Texts that begin with one of them. -/
def gapped : Pattern := .seq (oneOf gapHeads) anyText

theorem matches_gapped {c : Char} (hc : c ∈ gapHeads) (v : List Char) : Matches gapped (c :: v) :=
  Matches.seq (s := [c]) (matches_oneOf_iff.mpr ⟨c, hc, rfl⟩) (matches_anyText v)

/-- A text that stands where tokens end or are parted. -/
def Gap (v : List Char) : Prop := ∀ c ∈ v.head?, c ∈ gapHeads

theorem head_of_trivia {s : List Char} {t : Token} {ts : List Token} (h : tokenize s = t :: ts)
    (ht : t.kind.isTrivia = true) : Gap s := by
  intro c hc
  obtain ⟨s, rfl⟩ := List.head?_eq_some_iff.mp hc
  obtain ⟨-, -, hne, hs, -⟩ := tokenize_eq_cons h
  have hx : t.text.head? = some c := by
    obtain ⟨x, a, ha⟩ := List.exists_cons_of_ne_nil hne
    rw [ha, List.cons_append] at hs
    rw [ha, (List.cons.inj hs).1]
    rfl
  obtain ⟨r, hr, hk, hd⟩ := exists_rule_head h (by rintro hu; simp [hu, Kind.isTrivia] at ht) hx
  obtain ⟨d, hd⟩ := List.exists_mem_of_ne_nil _ hd
  obtain ⟨set, hmem, hset⟩ := mem_derivatives_iff.mp hd
  have hall : rules.all (fun r => !r.kind.isTrivia ||
      r.pattern.heads.all fun e => gapHeads.any fun x => decide (e.1 = .exactly x)) =
        true := by decide +kernel
  simp only [List.all_eq_true, Bool.or_eq_true, Bool.not_eq_true', List.any_eq_true,
    decide_eq_true_eq] at hall
  obtain htrivia | hheads := hall r hr
  · simp [hk, ht] at htrivia
  obtain ⟨x, hx, hexact⟩ := hheads _ hmem
  dsimp only at hexact
  rw [hexact, CharSet.contains_exactly_iff] at hset
  exact hset ▸ hx

/-- Up to where trivia begins or the text ends, a text reads as its links. -/
theorem exists_reach {s : List Char} (h : atToken (tokenize s) = true)
    (later : List (Token × Bool)) :
    ∃ o, s = reach (linked (tokenize s) ++ later) ++ o ∧ Gap o := by
  generalize hts : tokenize s = ts at h
  induction ts generalizing s with
  | nil => simp at h
  | cons t ts ih =>
    obtain ⟨-, -, -, hs, hrest⟩ := tokenize_eq_cons hts
    have ht : t.kind.isTrivia = false := by simpa using h
    rw [linked_cons ht, List.cons_append]
    cases hnext : atToken ts with
    | true =>
      obtain ⟨o, ho, hgap⟩ := ih hrest.symm hnext
      refine ⟨o, ?_, hgap⟩
      rw [reach, List.append_assoc, ← ho, ← hs]
    | false =>
      refine ⟨_, hs, ?_⟩
      cases ts with
      | nil =>
        have hnil := sourceOf_tokenize (s.drop t.text.length)
        rw [← hrest] at hnil
        simp [Gap, ← hnil, Token.sourceOf]
      | cons u us => exact head_of_trivia hrest.symm (by simpa using hnext)

/-! ### Numbers with a point -/

namespace Fraction

theorem separates_gapped : ∀ p ∈ [full, trailing], separates anyText gapped p = true := by
  decide +kernel

/-- No number with a point reaches into trivia. -/
theorem endsBy_gap {p : Pattern} (hp : p ∈ [full, trailing]) (m : List Char) {o : List Char}
    (ho : Gap o) : p.EndsBy m o := by
  cases o with
  | nil => exact fun x hx _ => List.prefix_nil.mp hx
  | cons c o =>
    exact endsBy_of_separates (separates_gapped p hp) (matches_anyText m)
      (matches_gapped (ho c rfl) o)

theorem continuesPoint_of_gap : ∀ c ∈ gapHeads, continuesPoint c = false := by
  have hall : gapHeads.all (fun c => !continuesPoint c) = true := by decide +kernel
  simpa only [List.all_eq_true, Bool.not_eq_true'] using hall

theorem length_congr {m o v : List Char} (ho : Gap o) (hv : Gap v) :
    length (m ++ o) = length (m ++ v) := by
  have hfull := (endsBy_gap (p := full) (by simp) m ho).longest_congr (endsBy_gap (by simp) m hv)
  have htrail :=
    (endsBy_gap (p := trailing) (by simp) m ho).longest_congr (endsBy_gap (by simp) m hv)
  have hnext {n : Nat} {w : List Char} (hn : n ≤ m.length) (hw : Gap w) :
      ((m ++ w).drop n).head?.any continuesPoint = (m.drop n).head?.any continuesPoint := by
    rw [List.drop_append_of_le_length hn]
    cases m.drop n with
    | nil =>
      cases w with
      | nil => rfl
      | cons c w => simp [continuesPoint_of_gap c (hw c rfl)]
    | cons x m => rfl
  unfold length
  rw [← hfull, ← htrail]
  cases hn : trailing.longest (m ++ o) with
  | none => rfl
  | some n =>
    have hle := (endsBy_gap (p := trailing) (by simp) m ho).longest_le hn
    simp only [hnext hle ho, hnext hle hv]

end Fraction

end MacroBridge
