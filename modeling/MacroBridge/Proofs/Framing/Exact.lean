import MacroBridge.Proofs.Framing.Cuts

/-!
The scan of a buffer that begins with white space and a value. However the buffer grows between the
calls, the first call that stops is the first one with all of the value, and it stops at the end of
the value.
-/
namespace MacroBridge
open Json (byte Blank StringTail)

namespace Boundary
variable {b : Boundary} {front s t seen : List UInt8} {earlier : List (List UInt8)}

/-- The answers to calls with successive buffers, each with the state behind the call. -/
def answers (b : Boundary) : List (List UInt8) → List (Boundary × Bool)
  | [] => []
  | s :: buffers => b.advance s :: (b.advance s).1.answers buffers

/-- The state behind calls with successive buffers. -/
def called (b : Boundary) (buffers : List (List UInt8)) : Boundary :=
  buffers.foldl (fun b s => (b.advance s).1) b

/-- A call goes on where the bytes end that have been seen. -/
theorem advance_after (seen s : List UInt8) :
    (({} : Boundary).after seen).advance (seen ++ s) = (({} : Boundary).after seen).scan s := by
  rw [advance, scanned_after]
  simp

/-- White space and a value, in which the scan first stops at the last byte. -/
theorem stopped_closed {p w : List UInt8} (hp : Blank p) (hw : Closed w) : Stopped (p ++ w) := by
  obtain ⟨w', x, rfl, hscan⟩ := scan_value hw.isValue hw.opens
  have hblank := passes_blank hp Reader.outside_empty
  obtain ⟨hq, hx⟩ := hscan _ (Reader.outside_empty.past p.length) rfl
  refine ⟨p ++ w', x, (List.append_assoc p w' [x]).symm, ?_, ?_⟩
  · rw [quiet_append, hblank.after_eq]
    exact ⟨hblank.quiet, hq⟩
  · rw [after_append, hblank.after_eq]
    exact hx

/-! ### One call -/

theorem advance_short (hs : Stopped front) (hseen : seen <+: s) (hof : s <+: front ++ t)
    (hlt : s.length < front.length) :
    (({} : Boundary).after seen).advance s = (({} : Boundary).after s, false) := by
  obtain ⟨w, x, rfl, hq, -⟩ := hs
  have hw : w <+: w ++ [x] ++ t := ⟨[x] ++ t, (List.append_assoc w [x] t).symm⟩
  obtain ⟨u, rfl⟩ : s <+: w :=
    List.prefix_of_prefix_length_le hof hw (by simpa using Nat.lt_succ_iff.mp (by simpa using hlt))
  obtain ⟨v, rfl⟩ := hseen
  have hquiet := (quiet_append.mp (quiet_append.mp hq).1).2
  rw [advance_after, scan_quiet hquiet, after_append]

theorem advance_whole (hs : Stopped front) (hseen : seen <+: s) (hlt : seen.length < front.length)
    (hof : s <+: front ++ t) (hle : front.length ≤ s.length) :
    (({} : Boundary).after seen).advance s = (({} : Boundary).after front, true) := by
  obtain ⟨v, rfl⟩ : front <+: s :=
    List.prefix_of_prefix_length_le (List.prefix_append front t) hof hle
  obtain ⟨w, x, rfl, hq, hx⟩ := hs
  have hw : w <+: w ++ [x] ++ v := ⟨[x] ++ v, (List.append_assoc w [x] v).symm⟩
  obtain ⟨u, rfl⟩ : seen <+: w :=
    List.prefix_of_prefix_length_le hseen hw
      (by simpa using Nat.lt_succ_iff.mp (by simpa using hlt))
  rw [after_append] at hx
  rw [List.append_assoc, List.append_assoc, List.singleton_append, advance_after,
    scan_stop (quiet_append.mp hq).2 hx, ← after_append, List.append_assoc]

/-! ### Successive calls -/

/-- Calls with growing buffers leave the state of a scan from the start that has not reached the
end of `front`, or one of them had all of `front` and stopped. -/
theorem called_cases (hs : Stopped front) (hof : s <+: front ++ t)
    (hlt : seen.length < front.length) (hgrow : (seen :: (earlier ++ [s])).Pairwise (· <+: ·)) :
    (∃ seen', seen' <+: s ∧ seen'.length < front.length ∧
      (({} : Boundary).after seen).called earlier = ({} : Boundary).after seen') ∨
    ((∃ e ∈ earlier, front.length ≤ e.length) ∧
      ∃ a ∈ (({} : Boundary).after seen).answers earlier, a.2 = true) := by
  -- A call that does not stop has seen all of its buffer, so what has been seen changes along the
  -- induction.
  induction earlier generalizing seen with
  | nil => exact .inl ⟨seen, by simpa using hgrow, hlt, rfl⟩
  | cons e earlier ih =>
    obtain ⟨hseen, hrest⟩ := List.pairwise_cons.mp hgrow
    have he : e <+: s := (List.pairwise_cons.mp hrest).1 s (by simp)
    have hseen : seen <+: e := hseen e (by simp)
    by_cases hshort : e.length < front.length
    · have hadvance := advance_short hs hseen (he.trans hof) hshort
      rcases ih hshort hrest with ⟨seen', hseen', hlt', hcalled⟩ | ⟨⟨f, hf, hle⟩, a, ha, htrue⟩
      · refine .inl ⟨seen', hseen', hlt', ?_⟩
        rw [← hcalled, called, List.foldl_cons, hadvance]
        rfl
      · refine .inr ⟨⟨f, List.mem_cons_of_mem e hf, hle⟩, a, ?_, htrue⟩
        rw [answers, hadvance]
        exact List.mem_cons_of_mem _ ha
    · have hle : front.length ≤ e.length := Nat.le_of_not_lt hshort
      have hadvance := advance_whole hs hseen hlt (he.trans hof) hle
      refine .inr ⟨⟨e, by simp, hle⟩, (({} : Boundary).after front, true), ?_, rfl⟩
      rw [answers, hadvance]
      exact List.mem_cons_self

end Boundary

/-- Scanning white space, a value and anything behind it: a call is answered with no as long as a
part of the value is missing, and the first call that is answered with yes has scanned the white
space and the value and nothing else. -/
theorem boundary_exact {p w t s : List UInt8} (hp : Blank p) (hw : Closed w)
    {earlier : List (List UInt8)} (hgrow : (earlier ++ [s]).Pairwise (· <+: ·))
    (hof : s <+: p ++ w ++ t) : (s.length < p.length + w.length →
      ((({} : Boundary).called earlier).advance s).2 = false ∧
      ((({} : Boundary).called earlier).advance s).1.scanned = s.length) ∧
    ((∀ a ∈ ({} : Boundary).answers earlier, a.2 = false) → p.length + w.length ≤ s.length →
      ((({} : Boundary).called earlier).advance s).2 = true) ∧
    ((∀ a ∈ ({} : Boundary).answers earlier, a.2 = false) →
      (((({} : Boundary).called earlier).advance s).2 = true ↔
        ((({} : Boundary).called earlier).advance s).1.scanned = p.length + w.length)) := by
  have hs : Boundary.Stopped (p ++ w) := Boundary.stopped_closed hp hw
  have hne : w ≠ [] := by
    obtain ⟨x, u, hx, -⟩ := Decodes.eq_cons_of_opens hw.opens
    simp [hx]
  have hlt : ([] : List UInt8).length < (p ++ w).length := by
    simpa using .inr (List.length_pos_iff.mpr hne)
  have hgrow' : ([] :: (earlier ++ [s])).Pairwise (· <+: ·) :=
    List.pairwise_cons.mpr ⟨fun _ _ => List.nil_prefix, hgrow⟩
  have hearlier : ∀ e ∈ earlier, e.length ≤ s.length := fun e he =>
    ((List.pairwise_append.mp hgrow).2.2 e he s (by simp)).length_le
  rw [← List.length_append]
  rcases Boundary.called_cases hs hof hlt hgrow' with
    ⟨seen, hseen, hshort, hcalled⟩ | ⟨⟨e, he, hle⟩, a, ha, htrue⟩
  · rw [Boundary.after_nil] at hcalled
    rw [hcalled]
    by_cases hmore : s.length < (p ++ w).length
    · rw [Boundary.advance_short hs hseen hof hmore, Boundary.scanned_after]
      refine ⟨fun _ => ⟨rfl, Nat.zero_add _⟩,
        fun _ hle => absurd hle (Nat.not_le_of_gt hmore), fun _ => ?_⟩
      exact iff_of_false Bool.false_ne_true (by simpa using Nat.ne_of_lt hmore)
    · have hle : (p ++ w).length ≤ s.length := Nat.le_of_not_lt hmore
      rw [Boundary.advance_whole hs hseen hshort hof hle, Boundary.scanned_after]
      exact ⟨fun h => absurd h hmore, fun _ _ => rfl, fun _ => iff_of_true rfl (Nat.zero_add _)⟩
  · have hmore : ¬ s.length < (p ++ w).length := Nat.not_lt_of_le (hle.trans (hearlier e he))
    have hyes : ¬ ∀ a ∈ ({} : Boundary).answers earlier, a.2 = false := fun hno => by
      simp [hno a ha] at htrue
    exact ⟨fun h => absurd h hmore, fun hno => absurd hno hyes, fun hno => absurd hno hyes⟩

/-- A quote and a bracket in a string in an array, with more behind. -/
def quotedBracket : List UInt8 := " [\"\\\"]\"] 1".toList.map byte

/-- The cut is between the backslash and the quote. -/
theorem boundary_exact_quotedBracket :
    (∀ a ∈ ({} : Boundary).answers [quotedBracket.take 4], a.2 = false) ∧
    ((({} : Boundary).called [quotedBracket.take 4]).advance quotedBracket).2 = true ∧
    ((({} : Boundary).called [quotedBracket.take 4]).advance quotedBracket).1.scanned = 8 := by
  have hstring : StringTail [byte '\\', byte '"', byte ']', byte '"'] :=
    .escape (by decide) (.plain (by decide) (by decide) (by decide) .close)
  have hw : Closed ("[\"\\\"]\"]".toList.map byte) :=
    ⟨.filled (c := .array) Json.blank_nil (.element (.string hstring))
      (.done Json.blank_nil), by decide⟩
  have hp : Blank [byte ' '] := Json.blank_singleton.mpr (by decide)
  have hgrow : ([quotedBracket.take 4] ++ [quotedBracket]).Pairwise (· <+: ·) := by decide
  have hof : quotedBracket <+: [byte ' '] ++ "[\"\\\"]\"]".toList.map byte ++
      " 1".toList.map byte := by decide
  have hno : ∀ a ∈ ({} : Boundary).answers [quotedBracket.take 4], a.2 = false := by decide
  obtain ⟨-, hyes, hend⟩ := boundary_exact hp hw hgrow hof
  have htrue := hyes hno (by decide)
  exact ⟨hno, htrue, (hend hno).mp htrue⟩

end MacroBridge
