import Mathlib.Tactic.SplitIfs
import MacroBridge.Text.Alphanumeric

/-!
The characters that start a name against the alphanumeric ones. The two have tables of their own:
all ranges of the first lie within ranges of the second, once two signs are taken out of them.
-/
namespace MacroBridge

/-- Ranges with one number taken out. A range around it becomes two, which may be empty. -/
def without (n : Nat) (ranges : List (Nat × Nat)) : List (Nat × Nat) :=
  ranges.flatMap fun r => if r.1 ≤ n && n ≤ r.2 then [(r.1, n - 1), (n + 1, r.2)] else [r]

/-- Whether each of the inner ranges is empty or lies within one of the outer ranges, both in
ascending order. -/
def covers (outer : List (Nat × Nat)) : List (Nat × Nat) → Bool
  | [] => true
  | r :: inner =>
    -- A range that ends before this one is not met again.
    match outer.dropWhile fun q => q.2 < r.1 with
    | [] => false
    | q :: outer => (r.2 < r.1 || q.1 ≤ r.1 && r.2 ≤ q.2) && covers (q :: outer) inner

variable {n m : Nat} {ranges outer inner : List (Nat × Nat)} {c : Char}

theorem inRanges_iff : inRanges ranges n = true ↔ ∃ r ∈ ranges, r.1 ≤ n ∧ n ≤ r.2 := by
  simp [inRanges]

theorem inRanges_without (h : inRanges ranges n = true) (hne : n ≠ m) :
    inRanges (without m ranges) n = true := by
  obtain ⟨r, hr, hlow, hhigh⟩ := inRanges_iff.mp h
  have hmem {q : Nat × Nat}
      (hq : q ∈ if r.1 ≤ m && m ≤ r.2 then [(r.1, m - 1), (m + 1, r.2)] else [r]) :
        q ∈ without m ranges :=
    List.mem_flatMap.mpr ⟨r, hr, hq⟩
  rw [inRanges_iff]
  by_cases haround : r.1 ≤ m ∧ m ≤ r.2
  · simp only [haround, decide_true, Bool.and_self, if_true] at hmem
    rcases Nat.lt_or_gt_of_ne hne with hlt | hgt
    · exact ⟨(r.1, m - 1), hmem (by simp), hlow, by dsimp only; omega⟩
    · exact ⟨(m + 1, r.2), hmem (by simp), hgt, hhigh⟩
  · have hapart : (decide (r.1 ≤ m) && decide (m ≤ r.2)) = false := by
      simpa using haround
    simp only [hapart] at hmem
    exact ⟨r, hmem (by simp), hlow, hhigh⟩

theorem inRanges_of_covers (hcovers : covers outer inner = true) (h : inRanges inner n = true) :
    inRanges outer n = true := by
  rw [inRanges_iff] at h
  obtain ⟨r, hr, hlow, hhigh⟩ := h
  induction inner generalizing outer with
  | nil => simp at hr
  | cons s inner ih =>
    rw [covers] at hcovers
    split at hcovers
    · simp at hcovers
    · rename_i q left hdrop
      have hsub {p : Nat × Nat} (hp : p ∈ q :: left) : p ∈ outer :=
        (List.dropWhile_suffix _).subset (hdrop ▸ hp)
      rw [Bool.and_eq_true] at hcovers
      rcases List.mem_cons.mp hr with rfl | hr
      · simp only [Bool.or_eq_true, Bool.and_eq_true, decide_eq_true_eq] at hcovers
        exact inRanges_iff.mpr ⟨q, hsub List.mem_cons_self, by omega, by omega⟩
      · obtain ⟨p, hp, hwithin⟩ := inRanges_iff.mp (ih hcovers.2 hr)
        exact inRanges_iff.mpr ⟨p, hsub hp, hwithin⟩

theorem alphanumericRanges_covers :
    covers alphanumericRanges (without 0x2118 (without 0x212E nameStartRanges)) = true := by
  decide +kernel

/-- Two of the characters that start a name are not alphanumeric. -/
theorem isAlphanumeric_iff_of_isNameStart (h : isNameStart c = true) :
    isAlphanumeric c = true ↔ c ≠ '℘' ∧ c ≠ '℮' := by
  constructor
  · rintro halpha
    constructor
    all_goals
      rintro rfl
      revert halpha
      decide +kernel
  · rintro ⟨hscript, hestimated⟩
    unfold isAlphanumeric
    unfold isNameStart at h
    split_ifs at h ⊢ with hascii
    · rw [h, Bool.true_or]
    · have hscript : c.toNat ≠ 0x2118 := fun he => hscript (Char.toNat_inj.mp he)
      have hestimated : c.toNat ≠ 0x212E := fun he => hestimated (Char.toNat_inj.mp he)
      exact inRanges_of_covers alphanumericRanges_covers
        (inRanges_without (inRanges_without h hestimated) hscript)

end MacroBridge
