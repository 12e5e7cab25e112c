import MacroBridge.Proofs.Pattern

/-!
Patterns that keep apart: a text of one of them, followed by a text of another, is no longer
matched by a third. This is decided by following the patterns in pairs, with all characters that
two sets share at once.
-/
namespace MacroBridge

namespace CharSet

/-- The sets that a set is the union of. -/
def parts : CharSet → List CharSet
  | union a b => a.parts ++ b.parts
  | s => [s]

theorem contains_iff_parts {a : CharSet} {c : Char} :
    a.contains c = true ↔ ∃ s ∈ a.parts, s.contains c = true := by
  induction a with
  | union a b iha ihb =>
    simp only [contains_union_iff, iha, ihb, parts, List.mem_append, or_and_right, exists_or]
  | _ => simp [parts]

/-- Whether two sets that are no unions may share a character. Some that share none are held to
share one. -/
def mayMeet : CharSet → CharSet → Bool
  | exactly a, s => s.contains a
  | s, exactly a => s.contains a
  | range lo hi, range lo' hi' => lo ≤ hi' && lo' ≤ hi
  | _, _ => true

theorem mayMeet_of_contains {a b : CharSet} {c : Char} (ha : a.contains c = true)
    (hb : b.contains c = true) : a.mayMeet b = true := by
  unfold mayMeet
  split
  · rwa [contains_exactly_iff.mp ha] at hb
  · rwa [contains_exactly_iff.mp hb] at ha
  · simp only [contains, Bool.and_eq_true, decide_eq_true_eq] at ha hb ⊢
    exact ⟨Char.le_trans ha.1 hb.2, Char.le_trans hb.1 ha.2⟩
  · rfl

def meets (a b : CharSet) : Bool := a.parts.any fun s => b.parts.any s.mayMeet

theorem meets_of_contains {a b : CharSet} {c : Char} (ha : a.contains c = true)
    (hb : b.contains c = true) : a.meets b = true := by
  obtain ⟨s, hs, hsc⟩ := contains_iff_parts.mp ha
  obtain ⟨t, ht, htc⟩ := contains_iff_parts.mp hb
  exact List.any_eq_true.mpr ⟨s, hs, List.any_eq_true.mpr ⟨t, ht, mayMeet_of_contains hsc htc⟩⟩

end CharSet

namespace Pattern
variable {p q v : Pattern} {s t : List Char}

/-- What a pattern may begin with, and what is left of it then. -/
def heads : Pattern → List (CharSet × Pattern)
  | never => []
  | done => []
  | one set => [(set, done)]
  | seq p q =>
      let left := p.heads.map fun e => (e.1, andThen e.2 q)
      if p.nullable then left ++ q.heads else left
  | alt p q => p.heads ++ q.heads
  | star p => p.heads.map fun e => (e.1, andThen e.2 (star p))

theorem mem_derivatives_iff {c : Char} {r : Pattern} :
    r ∈ p.derivatives c ↔ ∃ set, (set, r) ∈ p.heads ∧ set.contains c = true := by
  have hmap {ps : List Pattern} {es : List (CharSet × Pattern)} {q r : Pattern}
      (h : ∀ {r}, r ∈ ps ↔ ∃ set, (set, r) ∈ es ∧ set.contains c = true) :
      r ∈ ps.map (andThen · q) ↔
        ∃ set, (set, r) ∈ es.map (fun e => (e.1, andThen e.2 q)) ∧ set.contains c = true := by
    simp only [List.mem_map, h, Prod.mk.injEq, Prod.exists]
    constructor
    · rintro ⟨r', ⟨set, hmem, hc⟩, rfl⟩
      exact ⟨set, ⟨set, r', hmem, rfl, rfl⟩, hc⟩
    · rintro ⟨_, ⟨set, r', hmem, rfl, rfl⟩, hc⟩
      exact ⟨r', ⟨set, hmem, hc⟩, rfl⟩
  induction p generalizing r with
  | never => simp [derivatives, heads]
  | done => simp [derivatives, heads]
  | one set =>
    by_cases h : set.contains c = true
    · simp [derivatives, heads, h]
    · simp [derivatives, heads, h]
  | seq p q hp hq =>
    rw [derivatives, heads]
    split_ifs with hn
    · simp only [mem_join, hmap hp, hq, List.mem_append, or_and_right, exists_or]
    · exact hmap hp
  | alt p q hp hq =>
    simp only [derivatives, heads, mem_join, hp, hq, List.mem_append, or_and_right, exists_or]
  | star p hp => exact hmap hp

theorem matches_cons_iff {c : Char} :
    Matches p (c :: s) ↔ ∃ set r, (set, r) ∈ p.heads ∧ set.contains c = true ∧ Matches r s := by
  simp only [← exists_derivative_iff, mem_derivatives_iff]
  constructor
  · rintro ⟨r, ⟨set, hmem, hc⟩, hr⟩
    exact ⟨set, r, hmem, hc, hr⟩
  · rintro ⟨set, r, hmem, hc, hr⟩
    exact ⟨r, ⟨set, hmem, hc⟩, hr⟩

/-- What a pair of patterns may leave of both behind one more character. -/
def stepBoth (pq : Pattern × Pattern) : List (Pattern × Pattern) :=
  pq.1.heads.flatMap fun e => (pq.2.heads.filter fun f => e.1.meets f.1).map fun f => (e.2, f.2)

theorem mem_stepBoth {c : Char} (hp : Matches p (c :: s)) (hq : Matches q (c :: t)) :
    ∃ p' q', (p', q') ∈ stepBoth (p, q) ∧ Matches p' s ∧ Matches q' t := by
  obtain ⟨set, p', hpmem, hpc, hp'⟩ := matches_cons_iff.mp hp
  obtain ⟨set', q', hqmem, hqc, hq'⟩ := matches_cons_iff.mp hq
  refine ⟨p', q', ?_, hp', hq'⟩
  simp only [stepBoth, List.mem_flatMap, List.mem_map, List.mem_filter]
  exact ⟨(set, p'), hpmem, (set', q'), ⟨hqmem, CharSet.meets_of_contains hpc hqc⟩, rfl⟩

/-- The pairs found from those of `todo` on in `fuel` rounds. -/
def pairsFrom : (fuel : Nat) → (todo found : List (Pattern × Pattern)) → List (Pattern × Pattern)
  | 0, _, found => found
  | fuel + 1, todo, found =>
      match ((todo.flatMap stepBoth).foldr List.insert []).filter fun pq => !found.contains pq with
      | [] => found
      | new => pairsFrom fuel new (new ++ found)

/-- Whether a list of pairs has all of `starts` and all that is left of its pairs behind one more
character. -/
def closesOver (starts pairs : List (Pattern × Pattern)) : Bool :=
  starts.all pairs.contains && pairs.all fun pq => (stepBoth pq).all pairs.contains

/-- Whether `q` matches no text of `p` together with one or more characters at the front of a text
of `v`. -/
def separates (p v q : Pattern) : Bool :=
  let shared := pairsFrom 100 [(p, q)] [(p, q)]
  let ends := (shared.filter fun pq => pq.1.nullable).map fun pq => (v, pq.2)
  let behind := pairsFrom 100 ends ends
  closesOver [(p, q)] shared &&
    closesOver ends behind &&
    behind.all fun vq => (stepBoth vq).all fun vq => !vq.2.nullable

theorem mem_of_closesOver {starts pairs : List (Pattern × Pattern)}
    (h : closesOver starts pairs = true) :
    (∀ pq ∈ starts, pq ∈ pairs) ∧ ∀ pq ∈ pairs, ∀ pq' ∈ stepBoth pq, pq' ∈ pairs := by
  simpa [closesOver] using h

/-- Behind a text of `p` a longer text of `q` is at a pair whose first pattern is complete. -/
theorem exists_complete_pair {pairs : List (Pattern × Pattern)}
    (hclosed : ∀ pq ∈ pairs, ∀ pq' ∈ stepBoth pq, pq' ∈ pairs) (hmem : (p, q) ∈ pairs)
    (hp : Matches p s) (hq : Matches q (s ++ t)) :
    ∃ p' q', (p', q') ∈ pairs ∧ p'.nullable = true ∧ Matches q' t := by
  induction s generalizing p q with
  | nil => exact ⟨p, q, hmem, nullable_iff.mpr hp, hq⟩
  | cons c s ih =>
    obtain ⟨p', q', hstep, hp', hq'⟩ := mem_stepBoth hp hq
    exact ih (hclosed _ hmem _ hstep) hp' hq'

/-- No text of the second pattern of a pair is the front of one of the first. -/
theorem eq_nil_of_pairs {pairs : List (Pattern × Pattern)}
    (hclosed : ∀ pq ∈ pairs, ∀ pq' ∈ stepBoth pq, pq' ∈ pairs)
    (hnone : ∀ pq ∈ pairs, ∀ pq' ∈ stepBoth pq, pq'.2.nullable = false) (hmem : (v, q) ∈ pairs)
    (hv : Matches v (s ++ t)) (hq : Matches q s) : s = [] := by
  induction s generalizing v q with
  | nil => rfl
  | cons c s ih =>
    obtain ⟨v', q', hstep, hv', hq'⟩ := mem_stepBoth hv hq
    obtain rfl := ih (hclosed _ hmem _ hstep) hv' hq'
    have hno := hnone _ hmem _ hstep
    rw [nullable_iff.mpr hq'] at hno
    simp at hno

theorem eq_nil_of_separates (h : separates p v q = true) {x : List Char} (hp : Matches p s)
    (hv : Matches v (x ++ t)) (hq : Matches q (s ++ x)) : x = [] := by
  simp only [separates, Bool.and_eq_true] at h
  obtain ⟨⟨hover, hbehind⟩, hnone⟩ := h
  obtain ⟨hstart, hclosed⟩ := mem_of_closesOver hover
  obtain ⟨hends, hclosed'⟩ := mem_of_closesOver hbehind
  obtain ⟨p', q', hmem, hnull, hq'⟩ := exists_complete_pair hclosed (hstart _ (by simp)) hp hq
  refine eq_nil_of_pairs hclosed' (by simpa using hnone) (hends (v, q') ?_) hv hq'
  exact List.mem_map.mpr ⟨(p', q'), List.mem_filter.mpr ⟨hmem, hnull⟩, rfl⟩

/-- Whether two patterns have no text in common. Some that have none are held to have one. -/
def disjoint (p q : Pattern) : Bool :=
  let shared := pairsFrom 100 [(p, q)] [(p, q)]
  closesOver [(p, q)] shared && shared.all fun pq => !(pq.1.nullable && pq.2.nullable)

theorem not_matches_of_disjoint (h : disjoint p q = true) (hp : Matches p s) : ¬ Matches q s := by
  intro hq
  simp only [disjoint, Bool.and_eq_true] at h
  obtain ⟨hover, hnone⟩ := h
  obtain ⟨hstart, hclosed⟩ := mem_of_closesOver hover
  obtain ⟨p', q', hmem, hnull, hq'⟩ :=
    exists_complete_pair (t := []) hclosed (hstart _ List.mem_cons_self) hp
      (by rwa [List.append_nil])
  have hboth := List.all_eq_true.mp hnone _ hmem
  rw [hnull, nullable_iff.mpr hq'] at hboth
  simp at hboth

end Pattern

end MacroBridge
