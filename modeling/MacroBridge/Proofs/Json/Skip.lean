import MacroBridge.Proofs.Json.Scan

/-!
Values of no interest are passed over by a loop that keeps the closing bytes of the open
containers. What it takes is a value of the grammar and what closes these containers.
-/
namespace MacroBridge.Json

/-- The closing bytes of containers. -/
def frames (cs : List Container) : List UInt8 := cs.map fun c => byte c.last

/-- What is left of open containers, the innermost first. -/
def Closes : List Container → List UInt8 → Prop
  | [], u => u = []
  | c :: cs, u => ∃ v w, Spells (.tail c) v ∧ Closes cs w ∧ u = v ++ w

/-- What a pass goes over from where it stands until all containers are closed. -/
def Passes : SkipMode → List Container → List UInt8 → Prop
  | .after, cs, u => Closes cs u
  | .value, cs, u => ∃ p w v, Blank p ∧ IsValue w ∧ Closes cs v ∧ u = p ++ (w ++ v)
  | .key, cs, u => ∃ p w v, Blank p ∧ Spells (.entry .object) w ∧ Closes cs v ∧ u = p ++ (w ++ v)

/-- How a pass goes on with the first entry of a container. -/
def Container.skipMode : Container → SkipMode
  | array => .value
  | object => .key

theorem skipMode_last (c : Container) :
    (if byte c.last = byte '\x7d' then SkipMode.key else .value) = c.skipMode := by
  cases c <;> rfl

theorem last_of_first (c : Container) :
    (if byte c.first = byte '[' then byte ']' else byte '\x7d') = byte c.last := by
  cases c <;> rfl

theorem skipMode_first (c : Container) :
    (if byte c.first = byte '[' then SkipMode.value else .key) = c.skipMode := by
  cases c <;> rfl

/-- The two bytes that open a container. -/
theorem opens_iff {b : UInt8} :
    (b = byte '[' ∨ b = byte '\x7b') ↔ ∃ c : Container, b = byte c.first := by
  constructor
  · rintro (rfl | rfl)
    · exact ⟨.array, rfl⟩
    · exact ⟨.object, rfl⟩
  · rintro ⟨c, rfl⟩
    cases c <;> simp [Container.first]

theorem passes_entry {c : Container} {cs : List Container} {u : List UInt8}
    (h : Passes c.skipMode cs u) :
    ∃ p w v, Blank p ∧ Spells (.entry c) w ∧ Closes cs v ∧ u = p ++ (w ++ v) := by
  cases c with
  | array =>
    obtain ⟨p, w, v, hp, hw, hv, hu⟩ := h
    exact ⟨p, w, v, hp, .element hw, hv, hu⟩
  | object => exact h

/-! ### One step of the loop -/

/-- After an entry comes another one, or the end of the container. -/
theorem skip_after_iff {items : Nat} {c : Container} {fs s r : List UInt8} :
    skip (items + 1) .after (byte c.last :: fs) s = .ok r ↔ ∃ p s', Blank p ∧
      (s = p ++ byte ',' :: s' ∧ skip items c.skipMode (byte c.last :: fs) s' = .ok r ∨
        s = p ++ byte c.last :: s' ∧ skip items .after fs s' = .ok r) := by
  have hl : byte c.last ≠ byte ',' := by cases c <;> decide
  constructor
  · intro h
    rw [skip] at h
    cases hs : skipSpace s with
    | nil => simp [hs] at h
    | cons b s' =>
      obtain ⟨p, hp, -, rfl⟩ := skipSpace_eq_cons_iff.mp hs
      simp only [hs, skipMode_last] at h
      split_ifs at h with hb hl
      · exact ⟨p, s', hp, .inl ⟨by rw [hb], h⟩⟩
      · exact ⟨p, s', hp, .inr ⟨by rw [hl], h⟩⟩
  · rintro ⟨p, s', hp, ⟨rfl, h⟩ | ⟨rfl, h⟩⟩
    · rw [skip, skipSpace_blank_cons hp (by decide)]
      simp [skipMode_last, h]
    · rw [skip, skipSpace_blank_cons hp c.isSpace_last]
      simp [hl, h]

theorem skip_key_iff {items : Nat} {fs s r : List UInt8} :
    skip (items + 1) .key fs s = .ok r ↔ ∃ p k q s', Blank p ∧ StringTail k ∧ Blank q ∧
      s = p ++ byte '"' :: (k ++ (q ++ byte ':' :: s')) ∧ skip items .value fs s' = .ok r := by
  constructor
  · intro h
    rw [skip] at h
    cases hs : skipSpace s with
    | nil => simp [hs] at h
    | cons b s' =>
      obtain ⟨p, hp, -, rfl⟩ := skipSpace_eq_cons_iff.mp hs
      simp only [hs] at h
      split_ifs at h with hb
      cases hk : skipString s' with
      | error e => simp [hk] at h
      | ok k =>
        obtain ⟨k', hk', rfl⟩ := skipString_spells hk
        simp only [hk] at h
        cases hc : skipSpace k with
        | nil => simp [hc] at h
        | cons x s'' =>
          obtain ⟨q, hq, -, rfl⟩ := skipSpace_eq_cons_iff.mp hc
          simp only [hc] at h
          split_ifs at h with hx
          exact ⟨p, k', q, s'', hp, hk', hq, by rw [hb, hx], h⟩
  · rintro ⟨p, k, q, s', hp, hk, hq, rfl, h⟩
    rw [skip, skipSpace_blank_cons hp (by decide)]
    simp [skipString_append hk,
      skipSpace_blank_cons hq (show isSpace (byte ':') = false by decide), h]

/-- A value is an empty container, a container with a first entry, a string or a scalar. -/
theorem skip_value_iff {items : Nat} {fs s r : List UInt8} :
    skip (items + 1) .value fs s = .ok r ↔ ∃ p, Blank p ∧
      ((∃ c : Container, ∃ q s', Blank q ∧ s = p ++ byte c.first :: (q ++ byte c.last :: s') ∧
          skip items .after fs s' = .ok r) ∨
        (∃ c : Container, ∃ q b s', Blank q ∧ isSpace b = false ∧ b ≠ byte c.last ∧
          s = p ++ byte c.first :: (q ++ b :: s') ∧
          skip items c.skipMode (byte c.last :: fs) (b :: s') = .ok r) ∨
        (∃ k s', StringTail k ∧ s = p ++ byte '"' :: (k ++ s') ∧ skip items .after fs s' = .ok r) ∨
        (∃ b s' s'', isSpace b = false ∧ ¬(b = byte '[' ∨ b = byte '\x7b') ∧ b ≠ byte '"' ∧
          s = p ++ b :: s' ∧ skipScalar b (b :: s') = .ok s'' ∧
          skip items .after fs s'' = .ok r)) := by
  constructor
  · intro h
    rw [skip] at h
    cases hs : skipSpace s with
    | nil => simp [hs] at h
    | cons b s' =>
      obtain ⟨p, hp, hb, rfl⟩ := skipSpace_eq_cons_iff.mp hs
      refine ⟨p, hp, ?_⟩
      simp only [hs, Bool.or_eq_true, decide_eq_true_eq] at h
      by_cases ho : b = byte '[' ∨ b = byte '\x7b'
      · obtain ⟨c, rfl⟩ := opens_iff.mp ho
        rw [if_pos ho, last_of_first, skipMode_first] at h
        cases hc : skipSpace s' with
        | nil => simp [hc] at h
        | cons x s'' =>
          obtain ⟨q, hq, hx, rfl⟩ := skipSpace_eq_cons_iff.mp hc
          simp only [hc] at h
          split_ifs at h with hl
          · exact .inl ⟨c, q, s'', hq, by rw [hl], h⟩
          · exact .inr (.inl ⟨c, q, x, s'', hq, hx, hl, rfl, h⟩)
      · rw [if_neg ho] at h
        by_cases hq : b = byte '"'
        · cases hk : skipString s' with
          | error e => simp [hq, hk] at h
          | ok k =>
            obtain ⟨k', hk', rfl⟩ := skipString_spells hk
            exact .inr (.inr (.inl ⟨k', k, hk', by rw [hq], by simpa [hq, hk] using h⟩))
        · cases hw : skipScalar b (b :: s') with
          | error e => simp [hq, hw] at h
          | ok k =>
            exact .inr (.inr (.inr ⟨b, s', k, hb, ho, hq, rfl, hw, by simpa [hq, hw] using h⟩))
  · rintro ⟨p, hp, ⟨c, q, s', hq, rfl, h⟩ | ⟨c, q, b, s', hq, hb, hl, rfl, h⟩ | ⟨k,
      s', hk, rfl, h⟩ | ⟨b, s', s'', hb, ho, hq, rfl, hw, h⟩⟩
    · rw [skip, skipSpace_blank_cons hp c.isSpace_first]
      simp only [Bool.or_eq_true, decide_eq_true_eq]
      rw [if_pos (opens_iff.mpr ⟨c, rfl⟩), last_of_first, skipSpace_blank_cons hq c.isSpace_last]
      simpa using h
    · rw [skip, skipSpace_blank_cons hp c.isSpace_first]
      simp only [Bool.or_eq_true, decide_eq_true_eq]
      rw [if_pos (opens_iff.mpr ⟨c, rfl⟩), last_of_first, skipMode_first,
        skipSpace_blank_cons hq hb]
      simpa [hl] using h
    · rw [skip, skipSpace_blank_cons hp (by decide)]
      simp [skipString_append hk, h, show byte '"' ≠ byte '[' by decide,
        show byte '"' ≠ byte '\x7b' by decide]
    · rw [skip, skipSpace_blank_cons hp hb]
      simp only [Bool.or_eq_true, decide_eq_true_eq]
      rw [if_neg ho, if_neg hq]
      simp only [hw]
      exact h

/-! ### A whole pass -/

theorem skip_spells {items : Nat} {mode : SkipMode} {l : List Container} {s r : List UInt8}
    (h : skip items mode (frames l) s = .ok r) : ∃ u, Passes mode l u ∧ s = u ++ r := by
  induction items generalizing mode l s with
  | zero => simp [skip] at h
  | succ items ih =>
    cases mode with
    | after =>
      cases l with
      | nil =>
        simp only [frames, List.map_nil, skip, Except.ok.injEq] at h
        exact ⟨[], rfl, by simp [h]⟩
      | cons c l =>
        obtain ⟨p, s', hp, ⟨rfl, hs⟩ | ⟨rfl, hs⟩⟩ := skip_after_iff.mp h
        · obtain ⟨u, hu, rfl⟩ := ih (l := c :: l) hs
          obtain ⟨q, w, v, hq, hw, ⟨v, x, hv, hx, rfl⟩, rfl⟩ := passes_entry hu
          exact ⟨_, ⟨_, x, .more hp hq hw hv, hx, rfl⟩, by simp⟩
        · obtain ⟨u, hu, rfl⟩ := ih (l := l) hs
          exact ⟨_, ⟨_, u, .done hp, hu, rfl⟩, by simp⟩
    | key =>
      obtain ⟨p, k, q, s', hp, hk, hq, rfl, hs⟩ := skip_key_iff.mp h
      obtain ⟨u, ⟨p', w, v, hp', hw, hv, rfl⟩, rfl⟩ := ih hs
      exact ⟨_, ⟨p, _, v, hp, .member hk hq hp' hw, hv, rfl⟩, by simp⟩
    | value =>
      obtain ⟨p, hp, ⟨c, q, s', hq, rfl, hs⟩ | ⟨c, q, b, s', hq, -, -, rfl, hs⟩ | ⟨k, s',
          hk, rfl, hs⟩ |
        ⟨b, s', s'', -, -, -, rfl, hw, hs⟩⟩ := skip_value_iff.mp h
      · obtain ⟨u, hu, rfl⟩ := ih hs
        exact ⟨_, ⟨p, _, u, hp, .empty (c := c) hq, hu, rfl⟩, by simp⟩
      · obtain ⟨u, hu, hu'⟩ := ih (l := c :: l) hs
        obtain ⟨q', w, v, hq', hw, ⟨v, x, hv, hx, rfl⟩, rfl⟩ := passes_entry hu
        exact ⟨_, ⟨p, _, x, hp, .filled (hq.append hq') hw hv, hx, rfl⟩, by simp [hu']⟩
      · obtain ⟨u, hu, rfl⟩ := ih hs
        exact ⟨_, ⟨p, _, u, hp, .string hk, hu, rfl⟩, by simp⟩
      · obtain ⟨w, hw', hbw⟩ := skipScalar_spells hw
        obtain ⟨u, hu, rfl⟩ := ih hs
        exact ⟨_, ⟨p, w, u, hp, .scalar hw', hu, rfl⟩, by simp [hbw]⟩

/-- What follows is not looked at, and more items may be allowed. -/
theorem skip_append {items items' : Nat} {mode : SkipMode} {l : List Container} {s r : List UInt8}
    (h : skip items mode (frames l) s = .ok r) (hr : r ≠ []) (hi : items ≤ items')
    (t : List UInt8) : skip items' mode (frames l) (s ++ t) = .ok (r ++ t) := by
  induction items generalizing items' mode l s with
  | zero => simp [skip] at h
  | succ items ih =>
    obtain ⟨items', rfl⟩ : ∃ n, items' = n + 1 := ⟨items' - 1, by omega⟩
    have hi : items ≤ items' := by omega
    cases mode with
    | after =>
      cases l with
      | nil =>
        simp only [frames, List.map_nil, skip, Except.ok.injEq] at h ⊢
        rw [h]
      | cons c l =>
        obtain ⟨p, s', hp, ⟨rfl, hs⟩ | ⟨rfl, hs⟩⟩ := skip_after_iff.mp h
        · exact skip_after_iff.mpr ⟨p, _, hp, .inl ⟨by simp, ih (l := c :: l) hs hi⟩⟩
        · exact skip_after_iff.mpr ⟨p, _, hp, .inr ⟨by simp, ih (l := l) hs hi⟩⟩
    | key =>
      obtain ⟨p, k, q, s', hp, hk, hq, rfl, hs⟩ := skip_key_iff.mp h
      exact skip_key_iff.mpr ⟨p, k, q, _, hp, hk, hq, by simp, ih hs hi⟩
    | value =>
      rw [skip_value_iff]
      obtain ⟨p, hp, ⟨c, q, s', hq, rfl, hs⟩ | ⟨c, q, b, s', hq, hb, hl, rfl, hs⟩ | ⟨k, s',
          hk, rfl, hs⟩ |
        ⟨b, s', s'', hb, ho, hq, rfl, hw, hs⟩⟩ := skip_value_iff.mp h
      · exact ⟨p, hp, .inl ⟨c, q, _, hq, by simp, ih hs hi⟩⟩
      · exact ⟨p, hp, .inr (.inl ⟨c, q, b, _, hq, hb, hl, by simp, ih (l := c :: l) hs hi⟩)⟩
      · exact ⟨p, hp, .inr (.inr (.inl ⟨k, _, hk, by simp, ih hs hi⟩))⟩
      · -- the loop goes on from a rest that is not empty either
        have hne : s'' ≠ [] := by
          rintro rfl
          obtain ⟨u, -, hu⟩ := skip_spells hs
          exact hr (List.append_eq_nil_iff.mp hu.symm).2
        exact ⟨p, hp, .inr (.inr (.inr ⟨b, _, _, hb, ho, hq, by simp, skipScalar_append hw hne t,
          ih hs hi⟩))⟩

end MacroBridge.Json
