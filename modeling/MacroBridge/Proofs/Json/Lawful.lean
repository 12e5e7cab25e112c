import MacroBridge.Proofs.Json.Skip

/-!
Decoders that keep to the grammar. What such a decoder takes is white space and one value, and it
takes the same from any longer input, under any wider limits, once the end of the value is to be
seen.
-/
namespace MacroBridge.Json

/-- Limits that allow all that others do. -/
def Limits.Le (l l' : Limits) : Prop := l.nesting ≤ l'.nesting ∧ l.items ≤ l'.items

/-- Whether `r` behind a value at the front of `s` leaves no doubt that the value has ended:
something stands there, or the value has a last byte of its own. -/
def EndSeen (s r : List UInt8) : Prop := r ≠ [] ∨ (skipSpace s).head?.any showsItsEnd = true

structure Decoder.Lawful {α : Type} (d : Decoder α) : Prop where
  spells {limits : Limits} {s r : List UInt8} {a : α} (h : d limits s = .ok (a, r)) :
    ∃ p w, Blank p ∧ IsValue w ∧ s = p ++ (w ++ r)
  append {limits limits' : Limits} {s r : List UInt8} {a : α} (h : d limits s = .ok (a, r))
    (hl : limits.Le limits') (he : EndSeen s r) (t : List UInt8) :
    d limits' (s ++ t) = .ok (a, r ++ t)

namespace Decoder
variable {α β σ : Type}

/-! ### Results of single steps -/

theorem map_eq_ok_iff {f : α → β} {d : Decoder α} {limits : Limits} {s r : List UInt8} {b : β} :
    d.map f limits s = .ok (b, r) ↔ ∃ a, d limits s = .ok (a, r) ∧ f a = b := by
  simp only [Decoder.map, bind_eq_ok, Prod.exists, pure, Except.pure, Except.ok.injEq,
    Prod.mk.injEq]
  constructor
  · rintro ⟨a, s', h, rfl, rfl⟩
    exact ⟨a, h, rfl⟩
  · rintro ⟨a, h, rfl⟩
    exact ⟨a, r, h, rfl, rfl⟩

theorem refine_eq_ok_iff {f : α → Option β} {d : Decoder α} {limits : Limits} {s r : List UInt8}
    {b : β} : d.refine f limits s = .ok (b, r) ↔ ∃ a, d limits s = .ok (a, r) ∧ f a = some b := by
  simp only [refine, bind_eq_ok, Prod.exists]
  constructor
  · rintro ⟨a, s', h, hf⟩
    cases hb : f a with
    | none => simp [hb, throw, throwThe, MonadExceptOf.throw] at hf
    | some b' =>
      simp only [hb, pure, Except.pure, Except.ok.injEq, Prod.mk.injEq] at hf
      exact ⟨a, by rw [h, hf.2], by rw [hb, hf.1]⟩
  · rintro ⟨a, h, hf⟩
    exact ⟨a, r, h, by simp [hf, pure, Except.pure]⟩

theorem close_eq_ok_iff {c : Char} {s r : List UInt8} {u : Unit} :
    close c s = .ok (u, r) ↔ skipSpace s = byte c :: r := by
  unfold close
  cases hs : skipSpace s with
  | nil => simp
  | cons b s' =>
    by_cases hb : b = byte c
    · simp [hb]
    · simp [hb]

theorem container_eq_ok_iff {first last : Char} {body : Decoder α} {limits : Limits}
    {s r : List UInt8} {a : α} :
    container first last body limits s = .ok (a, r) ↔ ∃ n s' s'', limits.nesting = n + 1 ∧
      skipSpace s = byte first :: s' ∧ body ⟨n, limits.items⟩ s' = .ok (a, s'') ∧
      skipSpace s'' = byte last :: r := by
  unfold container
  cases hs : skipSpace s with
  | nil => simp
  | cons b s' =>
    by_cases hb : b = byte first
    · cases hn : limits.nesting with
      | zero => simp [hb]
      | succ n =>
        simp only [hb, ↓reduceIte, bind_eq_ok, Prod.exists, close_eq_ok_iff, pure, Except.pure,
          Except.ok.injEq, Prod.mk.injEq, List.cons.injEq, true_and, Nat.add_right_cancel_iff]
        constructor
        · rintro ⟨a, s'', h, u, r, hc, rfl, rfl⟩
          exact ⟨n, s', s'', rfl, rfl, h, hc⟩
        · rintro ⟨n, s', s'', rfl, rfl, h, hc⟩
          exact ⟨a, s'', h, (), r, hc, rfl, rfl⟩
    · simp [hb]

/-! ### Simple decoders -/

theorem Lawful.map {d : Decoder α} (h : d.Lawful) (f : α → β) : (d.map f).Lawful where
  spells h' := by
    obtain ⟨a, ha, -⟩ := map_eq_ok_iff.mp h'
    exact h.spells ha
  append h' hl he t := by
    obtain ⟨a, ha, hf⟩ := map_eq_ok_iff.mp h'
    exact map_eq_ok_iff.mpr ⟨a, h.append ha hl he t, hf⟩

theorem Lawful.refine {d : Decoder α} (h : d.Lawful) (f : α → Option β) : (d.refine f).Lawful where
  spells h' := by
    obtain ⟨a, ha, -⟩ := refine_eq_ok_iff.mp h'
    exact h.spells ha
  append h' hl he t := by
    obtain ⟨a, ha, hf⟩ := refine_eq_ok_iff.mp h'
    exact refine_eq_ok_iff.mpr ⟨a, h.append ha hl he t, hf⟩

theorem lawful_never : (never : Decoder α).Lawful where
  spells h := by simp [never] at h
  append h := by simp [never] at h

theorem natural_eq_ok_iff {bound n : Nat} {limits : Limits} {s r : List UInt8} :
    natural bound limits s = .ok (n, r) ↔ ∃ b s', skipSpace s = b :: s' ∧
      (b = byte '-' ∨ isDigit b = true) ∧ number (b :: s') = .ok (.natural n, r) ∧ n ≤ bound := by
  unfold natural
  cases hs : skipSpace s with
  | nil => simp
  | cons b s' =>
    by_cases hb : b = byte '-' ∨ isDigit b = true
    · cases hn : number (b :: s') with
      | error e => simp [hb, hn]
      | ok p =>
        obtain ⟨m, r'⟩ := p
        cases m with
        | natural m =>
          simp only [decide_eq_true_eq, Bool.or_eq_true, hb, ↓reduceIte, hn]
          split_ifs with hm
          · simp only [Except.ok.injEq, Prod.mk.injEq, List.cons.injEq]
            constructor
            · rintro ⟨rfl, rfl⟩
              exact ⟨b, s', ⟨rfl, rfl⟩, hb, hn, hm⟩
            · rintro ⟨b, s', ⟨rfl, rfl⟩, -, h, -⟩
              simpa [hn] using h
          · simp only [List.cons.injEq, false_iff]
            rintro ⟨b, s', ⟨rfl, rfl⟩, -, h, hle⟩
            simp only [hn, Except.ok.injEq, Prod.mk.injEq, Number.natural.injEq] at h
            exact hm (h.1 ▸ hle)
        | other =>
          simp only [decide_eq_true_eq, Bool.or_eq_true, hb, ↓reduceIte, hn,
            List.cons.injEq, reduceCtorEq, false_iff]
          rintro ⟨b, s', ⟨rfl, rfl⟩, -, h, -⟩
          simp [hn] at h
    · simp only [decide_eq_true_eq, Bool.or_eq_true, hb, ↓reduceIte, reduceCtorEq, List.cons.injEq,
        false_iff]
      rintro ⟨b, s', ⟨rfl, rfl⟩, hb', -⟩
      exact hb hb'

theorem lawful_natural (bound : Nat) : (natural bound).Lawful where
  spells h := by
    obtain ⟨b, s', hs, -, hn, -⟩ := natural_eq_ok_iff.mp h
    obtain ⟨p, hp, -, rfl⟩ := skipSpace_eq_cons_iff.mp hs
    obtain ⟨w, hw, hb⟩ := number_spells hn
    exact ⟨p, w, hp, .scalar hw, by rw [hb]⟩
  append {_ _ s r _} h _ he t := by
    obtain ⟨b, s', hs, hb, hn, hle⟩ := natural_eq_ok_iff.mp h
    -- no number begins with a byte that shows its end
    have hr : r ≠ [] := by
      rcases he with hr | hb'
      · exact hr
      · simp only [hs, List.head?_cons, Option.any_some, showsItsEnd, Bool.or_eq_true,
          beq_iff_eq] at hb'
        rcases hb' with (rfl | rfl) | rfl <;> exact absurd hb (by decide)
    exact natural_eq_ok_iff.mpr ⟨b, s' ++ t, skipSpace_append hs t, hb, number_append hn hr t, hle⟩

theorem string_eq_ok_iff {limits : Limits} {s r : List UInt8} {text : String} :
    string limits s = .ok (text, r) ↔ ∃ s', skipSpace s = byte '"' :: s' ∧
      stringText s' = .ok (text, r) := by
  unfold string
  cases hs : skipSpace s with
  | nil => simp
  | cons b s' =>
    by_cases hb : b = byte '"'
    · simp [hb]
    · simp [hb]

theorem lawful_string : string.Lawful where
  spells h := by
    obtain ⟨s', hs, ht⟩ := string_eq_ok_iff.mp h
    obtain ⟨p, hp, -, rfl⟩ := skipSpace_eq_cons_iff.mp hs
    obtain ⟨k, hk, rfl, -⟩ := stringText_spells ht
    exact ⟨p, _, hp, .string hk, rfl⟩
  append h _ _ t := by
    obtain ⟨s', hs, h⟩ := string_eq_ok_iff.mp h
    obtain ⟨k, -, rfl, ht⟩ := stringText_spells h
    exact string_eq_ok_iff.mpr ⟨_, skipSpace_append hs t, by rw [List.append_assoc]; exact ht _⟩

theorem lawful_char : char.Lawful := lawful_string.refine _

theorem null_word : "null".toList.map byte = byte 'n' :: "ull".toList.map byte := by decide

theorem null_eq_ok_iff {limits : Limits} {s r : List UInt8} {u : Unit} :
    null limits s = .ok (u, r) ↔ skipSpace s = byte 'n' :: ("ull".toList.map byte ++ r) := by
  unfold null
  cases hs : skipSpace s with
  | nil => simp
  | cons b s' =>
    by_cases hb : b = byte 'n'
    · simp [hb, expectText_eq_ok_iff]
    · simp [hb]

theorem lawful_null : null.Lawful where
  spells h := by
    obtain ⟨p, hp, -, rfl⟩ := skipSpace_eq_cons_iff.mp (null_eq_ok_iff.mp h)
    exact ⟨p, _, hp, .scalar .null, by rw [null_word]; rfl⟩
  append h _ _ t := by
    rw [null_eq_ok_iff] at h ⊢
    rw [skipSpace_append h, List.append_assoc]

theorem option_eq_ok_iff {d : Decoder α} {limits : Limits} {s r : List UInt8} {o : Option α} :
    option d limits s = .ok (o, r) ↔
      (o = none ∧ skipSpace s = byte 'n' :: ("ull".toList.map byte ++ r)) ∨
        ∃ b s' a, skipSpace s = b :: s' ∧ b ≠ byte 'n' ∧ d limits (b :: s') = .ok (a, r) ∧
          o = some a := by
  unfold option
  cases hs : skipSpace s with
  | nil => simp
  | cons b s' =>
    by_cases hb : b = byte 'n'
    · simp only [hb, ↓reduceIte, bind_eq_ok, Prod.exists, expectText_eq_ok_iff, pure, Except.pure,
        Except.ok.injEq, Prod.mk.injEq]
      constructor
      · rintro ⟨-, r, rfl, rfl, rfl⟩
        exact .inl ⟨rfl, rfl⟩
      · rintro (⟨rfl, h⟩ | ⟨b, s', a, h, hne, -⟩)
        · exact ⟨(), r, by simpa using h, rfl, rfl⟩
        · simp only [List.cons.injEq] at h
          exact absurd h.1.symm hne
    · simp only [hb, ↓reduceIte, map_eq_ok_iff]
      constructor
      · rintro ⟨a, h, rfl⟩
        exact .inr ⟨b, s', a, rfl, hb, h, rfl⟩
      · rintro (⟨-, h⟩ | ⟨b, s', a, h, -, ha, rfl⟩)
        · simp [hb] at h
        · simp only [List.cons.injEq] at h
          exact ⟨a, by rw [h.1, h.2, ha], rfl⟩

theorem Lawful.option {d : Decoder α} (hd : d.Lawful) : (option d).Lawful where
  spells h := by
    rcases option_eq_ok_iff.mp h with ⟨-, hs⟩ | ⟨b, s', a, hs, -, ha, -⟩
    · obtain ⟨p, hp, -, rfl⟩ := skipSpace_eq_cons_iff.mp hs
      exact ⟨p, _, hp, .scalar .null, by rw [null_word]; rfl⟩
    · obtain ⟨p, hp, -, rfl⟩ := skipSpace_eq_cons_iff.mp hs
      obtain ⟨q, w, hq, hw, hb⟩ := hd.spells ha
      exact ⟨p ++ q, w, hp.append hq, hw, by simp [hb]⟩
  append {_ _ s r _} h hl he t := by
    rcases option_eq_ok_iff.mp h with ⟨ho, hs⟩ | ⟨b, s', a, hs, hb, ha, ho⟩
    · exact option_eq_ok_iff.mpr (.inl ⟨ho, by rw [skipSpace_append hs, List.append_assoc]⟩)
    · have he' : EndSeen (b :: s') r := by
        obtain ⟨-, -, hsp, -⟩ := skipSpace_eq_cons_iff.mp hs
        simpa [EndSeen, hs, skipSpace_cons hsp] using he
      exact option_eq_ok_iff.mpr (.inr ⟨b, s' ++ t, a, skipSpace_append hs t, hb,
        hd.append ha hl he' t, ho⟩)

/-! ### Containers -/

/-- What stands in a container behind its opening byte or behind an entry, through its closing
byte. -/
def Rest (c : Container) : (isFirst : Bool) → List UInt8 → Prop
  | true, u => IsValue (byte c.first :: u)
  | false, u => Spells (.tail c) u

theorem rest_last {c : Container} {isFirst : Bool} {p : List UInt8} (hp : Blank p) :
    Rest c isFirst (p ++ [byte c.last]) := by
  cases isFirst with
  | true => exact .empty hp
  | false => exact .done hp

/-- A decoder of what stands between the brackets of a container. -/
structure Body (c : Container) (isFirst : Bool) (d : Decoder α) : Prop where
  spells {limits : Limits} {s r r' : List UInt8} {a : α} (h : d limits s = .ok (a, r))
    (hc : skipSpace r = byte c.last :: r') : ∃ u, Rest c isFirst u ∧ s = u ++ r'
  append {limits limits' : Limits} {s r : List UInt8} {a : α} (h : d limits s = .ok (a, r))
    (hl : limits.Le limits') (hr : r ≠ []) (t : List UInt8) : d limits' (s ++ t) = .ok (a, r ++ t)

theorem Body.lawful {c : Container} {d : Decoder α} (h : Body c true d) :
    (container c.first c.last d).Lawful where
  spells h' := by
    obtain ⟨n, s', s'', -, hs, hb, hc⟩ := container_eq_ok_iff.mp h'
    obtain ⟨p, hp, -, rfl⟩ := skipSpace_eq_cons_iff.mp hs
    obtain ⟨u, hu, rfl⟩ := h.spells hb hc
    exact ⟨p, _, hp, hu, rfl⟩
  append {limits limits' _ _ _} h' hl _ t := by
    obtain ⟨n, s', s'', hn, hs, hb, hc⟩ := container_eq_ok_iff.mp h'
    obtain ⟨n', hn'⟩ : ∃ n', limits'.nesting = n' + 1 :=
      ⟨limits'.nesting - 1, by have := hl.1; omega⟩
    have hr : s'' ≠ [] := by
      rintro rfl
      simp [skipSpace] at hc
    have hle : n + 1 ≤ n' + 1 := by
      rw [← hn, ← hn']
      exact hl.1
    have hl' : Limits.Le ⟨n, limits.items⟩ ⟨n', limits'.items⟩ :=
      ⟨Nat.le_of_succ_le_succ hle, hl.2⟩
    exact container_eq_ok_iff.mpr ⟨n', _, _, hn', skipSpace_append hs t, h.append hb hl' hr t,
      skipSpace_append hc t⟩

/-- Whether `s'` is what stands behind the comma, or also behind the key and its colon, of an entry
at the front of `s`. -/
def Enters (c : Container) (isFirst : Bool) (s s' : List UInt8) : Prop :=
  ∀ {p w u r : List UInt8}, Blank p → IsValue w → Rest c false u → s' = p ++ (w ++ (u ++ r)) →
    ∃ v, Rest c isFirst v ∧ s = v ++ r

theorem Lawful.rest {c : Container} {isFirst : Bool} {d : Decoder α} (hd : d.Lawful)
    {limits : Limits} {s s' r r' u : List UInt8} {a : α} (he : Enters c isFirst s s')
    (h : d limits s' = .ok (a, r)) (hu : Rest c false u) (hr : r = u ++ r') :
    ∃ v, Rest c isFirst v ∧ s = v ++ r' := by
  obtain ⟨p, w, hp, hw, rfl⟩ := hd.spells h
  exact he hp hw hu (by rw [hr])

end Decoder

end MacroBridge.Json
