import MacroBridge.Proofs.Json.Lawful

/-!
Arrays: decoders of their elements, of all one type or each of its own, keep to the grammar.
-/
namespace MacroBridge.Json.Decoder
variable {α β σ : Type}

theorem nextElement_nil (isFirst : Bool) : nextElement isFirst [] = .error .incomplete := rfl

theorem nextElement_enters {isFirst : Bool} {s s' : List UInt8}
    (h : nextElement isFirst s = .ok (some s')) : Enters .array isFirst s s' := by
  intro p w u r hp hw hu hs'
  unfold nextElement at h
  cases hs : skipSpace s with
  | nil => simp [hs] at h
  | cons b t =>
    obtain ⟨q, hq, -, rfl⟩ := skipSpace_eq_cons_iff.mp hs
    simp only [hs] at h
    by_cases hb : b = byte ']'
    · simp [hb] at h
    rw [if_neg hb] at h
    cases isFirst with
    | true =>
      simp only [↓reduceIte, Except.ok.injEq, Option.some.injEq] at h
      refine ⟨_, .filled (hq.append hp) (.element hw) hu, ?_⟩
      simp [h, hs']
    | false =>
      simp only [Bool.false_eq_true, ↓reduceIte] at h
      split_ifs at h with hc
      cases ht : skipSpace t with
      | nil => simp [ht] at h
      | cons x t' =>
        obtain ⟨q', hq', -, rfl⟩ := skipSpace_eq_cons_iff.mp ht
        simp only [ht] at h
        split_ifs at h
        simp only [Except.ok.injEq, Option.some.injEq] at h
        refine ⟨_, .more hq (hq'.append hp) (.element hw) hu, ?_⟩
        simp [hc, h, hs']

theorem nextElement_append {isFirst : Bool} {s : List UInt8} {o : Option (List UInt8)}
    (h : nextElement isFirst s = .ok o) (t : List UInt8) :
    nextElement isFirst (s ++ t) = .ok (o.map (· ++ t)) := by
  unfold nextElement at h ⊢
  cases hs : skipSpace s with
  | nil => simp [hs] at h
  | cons b s' =>
    rw [skipSpace_append hs t]
    simp only [hs] at h ⊢
    split_ifs at h ⊢ with hb hf hc
    · obtain rfl := Except.ok.inj h
      rfl
    · obtain rfl := Except.ok.inj h
      rfl
    · cases hs' : skipSpace s' with
      | nil => simp [hs'] at h
      | cons x s'' =>
        rw [skipSpace_append hs' t]
        simp only [hs'] at h ⊢
        split_ifs at h ⊢
        obtain rfl := Except.ok.inj h
        rfl

theorem elements_succ_eq_ok_iff {d : Decoder α} {limits : Limits} {items : Nat} {isFirst : Bool}
    {done as : List α} {s r : List UInt8} :
    elements d limits (items + 1) isFirst done s = .ok (as, r) ↔
      (nextElement isFirst s = .ok none ∧ as = done.reverse ∧ r = s) ∨
        ∃ s' a s'', nextElement isFirst s = .ok (some s') ∧ d limits s' = .ok (a, s'') ∧
          elements d limits items false (a :: done) s'' = .ok (as, r) := by
  rw [elements, bind_eq_ok]
  constructor
  · rintro ⟨o, ho, h⟩
    cases o with
    | none =>
      simp only [pure, Except.pure, Except.ok.injEq, Prod.mk.injEq] at h
      exact .inl ⟨ho, h.1.symm, h.2.symm⟩
    | some s' =>
      obtain ⟨⟨a, s''⟩, ha, h⟩ := bind_eq_ok.mp h
      exact .inr ⟨s', a, s'', ho, ha, h⟩
  · rintro (⟨ho, rfl, rfl⟩ | ⟨s', a, s'', ho, ha, h⟩)
    · exact ⟨none, ho, rfl⟩
    · exact ⟨some s', ho, bind_eq_ok.mpr ⟨(a, s''), ha, h⟩⟩

theorem elements_ne_nil {d : Decoder α} {limits : Limits} {items : Nat} {isFirst : Bool}
    {done as : List α} {s r : List UInt8}
    (h : elements d limits items isFirst done s = .ok (as, r)) : s ≠ [] := by
  rintro rfl
  cases items with
  | zero => simp [elements] at h
  | succ items => simp [elements_succ_eq_ok_iff, nextElement_nil] at h

theorem Lawful.elements_spells {d : Decoder α} (hd : d.Lawful) {limits : Limits} {items : Nat}
    {isFirst : Bool} {done as : List α} {s r r' : List UInt8}
    (h : elements d limits items isFirst done s = .ok (as, r))
    (hc : skipSpace r = byte ']' :: r') : ∃ u, Rest .array isFirst u ∧ s = u ++ r' := by
  induction items generalizing isFirst done s with
  | zero => simp [elements] at h
  | succ items ih =>
    obtain ⟨-, -, rfl⟩ | ⟨s', a, s'', hn, ha, h⟩ := elements_succ_eq_ok_iff.mp h
    · obtain ⟨p, hp, -, rfl⟩ := skipSpace_eq_cons_iff.mp hc
      exact ⟨_, rest_last hp, by simp [Container.last]⟩
    · obtain ⟨u, hu, hs''⟩ := ih h
      exact hd.rest (nextElement_enters hn) ha hu hs''

theorem Lawful.elements_append {d : Decoder α} (hd : d.Lawful) {limits limits' : Limits}
    (hl : limits.Le limits') {items items' : Nat} (hi : items ≤ items') {isFirst : Bool}
    {done as : List α} {s r : List UInt8}
    (h : elements d limits items isFirst done s = .ok (as, r)) (t : List UInt8) :
    elements d limits' items' isFirst done (s ++ t) = .ok (as, r ++ t) := by
  induction items generalizing items' isFirst done s with
  | zero => simp [elements] at h
  | succ items ih =>
    obtain ⟨items', rfl⟩ : ∃ n, items' = n + 1 := ⟨items' - 1, by omega⟩
    rw [elements_succ_eq_ok_iff] at h ⊢
    obtain ⟨hn, rfl, rfl⟩ | ⟨s', a, s'', hn, ha, h⟩ := h
    · exact .inl ⟨nextElement_append hn t, rfl, rfl⟩
    · exact .inr ⟨s' ++ t, a, s'' ++ t, nextElement_append hn t,
        hd.append ha hl (.inl (elements_ne_nil h)) t, ih (by omega) h⟩

theorem Lawful.list {d : Decoder α} (hd : d.Lawful) : (list d).Lawful :=
  Body.lawful (c := .array)
    { spells := fun h hc => hd.elements_spells h hc
      append := fun h hl _ t => hd.elements_append hl hl.2 h t }

theorem element_eq_ok_iff {isFirst : Bool} {d : Decoder α} {limits : Limits}
    {s r : List UInt8} {a : α} : element isFirst d limits s = .ok (a, r) ↔
      ∃ s', nextElement isFirst s = .ok (some s') ∧ d limits s' = .ok (a, r) := by
  unfold element
  rw [bind_eq_ok]
  constructor
  · rintro ⟨o, ho, h⟩
    cases o with
    | none => simp [throw, throwThe, MonadExceptOf.throw] at h
    | some s' => exact ⟨s', ho, h⟩
  · rintro ⟨s', ho, h⟩
    exact ⟨some s', ho, h⟩

theorem pairBody_eq_ok_iff {da : Decoder α} {db : Decoder β} {limits : Limits} {s r : List UInt8}
    {p : α × β} :
    (do let (a, s) ← element true da limits s
        let (b, s) ← element false db limits s
        return ((a, b), s) : Except Fault ((α × β) × List UInt8)) = .ok (p, r) ↔
      ∃ s' s'' u', nextElement true s = .ok (some s') ∧ da limits s' = .ok (p.1, s'') ∧
        nextElement false s'' = .ok (some u') ∧ db limits u' = .ok (p.2, r) := by
  obtain ⟨a, b⟩ := p
  simp only [bind_eq_ok, Prod.exists, element_eq_ok_iff, pure, Except.pure, Except.ok.injEq,
    Prod.mk.injEq]
  constructor
  · rintro ⟨_, s'', ⟨s', hn, ha⟩, _, _, ⟨u', hn', hb⟩, ⟨rfl, rfl⟩, rfl⟩
    exact ⟨s', s'', u', hn, ha, hn', hb⟩
  · rintro ⟨s', s'', u', hn, ha, hn', hb⟩
    exact ⟨a, s'', ⟨s', hn, ha⟩, b, r, ⟨u', hn', hb⟩, ⟨rfl, rfl⟩, rfl⟩

theorem Lawful.pair {da : Decoder α} {db : Decoder β} (ha : da.Lawful) (hb : db.Lawful) :
    (pair da db).Lawful :=
  Body.lawful (c := .array)
    { spells := by
        intro limits s r r' p h hc
        obtain ⟨s', s'', u', hn, h₁, hn', h₂⟩ := pairBody_eq_ok_iff.mp h
        obtain ⟨q, hq, -, hr⟩ := skipSpace_eq_cons_iff.mp hc
        obtain ⟨v, hv, rfl⟩ := hb.rest (nextElement_enters hn') h₂ (rest_last hq)
          (show r = (q ++ [byte Container.array.last]) ++ r' by rw [hr]; simp)
        exact ha.rest (nextElement_enters hn) h₁ hv rfl
      append := by
        intro limits limits' s r p h hl hr t
        obtain ⟨s', s'', u', hn, h₁, hn', h₂⟩ := pairBody_eq_ok_iff.mp h
        have hne : s'' ≠ [] := by
          rintro rfl
          simp [nextElement_nil] at hn'
        exact pairBody_eq_ok_iff.mpr ⟨s' ++ t, s'' ++ t, u' ++ t, nextElement_append hn t,
          ha.append h₁ hl (.inl hne) t, nextElement_append hn' t, hb.append h₂ hl (.inl hr) t⟩ }

/-- Fields that keep to the grammar whatever has been read before them. -/
def LawfulFields (fields : List (Field σ)) : Prop := ∀ f ∈ fields, ∀ r, (f.read r).Lawful

theorem lawfulFields_nil : LawfulFields ([] : List (Field σ)) := by simp [LawfulFields]

theorem LawfulFields.cons {f : Field σ} {fields : List (Field σ)} (hf : ∀ r, (f.read r).Lawful)
    (h : LawfulFields fields) : LawfulFields (f :: fields) := List.forall_mem_cons.mpr ⟨hf, h⟩

theorem ordered_cons_eq_ok_iff {mayEnd : Bool} {limits : Limits} {f : Field σ}
    {fields : List (Field σ)} {isFirst : Bool} {r r' : σ} {s z : List UInt8} :
    ordered mayEnd limits (f :: fields) isFirst r s = .ok (r', z) ↔
      (nextElement isFirst s = .ok none ∧ mayEnd = true ∧ r' = r ∧ z = s) ∨
        ∃ s' r'' s'', nextElement isFirst s = .ok (some s') ∧ f.read r limits s' = .ok (r'', s'') ∧
          ordered mayEnd limits fields false r'' s'' = .ok (r', z) := by
  rw [ordered, bind_eq_ok]
  constructor
  · rintro ⟨o, ho, h⟩
    cases o with
    | none =>
      cases mayEnd with
      | false => simp [throw, throwThe, MonadExceptOf.throw] at h
      | true =>
        simp only [↓reduceIte, pure, Except.pure, Except.ok.injEq, Prod.mk.injEq] at h
        exact .inl ⟨ho, rfl, h.1.symm, h.2.symm⟩
    | some s' =>
      obtain ⟨⟨r'', s''⟩, hr, h⟩ := bind_eq_ok.mp h
      exact .inr ⟨s', r'', s'', ho, hr, h⟩
  · rintro (⟨ho, rfl, rfl, rfl⟩ | ⟨s', r'', s'', ho, hr, h⟩)
    · exact ⟨none, ho, rfl⟩
    · exact ⟨some s', ho, bind_eq_ok.mpr ⟨(r'', s''), hr, h⟩⟩

theorem ordered_body {fields : List (Field σ)} (hf : LawfulFields fields) (mayEnd isFirst : Bool)
    (r : σ) : Body .array isFirst (fun limits => ordered mayEnd limits fields isFirst r) := by
  induction fields generalizing isFirst r with
  | nil =>
    refine ⟨fun {_ s z z' r'} h hc => ?_, fun {_ _ s z r'} h _ _ t => ?_⟩ <;>
      simp only [ordered, Except.ok.injEq, Prod.mk.injEq] at h
    · obtain ⟨p, hp, -, hz⟩ := skipSpace_eq_cons_iff.mp hc
      exact ⟨_, rest_last hp, by simp [h.2, hz]⟩
    · simp [ordered, h]
  | cons f fields ih =>
    have ih := ih fun g hg => hf g (by simp [hg])
    refine ⟨fun {_ s z z' r'} h hc => ?_, fun {_ limits' s z r'} h hl hz t => ?_⟩
    · obtain ⟨-, -, -, rfl⟩ | ⟨s', r'', s'', hn, hr, h⟩ := ordered_cons_eq_ok_iff.mp h
      · obtain ⟨p, hp, -, rfl⟩ := skipSpace_eq_cons_iff.mp hc
        exact ⟨_, rest_last hp, by simp⟩
      · obtain ⟨u, hu, hs''⟩ := (ih false r'').spells h hc
        exact (hf f (by simp) r).rest (nextElement_enters hn) hr hu hs''
    · rw [ordered_cons_eq_ok_iff] at h ⊢
      obtain ⟨hn, hm, rfl, rfl⟩ | ⟨s', r'', s'', hn, hr, h⟩ := h
      · exact .inl ⟨nextElement_append hn t, hm, rfl, rfl⟩
      · have hne : s'' ≠ [] := by
          rintro rfl
          cases fields with
          | nil =>
            simp only [ordered, Except.ok.injEq, Prod.mk.injEq] at h
            exact hz h.2.symm
          | cons g fields => simp [ordered_cons_eq_ok_iff, nextElement_nil] at h
        exact .inr ⟨s' ++ t, r'', s'' ++ t, nextElement_append hn t,
          (hf f (by simp) r).append hr hl (.inl hne) t, (ih false r'').append h hl hz t⟩

end MacroBridge.Json.Decoder
