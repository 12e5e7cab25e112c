import MacroBridge.Proofs.Json.Elements

/-!
Objects: decoders of records, and of sums with the name of a case as the only key, keep to the
grammar.
-/
namespace MacroBridge.Json.Decoder
variable {α β σ : Type}

/-! ### Objects -/

theorem key_eq_ok_iff {isWrong : String → Bool} {s : List UInt8}
    {o : Option (String × List UInt8)} :
    (do let (name, s) ← stringText s
        if isWrong name then throw .malformed
        let (_, s) ← close ':' s
        return some (name, s) : Except Fault (Option (String × List UInt8))) = .ok o ↔
      ∃ name s' s'', stringText s = .ok (name, s') ∧ isWrong name = false ∧
        skipSpace s' = byte ':' :: s'' ∧ o = some (name, s'') := by
  rw [bind_eq_ok]
  constructor
  · rintro ⟨⟨name, s'⟩, ht, h⟩
    cases hw : isWrong name with
    | true => simp [hw, throw, throwThe, MonadExceptOf.throw, bind, Except.bind] at h
    | false =>
      simp only [hw, Bool.false_eq_true, ↓reduceIte, bind_eq_ok, Prod.exists] at h
      obtain ⟨v, s'', hc, h⟩ := h
      exact ⟨name, s', s'', ht, hw, close_eq_ok_iff.mp hc, (Except.ok.inj h).symm⟩
  · rintro ⟨name, s', s'', ht, hw, hc, rfl⟩
    refine ⟨(name, s'), ht, ?_⟩
    simp only [hw, Bool.false_eq_true, ↓reduceIte, bind_eq_ok, Prod.exists]
    exact ⟨(), s'', close_eq_ok_iff.mpr hc, rfl⟩

theorem nextKey_nil (isFirst : Bool) (isWrong : String → Bool) :
    nextKey isFirst isWrong [] = .error .incomplete := rfl

/-- Where the key of an entry starts: at once in an empty object, else behind a comma. -/
theorem nextKey_some_iff {isFirst : Bool} {isWrong : String → Bool} {s s' : List UInt8}
    {name : String} : nextKey isFirst isWrong s = .ok (some (name, s')) ↔ ∃ t k,
      (if isFirst then skipSpace s = byte '"' :: t
        else ∃ t', skipSpace s = byte ',' :: t' ∧ skipSpace t' = byte '"' :: t) ∧
      stringText t = .ok (name, k) ∧ isWrong name = false ∧ skipSpace k = byte ':' :: s' := by
  unfold nextKey
  cases hs : skipSpace s with
  | nil => cases isFirst <;> simp
  | cons b t =>
    by_cases hb : b = byte '\x7d'
    · have h₁ : byte '\x7d' ≠ byte '"' := by decide
      have h₂ : byte '\x7d' ≠ byte ',' := by decide
      cases isFirst <;> simp [hb, h₁, h₂]
    cases isFirst with
    | true =>
      by_cases hq : b = byte '"'
      · simp only [hq, ↓reduceIte, key_eq_ok_iff, show byte '"' ≠ byte '\x7d' by decide]
        constructor
        · rintro ⟨n, k, s'', ht, hw, hk, h⟩
          obtain ⟨rfl, rfl⟩ := Prod.mk.inj (Option.some.inj h)
          exact ⟨t, k, rfl, ht, hw, hk⟩
        · rintro ⟨t', k, h, ht, hw, hk⟩
          obtain ⟨-, rfl⟩ := List.cons.inj h
          exact ⟨name, k, s', ht, hw, hk, rfl⟩
      · simp [hb, hq]
    | false =>
      by_cases hc : b = byte ','
      · cases ht : skipSpace t with
        | nil => simp [hc, ht, show byte ',' ≠ byte '\x7d' by decide]
        | cons x t' =>
          by_cases hq : x = byte '"'
          · simp only [hc, ht, hq, ↓reduceIte, key_eq_ok_iff,
              show byte ',' ≠ byte '\x7d' by decide, Bool.false_eq_true]
            constructor
            · rintro ⟨n, k, s'', hk, hw, hs', h⟩
              obtain ⟨rfl, rfl⟩ := Prod.mk.inj (Option.some.inj h)
              exact ⟨t', k, ⟨t, rfl, by rw [ht, hq]⟩, hk, hw, hs'⟩
            · rintro ⟨t'', k, ⟨t₀, h, h'⟩, hk, hw, hs'⟩
              obtain ⟨-, rfl⟩ := List.cons.inj h
              rw [ht] at h'
              obtain ⟨-, rfl⟩ := List.cons.inj h'
              exact ⟨name, k, s', hk, hw, hs', rfl⟩
          · simp [hc, ht, hq, show byte ',' ≠ byte '\x7d' by decide]
      · simp [hb, hc]

theorem nextKey_none_iff {isFirst : Bool} {isWrong : String → Bool} {s : List UInt8} :
    nextKey isFirst isWrong s = .ok none ↔ ∃ s', skipSpace s = byte '\x7d' :: s' := by
  unfold nextKey
  cases hs : skipSpace s with
  | nil => simp
  | cons b t =>
    by_cases hb : b = byte '\x7d'
    · simp [hb]
    · -- every other answer that is no fault names a key
      have hne : ∀ u, (do
          let (name, s) ← stringText u
          if isWrong name then throw .malformed
          let (_, s) ← close ':' s
          return some (name, s) : Except Fault (Option (String × List UInt8))) ≠ .ok none := by
        intro u h
        obtain ⟨name, s', s'', -, -, -, h⟩ := key_eq_ok_iff.mp h
        simp at h
      simp only [hb, ↓reduceIte, List.cons.injEq, false_and, exists_false, iff_false]
      split_ifs
      · exact hne t
      · simp
      · split
        · simp
        · split_ifs
          · exact hne _
          · simp
      · simp

/-- The text of a key up to what follows its colon. -/
theorem rest_key {s' t k p w u r : List UInt8} {name : String} (ht : stringText t = .ok (name, k))
    (hk : skipSpace k = byte ':' :: s') (hp : Blank p) (hw : IsValue w)
    (hs' : s' = p ++ (w ++ (u ++ r))) :
    ∃ e, Spells (.entry .object) e ∧ byte '"' :: t = e ++ (u ++ r) := by
  obtain ⟨k', hk', rfl, -⟩ := stringText_spells ht
  obtain ⟨q, hq, -, rfl⟩ := skipSpace_eq_cons_iff.mp hk
  exact ⟨_, .member hk' hq hp hw, by simp [hs']⟩

theorem nextKey_enters {isFirst : Bool} {isWrong : String → Bool} {s s' : List UInt8}
    {name : String} (h : nextKey isFirst isWrong s = .ok (some (name, s'))) :
    Enters .object isFirst s s' := by
  intro p w u r hp hw hu hs'
  obtain ⟨t, k, hs, ht, -, hk⟩ := nextKey_some_iff.mp h
  obtain ⟨e, he, het⟩ := rest_key ht hk hp hw hs'
  cases isFirst with
  | true =>
    obtain ⟨q, hq, -, rfl⟩ := skipSpace_eq_cons_iff.mp hs
    exact ⟨_, .filled hq he hu, by simp [het]⟩
  | false =>
    obtain ⟨t', hs, ht'⟩ := hs
    obtain ⟨q, hq, -, rfl⟩ := skipSpace_eq_cons_iff.mp hs
    obtain ⟨q', hq', -, rfl⟩ := skipSpace_eq_cons_iff.mp ht'
    exact ⟨_, .more hq hq' he hu, by simp [het]⟩

theorem nextKey_none_append {isFirst : Bool} {isWrong : String → Bool} {s : List UInt8}
    (h : nextKey isFirst isWrong s = .ok none) (t : List UInt8) :
    nextKey isFirst isWrong (s ++ t) = .ok none := by
  obtain ⟨s', hs⟩ := nextKey_none_iff.mp h
  exact nextKey_none_iff.mpr ⟨s' ++ t, skipSpace_append hs t⟩

theorem nextKey_some_append {isFirst : Bool} {isWrong : String → Bool} {s s' : List UInt8}
    {name : String} (h : nextKey isFirst isWrong s = .ok (some (name, s'))) (t : List UInt8) :
    nextKey isFirst isWrong (s ++ t) = .ok (some (name, s' ++ t)) := by
  obtain ⟨u, k, hs, hu, hw, hk⟩ := nextKey_some_iff.mp h
  obtain ⟨k', -, rfl, hk'⟩ := stringText_spells hu
  refine nextKey_some_iff.mpr ⟨(k' ++ k) ++ t, k ++ t, ?_, ?_, hw, skipSpace_append hk t⟩
  · cases isFirst with
    | true => exact skipSpace_append hs t
    | false =>
      obtain ⟨u', hs, hu'⟩ := hs
      exact ⟨u' ++ t, skipSpace_append hs t, skipSpace_append hu' t⟩
  · rw [List.append_assoc]
    exact hk' (k ++ t)

theorem members_succ_eq_ok_iff {fields : List (Field σ)} {limits : Limits} {items : Nat}
    {isFirst : Bool} {r r' : σ} {s z : List UInt8} :
    members fields limits (items + 1) isFirst r s = .ok (r', z) ↔
      (nextKey isFirst (fun name => (findField fields name).any (·.isRead r)) s = .ok none ∧
          r' = r ∧ z = s) ∨
        ∃ name s', nextKey isFirst (fun name => (findField fields name).any (·.isRead r)) s =
            .ok (some (name, s')) ∧
          ((∃ f r'' s'', findField fields name = some f ∧ f.read r limits s' = .ok (r'', s'') ∧
              members fields limits items false r'' s'' = .ok (r', z)) ∨
            ∃ s'', findField fields name = none ∧ skip limits.items .value [] s' = .ok s'' ∧
              members fields limits items false r s'' = .ok (r', z)) := by
  rw [members, bind_eq_ok]
  constructor
  · rintro ⟨o, ho, h⟩
    cases o with
    | none =>
      obtain ⟨rfl, rfl⟩ := Prod.mk.inj (Except.ok.inj h)
      exact .inl ⟨ho, rfl, rfl⟩
    | some q =>
      obtain ⟨name, s'⟩ := q
      refine .inr ⟨name, s', ho, ?_⟩
      cases hf : findField fields name with
      | some f =>
        simp only [hf] at h
        obtain ⟨⟨r'', s''⟩, hr, h⟩ := bind_eq_ok.mp h
        exact .inl ⟨f, r'', s'', rfl, hr, h⟩
      | none =>
        simp only [hf] at h
        obtain ⟨s'', hs, h⟩ := bind_eq_ok.mp h
        exact .inr ⟨s'', rfl, hs, h⟩
  · rintro (⟨ho, rfl, rfl⟩ | ⟨name, s', ho, ⟨f, r'', s'', hf, hr, h⟩ | ⟨s'', hf, hs, h⟩⟩)
    · exact ⟨none, ho, rfl⟩
    · refine ⟨some (name, s'), ho, ?_⟩
      simp only [hf]
      exact bind_eq_ok.mpr ⟨(r'', s''), hr, h⟩
    · refine ⟨some (name, s'), ho, ?_⟩
      simp only [hf]
      exact bind_eq_ok.mpr ⟨s'', hs, h⟩

theorem members_ne_nil {fields : List (Field σ)} {limits : Limits} {items : Nat} {isFirst : Bool}
    {r r' : σ} {s z : List UInt8} (h : members fields limits items isFirst r s = .ok (r', z)) :
    s ≠ [] := by
  rintro rfl
  cases items with
  | zero => simp [members] at h
  | succ items => simp [members_succ_eq_ok_iff, nextKey_nil] at h

theorem findField_mem {fields : List (Field σ)} {name : String} {f : Field σ}
    (h : findField fields name = some f) : f ∈ fields := List.mem_of_find?_eq_some h

theorem members_spells {fields : List (Field σ)} (hf : LawfulFields fields) {limits : Limits}
    {items : Nat} {isFirst : Bool} {r r' : σ} {s z z' : List UInt8}
    (h : members fields limits items isFirst r s = .ok (r', z))
    (hc : skipSpace z = byte '\x7d' :: z') : ∃ u, Rest .object isFirst u ∧ s = u ++ z' := by
  induction items generalizing isFirst r s with
  | zero => simp [members] at h
  | succ items ih =>
    obtain ⟨-, -, rfl⟩ | ⟨name, s', hn, ⟨f, r'', s'', hm, hr, h⟩ | ⟨s'', -, hs, h⟩⟩ :=
      members_succ_eq_ok_iff.mp h
    · obtain ⟨p, hp, -, rfl⟩ := skipSpace_eq_cons_iff.mp hc
      exact ⟨_, rest_last hp, by simp [Container.last]⟩
    · obtain ⟨u, hu, hs''⟩ := ih h
      exact (hf f (findField_mem hm) r).rest (nextKey_enters hn) hr hu hs''
    · obtain ⟨u, hu, rfl⟩ := ih h
      obtain ⟨v, ⟨p, w, x, hp, hw, rfl, rfl⟩, hs'⟩ := skip_spells (l := []) hs
      exact nextKey_enters hn hp hw hu (by simp [hs'])

theorem members_append {fields : List (Field σ)} (hf : LawfulFields fields)
    {limits limits' : Limits} (hl : limits.Le limits') {items items' : Nat} (hi : items ≤ items')
    {isFirst : Bool} {r r' : σ} {s z : List UInt8}
    (h : members fields limits items isFirst r s = .ok (r', z)) (t : List UInt8) :
    members fields limits' items' isFirst r (s ++ t) = .ok (r', z ++ t) := by
  induction items generalizing items' isFirst r s with
  | zero => simp [members] at h
  | succ items ih =>
    obtain ⟨items', rfl⟩ : ∃ n, items' = n + 1 := ⟨items' - 1, by omega⟩
    rw [members_succ_eq_ok_iff] at h ⊢
    obtain ⟨hn, rfl, rfl⟩ | ⟨name, s', hn, ⟨f, r'', s'', hm, hr, h⟩ | ⟨s'', hm, hs, h⟩⟩ := h
    · exact .inl ⟨nextKey_none_append hn t, rfl, rfl⟩
    · exact .inr ⟨name, s' ++ t, nextKey_some_append hn t, .inl ⟨f, r'', s'' ++ t, hm,
        (hf f (findField_mem hm) r).append hr hl (.inl (members_ne_nil h)) t, ih (by omega) h⟩⟩
    · exact .inr ⟨name, s' ++ t, nextKey_some_append hn t, .inr ⟨s'' ++ t, hm,
        skip_append (l := []) hs (members_ne_nil h) hl.2 t, ih (by omega) h⟩⟩

/-- A record is what its fields make of an array or an object. -/
theorem record_eq_ok_iff {fields : List (Field σ)} {start : σ} {finish : σ → Option α}
    {mayEnd : Bool} {limits : Limits} {s r : List UInt8} {a : α} :
    record fields start finish mayEnd limits s = .ok (a, r) ↔ ∃ x, finish x = some a ∧
      (container '[' ']' (fun limits => ordered mayEnd limits fields true start) limits s =
        .ok (x, r) ∨
        container '\x7b' '\x7d'
          (fun limits => members fields limits limits.items true start) limits s =
          .ok (x, r)) := by
  refine refine_eq_ok_iff.trans (exists_congr fun x => ?_)
  rw [and_comm]
  refine and_congr_right fun _ => ?_
  split_ifs with hb
  · refine ⟨.inl, Or.rec id fun h => ?_⟩
    obtain ⟨n, s', s'', -, hs, -⟩ := container_eq_ok_iff.mp h
    simp [hs, show byte '\x7b' ≠ byte '[' by decide] at hb
  · refine ⟨.inr, Or.rec (fun h => ?_) id⟩
    obtain ⟨n, s', s'', -, hs, -⟩ := container_eq_ok_iff.mp h
    simp [hs] at hb

theorem lawful_record {fields : List (Field σ)} {start : σ} {finish : σ → Option α} {mayEnd : Bool}
    (hf : LawfulFields fields) : (record fields start finish mayEnd).Lawful := by
  have ha := (ordered_body hf mayEnd true start).lawful
  have ho := Body.lawful (c := .object)
    (d := fun limits => members fields limits limits.items true start)
    { spells := fun h hc => members_spells hf h hc
      append := fun h hl _ t => members_append hf hl hl.2 h t }
  refine ⟨fun h => ?_, fun h hl he t => record_eq_ok_iff.mpr ?_⟩
  · obtain ⟨x, -, h | h⟩ := record_eq_ok_iff.mp h
    · exact ha.spells h
    · exact ho.spells h
  · obtain ⟨x, hx, h | h⟩ := record_eq_ok_iff.mp h
    · exact ⟨x, hx, .inl (ha.append h hl he t)⟩
    · exact ⟨x, hx, .inr (ho.append h hl he t)⟩

theorem Lawful.field {d : Decoder β} {name : String} {get : σ → Option β} {put : σ → β → σ}
    (hd : d.Lawful) (r : σ) : ((field name get put d).read r).Lawful := hd.map _

/-! ### Sums -/

theorem caseBody_eq_ok_iff {cases : List (String × Case α)} {limits : Limits}
    {s r : List UInt8} {a : α} :
    caseBody cases limits s = .ok (a, r) ↔ ∃ t name k c s', skipSpace s = byte '"' :: t ∧
      stringText t = .ok (name, k) ∧ cases.lookup name = some c ∧ skipSpace k = byte ':' :: s' ∧
      c.payload limits s' = .ok (a, r) := by
  unfold caseBody
  rw [bind_eq_ok]
  constructor
  · rintro ⟨⟨name, k⟩, hs, h⟩
    obtain ⟨t, hs, ht⟩ := string_eq_ok_iff.mp hs
    cases hc : cases.lookup name with
    | none => simp [hc, throw, throwThe, MonadExceptOf.throw] at h
    | some c =>
      simp only [hc] at h
      obtain ⟨⟨u, s'⟩, hk, h⟩ := bind_eq_ok.mp h
      exact ⟨t, name, k, c, s', hs, ht, hc, close_eq_ok_iff.mp hk, h⟩
  · rintro ⟨t, name, k, c, s', hs, ht, hc, hk, h⟩
    refine ⟨(name, k), string_eq_ok_iff.mpr ⟨t, hs, ht⟩, ?_⟩
    simp only [hc]
    exact bind_eq_ok.mpr ⟨((), s'), close_eq_ok_iff.mpr hk, h⟩

/-- Cases whose values are decoded by the grammar. -/
def LawfulCases (cases : List (String × Case α)) : Prop := ∀ c ∈ cases, c.2.payload.Lawful

theorem lawfulCases_nil : LawfulCases ([] : List (String × Case α)) := by simp [LawfulCases]

theorem LawfulCases.carrying {name : String} {d : Decoder α} {cases : List (String × Case α)}
    (hd : d.Lawful) (h : LawfulCases cases) : LawfulCases ((name, .carrying d) :: cases) :=
  List.forall_mem_cons.mpr ⟨hd, h⟩

theorem lookup_mem {γ : Type} {entries : List (String × γ)} {name : String} {c : γ}
    (h : entries.lookup name = some c) : ∃ e ∈ entries, e.2 = c := by
  induction entries with
  | nil => simp at h
  | cons e entries ih =>
    rw [List.lookup_cons] at h
    split at h
    · exact ⟨e, by simp, Option.some.inj h⟩
    · obtain ⟨x, hx, hc⟩ := ih h
      exact ⟨x, by simp [hx], hc⟩

theorem caseBody_body {cases : List (String × Case α)} (hc : LawfulCases cases) :
    Body .object true (caseBody cases) where
  spells {limits s r r' a} h hr := by
    obtain ⟨t, name, k, c, s', hs, ht, hl, hk, h⟩ := caseBody_eq_ok_iff.mp h
    obtain ⟨e, he, rfl⟩ := lookup_mem hl
    have hn : nextKey true (fun _ => false) s = .ok (some (name, s')) :=
      nextKey_some_iff.mpr ⟨t, k, hs, ht, rfl, hk⟩
    obtain ⟨q, hq, -, hr⟩ := skipSpace_eq_cons_iff.mp hr
    exact (hc e he).rest (nextKey_enters hn) h (rest_last hq)
      (show r = (q ++ [byte Container.object.last]) ++ r' by rw [hr]; simp)
  append {limits limits' s r a} h hl hr u := by
    obtain ⟨t, name, k, c, s', hs, ht, hlk, hk, h⟩ := caseBody_eq_ok_iff.mp h
    obtain ⟨e, he, rfl⟩ := lookup_mem hlk
    obtain ⟨k', -, rfl, hk'⟩ := stringText_spells ht
    refine caseBody_eq_ok_iff.mpr ⟨(k' ++ k) ++ u, name, k ++ u, e.2, s' ++ u,
      skipSpace_append hs u, ?_, hlk, skipSpace_append hk u, (hc e he).append h hl (.inl hr) u⟩
    rw [List.append_assoc]
    exact hk' (k ++ u)

theorem oneOf_eq_ok_iff {cases : List (String × Case α)} {limits : Limits}
    {s r : List UInt8} {a : α} : oneOf cases limits s = .ok (a, r) ↔
      container '\x7b' '\x7d' (caseBody cases) limits s = .ok (a, r) ∨
        ∃ t name, skipSpace s = byte '"' :: t ∧ stringText t = .ok (name, r) ∧
          cases.lookup name = some (.bare a) := by
  unfold oneOf
  cases hs : skipSpace s with
  | nil => simp [container_eq_ok_iff, hs]
  | cons b s' =>
    obtain ⟨-, -, hb, -⟩ := skipSpace_eq_cons_iff.mp hs
    have hq : byte '"' ≠ byte '\x7b' := by decide
    by_cases ho : b = byte '\x7b'
    · simp [ho, container_eq_ok_iff, hs, skipSpace_cons (ho ▸ hb), hq.symm]
    by_cases hb' : b = byte '"'
    · simp only [hb', hq, ↓reduceIte, bind_eq_ok, Prod.exists, container_eq_ok_iff, hs,
        List.cons.injEq, false_and, and_false, exists_false, false_or, true_and]
      constructor
      · rintro ⟨name, k, ht, h⟩
        split at h
        · next a' hl =>
          obtain ⟨rfl, rfl⟩ := Prod.mk.inj (Except.ok.inj h)
          exact ⟨s', name, rfl, ht, hl⟩
        · simp [throw, throwThe, MonadExceptOf.throw] at h
      · rintro ⟨t, name, rfl, ht, hl⟩
        exact ⟨name, r, ht, by rw [hl]; rfl⟩
    · simp [ho, hb', container_eq_ok_iff, hs]

theorem lawful_oneOf {cases : List (String × Case α)} (hc : LawfulCases cases) :
    (oneOf cases).Lawful where
  spells h := by
    rcases oneOf_eq_ok_iff.mp h with h | ⟨t, name, hs, ht, -⟩
    · exact (caseBody_body hc).lawful.spells h
    · obtain ⟨p, hp, -, rfl⟩ := skipSpace_eq_cons_iff.mp hs
      obtain ⟨k, hk, rfl, -⟩ := stringText_spells ht
      exact ⟨p, _, hp, .string hk, rfl⟩
  append h hl he u := by
    refine oneOf_eq_ok_iff.mpr ?_
    rcases oneOf_eq_ok_iff.mp h with h | ⟨t, name, hs, ht, hlk⟩
    · exact .inl ((caseBody_body hc).lawful.append h hl he u)
    · obtain ⟨k, -, rfl, hk⟩ := stringText_spells ht
      exact .inr ⟨_, name, skipSpace_append hs u, by rw [List.append_assoc]; exact hk _, hlk⟩

theorem lawful_bare (a : α) : (Case.bare a).payload.Lawful := by
  rw [Case.payload]
  exact lawful_null.map _

end MacroBridge.Json.Decoder
