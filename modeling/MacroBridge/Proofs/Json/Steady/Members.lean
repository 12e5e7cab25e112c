import MacroBridge.Proofs.Json.Members
import MacroBridge.Proofs.Json.Steady.Skip

/-!
Decoders of objects are settled on bytes that a closing bracket ends: records, and sums with the
name of a case as the only key.
-/
namespace MacroBridge.Json.Decoder
open Boundary (Harmless Outside Inside)

variable {α β σ : Type} {s r : List UInt8} {d : Decoder α} {isWrong : String → Bool}

/-! ### The next key -/

/-- A key from its opening quote on, through its colon. -/
def quotedKey (isWrong : String → Bool) (s : List UInt8) :
    Except Fault (Option String × List UInt8) := do
  let (name, s) ← stringText s.tail
  if isWrong name then throw .malformed
  let (_, s) ← close ':' s
  return (some name, s)

theorem quotedKey_eq {s t : List UInt8} {name : String} (h : stringText s.tail = .ok (name, t)) :
    quotedKey isWrong s =
      if isWrong name then .error .malformed else (close ':' t).map fun p => (some name, p.2) := by
  simp only [quotedKey, h]
  cases hw : isWrong name with
  | true => simp [bind, Except.bind, throw, throwThe, MonadExceptOf.throw, hw]
  | false =>
    cases hc : close ':' t with
    | error e => simp [bind, Except.bind, hc, hw, Except.map]
    | ok p => simp [bind, Except.bind, pure, Except.pure, hc, hw, Except.map]

theorem settles_quotedKey (isWrong : String → Bool) (s : List UInt8) :
    Settles Harmless Inside (fun _ _ => quotedKey isWrong) (byte '"' :: s) := by
  have htext : Settles Solid Outside (fun _ _ t => stringText t.tail) (byte '"' :: s) :=
    settles_text fun _ _ _ => rfl
  apply htext.bind (fun _ hb => hb.toOutside)
  · intro t n m e _ he
    simp only [quotedKey, he]
    rfl
  · intro name w r hwr hw more
    rw [hwr] at more ⊢
    cases hname : isWrong name with
    | true =>
      refine .malformed fun t n m hn => ?_
      rw [quotedKey_eq (more t n m hn), hname]
      rfl
    | false =>
      apply (settles_close ':').behind_map (fun _ => some name)
      · rintro _ ⟨p, hp, rfl⟩
        exact Boundary.Harmless.append hw.harmless (harmless_behind hp (harmless_byte (.inr rfl)))
      · intro b hb
        obtain ⟨hq, hb'⟩ := harmless_enters hw.harmless hb
        exact ⟨hq, hb'.toOutside⟩
      · intro t n m hn
        refine ⟨n, m, hn.of_append, ?_⟩
        rw [← List.append_assoc, quotedKey_eq (more t n m (by rwa [List.append_assoc])), hname]
        rfl

/-- The name of the next entry, if there is one, and what stands from its value on or else from the
end of the object on. -/
def atKey (isFirst : Bool) (isWrong : String → Bool) (s : List UInt8) :
    Except Fault (Option String × List UInt8) :=
  (nextKey isFirst isWrong s).map fun
    | none => (none, s)
    | some (name, s) => (some name, s)

theorem map_key (s s' : List UInt8) :
    Except.map (fun o : Option (String × List UInt8) => match o with
      | none => (none, s')
      | some (name, s) => (some name, s))
      (do let (name, s) ← stringText s
          if isWrong name then throw .malformed
          let (_, s) ← close ':' s
          return some (name, s) : Except Fault (Option (String × List UInt8))) =
    quotedKey isWrong (byte '"' :: s) := by
  rw [quotedKey, List.tail_cons]
  cases stringText s with
  | error e => rfl
  | ok p =>
    cases hw : isWrong p.1 with
    | true => simp [bind, Except.bind, throw, throwThe, MonadExceptOf.throw, hw, Except.map]
    | false =>
      cases hc : close ':' p.2 with
      | error e => simp [bind, Except.bind, hc, hw, Except.map]
      | ok p => simp [bind, Except.bind, pure, Except.pure, hc, hw, Except.map]

theorem atKey_first {p : List UInt8} (hp : Blank p) (s : List UInt8) :
    atKey true isWrong (p ++ byte '"' :: s) = quotedKey isWrong (byte '"' :: s) := by
  rw [atKey, nextKey, skipSpace_blank_cons hp (by decide)]
  simp only [show byte '"' ≠ byte '\x7d' by decide, ↓reduceIte]
  exact map_key s _

theorem atKey_next {p q : List UInt8} (hp : Blank p) (hq : Blank q) (s : List UInt8) :
    atKey false isWrong (p ++ byte ',' :: (q ++ byte '"' :: s)) =
      quotedKey isWrong (byte '"' :: s) := by
  rw [atKey, nextKey, skipSpace_blank_cons hp (by decide)]
  simp only [show byte ',' ≠ byte '\x7d' by decide, Bool.false_eq_true, ↓reduceIte,
    skipSpace_blank_cons hq (show isSpace (byte '"') = false by decide)]
  exact map_key s _

theorem settles_atKey (isFirst : Bool) (isWrong : String → Bool) (s : List UInt8) :
    Settles Harmless Inside (fun _ _ => atKey isFirst isWrong) s := by
  cases hs : skipSpace s with
  | nil =>
    have hb := skipSpace_eq_nil_iff.mp hs
    refine .waiting (fun _ _ _ => ?_) fun b h => (Boundary.harmless_blank hb b h).quiet
    simp [atKey, nextKey, hs, Except.map]
  | cons x r =>
    obtain ⟨p, hp, -, rfl⟩ := skipSpace_eq_cons_iff.mp hs
    have happend (t : List UInt8) : skipSpace (p ++ x :: r ++ t) = x :: (r ++ t) :=
      skipSpace_append hs t
    by_cases hx : x = byte '\x7d'
    · apply settles_done none harmless_nil
      intro t _ _
      rw [atKey, nextKey, happend]
      simp [hx, Except.map]
    cases isFirst with
    | true =>
      by_cases hq : x = byte '"'
      · subst hq
        apply (settles_quotedKey isWrong r).behind (fun v hv => harmless_behind hp hv)
          (fun b hb => harmless_enters (Boundary.harmless_blank hp) hb)
        intro t n m hn
        exact ⟨n, m, hn.of_append, atKey_first hp (r ++ t)⟩
      · apply settles_malformed
        intro t _ _
        rw [atKey, nextKey, happend]
        simp [hx, hq, Except.map]
    | false =>
      by_cases hc : x = byte ','
      · subst hc
        have hcomma {q : List UInt8} (hq : Blank q) : Harmless (p ++ byte ',' :: q) :=
          harmless_behind hp ((harmless_byte (.inl rfl)).append (Boundary.harmless_blank hq))
        cases hr : skipSpace r with
        | nil =>
          refine .waiting (fun _ _ _ => ?_) fun b h =>
            (hcomma (skipSpace_eq_nil_iff.mp hr) b h).quiet
          simp [atKey, nextKey, hs, hr, hx, Except.map]
        | cons y r' =>
          obtain ⟨q, hq, -, rfl⟩ := skipSpace_eq_cons_iff.mp hr
          by_cases hy : y = byte '"'
          · subst hy
            have hsplit : p ++ byte ',' :: (q ++ byte '"' :: r') =
                (p ++ byte ',' :: q) ++ byte '"' :: r' := by simp
            rw [hsplit]
            apply (settles_quotedKey isWrong r').behind (fun v hv => (hcomma hq).append hv)
              (fun b hb => harmless_enters (hcomma hq) hb)
            intro t n m hn
            refine ⟨n, m, hn.of_append, ?_⟩
            rw [List.append_assoc, List.cons_append, List.cons_append, atKey_next hp hq]
          · apply settles_malformed
            intro t _ _
            have happend' : skipSpace (q ++ y :: r' ++ t) = y :: (r' ++ t) := skipSpace_append hr t
            rw [atKey, nextKey, happend]
            simp only [hx, Bool.false_eq_true, ↓reduceIte, happend', hy]
            rfl
      · apply settles_malformed
        intro t _ _
        rw [atKey, nextKey, happend]
        simp [hx, hc, Except.map]

/-! ### Records -/

/-- A value of no interest in a record that stays as it is. -/
def passed (r : σ) : Decoder σ :=
  fun limits s => (skip limits.items .value [] s).map fun s => (r, s)

theorem steadyItem_passed (r : σ) : (passed r).SteadyItem := by
  intro nesting s hs
  apply (settles_skip hs).behind_map (w := []) (fun _ => r) (fun _ hv => hv)
    (fun _ hb => ⟨trivial, hb⟩)
  intro t n m hn
  refine ⟨n, m, hn, ?_⟩
  simp only [within, passed, skipRun, frames, List.map_nil, List.nil_append]
  cases skip n .value [] (s ++ t) with
  | error e => rfl
  | ok r => rfl

/-- The value behind the key `name`. -/
def member (fields : List (Field σ)) (r : σ) (name : String) : Decoder σ :=
  match findField fields name with
  | some f => f.read r
  | none => passed r

theorem members_eq {fields : List (Field σ)} (nesting n : Nat) {m : Nat} (hm : 0 < m)
    (isFirst : Bool) (r : σ) (s : List UInt8) : members fields ⟨nesting, n⟩ m isFirst r s =
      atKey isFirst (fun name => (findField fields name).any (·.isRead r)) s >>= fun p =>
        turn nesting r (member fields r)
          (fun r n m => members fields ⟨nesting, n⟩ m false r) p.1 n m p.2 := by
  obtain ⟨m, rfl⟩ : ∃ k, m = k + 1 := ⟨m - 1, by omega⟩
  rw [members, atKey]
  cases nextKey isFirst (fun name => (findField fields name).any (·.isRead r)) s with
  | error e => rfl
  | ok o =>
    cases o with
    | none => rfl
    | some q =>
      obtain ⟨name, s⟩ := q
      simp only [bind, Except.bind, Except.map, turn, thenLoop, member]
      cases findField fields name with
      | some f => rfl
      | none =>
        simp only [passed]
        cases skip n .value [] s with
        | error e => rfl
        | ok r => rfl

theorem SteadyFields.member {fields : List (Field σ)} (hf : SteadyFields fields) (r : σ)
    (name : String) : (member fields r name).SteadyItem := by
  rw [Decoder.member]
  cases hm : findField fields name with
  | some f => exact (hf f (findField_mem hm) r).item
  | none => exact steadyItem_passed r

theorem steadyInside_members {fields : List (Field σ)} (hf : SteadyFields fields) (r : σ) :
    SteadyInside fun limits => members fields limits limits.items true r := by
  intro nesting s hs
  have hloop := settles_loop nesting (fun isFirst r n m => members fields ⟨nesting, n⟩ m isFirst r)
    (fun isFirst r s => settles_atKey isFirst
      (fun name => (findField fields name).any (·.isRead r)) s)
    (fun r name => hf.member r name)
    (fun isFirst r n m s hm => members_eq nesting n hm isFirst r s) hs true r
  exact hloop.diagonal

theorem steady_record {fields : List (Field σ)} {start : σ} {finish : σ → Option α} {mayEnd : Bool}
    (hf : SteadyFields fields) : (record fields start finish mayEnd).Steady := by
  have harray : (container '[' ']' fun limits => ordered mayEnd limits fields true start).Steady :=
    steady_container (c := .array) (steadyInside_ordered hf mayEnd true start)
  have hobject : (container '\x7b' '\x7d' fun limits =>
      members fields limits limits.items true start).Steady :=
    steady_container (c := .object) (steadyInside_members hf start)
  apply Steady.refine
  apply steady_of_peek
  · intro l t
    simp only [container, skipSpace_idem]
  · intro l
    rfl
  · intro nesting b r hb hr
    by_cases hc : b = byte '['
    · subst hc
      apply (harray nesting hr).congr
      intro t n m
      simp [within, skipSpace_cons hb]
    · apply (hobject nesting hr).congr
      intro t n m
      simp [within, skipSpace_cons hb, hc]

theorem Steady.field {d : Decoder β} {name : String} {get : σ → Option β} {put : σ → β → σ}
    (hd : d.Steady) (r : σ) : ((field name get put d).read r).Steady := hd.map _

/-! ### Sums -/

/-- Cases whose values are settled. -/
def SteadyCases (cases : List (String × Case α)) : Prop := ∀ c ∈ cases, c.2.payload.Steady

theorem steadyCases_nil : SteadyCases ([] : List (String × Case α)) := by simp [SteadyCases]

theorem SteadyCases.carrying {name : String} {d : Decoder α} {cases : List (String × Case α)}
    (hd : d.Steady) (h : SteadyCases cases) : SteadyCases ((name, .carrying d) :: cases) :=
  List.forall_mem_cons.mpr ⟨hd, h⟩

theorem steady_bare (a : α) : (Case.bare a).payload.Steady := by
  rw [Case.payload]
  exact steady_null.map _

theorem steadyInside_colon : SteadyInside fun _ => close ':' := by
  intro nesting s hs
  apply (settles_close ':').bind (fun _ hb => hb.toOutside)
  · exact fun _ _ _ _ _ => id
  · rintro _ w r hwr ⟨p, hp, rfl⟩ more
    exact .value () _ r hwr (harmless_behind hp (harmless_byte (.inr rfl))) more

/-- A case behind its name. -/
def behindName (c : Case α) : Decoder α :=
  fun limits s => close ':' s >>= fun p => c.payload limits p.2

theorem steadyInside_caseBody {cases : List (String × Case α)} (hc : SteadyCases cases) :
    (caseBody cases).SteadyInside := by
  apply (steady_string.inside.andThen (f := fun name =>
    (cases.lookup name).elim never behindName) ?_).congr
  · intro limits s
    rw [caseBody]
    cases string limits s with
    | error e => rfl
    | ok p =>
      simp only [bind, Except.bind]
      cases cases.lookup p.1 with
      | none => rfl
      | some c => rfl
  · intro name
    cases hl : cases.lookup name with
    | none => exact steady_never.inside
    | some c =>
      obtain ⟨e, he, rfl⟩ := lookup_mem hl
      exact steadyInside_colon.andThen (f := fun _ => e.2.payload) fun _ => (hc e he).inside

/-- The value of a bare case. -/
def Case.value : Case α → Option α
  | .bare a => some a
  | .carrying _ => none

theorem steady_oneOf {cases : List (String × Case α)} (hc : SteadyCases cases) :
    (oneOf cases).Steady := by
  have hname : (string.refine fun name => (cases.lookup name).bind Case.value).Steady :=
    steady_string.refine _
  apply steady_of_peek
  · intro l t
    simp only [oneOf, skipSpace_idem]
  · intro l
    rfl
  · intro nesting b r hb hr
    by_cases ho : b = byte '\x7b'
    · apply (steady_container (c := .object) (steadyInside_caseBody hc) nesting hr).congr
      intro t n m
      simp only [within, oneOf, List.cons_append, skipSpace_cons hb]
      rw [if_pos ho]
      rfl
    by_cases hq : b = byte '"'
    · apply (hname nesting hr).congr
      intro t n m
      simp only [within, oneOf, Decoder.refine, string, List.cons_append, skipSpace_cons hb]
      rw [if_neg ho, if_pos hq, if_pos hq]
      cases stringText (r ++ t) with
      | error e => rfl
      | ok p =>
        simp only [bind, Except.bind]
        cases cases.lookup p.1 with
        | none => rfl
        | some c => cases c <;> rfl
    · apply settles_malformed
      intro t n m
      simp [within, oneOf, skipSpace_cons hb, ho, hq]

end MacroBridge.Json.Decoder
