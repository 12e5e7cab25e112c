import MacroBridge.Proofs.Json.Members

/-!
What the values of a decoder are like, given how many levels of containers were left to it. Each
combinator has one rule: what it yields follows from what its parts yield.
-/
namespace MacroBridge.Json.Decoder
variable {α β σ : Type}

/-- Whatever a decoder reads with `n` levels left has the property `P n`. -/
def Yields (d : Decoder α) (P : Nat → α → Prop) : Prop :=
  ∀ ⦃limits : Limits⦄ ⦃s r : List UInt8⦄ ⦃a : α⦄, d limits s = .ok (a, r) → P limits.nesting a

variable {d : Decoder α} {P Q : Nat → α → Prop}

theorem Yields.mono (h : d.Yields P) (hpq : ∀ n a, P n a → Q n a) : d.Yields Q :=
  fun _ _ _ _ hd => hpq _ _ (h hd)

theorem yields_any (d : Decoder α) : d.Yields fun _ _ => True := fun _ _ _ _ _ => trivial

theorem yields_never (P : Nat → α → Prop) : (never : Decoder α).Yields P := by
  intro limits s r a h
  simp [never] at h

theorem Yields.map {f : α → β} {P : Nat → β → Prop} (h : d.Yields fun n a => P n (f a)) :
    (d.map f).Yields P := by
  intro limits s r b hd
  obtain ⟨a, ha, rfl⟩ := map_eq_ok_iff.mp hd
  exact h ha

theorem Yields.option {P : Nat → Option α → Prop} (hnone : ∀ n, P n none)
    (h : d.Yields fun n a => P n (some a)) : (option d).Yields P := by
  intro limits s r o hd
  obtain ⟨rfl, -⟩ | ⟨b, s', a, -, -, ha, rfl⟩ := option_eq_ok_iff.mp hd
  · exact hnone _
  · exact h ha

/-- What a container holds is read with one level less. -/
theorem Yields.container {first last : Char} (h : d.Yields fun n a => P (n + 1) a) :
    (container first last d).Yields P := by
  intro limits s r a hd
  obtain ⟨n, s', s'', hn, -, hbody, -⟩ := container_eq_ok_iff.mp hd
  rw [hn]
  exact h hbody

/-! ### Arrays -/

theorem Yields.elements (h : d.Yields P) {limits : Limits} {items : Nat} {isFirst : Bool}
    {done as : List α} {s r : List UInt8} (hdone : ∀ a ∈ done, P limits.nesting a)
    (hd : Decoder.elements d limits items isFirst done s = .ok (as, r)) :
    ∀ a ∈ as, P limits.nesting a := by
  induction items generalizing isFirst done s with
  | zero => simp [Decoder.elements] at hd
  | succ items ih =>
    obtain ⟨-, rfl, -⟩ | ⟨s', a, s'', -, ha, hrest⟩ := elements_succ_eq_ok_iff.mp hd
    · simpa using hdone
    · exact ih (List.forall_mem_cons.mpr ⟨h ha, hdone⟩) hrest

theorem Yields.list {Q : Nat → List α → Prop} (h : d.Yields P)
    (hq : ∀ n as, (∀ a ∈ as, P n a) → Q (n + 1) as) : (list d).Yields Q := by
  have hbody : Decoder.Yields (fun limits s => Decoder.elements d limits limits.items true [] s)
      fun n as => Q (n + 1) as := fun _ _ _ _ hd => hq _ _ (h.elements (by simp) hd)
  exact hbody.container

/-! ### Records -/

/-- A field that keeps a property of what has been read so far. -/
def Field.Keeps (f : Field σ) (I : Nat → σ → Prop) : Prop :=
  ∀ ⦃limits : Limits⦄ ⦃s z : List UInt8⦄ ⦃r r' : σ⦄, f.read r limits s = .ok (r', z) →
    I limits.nesting r → I limits.nesting r'

variable {I J : Nat → σ → Prop} {fields : List (Field σ)} {f : Field σ}

theorem Field.Keeps.and (hi : f.Keeps I) (hj : f.Keeps J) : f.Keeps fun n r => I n r ∧ J n r :=
  fun _ _ _ _ _ hd hr => ⟨hi hd hr.1, hj hd hr.2⟩

/-- What `get` finds among what has been read so far has the property `P`. -/
def Stored (get : σ → Option α) (P : Nat → α → Prop) (n : Nat) (r : σ) : Prop :=
  ∀ a, get r = some a → P n a

variable {name : String} {get : σ → Option α} {put : σ → α → σ}

/-- A field stores what its decoder yields. -/
theorem keeps_stored (h : d.Yields P) (hput : ∀ r a, get (put r a) = some a) :
    (field name get put d).Keeps (Stored get P) := by
  intro limits s z r r' hd _ b hb
  obtain ⟨a, ha, rfl⟩ := map_eq_ok_iff.mp hd
  rw [hput] at hb
  exact Option.some.inj hb ▸ h ha

/-- A field leaves alone what others have stored. -/
theorem keeps_beside {other : σ → Option β} {P : Nat → β → Prop}
    (hput : ∀ r a, other (put r a) = other r) : (field name get put d).Keeps (Stored other P) := by
  intro limits s z r r' hd hr b hb
  obtain ⟨a, -, rfl⟩ := map_eq_ok_iff.mp hd
  rw [hput] at hb
  exact hr b hb

theorem ordered_keeps (hf : ∀ f ∈ fields, f.Keeps I) {mayEnd : Bool} {limits : Limits}
    {isFirst : Bool} {s z : List UInt8} {r r' : σ}
    (hd : ordered mayEnd limits fields isFirst r s = .ok (r', z)) (hr : I limits.nesting r) :
    I limits.nesting r' := by
  induction fields generalizing isFirst r s with
  | nil =>
    simp only [ordered, Except.ok.injEq, Prod.mk.injEq] at hd
    exact hd.1 ▸ hr
  | cons f fields ih =>
    obtain ⟨-, -, rfl, -⟩ | ⟨s', r'', s'', -, hread, hrest⟩ := ordered_cons_eq_ok_iff.mp hd
    · exact hr
    · exact ih (fun g hg => hf g (by simp [hg])) hrest (hf f (by simp) hread hr)

theorem members_keeps (hf : ∀ f ∈ fields, f.Keeps I) {limits : Limits} {items : Nat}
    {isFirst : Bool} {s z : List UInt8} {r r' : σ}
    (hd : members fields limits items isFirst r s = .ok (r', z)) (hr : I limits.nesting r) :
    I limits.nesting r' := by
  induction items generalizing isFirst r s with
  | zero => simp [members] at hd
  | succ items ih =>
    obtain ⟨-, rfl, -⟩ | ⟨name, s', -, ⟨f, r'', s'', hm, hread, hrest⟩ | ⟨s'', -, -, hrest⟩⟩ :=
      members_succ_eq_ok_iff.mp hd
    · exact hr
    · exact ih hrest (hf f (findField_mem hm) hread hr)
    -- a value of no interest changes nothing, however deep it is
    · exact ih hrest hr

/-- An array or object of fields yields what can be made of any state that the fields keep to. -/
theorem yields_record {start : σ} {finish : σ → Option α} {mayEnd : Bool} (hstart : ∀ n, I n start)
    (hf : ∀ f ∈ fields, f.Keeps I) (hfinish : ∀ n x a, I n x → finish x = some a → P (n + 1) a) :
    (record fields start finish mayEnd).Yields P := by
  intro limits s r a hd
  obtain ⟨x, hx, harray | hobject⟩ := record_eq_ok_iff.mp hd
  · refine Yields.container (P := fun n x => ∀ a, finish x = some a → P n a) ?_ harray a hx
    exact fun _ _ _ _ hd a ha => hfinish _ _ _ (ordered_keeps hf hd (hstart _)) ha
  · refine Yields.container (P := fun n x => ∀ a, finish x = some a → P n a) ?_ hobject a hx
    exact fun _ _ _ _ hd a ha => hfinish _ _ _ (members_keeps hf hd (hstart _)) ha

/-- A record of one field yields what can be made of the values of the field. -/
theorem yields_single {d : Decoder β} {make : β → α} (h : d.Yields fun n b => P (n + 1) (make b)) :
    (record [field name id (fun _ b => some b) d] none fun r => do return make (← r)).Yields
    P := by
  refine yields_record (I := Stored id fun n b => P (n + 1) (make b)) (fun n b hb => by simp at hb)
    (List.forall_mem_singleton.mpr (keeps_stored h fun _ _ => rfl)) fun n r a hr ha => ?_
  obtain ⟨b, hb, ha⟩ := Option.bind_eq_some_iff.mp ha
  exact Option.some.inj ha ▸ hr b hb

/-! ### Sums -/

/-- A case of a sum that yields values with a property: a value of its own is read inside one
container more, a bare name may stand alone. -/
inductive Case.Yields (P : Nat → α → Prop) : Case α → Prop
  | bare {a : α} (h : ∀ n, P n a) : Case.Yields P (.bare a)
  | carrying {d : Decoder α} (h : d.Yields fun n a => P (n + 1) a) : Case.Yields P (.carrying d)

theorem Case.Yields.payload {c : Case α} (h : c.Yields P) :
    c.payload.Yields fun n a => P (n + 1) a := by
  cases h with
  | bare h => exact Yields.map (P := fun n => P (n + 1)) ((yields_any null).mono fun _ _ _ => h _)
  | carrying h => exact h

/-- Cases that all yield values with a property. -/
def CasesYield (P : Nat → α → Prop) (cases : List (String × Case α)) : Prop :=
  ∀ c ∈ cases, c.2.Yields P

theorem casesYield_nil (P : Nat → α → Prop) : CasesYield P [] := by simp [CasesYield]

theorem CasesYield.carrying {name : String} {cases : List (String × Case α)}
    (h : d.Yields fun n a => P (n + 1) a) (hs : CasesYield P cases) :
    CasesYield P ((name, .carrying d) :: cases) := List.forall_mem_cons.mpr ⟨.carrying h, hs⟩

theorem yields_oneOf {cases : List (String × Case α)} (h : CasesYield P cases) :
    (oneOf cases).Yields P := by
  have hlookup {name : String} {c : Case α} (hl : cases.lookup name = some c) : c.Yields P := by
    obtain ⟨e, he, rfl⟩ := lookup_mem hl
    exact h e he
  intro limits s r a hd
  obtain hobject | ⟨t, name, -, -, hl⟩ := oneOf_eq_ok_iff.mp hd
  · refine Yields.container (P := P) ?_ hobject
    intro limits s r a hbody
    obtain ⟨t, name, k, c, s', -, -, hl, -, hvalue⟩ := caseBody_eq_ok_iff.mp hbody
    exact (hlookup hl).payload hvalue
  · cases hlookup hl with
    | bare h => exact h _

end MacroBridge.Json.Decoder
