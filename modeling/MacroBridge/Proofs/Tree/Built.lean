import MacroBridge.Proofs.Tree.Flatten

/-!
Runs of the builder as derivations: at each token it opens a group, stops, or takes the leaves of
that token. A derivation says where the builder stops and what it has built by then, without its
bound and the trees behind it.
-/
namespace MacroBridge
namespace Builder

/-- From a cursor and a next id on, within the open groups of `stack`, the innermost first: the
trees up to the token that closes the innermost group or to the end, and the cursor and the next id
there. -/
inductive Built : (stack : List Bracket) → Cursor → TokenId → List TokenTree → Cursor →
    TokenId → Prop
  | stop {stack : List Bracket} {c : Cursor} {next : TokenId}
      (h : c.tokens ≠ [] → c.current = closerOf stack) : Built stack c next [] c next
  | group {stack : List Bracket} {c mid stop : Cursor} {next between last : TokenId}
      {children trees : List TokenTree} {t : Token} {ts : List Token} {b : Bracket}
      (ht : c.tokens = t :: ts) (hk : t.kind = .opening b)
      (inside : Built (b :: stack) c.bump (next + 1) children mid between)
      (behind : Built stack mid.bump between trees stop last) :
      Built stack c next (.group (some ⟨next, b⟩) children :: trees) stop last
  | leaves {stack : List Bracket} {c stop : Cursor} {next last : TokenId} {trees : List TokenTree}
      {t : Token} {ts : List Token} (ht : c.tokens = t :: ts) (ho : ∀ b, t.kind ≠ .opening b)
      (hc : closerOf stack ≠ some t.kind)
      (behind : Built stack (leavesAt t.kind c next).2.bump
        (next + (leavesAt t.kind c next).1.length.toUInt32) trees stop last) :
      Built stack c next ((leavesAt t.kind c next).1.map .leaf ++ trees) stop last

theorem exists_built (bound : Nat) (stack : List Bracket) (close : Option Kind) (c : Cursor)
    (next : TokenId) (done : List TokenTree) (h : c.tokens.length ≤ bound)
    (hclose : close = closerOf stack) :
    ∃ trees, (grow bound close c next done h).trees = done.reverse ++ trees ∧
      Built stack c next trees (grow bound close c next done h).cursor
        (grow bound close c next done h).next := by
  fun_induction grow bound close c next done h generalizing stack with
  | case1 bound close c next done h hn => exact ⟨[], by simp, .stop fun hne => absurd hn hne⟩
  | case2 bound c next done h t ts ht hne =>
    exact ⟨[], by simp, .stop fun _ => (Cursor.current_eq ht).trans hclose⟩
  | case3 bound close c next done h t ts ht hne hopen b hk inner hle hlt ih₃ ih₂ ih₁ =>
    obtain ⟨children, hchildren, hin⟩ := ih₂ (b :: stack) rfl
    obtain ⟨trees, htrees, hbehind⟩ := ih₁ stack hclose
    rw [List.reverse_nil, List.nil_append] at hchildren
    refine ⟨.group (some ⟨next, b⟩) inner.trees :: trees, by rw [htrees]; simp,
      .group ht hk ?_ hbehind⟩
    rw [hchildren]
    exact hin
  | case4 bound close c next done h t ts ht hne hopen ho leaves hle hlt ih =>
    obtain ⟨trees, htrees, hbehind⟩ := ih stack hclose
    refine ⟨leaves.1.map .leaf ++ trees, ?_, .leaves ht ho (hclose ▸ hopen) hbehind⟩
    rw [htrees]
    simp [← List.map_reverse]

variable {stack : List Bracket} {c stop : Cursor} {next last : TokenId} {trees : List TokenTree}

/-- The builder stops on a token that is not trivia, and only on the one that closes the innermost
group. -/
theorem Built.ready (h : Built stack c next trees stop last) (hc : c.Ready) :
    stop.Ready ∧ (stop.tokens ≠ [] → stop.current = closerOf stack) := by
  induction h with
  | stop h => exact ⟨hc, h⟩
  | group ht hk _ _ ih₁ ih₂ => exact ih₂ (ih₁ hc.bump).1.bump
  | @leaves stack c stop next last trees t ts ht ho hclose _ ih =>
    obtain ⟨taken, htakes⟩ := exists_takes hc ht ho next
    exact ih htakes.ready

/-- All tokens ahead where the builder stops were ahead where it began. -/
theorem Built.suffix (h : Built stack c next trees stop last) : stop.tokens <:+ c.tokens := by
  induction h with
  | stop => exact List.suffix_rfl
  | @group stack c mid stop next between last children trees t ts b ht hk hin hbehind ih₁ ih₂ =>
    exact (ih₂.trans mid.bump_suffix).trans (ih₁.trans c.bump_suffix)
  | @leaves stack c stop next last trees t ts ht ho hclose hbehind ih =>
    exact (ih.trans (Cursor.bump_suffix _)).trans (leavesAt_suffix t.kind c next)

/-! ### What the builder does at a token -/

theorem closerOf_ne_opening {k : Kind} (h : closerOf stack = some k) (b : Bracket) :
    k ≠ .opening b := by
  obtain ⟨b', -, rfl⟩ := Option.map_eq_some_iff.mp h
  simp

theorem closerOf_eq {t : Token} {ts : List Token} (ht : c.tokens = t :: ts)
    (h : c.tokens ≠ [] → c.current = closerOf stack) : closerOf stack = some t.kind :=
  (h (by simp [ht])).symm.trans (Cursor.current_eq ht)

theorem Built.of_closer (h : Built stack c next trees stop last)
    (hc : c.tokens ≠ [] → c.current = closerOf stack) : trees = [] ∧ stop = c ∧ last = next := by
  cases h with
  | stop => exact ⟨rfl, rfl, rfl⟩
  | group ht hk => exact absurd hk (closerOf_ne_opening (closerOf_eq ht hc) _)
  | leaves ht _ hclose => exact absurd (closerOf_eq ht hc) hclose

theorem Built.of_opening {t : Token} {ts : List Token} {b : Bracket}
    (h : Built stack c next trees stop last) (ht : c.tokens = t :: ts) (hk : t.kind = .opening b) :
    ∃ (children later : List TokenTree) (mid : Cursor) (between : TokenId),
      trees = .group (some ⟨next, b⟩) children :: later ∧
      Built (b :: stack) c.bump (next + 1) children mid between ∧
      Built stack mid.bump between later stop last := by
  cases h with
  | stop h => exact absurd hk (closerOf_ne_opening (closerOf_eq ht h) b)
  | group hu hk' hin hbehind =>
    obtain ⟨rfl, -⟩ := List.cons.inj (ht.symm.trans hu)
    obtain rfl := Kind.opening.inj (hk.symm.trans hk')
    exact ⟨_, _, _, _, rfl, hin, hbehind⟩
  | leaves hu ho =>
    obtain ⟨rfl, -⟩ := List.cons.inj (ht.symm.trans hu)
    exact absurd hk (ho b)

theorem Built.of_stays {t : Token} {ts : List Token} (h : Built stack c next trees stop last)
    (ht : c.tokens = t :: ts) (hstays : t.Stays stack) :
    ∃ later, trees = (leavesAt t.kind c next).1.map .leaf ++ later ∧
      Built stack (leavesAt t.kind c next).2.bump
        (next + (leavesAt t.kind c next).1.length.toUInt32) later stop
        last := by
  cases h with
  | stop h => exact absurd (closerOf_eq ht h) hstays.2
  | group hu hk =>
    obtain ⟨rfl, -⟩ := List.cons.inj (ht.symm.trans hu)
    exact absurd hk (hstays.1 _)
  | leaves hu _ _ hbehind =>
    obtain ⟨rfl, -⟩ := List.cons.inj (ht.symm.trans hu)
    exact ⟨_, rfl, hbehind⟩

/-- What the builder builds, and where it stops, is determined by where it begins. -/
theorem Built.unique {trees' : List TokenTree} {stop' : Cursor} {last' : TokenId}
    (h : Built stack c next trees stop last) (h' : Built stack c next trees' stop' last') :
    trees = trees' ∧ stop = stop' ∧ last = last' := by
  induction h generalizing trees' stop' last' with
  | stop h =>
    obtain ⟨rfl, rfl, rfl⟩ := h'.of_closer h
    exact ⟨rfl, rfl, rfl⟩
  | group ht hk _ _ ih₁ ih₂ =>
    obtain ⟨children, later, mid, between, rfl, hin, hbehind⟩ := h'.of_opening ht hk
    obtain ⟨rfl, rfl, rfl⟩ := ih₁ hin
    obtain ⟨rfl, rfl, rfl⟩ := ih₂ hbehind
    exact ⟨rfl, rfl, rfl⟩
  | leaves ht ho hc _ ih =>
    obtain ⟨later, rfl, hbehind⟩ := h'.of_stays ht ⟨ho, hc⟩
    obtain ⟨rfl, rfl, rfl⟩ := ih hbehind
    exact ⟨rfl, rfl, rfl⟩

end Builder

open Builder

/-- The tree of the tokens from a cursor on is the root over trees that are built up to the end. -/
theorem Cursor.Ready.exists_built {c : Cursor} (hc : c.Ready) :
    ∃ trees stop last, Built [] c 0 trees stop last ∧
      stop.tokens = [] ∧ ∀ options, c.parse options = (rootOf options trees, stop) := by
  obtain ⟨trees, htrees, hbuilt⟩ :=
    Builder.exists_built c.tokens.length [] none c 0 [] (Nat.le_refl _) rfl
  refine ⟨trees, _, _, hbuilt, ?_, fun options => ?_⟩
  · by_contra hne
    obtain ⟨t, ts, ht⟩ := List.exists_cons_of_ne_nil hne
    have hcur := (hbuilt.ready hc).2 hne
    simp [Cursor.current, ht, closerOf] at hcur
  · rw [Cursor.parse]
    simp only [htrees, List.reverse_nil, List.nil_append]

theorem Subtree.exists_built_ofSource (source : List Char) : ∃ trees stop last,
    Built [] (Cursor.ofSource source) 0 trees stop last ∧ stop.tokens = [] ∧
      ∀ options, Subtree.ofSource source options = rootOf options trees := by
  obtain ⟨trees, stop, last, hbuilt, hstop, hparse⟩ := (Cursor.ofSource_spec source).1.exists_built
  exact ⟨trees, stop, last, hbuilt, hstop, fun options => by rw [Subtree.ofSource, hparse]⟩

end MacroBridge
