import MacroBridge.Proofs.Token.Linked
import MacroBridge.Proofs.Tree.Built

/-!
The builder sees trivia only as gaps between tokens. It builds the same from two cursors that show
the same linked tokens, and where one of them shows more behind those, it goes on with what is
more.
-/
namespace MacroBridge
open Token (atToken linked linked_cons linked_trivia exists_of_atToken exists_linked_append
  map_fst_linked)

namespace Cursor
variable {c c' : Cursor} {t : Token} {ts : List Token} {later : List (Token × Bool)}

theorem linked_skipTrivia (c : Cursor) : linked c.skipTrivia.tokens = linked c.tokens := by
  fun_induction skipTrivia c with
  | case1 c hc ih =>
    obtain ⟨t, ts, ht⟩ := List.exists_cons_of_ne_nil (tokens_ne_nil_of_atTrivia hc)
    rw [ih, (dropFirst_cons ht).1, ht, linked_trivia (by rwa [← atTrivia_eq ht])]
  | case2 c hc => rfl

theorem linked_ofSource (source : List Char) :
    linked (ofSource source).tokens = linked (tokenize source) := by
  rw [ofSource_eq, linked_skipTrivia, tokens_ahead]

theorem linked_bump (ht : c.tokens = t :: ts) : linked c.bump.tokens = linked ts := by
  rw [bump_cons ht, linked_skipTrivia, (dropFirst_cons ht).1]

theorem Ready.kind_eq (h : c.Ready) (ht : c.tokens = t :: ts) : t.kind.isTrivia = false :=
  (atTrivia_eq ht).symm.trans h.atTrivia

theorem Ready.linked_tokens (h : c.Ready) (ht : c.tokens = t :: ts) :
    linked c.tokens = (t, atToken ts) :: linked ts := by
  rw [ht, linked_cons (h.kind_eq ht)]

/-- The second cursor shows the linked tokens that the first shows, and `later` behind them. -/
structure Prolonged (later : List (Token × Bool)) (c c' : Cursor) : Prop where
  left : c.Ready
  right : c'.Ready
  linked_eq : linked c'.tokens = linked c.tokens ++ later

theorem Prolonged.tokens_nil (h : Prolonged later c c') (hc : c.tokens = [])
    (hlater : later = []) : c'.tokens = [] := by
  cases ht : c'.tokens with
  | nil => rfl
  | cons t ts =>
    have heq := h.linked_eq
    rw [h.right.linked_tokens ht, hc, hlater] at heq
    simp at heq

/-- Both stand on the same token, and see trivia behind it or not. -/
theorem Prolonged.exists_tokens (h : Prolonged later c c') (ht : c.tokens = t :: ts) :
    ∃ ts', c'.tokens = t :: ts' ∧ atToken ts' = atToken ts ∧ linked ts' = linked ts ++ later := by
  have heq := h.linked_eq
  rw [h.left.linked_tokens ht, List.cons_append] at heq
  cases ht' : c'.tokens with
  | nil => simp [ht'] at heq
  | cons t' ts' =>
    rw [h.right.linked_tokens ht'] at heq
    obtain ⟨hhead, htail⟩ := List.cons.inj heq
    obtain ⟨rfl, hnext⟩ := Prod.mk.inj hhead
    exact ⟨ts', rfl, hnext, htail⟩

theorem Prolonged.bump (h : Prolonged later c c') (hend : c.tokens = [] → later = []) :
    Prolonged later c.bump c'.bump := by
  cases ht : c.tokens with
  | nil => rwa [bump_nil ht, bump_nil (h.tokens_nil ht (hend ht))]
  | cons t ts =>
    obtain ⟨ts', ht', -, heq⟩ := h.exists_tokens ht
    exact ⟨h.left.bump, h.right.bump, by rw [linked_bump ht, linked_bump ht', heq]⟩

theorem Prolonged.current_eq (h : Prolonged later c c') (hend : c.tokens = [] → later = []) :
    c'.current = c.current := by
  cases ht : c.tokens with
  | nil => rw [Cursor.current, Cursor.current, ht, h.tokens_nil ht (hend ht)]
  | cons t ts =>
    obtain ⟨ts', ht', -⟩ := h.exists_tokens ht
    rw [Cursor.current_eq ht, Cursor.current_eq ht']

theorem lookahead_one (ht : c.tokens = t :: ts) : c.lookahead 1 = ts.head?.map Token.kind := by
  rw [List.head?_eq_getElem?, lookahead, ht, List.getElem?_cons_succ]

/-- From both cursors the same number with a point is read. -/
theorem Prolonged.fraction (h : Prolonged later c c') (hc : c.tokens ≠ []) :
    Fraction.length c'.rest = Fraction.length c.rest := by
  obtain ⟨t, ts, ht⟩ := List.exists_cons_of_ne_nil hc
  obtain ⟨ts', ht', -⟩ := h.exists_tokens ht
  have hat {d : Cursor} {us : List Token} (hd : d.Ready) (hus : d.tokens = t :: us) :
      atToken (tokenize d.rest) = true := by
    rw [← hd.tokens_eq, hus, Token.atToken_cons, hd.kind_eq hus]
    rfl
  obtain ⟨o, ho, hgap⟩ := exists_reach (hat h.left ht) later
  obtain ⟨o', ho', hgap'⟩ := exists_reach (hat h.right ht') []
  rw [← h.left.tokens_eq] at ho
  rw [← h.right.tokens_eq, List.append_nil, h.linked_eq] at ho'
  rw [ho, ho']
  exact Fraction.length_congr hgap' hgap

end Cursor

open Cursor (Prolonged)

/-- Of two first parts of a list of tokens with texts of one length, neither is longer than a last
token that is not empty allows. -/
theorem eq_of_prefix_joined {a b : List Token} {u : Token} (h : a <+: b ++ [u]) (hu : u.text ≠ [])
    (hlen : Utf8.byteLength (Token.sourceOf a) = Utf8.byteLength (Token.sourceOf (b ++ [u]))) :
    a = b ++ [u] := by
  rcases List.prefix_concat_iff.mp h with rfl | ⟨x, rfl⟩
  · rfl
  · have hpos := Utf8.byteLength_pos hu
    simp only [Token.sourceOf, List.flatMap_append, List.flatMap_singleton,
      Utf8.byteLength_append] at hlen
    omega

namespace Builder
variable {c c' : Cursor} {t : Token} {ts : List Token} {later : List (Token × Bool)}

theorem lastSpacing_of_gap (ht : c.tokens = t :: ts) (h : atToken ts = false) :
    lastSpacing c = .alone := by
  unfold lastSpacing
  rw [Cursor.lookahead_one ht]
  cases ts with
  | nil => rfl
  | cons u us =>
    have hu : u.kind.isTrivia = true := by simpa using h
    simp [hu]

theorem lastSpacing_prolonged (h : Prolonged later c c') (ht : c.tokens = t :: ts) :
    lastSpacing c' = lastSpacing c := by
  obtain ⟨ts', ht', hnext, heq⟩ := h.exists_tokens ht
  cases hat : atToken ts with
  | false => rw [lastSpacing_of_gap ht hat, lastSpacing_of_gap ht' (hnext.trans hat)]
  | true =>
    obtain ⟨u, us, rfl, hu⟩ := exists_of_atToken hat
    obtain ⟨u', us', rfl, hu'⟩ := exists_of_atToken (hnext.trans hat)
    rw [linked_cons hu, linked_cons hu', List.cons_append] at heq
    have hsame : u' = u := (Prod.mk.inj (List.cons.inj heq).1).1
    simp only [lastSpacing, Cursor.lookahead_one ht, Cursor.lookahead_one ht',
      List.head?_cons, hsame]

/-- A number with a point gives the same literal from both cursors, which then stand behind the
same tokens. -/
theorem fraction_prolonged (h : Prolonged later c c') (ht : c.tokens = t :: ts)
    (hk : t.kind = .intNumber) {n : Nat} (hn : Fraction.length c.rest = some n) :
    c'.rest.take n = c.rest.take n ∧
      Prolonged later (c.advanceTo (c.offset + n)).bump (c'.advanceTo (c'.offset + n)).bump := by
  obtain ⟨ts', ht', -, heq⟩ := h.exists_tokens ht
  have hn' : Fraction.length c'.rest = some n := (h.fraction (by simp [ht])).trans hn
  obtain ⟨used, last, left, rfl, hcovers, hready, hland⟩ := h.left.advanceTo_fraction ht hk hn
  obtain ⟨used', last', left', rfl, hcovers', hready', hland'⟩ :=
    h.right.advanceTo_fraction ht' hk hn'
  have hnone : ∀ u ∈ t :: used ++ [last], u.kind.isTrivia = false :=
    fun u hu => (hcovers.plain u hu).1
  have hnone' : ∀ u ∈ t :: used' ++ [last'], u.kind.isTrivia = false :=
    fun u hu => (hcovers'.plain u hu).1
  obtain ⟨ls, hls, hfirst⟩ := exists_linked_append hnone left
  obtain ⟨ls', hls', hfirst'⟩ := exists_linked_append hnone' left'
  have hall : ls' ++ linked left' = ls ++ (linked left ++ later) := by
    have hsplit : c.tokens = t :: used ++ [last] ++ left := by simp [ht]
    have hsplit' : c'.tokens = t :: used' ++ [last'] ++ left' := by simp [ht']
    rw [← hls', ← hsplit', h.linked_eq, hsplit, hls, List.append_assoc]
  -- Both numbers are made of first parts of the same tokens, with as many bytes.
  have hsame : t :: used ++ [last] = t :: used' ++ [last'] := by
    have hbytes : Utf8.byteLength (Token.sourceOf (t :: used ++ [last])) = n := by
      rw [hcovers.text, hcovers.bytes]
    have hbytes' : Utf8.byteLength (Token.sourceOf (t :: used' ++ [last'])) = n := by
      rw [hcovers'.text, hcovers'.bytes]
    have hmap := congrArg (List.map Prod.fst) hall
    rw [List.map_append, List.map_append, hfirst, hfirst'] at hmap
    rcases List.prefix_or_prefix_of_prefix (hmap ▸ List.prefix_append _ _)
      (List.prefix_append _ _) with hpre | hpre
    · exact (eq_of_prefix_joined hpre hcovers.last_ne_nil (hbytes'.trans hbytes.symm)).symm
    · exact eq_of_prefix_joined hpre hcovers'.last_ne_nil (hbytes.trans hbytes'.symm)
  refine ⟨by rw [← hcovers.text, ← hcovers'.text, hsame], hready.bump, hready'.bump, ?_⟩
  have hlen : ls'.length = ls.length := by
    simpa using congrArg List.length (hfirst'.trans (hsame.symm.trans hfirst.symm))
  rw [Cursor.linked_bump hland, Cursor.linked_bump hland', (List.append_inj hall hlen).2]

/-- A token that opens no group gives the same leaves from both cursors. -/
theorem leavesAt_prolonged (h : Prolonged later c c') (ht : c.tokens = t :: ts) (next : TokenId) :
    (leavesAt t.kind c' next).1 = (leavesAt t.kind c next).1 ∧
      Prolonged later (leavesAt t.kind c next).2.bump (leavesAt t.kind c' next).2.bump := by
  obtain ⟨ts', ht', -⟩ := h.exists_tokens ht
  have hbump : Prolonged later c.bump c'.bump := h.bump fun hnil => by simp [ht] at hnil
  have htext : c'.currentText = c.currentText := by
    rw [Cursor.currentText_eq ht, Cursor.currentText_eq ht']
  by_cases hint : t.kind = .intNumber
  · have hsame := h.fraction (by simp [ht])
    cases hn : Fraction.length c.rest with
    | none =>
      rw [hint, leavesAt_integer hn, leavesAt_integer (hsame.trans hn), htext]
      exact ⟨rfl, hbump⟩
    | some n =>
      obtain ⟨htake, hbehind⟩ := fraction_prolonged h ht hint hn
      obtain ⟨used, last, left, -, hcovers, -⟩ := h.left.advanceTo_fraction ht hint hn
      have hlong : c.currentText.length < n := Cursor.currentText_eq ht ▸ hcovers.length_lt
      rw [hint, leavesAt_fraction hn hlong,
        leavesAt_fraction (hsame.trans hn) (htext ▸ hlong), htake]
      exact ⟨rfl, hbehind⟩
  rw [leavesAt_stays hint, leavesAt_stays hint]
  refine ⟨?_, hbump⟩
  cases hl : t.kind.isLiteral with
  | true => rw [leavesAt_literal hl hint, leavesAt_literal hl hint, htext]
  | false =>
  cases hi : t.kind.isIdent with
  | true => rw [leavesAt_ident hi, leavesAt_ident hi, htext]
  | false =>
  by_cases hlife : t.kind = .lifetime
  · rw [hlife, leavesAt_lifetime, leavesAt_lifetime, htext]
  · rw [leavesAt_puncts hl hi hlife, leavesAt_puncts hl hi hlife, htext,
      lastSpacing_prolonged h ht]

/-! ### Going on behind what is built -/

variable {stack : List Bracket} {stop : Cursor} {next last : TokenId}
  {trees : List TokenTree} {b : Bracket}

theorem openAfter_opening (hc : c.Ready) (ht : c.tokens = t :: ts) (hk : t.kind = .opening b)
    (stack : List Bracket) :
    openAfter stack (Token.significant c.tokens) =
      openAfter (b :: stack) (Token.significant c.bump.tokens) := by
  rw [hc.significant_tokens ht, ← hc.significant_bump ht, openAfter_cons, openBehind, hk]

theorem openAfter_closing (hc : c.Ready) (hcur : c.current = closerOf (b :: stack)) :
    openAfter (b :: stack) (Token.significant c.tokens) =
      openAfter stack (Token.significant c.bump.tokens) := by
  obtain ⟨u, us, hu, huk⟩ := Cursor.exists_tokens_of_current hcur
  have hpop : openBehind (b :: stack) u = stack := by simp [openBehind, huk]
  rw [hc.significant_tokens hu, ← hc.significant_bump hu, openAfter_cons, hpop]

/-- What is open behind the tokens ahead is what is open behind those ahead of the stop. Where that
is the end, groups that have been opened on the way may be open still. -/
theorem Built.openAfter_eq (h : Built stack c next trees stop last) (hc : c.Ready) :
    ∃ opened, openAfter stack (Token.significant c.tokens) =
        openAfter (opened ++ stack) (Token.significant stop.tokens) ∧
        (stop.tokens ≠ [] → opened = []) := by
  induction h with
  | stop => exact ⟨[], rfl, fun _ => rfl⟩
  | @group stack c mid stop next between last children trees t ts b ht hk hin hbehind ih₁ ih₂ =>
    obtain ⟨inside, hinside, hclosed⟩ := ih₁ hc.bump
    obtain ⟨hmid, hcloses⟩ := hin.ready hc.bump
    obtain ⟨opened, hopened, hend⟩ := ih₂ hmid.bump
    rw [openAfter_opening hc ht hk, hinside]
    cases hu : mid.tokens with
    | nil =>
      have hstop : stop.tokens = [] := by
        have hsuffix := hbehind.suffix
        rwa [Cursor.bump_nil hu, hu, List.suffix_nil] at hsuffix
      exact ⟨inside ++ [b],
        by rw [hstop, List.append_assoc, List.singleton_append], fun hne => absurd hstop hne⟩
    | cons u us =>
      have hne : mid.tokens ≠ [] := by simp [hu]
      obtain rfl := hclosed hne
      refine ⟨opened, ?_, hend⟩
      rw [← hu, List.nil_append, openAfter_closing hmid (hcloses hne), hopened]
  | @leaves stack c stop next last trees t ts ht ho hclose hbehind ih =>
    obtain ⟨taken, htakes⟩ := exists_takes hc ht ho next
    obtain ⟨opened, hopened, hend⟩ := ih htakes.ready
    have hstays := htakes.stays stack (by simpa [Cursor.current, ht] using hclose)
    exact ⟨opened,
      by rw [htakes.tokens, openAfter_append, MacroBridge.openAfter_eq hstays, hopened], hend⟩

/-- From a cursor that shows more, all that is built from the first is built, and then what the
rest gives, as long as no group is open where the first cursor sees the end. -/
theorem Built.prolong (h : Built stack c next trees stop last) (hp : Prolonged later c c')
    (hopen : later = [] ∨ openAfter stack (Token.significant c.tokens) = []) :
    ∃ stop', Prolonged later stop stop' ∧ ∀ more stop₂ last₂,
      Built stack stop' last more stop₂ last₂ →
      Built stack c' next (trees ++ more) stop₂ last₂ := by
  induction h generalizing c' with
  | stop => exact ⟨c', hp, fun more stop₂ last₂ hmore => hmore⟩
  | @group stack c mid stop next between last children trees t ts b ht hk hin hbehind ih₁ ih₂ =>
    obtain ⟨ts', ht', -⟩ := hp.exists_tokens ht
    rw [openAfter_opening hp.left ht hk] at hopen
    obtain ⟨mid', hmid, hinside⟩ := ih₁ (hp.bump fun hnil => by simp [ht] at hnil) hopen
    obtain ⟨-, hcloses⟩ := hin.ready hp.left.bump
    obtain ⟨opened, hopened, hclosed⟩ := hin.openAfter_eq hp.left.bump
    -- Only the end of what both cursors show could leave the group open.
    have hend : mid.tokens = [] → later = [] := by
      intro hnil
      refine hopen.resolve_right fun hnone => ?_
      rw [hopened, hnil] at hnone
      simp [Token.significant] at hnone
    have hstop : Built (b :: stack) mid' between [] mid' between := by
      refine .stop fun hne => ?_
      rw [hmid.current_eq hend]
      exact hcloses fun hnil => hne (hmid.tokens_nil hnil (hend hnil))
    have hchildren := hinside _ _ _ hstop
    rw [List.append_nil] at hchildren
    have hrest : later = [] ∨ openAfter stack (Token.significant mid.bump.tokens) = [] := by
      cases hu : mid.tokens with
      | nil => exact .inl (hend hu)
      | cons u us =>
        have hne : mid.tokens ≠ [] := by simp [hu]
        obtain rfl := hclosed hne
        rwa [hopened, List.nil_append, openAfter_closing hmid.left (hcloses hne)] at hopen
    obtain ⟨stop', hstop', hmore⟩ := ih₂ (hmid.bump hend) hrest
    exact ⟨stop', hstop',
      fun more stop₂ last₂ hb => .group ht' hk hchildren (hmore more stop₂ last₂ hb)⟩
  | @leaves stack c stop next last trees t ts ht ho hclose hbehind ih =>
    obtain ⟨ts', ht', -⟩ := hp.exists_tokens ht
    obtain ⟨hleaves, hp'⟩ := leavesAt_prolonged hp ht next
    obtain ⟨taken, htakes⟩ := exists_takes hp.left ht ho next
    have hstays := htakes.stays stack (by simpa [Cursor.current, ht] using hclose)
    have hrest : later = [] ∨
        openAfter stack (Token.significant (leavesAt t.kind c next).2.bump.tokens) = [] := by
      rwa [htakes.tokens, openAfter_append, MacroBridge.openAfter_eq hstays] at hopen
    obtain ⟨stop', hstop', hmore⟩ := ih hp' hrest
    refine ⟨stop', hstop', fun more stop₂ last₂ hb => ?_⟩
    rw [← hleaves, List.append_assoc]
    refine .leaves ht' ho hclose ?_
    rw [hleaves]
    exact hmore more stop₂ last₂ hb

/-- From two cursors that show the same linked tokens the same is built. -/
theorem Built.same (h : Built stack c next trees stop last) (hc : c.Ready) (hc' : c'.Ready)
    (hlinked : linked c'.tokens = linked c.tokens) (hstop : stop.tokens = []) :
    ∃ stop', Built stack c' next trees stop' last ∧ stop'.tokens = [] := by
  have hp : Prolonged [] c c' := ⟨hc, hc', by rw [hlinked, List.append_nil]⟩
  obtain ⟨stop', hstop', hmore⟩ := h.prolong hp (.inl rfl)
  have hend := hstop'.tokens_nil hstop rfl
  have hbuilt := hmore [] stop' last (.stop fun hne => absurd hend hne)
  rw [List.append_nil] at hbuilt
  exact ⟨stop', hbuilt, hend⟩

end Builder

/-- The tree of a source is read off its linked tokens. -/
theorem Subtree.ofSource_congr {s w : List Char} (h : linked (tokenize w) = linked (tokenize s))
    (options : ParseOptions) : Subtree.ofSource w options = Subtree.ofSource s options := by
  obtain ⟨trees, stop, last, hbuilt, hstop, hroot⟩ := Subtree.exists_built_ofSource s
  obtain ⟨trees', stop', last', hbuilt', -, hroot'⟩ := Subtree.exists_built_ofSource w
  have hlinked : linked (Cursor.ofSource w).tokens = linked (Cursor.ofSource s).tokens := by
    rw [Cursor.linked_ofSource, Cursor.linked_ofSource, h]
  obtain ⟨stop₂, hsame, -⟩ :=
    hbuilt.same (Cursor.ofSource_spec s).1 (Cursor.ofSource_spec w).1 hlinked hstop
  rw [hroot, hroot', (hbuilt'.unique hsame).1]

end MacroBridge
