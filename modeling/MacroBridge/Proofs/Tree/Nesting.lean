import Mathlib
import MacroBridge.Proofs.Tree.Built

/-!
The nesting of a tree is that of a machine with a stack of open groups, which goes over the tokens
that are not trivia from left to right.
-/
namespace MacroBridge

/-- Tokens that stand in groups. -/
inductive Nest
  | token (t : Token)
  | group (b : Bracket) (inside : List Nest)

/-- What the machine has seen: the groups that are open, the innermost first, each with what stands
in it so far, and what stands in none. -/
structure Nesting where
  opened : List (Bracket × List Nest) := []
  outside : List Nest := []

namespace Nesting

/-- Puts some things behind what stands in the innermost open group. -/
def add (m : Nesting) (ns : List Nest) : Nesting :=
  match m.opened with
  | [] => { m with outside := m.outside ++ ns }
  | (b, inside) :: gs => { m with opened := (b, inside ++ ns) :: gs }

def push (m : Nesting) (b : Bracket) : Nesting := { m with opened := (b, []) :: m.opened }

/-- Ends the innermost open group. -/
def pop (m : Nesting) : Nesting :=
  match m.opened with
  | [] => m
  | (b, inside) :: gs => { m with opened := gs }.add [.group b inside]

/-- Kinds of the open groups. -/
def stack (m : Nesting) : List Bracket := m.opened.map Prod.fst

def step (m : Nesting) (t : Token) : Nesting :=
  match t.kind with
  | .opening b => m.push b
  | .closing b => if m.stack.head? = some b then m.pop else m.add [.token t]
  | _ => m.add [.token t]

/-- What stands outside all groups once all of them have been ended. -/
def finish (m : Nesting) : List Nest := (pop^[m.stack.length] m).outside

/-- The nesting of tokens in front of which some groups are open. -/
def run (m : Nesting) (ts : List Token) : List Nest := (ts.foldl step m).finish

variable {m : Nesting}

@[simp] theorem run_nil (m : Nesting) : m.run [] = m.finish := rfl

@[simp] theorem run_cons (m : Nesting) (t : Token) (ts : List Token) :
    m.run (t :: ts) = (m.step t).run ts := rfl

@[simp] theorem stack_push (m : Nesting) (b : Bracket) : (m.push b).stack = b :: m.stack := rfl

@[simp] theorem stack_add (m : Nesting) (ns : List Nest) : (m.add ns).stack = m.stack := by
  rcases m with ⟨_ | ⟨g, gs⟩, outside⟩ <;> rfl

@[simp] theorem add_nil (m : Nesting) : m.add [] = m := by
  rcases m with ⟨_ | ⟨g, gs⟩, outside⟩ <;> simp [add]

@[simp] theorem add_add (m : Nesting) (ns ns' : List Nest) :
    (m.add ns).add ns' = m.add (ns ++ ns') := by
  rcases m with ⟨_ | ⟨g, gs⟩, outside⟩ <;> simp [add]

/-- A group is among what it stands in from its end on. -/
@[simp] theorem pop_push (m : Nesting) (b : Bracket) (ns : List Nest) :
    ((m.push b).add ns).pop = m.add [.group b ns] := rfl

/-- To end all groups is to end the innermost one first. -/
theorem finish_push (m : Nesting) (b : Bracket) (ns : List Nest) :
    ((m.push b).add ns).finish = (m.add [.group b ns]).finish := by
  simp only [finish, stack_add, stack_push, List.length_cons, Nat.iterate, pop_push]

theorem step_opening {t : Token} {b : Bracket} (hk : t.kind = .opening b) :
    m.step t = m.push b := by
  simp [step, hk]

theorem step_closing {t : Token} {b : Bracket} (hk : t.kind = .closing b) (ns : List Nest) :
    ((m.push b).add ns).step t = m.add [.group b ns] := by
  simp [step, hk]

theorem step_stays {t : Token} (h : t.Stays m.stack) : m.step t = m.add [.token t] := by
  unfold step
  split
  · next b hb => exact absurd hb (h.1 b)
  · next b hb =>
    rw [if_neg]
    intro hhead
    exact h.2 (by rw [closerOf, hhead, hb]; rfl)
  · rfl

/-- Tokens that group nothing stand in the group that is open. -/
theorem run_append {ts : List Token} (h : ∀ t ∈ ts, t.Stays m.stack) (us : List Token) :
    m.run (ts ++ us) = (m.add (ts.map .token)).run us := by
  induction ts generalizing m with
  | nil => simp
  | cons t ts ih =>
    obtain ⟨ht, hts⟩ := List.forall_mem_cons.mp h
    rw [List.cons_append, run_cons, step_stays ht, ih (by simpa using hts)]
    simp

end Nesting

/-- Trees with the groups of a nesting and, in their places, the leaves of its tokens. -/
inductive Fits : List Nest → List TokenTree → Prop
  | nil : Fits [] []
  | leaves {ts : List Token} {ls : List Leaf} {ns : List Nest} {trees : List TokenTree}
      {next : TokenId} (h : Builder.Gives next ts ls) (behind : Fits ns trees) :
      Fits (ts.map .token ++ ns) (ls.map .leaf ++ trees)
  | group {b : Bracket} {id : TokenId} {ns inside : List Nest} {children trees : List TokenTree}
      (h : Fits inside children) (behind : Fits ns trees) :
      Fits (.group b inside :: ns) (.group (some ⟨id, b⟩) children :: trees)

namespace Builder

variable {stack : List Bracket} {c stop : Cursor} {next last : TokenId} {trees : List TokenTree}

/-- What the builder builds from some tokens is what the machine puts into the group that is
open. -/
theorem Built.fits (h : Built stack c next trees stop last) (hc : c.Ready) :
    ∃ ns, Fits ns trees ∧ ∀ m : Nesting, m.stack = stack →
      m.run (Token.significant c.tokens) = (m.add ns).run (Token.significant stop.tokens) := by
  induction h with
  | stop h => exact ⟨[], .nil, by simp⟩
  | @group stack c mid stop next between last children trees t ts b ht hk hin _ ih₁ ih₂ =>
    obtain ⟨inside, hinside, hrun₁⟩ := ih₁ hc.bump
    obtain ⟨hmid, hcloses⟩ := hin.ready hc.bump
    obtain ⟨ns, hns, hrun₂⟩ := ih₂ hmid.bump
    refine ⟨.group b inside :: ns, .group hinside hns, fun m hm => ?_⟩
    have hend : ((m.push b).add inside).run (Token.significant mid.tokens) =
        (m.add [.group b inside]).run (Token.significant mid.bump.tokens) := by
      cases hu : mid.tokens with
      | nil => rw [Cursor.bump_nil hu, hu]; exact Nesting.finish_push m b inside
      | cons u us =>
        have huk : u.kind = .closing b := by
          simpa [Cursor.current, hu, closerOf] using hcloses (by simp [hu])
        rw [← hu, hmid.significant_tokens hu, hmid.significant_bump hu, Nesting.run_cons,
          Nesting.step_closing huk]
    calc m.run (Token.significant c.tokens)
        = (m.push b).run (Token.significant c.bump.tokens) := by
          rw [hc.significant_tokens ht, hc.significant_bump ht, Nesting.run_cons,
            Nesting.step_opening hk]
      _ = ((m.push b).add inside).run (Token.significant mid.tokens) := hrun₁ _ (by simp [hm])
      _ = (m.add [.group b inside]).run (Token.significant mid.bump.tokens) := hend
      _ = (m.add (.group b inside :: ns)).run (Token.significant stop.tokens) := by
          rw [hrun₂ _ (by simpa using hm), Nesting.add_add, List.singleton_append]
  | @leaves stack c stop next last trees t ts ht ho hclose _ ih =>
    obtain ⟨taken, htakes⟩ := exists_takes hc ht ho next
    obtain ⟨ns, hns, hrun⟩ := ih htakes.ready
    refine ⟨taken.map .token ++ ns, .leaves htakes.gives hns, fun m hm => ?_⟩
    have hstays : ∀ u ∈ taken, u.Stays m.stack :=
      htakes.stays m.stack (by simpa [Cursor.current, ht, hm] using hclose)
    rw [htakes.tokens, Nesting.run_append hstays, hrun _ (by simpa using hm), Nesting.add_add]

end Builder

/-- The trees of a source are nested as the machine nests its tokens that are not trivia. They are
the children of a root without delimiter, but for a single group if the options ask to collapse it:
then that group is the root. -/
theorem nesting_ofSource (source : List Char) :
    ∃ trees, Fits (({} : Nesting).run (Token.significant (tokenize source))) trees ∧
      Subtree.ofSource source ⟨false⟩ = ⟨none, trees⟩ ∧
      (∀ d children, trees = [.group d children] →
        Subtree.ofSource source ⟨true⟩ = ⟨d, children⟩) ∧
      ((∀ d children, trees ≠ [.group d children]) →
        Subtree.ofSource source ⟨true⟩ = ⟨none, trees⟩) := by
  obtain ⟨hready, hsame⟩ := Cursor.ofSource_spec source
  obtain ⟨trees, stop, last, hbuilt, hstop, hroot⟩ := Subtree.exists_built_ofSource source
  obtain ⟨ns, hns, hrun⟩ := hbuilt.fits hready
  have heq : ({} : Nesting).run (Token.significant (tokenize source)) = ns := by
    rw [← hsame, hrun {} rfl, hstop]
    exact List.nil_append ns
  refine ⟨trees, heq ▸ hns, ?_, ?_, ?_⟩
  · rw [hroot]
    unfold Builder.rootOf
    split <;> rfl
  · rintro d children rfl
    rw [hroot]
    rfl
  · intro hsingle
    rw [hroot]
    unfold Builder.rootOf
    split
    · exact absurd rfl (hsingle _ _)
    · rfl

end MacroBridge
