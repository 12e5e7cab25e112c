import Mathlib
import MacroBridge.Session.Link

/-!
What a peer takes of a message: a first part of it, and all of it unless the write fails, takes too
long or never ends.
-/
namespace MacroBridge

/-- Whether another write call can follow: the call has taken some bytes, or has waited for a
time. -/
def WriteReply.Passes : WriteReply → Prop
  | took n => 0 < n
  | delay _ => True
  | _ => False

/-- The most bytes that a write call takes. -/
def WriteReply.room : WriteReply → Nat
  | took n => n
  | _ => 0

/-- A message that never gets through, with the bytes of it that are taken: a write call never
returns while there are bytes left to write, or the flush behind the last of them. -/
inductive Delivery.Hangs (d : Delivery) (message : List UInt8) : List UInt8 → Prop
  | write {before after : List WriteReply} {sent rest : List UInt8}
      (writes_eq : d.writes = before ++ .silence :: after)
      (passes : ∀ reply ∈ before, reply.Passes)
      (room : sent.length = (before.map WriteReply.room).sum)
      (whole : message = sent ++ rest) (left : rest ≠ []) : Hangs d message sent
  | flush (h : d.flushTime = none) : Hangs d message message

/-- Whether an operation shows that no time limit is set. -/
def Progress.Unlimited : Progress → Prop
  | done none | stuck => True
  | _ => False

namespace Progress

theorem unlimited_done {budget : Option Nat} (h : (done budget).Unlimited) : budget = none := by
  cases budget with
  | none => rfl
  | some left => exact h.elim

theorem unlimited_wait (budget millis : Option Nat) (h : (wait budget millis).Unlimited) :
    budget = none := by
  cases budget with
  | none => rfl
  | some left =>
    cases millis with
    | none => exact h.elim
    | some n =>
      simp only [wait] at h
      split at h
      · exact h.elim
      · exact h.elim

/-- A wait of some length ends. -/
theorem wait_ne_stuck (budget : Option Nat) (n : Nat) : wait budget (some n) ≠ .stuck := by
  cases budget with
  | none => simp [wait]
  | some left =>
    rw [wait]
    split_ifs <;> simp

end Progress

/-- A limit stays a limit while the bytes are written. -/
theorem Delivery.unlimited_writeAll (budget : Option Nat) (bytes : List UInt8)
    (replies : List WriteReply) (h : (writeAll budget bytes replies).2.Unlimited) :
    budget = none := by
  induction replies generalizing budget bytes with
  | nil => exact Progress.unlimited_done h
  | cons reply replies ih =>
    cases bytes with
    | nil => exact Progress.unlimited_done h
    | cons b bytes =>
      cases reply with
      | refused kind => exact h.elim
      | took n =>
        cases n with
        | zero => exact h.elim
        | succ n => exact ih _ _ h
      | delay n =>
        simp only [writeAll] at h
        split at h
        · next budget' hwait =>
          obtain rfl := ih _ _ h
          exact Progress.unlimited_wait budget (some n) (hwait ▸ trivial)
        · exact Progress.unlimited_wait _ _ h
      | silence => exact Progress.unlimited_wait _ _ h

/-- A write that never ends has come to a call that never returns. -/
theorem Delivery.writeAll_stuck {budget : Option Nat} {bytes sent : List UInt8}
    {replies : List WriteReply} (h : writeAll budget bytes replies = (sent, .stuck)) :
    ∃ before after rest, replies = before ++ .silence :: after ∧ (∀ reply ∈ before, reply.Passes) ∧
      sent.length = (before.map WriteReply.room).sum ∧ bytes = sent ++ rest ∧ rest ≠ [] := by
  induction replies generalizing budget bytes sent with
  | nil => simp [writeAll] at h
  | cons reply replies ih =>
    cases bytes with
    | nil => simp [writeAll] at h
    | cons b bytes =>
      cases reply with
      | refused kind => simp [writeAll] at h
      | took n =>
        cases n with
        | zero => simp [writeAll] at h
        | succ n =>
          obtain ⟨hsent, hstuck⟩ := Prod.mk.inj h
          obtain ⟨before, after, rest, rfl, hpass, hroom, hwhole, hleft⟩ :=
            ih (Prod.ext rfl hstuck)
          -- There are bytes left behind those of this call, so the call has taken as many as it
          -- can.
          have hlong : n + 1 < (b :: bytes).length := by
            have := List.length_pos_iff.mpr (hwhole ▸ List.append_ne_nil_of_right_ne_nil _ hleft)
            rw [List.length_drop] at this
            omega
          refine ⟨.took (n + 1) :: before, after, rest, rfl, ?_, ?_, ?_, hleft⟩
          · exact List.forall_mem_cons.mpr ⟨Nat.succ_pos n, hpass⟩
          · rw [← hsent, List.length_append, hroom, List.length_take,
              Nat.min_eq_left (Nat.le_of_lt hlong)]
            rfl
          · rw [← hsent, List.append_assoc, ← hwhole, List.take_append_drop]
      | delay n =>
        simp only [writeAll] at h
        split at h
        · obtain ⟨before, after, rest, rfl, hpass, hroom, hwhole, hleft⟩ := ih h
          refine ⟨.delay n :: before, after, rest, rfl, List.forall_mem_cons.mpr ⟨trivial, hpass⟩,
            ?_, hwhole, hleft⟩
          rw [hroom, List.map_cons, List.sum_cons]
          exact (Nat.zero_add _).symm
        · obtain ⟨-, hstuck⟩ := Prod.mk.inj h
          exact absurd hstuck (Progress.wait_ne_stuck budget n)
      | silence =>
        obtain ⟨rfl, -⟩ := Prod.mk.inj h
        exact ⟨[], replies, b :: bytes, rfl, by simp, rfl, rfl, List.cons_ne_nil _ _⟩

theorem Delivery.writeAll_spec (budget : Option Nat) (bytes : List UInt8)
    (replies : List WriteReply) : (writeAll budget bytes replies).1 <+: bytes ∧
      ∀ left, (writeAll budget bytes replies).2 = .done left →
        (writeAll budget bytes replies).1 = bytes := by
  induction replies generalizing budget bytes with
  | nil => exact ⟨List.prefix_rfl, fun _ _ => rfl⟩
  | cons reply replies ih =>
    cases bytes with
    | nil => exact ⟨List.prefix_rfl, fun _ _ => rfl⟩
    | cons b bytes =>
      have hwait (millis : Option Nat) (h : ∀ left, Progress.wait budget millis ≠ .done left) :
          ([] : List UInt8) <+: b :: bytes ∧
            ∀ left, Progress.wait budget millis = .done left → [] = b :: bytes :=
        ⟨List.nil_prefix, fun left hl => absurd hl (h left)⟩
      cases reply with
      | refused kind => exact ⟨List.nil_prefix, by simp [writeAll]⟩
      | took n =>
        cases n with
        | zero => exact ⟨List.nil_prefix, by simp [writeAll]⟩
        | succ n =>
          obtain ⟨hp, hd⟩ := ih budget ((b :: bytes).drop (n + 1))
          simp only [writeAll]
          constructor
          · obtain ⟨rest, hrest⟩ := hp
            exact ⟨rest, by rw [List.append_assoc, hrest, List.take_append_drop]⟩
          · intro left hl
            rw [hd left hl, List.take_append_drop]
      | delay n =>
        simp only [writeAll]
        split
        · exact ih _ _
        · next h => exact hwait (some n) h
      | silence =>
        simp only [writeAll]
        exact hwait none (by cases budget <;> simp [Progress.wait])

/-- The server takes a first part of a message, and all of it if the write succeeds. Then it may be
answered. -/
theorem Link.write_spec (l : Link) (message : List UInt8) (budget : Option Nat) :
    (l.write message budget).taken <+: message ∧
      ∀ left, (l.write message budget).progress = .done left →
        (l.write message budget).taken = message ∧
        (l.write message budget).link =
          { l with
            taken := l.taken ++ [message]
            incoming := l.incoming ++
              (l.peer.deliver l.taken message).replies.flatMap Event.reads } := by
  obtain ⟨hp, hd⟩ := Delivery.writeAll_spec budget message (l.peer.deliver l.taken message).writes
  unfold write
  dsimp only
  split
  · next bytes budget' hw =>
    rw [hw] at hp hd
    obtain rfl := hd budget' rfl
    split
    · split
      · exact ⟨hp, by simp⟩
      · exact ⟨hp, fun _ _ => ⟨rfl, rfl⟩⟩
    · next h => exact ⟨hp, fun left hl => absurd hl (h left)⟩
  · next bytes progress h hw =>
    rw [hw] at hp
    exact ⟨hp, fun left hl => absurd hl (h left)⟩

/-- A limit stays a limit while a message is written. -/
theorem Link.unlimited_write (l : Link) (message : List UInt8) (budget : Option Nat)
    (h : (l.write message budget).progress.Unlimited) : budget = none := by
  generalize hd : l.peer.deliver l.taken message = d
  unfold write at h
  rw [hd] at h
  dsimp only at h
  split at h
  · next bytes left hw =>
    have hleft : left = none → budget = none := fun hnone =>
      Delivery.unlimited_writeAll budget message d.writes (by rw [hw, hnone]; trivial)
    split at h
    · next after hwait =>
      split at h
      · exact h.elim
      · obtain rfl := Progress.unlimited_done h
        exact hleft (Progress.unlimited_wait left d.flushTime (hwait ▸ trivial))
    · exact hleft (Progress.unlimited_wait _ _ h)
  · next bytes progress hne hw =>
    exact Delivery.unlimited_writeAll budget message d.writes (by rw [hw]; exact h)

/-- A message that is written without end never gets through. -/
theorem Link.write_stuck (l : Link) (message : List UInt8) (budget : Option Nat)
    (h : (l.write message budget).progress = .stuck) :
    (l.peer.deliver l.taken message).Hangs message (l.write message budget).taken := by
  generalize hd : l.peer.deliver l.taken message = d
  unfold write at h ⊢
  rw [hd] at h ⊢
  dsimp only at h ⊢
  cases hw : Delivery.writeAll budget message d.writes with
  | mk bytes progress =>
  rw [hw] at h
  cases progress with
  | done left =>
    obtain rfl : bytes = message := by
      have hall := (Delivery.writeAll_spec budget message d.writes).2 left
      rw [hw] at hall
      exact hall rfl
    dsimp only at h ⊢
    split at h
    · split at h <;> cases h
    · next hwait =>
      refine .flush ?_
      cases ht : d.flushTime with
      | none => rfl
      | some n => exact absurd (ht ▸ h) (Progress.wait_ne_stuck left n)
  | failed kind => cases h
  | expired => cases h
  | stuck =>
    obtain ⟨before, after, rest, hwrites, hpass, hroom, hwhole, hleft⟩ :=
      Delivery.writeAll_stuck hw
    exact .write hwrites hpass hroom hwhole hleft

end MacroBridge
