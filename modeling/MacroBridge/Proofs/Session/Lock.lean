import MacroBridge.Proofs.Session.Shared

/-!
The lock of the channel. One caller at a time is in an exchange, and what it has written is a first
part of its request. A failure of the streams marks the channel, and a marked channel lets nobody
in.
-/
namespace MacroBridge

variable {ι : Type} {request : ι → Request OsPath} {limit : Option Duration}

namespace Phase

theorem not_returned_of_exchanges {p : Phase} (h : p.Exchanges)
    (result : Except ServerError Response) : p ≠ .returned result := by
  rintro rfl
  exact h

theorem Fails.exchanges {p : Phase} {e : ServerError} (h : p.Fails limit e) :
    p.Exchanges ∧ e.IsTransport := by
  cases h with
  | write rest kind => exact ⟨trivial, .codec (by simp)⟩
  | writeTimeout rest h => exact ⟨trivial, .timeout _⟩
  | ended => exact ⟨trivial, .codec (by simp)⟩
  | read kind => exact ⟨trivial, .codec (by simp)⟩
  | readTimeout h => exact ⟨trivial, .timeout _⟩

end Phase

namespace Shared

/-! ### Callers -/

/-- The phases of the callers agree with the lock and with the calls that have returned. -/
structure Callers (phase : ι → Phase) (holder : Option ι) (past : List (Past ι)) : Prop where
  holder_iff (i : ι) : holder = some i ↔ (phase i).Exchanges
  returned_iff (i : ι) (result : Except ServerError Response) :
    phase i = .returned result ↔ ∃ sent, ⟨i, result, sent⟩ ∈ past
  once : (past.map Past.caller).Nodup

namespace Callers
variable {phase : ι → Phase} {holder holder' : Option ι} {past : List (Past ι)} {i : ι} {p : Phase}

theorem fresh : Callers (fun _ : ι => .absent) none [] where
  holder_iff i := by simp
  returned_iff i result := by simp
  once := List.nodup_nil

theorem not_returned (h : Callers phase holder past) (hi : ∀ result, phase i ≠ .returned result) :
    i ∉ past.map Past.caller := by
  intro hmem
  obtain ⟨q, hq, rfl⟩ := List.mem_map.mp hmem
  exact hi q.result ((h.returned_iff _ _).mpr ⟨q.sent, hq⟩)

variable [DecidableEq ι]

/-- A caller goes on and does not return. -/
theorem goOn (h : Callers phase holder past) (hi : ∀ result, phase i ≠ .returned result)
    (hp : ∀ result, p ≠ .returned result) (hself : holder' = some i ↔ p.Exchanges)
    (hother : ∀ j, j ≠ i → (holder' = some j ↔ holder = some j)) :
    Callers (Function.update phase i p) holder' past where
  holder_iff j := by
    by_cases hj : j = i
    · rw [hj, Function.update_self, hself]
    · rw [Function.update_of_ne hj, hother j hj, h.holder_iff]
  returned_iff j result := by
    rw [← h.returned_iff]
    by_cases hj : j = i
    · rw [hj, Function.update_self]
      exact iff_of_false (hp result) (hi result)
    · rw [Function.update_of_ne hj]
  once := h.once

/-- The lock stays where it is. -/
theorem move (h : Callers phase holder past) (hi : ∀ result, phase i ≠ .returned result)
    (hp : ∀ result, p ≠ .returned result) (hex : p.Exchanges ↔ (phase i).Exchanges) :
    Callers (Function.update phase i p) holder past :=
  h.goOn hi hp ((h.holder_iff i).trans hex.symm) fun _ _ => .rfl

theorem acquire (h : Callers phase none past) (hi : ∀ result, phase i ≠ .returned result)
    (hp : ∀ result, p ≠ .returned result) (hex : p.Exchanges) :
    Callers (Function.update phase i p) (some i) past :=
  h.goOn hi hp (iff_of_true rfl hex) fun j hj => by simp [Ne.symm hj]

theorem release (h : Callers phase holder past) (hi : (phase i).Exchanges) :
    Callers (Function.update phase i .absent) none past := by
  refine h.goOn (Phase.not_returned_of_exchanges hi) (by simp) (by simp) fun j hj => ?_
  rw [(h.holder_iff i).mpr hi]
  simp [Ne.symm hj]

theorem finish (h : Callers phase holder past) (hi : ∀ result, phase i ≠ .returned result)
    (hheld : ∀ j, holder = some j → j = i) (result : Except ServerError Response)
    (sent : List UInt8) :
    Callers (Function.update phase i (.returned result)) none (past ++ [⟨i, result, sent⟩]) where
  holder_iff j := by
    by_cases hj : j = i
    · rw [hj, Function.update_self]
      simp
    · rw [Function.update_of_ne hj, ← h.holder_iff j]
      exact iff_of_false (by simp) fun hold => hj (hheld j hold)
  returned_iff j r := by
    have hpast := h.not_returned hi
    by_cases hj : j = i
    · subst hj
      rw [Function.update_self]
      constructor
      · rintro ⟨⟩
        exact ⟨sent, by simp⟩
      · rintro ⟨s, hs⟩
        rcases List.mem_append.mp hs with hs | hs
        · exact absurd (List.mem_map_of_mem hs) hpast
        · obtain ⟨-, rfl, -⟩ := Past.mk.inj (List.mem_singleton.mp hs)
          rfl
    · rw [Function.update_of_ne hj, h.returned_iff]
      simp [hj]
  once := by
    rw [List.map_append, List.map_singleton]
    refine List.nodup_append.mpr ⟨h.once, by simp, fun j hj k hk hjk => ?_⟩
    rw [hjk, List.mem_singleton.mp hk] at hj
    exact h.not_returned hi hj

end Callers

variable {s s' : Shared ι} {i : ι}

/-! ### The caller in the exchange -/

/-- The lock is held by the one caller in an exchange, who has written a first part of its
request. -/
structure Locked (request : ι → Request OsPath) (s : Shared ι) : Prop where
  callers : Callers s.phase s.holder s.past
  idle : s.holder = none → s.written = []
  writes : ∀ i, s.holder = some i →
    s.broken = false ∧ (request i).Encodes ∧ s.written ++ (s.phase i).unsent = (request i).line

theorem locked_fresh : Locked request ({} : Shared ι) where
  callers := .fresh
  idle _ := rfl
  writes i h := by simp at h

/-- A call that fails in its exchange marks the channel. -/
theorem finish_broken [DecidableEq ι] (s : Shared ι) (i : ι) {e : ServerError}
    (h : e.IsTransport) : (s.finish i (.error e)).broken = true := by
  simp [finish, h.breaksChannel]

/-- A call whose request has no encoding leaves the channel as it is. -/
theorem finish_encode [DecidableEq ι] (s : Shared ι) (i : ι) :
    (s.finish i (.error (.codec .encode))).broken = s.broken := by
  simp [finish, ServerError.breaksChannel]

/-- Whether a caller has not come to the channel or has found it broken. -/
inductive Late : Phase → Prop
  | absent : Late .absent
  | queued : Late .queued
  | refused : Late (.returned (.error .broken))

theorem Late.not_exchanges {p : Phase} (h : Late p) : ¬ p.Exchanges := by
  cases h <;> exact id

theorem Late.eq_broken {p : Phase} (h : Late p) {result : Except ServerError Response}
    (hp : p = .returned result) : result = .error .broken := by
  subst hp
  cases h
  rfl

namespace Locked

theorem exchanges (h : s.Locked request) (hi : (s.phase i).Exchanges) :
    s.holder = some i ∧ s.broken = false ∧ (request i).Encodes ∧
      s.written ++ (s.phase i).unsent = (request i).line := by
  have hold := (h.callers.holder_iff i).mpr hi
  exact ⟨hold, h.writes i hold⟩

/-- A caller that has nothing left to write has written its request. -/
theorem wrote (h : s.Locked request) (hi : (s.phase i).Exchanges) (hu : (s.phase i).unsent = []) :
    s.written = (request i).line := by
  have hw := (h.exchanges hi).2.2.2
  rwa [hu, List.append_nil] at hw

theorem begun (h : s.Locked request) (hi : (s.phase i).Exchanges) (hu : (s.phase i).unsent = []) :
    s.written ≠ [] := by
  rw [h.wrote hi hu]
  exact (h.exchanges hi).2.2.1.isLine.ne_nil

/-- A caller in an exchange that has written nothing has all of its request to write. -/
theorem eq_writing (h : s.Locked request) (hi : (s.phase i).Exchanges) (hw : s.written = []) :
    s.phase i = .writing (request i).line := by
  have hline := (h.exchanges hi).2.2.2
  rw [hw, List.nil_append] at hline
  cases hp : s.phase i with
  | writing rest =>
    rw [hp, Phase.unsent_writing] at hline
    rw [hline]
  | looking => exact absurd hw (h.begun hi (by simp [hp]))
  | reading => exact absurd hw (h.begun hi (by simp [hp]))
  | absent => simp [hp] at hi
  | queued => simp [hp] at hi
  | returned result => simp [hp] at hi

/-- A failure has given the lock back. -/
theorem free (h : s.Locked request) (hb : s.broken = true) : s.holder = none := by
  cases hold : s.holder with
  | none => rfl
  | some i =>
    have := (h.writes i hold).1
    simp [hb] at this

variable [DecidableEq ι]

/-- The caller in the exchange goes on in it. -/
theorem goOn {p : Phase} {written upstream downstream : List UInt8} {reader : Reader}
    (h : s.Locked request) (hi : (s.phase i).Exchanges) (hp : p.Exchanges)
    (hw : written ++ p.unsent = s.written ++ (s.phase i).unsent) :
    Locked request { s.move i p with written, upstream, downstream, reader } := by
  obtain ⟨hold, hb, hencodes, hwritten⟩ := h.exchanges hi
  refine ⟨?_, fun hnone => ?_, fun j hj => ?_⟩
  · exact h.callers.move (Phase.not_returned_of_exchanges hi) (Phase.not_returned_of_exchanges hp)
      (iff_of_true hp hi)
  · exact absurd (hold.symm.trans hnone) (by simp)
  · obtain rfl : j = i := Option.some.inj (hj.symm.trans hold)
    refine ⟨hb, hencodes, ?_⟩
    simpa [move, hw] using hwritten

/-- A call that returns gives the lock back if it has it. -/
theorem finish (h : s.Locked request) (hi : ∀ result, s.phase i ≠ .returned result)
    (hheld : ∀ j, s.holder = some j → j = i) (result : Except ServerError Response)
    (reader : Reader) : Locked request { s.finish i result with reader } :=
  ⟨h.callers.finish hi hheld result s.written,
    fun _ => rfl, fun j hj => by simp [Shared.finish] at hj⟩

theorem finish_exchange (h : s.Locked request) (hi : (s.phase i).Exchanges)
    (result : Except ServerError Response) (reader : Reader) :
    Locked request { s.finish i result with reader } :=
  h.finish (Phase.not_returned_of_exchanges hi)
    (fun _ hj => Option.some.inj (hj.symm.trans (h.exchanges hi).1))
    result reader

/-- A caller comes to the queue or goes from it. -/
theorem queue {p : Phase} (h : s.Locked request) (hi : s.phase i = .absent ∨ s.phase i = .queued)
    (hp : p = .absent ∨ p = .queued) : Locked request (s.move i p) := by
  have hnot {q : Phase} (hq : q = .absent ∨ q = .queued) : (∀ result, q ≠ .returned result) ∧
      ¬ q.Exchanges := by
    rcases hq with rfl | rfl
    · simp
    · simp
  refine ⟨h.callers.move (hnot hi).1 (hnot hp).1 (iff_of_false (hnot hp).2 (hnot hi).2), h.idle,
    fun j hj => ?_⟩
  have hne : j ≠ i := by
    rintro rfl
    exact (hnot hi).2 ((h.callers.holder_iff j).mp hj)
  simpa [move, Function.update_of_ne hne] using h.writes j hj

/-- A caller leaves its exchange and gives the lock back. -/
theorem leave (h : s.Locked request) (hi : (s.phase i).Exchanges) :
    Locked request { s.move i .absent with holder := none, written := [] } :=
  ⟨h.callers.release hi, fun _ => rfl, fun j hj => by simp at hj⟩

theorem step (h : s.Locked request) (hs : Step request limit s s') : s'.Locked request := by
  cases hs with
  | call hi => exact h.queue (.inl hi) (.inr rfl)
  | @acquire i hi free usable encodes =>
    have hcallers := h.callers
    rw [free] at hcallers
    refine ⟨hcallers.acquire (by simp [hi]) (by simp) trivial, by simp, fun j hj => ?_⟩
    obtain rfl : i = j := Option.some.inj hj
    exact ⟨usable, encodes, by simp [move, h.idle free]⟩
  | @reject i hi free usable unencodable => exact h.finish (by simp [hi]) (by simp [free]) _ _
  | @refuse i hi free broken => exact h.finish (by simp [hi]) (by simp [free]) _ _
  | @write i bs rest hi hne => exact h.goOn (by simp [hi]) trivial (by simp [hi])
  | @flush i hi => exact h.goOn (by simp [hi]) trivial (by simp [hi])
  | @found i response reader hi hp => exact h.finish_exchange (by simp [hi]) _ _
  | @garbled i reader hi hp => exact h.finish_exchange (by simp [hi]) _ _
  | @wanting i reader hi hp => exact h.goOn (by simp [hi]) trivial (by simp [hi, move])
  | @receive i bs rest hi ahead hne fits =>
    exact h.goOn (by simp [hi]) trivial (by simp [hi, move])
  | @fail i e he => exact h.finish_exchange he.exchanges.1 _ _
  | arrive ahead => exact ⟨h.callers, h.idle, h.writes⟩
  | answer reply whole ahead => exact ⟨h.callers, h.idle, h.writes⟩
  | pad blank => exact ⟨h.callers, h.idle, h.writes⟩

/-- A broken channel stays broken, and lets nobody in. -/
theorem step_broken (h : s.Locked request) (hb : s.broken = true) (hs : Step request limit s s')
    (hi : Late (s.phase i)) : s'.broken = true ∧ Late (s'.phase i) := by
  have hnobody (j : ι) (hj : (s.phase j).Exchanges) : False := by
    have := (h.exchanges hj).2.1
    simp [hb] at this
  have hmove {j : ι} {p : Phase} (hp : Late p) : Late (Function.update s.phase j p i) := by
    by_cases hij : i = j
    · rwa [hij, Function.update_self]
    · rwa [Function.update_of_ne hij]
  cases hs with
  | call hj => exact ⟨hb, hmove .queued⟩
  | acquire hj free usable encodes => simp [hb] at usable
  | reject hj free usable unencodable => simp [hb] at usable
  | refuse hj free broken => exact ⟨by simp [Shared.finish, hb], hmove .refused⟩
  | @write j bs rest hj hne => exact (hnobody j (by simp [hj])).elim
  | @flush j hj => exact (hnobody j (by simp [hj])).elim
  | @found j response reader hj hp => exact (hnobody j (by simp [hj])).elim
  | @garbled j reader hj hp => exact (hnobody j (by simp [hj])).elim
  | @wanting j reader hj hp => exact (hnobody j (by simp [hj])).elim
  | @receive j bs rest hj ahead hne fits => exact (hnobody j (by simp [hj])).elim
  | @fail j e he => exact (hnobody j he.exchanges.1).elim
  | arrive ahead => exact ⟨hb, hi⟩
  | answer reply whole ahead => exact ⟨hb, hi⟩
  | pad hblank => exact ⟨hb, hi⟩

/-- A caller that comes to a broken channel is refused by its own next steps. -/
theorem exists_refused (h : s.Locked request) (hb : s.broken = true) (hi : Late (s.phase i)) :
    ∃ s', Steps request limit s s' ∧ s'.phase i = .returned (.error .broken) := by
  cases hp : s.phase i with
  | absent =>
    have hcall : Step request limit s (s.move i .queued) := .call hp
    have hqueued : (s.move i .queued).phase i = .queued := by simp [move]
    exact ⟨_, .head hcall (.single (.refuse hqueued (h.free hb) hb)),
      by simp [Shared.finish, move]⟩
  | queued => exact ⟨_, .single (.refuse hp (h.free hb) hb), by simp [Shared.finish, move]⟩
  | returned result =>
    rw [hp] at hi
    cases hi
    exact ⟨s, .refl, hp⟩
  | writing rest => rw [hp] at hi; cases hi
  | looking => rw [hp] at hi; cases hi
  | reading => rw [hp] at hi; cases hi

end Locked

end Shared

end MacroBridge
