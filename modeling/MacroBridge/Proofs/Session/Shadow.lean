import MacroBridge.Proofs.Session.Crowd

/-!
Callers that leave before they have written anything. A client that they leave does what it would
do if they were still in the queue: those who got the lock and did nothing with it had not got it.
-/
namespace MacroBridge
namespace Crowd
open Shared (Locked)

variable {ι : Type} {request : ι → Request OsPath} {limit : Option Duration}
  {c c' : Crowd ι} {i : ι}

/-- The caller that has the lock, if it has written nothing yet. -/
def idler (s : Shared ι) : Option ι := if s.written = [] then s.holder else none

theorem idler_of_begun {s : Shared ι} (h : s.written ≠ []) : idler s = none := if_neg h

theorem idler_of_free {s : Shared ι} (h : s.holder = none) : idler s = none := by
  rw [idler, h, ite_self]

/-- A caller outside the exchange does not hold the lock. -/
theorem Sound.idler_ne (h : c.Sound request) (hi : ¬ (c.shared.phase i).Exchanges) :
    idler c.shared ≠ some i := by
  rw [idler]
  split_ifs
  · exact fun hold => hi ((h.locked.callers.holder_iff i).mp hold)
  · simp

variable [DecidableEq ι]

/-- Phases in which those that have left, and one more caller at most, are still in the queue. -/
def veil (left : List (Leaver ι)) (idle : Option ι) (phase : ι → Phase) (j : ι) : Phase :=
  if (∃ q ∈ left, q.caller = j) ∨ idle = some j then .queued else phase j

section veil
variable {left : List (Leaver ι)} {idle : Option ι} {phase : ι → Phase} {p : Phase}

theorem veil_of_not {j : ι} (hl : ∀ q ∈ left, q.caller ≠ j) (hidle : idle ≠ some j) :
    veil left idle phase j = phase j := by
  rw [veil, if_neg]
  rintro (⟨q, hq, hj⟩ | hj)
  · exact hl q hq hj
  · exact hidle hj

theorem veil_eq_queued_or (left : List (Leaver ι)) (idle : Option ι) (phase : ι → Phase) (j : ι) :
    veil left idle phase j = .queued ∨ veil left idle phase j = phase j := by
  rw [veil]
  split_ifs
  · exact .inl rfl
  · exact .inr rfl

/-- A change that concerns one caller. -/
theorem veil_eq_update {left' : List (Leaver ι)} {idle' : Option ι} {phase' : ι → Phase}
    (hself : veil left' idle' phase' i = p)
    (hleft : ∀ j, j ≠ i → ((∃ q ∈ left', q.caller = j) ↔ ∃ q ∈ left, q.caller = j))
    (hidle : ∀ j, j ≠ i → (idle' = some j ↔ idle = some j))
    (hphase : ∀ j, j ≠ i → phase' j = phase j) :
    veil left' idle' phase' = Function.update (veil left idle phase) i p := by
  funext j
  by_cases hj : j = i
  · rw [hj, Function.update_self, hself]
  · simp only [Function.update_of_ne hj, veil, hleft j hj, hidle j hj, hphase j hj]

theorem veil_update (hl : ∀ q ∈ left, q.caller ≠ i) (hidle : idle ≠ some i) :
    veil left idle (Function.update phase i p) = Function.update (veil left idle phase) i p := by
  refine veil_eq_update ?_ (fun _ _ => .rfl) (fun _ _ => .rfl) fun j hj =>
    Function.update_of_ne hj p phase
  rw [veil_of_not hl hidle, Function.update_self]

/-- A caller that has got the lock and does nothing with it is as if in the queue. -/
theorem veil_acquire (hi : phase i = .queued) (hl : ∀ q ∈ left, q.caller ≠ i) :
    veil left (some i) (Function.update phase i p) = veil left none phase := by
  have hqueued : veil left none phase i = .queued := (veil_of_not hl (by simp)).trans hi
  rw [← Function.update_eq_self i (veil left none phase)]
  refine veil_eq_update ?_ (fun _ _ => .rfl) (fun j hj => ?_) fun j hj =>
    Function.update_of_ne hj p phase
  · rw [hqueued, veil, if_pos (.inr rfl)]
  · simp [Ne.symm hj]

/-- It comes out of the queue with its first byte. -/
theorem veil_begin (hl : ∀ q ∈ left, q.caller ≠ i) :
    veil left none (Function.update phase i p) =
      Function.update (veil left (some i) phase) i p := by
  refine veil_eq_update ?_ (fun _ _ => .rfl) (fun j hj => ?_) fun j hj =>
    Function.update_of_ne hj p phase
  · rw [veil_of_not hl (by simp), Function.update_self]
  · simp [Ne.symm hj]

theorem veil_leave (idle' : Option ι) (sent : List UInt8) (hi : veil left idle phase i = .queued)
    (hidle : ∀ j, j ≠ i → (idle' = some j ↔ idle = some j)) :
    veil (left ++ [⟨i, sent⟩]) idle' (Function.update phase i .absent) = veil left idle phase := by
  rw [← Function.update_eq_self i (veil left idle phase)]
  refine veil_eq_update ?_ (fun j hj => ?_) hidle fun j hj =>
    Function.update_of_ne hj .absent phase
  · rw [hi, veil, if_pos (.inl ⟨⟨i, sent⟩, by simp, rfl⟩)]
  · simp [Ne.symm hj]

end veil

/-- The same client without those that have left: they are in the queue, with the caller that has
written nothing. -/
def shadow (left : List (Leaver ι)) (s : Shared ι) : Shared ι :=
  { s with
    phase := veil left (idler s) s.phase
    holder := if s.written = [] then none else s.holder }

section shadow
variable {left : List (Leaver ι)} {s : Shared ι}

theorem shadow_of_begun (hw : s.written ≠ []) :
    shadow left s = { s with phase := veil left none s.phase } := by
  simp [shadow, idler, hw]

theorem shadow_of_idle (hw : s.written = []) :
    shadow left s = { s with phase := veil left s.holder s.phase, holder := none } := by
  simp [shadow, idler, hw]

/-- The caller in the exchange goes on in it. -/
theorem shadow_move {p : Phase} {written upstream downstream : List UInt8} {reader : Reader}
    (hl : ∀ q ∈ left, q.caller ≠ i) (hw : s.written ≠ []) (hw' : written ≠ []) :
    shadow left { s.move i p with written, upstream, downstream, reader } =
      { (shadow left s).move i p with written, upstream, downstream, reader } := by
  rw [shadow_of_begun hw, shadow_of_begun hw']
  simp only [Shared.move, veil_update hl (show (none : Option ι) ≠ some i by simp)]

/-- A call returns while nobody has the lock and has written nothing. -/
theorem shadow_finish {reader : Reader} (hl : ∀ q ∈ left, q.caller ≠ i) (hidle : idler s = none)
    (result : Except ServerError Response) :
    shadow left { s.finish i result with reader } =
      { (shadow left s).finish i result with reader } := by
  have hne : (none : Option ι) ≠ some i := by simp
  rw [shadow_of_idle rfl]
  simp only [Shared.finish, Shared.move, veil_update hl hne, shadow, hidle]

/-- A caller outside the exchange goes on. -/
theorem shadow_queue {p : Phase} (hl : ∀ q ∈ left, q.caller ≠ i) (hidle : idler s ≠ some i) :
    shadow left (s.move i p) = (shadow left s).move i p := by
  have hphase : veil left (idler s) (Function.update s.phase i p) =
      Function.update (veil left (idler s) s.phase) i p :=
    veil_update hl hidle
  exact congrArg
    (fun phase => { s with phase, holder := if s.written = [] then none else s.holder }) hphase

end shadow

/-- The shadow of a client as soon as the caller that has written nothing has the lock. -/
def entered (request : ι → Request OsPath) (left : List (Leaver ι)) (s : Shared ι) (i : ι) :
    Shared ι :=
  { s with
    phase := Function.update (veil left (some i) s.phase) i (.writing (request i).line)
    holder := some i }

section entered
variable {left : List (Leaver ι)} {s : Shared ι} (request : ι → Request OsPath)

@[simp] theorem entered_phase (left : List (Leaver ι)) (s : Shared ι) (i : ι) :
    (entered request left s i).phase i = .writing (request i).line := Function.update_self _ _ _

theorem shadow_move_entered {p : Phase} {written upstream : List UInt8}
    (hl : ∀ q ∈ left, q.caller ≠ i) (hold : s.holder = some i) (hw : written ≠ []) :
    shadow left { s.move i p with written, upstream } =
      { (entered request left s i).move i p with written, upstream } := by
  rw [shadow_of_begun hw]
  simp only [Shared.move, entered, veil_begin hl, Function.update_idem, hold]

theorem shadow_finish_entered (hl : ∀ q ∈ left, q.caller ≠ i)
    (result : Except ServerError Response) :
    shadow left (s.finish i result) = (entered request left s i).finish i result := by
  rw [shadow_of_idle rfl]
  simp only [Shared.finish, Shared.move, entered, veil_begin hl, Function.update_idem]

end entered

/-- The shadow of a caller that has written nothing comes to the lock. -/
theorem Sound.step_entered (h : c.Sound request) (hi : (c.shared.phase i).Exchanges)
    (hw : c.shared.written = []) :
    Shared.Step request limit (shadow c.left c.shared) (entered request c.left c.shared i) := by
  obtain ⟨hold, husable, hencodes, -⟩ := h.locked.exchanges hi
  have hqueued : veil c.left (some i) c.shared.phase i = .queued := if_pos (.inr rfl)
  rw [shadow_of_idle hw, hold]
  exact .acquire (i := i) hqueued rfl husable hencodes

/-- A caller that has written its request is in the exchange for its shadow too. -/
theorem Sound.shadow_exchange (h : c.Sound request) (hi : (c.shared.phase i).Exchanges)
    (hu : (c.shared.phase i).unsent = []) :
    (∀ q ∈ c.left, q.caller ≠ i) ∧ c.shared.written ≠ [] ∧
    (shadow c.left c.shared).phase i = c.shared.phase i := by
  have hl := h.not_left (i := i) fun habsent => by simp [habsent] at hi
  have hw := h.locked.begun hi hu
  refine ⟨hl, hw, ?_⟩
  rw [shadow_of_begun hw]
  exact veil_of_not hl (by simp)

/-- A caller that comes to a free lock and returns at once does the same for its shadow. -/
theorem Sound.shadow_queued (h : c.Sound request) (hi : c.shared.phase i = .queued)
    (free : c.shared.holder = none) :
    (shadow c.left c.shared).phase i = .queued ∧ (shadow c.left c.shared).holder = none ∧
      ∀ result, shadow c.left (c.shared.finish i result) =
        (shadow c.left c.shared).finish i result := by
  have hl := h.not_left (i := i) (by simp [hi])
  have hw := h.locked.idle free
  refine ⟨(veil_of_not hl (h.idler_ne (by simp [hi]))).trans hi,
    by simp [shadow, hw], fun result => ?_⟩
  exact shadow_finish hl (idler_of_free free) result

/-- Those that have left before they had written anything make no difference to a step. -/
theorem Sound.shadow_step (h : c.Sound request) {s : Shared ι}
    (hs : Shared.Step request limit c.shared s) (gone : ∀ q ∈ c.left, s.phase q.caller = .absent) :
    Shared.Steps request limit (shadow c.left c.shared) (shadow c.left s) := by
  cases hs with
  | @call i hi =>
    have hl : ∀ q ∈ c.left, q.caller ≠ i := by
      rintro q hq rfl
      simpa [Shared.move] using gone q hq
    have hidle := h.idler_ne (i := i) (by simp [hi])
    rw [shadow_queue hl hidle]
    exact .single (.call ((veil_of_not hl hidle).trans hi))
  | @acquire i hi free usable encodes =>
    have hl := h.not_left (i := i) (by simp [hi])
    have hw := h.locked.idle free
    rw [shadow_of_idle hw, shadow_of_idle
      (s := { c.shared.move i _ with holder := some i }) hw, free]
    simp only [Shared.move, veil_acquire hi hl]
    exact .refl
  | @reject i hi free usable unencodable =>
    obtain ⟨hqueued, hfree, hfinish⟩ := h.shadow_queued hi free
    exact hfinish (.error (.codec .encode)) ▸ .single (.reject hqueued hfree usable unencodable)
  | @refuse i hi free broken =>
    obtain ⟨hqueued, hfree, hfinish⟩ := h.shadow_queued hi free
    exact hfinish (.error .broken) ▸ .single (.refuse hqueued hfree broken)
  | @write i bs rest hi hne =>
    have hl := h.not_left (i := i) (by simp [hi])
    by_cases hw : c.shared.written = []
    · obtain ⟨hold, -, -⟩ := h.locked.exchanges (i := i) (by simp [hi])
      have hline : bs ++ rest = (request i).line :=
        Phase.writing.inj (hi.symm.trans (h.locked.eq_writing (by simp [hi]) hw))
      have hbegun : c.shared.written ++ bs ≠ [] := by simp [hne]
      have hphase' : (entered request c.left c.shared i).phase i = .writing (bs ++ rest) := by
        simp [hline]
      rw [shadow_move_entered request hl hold hbegun]
      exact .head (h.step_entered (by simp [hi]) hw) (.single (.write hphase' hne))
    · have hphase : (shadow c.left c.shared).phase i = .writing (bs ++ rest) :=
        (veil_of_not hl (by simp [idler_of_begun hw])).trans hi
      rw [shadow_move hl hw (by simp [hne])]
      exact .single (.write hphase hne)
  | @flush i hi =>
    obtain ⟨hl, hw, hphase⟩ := h.shadow_exchange (i := i) (by simp [hi]) (by simp [hi])
    exact shadow_move hl hw hw ▸ .single (.flush (hphase.trans hi))
  | @found i response reader hi hp =>
    obtain ⟨hl, hw, hphase⟩ := h.shadow_exchange (i := i) (by simp [hi]) (by simp [hi])
    rw [shadow_finish hl (idler_of_begun hw)]
    exact .single (.found (hphase.trans hi) hp)
  | @garbled i reader hi hp =>
    obtain ⟨hl, hw, hphase⟩ := h.shadow_exchange (i := i) (by simp [hi]) (by simp [hi])
    rw [shadow_finish hl (idler_of_begun hw)]
    exact .single (.garbled (hphase.trans hi) hp)
  | @wanting i reader hi hp =>
    obtain ⟨hl, hw, hphase⟩ := h.shadow_exchange (i := i) (by simp [hi]) (by simp [hi])
    exact shadow_move hl hw hw ▸ .single (.wanting (hphase.trans hi) hp)
  | @receive i bs rest hi ahead hne fits =>
    obtain ⟨hl, hw, hphase⟩ := h.shadow_exchange (i := i) (by simp [hi]) (by simp [hi])
    exact shadow_move hl hw hw ▸ .single (.receive (hphase.trans hi) ahead hne fits)
  | @fail i e he =>
    have hl := h.not_left (i := i) fun habsent => by simpa [habsent] using he.exchanges.1
    by_cases hw : c.shared.written = []
    · have hphase' : (entered request c.left c.shared i).phase i = c.shared.phase i :=
        (entered_phase request _ _ i).trans (h.locked.eq_writing he.exchanges.1 hw).symm
      rw [shadow_finish_entered request hl]
      exact .head (h.step_entered he.exchanges.1 hw) (.single (.fail (hphase'.symm ▸ he)))
    · have hphase : (shadow c.left c.shared).phase i = c.shared.phase i :=
        veil_of_not hl (by simp [idler_of_begun hw])
      have hfinish : shadow c.left (c.shared.finish i (.error e)) =
          (shadow c.left c.shared).finish i (.error e) :=
        shadow_finish hl (idler_of_begun hw) (.error e)
      exact hfinish ▸ .single (.fail (hphase.symm ▸ he))
  | arrive ahead => exact .single (.arrive ahead)
  | answer reply whole ahead => exact .single (.answer reply whole ahead)
  | pad blank => exact .single (.pad blank)

/-- A caller that leaves the queue, or the lock before it has written anything, changes nothing for
its shadow. -/
theorem Sound.simulation_step (h : c.Sound request) (hs : Step request limit c c')
    (hnothing : ∀ q ∈ c'.left, q.sent = []) :
    Shared.Steps request limit (shadow c.left c.shared) (shadow c'.left c'.shared) := by
  cases hs with
  | goOn hstep gone => exact h.shadow_step hstep gone
  | @leaveQueue i hi =>
    have hveil : veil c.left (idler c.shared) c.shared.phase i = .queued :=
      (veil_of_not (h.not_left (by simp [hi])) (h.idler_ne (by simp [hi]))).trans hi
    have hleave := veil_leave (idler c.shared) [] hveil fun _ _ => .rfl
    have hsame : shadow (c.left ++ [⟨i, []⟩]) (c.shared.move i .absent) = shadow c.left c.shared :=
      congrArg (fun phase => { shadow c.left c.shared with phase }) hleave
    rw [hsame]
    exact .refl
  | @leaveExchange i hi =>
    have hw : c.shared.written = [] := hnothing ⟨i, c.shared.written⟩ (by simp)
    obtain ⟨hold, -, -⟩ := h.locked.exchanges hi.exchanges
    have hveil : veil c.left (some i) c.shared.phase i = .queued := if_pos (.inr rfl)
    have hleave := veil_leave none c.shared.written hveil fun j hj => by simp [Ne.symm hj]
    have hsame : shadow (c.left ++ [⟨i, c.shared.written⟩])
        { c.shared.move i .absent with holder := none, written := [] } =
          shadow c.left c.shared := by
      rw [shadow_of_idle rfl, shadow_of_idle hw, hold, ← hleave]
      simp only [Shared.move, hw]
    rw [hsame]
    exact .refl

theorem simulation (h : Reachable request limit c) (hnothing : ∀ q ∈ c.left, q.sent = []) :
    Shared.Reachable request limit (shadow c.left c.shared) := by
  induction h with
  | refl =>
    have hveil : veil [] none (fun _ : ι => .absent) = fun _ => .absent :=
      funext fun j => by simp [veil]
    have hfresh : shadow [] ({} : Shared ι) = {} :=
      congrArg (fun phase => ({ phase } : Shared ι)) hveil
    exact hfresh.symm ▸ .refl
  | tail hsteps hstep ih =>
    have hstart := ih fun q hq => hnothing q (hstep.left_subset hq)
    exact hstart.trans ((Sound.of_reachable hsteps).simulation_step hstep hnothing)

/-- The shadow of a call that has returned has returned the same. -/
theorem Sound.shadow_returned (h : c.Sound request) (i : ι)
    (result : Except ServerError Response) :
    (shadow c.left c.shared).phase i = .returned result ↔ c.shared.phase i = .returned result := by
  constructor
  · intro hi
    rcases veil_eq_queued_or c.left (idler c.shared) c.shared.phase i with hq | hsame
    · exact absurd (hq.symm.trans hi) (by simp)
    · exact hsame.symm.trans hi
  · intro hi
    exact (veil_of_not (h.not_left (by simp [hi])) (h.idler_ne (by simp [hi]))).trans hi

theorem exchanges_of_shadow (hi : ((shadow c.left c.shared).phase i).Exchanges) :
    (c.shared.phase i).Exchanges := by
  rcases veil_eq_queued_or c.left (idler c.shared) c.shared.phase i with hq | hsame
  · exact absurd (hq ▸ hi : Phase.queued.Exchanges) Phase.not_exchanges_queued
  · exact (hsame ▸ hi : (c.shared.phase i).Exchanges)

end Crowd

end MacroBridge
