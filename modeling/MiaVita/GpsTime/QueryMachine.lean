import MiaVita.GpsTime.Tsip

/-!
# A query for the time (`gps_time`)

The drivers of the two receivers have the same `getGPStimeUTC`: it moves the driver to `GPS_QUERY`,
waits until `process_msg` has moved it out of there, and reads off the state alone whether it has
succeeded: it returns 0 if the driver is then in `GPS_READY`. What they differ in is what is sent to
the receiver, what `process_msg` does with a message, and when a thread that waits may resume.

`Query` is the part of a driver that a query concerns, and a `Driver` is a driver with such a part.
Both run under one mutex, which `process_msg` holds but for the time it waits for data. A query is
`Stale` if it is outstanding with no time having come, and the driver is ready all the same: the
thread that resumes then succeeds without a time. Which messages bring that about is for the drivers
to say (`Driver.Analysed`); with it, `Driver.answered_iff` says in which runs every call that
succeeds has got a time.
-/

namespace MiaVita.TimeQuery

open LassenIq (GpsState)

/-! ### The thread that asks -/

/-- The thread that asks for the time: not in `getGPStimeUTC`, or waiting there, signalled or
not. -/
inductive Caller where
  | outside
  | waiting (signalled : Bool)
  deriving DecidableEq

/-- `pthread_cond_signal(&reply_available_cond)`. -/
def Caller.signal : Caller → Caller
  | outside => outside
  | waiting _ => waiting true

@[simp] theorem Caller.signal_eq_outside (c : Caller) : c.signal = .outside ↔ c = .outside := by
  cases c <;> simp [signal]

@[simp] theorem Caller.signal_ne_waiting_false (c : Caller) : c.signal ≠ .waiting false := by
  cases c <;> simp [signal]

/-- A return of `getGPStimeUTC`: its value, and the message from which `*tv` has been assigned
since the request. -/
structure Return where
  value : ℕ
  tv : Option (List UInt8)

/-- What a query concerns. Of the pointer to the time it is kept whether it is set; `tv` is the
message from which `*current_time` has been assigned since the request, and `returned` what the
calls of `getGPStimeUTC` have returned so far. -/
structure Query where
  gpsState : GpsState
  currentTime : Bool
  caller : Caller
  /-- `process_msg` holds the mutex. -/
  processing : Bool
  tv : Option (List UInt8)
  returned : List Return

namespace Query

/-- `getGPStimeUTC` refuses. -/
def Refuses (q : Query) : Prop := q.gpsState ≠ .ready ∨ q.currentTime = true

instance (q : Query) : Decidable q.Refuses := inferInstanceAs (Decidable (_ ∨ _))

/-- `getGPStimeUTC`, up to the point where it waits. -/
def getGPStimeUTC (q : Query) : Query :=
  if q.Refuses then { q with returned := q.returned ++ [⟨1, none⟩] }
  else
    { q with
      currentTime := true
      gpsState := .query
      caller := .waiting false
      tv := none }

/-- `getGPStimeUTC`, when `pthread_cond_wait` has returned. -/
def replyAvailable (q : Query) : Query :=
  if q.gpsState = .query then { q with caller := .waiting false }
  else
    { q with
      currentTime := false
      caller := .outside
      returned := q.returned ++ [⟨if q.gpsState ≠ .ready then 2 else 0, q.tv⟩] }

/-- `process_msg` gets the mutex or gives it up. -/
def hold (b : Bool) (q : Query) : Query := { q with processing := b }

/-- `getGPStimeUTC` has returned 0 only after `*tv` had been assigned. -/
def Answered (q : Query) : Prop := ∀ r ∈ q.returned, r.value = 0 → r.tv ≠ none

/-- A query is outstanding, with no time having come, and the driver is ready all the same. -/
def Stale (q : Query) : Prop := q.caller ≠ .outside ∧ q.gpsState = .ready ∧ q.tv = none

variable {q : Query}

theorem not_stale_of_state (h : q.gpsState ≠ .ready) : ¬ q.Stale := fun hs => h hs.2.1

theorem Answered.getGPStimeUTC (h : q.Answered) : q.getGPStimeUTC.Answered := by
  rw [Query.getGPStimeUTC]
  split_ifs
  · intro r hr hvalue
    rcases List.mem_append.mp hr with hr | hr
    · exact h r hr hvalue
    · rw [List.mem_singleton.mp hr] at hvalue
      cases hvalue
  · exact h

private theorem not_stale_getGPStimeUTC (h : ¬ q.Stale) : ¬ q.getGPStimeUTC.Stale := by
  rw [getGPStimeUTC]
  split_ifs
  · exact h
  · exact not_stale_of_state (by simp)

/-- **The thread that resumes** succeeds without a time exactly if its query is stale. -/
theorem answered_replyAvailable_iff (hcaller : q.caller ≠ .outside) :
    q.replyAvailable.Answered ↔ q.Answered ∧ ¬ q.Stale := by
  rw [replyAvailable]
  by_cases hquery : q.gpsState = .query
  · rw [if_pos hquery]
    exact (and_iff_left (not_stale_of_state (by simp [hquery]))).symm
  · rw [if_neg hquery]
    simp [Answered, Stale, hcaller, or_imp, forall_and]

private theorem not_stale_replyAvailable (q : Query) : ¬ q.replyAvailable.Stale := by
  rw [replyAvailable]
  by_cases hquery : q.gpsState = .query
  · exact not_stale_of_state (by simp [hquery])
  · rw [if_neg hquery]
    exact fun h => h.1 rfl

end Query

/-! ### Drivers -/

/-- What can happen next: the thread calls `getGPStimeUTC` or resumes in it; `process_msg` gets
data, handles a message, or waits for data. -/
inductive GpsEvent (μ : Type) where
  | call
  | resume
  | wake
  | message (m : μ)
  | wait

/-- A driver: its query, whether the program has ended, from where a thread may resume, and the
functions. -/
structure Driver (σ μ : Type) where
  query : σ → Query
  exited : σ → Bool
  resumes : Caller → Bool
  getGPStimeUTC : σ → σ
  replyAvailable : σ → σ
  /-- `process_msg` gets the mutex or gives it up. -/
  hold : Bool → σ → σ
  /-- `process_msg` handles a message. -/
  handle : μ → σ → σ
  ne_outside : ∀ c, resumes c = true → c ≠ .outside
  query_getGPStimeUTC : ∀ s, query (getGPStimeUTC s) = (query s).getGPStimeUTC
  query_replyAvailable : ∀ s, query (replyAvailable s) = (query s).replyAvailable
  query_hold : ∀ b s, query (hold b s) = (query s).hold b
  exited_hold : ∀ b s, exited (hold b s) = exited s

namespace Driver

variable {σ μ : Type} (D : Driver σ μ)

/-- One event of the running program. Where it cannot happen, nothing does. -/
def liveStep (s : σ) : GpsEvent μ → σ
  | .call =>
    if (D.query s).caller = .outside ∧ ¬ (D.query s).processing then D.getGPStimeUTC s else s
  | .resume =>
    if D.resumes (D.query s).caller ∧ ¬ (D.query s).processing then D.replyAvailable s else s
  | .wake => D.hold true s
  | .message m => if (D.query s).processing then D.handle m s else s
  | .wait => D.hold false s

/-- One event. -/
def step (s : σ) (e : GpsEvent μ) : σ := if D.exited s then s else D.liveStep s e

/-- **Invariant rule**: what the two halves of `getGPStimeUTC` and `process_msg` keep, every event
keeps. -/
theorem step_invariant {I : σ → Prop} (hcall : ∀ s, I s → I (D.getGPStimeUTC s))
    (hreply : ∀ s, I s → D.resumes (D.query s).caller = true → I (D.replyAvailable s))
    (hhold : ∀ b s, I s → I (D.hold b s)) (hhandle : ∀ m s, I s → I (D.handle m s)) {s : σ}
    (h : I s) (e : GpsEvent μ) : I (D.step s e) := by
  rw [step]
  split_ifs
  · exact h
  cases e with
  | call =>
    rw [liveStep]
    split_ifs
    exacts [hcall s h, h]
  | resume =>
    rw [liveStep]
    split_ifs with hresume
    exacts [hreply s h hresume.1, h]
  | message m =>
    rw [liveStep]
    split_ifs
    exacts [hhandle m s h, h]
  | wake => exact hhold true s h
  | wait => exact hhold false s h

/-- The program runs and its query is stale. -/
def Stale (s : σ) : Prop := D.exited s = false ∧ (D.query s).Stale

/-- No message reports a fix while a query is outstanding for which no time has come. -/
def NoRecovery (Fix : σ → μ → Prop) (s : σ) (e : GpsEvent μ) : Prop :=
  ∀ m, e = .message m → (D.query s).processing = true → D.exited s = false → Fix s m →
    (D.query s).caller ≠ .outside → (D.query s).tv ≠ none

/-- **What has to be known of a driver**: an invariant under which a query gets stale by the
messages that report a fix and by no others, and the thread can resume from a stale one. -/
structure Analysed (I : σ → Prop) (Fix : σ → μ → Prop) : Prop where
  keeps : ∀ s e, I s → I (D.step s e)
  returned_eq : ∀ m s, (D.query (D.handle m s)).returned = (D.query s).returned
  stale_iff : ∀ m s, I s → D.exited s = false → ¬ D.Stale s →
    (D.Stale (D.handle m s) ↔ Fix s m ∧ (D.query s).caller ≠ .outside ∧ (D.query s).tv = none)
  resumes : ∀ s, I s → D.Stale s → D.resumes (D.query s).caller = true

/-- What the runs keep: no call has succeeded without a time, and none is about to. -/
structure Sound (I : σ → Prop) (s : σ) : Prop where
  inv : I s
  answered : (D.query s).Answered
  not_stale : ¬ D.Stale s

variable {D} {I : σ → Prop} {Fix : σ → μ → Prop}


/-- **The step lemma**: a driver stays sound in every step but a report of a fix. -/
theorem Analysed.sound_step_iff (hD : D.Analysed I Fix) {s : σ} (h : D.Sound I s)
    (e : GpsEvent μ) : D.Sound I (D.step s e) ↔ D.NoRecovery Fix s e := by
  have hinv := hD.keeps s e h.inv
  rw [Driver.step] at hinv ⊢
  cases hexited : D.exited s with
  | true =>
    refine iff_of_true ?_ fun _ _ _ hfalse => ?_
    · simpa using h
    · cases hexited.symm.trans hfalse
  | false =>
  have hquery : ¬ (D.query s).Stale := fun hs => h.not_stale ⟨hexited, hs⟩
  simp only [hexited, Bool.false_eq_true, if_false] at hinv ⊢
  cases e with
  | call =>
    refine iff_of_true ?_ nofun
    rw [liveStep] at hinv ⊢
    split_ifs at hinv ⊢
    · refine ⟨hinv, ?_, fun hs => ?_⟩
      · rw [D.query_getGPStimeUTC]
        exact h.answered.getGPStimeUTC
      · rw [Stale, D.query_getGPStimeUTC] at hs
        exact Query.not_stale_getGPStimeUTC hquery hs.2
    · exact h
  | resume =>
    refine iff_of_true ?_ nofun
    rw [liveStep] at hinv ⊢
    split_ifs at hinv ⊢ with hresume
    · refine ⟨hinv, ?_, fun hs => ?_⟩
      · rw [D.query_replyAvailable]
        exact (Query.answered_replyAvailable_iff (D.ne_outside _ hresume.1)).mpr
          ⟨h.answered, hquery⟩
      · rw [Stale, D.query_replyAvailable] at hs
        exact Query.not_stale_replyAvailable _ hs.2
    · exact h
  | message m =>
    rw [liveStep] at hinv ⊢
    split_ifs at hinv ⊢ with hprocessing
    · have hanswered : (D.query (D.handle m s)).Answered := by
        rw [Query.Answered, hD.returned_eq]
        exact h.answered
      have hstale := hD.stale_iff m s h.inv hexited h.not_stale
      constructor
      · rintro h' m' hm - - hfix hcaller htv
        cases hm
        exact h'.not_stale (hstale.mpr ⟨hfix, hcaller, htv⟩)
      · intro hno
        refine ⟨hinv, hanswered, fun h' => ?_⟩
        obtain ⟨hfix, hcaller, htv⟩ := hstale.mp h'
        exact hno m rfl hprocessing hexited hfix hcaller htv
    · exact iff_of_true h fun _ _ h' => absurd h' hprocessing
  | wake | wait =>
    refine iff_of_true ⟨hinv, ?_, fun hs => ?_⟩ nofun
    · rw [liveStep, D.query_hold]
      exact h.answered
    · rw [Stale, liveStep, D.query_hold] at hs
      exact hquery hs.2

/-- A stale query succeeds without a time, if the thread resumes as soon as it can. -/
private theorem Analysed.not_answered_of_stale (hD : D.Analysed I Fix) {s : σ} (hs : I s)
    (hstale : D.Stale s) : ¬ (D.query (Run.exec D.step s [.wait, .resume])).Answered := by
  have hresumes := hD.resumes s hs hstale
  obtain ⟨hexited, hquery⟩ := hstale
  have hwait : D.step s .wait = D.hold false s := if_neg (by simp [hexited])
  have hresume : D.step (D.hold false s) .resume = D.replyAvailable (D.hold false s) := by
    rw [step, D.exited_hold, if_neg (by simp [hexited]), liveStep, D.query_hold]
    exact if_pos ⟨hresumes, Bool.false_ne_true⟩
  rw [Run.exec_cons, Run.exec_cons, Run.exec_nil, hwait, hresume, D.query_replyAvailable,
    D.query_hold]
  intro h
  have hcaller : ((D.query s).hold false).caller ≠ .outside := D.ne_outside _ hresumes
  exact ((Query.answered_replyAvailable_iff hcaller).mp h).2 hquery

/-- **A driver is sound** if and only if no call can succeed without a time in what follows, the
thread being free to resume. -/
theorem Analysed.sound_iff_answered (hD : D.Analysed I Fix) {s : σ} (hs : I s) :
    (∀ sched, (∀ e ∈ sched, e = .wait ∨ e = .resume) →
      (D.query (Run.exec D.step s sched)).Answered) ↔ D.Sound I s := by
  constructor
  · intro hanswered
    refine ⟨hs, hanswered [] nofun, fun hstale => ?_⟩
    exact hD.not_answered_of_stale hs hstale (hanswered _ (by simp))
  · intro hsound sched hsched
    have hkeeps : ∀ s e, D.Sound I s → (e = .wait ∨ e = .resume) → D.Sound I (D.step s e) := by
      rintro s e hs (rfl | rfl) <;> exact (hD.sound_step_iff hs _).mpr nofun
    exact (Run.invariant hkeeps hsound (Run.allSteps_of_forall hsched s)).answered

/-- **A successful query carries a time**, at every moment of a run and whenever the thread resumes,
if and only if no fix is reported while a query is outstanding for which no time has come. -/
theorem Analysed.answered_iff (hD : D.Analysed I Fix) {s : σ} (hs : D.Sound I s)
    (es : List (GpsEvent μ)) :
    (∀ n sched, (∀ e ∈ sched, e = .wait ∨ e = .resume) →
      (D.query (Run.exec D.step s (es.take n ++ sched))).Answered) ↔
      Run.AllSteps D.step (D.NoRecovery Fix) s es := by
  rw [← Run.forall_take_iff (P := D.Sound I) (fun _ e hs => hD.sound_step_iff hs e) hs es]
  refine forall_congr' fun n => ?_
  rw [← hD.sound_iff_answered (Run.always hD.keeps hs.inv (es.take n))]
  simp only [Run.exec_append]

end Driver

end MiaVita.TimeQuery
