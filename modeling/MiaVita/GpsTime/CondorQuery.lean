import MiaVita.GpsTime.QueryMachine

/-!
# The time query of the Condor driver

The Condor sends its sentences unasked, so that `getGPStimeUTC` only moves the driver to `GPS_QUERY`
and waits. The sentence with the time (GPZDA) ends the query. But so does every sentence with the
status of the fix (GPGGA), whatever the state: a fix makes the driver `GPS_READY` with no time
having come, and the loss of the fix makes it `GPS_SEARCH`. In the second case the thread that waits
should be signalled; the test for that comes after the assignment of the state and is never met.

Here `pthread_cond_wait` may return at any moment at which the mutex is free, signalled or not.
-/

namespace MiaVita.Condor

open TimeQuery (Query Caller GpsEvent Driver)

/-! ### The driver -/

/-- A sentence with a valid checksum: the state of the antenna, the status of the fix with its
quality and the number of satellites, the time, or something else. -/
inductive Sentence where
  | antenna (status : ℤ)
  | gga (quality : Char) (satellites : ℤ)
  | zda (body : List UInt8)
  | other

/-- `gps_fault_t`. -/
inductive GpsFault where
  | ok
  | antenaShort
  | antenaOpen

/-- The driver. -/
structure Gps extends Query where
  gpsFault : GpsFault
  numSatellites : ℤ
  /-- The program has ended. -/
  exited : Bool

/-- `init_gps`. -/
def initGps (reset : Bool) : Gps where
  gpsState := if reset then .reset else .search
  gpsFault := .ok
  numSatellites := 0
  currentTime := false
  caller := .outside
  processing := false
  exited := false
  tv := none
  returned := []

/-- The status of the fix. -/
def handleGga (quality : Char) (satellites : ℤ) (s : Gps) : Gps :=
  match quality with
  | '0' =>
    let s := { s with gpsState := .search }
    let s := if s.gpsState = .query then { s with caller := s.caller.signal } else s
    { s with numSatellites := satellites }
  | '1' | '2' => { s with gpsState := .ready, numSatellites := satellites }
  | _ => { s with exited := true }

/-- The time. -/
def handleZda (body : List UInt8) (s : Gps) : Gps :=
  if s.currentTime then
    { s with tv := some body, gpsState := .ready, caller := s.caller.signal }
  else s

/-- `process_msg` handles a sentence. -/
def handleSentence (m : Sentence) (s : Gps) : Gps :=
  match m with
  | .antenna 0 => { s with gpsFault := .antenaOpen }
  | .antenna 1 => { s with gpsFault := .ok }
  | .antenna 2 => { s with gpsFault := .antenaShort }
  | .antenna _ => { s with exited := true }
  | .gga quality satellites => handleGga quality satellites s
  | .zda body => handleZda body s
  | .other => s

/-- The driver. A thread that waits may resume at any time. -/
def driver : Driver Gps Sentence where
  query := Gps.toQuery
  exited := Gps.exited
  resumes caller := caller ≠ .outside
  getGPStimeUTC s := { s with toQuery := s.toQuery.getGPStimeUTC }
  replyAvailable s := { s with toQuery := s.toQuery.replyAvailable }
  hold b s := { s with toQuery := s.toQuery.hold b }
  handle := handleSentence
  ne_outside _ h := of_decide_eq_true h
  query_getGPStimeUTC _ := rfl
  query_replyAvailable _ := rfl
  query_hold _ _ := rfl
  exited_hold _ _ := rfl

/-- One event. -/
def gpsStep : Gps → GpsEvent Sentence → Gps := driver.step

/-! ### What a sentence does -/

/-- What a sentence can do to the state, to the thread that waits and to the time: nothing; a fix;
no fix, and no signal; or a time. -/
inductive Handled (s : Gps) (m : Sentence) (s' : Gps) : Prop where
  | nothing (hm : ∀ quality satellites, m = .gga quality satellites →
      quality ≠ '0' ∧ quality ≠ '1' ∧ quality ≠ '2')
    (hstate : s'.gpsState = s.gpsState) (htv : s'.tv = s.tv) (hcaller : s'.caller = s.caller)
  | noFix (satellites : ℤ) (hm : m = .gga '0' satellites) (hstate : s'.gpsState = .search)
    (htv : s'.tv = s.tv) (hcaller : s'.caller = s.caller)
  | fix (quality : Char) (satellites : ℤ) (hm : m = .gga quality satellites)
    (hquality : quality = '1' ∨ quality = '2') (hstate : s'.gpsState = .ready)
    (htv : s'.tv = s.tv) (hcaller : s'.caller = s.caller) (hexited : s'.exited = s.exited)
  | time (hm : ∀ quality satellites, m ≠ .gga quality satellites) (hcurrent : s.currentTime = true)
    (hstate : s'.gpsState = .ready) (htv : s'.tv ≠ none) (hcaller : s'.caller = s.caller.signal)

private theorem handled_handleGga (quality : Char) (satellites : ℤ) (s : Gps) :
    Handled s (.gga quality satellites) (handleGga quality satellites s) := by
  unfold handleGga
  split
  · -- the state is overwritten before it is tested
    exact .noFix satellites rfl rfl rfl rfl
  · exact .fix _ satellites rfl (.inl rfl) rfl rfl rfl rfl
  · exact .fix _ satellites rfl (.inr rfl) rfl rfl rfl rfl
  · rename_i h₀ h₁ h₂
    refine .nothing (fun q n h => ?_) rfl rfl rfl
    cases h
    exact ⟨h₀, h₁, h₂⟩

private theorem handled_handleSentence (m : Sentence) (s : Gps) :
    Handled s m (handleSentence m s) := by
  unfold handleSentence
  split
  case h_5 quality satellites => exact handled_handleGga quality satellites s
  case h_6 body =>
    rw [handleZda]
    split_ifs with hcurrent
    · exact .time nofun hcurrent rfl nofun rfl
    · exact .nothing nofun rfl rfl rfl
  all_goals exact .nothing nofun rfl rfl rfl

private theorem handleSentence_frame (m : Sentence) (s : Gps) :
    (handleSentence m s).currentTime = s.currentTime ∧
      (handleSentence m s).returned = s.returned := by
  unfold handleSentence
  split
  case h_5 quality satellites =>
    unfold handleGga
    split <;> exact ⟨rfl, rfl⟩
  case h_6 body =>
    rw [handleZda]
    split_ifs <;> exact ⟨rfl, rfl⟩
  all_goals exact ⟨rfl, rfl⟩

/-! ### The thread and the state -/

/-- Outside of `getGPStimeUTC` there is no query, and in `GPS_QUERY` the thread has not been
signalled. -/
structure Waits (s : Gps) : Prop where
  currentTime_iff : s.currentTime ↔ s.caller ≠ .outside
  query : s.gpsState = .query → s.caller = .waiting false

private theorem waits_initGps (reset : Bool) : Waits (initGps reset) := by
  constructor <;> cases reset <;> simp [initGps]

private theorem Waits.of_handled {s s' : Gps} {m : Sentence} (h : Waits s)
    (hcurrent : s'.currentTime = s.currentTime) (hs' : Handled s m s') : Waits s' := by
  cases hs' with
  | nothing hm hstate htv hcaller =>
    refine ⟨by rw [hcurrent, hcaller, h.currentTime_iff], ?_⟩
    rw [hstate, hcaller]
    exact h.query
  | noFix satellites hm hstate htv hcaller =>
    exact ⟨by rw [hcurrent, hcaller, h.currentTime_iff], by simp [hstate]⟩
  | fix quality satellites hm hquality hstate htv hcaller hexited =>
    exact ⟨by rw [hcurrent, hcaller, h.currentTime_iff], by simp [hstate]⟩
  | time hm hset hstate htv hcaller =>
    exact ⟨by simp [hcurrent, hcaller, h.currentTime_iff], by simp [hstate]⟩

theorem Waits.getGPStimeUTC {s : Gps} (h : Waits s) : Waits (driver.getGPStimeUTC s) := by
  change Waits { s with toQuery := s.toQuery.getGPStimeUTC }
  rw [Query.getGPStimeUTC]
  split_ifs
  · exact ⟨h.currentTime_iff, h.query⟩
  · exact ⟨by simp, by simp⟩

private theorem Waits.replyAvailable {s : Gps} (h : Waits s) (hcaller : s.caller ≠ .outside) :
    Waits (driver.replyAvailable s) := by
  change Waits { s with toQuery := s.toQuery.replyAvailable }
  rw [Query.replyAvailable]
  by_cases hquery : s.gpsState = .query
  · rw [if_pos hquery]
    exact ⟨by simp [h.currentTime_iff, hcaller], fun _ => rfl⟩
  · rw [if_neg hquery]
    exact ⟨by simp, fun h' => absurd h' hquery⟩

private theorem Waits.step {s : Gps} (h : Waits s) (e : GpsEvent Sentence) :
    Waits (gpsStep s e) := by
  refine driver.step_invariant (fun s h => h.getGPStimeUTC) ?_ ?_ ?_ h e
  · exact fun s h hresumes => h.replyAvailable (of_decide_eq_true hresumes)
  · exact fun _ s h => ⟨h.currentTime_iff, h.query⟩
  · exact fun m s h => h.of_handled (handleSentence_frame m s).1 (handled_handleSentence m s)

/-! ### A query that is answered -/

/-- A sentence that says that there is no fix and ends a query signals the thread that waits. -/
def Signals (s : Gps) (e : GpsEvent Sentence) : Prop :=
  ∀ satellites, e = .message (.gga '0' satellites) → s.processing ∧ ¬ s.exited →
    s.gpsState = .query → (gpsStep s e).caller = .waiting true

/-- No fix is reported while a query is outstanding for which no time has come. -/
def NoFixReported (s : Gps) (e : GpsEvent Sentence) : Prop :=
  ∀ quality satellites, e = .message (.gga quality satellites) → quality = '1' ∨ quality = '2' →
    s.processing ∧ ¬ s.exited → s.caller ≠ .outside → s.tv ≠ none

/-- The loss of the fix is not reported during a query. -/
def NoLossReported (s : Gps) (e : GpsEvent Sentence) : Prop :=
  ∀ satellites, e = .message (.gga '0' satellites) → s.processing ∧ ¬ s.exited →
    s.gpsState ≠ .query

/-- **No sentence without a fix signals.** -/
theorem signals_iff {s : Gps} (h : Waits s) (e : GpsEvent Sentence) :
    Signals s e ↔ NoLossReported s e := by
  constructor
  · rintro hsignals satellites rfl ⟨hprocessing, hexited⟩ hquery
    have hcaller := hsignals satellites rfl ⟨hprocessing, hexited⟩ hquery
    have hstep : gpsStep s (.message (.gga '0' satellites)) = handleGga '0' satellites s :=
      (if_neg hexited).trans (if_pos hprocessing)
    rw [hstep] at hcaller
    -- the thread waits as before, not signalled
    change s.caller = .waiting true at hcaller
    rw [h.query hquery] at hcaller
    cases hcaller
  · intro hloss satellites he hprocessing hquery
    exact absurd hquery (hloss satellites he hprocessing)

/-- The sentence reports a fix. -/
def ReportsFix (_ : Gps) (m : Sentence) : Prop :=
  ∃ quality satellites, m = .gga quality satellites ∧ (quality = '1' ∨ quality = '2')

/-- **A sentence makes a query stale** only by a fix that it reports. -/
theorem Handled.stale_iff {s s' : Gps} {m : Sentence} (hs' : Handled s m s')
    (hlive : s.exited = false) (h : ¬ driver.Stale s) :
    driver.Stale s' ↔ ReportsFix s m ∧ s.caller ≠ .outside ∧ s.tv = none := by
  cases hs' with
  | nothing hm hstate htv hcaller =>
    refine iff_of_false ?_ ?_
    · rintro ⟨-, hstale⟩
      change s'.caller ≠ .outside ∧ s'.gpsState = .ready ∧ s'.tv = none at hstale
      rw [hcaller, hstate, htv] at hstale
      exact h ⟨hlive, hstale⟩
    · rintro ⟨⟨quality, satellites, hgga, hquality⟩, -⟩
      obtain ⟨-, h₁, h₂⟩ := hm quality satellites hgga
      exact hquality.elim h₁ h₂
  | noFix satellites hm hstate htv hcaller =>
    have hsearch : ¬ s'.Stale := Query.not_stale_of_state (by simp [hstate])
    refine iff_of_false (fun h' => hsearch h'.2) ?_
    · rintro ⟨⟨quality, satellites', hgga, hquality⟩, -⟩
      rw [hm] at hgga
      cases hgga
      revert hquality
      decide
  | fix quality satellites hm hquality hstate htv hcaller hexited =>
    constructor
    · rintro ⟨-, hwaits, -, hnone⟩
      exact ⟨⟨quality, satellites, hm, hquality⟩, hcaller ▸ hwaits, htv ▸ hnone⟩
    · rintro ⟨-, hwaits, hnone⟩
      exact ⟨hexited.trans hlive, hcaller ▸ hwaits, hstate, htv.trans hnone⟩
  | time hm hset hstate htv hcaller =>
    refine iff_of_false (fun h' => htv h'.2.2.2) ?_
    rintro ⟨⟨quality, satellites, hgga, -⟩, -⟩
    exact hm quality satellites hgga

private theorem analysed_driver : driver.Analysed Waits ReportsFix where
  keeps _ e h := h.step e
  returned_eq m s := (handleSentence_frame m s).2
  stale_iff m s _ hlive hstale := (handled_handleSentence m s).stale_iff hlive hstale
  resumes _ _ hstale := decide_eq_true hstale.2.1

private theorem sound_initGps (reset : Bool) : driver.Sound Waits (initGps reset) where
  inv := waits_initGps reset
  answered := nofun
  not_stale h := h.2.1 rfl

private theorem noRecovery_iff (s : Gps) (e : GpsEvent Sentence) :
    driver.NoRecovery ReportsFix s e ↔ NoFixReported s e := by
  constructor
  · rintro h quality satellites rfl hquality ⟨hprocessing, hexited⟩
    exact h _ rfl hprocessing (Bool.eq_false_of_not_eq_true hexited)
      ⟨quality, satellites, rfl, hquality⟩
  · rintro h m rfl hprocessing hexited ⟨quality, satellites, rfl, hquality⟩
    exact h quality satellites rfl hquality ⟨hprocessing, Bool.eq_false_iff.mp hexited⟩

/-! ### Runs -/

/-- **A successful query carries a time**, at every moment of a run and whenever the thread resumes,
and the loss of the fix signals the thread that waits, if and only if no fix is reported while a
query is outstanding for which no time has come, and no loss of it during a query. -/
theorem condor_answered_iff (reset : Bool) (es : List (GpsEvent Sentence)) :
    ((∀ n sched, (∀ e ∈ sched, e = .wait ∨ e = .resume) →
        (Run.exec gpsStep (initGps reset) (es.take n ++ sched)).Answered) ∧
      Run.AllSteps gpsStep Signals (initGps reset) es) ↔
      Run.AllSteps gpsStep (fun s e => NoFixReported s e ∧ NoLossReported s e) (initGps reset)
        es := by
  have hsignals := Run.allSteps_congr (fun s e (h : Waits s) => h.step e)
    (fun s e h => signals_iff h e) (waits_initGps reset) es
  have hfix : Run.AllSteps gpsStep (driver.NoRecovery ReportsFix) (initGps reset) es ↔
      Run.AllSteps gpsStep NoFixReported (initGps reset) es :=
    Run.allSteps_congr (I := fun _ => True) (fun _ _ _ => trivial)
      (fun s e _ => noRecovery_iff s e) trivial es
  rw [hsignals, Run.allSteps_and, ← hfix]
  exact and_congr_left fun _ => analysed_driver.answered_iff (sound_initGps reset) es

/-- A fix is reported after the request, and the thread wakes up before the time comes. -/
theorem condor_not_answered :
    ¬ (Run.exec gpsStep (initGps false)
      [.wake, .message (.gga '1' 8), .wait, .call, .wake, .message (.gga '1' 8), .wait,
        .resume]).Answered := by
  intro h
  exact h ⟨0, none⟩ List.mem_cons_self rfl rfl

end MiaVita.Condor
