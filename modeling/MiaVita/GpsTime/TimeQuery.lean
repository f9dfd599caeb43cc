import MiaVita.GpsTime.QueryMachine

/-!
# The time query of the Lassen iQ driver

`getGPStimeUTC` sends a request to the receiver and waits. The thread that waits resumes some time
after it has been signalled, and `process_msg` goes on in between. When the fix is lost, it signals
and the query has failed; when the fix is then obtained again before the thread resumes, the driver
is in `GPS_READY` with no time having come. There is no query for a position at the same time.
-/

namespace MiaVita.LassenIq

open TimeQuery (Query Caller GpsEvent Driver)

/-! ### The driver -/

/-- A message of the receiver: its health with the two status bytes, the reply to a reset, a time, a
position, or something else. -/
inductive Message where
  | health (code antenna : UInt8)
  | swVersion
  | time (body : List UInt8)
  | lla (body : List UInt8)
  | other

/-- `gps_fault_t`. -/
inductive GpsFault where
  | ok
  | antenaShort
  | antenaOpen
  | neededReset
  | batteryFault

def resetMsg : List UInt8 := [dle, 0x25, dle, etx]
def configAutoReportMsg : List UInt8 := [dle, 0x35, 2, 0, 1, 0, dle, etx]
def enhanceSensitivityOnMsg : List UInt8 := [dle, 0x69, 1, 0, dle, etx]
def enhanceSensitivityOffMsg : List UInt8 := [dle, 0x69, 0, 0, dle, etx]
def requestTimeMsg : List UInt8 := [dle, 0x21, dle, etx]
def requestHealthMsg : List UInt8 := [dle, 0x26, dle, etx]

/-- The driver, and what has been written to the receiver. Of the pointer to the latitude it is kept
whether it is set. -/
structure Gps extends Query where
  gpsFault : GpsFault
  currentLatitude : Bool
  written : List (List UInt8)

/-- `init_gps`. -/
def initGps (indoor reset : Bool) : Gps where
  gpsState := if reset then .reset else .search
  gpsFault := .ok
  currentTime := false
  currentLatitude := false
  written :=
    (if reset then
      [if indoor then enhanceSensitivityOnMsg else enhanceSensitivityOffMsg, resetMsg]
    else []) ++ [configAutoReportMsg] ++ (if reset then [] else [requestHealthMsg])
  caller := .outside
  processing := false
  tv := none
  returned := []

/-- Non-state specific messages. -/
def handleHealth (code antenna : UInt8) (s : Gps) : Gps :=
  let s :=
    if code = 0x02 then
      { s with
        written := s.written ++ [resetMsg]
        -- will never receive reply for current time request
        caller := if s.gpsState = .query then s.caller.signal else s.caller
        gpsFault := .neededReset
        gpsState := .reset }
    else { s with gpsFault := .ok }
  if antenna >>> 4 = 0x03 then { s with gpsFault := .antenaShort }
  else if antenna >>> 4 = 0x01 then { s with gpsFault := .antenaOpen }
  else if antenna &&& 1 = 1 then { s with gpsFault := .batteryFault }
  else s

/-- State specific messages. -/
def handleInState (m : Message) (s : Gps) : Gps :=
  match s.gpsState, m with
  | .reset, .swVersion => { s with gpsState := .search }
  | .reset, _ => s
  | .search, .health code _ => if code = 0 then { s with gpsState := .ready } else s
  | .search, _ => s
  | .ready, .health code _ => if code ≠ 0 then { s with gpsState := .search } else s
  | .ready, _ => s
  | _, .health code _ =>
    if code ≠ 0 then { s with gpsState := .search, caller := s.caller.signal } else s
  | _, .time body =>
    if s.currentTime then
      { s with tv := some body, gpsState := .ready, caller := s.caller.signal }
    else s
  | _, .lla _ =>
    if s.currentLatitude then { s with gpsState := .ready, caller := s.caller.signal } else s
  | _, _ => s

/-- `process_msg` handles a message. -/
def handleMessage (m : Message) (s : Gps) : Gps :=
  match m with
  | .health code antenna => handleInState m (handleHealth code antenna s)
  | _ => handleInState m s

/-- `getGPStimeUTC`, up to the point where it waits. -/
def getGPStimeUTC (s : Gps) : Gps :=
  { s with
    toQuery := s.toQuery.getGPStimeUTC
    written := if s.Refuses then s.written else s.written ++ [requestTimeMsg] }

/-- The driver. A thread that waits resumes after it has been signalled. -/
def driver : Driver Gps Message where
  query := Gps.toQuery
  exited _ := false
  resumes caller := caller = .waiting true
  getGPStimeUTC := getGPStimeUTC
  replyAvailable s := { s with toQuery := s.toQuery.replyAvailable }
  hold b s := { s with toQuery := s.toQuery.hold b }
  handle := handleMessage
  ne_outside _ h := by simp [of_decide_eq_true h]
  query_getGPStimeUTC _ := rfl
  query_replyAvailable _ := rfl
  query_hold _ _ := rfl
  exited_hold _ _ := rfl

/-- One event. -/
def gpsStep : Gps → GpsEvent Message → Gps := driver.step

/-! ### What a message does -/

/-- The message is a report of health in which a fix is obtained. -/
def FixObtained (s : Gps) (m : Message) : Prop :=
  s.gpsState = .search ∧ ∃ antenna, m = .health 0 antenna

/-- The fields that no message changes. -/
structure SameCall (s s' : Gps) : Prop where
  currentTime_eq : s'.currentTime = s.currentTime
  currentLatitude_eq : s'.currentLatitude = s.currentLatitude
  processing_eq : s'.processing = s.processing
  returned_eq : s'.returned = s.returned

/-- What a message can do to the state, to the thread that waits and to the time. -/
inductive Handled (s : Gps) (m : Message) (s' : Gps) : Prop where
  | nothing (hm : ¬ FixObtained s m) (hstate : s'.gpsState = s.gpsState) (htv : s'.tv = s.tv)
    (hcaller : s'.caller = s.caller)
  | fixObtained (hm : FixObtained s m) (hstate : s'.gpsState = .ready) (htv : s'.tv = s.tv)
    (hcaller : s'.caller = s.caller)
  | noFix (hm : ¬ FixObtained s m) (hstate : s'.gpsState = .reset ∨ s'.gpsState = .search)
    (htv : s'.tv = s.tv)
    (hcaller : s'.caller = if s.gpsState = .query then s.caller.signal else s.caller)
  | answer (hm : ¬ FixObtained s m) (hquery : s.gpsState = .query) (hstate : s'.gpsState = .ready)
    (htv : s'.tv ≠ none) (hcaller : s'.caller = s.caller.signal)

section HandleHealth

variable (code antenna : UInt8) (s : Gps)

@[simp] theorem handleHealth_gpsState :
    (handleHealth code antenna s).gpsState = if code = 0x02 then .reset else s.gpsState := by
  simp only [handleHealth]
  split_ifs <;> rfl

@[simp] theorem handleHealth_caller :
    (handleHealth code antenna s).caller =
      if code = 0x02 ∧ s.gpsState = .query then s.caller.signal else s.caller := by
  by_cases hcode : code = 0x02 <;> by_cases hquery : s.gpsState = .query <;>
    simp only [handleHealth, hcode, hquery, if_true, if_false, true_and, false_and, and_self] <;>
    split_ifs <;> rfl

@[simp] theorem handleHealth_tv : (handleHealth code antenna s).tv = s.tv := by
  simp only [handleHealth]
  split_ifs <;> rfl

private theorem sameCall_handleHealth : SameCall s (handleHealth code antenna s) := by
  constructor <;> simp only [handleHealth] <;> split_ifs <;> rfl

end HandleHealth

private theorem SameCall.trans {s s' s'' : Gps} (h : SameCall s s') (h' : SameCall s' s'') :
    SameCall s s'' where
  currentTime_eq := h'.currentTime_eq.trans h.currentTime_eq
  currentLatitude_eq := h'.currentLatitude_eq.trans h.currentLatitude_eq
  processing_eq := h'.processing_eq.trans h.processing_eq
  returned_eq := h'.returned_eq.trans h.returned_eq

private theorem sameCall_handleInState (m : Message) (s : Gps) :
    SameCall s (handleInState m s) := by
  constructor <;> simp only [handleInState] <;> split <;> first | rfl | (split <;> rfl)

private theorem sameCall_handleMessage (m : Message) (s : Gps) :
    SameCall s (handleMessage m s) := by
  cases m with
  | health code antenna =>
    exact (sameCall_handleHealth code antenna s).trans (sameCall_handleInState _ _)
  | swVersion | time | lla | other => exact sameCall_handleInState _ s

private theorem not_fixObtained {s : Gps} (h : s.gpsState ≠ .search) (m : Message) :
    ¬ FixObtained s m :=
  fun hm => h hm.1

/-- The second part of `process_msg`, where no position has been asked for. -/
private theorem handled_handleInState (m : Message) {s : Gps} (hinit : s.gpsState ≠ .preInit)
    (hlatitude : s.currentLatitude = false) : Handled s m (handleInState m s) := by
  cases hstate : s.gpsState with
  | preInit => exact absurd hstate hinit
  | reset =>
    have hm : ¬ FixObtained s m := not_fixObtained (by simp [hstate]) m
    cases m with
    | swVersion =>
      refine .noFix hm (Or.inr ?_) ?_ ?_ <;> simp [handleInState, hstate]
    | health | time | lla | other =>
      refine .nothing hm ?_ ?_ ?_ <;> simp [handleInState, hstate]
  | search =>
    by_cases hm : FixObtained s m
    · obtain ⟨_, antenna, rfl⟩ := hm
      refine .fixObtained ⟨hstate, antenna, rfl⟩ ?_ ?_ ?_ <;> simp [handleInState, hstate]
    · have heq : handleInState m s = s := by
        cases m with
        | health code antenna =>
          have hcode : code ≠ 0 := fun h => hm ⟨hstate, antenna, by rw [h]⟩
          simp [handleInState, hstate, hcode]
        | swVersion | time | lla | other => simp [handleInState, hstate]
      rw [heq]
      exact .nothing hm rfl rfl rfl
  | ready =>
    have hm : ¬ FixObtained s m := not_fixObtained (by simp [hstate]) m
    cases m with
    | health code antenna =>
      by_cases hcode : code = 0
      · refine .nothing hm ?_ ?_ ?_ <;> simp [handleInState, hstate, hcode]
      · refine .noFix hm (Or.inr ?_) ?_ ?_ <;> simp [handleInState, hstate, hcode]
    | swVersion | time | lla | other =>
      refine .nothing hm ?_ ?_ ?_ <;> simp [handleInState, hstate]
  | query =>
    have hm : ¬ FixObtained s m := not_fixObtained (by simp [hstate]) m
    cases m with
    | health code antenna =>
      by_cases hcode : code = 0
      · refine .nothing hm ?_ ?_ ?_ <;> simp [handleInState, hstate, hcode]
      · refine .noFix hm (Or.inr ?_) ?_ ?_ <;> simp [handleInState, hstate, hcode]
    | time body =>
      by_cases hcurrent : s.currentTime
      · refine .answer hm hstate ?_ ?_ ?_ <;> simp [handleInState, hstate, hcurrent]
      · refine .nothing hm ?_ ?_ ?_ <;> simp [handleInState, hstate, hcurrent]
    | swVersion | lla | other =>
      refine .nothing hm ?_ ?_ ?_ <;> simp [handleInState, hstate, hlatitude]

/-- Of the state before, only these three fields count. -/
private theorem Handled.congr_left {s s₁ s' : Gps} {m : Message} (hstate : s₁.gpsState = s.gpsState)
    (htv : s₁.tv = s.tv) (hcaller : s₁.caller = s.caller) (h : Handled s₁ m s') :
    Handled s m s' := by
  have hfix : FixObtained s₁ m ↔ FixObtained s m := by rw [FixObtained, FixObtained, hstate]
  cases h with
  | nothing hm hs ht hc =>
    exact .nothing (hfix.not.mp hm) (hs.trans hstate) (ht.trans htv) (hc.trans hcaller)
  | fixObtained hm hs ht hc =>
    exact .fixObtained (hfix.mp hm) hs (ht.trans htv) (hc.trans hcaller)
  | noFix hm hs ht hc =>
    refine .noFix (hfix.not.mp hm) hs (ht.trans htv) ?_
    rw [hc, hstate, hcaller]
  | answer hm hquery hs ht hc =>
    exact .answer (hfix.not.mp hm) (hstate ▸ hquery) hs ht (by rw [hc, hcaller])

private theorem handled_handleMessage (m : Message) {s : Gps} (hinit : s.gpsState ≠ .preInit)
    (hlatitude : s.currentLatitude = false) : Handled s m (handleMessage m s) := by
  cases m with
  | health code antenna =>
    have hsame := sameCall_handleHealth code antenna s
    by_cases hcode : code = 0x02
    · -- the device is reset, and the second part does nothing with the message
      have hm : ¬ FixObtained s (.health code antenna) := by
        rintro ⟨_, _, hm⟩
        simp [hcode] at hm
      refine .noFix hm (Or.inl ?_) ?_ ?_ <;> simp [handleMessage, handleInState, hcode]
    · have hstate : (handleHealth code antenna s).gpsState = s.gpsState := by simp [hcode]
      have hhandled := handled_handleInState (.health code antenna) (hstate ▸ hinit)
        (hsame.currentLatitude_eq.trans hlatitude)
      exact hhandled.congr_left hstate (by simp) (by simp [hcode])
  | swVersion | time | lla | other => exact handled_handleInState _ hinit hlatitude

/-! ### The thread and the state -/

/-- No fix is obtained while a query is outstanding for which no time has come. -/
def NoRecovery (s : Gps) : GpsEvent Message → Prop
  | .message m => s.processing → FixObtained s m → s.caller ≠ .outside → s.tv ≠ none
  | _ => True

/-- **The thread and the state**: outside of `getGPStimeUTC` there is no query, and a thread that
has not been signalled waits in `GPS_QUERY`. -/
structure Waits (s : Gps) : Prop where
  ne_preInit : s.gpsState ≠ .preInit
  currentLatitude_eq : s.currentLatitude = false
  currentTime_iff : s.currentTime ↔ s.caller ≠ .outside
  ne_query : s.caller = .outside → s.gpsState ≠ .query
  query : s.caller = .waiting false → s.gpsState = .query

private theorem waits_initGps (indoor reset : Bool) : Waits (initGps indoor reset) := by
  constructor <;> cases reset <;> simp [initGps]

/-- No message brings the thread into `getGPStimeUTC` or out of it. -/
private theorem Handled.outside_iff {s s' : Gps} {m : Message} (h : Handled s m s') :
    s'.caller = .outside ↔ s.caller = .outside := by
  cases h with
  | nothing _ _ _ hcaller | fixObtained _ _ _ hcaller => rw [hcaller]
  | noFix _ _ _ hcaller =>
    rw [hcaller]
    split_ifs <;> simp
  | answer _ _ _ _ hcaller => rw [hcaller, Caller.signal_eq_outside]

private theorem Waits.of_handled {s s' : Gps} {m : Message} (h : Waits s) (hsame : SameCall s s')
    (hs' : Handled s m s') : Waits s' := by
  have hlatitude := hsame.currentLatitude_eq.trans h.currentLatitude_eq
  have hcurrent : s'.currentTime ↔ s'.caller ≠ .outside := by
    rw [hsame.currentTime_eq, h.currentTime_iff, ne_eq, ne_eq, hs'.outside_iff]
  cases hs' with
  | nothing hm hstate htv hcaller =>
    refine ⟨hstate ▸ h.ne_preInit, hlatitude, hcurrent, ?_, ?_⟩
    · rw [hcaller, hstate]
      exact h.ne_query
    · rw [hcaller, hstate]
      exact h.query
  | fixObtained hm hstate htv hcaller =>
    refine ⟨by simp [hstate], hlatitude, hcurrent, by simp [hstate], fun hwaiting => ?_⟩
    -- a thread that has not been signalled is not in `GPS_SEARCH`
    have hquery := h.query (hcaller ▸ hwaiting)
    rw [hm.1] at hquery
    cases hquery
  | noFix hm hstate htv hcaller =>
    have hother : s'.gpsState ≠ .preInit ∧ s'.gpsState ≠ .query := by
      rcases hstate with hstate | hstate <;> simp [hstate]
    refine ⟨hother.1, hlatitude, hcurrent, fun _ => hother.2, fun hwaiting => ?_⟩
    -- in `GPS_QUERY` the thread is signalled, and elsewhere it has been
    rw [hcaller] at hwaiting
    split_ifs at hwaiting with hquery
    · simp at hwaiting
    · exact absurd (h.query hwaiting) hquery
  | answer hm hquery hstate htv hcaller =>
    exact ⟨by simp [hstate], hlatitude, hcurrent, by simp [hstate], by simp [hcaller]⟩

theorem Waits.getGPStimeUTC {s : Gps} (h : Waits s) : Waits (getGPStimeUTC s) := by
  rw [LassenIq.getGPStimeUTC, Query.getGPStimeUTC]
  split_ifs
  · exact ⟨h.ne_preInit, h.currentLatitude_eq, h.currentTime_iff, h.ne_query, h.query⟩
  · exact ⟨by simp, h.currentLatitude_eq, by simp, by simp, by simp⟩

private theorem Waits.replyAvailable {s : Gps} (h : Waits s) (hcaller : s.caller = .waiting true) :
    Waits (driver.replyAvailable s) := by
  change Waits { s with toQuery := s.toQuery.replyAvailable }
  rw [Query.replyAvailable]
  by_cases hquery : s.gpsState = .query
  · rw [if_pos hquery]
    refine ⟨h.ne_preInit, h.currentLatitude_eq, ?_, by simp, fun _ => hquery⟩
    simp [h.currentTime_iff, hcaller]
  · rw [if_neg hquery]
    exact ⟨h.ne_preInit, h.currentLatitude_eq, by simp, fun _ => hquery, by simp⟩

private theorem Waits.step {s : Gps} (h : Waits s) (e : GpsEvent Message) :
    Waits (gpsStep s e) := by
  refine driver.step_invariant (fun s h => h.getGPStimeUTC) ?_ ?_ ?_ h e
  · exact fun s h hresumes => h.replyAvailable (of_decide_eq_true hresumes)
  · exact fun _ s h =>
      ⟨h.ne_preInit, h.currentLatitude_eq, h.currentTime_iff, h.ne_query, h.query⟩
  · exact fun m s h => h.of_handled (sameCall_handleMessage m s)
      (handled_handleMessage m h.ne_preInit h.currentLatitude_eq)

/-- A query that is outstanding in `GPS_READY` has been signalled. -/
private theorem Waits.signalled {s : Gps} (h : Waits s) (hcaller : s.caller ≠ .outside)
    (hready : s.gpsState = .ready) : s.caller = .waiting true := by
  rcases hc : s.caller with _ | _ | _
  · exact absurd hc hcaller
  · have hquery := h.query hc
    rw [hready] at hquery
    cases hquery
  · rfl

/-! ### A query that is answered -/

/-- **A message makes a query stale** only by a fix that is obtained again. -/
theorem Handled.stale_iff {s s' : Gps} {m : Message} (hs' : Handled s m s') (h : ¬ s.Stale) :
    s'.Stale ↔ FixObtained s m ∧ s.caller ≠ .outside ∧ s.tv = none := by
  cases hs' with
  | nothing hm hstate htv hcaller =>
    refine iff_of_false ?_ fun h' => hm h'.1
    rw [Query.Stale, hcaller, hstate, htv]
    exact h
  | fixObtained hm hstate htv hcaller => simp [Query.Stale, hm, hstate, htv, hcaller]
  | noFix hm hstate htv hcaller =>
    refine iff_of_false (Query.not_stale_of_state ?_) fun h' => hm h'.1
    rcases hstate with hstate | hstate <;> simp [hstate]
  | answer hm hquery hstate htv hcaller =>
    exact iff_of_false (fun h' => htv h'.2.2) fun h' => hm h'.1

private theorem stale_driver_iff (s : Gps) : driver.Stale s ↔ s.Stale := and_iff_right rfl

private theorem analysed_driver : driver.Analysed Waits FixObtained where
  keeps _ e h := h.step e
  returned_eq m s := (sameCall_handleMessage m s).returned_eq
  stale_iff m s h _ hstale := by
    rw [stale_driver_iff] at hstale ⊢
    exact (handled_handleMessage m h.ne_preInit h.currentLatitude_eq).stale_iff hstale
  resumes s h hstale := decide_eq_true (h.signalled hstale.2.1 hstale.2.2.1)

private theorem sound_initGps (indoor reset : Bool) :
    driver.Sound Waits (initGps indoor reset) where
  inv := waits_initGps indoor reset
  answered := nofun
  not_stale h := h.2.1 rfl

private theorem noRecovery_iff (s : Gps) (e : GpsEvent Message) :
    driver.NoRecovery FixObtained s e ↔ NoRecovery s e := by
  cases e with
  | message m =>
    constructor
    · exact fun h hprocessing hfix => h m rfl hprocessing rfl hfix
    · rintro h m' hm hprocessing - hfix
      cases hm
      exact h hprocessing hfix
  | call | resume | wake | wait => exact iff_of_true nofun trivial

/-- **A successful query carries a time** at every moment of a run, whenever the thread resumes, if
and only if no fix is obtained while a query is outstanding for which no time has come. -/
theorem getGPStimeUTC_answered_iff (indoor reset : Bool) (es : List (GpsEvent Message)) :
    (∀ n sched, (∀ e ∈ sched, e = .wait ∨ e = .resume) →
      (Run.exec gpsStep (initGps indoor reset) (es.take n ++ sched)).Answered) ↔
      Run.AllSteps gpsStep NoRecovery (initGps indoor reset) es := by
  rw [← Run.allSteps_congr (I := fun _ => True) (fun _ _ _ => trivial)
    (fun s e _ => noRecovery_iff s e) trivial es]
  exact analysed_driver.answered_iff (sound_initGps indoor reset) es

/-- The fix is lost after the request and obtained again before the thread resumes. -/
theorem getGPStimeUTC_not_answered :
    ¬ (Run.exec gpsStep (initGps false false)
      [.wake, .message (.health 0 0), .wait, .call, .wake, .message (.health 8 0),
        .message (.health 0 0), .wait, .resume]).Answered := by
  intro h
  exact h ⟨0, none⟩ List.mem_cons_self rfl rfl

end MiaVita.LassenIq
