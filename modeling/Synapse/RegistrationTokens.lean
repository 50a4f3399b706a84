import Synapse.Dict
import Synapse.Runs

/-!
# Registration tokens

A token allows a number of registrations. Its row counts those that have passed the
stage of the token, `pending`, and those that are done, `completed`. A request goes
through the stage, and through the end of the registration, by one call of the store
after the other, and the other requests run between them.
-/

set_option autoImplicit false

namespace Synapse.RegistrationTokens
open List Dict Option AList Bool Runs

/-- `LoginType.REGISTRATION_TOKEN` -/
def tokenStage : String := "m.login.registration_token"

structure RegistrationToken where
  usesAllowed : Option ℕ
  pending : ℤ
  completed : ℤ
  expiryTime : Option ℕ
  deriving DecidableEq

/-- The result of a stage: the token that was used, `True`, or that of another stage. -/
inductive Result where
  | token (token : String)
  | yes
  | other
  deriving DecidableEq

structure Session where
  creationTime : ℕ
  registrationToken : Option String
  registeredUserId : Option String
  credentials : Dict String Result
  passed : List String
  used : Bool

/-- `uses_allowed and pending + completed >= uses_allowed` -/
def RegistrationToken.usedUp (row : RegistrationToken) : Bool :=
  row.usesAllowed.any (fun usesAllowed : ℕ =>
    decide (usesAllowed ≠ 0) && decide ((usesAllowed : ℤ) ≤ row.pending+row.completed))

def registrationTokenIsValid (now : ℕ) (row : Option RegistrationToken) : Bool :=
  row.any (fun row =>
    !row.expiryTime.any (fun expiryTime => decide (expiryTime ≠ 0) && decide (expiryTime < now)) &&
      !row.usedUp)

def setRegistrationTokenPending (row : RegistrationToken) : RegistrationToken :=
  { row with pending := row.pending+1 }

def useRegistrationToken (row : RegistrationToken) : RegistrationToken :=
  { row with completed := row.completed+1, pending := row.pending-1 }

/-- The `auth` of a request: nothing but the session, a token, or another stage. -/
inductive Attempt where
  | nothing
  | token (token : String)
  | other (stageType : String) (passes : Bool)
  deriving DecidableEq

inductive AuthCall where
  | getSessionData (token : String)
  | tokenIsValid (token : String)
  | setPending (token : String)
  | setSessionData (token : String)
  | markStageComplete (stageType : String) (result : Result)
  | completedStages
  deriving DecidableEq

inductive CompletionCall where
  | registerUser
  | setRegisteredUser (userId : String)
  | getSessionData
  | useToken (token : String)
  | markStageComplete
  deriving DecidableEq

/-- Where a request is. In a stage, `/register` has read the user that the session registered
before, and the fallback page has no such caller. -/
inductive Call where
  | start (attempt : Attempt)
  | auth (caller : Option (Option String)) (call : AuthCall)
  | completion (call : CompletionCall)
  deriving DecidableEq

structure Request where
  session : String
  call : Call
  deriving DecidableEq

structure World where
  registrationTokens : Dict String RegistrationToken
  sessions : Dict String Session
  requests : List Request

def empty : World := ⟨∅,∅,[]⟩

section Steps

def World.setSession (w : World) (session : String) (data : Session) : World :=
  { w with sessions := w.sessions.insert session data }

def World.setToken (w : World) (token : String) (row : RegistrationToken) : World :=
  { w with registrationTokens := w.registrationTokens.insert token row }

def World.goOn (w : World) (session : String) (call : Option Call) : World :=
  { w with requests := w.requests ++ (call.map (Request.mk session)).toList }

/-- The stage has been tried: `/register` looks at the stages that are complete. -/
def afterStage (caller : Option (Option String)) : Option Call :=
  caller.map (fun registered => .auth (some registered) .completedStages)

/-- The start of a stage. Without a token the one of the token raises a `LoginError`. -/
def checkAuth (caller : Option (Option String)) : Attempt → Option Call
  | .nothing => afterStage caller
  | .token token => some (.auth caller (.getSessionData token))
  | .other stageType passes =>
    if passes ∧ stageType ≠ tokenStage then
      some (.auth caller (.markStageComplete stageType .other))
    else afterStage caller

def Session.storedToken (data : Session) : Option String :=
  data.registrationToken.filter (fun token => decide (token ≠ ""))

def World.note (w : World) (session : String) (f : Session → Session) : World :=
  match w.sessions.lookup session with
  | none => w
  | some data => w.setSession session (f data)

def authStep (now : ℕ) (flows : List (List String)) (session : String)
    (caller : Option (Option String)) (w : World) : AuthCall → World
  | .getSessionData token =>
    match w.sessions.lookup session with
    | none => w
    | some data =>
      match data.storedToken with
      | none => w.goOn session (some (.auth caller (.tokenIsValid token)))
      | some storedToken =>
        if token ≠ storedToken then w.goOn session (afterStage caller)
        else w.goOn session
          (some (.auth caller (.markStageComplete tokenStage (.token token))))
  | .tokenIsValid token =>
    if registrationTokenIsValid now (w.registrationTokens.lookup token) then
      w.goOn session (some (.auth caller (.setPending token)))
    else w.goOn session (afterStage caller)
  | .setPending token =>
    match w.registrationTokens.lookup token with
    | none => w
    | some row =>
      ((w.setToken token (setRegistrationTokenPending row)).note session
        (fun data => { data with passed := token::data.passed })).goOn session
          (some (.auth caller (.setSessionData token)))
  | .setSessionData token =>
    match w.sessions.lookup session with
    | none => w
    | some data =>
      (w.setSession session { data with registrationToken := some token }).goOn session
        (some (.auth caller (.markStageComplete tokenStage (.token token))))
  | .markStageComplete stageType result =>
    match w.sessions.lookup session with
    | none => w
    | some data =>
      (w.setSession session
        { data with credentials := data.credentials.insert stageType result }).goOn session
          (afterStage caller)
  | .completedStages =>
    let creds := ((w.sessions.lookup session).map Session.credentials).getD ∅
    if flows.any (fun flow => flow.all (fun stageType => decide (stageType ∈ creds))) ∧
        caller = some none then
      w.goOn session (some (.completion .registerUser))
    else w

/-- The end of `on_POST`. The user ID is what `register_user` gives, if it does not raise. -/
def completionStep (userId : Option String) (session : String) (w : World) :
    CompletionCall → World
  | .registerUser =>
    w.goOn session (userId.map (fun userId => .completion (.setRegisteredUser userId)))
  | .setRegisteredUser userId =>
    match w.sessions.lookup session with
    | none => w
    | some data =>
      (w.setSession session { data with registeredUserId := some userId }).goOn session
        (some (.completion .getSessionData))
  | .getSessionData =>
    match w.sessions.lookup session with
    | none => w
    | some data =>
      w.goOn session (data.storedToken.map (fun token => .completion (.useToken token)))
  | .useToken token =>
    match w.registrationTokens.lookup token with
    | none => w
    | some row =>
      ((w.setToken token (useRegistrationToken row)).note session
        (fun data => { data with used := true })).goOn session
          (some (.completion .markStageComplete))
  | .markStageComplete =>
    match w.sessions.lookup session with
    | none => w
    | some data =>
      w.setSession session { data with credentials := data.credentials.insert tokenStage .yes }

def requestStep (now : ℕ) (userId : Option String) (flows : List (List String))
    (session : String) (w : World) : Call → World
  | .start attempt =>
    match w.sessions.lookup session with
    | none => w
    | some data => w.goOn session (checkAuth (some data.registeredUserId) attempt)
  | .auth caller call => authStep now flows session caller w call
  | .completion call => completionStep userId session w call

def tokenCounts (results : List Result) : Dict String ℕ :=
  results.foldl (fun counts result =>
    match result with
    | .token token => counts.insert token ((counts.lookup token).getD 0+1)
    | _ => counts) ∅

def decrementPending (counts : Dict String ℕ) (tokens : Dict String RegistrationToken) :
    Dict String RegistrationToken :=
  counts.keys.foldl (fun tokens' token =>
    match tokens.lookup token with
    | none => tokens'
    | some row =>
      tokens'.insert token
        { row with pending := row.pending-((counts.lookup token).getD 0 : ℕ) }) tokens

def expired (expirationTime : ℕ) (data : Session) : Bool :=
  decide (data.creationTime ≤ expirationTime)

def deleteOldUiAuthSessions (expirationTime : ℕ) (w : World) : World :=
  let old := (values w.sessions).filter (expired expirationTime)
  let results := old.filterMap (fun data => data.credentials.lookup tokenStage)
  { w with
    registrationTokens := decrementPending (tokenCounts results) w.registrationTokens
    sessions := Dict.filter w.sessions (fun _ data => !expired expirationTime data) }

inductive Op where
  | createRegistrationToken (token : String) (usesAllowed expiryTime : Option ℕ)
  | createUiAuthSession (session : String) (now : ℕ)
  | register (session : String) (attempt : Attempt)
  | fallback (session : String) (attempt : Attempt)
  | advance (request now : ℕ) (userId : Option String)
  | expire (expirationTime : ℕ)
  deriving DecidableEq

variable (flows : List (List String))

def step : Op → World → World
  | .createRegistrationToken token usesAllowed expiryTime, w =>
    -- the admin API refuses the empty token
    if token = "" ∨ token ∈ w.registrationTokens then w
    else w.setToken token ⟨usesAllowed,0,0,expiryTime⟩
  | .createUiAuthSession session now, w =>
    if session ∈ w.sessions then w else w.setSession session ⟨now,none,none,∅,[],false⟩
  | .register session attempt, w => w.goOn session (some (.start attempt))
  | .fallback session attempt, w => w.goOn session (checkAuth none attempt)
  | .advance n now userId, w =>
    match w.requests[n]? with
    | none => w
    | some request =>
      requestStep now userId flows request.session
        { w with requests := w.requests.eraseIdx n } request.call
  | .expire expirationTime, w => deleteOldUiAuthSessions expirationTime w

end Steps

/-- The session passed the stage with the token and its registration is not complete. -/
def Session.waits (token : String) (data : Session) : Bool :=
  decide (token ∈ data.passed) && !data.used

def waiting (w : World) (token : String) : ℕ :=
  (values w.sessions).countP (Session.waits token)

def Accounted (w : World) : Prop :=
  ∀ token row, w.registrationTokens.lookup token = some row →
    row.pending = waiting w token ∧ 0 ≤ row.pending ∧
      ∀ usesAllowed ∈ row.usesAllowed, 0 < usesAllowed → row.pending+row.completed ≤ usesAllowed

def Attempt.isToken : Attempt → Bool
  | .token _ => true
  | _ => false

def Call.setsPending : Call → Option String
  | .auth _ (.setPending token) => some token
  | _ => none

/-- A session has one request at a time and none before it is created, does not go through the
stage of the token again after its registration, and is not deleted during a request. No request
increments the pending counter of a token that another one has checked and not yet incremented. -/
def Orderly : Op → World → Prop
  | .register session attempt, w | .fallback session attempt, w =>
    (∀ request ∈ w.requests, request.session ≠ session) ∧
      (attempt.isToken → ∀ data ∈ w.sessions.lookup session, data.used = false)
  | .advance n _ _, w =>
    ∀ request ∈ w.requests[n]?, ∀ token ∈ request.call.setsPending,
      ∀ other ∈ w.requests.eraseIdx n, other.call.setsPending ≠ some token
  | .expire expirationTime, w =>
    ∀ request ∈ w.requests, ∀ data ∈ w.sessions.lookup request.session,
      expired expirationTime data = false
  | .createUiAuthSession session _, w => ∀ request ∈ w.requests, request.session ≠ session
  | .createRegistrationToken _ _ _, _ => True

instance : ∀ op w, Decidable (Orderly op w)
  | .register _ _, _ | .fallback _ _, _ => inferInstanceAs (Decidable (_ ∧ _))
  | .advance _ _ _, _ => inferInstanceAs (Decidable (∀ _ ∈ _,_))
  | .expire _, _ => inferInstanceAs (Decidable (∀ _ ∈ _,_))
  | .createUiAuthSession _ _, _ => inferInstanceAs (Decidable (∀ _ ∈ _,_))
  | .createRegistrationToken _ _ _, _ => inferInstanceAs (Decidable True)

variable {w : World} {data : Session} {session token : String} {call : Call}
  {caller : Option (Option String)} {requests : List Request}

theorem waiting_setSession (hd : w.sessions.lookup session = some data) (next : Session)
    (token : String) :
    waiting (w.setSession session next) token+(if data.waits token then 1 else 0) =
      (if next.waits token then 1 else 0)+waiting w token := by
  have hs := countP_values_set w.sessions session next (Session.waits token)
  rw [hd] at hs
  exact hs

theorem waiting_setSession_of_eq {next : Session} (hd : w.sessions.lookup session = some data)
    (hp : next.passed = data.passed) (hu : next.used = data.used) (token : String) :
    waiting (w.setSession session next) token = waiting w token := by
  have hs := waiting_setSession hd next token
  have hw : next.waits token = data.waits token := by
    unfold Session.waits
    rw [hp,hu]
  rw [hw] at hs
  omega

theorem getD_lookup_tokenCounts (results : List Result) (token : String) :
    ((tokenCounts results).lookup token).getD 0 = results.count (.token token) := by
  have ha : ∀ counts : Dict String ℕ,((results.foldl (fun counts result =>
        match result with
        | .token token => counts.insert token ((counts.lookup token).getD 0+1)
        | _ => counts) counts).lookup token).getD 0 =
          (counts.lookup token).getD 0+results.count (.token token) := by
    induction results with
    | nil => intro counts; rfl
    | cons result results ih =>
      intro counts
      rw [foldl_cons,ih]
      cases result with
      | token other =>
        by_cases heq : token = other
        · subst heq
          simp
          omega
        · have hne : Result.token other ≠ Result.token token :=
            fun h => heq (Result.token.inj h).symm
          simp [heq,hne]
      | yes | other => simp
  have h := ha ∅
  rw [lookup_empty,getD_none,Nat.zero_add] at h
  exact h

theorem lookup_decrementPending (counts : Dict String ℕ) (tokens : Dict String RegistrationToken)
    (token : String) :
    (decrementPending counts tokens).lookup token = (tokens.lookup token).map
      (fun row => { row with pending := row.pending-((counts.lookup token).getD 0 : ℕ) }) := by
  refine (read_foldl (l := token) (r := AList.lookup token) ?_ ?_ (or_or ((tokens.lookup token).map
    (fun row => { row with pending := row.pending-((counts.lookup token).getD 0 : ℕ) })))
      counts.keys tokens).trans ?_
  · intro tokens'
    cases tokens.lookup token with
    | none => rfl
    | some row => exact lookup_insert tokens'
  · intro tokens' key hk
    cases tokens.lookup key with
    | none => rfl
    | some row => exact lookup_insert_ne hk
  · split
    · cases tokens.lookup token <;> rfl
    · next hm =>
      have hn : counts.lookup token = none := lookup_eq_none.mpr (fun h => hm (mem_keys.mp h))
      simp [hn]

def Session.Fresh (data : Session) : Prop :=
  data.passed = [] ∧ data.registrationToken = none ∧ data.credentials.lookup tokenStage = none ∧
    data.used = false

def Session.Entered (token : String) (data : Session) : Prop :=
  token ≠ "" ∧ data.passed = [token] ∧ data.used = false

def Session.Recorded (token : String) (data : Session) : Prop :=
  data.Entered token ∧ data.registrationToken = some token

def Session.Pending (token : String) (data : Session) : Prop :=
  data.Recorded token ∧ data.credentials.lookup tokenStage = some (.token token)

def Session.Used (data : Session) : Prop := data.used = true ∧ data.registeredUserId ≠ none

def Session.Done (data : Session) : Prop :=
  data.Used ∧ data.credentials.lookup tokenStage = some .yes

def Session.Unused (data : Session) : Prop := data.Fresh ∨ ∃ token, data.Pending token

def Session.Settled (data : Session) : Prop := data.Unused ∨ data.Done

theorem Session.Fresh.storedToken (h : data.Fresh) : data.storedToken = none := by
  rw [Session.storedToken,h.2.1]
  rfl

theorem Session.Recorded.storedToken (h : data.Recorded token) : data.storedToken = some token := by
  rw [Session.storedToken,h.2]
  simp [h.1.1]

theorem Session.Settled.unused (h : data.Settled) (hu : data.used = false) : data.Unused := by
  rcases h with h | h
  · exact h
  · rw [h.1.1] at hu
    cases hu

theorem Session.Settled.unused_of_registered (h : data.Settled)
    (hn : data.registeredUserId = none) : data.Unused := by
  rcases h with h | h
  · exact h
  · exact absurd hn h.1.2

def Reads (caller : Option (Option String)) (data : Session) : Prop :=
  ∀ registered, caller = some registered → data.registeredUserId = registered

/-- What a request needs of its session, and of the token that it has checked. -/
def Call.Fits (tokens : Dict String RegistrationToken) : Call → Option Session → Prop
  | .start attempt, data => ∀ d ∈ data, d.Settled ∧ (attempt.isToken → d.Unused)
  | .auth caller (.getSessionData _), data => ∀ d ∈ data, d.Unused ∧ Reads caller d
  | .auth caller (.tokenIsValid _), data => ∃ d ∈ data, d.Fresh ∧ Reads caller d
  | .auth caller (.setPending token), data =>
    (∃ d ∈ data, d.Fresh ∧ Reads caller d) ∧ ∀ row ∈ tokens.lookup token, row.usedUp = false
  | .auth caller (.setSessionData token), data => ∀ d ∈ data, d.Entered token ∧ Reads caller d
  | .auth caller (.markStageComplete stageType result), data =>
    ∀ d ∈ data, Reads caller d ∧
      ((stageType ≠ tokenStage ∧ d.Settled) ∨
        stageType = tokenStage ∧ ∃ token, result = .token token ∧ d.Recorded token)
  | .auth caller .completedStages, data => ∀ d ∈ data, d.Settled ∧ Reads caller d
  | .completion .registerUser, data | .completion (.setRegisteredUser _), data =>
    ∀ d ∈ data, d.Unused
  | .completion .getSessionData, data => ∀ d ∈ data, d.Unused ∧ d.registeredUserId ≠ none
  | .completion (.useToken token), data => ∃ d ∈ data, d.Pending token ∧ d.registeredUserId ≠ none
  | .completion .markStageComplete, data => ∀ d ∈ data, d.Used

def Fits (tokens : Dict String RegistrationToken) (call : Option Call) (data : Option Session) :
    Prop :=
  match call with
  | none => ∀ d ∈ data, d.Settled
  | some call => call.Fits tokens data

variable {tokens tokens' : Dict String RegistrationToken}

theorem Call.Fits.keep {data : Option Session} (h : call.Fits tokens data)
    (hkeep : ∀ token ∈ call.setsPending, (∀ row ∈ tokens.lookup token, row.usedUp = false) →
      ∀ row ∈ tokens'.lookup token, row.usedUp = false) : call.Fits tokens' data := by
  cases call with
  | start attempt => exact h
  | auth caller call =>
    cases call with
    | setPending token => exact ⟨h.1,hkeep token rfl h.2⟩
    | _ => exact h
  | completion call => cases call <;> exact h

theorem forall_mem_some {p : Session → Prop} (h : p data) : ∀ d ∈ some data, p d := by
  intro d hd
  cases hd
  exact h

theorem fits_afterStage {data : Option Session} (h : ∀ d ∈ data, d.Settled ∧ Reads caller d) :
    Fits tokens (afterStage caller) data := by
  cases caller with
  | none => exact fun d hd => (h d hd).1
  | some registered => exact h

theorem fits_checkAuth {attempt : Attempt} {data : Option Session}
    (h : ∀ d ∈ data, (d.Settled ∧ Reads caller d) ∧ (attempt.isToken → d.Unused)) :
    Fits tokens (checkAuth caller attempt) data := by
  cases attempt with
  | nothing => exact fits_afterStage (fun d hd => (h d hd).1)
  | token token => exact fun d hd => ⟨(h d hd).2 rfl,(h d hd).1.2⟩
  | other stageType passes =>
    simp only [checkAuth]
    split
    · next hp => exact fun d hd => ⟨(h d hd).1.2,.inl ⟨hp.2,(h d hd).1.1⟩⟩
    · exact fits_afterStage (fun d hd => (h d hd).1)

/-- The counters of all tokens are right, and no session waits with a token that is not there. -/
def Counted (w : World) : Prop :=
  (∀ token row, w.registrationTokens.lookup token = some row →
    row.pending = waiting w token ∧
      ∀ usesAllowed ∈ row.usesAllowed, 0 < usesAllowed → row.pending+row.completed ≤ usesAllowed) ∧
    ∀ token, w.registrationTokens.lookup token = none → waiting w token = 0

/-- Each session has at most one of the requests, and looks as this one needs it. -/
def Inv (requests : List Request) (w : World) : Prop :=
  (requests.map Request.session).Nodup ∧
    (∀ request ∈ requests,
      request.call.Fits w.registrationTokens (w.sessions.lookup request.session)) ∧
    (∀ session data, w.sessions.lookup session = some data →
      (∀ request ∈ requests, request.session ≠ session) → data.Settled) ∧
    (∀ token, token ∈ w.registrationTokens → token ≠ "") ∧ Counted w

abbrev Safe (w : World) : Prop := Inv w.requests w

theorem Inv.congr {w' : World} (h : Inv requests w)
    (ht : w'.registrationTokens = w.registrationTokens) (hs : w'.sessions = w.sessions) :
    Inv requests w' := by
  unfold Inv Counted waiting
  rw [ht,hs]
  exact h

theorem Inv.perm {requests' : List Request} (h : Inv requests w) (hp : requests.Perm requests') :
    Inv requests' w := by
  obtain ⟨hn,hf,hi,hre⟩ := h
  refine ⟨(hp.map _).nodup_iff.mp hn,?_,?_,hre⟩
  · intro req hr
    exact hf req (hp.mem_iff.mpr hr)
  · intro session data hd hno
    exact hi session data hd (fun req hr =>
      hno req (hp.mem_iff.mp hr))

theorem Counted.congr {w' : World} (h : Counted w)
    (ht : w'.registrationTokens = w.registrationTokens)
    (hw : ∀ token, waiting w' token = waiting w token) : Counted w' := by
  simp only [Counted,ht,hw]
  exact h

variable {row : RegistrationToken}

theorem Counted.setToken {w' : World} (h : Counted w)
    (ht : w'.registrationTokens = w.registrationTokens.insert token row)
    (ho : ∀ o, o ≠ token → waiting w' o = waiting w o) (hp : row.pending = waiting w' token)
    (hu : ∀ uses ∈ row.usesAllowed, 0 < uses → row.pending+row.completed ≤ uses) : Counted w' := by
  refine ⟨fun o row' hr => ?_,fun o hn => ?_⟩
  · rw [ht] at hr
    rcases set_cases hr with ⟨heq,rfl⟩ | ⟨hne,hr⟩
    · rw [heq]
      exact ⟨hp,hu⟩
    · rw [ho o hne]
      exact h.1 o row' hr
  · rw [ht,lookup_set] at hn
    split at hn
    · cases hn
    · next hne =>
      rw [ho o hne]
      exact h.2 o hn

theorem Inv.accounted (h : Inv requests w) : Accounted w := by
  intro token row hr
  obtain ⟨hp,ha⟩ := h.2.2.2.2.1 token row hr
  refine ⟨hp,?_,ha⟩
  rw [hp]
  exact Int.natCast_nonneg _

variable {rs : List Request}

theorem Inv.add (hn : (rs.map Request.session).Nodup) (hre : ∀ req ∈ rs, req.session ≠ session)
    (hf : ∀ req ∈ rs, req.call.Fits w.registrationTokens (w.sessions.lookup req.session))
    (hi : ∀ o data, o ≠ session → w.sessions.lookup o = some data →
      (∀ req ∈ rs, req.session ≠ o) → data.Settled) {next : Option Call}
    (hne : Fits w.registrationTokens next (w.sessions.lookup session))
    (he : ∀ token, token ∈ w.registrationTokens → token ≠ "") (hco : Counted w) :
    Inv (rs ++ (next.map (Request.mk session)).toList) w := by
  have had : ∀ req ∈ (next.map (Request.mk session)).toList,
      next = some req.call ∧ req.session = session := by
    intro req hr
    obtain ⟨c,hc,rfl⟩ := map_eq_some_iff.mp (mem_toList.mp hr)
    exact ⟨hc,rfl⟩
  refine ⟨?_,?_,?_,he,hco⟩
  · rw [map_append]
    apply nodup_append.mpr
    refine ⟨hn,?_,?_⟩
    · cases next <;> simp
    · intro a ha b hb heq
      obtain ⟨old,ho,rfl⟩ := mem_map.mp ha
      obtain ⟨req,hr,rfl⟩ := mem_map.mp hb
      exact hre old ho (heq.trans (had req hr).2)
  · intro req hr
    rcases mem_append.mp hr with hm | hm
    · exact hf req hm
    · obtain ⟨hca,hs⟩ := had req hm
      rw [hca] at hne
      rw [hs]
      exact hne
  · intro o data hd hno
    by_cases heq : o = session
    · subst heq
      cases next with
      | none => exact hne data hd
      | some c => exact absurd rfl (hno ⟨o,c⟩ (mem_append_right _ mem_cons_self))
    · exact hi o data heq hd (fun req hr => hno req (mem_append_left _ hr))

theorem Inv.move (h : Inv (⟨session,call⟩::rs) w) (w' : World)
    (next : Option Call)
    (ho : ∀ o, o ≠ session → w'.sessions.lookup o = w.sessions.lookup o)
    (hne : Fits w'.registrationTokens next (w'.sessions.lookup session))
    (ht : ∀ token, token ∈ w'.registrationTokens → token ∈ w.registrationTokens)
    (hkeep : ∀ req ∈ rs, ∀ token ∈ req.call.setsPending,
      (∀ row ∈ w.registrationTokens.lookup token, row.usedUp = false) →
        ∀ row ∈ w'.registrationTokens.lookup token, row.usedUp = false)
    (hco : Counted w') : Inv (rs ++ (next.map (Request.mk session)).toList) w' := by
  obtain ⟨hn,hf,hi,he,-⟩ := h
  obtain ⟨hnot,hn⟩ := nodup_cons.mp hn
  have hre : ∀ req ∈ rs, req.session ≠ session := by
    intro req hr heq
    exact hnot (mem_map.mpr ⟨req,hr,heq⟩)
  refine Inv.add hn hre ?_ ?_ hne (fun token hto => he token (ht token hto)) hco
  · intro req hr
    rw [ho _ (hre req hr)]
    exact (hf req (mem_cons_of_mem _ hr)).keep (hkeep req hr)
  · intro o data hos hd hno
    rw [ho o hos] at hd
    exact hi o data hd (forall_mem_cons.mpr ⟨hos.symm,hno⟩)

theorem Inv.stay (h : Inv (⟨session,call⟩::w.requests) w) (next : Option Call)
    (hn : Fits w.registrationTokens next (w.sessions.lookup session)) :
    Safe (w.goOn session next) :=
  (h.move w next (fun _ _ => rfl) hn (fun _ ht => ht) (fun _ _ _ _ hrow => hrow)
    h.2.2.2.2).congr rfl rfl

theorem Inv.fits (h : Inv (⟨session,call⟩::rs) w) :
    call.Fits w.registrationTokens (w.sessions.lookup session) :=
  h.2.1 _ mem_cons_self

section

variable (h : Inv (⟨session,call⟩::w.requests) w)
include h

theorem Inv.put (w' : World) {da' : Session}
    (hs : w'.sessions = w.sessions.insert session da') (hre : w'.requests = w.requests)
    {next : Option Call} (hn : Fits w'.registrationTokens next (some da'))
    (ht : ∀ token, token ∈ w'.registrationTokens → token ∈ w.registrationTokens)
    (hkeep : ∀ req ∈ w.requests, ∀ token ∈ req.call.setsPending,
      (∀ row ∈ w.registrationTokens.lookup token, row.usedUp = false) →
        ∀ row ∈ w'.registrationTokens.lookup token, row.usedUp = false)
    (hco : Counted w') : Safe (w'.goOn session next) := by
  have hm := h.move w' next (fun o hne => by rw [hs,lookup_set,if_neg hne])
    (by rw [hs,lookup_set,if_pos rfl]; exact hn) ht hkeep hco
  rw [← hre] at hm
  exact hm.congr rfl rfl

theorem Inv.write (hd : w.sessions.lookup session = some data) (da' : Session)
    (hp : da'.passed = data.passed) (hu : da'.used = data.used) (next : Option Call)
    (hn : Fits w.registrationTokens next (some da')) :
    Safe ((w.setSession session da').goOn session next) :=
  h.put (w.setSession session da') rfl rfl hn (fun _ ht => ht) (fun _ _ _ _ hrow => hrow)
    (h.2.2.2.2.congr rfl (waiting_setSession_of_eq hd hp hu))

theorem Inv.count (hd : w.sessions.lookup session = some data) (da' : Session) (next : Option Call)
    (row' : RegistrationToken) (hnx : Fits (w.registrationTokens.insert token row') next (some da'))
    (hr : w.registrationTokens.lookup token = some row) (ha : row'.usesAllowed = row.usesAllowed)
    (hsum : ∀ uses ∈ row.usesAllowed, 0 < uses → row'.pending+row'.completed ≤ uses)
    (hp : row'.pending+(if data.waits token then 1 else 0) =
      (if da'.waits token then 1 else 0)+row.pending)
    (hw : ∀ o, o ≠ token → da'.waits o = data.waits o)
    (hkeep : ∀ req ∈ w.requests, req.call.setsPending = some token → row.usedUp = false →
      row'.usedUp = false) :
    Safe (((w.setToken token row').setSession session da').goOn session next) := by
  refine h.put ((w.setToken token row').setSession session da') rfl rfl hnx ?_ ?_ ?_
  · intro o ho
    rcases mem_set.mp ho with rfl | hmem
    · exact mem_iff_lookup.mpr ⟨row,hr⟩
    · exact hmem
  · intro req hreq o ho hold new hnew
    rcases set_cases hnew with ⟨rfl,rfl⟩ | ⟨-,hnew⟩
    · exact hkeep req hreq ho (hold row hr)
    · exact hold new hnew
  · have hset : ∀ o, waiting ((w.setToken token row').setSession session da') o+
          (if data.waits o then 1 else 0) = (if da'.waits o then 1 else 0)+waiting w o :=
      fun o => waiting_setSession (w := w.setToken token row') hd da' o
    refine h.2.2.2.2.setToken rfl ?_ ?_ (by rw [ha]; exact hsum)
    · intro o hne
      have h := hset o
      rw [hw o hne] at h
      omega
    · have hold := (h.2.2.2.2.1 token row hr).1
      have hnew := hset token
      split_ifs at hnew hp <;> omega

end

theorem fits_ofLookup {call : Option Call} (hd : w.sessions.lookup session = some data)
    (h : Fits tokens call (some data)) : Fits tokens call (w.sessions.lookup session) := by
  rw [hd]
  exact h

theorem Session.Unused.settled (h : data.Unused) : data.Settled := .inl h

theorem Inv.ends (h : Inv (⟨session,call⟩::w.requests) w)
    (hs : ∀ d ∈ w.sessions.lookup session, d.Settled) : Safe w := by
  have hst := h.stay none hs
  simpa [World.goOn] using hst

theorem Inv.ofSession (h : Inv (⟨session,call⟩::w.requests) w) {next : Session → World}
    (hn : ∀ data, w.sessions.lookup session = some data → Safe (next data)) :
    Safe (match w.sessions.lookup session with
      | none => w
      | some data => next data) := by
  cases hd : w.sessions.lookup session with
  | none => exact h.ends (by simp [hd])
  | some data => exact hn data hd

theorem RegistrationToken.usedUp_eq_false : row.usedUp = false ↔
    ∀ uses ∈ row.usesAllowed, 0 < uses → row.pending+row.completed < uses := by
  cases hu : row.usesAllowed with
  | none => simp [RegistrationToken.usedUp,hu]
  | some uses =>
    simp only [RegistrationToken.usedUp,hu,any_some,mem_some_iff,forall_eq',
      Bool.and_eq_false_iff,decide_eq_false_iff_not]
    omega

theorem usedUp_of_valid {now : ℕ} {found : Option RegistrationToken}
    (h : registrationTokenIsValid now found = true) : ∀ row ∈ found, row.usedUp = false := by
  intro row hrow
  rw [registrationTokenIsValid,hrow,any_some] at h
  simpa using (Bool.and_eq_true_iff.mp h).2

theorem Inv.authStep {call : AuthCall} (h : Inv (⟨session,.auth caller call⟩::w.requests) w)
    (now : ℕ) (flows : List (List String)) (ho : ∀ token ∈ (Call.auth caller call).setsPending,
      ∀ other ∈ w.requests, other.call.setsPending ≠ some token) :
    Safe (authStep now flows session caller w call) := by
  have hfi := h.fits
  cases call with
  | getSessionData token =>
    refine h.ofSession (fun data hda => ?_)
    obtain ⟨hu,hr⟩ := hfi data hda
    rcases hu with hf | ⟨sd,hp⟩
    · rw [hf.storedToken]
      exact h.stay _ ⟨data,hda,hf,hr⟩
    · simp only [hp.1.storedToken]
      split
      · apply h.stay
        exact fits_ofLookup hda (fits_afterStage (forall_mem_some ⟨.inl (.inr ⟨sd,hp⟩),hr⟩))
      · next hsa =>
        apply h.stay
        apply fits_ofLookup hda
        exact forall_mem_some ⟨hr,.inr ⟨rfl,sd,by rw [not_not.mp hsa],hp.1⟩⟩
  | tokenIsValid token =>
    obtain ⟨data,hda,hf,hr⟩ := hfi
    simp only [RegistrationTokens.authStep]
    split
    · next hvalid => exact h.stay _ ⟨⟨data,hda,hf,hr⟩,usedUp_of_valid hvalid⟩
    · apply h.stay
      exact fits_ofLookup hda (fits_afterStage (forall_mem_some ⟨.inl (.inl hf),hr⟩))
  | setPending token =>
    obtain ⟨⟨data,hda,hf,hr⟩,hunused⟩ := hfi
    cases hrow : w.registrationTokens.lookup token with
    | none =>
      simp only [RegistrationTokens.authStep,hrow]
      apply h.ends
      rw [hda]
      exact forall_mem_some (.inl (.inl hf))
    | some row =>
      have he : token ≠ "" := h.2.2.2.1 token (mem_iff_lookup.mpr ⟨row,hrow⟩)
      have hn : (w.setToken token (setRegistrationTokenPending row)).sessions.lookup session =
          some data := hda
      simp only [RegistrationTokens.authStep,hrow,World.note,hn]
      apply h.count hda _ _ _ _ hrow
      · rfl
      · intro uses hm hpos
        have hle := RegistrationToken.usedUp_eq_false.mp (hunused row hrow) uses hm hpos
        show row.pending+1+row.completed ≤ uses
        omega
      · show row.pending+1+_ = _
        simp [Session.waits,hf.1,hf.2.2.2,add_comm]
      · intro o hne
        simp [Session.waits,hne]
      · -- no other request has checked this token
        exact fun other hother heq => absurd heq (ho token rfl other hother)
      · exact forall_mem_some ⟨⟨he,by rw [hf.1],hf.2.2.2⟩,hr⟩
  | setSessionData token =>
    refine h.ofSession (fun data hda => ?_)
    obtain ⟨hen,hr⟩ := hfi data hda
    apply h.write hda
    · rfl
    · rfl
    · exact forall_mem_some ⟨hr,.inr ⟨rfl,token,rfl,hen,rfl⟩⟩
  | markStageComplete stageType res =>
    refine h.ofSession (fun data hda => ?_)
    obtain ⟨hr,hst⟩ := hfi data hda
    apply h.write hda
    · rfl
    · rfl
    · refine fits_afterStage (forall_mem_some ⟨?_,hr⟩)
      rcases hst with ⟨hne,hs⟩ | ⟨rfl,token,rfl,hre⟩
      · -- the credentials of the stage of the token are not touched
        have hl : (data.credentials.insert stageType res).lookup tokenStage =
            data.credentials.lookup tokenStage := by
          rw [lookup_set,if_neg hne.symm]
        rcases hs with (hf | ⟨token,hp⟩) | hdo
        · exact .inl (.inl ⟨hf.1,hf.2.1,hl.trans hf.2.2.1,hf.2.2.2⟩)
        · exact .inl (.inr ⟨token,hp.1,hl.trans hp.2⟩)
        · exact .inr ⟨hdo.1,hl.trans hdo.2⟩
      · refine .inl (.inr ⟨token,hre,?_⟩)
        rw [lookup_set,if_pos rfl]
  | completedStages =>
    simp only [RegistrationTokens.authStep]
    split
    · next hc =>
      apply h.stay
      intro d hd
      obtain ⟨hs,hr⟩ := hfi d hd
      exact hs.unused_of_registered (hr none hc.2)
    · exact h.ends (fun d hd => (hfi d hd).1)

theorem Inv.completionStep {call : CompletionCall}
    (h : Inv (⟨session,.completion call⟩::w.requests) w) (userId : Option String) :
    Safe (completionStep userId session w call) := by
  have hf := h.fits
  cases call with
  | registerUser =>
    apply h.stay
    cases userId with
    | none => exact fun d hd => (hf d hd).settled
    | some userId => exact hf
  | setRegisteredUser userId =>
    refine h.ofSession (fun data hda => ?_)
    apply h.write hda
    · rfl
    · rfl
    · exact forall_mem_some ⟨hf data hda,some_ne_none userId⟩
  | getSessionData =>
    refine h.ofSession (fun data hda => ?_)
    obtain ⟨hu,hr⟩ := hf data hda
    apply h.stay
    rcases hu with hfr | ⟨token,hp⟩
    · rw [hfr.storedToken]
      exact fun d hd => (hf d hd).1.settled
    · rw [hp.1.storedToken]
      exact ⟨data,hda,hp,hr⟩
  | useToken token =>
    obtain ⟨data,hda,hp,hr⟩ := hf
    cases hrow : w.registrationTokens.lookup token with
    | none =>
      simp only [RegistrationTokens.completionStep,hrow]
      apply h.ends
      rw [hda]
      exact forall_mem_some (.inl (.inr ⟨token,hp⟩))
    | some row =>
      have hn : (w.setToken token (useRegistrationToken row)).sessions.lookup session =
          some data := hda
      obtain ⟨-,hpa,hus⟩ := hp.1.1
      simp only [RegistrationTokens.completionStep,hrow,World.note,hn]
      apply h.count hda _ _ _ _ hrow
      · rfl
      · intro uses hm hpos
        have hle := (h.2.2.2.2.1 token row hrow).2 uses hm hpos
        show row.pending-1+(row.completed+1) ≤ uses
        omega
      · show row.pending-1+_ = _
        simp [Session.waits,hpa,hus]
      · intro o hne
        simp [Session.waits,hpa,hne]
      · intro req _ _ hold
        refine RegistrationToken.usedUp_eq_false.mpr (fun uses hm hpos => ?_)
        have hlt := RegistrationToken.usedUp_eq_false.mp hold uses hm hpos
        show row.pending-1+(row.completed+1) < uses
        omega
      · exact forall_mem_some ⟨rfl,hr⟩
  | markStageComplete =>
    refine h.ofSession (fun data hda => ?_)
    have hw := h.write hda
      { data with credentials := data.credentials.insert tokenStage .yes } rfl rfl none
      (forall_mem_some (.inr ⟨hf data hda,lookup_insert _⟩))
    simpa [World.goOn] using hw

theorem Inv.requestStep (h : Inv (⟨session,call⟩::w.requests) w) (now : ℕ) (userId : Option String)
    (flows : List (List String)) (ho : ∀ token ∈ call.setsPending,
      ∀ other ∈ w.requests, other.call.setsPending ≠ some token) :
    Safe (requestStep now userId flows session w call) := by
  cases call with
  | start attempt =>
    refine h.ofSession (fun data hd => ?_)
    obtain ⟨hs,ht⟩ := h.fits data hd
    apply h.stay
    apply fits_ofLookup hd
    exact fits_checkAuth (forall_mem_some ⟨⟨hs,fun registered heq => some.inj heq⟩,ht⟩)
  | auth caller call => exact h.authStep now flows ho
  | completion call => exact h.completionStep userId

theorem Session.Settled.waits (h : data.Settled) (token : String) :
    data.waits token = decide (data.credentials.lookup tokenStage = some (.token token)) := by
  rcases h with (hf | ⟨sd,hp⟩) | hd
  · simp [Session.waits,hf.1,hf.2.2.1]
  · obtain ⟨⟨⟨-,hpa,hu⟩,-⟩,hc⟩ := hp
    simp [Session.waits,hpa,hu,hc,eq_comm]
  · simp [Session.waits,hd.1.1,hd.2]

theorem count_results {old : List Session} (h : ∀ data ∈ old, data.Settled) (token : String) :
    (old.filterMap (fun data => data.credentials.lookup tokenStage)).count (.token token) =
      old.countP (Session.waits token) := by
  induction old with
  | nil => rfl
  | cons data old ih =>
    have hw := (h data mem_cons_self).waits token
    have ho := ih (fun d hd => h d (mem_cons_of_mem _ hd))
    rw [countP_cons,hw,← ho]
    rw [filterMap_cons]
    cases hr : data.credentials.lookup tokenStage with
    | none => simp
    | some res =>
      rw [count_cons]
      simp

theorem Inv.expire (h : Safe w) {expirationTime : ℕ}
    (ho : ∀ req ∈ w.requests, ∀ data ∈ w.sessions.lookup req.session,
      expired expirationTime data = false) :
    Safe (deleteOldUiAuthSessions expirationTime w) := by
  obtain ⟨hno,hf,hi,he,hc⟩ := h
  have hl : ∀ session, (deleteOldUiAuthSessions expirationTime w).sessions.lookup session =
        (w.sessions.lookup session).filter (fun data => !expired expirationTime data) :=
    fun session => lookup_filter w.sessions _ session
  have hold : ∀ data ∈ (values w.sessions).filter (expired expirationTime),data.Settled := by
    intro data hd
    obtain ⟨hm,hex⟩ := mem_filter.mp hd
    obtain ⟨session,hs⟩ := (mem_values w.sessions data).mp hm
    apply hi session data hs
    intro req hr heq
    have hnot := ho req hr data (heq ▸ hs)
    rw [hex] at hnot
    cases hnot
  have hw : ∀ token, waiting (deleteOldUiAuthSessions expirationTime w) token+
      ((values w.sessions).filter (expired expirationTime)).countP (Session.waits token) =
        waiting w token := by
    intro token
    unfold waiting
    rw [countP_eq_countP_filter_add (values w.sessions) _ (expired expirationTime)]
    have hv : values (deleteOldUiAuthSessions expirationTime w).sessions =
        (values w.sessions).filter (fun data => !expired expirationTime data) := by
      rw [values,values,List.filter_map]
      rfl
    rw [hv]
    omega
  refine ⟨hno,?_,?_,?_,?_⟩
  · intro req hr
    have hsa : (w.sessions.lookup req.session).filter
        (fun data => !expired expirationTime data) = w.sessions.lookup req.session := by
      cases hd : w.sessions.lookup req.session with
      | none => rfl
      | some data => simp [ho req hr data hd]
    rw [hl,hsa]
    refine (hf req hr).keep (fun token _ hunused row hrow => ?_)
    -- the pending counters go down
    change (decrementPending _ w.registrationTokens).lookup token = some row at hrow
    rw [lookup_decrementPending] at hrow
    obtain ⟨old,hlookup,rfl⟩ := map_eq_some_iff.mp hrow
    refine RegistrationToken.usedUp_eq_false.mpr (fun uses hm hpos => ?_)
    have hlt := RegistrationToken.usedUp_eq_false.mp (hunused old hlookup) uses hm hpos
    dsimp only
    omega
  · intro session data hd hn
    rw [hl] at hd
    exact hi session data (filter_eq_some_iff.mp hd).1 hn
  · intro token ht
    obtain ⟨row,hrow⟩ := mem_iff_lookup.mp ht
    change (decrementPending _ w.registrationTokens).lookup token = some row at hrow
    rw [lookup_decrementPending] at hrow
    obtain ⟨old,hold,-⟩ := map_eq_some_iff.mp hrow
    exact he token (mem_iff_lookup.mpr ⟨old,hold⟩)
  · refine ⟨fun token row hrow => ?_,fun token hn => ?_⟩
    · change (decrementPending _ w.registrationTokens).lookup token = some row at hrow
      rw [lookup_decrementPending,getD_lookup_tokenCounts,count_results hold] at hrow
      obtain ⟨old,hl',rfl⟩ := map_eq_some_iff.mp hrow
      obtain ⟨hp,ha⟩ := hc.1 token old hl'
      have hsum := hw token
      refine ⟨?_,?_⟩
      · dsimp only
        omega
      · intro uses hm hpos
        have hle := ha uses hm hpos
        dsimp only
        omega
    · change (decrementPending _ w.registrationTokens).lookup token = none at hn
      rw [lookup_decrementPending] at hn
      have hz := hc.2 token (map_eq_none_iff.mp hn)
      have hsum := hw token
      omega

section Runs

variable {flows : List (List String)}

variable {w : World}

theorem Inv.begin (h : Safe w) {session : String} (hno : ∀ req ∈ w.requests, req.session ≠ session)
    {call : Option Call} (hf : Fits w.registrationTokens call (w.sessions.lookup session)) :
    Safe (w.goOn session call) := by
  obtain ⟨hn,hc,hi,he,hco⟩ := h
  exact (Inv.add hn hno hc (fun o data _ => hi o data) hf he hco).congr rfl rfl

theorem Inv.create (h : Safe w) {session : String}
    (hnew : w.sessions.lookup session = none) (hn : ∀ req ∈ w.requests, req.session ≠ session)
    (now : ℕ) : Inv w.requests (w.setSession session ⟨now,none,none,∅,[],false⟩) := by
  obtain ⟨hno,hca,hi,he,hc⟩ := h
  have hw : ∀ token,
      waiting (w.setSession session ⟨now,none,none,∅,[],false⟩) token = waiting w token := by
    intro token
    have hs := countP_values_set w.sessions session ⟨now,none,none,∅,[],false⟩
      (Session.waits token)
    rw [hnew] at hs
    simpa [Session.waits,World.setSession,waiting] using hs
  refine ⟨hno,?_,?_,he,hc.congr rfl hw⟩
  · intro req hr
    rw [World.setSession,lookup_set,if_neg (hn req hr)]
    exact hca req hr
  · intro o data hd ho
    rcases set_cases hd with ⟨-,rfl⟩ | ⟨-,hd⟩
    · exact .inl (.inl ⟨rfl,rfl,rfl,rfl⟩)
    · exact hi o data hd ho

theorem Inv.step (h : Safe w) {op : Op} (ho : Orderly op w) : Safe (step flows op w) := by
  have hs : ∀ session, (∀ request ∈ w.requests, request.session ≠ session) →
      ∀ data ∈ w.sessions.lookup session, data.Settled :=
    fun session hno data hda => h.2.2.1 session data hda hno
  cases op with
  | createRegistrationToken token usesAllowed expiryTime =>
    simp only [RegistrationTokens.step]
    split
    · exact h
    · next hnew =>
      obtain ⟨hnd,hca,hi,he,hc⟩ := h
      refine ⟨hnd,?_,hi,?_,?_⟩
      · intro req hr
        refine (hca req hr).keep (fun other _ hunused row hrow => ?_)
        rcases set_cases hrow with ⟨-,rfl⟩ | ⟨-,hrow⟩
        · refine RegistrationToken.usedUp_eq_false.mpr (fun uses _ hpos => ?_)
          show (0 : ℤ)+0 < uses
          omega
        · exact hunused row hrow
      · intro other hot
        rcases mem_set.mp hot with rfl | hm
        · exact fun heq => hnew (.inl heq)
        · exact he other hm
      · refine hc.setToken rfl (fun _ _ => rfl) ?_ ?_
        · have hz : waiting w token = 0 := hc.2 token (lookup_eq_none.mpr (fun h => hnew (.inr h)))
          show (0 : ℤ) = (waiting w token : ℕ)
          rw [hz]
          rfl
        · intro allowed hm hpos
          show (0 : ℤ)+0 ≤ allowed
          omega
  | createUiAuthSession session now =>
    simp only [RegistrationTokens.step]
    split
    · exact h
    · next hnew =>
      exact h.create (lookup_eq_none.mpr hnew) ho now
  | register session attempt =>
    apply h.begin ho.1
    intro d hd
    have hd' := hs session ho.1 d hd
    exact ⟨hd',fun ht => hd'.unused (ho.2 ht d hd)⟩
  | fallback session attempt =>
    refine h.begin ho.1 (fits_checkAuth (fun d hd => ?_))
    have hd' := hs session ho.1 d hd
    exact ⟨⟨hd',fun registered heq => by cases heq⟩,fun ht => hd'.unused (ho.2 ht d hd)⟩
  | advance n now userId =>
    cases hr : w.requests[n]? with
    | none =>
      simp only [RegistrationTokens.step,hr]
      exact h
    | some request =>
      simp only [RegistrationTokens.step,hr]
      obtain ⟨hn,rfl⟩ := List.getElem?_eq_some_iff.mp hr
      have hp := (getElem_cons_eraseIdx_perm hn).symm
      apply Inv.requestStep
      · exact (h.perm hp).congr rfl rfl
      · exact ho _ hr
  | expire expirationTime => exact h.expire ho

theorem empty_inv : Safe empty := by
  refine ⟨nodup_nil,?_,?_,?_,?_,?_⟩
  · intro req hr
    cases hr
  · intro session data hd
    cases hd
  · intro token ht
    cases ht
  · intro token row hrow
    cases hrow
  · intro token hn
    rfl

/-- In every run that goes this way, the pending counter of a token is the number of the sessions
that wait with it, and no token is used more often than it allows. -/
theorem tokens_accounted (flows : List (List String)) (ops : List Op)
    (h : Admitted (step flows) Orderly ops empty) :
    Accounted (run (step flows) ops empty) := by
  have hinv : Safe (run (step flows) ops empty) :=
    h.invariant (I := Safe) (fun op w hw hop => hw.step hop) empty_inv
  exact hinv.accounted

/-- Somebody registers with a token that allows one registration, and a second session, which
cannot use the token any more, expires. -/
def oneRegistration : List Op :=
  [.createRegistrationToken "abcd" (some 1) none,.createUiAuthSession "first" 0,
    .createUiAuthSession "second" 0,.register "first" (.token "abcd")] ++
  List.replicate 12 (.advance 0 1 (some "@user:hs")) ++
  [.register "second" (.token "abcd")] ++ List.replicate 4 (.advance 0 1 none) ++ [.expire 5]

theorem tokens_accounted_oneRegistration :
    Admitted (step [[tokenStage]]) Orderly oneRegistration empty ∧
      (run (step [[tokenStage]]) oneRegistration empty).registrationTokens.lookup "abcd" =
        some ⟨some 1,0,1,none⟩ ∧ Accounted (run (step [[tokenStage]]) oneRegistration empty) := by
  have hadmitted : Admitted (step [[tokenStage]]) Orderly oneRegistration empty := by
    decide +kernel
  exact ⟨hadmitted,by decide +kernel,tokens_accounted _ _ hadmitted⟩

def twoAtOnce : List Op :=
  [.createRegistrationToken "abcd" (some 1) none,.createUiAuthSession "first" 0,
    .createUiAuthSession "second" 0,.register "first" (.token "abcd"),
    .register "second" (.token "abcd")] ++ List.replicate 8 (.advance 0 1 none)

def repeated : List Op :=
  [.createRegistrationToken "abcd" (some 1) none,.createUiAuthSession "first" 0,
    .register "first" (.token "abcd")] ++
  List.replicate 12 (.advance 0 1 (some "@user:hs")) ++
  [.register "first" (.token "abcd")] ++ List.replicate 4 (.advance 0 1 none) ++ [.expire 5]

/-- Two uses are pending of a token that allows one; and the pending counter becomes negative,
with one request after the other. -/
theorem tokens_not_accounted :
    (run (step [[tokenStage]]) twoAtOnce empty).registrationTokens.lookup "abcd" =
        some ⟨some 1,2,0,none⟩ ∧
      (run (step [[tokenStage]]) repeated empty).registrationTokens.lookup "abcd" =
        some ⟨some 1,-1,1,none⟩ ∧
      waiting (run (step [[tokenStage]]) repeated empty) "abcd" = 0 := by
  decide +kernel

end Runs

end Synapse.RegistrationTokens
