import Synapse.Events
import Synapse.PythonText

/-!
# Redaction

What is left of an event when it is redacted: the keys that every event needs,
and of the content the fields that the room version protects. The ID of an
event is a hash of its redacted form, so a redaction does not change it.
-/

set_option autoImplicit false

namespace Synapse.Redaction
open Python PythonText List Except EventTypes

def commonKeys : List String :=
  ["event_id","sender","room_id","hashes","signatures","content","type","state_key","depth",
    "prev_events","auth_events","origin_server_ts"]

/-- Earlier room versions had additional allowed keys. -/
def allowedKeys (roomVersion : RoomVersion) : List String :=
  commonKeys ++
    if roomVersion.updatedRedactionRules then [] else ["prev_state","membership","origin"]

def addField (content : Json) (newContent : JsonDict) (field : String) : Raises JsonDict := do
  if ← Json.contains content (.str field) then do
    let value ← Json.index content (.str field)
    .ok (setItem newContent (field,value))
  else .ok newContent

/-- `add_fields`. The content is read anew for each field. -/
def addFields (content : Raises Json) (fields : List String) (newContent : JsonDict) :
    Raises JsonDict :=
  fields.foldlM (fun newContent field => do addField (← content) newContent field) newContent

def keptInvite (invite : JsonDict) : JsonDict :=
  match invite.lookup "signed" with
  | some signed => [("signed",signed)]
  | none => []

def memberFields (roomVersion : RoomVersion) : List String :=
  "membership"::if roomVersion.restrictedJoinRuleFix then [EventContentFields.authorisingUser]
    else []

def pruneMember (roomVersion : RoomVersion) (content : Raises Json) : Raises Json := do
  let newContent ← addFields content (memberFields roomVersion) []
  if roomVersion.updatedRedactionRules then do
    match ← Json.get (← content) "third_party_invite" .null with
    | .object invite =>
      .ok (.object (setItem newContent ("third_party_invite",.object (keptInvite invite))))
    | _ => .ok (.object newContent)
  else .ok (.object newContent)

def pruneCreate (roomVersion : RoomVersion) (content : Raises Json) : Raises Json :=
  if roomVersion.updatedRedactionRules then content
  else if roomVersion.implicitRoomCreator then .ok (.object [])
  else do .ok (.object (← addFields content ["creator"] []))

def keptFields (roomVersion : RoomVersion) (eventType : Json) : List String :=
  if eventType.isStr joinRules then
    ["join_rule"] ++ if roomVersion.restrictedJoinRule then ["allow"] else []
  else if eventType.isStr powerLevels then
    ["users","users_default","events","events_default","state_default","ban","kick","redact"] ++
      if roomVersion.updatedRedactionRules then ["invite"] else []
  else if eventType.isStr aliases ∧ roomVersion.specialCaseAliasesAuth then ["aliases"]
  else if eventType.isStr roomHistoryVisibility then ["history_visibility"]
  else if eventType.isStr redaction ∧ roomVersion.updatedRedactionRules then ["redacts"]
  else []

def pruneContent (roomVersion : RoomVersion) (eventType : Json) (content : Raises Json) :
    Raises Json :=
  if eventType.isStr member then pruneMember roomVersion content
  else if eventType.isStr create then pruneCreate roomVersion content
  else do .ok (.object (← addFields content (keptFields roomVersion eventType) []))

/-- `newContent[key] = value` -/
def assignItem (newContent : Json) (key : String) (value : Json) : Raises Json :=
  match newContent with
  | .object d => .ok (.object (setItem d (key,value)))
  | _ => .error .typeError

def pruneRelation (roomVersion : RoomVersion) (content : Raises Json) (newContent : Json) :
    Raises Json :=
  if roomVersion.msc3389RelationRedactions then do
    match ← Json.get (← content) "m.relates_to" .null with
    | .object relatesTo =>
      let newRelatesTo ← addFields (.ok (.object relatesTo)) ["rel_type","event_id"] []
      if newRelatesTo = [] then .ok newContent
      else assignItem newContent "m.relates_to" (.object newRelatesTo)
    | _ => .ok newContent
  else .ok newContent

def pruneEventDict (roomVersion : RoomVersion) (eventDict : JsonDict) : Raises JsonDict := do
  let eventType ← Json.item eventDict "type"
  let content := Json.item eventDict "content"
  let newContent ← pruneContent roomVersion eventType content
  let newContent ← pruneRelation roomVersion content newContent
  let allowedFields := eventDict.filter (fun p => p.1 ∈ allowedKeys roomVersion)
  let unsigned ← addFields (.ok (Json.getD eventDict "unsigned" (.object [])))
    ["age_ts","replaces_state"] []
  .ok (setItem (setItem allowedFields ("content",newContent)) ("unsigned",.object unsigned))

def stays (key : String) : Bool := key ≠ "signatures" ∧ key ≠ "unsigned"

/-- An event as it is held: its dictionary without the signatures and the unsigned
data, which are kept apart. -/
structure FrozenEvent where
  dict : JsonDict
  signatures : List (String × JsonDict)
  unsigned : JsonDict
  roomVersion : RoomVersion
  rejectedReason : Option String
  popped : ∀ p ∈ dict, stays p.1 = true
  identified : (dict.lookup "event_id").isSome = true ↔ roomVersion.eventFormat = .roomV1V2

def signaturesOf (event : FrozenEvent) : Json :=
  .object (event.signatures.map (fun p => (p.1,.object p.2)))

def getDict (event : FrozenEvent) : JsonDict :=
  setItem (setItem event.dict ("signatures",signaturesOf event)) ("unsigned",.object event.unsigned)

def copySignatures (entry : String × Json) : Raises (String × JsonDict) := do
  .ok (entry.1,← Json.items entry.2)

def popped (eventDict : JsonDict) : JsonDict := eventDict.filter (fun p => stays p.1)

/-- Only in the first versions an event carries its ID. -/
def makeEventFromDict (eventDict : JsonDict) (roomVersion : RoomVersion) : Raises FrozenEvent := do
  let signatures ← Json.items (Json.getD eventDict "signatures" (.object []))
  let signatures ← signatures.mapM copySignatures
  raiseIf (roomVersion.eventFormat ≠ .roomV1V2 ∧ ((popped eventDict).lookup "event_id").isSome)
    .assertionError
  let unsigned ← Json.items (Json.getD eventDict "unsigned" (.object []))
  if h : ((popped eventDict).lookup "event_id").isSome = true ↔
      roomVersion.eventFormat = .roomV1V2 then
    .ok {
      dict := popped eventDict
      signatures := signatures
      unsigned := unsigned
      roomVersion := roomVersion
      rejectedReason := none
      popped := fun _ hp => (mem_filter.mp hp).2
      identified := h }
  else .error .keyError

def pruneEvent (event : FrozenEvent) : Raises FrozenEvent := do
  makeEventFromDict (← pruneEventDict event.roomVersion (getDict event)) event.roomVersion

/-- What is hashed: the redacted event without the signatures and the unsigned data. -/
def referenceDict (event : FrozenEvent) : Raises JsonDict := do
  let pruned ← pruneEvent event
  .ok ((getDict pruned).filter (fun p => stays p.1 && p.1 ≠ "age_ts"))

/-- A hash of the canonical JSON of a dictionary, in one of two alphabets. -/
abbrev Hash := Bool → JsonDict → String

def stringItem (d : JsonDict) (key : String) : Raises String := do
  match ← Json.item d key with
  | .str s => .ok s
  | _ => .error .typeError

def eventId (hash : Hash) (event : FrozenEvent) : Raises String :=
  match event.roomVersion.eventFormat with
  | .roomV1V2 => stringItem event.dict "event_id"
  | .roomV3 => do .ok ("$" ++ hash false (← referenceDict event))
  | .roomV4Plus => do .ok ("$" ++ hash true (← referenceDict event))

def stringOf : Json → Raises String
  | .str s => .ok s
  | _ => .error .typeError

def referenceOf (roomVersion : RoomVersion) (entry : Json) : Raises String :=
  match roomVersion.eventFormat, entry with
  | .roomV1V2, .array [e,_] => stringOf e
  | .roomV1V2, _ => .error .valueError
  | _, entry => stringOf entry

def references (event : FrozenEvent) (key : String) : Raises (List String) := do
  match ← Json.item event.dict key with
  | .array entries => entries.mapM (referenceOf event.roomVersion)
  | _ => .error .typeError

def stateKeyOf (d : JsonDict) : Raises (Option String) :=
  match Json.getD d "state_key" .null with
  | .null => .ok none
  | .str s => .ok (some s)
  | _ => .error .typeError

/-- The event that the auth rules see. Its fields have the types that the rules expect. -/
def view (hash : Hash) (event : FrozenEvent) : Raises Event := do
  let id ← eventId hash event
  let roomId ← stringItem event.dict "room_id"
  let sender ← stringItem event.dict "sender"
  let type ← stringItem event.dict "type"
  let stateKey ← stateKeyOf event.dict
  let prevEventIds ← references event "prev_events"
  let authEventIds ← references event "auth_events"
  match event.dict.lookup "content", event.dict.lookup "origin_server_ts" with
  | some (.object content), some (.int originServerTs) =>
    .ok {
      eventId := id
      roomId := roomId
      sender := sender
      type := type
      stateKey := stateKey
      content := content
      prevEventIds := prevEventIds
      authEventIds := authEventIds
      originServerTs := originServerTs
      topLevelRedacts := Json.getD event.dict "redacts" .null
      roomVersion := event.roomVersion
      rejectedReason := event.rejectedReason }
  | _, _ => .error .typeError

section Contents

def keep (content : JsonDict) (fields : List String) (newContent : JsonDict) : JsonDict :=
  fields.foldl (fun newContent field =>
    match content.lookup field with
    | some value => setItem newContent (field,value)
    | none => newContent) newContent

theorem addFields_object (ct : JsonDict) (fs : List String) (nc : JsonDict) :
    addFields (.ok (.object ct)) fs nc = .ok (keep ct fs nc) := by
  induction fs generalizing nc with
  | nil => rfl
  | cons fl fs ih =>
    have hf : addField (.object ct) nc fl = .ok (keep ct [fl] nc) := by
      unfold addField keep
      cases hl : ct.lookup fl with
      | none => simp [Json.contains,hl]
      | some v => simp [Json.contains,Json.index,Json.item,hl]
    rw [addFields,foldlM_cons,ok_bind,hf]
    exact ih _

theorem keep_congr {c₁ c₂ : JsonDict} {fs : List String}
    (h : ∀ fl ∈ fs, c₁.lookup fl = c₂.lookup fl) (nc : JsonDict) :
    keep c₁ fs nc = keep c₂ fs nc := by
  induction fs generalizing nc with
  | nil => rfl
  | cons fl fs ih =>
    rw [keep,foldl_cons,h fl mem_cons_self]
    exact ih (fun f hf => h f (mem_cons_of_mem _ hf)) _

theorem lookup_keep (ct : JsonDict) (fs : List String) (nc : JsonDict) (key : String) :
    (keep ct fs nc).lookup key =
      if key ∈ fs then (ct.lookup key).or (nc.lookup key)
      else nc.lookup key := by
  refine Dict.read_foldl (r := fun nc : JsonDict => nc.lookup key) ?_ ?_
    (Dict.or_or (ct.lookup key)) fs nc
  · intro nc
    cases ct.lookup key with
    | none => rfl
    | some v => exact lookup_setItem_self nc key v
  · intro nc fl hk
    cases ct.lookup fl with
    | none => rfl
    | some v => exact lookup_setItem_of_ne nc hk

def authFields (type : String) : List String :=
  if type = member then ["membership"]
  else if type = joinRules then ["join_rule"]
  else if type = powerLevels then
    ["users","users_default","events","events_default","state_default","ban","kick","redact",
      "invite"]
  else []

def addInvite (newContent : JsonDict) : Option Json → JsonDict
  | some (.object invite) =>
    setItem newContent ("third_party_invite",.object (keptInvite invite))
  | _ => newContent

def keptMember (roomVersion : RoomVersion) (content : JsonDict) : JsonDict :=
  addInvite (keep content (memberFields roomVersion) []) (content.lookup "third_party_invite")

variable {ver : RoomVersion}

theorem pruneMember_object (h : ver.updatedRedactionRules = true) (ct : JsonDict) :
    pruneMember ver (.ok (.object ct)) = .ok (.object (keptMember ver ct)) := by
  rw [pruneMember,addFields_object,ok_bind,if_pos h,ok_bind,keptMember,Json.get,Json.getD]
  cases ct.lookup "third_party_invite" with
  | none => rfl
  | some v => cases v <;> rfl

theorem keptInvite_keptInvite (iv : JsonDict) : keptInvite (keptInvite iv) = keptInvite iv := by
  unfold keptInvite
  cases hs : iv.lookup "signed" with
  | none => rfl
  | some signed => simp

theorem invite_notMem_memberFields : "third_party_invite" ∉ memberFields ver := by
  unfold memberFields
  split <;> decide

theorem lookup_memberFields (ct : JsonDict) {fl : String} (h : fl ∈ memberFields ver) :
    (keptMember ver ct).lookup fl = ct.lookup fl := by
  have hne : fl ≠ "third_party_invite" := by
    rintro rfl
    exact invite_notMem_memberFields h
  have hk : (keep ct (memberFields ver) []).lookup fl = ct.lookup fl := by
    rw [lookup_keep,if_pos h]
    simp
  unfold keptMember addInvite
  split
  · rw [lookup_setItem_of_ne _ hne,hk]
  · exact hk

theorem keptMember_keptMember (ct : JsonDict) :
    keptMember ver (keptMember ver ct) = keptMember ver ct := by
  have hk : keep (keptMember ver ct) (memberFields ver) [] = keep ct (memberFields ver) [] :=
    keep_congr (fun fl hf => lookup_memberFields ct hf) []
  have hn : (keep ct (memberFields ver) []).lookup "third_party_invite" = none := by
    rw [lookup_keep,if_neg invite_notMem_memberFields]
    rfl
  have ha : ∀ iv, addInvite (keep ct (memberFields ver) [])
      ((addInvite (keep ct (memberFields ver) []) iv).lookup
        "third_party_invite") = addInvite (keep ct (memberFields ver) []) iv := by
    intro iv
    match iv with
    | some (.object iv) => rw [addInvite,lookup_setItem_self,addInvite,keptInvite_keptInvite]
    | none =>
      show addInvite _ ((keep ct (memberFields ver) []).lookup "third_party_invite") = _
      rw [hn]
    | some .null | some (.bool _) | some (.int _) | some (.float _) | some (.str _)
    | some (.array _) =>
      show addInvite _ ((keep ct (memberFields ver) []).lookup "third_party_invite") = _
      rw [hn]
      rfl
  rw [keptMember,hk]
  exact ha _

theorem pruneContent_object (h : ver.updatedRedactionRules = true) (type : String) (ct : JsonDict) :
    ∃ nc, pruneContent ver (.str type) (.ok (.object ct)) = .ok (.object nc) ∧
      pruneContent ver (.str type) (.ok (.object nc)) = .ok (.object nc) ∧
      (type = create → nc = ct) ∧ ∀ fl ∈ authFields type, nc.lookup fl = ct.lookup fl := by
  by_cases hm : type = member
  · subst hm
    have hp : ∀ c, pruneContent ver (.str member) (.ok (.object c)) =
        .ok (.object (keptMember ver c)) := fun c => pruneMember_object h c
    refine ⟨keptMember ver ct,hp ct,?_,fun heq => absurd heq (by decide),?_⟩
    · rw [hp,keptMember_keptMember]
    · intro fl hf
      exact lookup_memberFields ct (mem_cons.mpr (.inl (mem_singleton.mp hf)))
  · have hs : (Json.str type).isStr member = false := by
      simpa [Json.isStr] using hm
    by_cases hc : type = create
    · subst hc
      have hp : ∀ c, pruneContent ver (.str create) (.ok (.object c)) =
          .ok (.object c) := fun c => if_pos h
      exact ⟨ct,hp ct,hp ct,fun _ => rfl,fun _ _ => rfl⟩
    · have hp : ∀ c, pruneContent ver (.str type) (.ok (.object c)) =
          .ok (.object (keep c (keptFields ver (.str type)) [])) := by
        intro c
        rw [pruneContent,hs,if_neg (by decide),if_neg (by simpa [Json.isStr] using hc),
          addFields_object]
        rfl
      have hl : ∀ fl ∈ keptFields ver (.str type),
          (keep ct (keptFields ver (.str type)) []).lookup fl = ct.lookup fl := by
        intro fl hf
        rw [lookup_keep,if_pos hf]
        simp
      refine ⟨_,hp ct,?_,fun heq => absurd heq hc,?_⟩
      · rw [hp,keep_congr hl]
      · intro fl hf
        apply hl
        rw [authFields,if_neg hm] at hf
        unfold keptFields
        split at hf
        · rename_i ht
          rw [if_pos (by simpa [Json.isStr] using ht)]
          exact mem_append_left _ hf
        · rename_i ht
          rw [if_neg (by simpa [Json.isStr] using ht)]
          split at hf
          · rename_i hle
            rw [if_pos (by simpa [Json.isStr] using hle),if_pos h]
            exact hf
          · cases hf

end Contents

section Pruned

def keptKey (roomVersion : RoomVersion) (key : String) : Bool :=
  stays key && decide (key ∈ allowedKeys roomVersion)

variable {key type : String} {ev pr : FrozenEvent}

theorem lookup_getDict (ev : FrozenEvent) (h : stays key = true) :
    (getDict ev).lookup key = ev.dict.lookup key := by
  simp only [stays,decide_eq_true_eq] at h
  rw [getDict,lookup_setItem_of_ne _ h.2,lookup_setItem_of_ne _ h.1]

theorem filter_getDict (ev : FrozenEvent) {p : String → Bool} (hs : p "signatures" = false)
    (hu : p "unsigned" = false) :
    (getDict ev).filter (fun q => p q.1) = ev.dict.filter (fun q => p q.1) := by
  rw [getDict,filter_setItem_of_false _ hu,filter_setItem_of_false _ hs]

theorem keptKey_of_common (ver : RoomVersion) (h : stays key = true ∧ key ∈ commonKeys) :
    keptKey ver key = true := by
  rw [keptKey,h.1,Bool.true_and,decide_eq_true_eq]
  exact mem_append_left _ h.2

theorem lookup_keptKey {ver : RoomVersion} (d : JsonDict)
    (h : stays key = true ∧ key ∈ commonKeys) :
    (d.filter (fun p => keptKey ver p.1)).lookup key = d.lookup key := by
  rw [lookup_filter_fst,if_pos (keptKey_of_common ver h)]

theorem mapM_copySignatures (signatures : List (String × JsonDict)) :
    (signatures.map (fun p => (p.1,Json.object p.2))).mapM copySignatures =
      (.ok signatures : Raises _) := by
  induction signatures with
  | nil => rfl
  | cons p signatures ih =>
    rw [map_cons,mapM_cons,ih]
    rfl

variable {rv : RoomVersion}

theorem popped_pruned (ev : FrozenEvent) (nc unsigned : Json) :
    popped (setItem (setItem ((getDict ev).filter (fun p => p.1 ∈ allowedKeys rv))
      ("content",nc)) ("unsigned",unsigned)) =
        setItem (ev.dict.filter (fun p => keptKey rv p.1)) ("content",nc) := by
  have hs : ∀ d : JsonDict, (d.filter (fun p => p.1 ∈ allowedKeys rv)).filter
      (fun p => stays p.1) = d.filter (fun p => keptKey rv p.1) := fun d => filter_filter
  rw [popped,filter_setItem_of_false _ (by decide),filter_setItem_of_true _ (by decide),hs,
    filter_getDict ev (by simp [keptKey,stays]) (by simp [keptKey,stays])]

theorem pruneEvent_spec (ev : FrozenEvent) (h : ev.roomVersion.updatedRedactionRules = true)
    {ct : JsonDict} (ht : ev.dict.lookup "type" = some (.str type))
    (hc : ev.dict.lookup "content" = some (.object ct)) :
    ∃ pr nc, pruneEvent ev = .ok pr ∧ pr.roomVersion = ev.roomVersion ∧
      pr.dict = setItem (ev.dict.filter (fun p => keptKey ev.roomVersion p.1))
        ("content",.object nc) ∧ pruneContent ev.roomVersion (.str type) (.ok (.object ct)) =
        .ok (.object nc) := by
  obtain ⟨nc,hpr,-⟩ := pruneContent_object h type ct
  have hi : ∀ key, stays key = true →
      (Json.item (getDict ev) key : Raises Json) = Json.item ev.dict key := by
    intro key hk
    rw [Json.item,lookup_getDict ev hk]
    rfl
  have hdi : pruneEventDict ev.roomVersion (getDict ev) = .ok (setItem (setItem
      ((getDict ev).filter (fun p => p.1 ∈ allowedKeys ev.roomVersion))
        ("content",.object nc)) ("unsigned",.object
          (keep ev.unsigned ["age_ts","replaces_state"] []))) := by
    have hun : Json.getD (getDict ev) "unsigned" (.object []) = .object ev.unsigned := by
      rw [Json.getD,getDict,lookup_setItem_self]
      rfl
    rw [pruneEventDict,hi "type" (by decide),hi "content" (by decide),hun]
    simp only [Json.item,ht,hc,ok_bind,hpr,addFields_object]
    rfl
  generalize hu : keep ev.unsigned ["age_ts","replaces_state"] [] = unsigned at hdi
  obtain ⟨d,hd⟩ : ∃ d, d = setItem (setItem
      ((getDict ev).filter (fun p => p.1 ∈ allowedKeys ev.roomVersion))
        ("content",.object nc)) ("unsigned",.object unsigned) := ⟨_,rfl⟩
  rw [← hd] at hdi
  have hpo : popped d = setItem (ev.dict.filter (fun p => keptKey ev.roomVersion p.1))
      ("content",.object nc) := by rw [hd,popped_pruned]
  have hs : Json.getD d "signatures" (.object []) = signaturesOf ev := by
    rw [Json.getD,hd,lookup_setItem_of_ne _ (by decide),lookup_setItem_of_ne _ (by decide),
      lookup_filter_fst _ (fun key => decide (key ∈ allowedKeys ev.roomVersion)),
      getDict,lookup_setItem_of_ne _ (by decide),lookup_setItem_self]
    rfl
  have hun : Json.getD d "unsigned" (.object []) = .object unsigned := by
    rw [Json.getD,hd,lookup_setItem_self]
    rfl
  have hid : ((popped d).lookup "event_id").isSome = true ↔
      ev.roomVersion.eventFormat = .roomV1V2 := by
    rw [hpo,lookup_setItem_of_ne _ (by decide),lookup_keptKey _ (by decide)]
    exact ev.identified
  refine ⟨{
    dict := popped d
    signatures := ev.signatures
    unsigned := unsigned
    roomVersion := ev.roomVersion
    rejectedReason := none
    popped := fun _ hp => (mem_filter.mp hp).2
    identified := hid },nc,?_,rfl,hpo,hpr⟩
  rw [pruneEvent,hdi,ok_bind,makeEventFromDict,hs,hun]
  have has : (raiseIf (ev.roomVersion.eventFormat ≠ .roomV1V2 ∧
      ((popped d).lookup "event_id").isSome = true) .assertionError : Raises Unit) = .ok () :=
    raiseIf_eq_ok.mpr (fun hand => hand.1 (hid.mp hand.2))
  simp only [signaturesOf,Json.items,ok_bind,mapM_copySignatures,has,dif_pos hid]

theorem referenceDict_eq (h : pruneEvent ev = .ok pr) :
    referenceDict ev = .ok (pr.dict.filter (fun p => stays p.1 && p.1 ≠ "age_ts")) := by
  rw [referenceDict,h]
  exact congrArg Except.ok
    (filter_getDict pr (p := fun key => stays key && key ≠ "age_ts") (by decide) (by decide))

theorem eventFormat_of_updatedRedactionRules (h : rv.updatedRedactionRules = true) :
    rv.eventFormat = .roomV4Plus := by
  cases rv <;> first | rfl | cases h

section

variable {nc : JsonDict} (h : ev.roomVersion.updatedRedactionRules = true)
  (hv : pr.roomVersion = ev.roomVersion)
  (hd : pr.dict = setItem (ev.dict.filter (fun p => keptKey ev.roomVersion p.1))
    ("content",.object nc)) (ht : ev.dict.lookup "type" = some (.str type))
  (hc : pruneContent ev.roomVersion (.str type) (.ok (.object nc)) = .ok (.object nc))
include h hv hd ht hc

theorem pruneEvent_pruneEvent : ∃ again, pruneEvent pr = .ok again ∧ again.dict = pr.dict := by
  have ht' : pr.dict.lookup "type" = some (.str type) := by
    rw [hd,lookup_setItem_of_ne _ (by decide),lookup_keptKey _ (by decide),ht]
  have hc' : pr.dict.lookup "content" = some (.object nc) := by
    rw [hd,lookup_setItem_self]
  obtain ⟨again,new',ha,-,hd',hp⟩ := pruneEvent_spec pr (hv ▸ h) ht' hc'
  rw [hv] at hp hd'
  rw [hc] at hp
  injection hp with hp
  refine ⟨again,ha,?_⟩
  have hk : keptKey ev.roomVersion "content" = true := keptKey_of_common ev.roomVersion (by decide)
  have hf : pr.dict.filter (fun p => keptKey ev.roomVersion p.1) = pr.dict := by
    rw [hd,filter_setItem_of_true _ hk]
    simp
  rw [hd',hf,← hp,hd,setItem_setItem]

theorem eventId_pruneEvent (hash : Hash) (hp : pruneEvent ev = .ok pr) :
    eventId hash pr = eventId hash ev := by
  obtain ⟨again,ha,heq⟩ := pruneEvent_pruneEvent h hv hd ht hc
  have hr : referenceDict pr = referenceDict ev := by
    rw [referenceDict_eq ha,referenceDict_eq hp,heq]
  rw [eventId,eventId,hv,eventFormat_of_updatedRedactionRules h]
  rw [hr]

end

theorem stringItem_eq_ok {d : JsonDict} {va : String} (h : stringItem d key = .ok va) :
    d.lookup key = some (.str va) := by
  obtain ⟨v,hv,h⟩ := bind_eq_ok.mp h
  rw [Json.item] at hv
  split at hv
  · rename_i v' heq
    obtain rfl := ok.inj hv
    rw [heq]
    cases v' with
    | str s => rw [ok.inj h]
    | _ => cases h
  · cases hv

theorem view_pruneEvent {e : Event} (hash : Hash) (h : ev.roomVersion.updatedRedactionRules = true)
    (hv : view hash ev = .ok e) :
    ev.dict.lookup "type" = some (.str e.type) ∧
    ∃ pr e', pruneEvent ev = .ok pr ∧ view hash pr = .ok e' ∧
      e'.eventId = e.eventId ∧ e'.sender = e.sender ∧ e'.type = e.type ∧ e'.stateKey = e.stateKey ∧
      e'.roomVersion = e.roomVersion ∧ (e.type = create → e'.content = e.content) ∧
      ∀ fl ∈ authFields e.type, e'.content.lookup fl = e.content.lookup fl := by
  obtain ⟨id,hid,hv⟩ := bind_eq_ok.mp hv
  obtain ⟨rid,hro,hv⟩ := bind_eq_ok.mp hv
  obtain ⟨sn,hse,hv⟩ := bind_eq_ok.mp hv
  obtain ⟨type,ht,hv⟩ := bind_eq_ok.mp hv
  obtain ⟨sk,hkey,hv⟩ := bind_eq_ok.mp hv
  obtain ⟨prevEventIds,hpv,hv⟩ := bind_eq_ok.mp hv
  obtain ⟨aids,ha,hv⟩ := bind_eq_ok.mp hv
  split at hv
  · rename_i ct ts hc hts
    cases hv
    have hl := stringItem_eq_ok ht
    obtain ⟨pr,nc,hpr,hve,hd,hp⟩ := pruneEvent_spec ev h hl hc
    obtain ⟨new',hp',hag,hcr,hf⟩ := pruneContent_object h type ct
    rw [hp] at hp'
    obtain rfl : nc = new' := by
      injection hp' with hp'
      injection hp'
    have hk : ∀ key, stays key = true ∧ key ∈ commonKeys ∧ key ≠ "content" →
        pr.dict.lookup key = ev.dict.lookup key := by
      rintro key ⟨hst,hco,hne⟩
      rw [hd,lookup_setItem_of_ne _ hne,lookup_keptKey _ ⟨hst,hco⟩]
    have hs : ∀ key, stays key = true ∧ key ∈ commonKeys ∧ key ≠ "content" →
        stringItem pr.dict key = stringItem ev.dict key := by
      intro key hkey
      rw [stringItem,stringItem,Json.item,Json.item,hk key hkey]
    have hr : ∀ key, stays key = true ∧ key ∈ commonKeys ∧ key ≠ "content" →
        references pr key = references ev key := by
      intro key hkey
      rw [references,references,Json.item,Json.item,hk key hkey,hve]
    have hsta : stateKeyOf pr.dict = stateKeyOf ev.dict := by
      rw [stateKeyOf,stateKeyOf,Json.getD,Json.getD,hk "state_key" (by decide)]
    have hid' := eventId_pruneEvent h hve hd hl hag hash hpr
    have hn : pr.dict.lookup "content" = some (.object nc) := by
      rw [hd,lookup_setItem_self]
    have hv' : view hash pr = .ok {
        eventId := id
        roomId := rid
        sender := sn
        type := type
        stateKey := sk
        content := nc
        prevEventIds := prevEventIds
        authEventIds := aids
        originServerTs := ts
        topLevelRedacts := Json.getD pr.dict "redacts" .null
        roomVersion := pr.roomVersion
        rejectedReason := pr.rejectedReason } := by
      rw [view,hid',hid,ok_bind,hs "room_id" (by decide),hro,ok_bind,
        hs "sender" (by decide),hse,ok_bind,hs "type" (by decide),ht,ok_bind,
        hsta,hkey,ok_bind,hr "prev_events" (by decide),hpv,ok_bind,
        hr "auth_events" (by decide),ha,ok_bind,hn,hk "origin_server_ts" (by decide),hts]
    exact ⟨hl,pr,_,hpr,hv',rfl,rfl,rfl,rfl,hve,hcr,hf⟩
  · cases hv

end Pruned

end Synapse.Redaction
