import Synapse.PythonText

/-!
# Replication commands

A command is sent as a line: its name, a space, and its fields. Some commands
join their fields with spaces, some write them as JSON.
-/

set_option autoImplicit false

namespace Synapse.ReplicationCommands
open Python PythonText List

/-- The values that rows are made of. Tuples are written as JSON arrays, and are
read as lists. -/
inductive Value where
  | null
  | bool (value : Bool)
  | int (value : ℤ)
  | float (value : PyFloat)
  | str (value : String)
  | list (values : List Value)
  | tuple (values : List Value)
  | dict (fields : List (String × Value))

namespace Value

mutual

def document : Value → Json
  | .null => .null
  | .bool b => .bool b
  | .int n => .int n
  | .float x => .float x
  | .str s => .str s
  | .list values => .array (documents values)
  | .tuple values => .array (documents values)
  | .dict fields => .object (fieldDocuments fields)

def documents : List Value → List Json
  | [] => []
  | value::values => document value::documents values

def fieldDocuments : List (String × Value) → JsonDict
  | [] => []
  | (key,value)::fields => (key,document value)::fieldDocuments fields

end

mutual

def ofJson : Json → Value
  | .null => .null
  | .bool b => .bool b
  | .int n => .int n
  | .float x => .float x
  | .str s => .str s
  | .array values => .list (ofJsons values)
  | .object fields => .dict (ofFields fields)

def ofJsons : List Json → List Value
  | [] => []
  | value::values => ofJson value::ofJsons values

def ofFields : JsonDict → List (String × Value)
  | [] => []
  | (key,value)::fields => (key,ofJson value)::ofFields fields

end

mutual

def hasTuple : Value → Bool
  | .tuple _ => true
  | .list values => anyTuple values
  | .dict fields => fieldsHaveTuple fields
  | _ => false

def anyTuple : List Value → Bool
  | [] => false
  | value::values => hasTuple value || anyTuple values

def fieldsHaveTuple : List (String × Value) → Bool
  | [] => false
  | (_,value)::fields => hasTuple value || fieldsHaveTuple fields

end

end Value

inductive SimpleCommand where
  | server
  | error
  | ping
  | name
  | remoteServerUp
  | newActiveTask
  deriving DecidableEq

inductive CommandClass where
  | simple (cls : SimpleCommand)
  | rdata
  | position
  | replicate
  | userSync
  | clearUserSyncs
  | federationAck
  | userIp
  | lockReleased
  deriving DecidableEq

inductive Command where
  | simple (cls : SimpleCommand) (data : String)
  | rdata (streamName instanceName : String) (token : Option ℤ) (row : Value)
  | position (streamName instanceName : String) (prevToken newToken : ℤ)
  | replicate
  | userSync (instanceId userId : String) (deviceId : Option String) (isSyncing : Bool)
      (lastSyncMs : ℤ)
  | clearUserSyncs (instanceId : String)
  | federationAck (instanceName : String) (token : ℤ)
  | userIp (userId : String) (accessToken ip userAgent deviceId lastSeen : Json)
  | lockReleased (instanceName lockName lockKey : Json)

namespace Command

def cls : Command → CommandClass
  | .simple cls _ => .simple cls
  | .rdata _ _ _ _ => .rdata
  | .position _ _ _ _ => .position
  | .replicate => .replicate
  | .userSync _ _ _ _ _ => .userSync
  | .clearUserSyncs _ => .clearUserSyncs
  | .federationAck _ _ => .federationAck
  | .userIp _ _ _ _ _ _ => .userIp
  | .lockReleased _ _ _ => .lockReleased

end Command

section Lines

def commandName : CommandClass → String
  | .simple .server => "SERVER"
  | .simple .error => "ERROR"
  | .simple .ping => "PING"
  | .simple .name => "NAME"
  | .simple .remoteServerUp => "REMOTE_SERVER_UP"
  | .simple .newActiveTask => "NEW_ACTIVE_TASK"
  | .rdata => "RDATA"
  | .position => "POSITION"
  | .replicate => "REPLICATE"
  | .userSync => "USER_SYNC"
  | .clearUserSyncs => "CLEAR_USER_SYNC"
  | .federationAck => "FEDERATION_ACK"
  | .userIp => "USER_IP"
  | .lockReleased => "LOCK_RELEASED"

def commands : List CommandClass :=
  [.simple .server,.rdata,.position,.simple .error,.simple .ping,.simple .name,.replicate,.userSync,
    .federationAck,.userIp,.simple .remoteServerUp,.clearUserSyncs,.lockReleased,
    .simple .newActiveTask]

/-- `COMMAND_MAP[name]` -/
def commandMap {E : Type} (name : String) : Py E CommandClass :=
  match commands.find? (fun cls => commandName cls = name) with
  | some cls => .ok cls
  | none => .error .keyError

def str (n : ℤ) : String := String.ofList (decimal n)

def int {E : Type} (s : String) : Py E ℤ :=
  match intOfText s.toList with
  | some n => .ok n
  | none => .error .valueError

def joinWords (words : List String) : String := String.ofList (join (words.map String.toList))

def splitWords (limit : ℕ) (line : String) : List String :=
  (splitAtMost limit line.toList).map String.ofList

variable (fmt : FloatFormat) (repr : String → String) {E : Type}

def toLine : Command → Py E String
  | .simple _ data => .ok data
  | .rdata streamName instanceName token row => do
    let rowJson ← encode fmt row.document
    .ok (joinWords [streamName,instanceName,(token.map str).getD "batch",rowJson])
  | .position streamName instanceName prevToken newToken =>
    .ok (joinWords [streamName,instanceName,str prevToken,str newToken])
  | .replicate => .ok ""
  | .userSync instanceId userId deviceId isSyncing lastSyncMs =>
    .ok (joinWords [instanceId,userId,deviceId.getD "None",if isSyncing then "start" else "end",
      str lastSyncMs])
  | .clearUserSyncs instanceId => .ok instanceId
  | .federationAck instanceName token => .ok (instanceName ++ " " ++ str token)
  | .userIp userId accessToken ip userAgent deviceId lastSeen => do
    let jsn ← encode fmt (.array [accessToken,ip,userAgent,deviceId,lastSeen])
    .ok (userId ++ " " ++ jsn)
  | .lockReleased instanceName lockName lockKey =>
    encode fmt (.array [instanceName,lockName,lockKey])

def rdataFromLine (line : String) : Py E Command :=
  match splitWords 3 line with
  | [streamName,instanceName,token,rowJson] => do
    let token ← if token = "batch" then .ok none else (int token).map some
    let row ← decode fmt rowJson
    .ok (.rdata streamName instanceName token (.ofJson row))
  | _ => .error .valueError

def positionFromLine (line : String) : Py E Command :=
  match splitWords 3 line with
  | [streamName,instanceName,prevToken,newToken] => do
    let prevToken ← int prevToken
    let newToken ← int newToken
    .ok (.position streamName instanceName prevToken newToken)
  | _ => .error .valueError

def userSyncFromLine (line : String) : Py E Command :=
  match splitWords 4 line with
  | [instanceId,userId,deviceId,state,lastSyncMs] =>
    if state ≠ "start" ∧ state ≠ "end" then
      .error (.exception ("Invalid USER_SYNC state " ++ repr state))
    else do
      let lastSyncMs ← int lastSyncMs
      .ok (.userSync instanceId userId (if deviceId = "None" then none else some deviceId)
        (state = "start") lastSyncMs)
  | _ => .error .valueError

def federationAckFromLine (line : String) : Py E Command :=
  match (split line.toList).map String.ofList with
  | [instanceName,token] => do
    let token ← int token
    .ok (.federationAck instanceName token)
  | _ => .error .valueError

def userIpFromLine (line : String) : Py E Command :=
  match splitWords 1 line with
  | [userId,jsn] => do
    let values ← (← decode fmt jsn).iter
    match values with
    | [accessToken,ip,userAgent,deviceId,lastSeen] =>
      .ok (.userIp userId accessToken ip userAgent deviceId lastSeen)
    | _ => .error .valueError
  | _ => .error .valueError

def lockReleasedFromLine (line : String) : Py E Command := do
  let values ← (← decode fmt line).iter
  match values with
  | [instanceName,lockName,lockKey] => .ok (.lockReleased instanceName lockName lockKey)
  | _ => .error .valueError

def fromLine (cls : CommandClass) (line : String) : Py E Command :=
  match cls with
  | .simple cls => .ok (.simple cls line)
  | .rdata => rdataFromLine fmt line
  | .position => positionFromLine line
  | .replicate => .ok .replicate
  | .userSync => userSyncFromLine repr line
  | .clearUserSyncs => .ok (.clearUserSyncs line)
  | .federationAck => federationAckFromLine line
  | .userIp => userIpFromLine fmt line
  | .lockReleased => lockReleasedFromLine fmt line

/-- Without a space the whole line is the name. -/
def parseCommandFromLine (line : String) : Py E Command := do
  let cs := line.toList
  let cls ← commandMap (String.ofList (cs.takeWhile (· ≠ ' ')))
  fromLine fmt repr cls (String.ofList (cs.dropWhile (· ≠ ' ')).tail)

end Lines

section Words

variable {E : Type}

theorem splitWords_joinWords (words : List String) (la : String)
    (h : ∀ word ∈ words, ' ' ∉ word.toList) :
    splitWords words.length (joinWords (words ++ [la])) = words ++ [la] := by
  have hwo : ∀ word ∈ words.map String.toList, ' ' ∉ word := by
    intro word hwr
    obtain ⟨w,hw,rfl⟩ := mem_map.mp hwr
    exact h w hw
  have hs := splitAtMost_join hwo la.toList
  rw [length_map] at hs
  rw [splitWords,joinWords,String.toList_ofList,map_append,map_singleton,hs]
  simp

theorem int_str (n : ℤ) : (int (str n) : Py E ℤ) = .ok n := by
  rw [int,str,String.toList_ofList,intOfText_decimal]

theorem mem_decimal {n : ℤ} {c : Char} (h : c ∈ decimal n) : c = '-' ∨ c.isDigit = true := by
  cases n with
  | ofNat n => exact .inr (Nat.isDigit_of_mem_toDigits (by omega) (by omega) h)
  | negSucc n =>
    rcases mem_cons.mp h with hc | hc
    · exact .inl hc
    · exact .inr (Nat.isDigit_of_mem_toDigits (by omega) (by omega) hc)

theorem space_notMem_str (n : ℤ) : ' ' ∉ (str n).toList := by
  rw [str,String.toList_ofList]
  intro h
  rcases mem_decimal h with h | h <;> exact absurd h (by decide)

theorem str_ne_batch (n : ℤ) : str n ≠ "batch" := by
  intro h
  have hi := int_str (E := Empty) n
  rw [h] at hi
  cases hi

end Words

mutual

theorem Value.ofJson_document : ∀ v : Value, v.hasTuple = false → Value.ofJson v.document = v
  | .null, _ => rfl
  | .bool _, _ => rfl
  | .int _, _ => rfl
  | .float _, _ => rfl
  | .str _, _ => rfl
  | .list values, h => by
    rw [Value.document,Value.ofJson,ofJsons_documents values h]
  | .tuple _, h => by cases h
  | .dict fields, h => by
    rw [Value.document,Value.ofJson,ofFields_fieldDocuments fields h]

theorem ofJsons_documents :
    ∀ vs, Value.anyTuple vs = false → Value.ofJsons (Value.documents vs) = vs
  | [], _ => rfl
  | v::vs, h => by
    rw [Value.anyTuple,Bool.or_eq_false_iff] at h
    rw [Value.documents,Value.ofJsons,Value.ofJson_document v h.1,ofJsons_documents vs h.2]

theorem ofFields_fieldDocuments :
    ∀ fs, Value.fieldsHaveTuple fs = false → Value.ofFields (Value.fieldDocuments fs) = fs
  | [], _ => rfl
  | (_,v)::fs, h => by
    rw [Value.fieldsHaveTuple,Bool.or_eq_false_iff] at h
    rw [Value.fieldDocuments,Value.ofFields,Value.ofJson_document v h.1,
      ofFields_fieldDocuments fs h.2]

end

section RoundTrip

variable (fmt : FloatFormat) (repr : String → String) {E : Type}

def NoSpace (s : String) : Prop := ' ' ∉ s.toList

instance (s : String) : Decidable (NoSpace s) := inferInstanceAs (Decidable (¬_))

def Sendable : Command → Prop
  | .rdata streamName instanceName _ row =>
    NoSpace streamName ∧ NoSpace instanceName ∧ Representable fmt row.document
  | .position streamName instanceName _ _ => NoSpace streamName ∧ NoSpace instanceName
  | .userSync instanceId userId _ _ _ => NoSpace instanceId ∧ NoSpace userId
  | .federationAck instanceName _ => NoSpace instanceName
  | .userIp userId accessToken ip userAgent deviceId lastSeen =>
    NoSpace userId ∧ AllRepresentable fmt [accessToken,ip,userAgent,deviceId,lastSeen]
  | .lockReleased instanceName lockName lockKey =>
    AllRepresentable fmt [instanceName,lockName,lockKey]
  | _ => True

/-- A device ID is one word, and not the word for no device. -/
def DeviceIsWord : Command → Prop
  | .userSync _ _ (some deviceId) _ _ => NoSpace deviceId ∧ deviceId ≠ "None"
  | _ => True

/-- The command as it is received: the tuples of a row have become lists. -/
def received : Command → Command
  | .rdata streamName instanceName token row =>
    .rdata streamName instanceName token (.ofJson row.document)
  | c => c

variable {fmt}

theorem rdata_fromLine {sn inst : String} (tk : Option ℤ) {row : Value} (hs : NoSpace sn)
    (hi : NoSpace inst) (hr : Representable fmt row.document) :
    (rdataFromLine fmt (joinWords [sn,inst,(tk.map str).getD "batch",
      String.ofList (text fmt row.document)]) : Py E Command) =
        .ok (.rdata sn inst tk (.ofJson row.document)) := by
  have hsp := splitWords_joinWords [sn,inst,(tk.map str).getD "batch"]
    (String.ofList (text fmt row.document)) (by
      cases tk with
      | none => simpa using ⟨hs,hi⟩
      | some n => simpa using ⟨hs,hi,space_notMem_str n⟩)
  simp only [length_cons,length_nil,cons_append,nil_append] at hsp
  rw [rdataFromLine,hsp]
  cases tk with
  | none => simp [decode_text hr]
  | some n => simp [decode_text hr,str_ne_batch n,int_str,Except.map]

theorem position_fromLine {sn inst : String} (pt nt : ℤ) (hst : NoSpace sn) (hi : NoSpace inst) :
    (positionFromLine (joinWords [sn,inst,str pt,str nt]) :
      Py E Command) = .ok (.position sn inst pt nt) := by
  have hs := splitWords_joinWords [sn,inst,str pt] (str nt)
    (by simpa using ⟨hst,hi,space_notMem_str pt⟩)
  simp only [length_cons,length_nil,cons_append,nil_append] at hs
  rw [positionFromLine,hs]
  simp [int_str]

theorem userSync_fromLine {iid uid did : String} (sy : Bool) (ls : ℤ) (hi : NoSpace iid)
    (hu : NoSpace uid) (hd : NoSpace did) :
    (userSyncFromLine repr (joinWords [iid,uid,did,
      if sy then "start" else "end",str ls]) : Py E Command) =
        .ok (.userSync iid uid (if did = "None" then none else some did) sy ls) := by
  have hs := splitWords_joinWords
    [iid,uid,did,if sy then "start" else "end"] (str ls) (by
      cases sy with
      | false => simpa using ⟨hi,hu,hd⟩
      | true => simpa using ⟨hi,hu,hd⟩)
  simp only [length_cons,length_nil,cons_append,nil_append] at hs
  rw [userSyncFromLine,hs]
  cases sy <;> simp [int_str]

theorem federationAck_fromLine {inst : String} (tk : ℤ) (hi : NoSpace inst) :
    (federationAckFromLine (inst ++ " " ++ str tk) : Py E Command) =
      .ok (.federationAck inst tk) := by
  have hl : (inst ++ " " ++ str tk).toList = inst.toList ++ ' '::(str tk).toList := by
    simp
  have hs : split (inst ++ " " ++ str tk).toList = [inst.toList,(str tk).toList] := by
    rw [split,hl,length_append,length_cons,← Nat.add_assoc,
      splitAtMost_cons _ hi,splitAtMost_word _ (space_notMem_str tk)]
  rw [federationAckFromLine,hs]
  simp [int_str]

theorem userIp_fromLine {uid : String} {act ip userAgent did lastSeen : Json} (hu : NoSpace uid)
    (hv : Representable fmt (.array [act,ip,userAgent,did,lastSeen])) :
    (userIpFromLine fmt (uid ++ " " ++ String.ofList (text fmt
      (.array [act,ip,userAgent,did,lastSeen]))) : Py E Command) =
        .ok (.userIp uid act ip userAgent did lastSeen) := by
  generalize hjsn : String.ofList (text fmt (.array [act,ip,userAgent,did,lastSeen])) = jsn
  have hl : (uid ++ " " ++ jsn).toList = uid.toList ++ ' '::jsn.toList := by simp
  have hs : splitWords 1 (uid ++ " " ++ jsn) = [uid,jsn] := by
    rw [splitWords,hl,splitAtMost_cons _ hu,splitAtMost]
    simp
  rw [userIpFromLine,hs]
  simp [← hjsn,decode_text hv,Json.iter]

theorem fromLine_toLine_of_word {c : Command} (h : Sendable fmt c) (hd : DeviceIsWord c) :
    ∃ line, (toLine fmt c : Py E String) = .ok line ∧
      (fromLine fmt repr c.cls line : Py E Command) = .ok (received c) := by
  cases c with
  | simple cls da => exact ⟨_,rfl,rfl⟩
  | rdata sn inst tk row =>
    obtain ⟨hs,hi,hrow⟩ := h
    refine ⟨_,?_,rdata_fromLine tk hs hi hrow⟩
    simp [toLine,encode_of_representable hrow]
  | position sn inst pt nt =>
    exact ⟨_,rfl,position_fromLine pt nt h.1 h.2⟩
  | replicate => exact ⟨_,rfl,rfl⟩
  | userSync iid uid did sy ls =>
    refine ⟨_,rfl,?_⟩
    cases did with
    | none => exact userSync_fromLine repr sy ls h.1 h.2 (by decide)
    | some did =>
      have hr := userSync_fromLine (E := E) repr sy ls h.1 h.2 hd.1
      rw [if_neg hd.2] at hr
      exact hr
  | clearUserSyncs iid => exact ⟨_,rfl,rfl⟩
  | federationAck inst tk => exact ⟨_,rfl,federationAck_fromLine tk h⟩
  | userIp uid act ip userAgent did lastSeen =>
    have hv : Representable fmt (.array [act,ip,userAgent,did,lastSeen]) := by
      exact h.2
    refine ⟨_,?_,userIp_fromLine h.1 hv⟩
    simp [toLine,encode_of_representable hv]
  | lockReleased inst lockName lockKey =>
    have hv : Representable fmt (.array [inst,lockName,lockKey]) := by
      exact h
    refine ⟨_,encode_of_representable hv,?_⟩
    simp [fromLine,Command.cls,received,lockReleasedFromLine,decode_text hv,Json.iter]

theorem parseCommandFromLine_name (cls : CommandClass) (line : String) :
    (parseCommandFromLine fmt repr (commandName cls ++ " " ++ line) : Py E Command) =
      fromLine fmt repr cls line := by
  have hs : ' ' ∉ (commandName cls).toList := by
    cases cls with
    | simple cls => cases cls <;> decide
    | _ => decide
  have hm : (commandMap (commandName cls) : Py E CommandClass) = .ok cls := by
    cases cls with
    | simple cls => cases cls <;> rfl
    | _ => rfl
  have hw : ∀ c ∈ (commandName cls).toList, decide (c ≠ ' ') = true :=
    fun c hc => decide_eq_true (fun heq => hs (heq ▸ hc))
  have hl : (commandName cls ++ " " ++ line).toList =
      (commandName cls).toList ++ ' '::line.toList := by simp
  rw [parseCommandFromLine,hl]
  rw [takeWhile_append_of_pos hw,dropWhile_append_of_pos hw,
    takeWhile_cons_of_neg (by decide),append_nil,
    String.ofList_toList,hm]
  simp

theorem received_eq {c : Command}
    (h : ∀ sn inst tk row, c = .rdata sn inst tk row → row.hasTuple = false) : received c = c := by
  cases c with
  | rdata sn inst tk row =>
    rw [received,Value.ofJson_document row (h _ _ _ _ rfl)]
  | _ => rfl

theorem splitAtMost_one (b z : List Char) : ∃ x y, splitAtMost 1 (b ++ ' '::z) = [x,y ++ z] := by
  by_cases h : ' ' ∈ b
  · obtain ⟨x,y,rfl,hx⟩ := eq_append_cons_of_mem h
    refine ⟨x,y ++ [' '],?_⟩
    rw [append_assoc,cons_append,splitAtMost_cons 0 hx,splitAtMost]
    simp
  · refine ⟨b,[],?_⟩
    rw [splitAtMost_cons 0 h]
    rfl

/-- A device ID with a space in it shifts the words that follow: the line is refused. -/
theorem userSync_space {iid uid did : String} (sy : Bool) (ls : ℤ) (hi : NoSpace iid)
    (hu : NoSpace uid) (hd : ¬NoSpace did) :
    ∃ e, (userSyncFromLine repr (joinWords [iid,uid,did,
      if sy then "start" else "end",str ls]) : Py E Command) = .error e := by
  obtain ⟨a,b,hab,ha⟩ := eq_append_cons_of_mem (not_not.mp hd)
  generalize hst : (if sy then "start" else "end") = state
  obtain ⟨x,y,hxy⟩ := splitAtMost_one b (state.toList ++ ' '::(str ls).toList)
  have hsp : splitWords 4 (joinWords [iid,uid,did,state,str ls]) =
      [iid,uid,String.ofList a,String.ofList x,
        String.ofList (y ++ (state.toList ++ ' '::(str ls).toList))] := by
    have hl : (joinWords [iid,uid,did,state,str ls]).toList =
        iid.toList ++ ' '::(uid.toList ++ ' '::(a ++
          ' '::(b ++ ' '::(state.toList ++ ' '::(str ls).toList)))) := by
      simp [joinWords,join,hab]
    rw [splitWords,hl,splitAtMost_cons _ hi,splitAtMost_cons _ hu,splitAtMost_cons _ ha,hxy]
    simp
  -- the last word has the state in it, and is no integer
  have hint : (int (String.ofList (y ++ (state.toList ++ ' '::(str ls).toList))) : Py E ℤ) =
      .error .valueError := by
    rw [int]
    split
    · rename_i n hn
      have hc := intOfText_chars hn
      cases sy with
      | false =>
        have he := hc 'e' (by simp [← hst])
        exact absurd he (by decide)
      | true =>
        have hs := hc 's' (by simp [← hst])
        exact absurd hs (by decide)
    · rfl
  rw [userSyncFromLine,hsp]
  dsimp only
  split
  · exact ⟨_,rfl⟩
  · rw [hint]
    exact ⟨_,rfl⟩

theorem deviceIsWord_of_read {c : Command} (h : Sendable fmt c) {line : String}
    (hl : (toLine fmt c : Py E String) = .ok line)
    (hr : (fromLine fmt repr c.cls line : Py E Command) = .ok (received c)) : DeviceIsWord c := by
  cases c with
  | userSync iid uid did sy ls =>
    cases did with
    | none => trivial
    | some did =>
      cases hl
      have hs : NoSpace did := by
        by_contra hs
        obtain ⟨e,he⟩ := userSync_space (E := E) repr sy ls h.1 h.2 hs
        exact absurd (he.symm.trans hr) (by simp)
      have hw := userSync_fromLine (E := E) repr sy ls h.1 h.2 hs
      have heq := Except.ok.inj (hw.symm.trans hr)
      refine ⟨hs,?_⟩
      rintro rfl
      simp [received] at heq
  | _ => trivial

end RoundTrip

theorem deviceIsWord_of_survives (fmt : FloatFormat) (repr : String → String) (c : Command)
    (h : Sendable fmt c) {line : String} (hl : (toLine fmt c : Py Empty String) = .ok line)
    (hr : (fromLine fmt repr c.cls line : Py Empty Command) = .ok c) : DeviceIsWord c := by
  cases c with
  | userSync => exact deviceIsWord_of_read repr h hl hr
  | _ => trivial

/-- Exactly the commands survive the wire that are no user sync of a device whose ID is not one
word or is `None`. -/
theorem fromLine_toLine (fmt : FloatFormat) (repr : String → String) (c : Command)
    (h : Sendable fmt c) :
    ((∃ line, (toLine fmt c : Py Empty String) = .ok line ∧
      (fromLine fmt repr c.cls line : Py Empty Command) = .ok (received c) ∧
      (parseCommandFromLine fmt repr (commandName c.cls ++ " " ++ line) : Py Empty Command) =
        .ok (received c)) ↔ DeviceIsWord c) ∧
    ((∀ streamName instanceName token row, c = .rdata streamName instanceName token row →
      row.hasTuple = false) → received c = c) := by
  refine ⟨⟨?_,?_⟩,received_eq⟩
  · rintro ⟨line,hline,hread,-⟩
    exact deviceIsWord_of_read repr h hline hread
  · intro hdevice
    obtain ⟨line,hline,hread⟩ := fromLine_toLine_of_word (E := Empty) repr h hdevice
    exact ⟨line,hline,hread,(parseCommandFromLine_name repr c.cls line).trans hread⟩

def half : FloatFormat where
  IsDouble q := q = 1/2
  repr _ := ['0','.','5']
  parse _ := .finite (1/2)
  numeral_repr _ _ := rfl
  parse_repr _ h := by rw [h]

theorem deviceIsWord_of_survives_phone :
    DeviceIsWord (.userSync "w1" "@u:x" (some "phone") true 5) :=
  deviceIsWord_of_survives half id _ ⟨by decide,by decide⟩ rfl rfl

def cachesRow : Command :=
  .rdata "caches" "worker1" none (.tuple [.str "a b",.float (.finite (1/2)),.null])

theorem fromLine_toLine_cachesRow :
    Sendable half cachesRow ∧ DeviceIsWord cachesRow ∧
      ∃ line, (toLine half cachesRow : Py Empty String) = .ok line ∧
        (fromLine half id .rdata line : Py Empty Command) = .ok (.rdata "caches" "worker1" none
          (.list [.str "a b",.float (.finite (1/2)),.null])) := by
  have hsendable : Sendable half cachesRow := by
    refine ⟨by decide,by decide,?_⟩
    simp [Value.document,Value.documents,Representable,AllRepresentable,half]
  obtain ⟨line,hline,hread,-⟩ := (fromLine_toLine half id cachesRow hsendable).1.mpr trivial
  exact ⟨hsendable,trivial,line,hline,hread⟩

/-- A device ID of two words is refused, and the device ID `None` is lost. -/
theorem userSync_device_lost :
    (toLine half (.userSync "w1" "@u:x" (some "my phone") true 5) : Py Empty String) =
      .ok "w1 @u:x my phone start 5" ∧
    (fromLine half id .userSync "w1 @u:x my phone start 5" : Py Empty Command) =
      .error (.exception "Invalid USER_SYNC state phone") ∧
    (toLine half (.userSync "w1" "@u:x" (some "None") true 5) : Py Empty String) =
      .ok "w1 @u:x None start 5" ∧
    (fromLine half id .userSync "w1 @u:x None start 5" : Py Empty Command) =
      .ok (.userSync "w1" "@u:x" none true 5) := by
  refine ⟨rfl,rfl,rfl,rfl⟩

end Synapse.ReplicationCommands
