import Synapse.Events
import Synapse.PythonText
import Synapse.Runs

/-!
# Fallback keys

A device has a fallback key for an algorithm, which is handed out when its one-time
keys have run out and is then marked as used. Uploading the same key again leaves it
so, where the key is compared as canonical JSON with the stored text. That text is in
the order of the upload and escapes more characters. The encoder of canonical JSON is a
parameter. Calls are made one after the other, for one device and one algorithm.
-/

set_option autoImplicit false

namespace Synapse.FallbackKeys
open Python PythonText Runs

mutual

/-- `sort_keys=True` -/
def sortKeys : Json → Json
  | .array values => .array (sortAll values)
  | .object fields => .object ((sortFields fields).insertionSort (fun p q => p.1 ≤ q.1))
  | value => value

def sortAll : List Json → List Json
  | [] => []
  | value::values => sortKeys value::sortAll values

def sortFields : JsonDict → JsonDict
  | [] => []
  | (key,value)::fields => (key,sortKeys value)::sortFields fields

end

/-- The same fields and values, in any order. -/
def SameJson (a b : Json) : Prop := sortKeys a = sortKeys b

/-- Canonical JSON has one text for the same fields and values. -/
def Canonical (encodeCanonicalJson : Json → Raises String) : Prop :=
  ∀ a b, SameJson a b → encodeCanonicalJson a = encodeCanonicalJson b

/-- A row of `e2e_fallback_keys_json`, with the object that its text was made of. -/
structure Row where
  keyId : String
  keyJson : String
  used : Bool
  key : Json

variable (encodeCanonicalJson : Json → Raises String) (fmt : FloatFormat) (engine : Engine)

def setFallbackKey (row : Option Row) (entry : String × Json) : Raises (Option Row) := do
  let newKeyJson ← encodeCanonicalJson entry.2
  if row.map Row.keyJson ≠ some newKeyJson then
    let keyJson ← encode fmt entry.2
    .ok (some ⟨entry.1,keyJson,false,entry.2⟩)
  else .ok row

def setE2eFallbackKeysTxn (fallbackKeys : List (String × Json)) (row : Option Row) :
    Raises (Option Row) :=
  fallbackKeys.foldlM (setFallbackKey encodeCanonicalJson fmt) row

/-- The types that `get_e2e_unused_fallback_key_types` returns have the algorithm. -/
def isUnused (row : Option Row) : Bool := row.any (fun r => !r.used)

/-- A request for keys: how many one-time keys the store returned for it, and if the
application services were asked, which of the keys that they returned are fallback keys
and whether some are still missing. -/
structure Claim where
  count : ℕ
  oneTimeKeys : ℕ
  appservices : Option (List Bool × Bool)
  alwaysIncludeFallbackKeys : Bool
  deriving DecidableEq

namespace Claim

def appserviceKeys (c : Claim) : List Bool := (c.appservices.map Prod.fst).getD []

def notFound (c : Claim) : Bool :=
  (c.appservices.map Prod.snd).getD (c.oneTimeKeys < min c.count 5)

/-- Whether to mark the key as used, if it is asked for. -/
def fallbackQuery (c : Claim) : Option Bool :=
  if c.alwaysIncludeFallbackKeys then
    if c.appserviceKeys.any id then none
    else some (c.appserviceKeys.isEmpty && c.oneTimeKeys = 0)
  else if c.notFound then some true
  else none

end Claim

def claimE2eFallbackKey (markAsUsed : Bool) (row : Row) : Row :=
  match engine with
  | .postgres => { row with used := row.used || markAsUsed }
  | .sqlite => if !row.used && markAsUsed then { row with used := true } else row

def claimLocalOneTimeKeys (c : Claim) (row : Option Row) : Option Json × Option Row :=
  match c.fallbackQuery with
  | none => (none,row)
  | some markAsUsed => (row.map Row.key,row.map (claimE2eFallbackKey engine markAsUsed))

inductive Op where
  | upload (fallbackKeys : List (String × Json))
  | claim (c : Claim)

/-- An upload that raises changes nothing. -/
def step (op : Op) (row : Option Row) : Option Row :=
  match op with
  | .upload fallbackKeys =>
    match setE2eFallbackKeysTxn encodeCanonicalJson fmt fallbackKeys row with
    | .ok row' => row'
    | .error _ => row
  | .claim c => (claimLocalOneTimeKeys engine c row).2

def OnlyFallback (c : Claim) (row : Option Row) : Prop :=
  c.oneTimeKeys = 0 ∧ c.appserviceKeys = [] ∧ (claimLocalOneTimeKeys engine c row).1.isSome

/-- The objects of an upload have the same text in both serialisations. -/
def SameTexts : Op → Prop
  | .upload fallbackKeys =>
    ∀ entry ∈ fallbackKeys, encodeCanonicalJson entry.2 = encode fmt entry.2
  | .claim _ => True

def Repeats (key : Json) : Op → Prop
  | .upload fallbackKeys => ∀ entry ∈ fallbackKeys, SameJson entry.2 key
  | .claim _ => True

def Stored (row : Option Row) : Prop := ∀ r ∈ row, encodeCanonicalJson r.key = .ok r.keyJson

variable {encodeCanonicalJson fmt engine} {row : Option Row}

theorem setFallbackKey_stored {e : String × Json} {row' : Option Row}
    (h : Stored encodeCanonicalJson row) (ht : encodeCanonicalJson e.2 = encode fmt e.2)
    (hs : setFallbackKey encodeCanonicalJson fmt row e = .ok row') :
    Stored encodeCanonicalJson row' := by
  obtain ⟨newKeyJson,-,hs⟩ := bind_eq_ok.mp hs
  split at hs
  · obtain ⟨keyJson,he,hs⟩ := bind_eq_ok.mp hs
    cases hs
    intro r hr
    cases hr
    rw [ht,he]
  · cases hs
    exact h

theorem setFallbackKey_same (hcanonical : Canonical encodeCanonicalJson) {e : String × Json}
    {row' : Option Row} {r : Row} (h : Stored encodeCanonicalJson (some r))
    (hs : SameJson e.2 r.key)
    (hset : setFallbackKey encodeCanonicalJson fmt (some r) e = .ok row') : row' = some r := by
  obtain ⟨newKeyJson,hc,hset⟩ := bind_eq_ok.mp hset
  have hn : some r.keyJson = some newKeyJson := by
    rw [hcanonical _ _ hs,h r rfl] at hc
    rw [Except.ok.inj hc]
  have hsk : (.ok (some r) : Raises (Option Row)) = .ok row' :=
    (if_neg (not_not.mpr hn)).symm.trans hset
  cases hsk
  rfl

theorem claimE2eFallbackKey_spec (engine : Engine) (markAsUsed : Bool) (r : Row) :
    claimE2eFallbackKey engine markAsUsed r = { r with used := r.used || markAsUsed } := by
  obtain ⟨keyId,keyJson,used,key⟩ := r
  cases engine <;> cases used <;> cases markAsUsed <;> rfl

theorem claim_row (c : Claim) (r : Row) :
    ∃ used, step encodeCanonicalJson fmt engine (.claim c) (some r) =
      some { r with used := r.used || used } := by
  cases hq : c.fallbackQuery with
  | none => exact ⟨false,by simp [step,claimLocalOneTimeKeys,hq]⟩
  | some markAsUsed =>
    exact ⟨markAsUsed,by simp [step,claimLocalOneTimeKeys,hq,claimE2eFallbackKey_spec]⟩

theorem step_stored (op : Op) (h : Stored encodeCanonicalJson row)
    (ht : SameTexts encodeCanonicalJson fmt op) :
    Stored encodeCanonicalJson (step encodeCanonicalJson fmt engine op row) := by
  cases op with
  | upload fallbackKeys =>
    unfold step
    dsimp only
    split
    · next row' hset =>
      refine foldlM_ok_invariant ?_ h hset
      intro e he row row' h hset
      exact setFallbackKey_stored h (ht e he) hset
    · exact h
  | claim c =>
    cases row with
    | none => cases hq : c.fallbackQuery <;> simp [step,claimLocalOneTimeKeys,hq,Stored]
    | some r =>
      obtain ⟨used,hs⟩ := claim_row c r
      rw [hs]
      intro r' hr'
      cases hr'
      exact h r rfl

theorem claim_uses (encodeCanonicalJson : Json → Raises String) (fmt : FloatFormat) {c : Claim}
    (h : OnlyFallback engine c row) :
    ∃ r, row = some r ∧ step encodeCanonicalJson fmt engine (.claim c) row =
      some { r with used := true } := by
  obtain ⟨ho,hk,hs⟩ := h
  have hq : c.fallbackQuery = none ∨ c.fallbackQuery = some true := by
    unfold Claim.fallbackQuery
    rw [hk,ho]
    cases c.alwaysIncludeFallbackKeys <;> cases c.notFound <;> simp
  rcases hq with hq | hq
  · simp [claimLocalOneTimeKeys,hq] at hs
  · obtain ⟨r,rfl⟩ : ∃ r, row = some r := by
      simpa [claimLocalOneTimeKeys,hq,Option.isSome_iff_exists] using hs
    exact ⟨r,rfl,by simp [step,claimLocalOneTimeKeys,hq,claimE2eFallbackKey_spec]⟩

theorem step_keeps_used (hcanonical : Canonical encodeCanonicalJson) (op : Op) {r : Row}
    (h : Stored encodeCanonicalJson (some r)) (hu : r.used = true) (hr : Repeats r.key op) :
    step encodeCanonicalJson fmt engine op (some r) = some r := by
  cases op with
  | upload fallbackKeys =>
    unfold step
    dsimp only
    split
    · next row' hset =>
      refine foldlM_ok_invariant (I := fun row => row = some r) ?_ rfl hset
      intro e he row row' hrow hset
      subst hrow
      exact setFallbackKey_same hcanonical h (hr e he) hset
    · rfl
  | claim c =>
    obtain ⟨used,hs⟩ := claim_row c r
    rw [hs,hu,Bool.true_or,← hu]

/-- If the uploaded objects have the same text in both serialisations, a fallback key that a
claim returned on its own is reported as used, and stays so until another one is uploaded. -/
theorem used_fallback_key_stays_used (encodeCanonicalJson : Json → Raises String)
    (hcanonical : Canonical encodeCanonicalJson) (fmt : FloatFormat) (engine : Engine)
    (before rest : List Op) (c : Claim)
    (htexts : ∀ op ∈ before, SameTexts encodeCanonicalJson fmt op)
    (honly : OnlyFallback engine c (run (step encodeCanonicalJson fmt engine) before none))
    (hrest : ∀ r ∈ run (step encodeCanonicalJson fmt engine) before none,
      ∀ op ∈ rest, Repeats r.key op) :
    ∃ r, run (step encodeCanonicalJson fmt engine) before none = some r ∧
      run (step encodeCanonicalJson fmt engine) (before ++ .claim c::rest) none =
        some { r with used := true } ∧
      isUnused (run (step encodeCanonicalJson fmt engine) (before ++ .claim c::rest) none) =
        false := by
  have hstored : Stored encodeCanonicalJson
      (run (step encodeCanonicalJson fmt engine) before none) := by
    revert htexts
    clear honly hrest
    induction before using List.reverseRecOn with
    | nil => simp [run,Stored]
    | append_singleton before op ih =>
      intro htexts
      rw [run_append]
      exact step_stored op (ih (fun op hop => htexts op (by simp [hop]))) (htexts op (by simp))
  obtain ⟨r,hr,hclaim⟩ := claim_uses encodeCanonicalJson fmt honly
  have hrest' : run (step encodeCanonicalJson fmt engine) rest (some { r with used := true }) =
      some { r with used := true } := by
    have hr' : Stored encodeCanonicalJson (some { r with used := true }) := by
      intro r' hr'
      cases hr'
      exact hstored r hr
    have hrepeats := hrest r hr
    clear hrest
    induction rest with
    | nil => rfl
    | cons op rest ih =>
      rw [List.forall_mem_cons] at hrepeats
      rw [run,step_keeps_used hcanonical op hr' rfl hrepeats.1]
      exact ih hrepeats.2
  refine ⟨r,hr,?_,?_⟩ <;> rw [run_append,run,hclaim,hrest']
  rfl

def noFloats : FloatFormat where
  IsDouble _ := False
  repr _ := []
  parse _ := .infinite false
  numeral_repr _ h := h.elim
  parse_repr _ h := h.elim

def sortedKey : Json := .object [("fallback",.bool true),("key",.str "k")]

def unsortedKey : Json := .object [("key",.str "k"),("fallback",.bool true)]

def lastClaim : Claim := ⟨1,0,none,false⟩

/-- Canonical JSON of objects that have ASCII characters only. -/
def encodeSorted (value : Json) : Raises String := encode noFloats (sortKeys value)

theorem used_fallback_key_stays_used_sortedKey :
    isUnused (run (step encodeSorted noFloats .postgres) ([.upload [("AAA",sortedKey)]] ++
      .claim lastClaim::[.upload [("AAA",unsortedKey)]]) none) = false := by
  obtain ⟨r,-,-,hused⟩ := used_fallback_key_stays_used encodeSorted
    (fun _ _ h => congrArg (encode noFloats) h) noFloats .postgres
    [.upload [("AAA",sortedKey)]] [.upload [("AAA",unsortedKey)]] lastClaim
    (by simp [SameTexts]; rfl) ⟨rfl,rfl,by decide +kernel⟩
    (by intro r hr; cases hr; simp [Repeats]; rfl)
  exact hused

/-- The stored text has the fields in the order of the upload, and is not equal to the
canonical JSON of the same object. -/
theorem repeated_upload_unused :
    OnlyFallback .postgres lastClaim
        (run (step encodeSorted noFloats .postgres) [.upload [("AAA",unsortedKey)]] none) ∧
      isUnused (run (step encodeSorted noFloats .postgres) [.upload [("AAA",unsortedKey)],
        .claim lastClaim] none) = false ∧
      isUnused (run (step encodeSorted noFloats .postgres) [.upload [("AAA",unsortedKey)],
        .claim lastClaim,.upload [("AAA",unsortedKey)]] none) = true :=
  ⟨⟨rfl,rfl,by decide +kernel⟩,by decide +kernel,by decide +kernel⟩

end Synapse.FallbackKeys
