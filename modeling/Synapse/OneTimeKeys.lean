import Synapse.Events
import Synapse.Runs

/-!
# One-time keys

A claim takes one-time keys out of the database, with a query and a deletion for each
request on SQLite and with one deletion for all of them on Postgres. The rows of a query
come in an order that is not specified. The names `algorithm:key_id` are pairs here, as
there is no other colon in them, and rows are numbered as they are stored.
-/

set_option autoImplicit false

namespace Synapse.OneTimeKeys
open List Runs

structure Slot where
  userId : String
  deviceId : String
  algorithm : String
  deriving DecidableEq

structure OneTimeKey where
  slot : Slot
  keyId : String
  keyJson : String
  number : ℕ
  deriving DecidableEq

def OneTimeKey.key (row : OneTimeKey) : Slot × String := (row.slot,row.keyId)

structure Request where
  slot : Slot
  count : ℕ
  deriving DecidableEq

structure RowOrder where
  list : List OneTimeKey → List OneTimeKey
  perm : ∀ rows, (list rows).Perm rows

def available (slot : Slot) (rows : List OneTimeKey) : List OneTimeKey :=
  rows.filter (fun row => row.slot = slot)

/-- `LIMIT count`, and the rows with `r <= claim_count` of a partition. -/
def chosen (order : RowOrder) (request : Request) (rows : List OneTimeKey) : List OneTimeKey :=
  (order.list (available request.slot rows)).take request.count

def claimE2eOneTimeKeySimple (order : RowOrder) (request : Request) (rows : List OneTimeKey) :
    List OneTimeKey × List OneTimeKey :=
  let otkRows := chosen order request rows
  (otkRows,rows.filter (fun row =>
    ¬(row.keyId ∈ otkRows.map OneTimeKey.keyId ∧ row.slot = request.slot)))

def claimE2eOneTimeKeysBulk (order : RowOrder) (query : List Request) (rows : List OneTimeKey) :
    List OneTimeKey × List OneTimeKey :=
  let ranked := (query.flatMap (fun request => chosen order request rows)).map OneTimeKey.key
  (rows.filter (fun row => row.key ∈ ranked),rows.filter (fun row => row.key ∉ ranked))

structure Claims where
  results : List OneTimeKey
  missing : List Request
  rows : List OneTimeKey

def claimEach (order : RowOrder) : List Request → List OneTimeKey → Claims
  | [], rows => ⟨[],[],rows⟩
  | request::query, rows =>
    let (claimRows,rows) := claimE2eOneTimeKeySimple order request rows
    let rest := claimEach order query rows
    let count := request.count-claimRows.length
    ⟨claimRows ++ rest.results,
      if count ≠ 0 then ⟨request.slot,count⟩::rest.missing else rest.missing,
      rest.rows⟩

/-- `unfulfilled_claim_counts[(user_id, device_id, algorithm)] -= 1` -/
def fulfil (counts : List Request) (row : OneTimeKey) : List Request :=
  counts.map (fun request => ⟨request.slot,
    if request.slot = row.slot then request.count-1 else request.count⟩)

def claimE2eOneTimeKeys (engine : Engine) (order : RowOrder) (query : List Request)
    (rows : List OneTimeKey) : Claims :=
  match engine with
  | .postgres =>
    let (bulkClaims,rows) := claimE2eOneTimeKeysBulk order query rows
    ⟨bulkClaims,(bulkClaims.foldl fulfil query).filter (fun request => 0 < request.count),rows⟩
  | .sqlite => claimEach order query rows

structure World where
  rows : List OneTimeKey
  nextNumber : ℕ
  returned : List (List OneTimeKey)

inductive Op where
  | upload (userId deviceId : String) (oneTimeKeys : Dict (String × String) String)
  | claim (engine : Engine) (order : RowOrder) (query : List Request)

def storedKey (w : World) (userId deviceId : String) (name : String × String) : Option OneTimeKey :=
  w.rows.find? (fun row => row.key = (⟨userId,deviceId,name.1⟩,name.2))

/-- An upload raises where a key is stored that does not match. -/
def uploadOneTimeKeysForUser (oneTimeKeysMatch : String → String → Bool) (userId deviceId : String)
    (oneTimeKeys : Dict (String × String) String) (w : World) : World :=
  if oneTimeKeys.entries.any (fun entry => (storedKey w userId deviceId entry.1).any
      (fun row => !oneTimeKeysMatch row.keyJson entry.2)) then w
  else
    let newKeys := oneTimeKeys.entries.filter
      (fun entry => storedKey w userId deviceId entry.1 = none)
    { w with
      rows := w.rows ++ (newKeys.zipIdx w.nextNumber).map (fun p =>
        ⟨⟨userId,deviceId,p.1.1.1⟩,p.1.1.2,p.1.2,p.2⟩)
      nextNumber := w.nextNumber+newKeys.length }

def step (oneTimeKeysMatch : String → String → Bool) (op : Op) (w : World) : World :=
  match op with
  | .upload userId deviceId oneTimeKeys =>
    uploadOneTimeKeysForUser oneTimeKeysMatch userId deviceId oneTimeKeys w
  | .claim engine order query =>
    let claims := claimE2eOneTimeKeys engine order query w.rows
    { w with rows := claims.rows, returned := claims.results::w.returned }

def start : World := ⟨[],0,[]⟩

/-- Positive counts, and at most one request for a user, device and algorithm. -/
def Proper (query : List Request) : Prop :=
  (query.map Request.slot).Nodup ∧ ∀ request ∈ query, 0 < request.count

def shortfall (rows : List OneTimeKey) (request : Request) : Request :=
  ⟨request.slot,request.count-(available request.slot rows).length⟩

/-- The keys are taken out of the rows, as many for each request as there are, and what is
missing is reported. -/
structure Accounted (query : List Request) (rows : List OneTimeKey) (claims : Claims) : Prop where
  perm : rows.Perm (claims.results ++ claims.rows)
  asked : ∀ row ∈ claims.results, row.slot ∈ query.map Request.slot
  count : ∀ request ∈ query, (available request.slot claims.results).length =
    min request.count (available request.slot rows).length
  missing : claims.missing = (query.map (shortfall rows)).filter (fun request => 0 < request.count)

section Claiming

variable {order : RowOrder} {request : Request} {query : List Request} {rows : List OneTimeKey}

theorem mem_chosen {row : OneTimeKey} (h : row ∈ chosen order request rows) :
    row ∈ rows ∧ row.slot = request.slot := by
  have hm := (order.perm _).mem_iff.mp (mem_of_mem_take h)
  simpa [available] using hm

theorem chosen_length (order : RowOrder) : (chosen order request rows).length =
    min request.count (available request.slot rows).length := by
  rw [chosen,length_take,(order.perm _).length_eq]

theorem chosen_nodup (hn : rows.Nodup) : (chosen order request rows).Nodup :=
  ((order.perm _).nodup_iff.mpr (hn.filter _)).sublist (take_sublist _ _)

theorem simple_rows (order : RowOrder) (request : Request) (rows : List OneTimeKey) :
    (claimE2eOneTimeKeySimple order request rows).2 =
      rows.filter (fun row => row.key ∉ (chosen order request rows).map OneTimeKey.key) := by
  refine filter_congr (fun row _ => ?_)
  simp only [decide_eq_decide,not_iff_not,mem_map,OneTimeKey.key,Prod.mk.injEq]
  constructor
  · rintro ⟨⟨o,ho,hid⟩,hs⟩
    exact ⟨o,ho,(mem_chosen ho).2.trans hs.symm,hid⟩
  · rintro ⟨o,ho,hs,hid⟩
    exact ⟨⟨o,ho,hid⟩,hs ▸ (mem_chosen ho).2⟩

theorem chosen_simple {o : Request} (hne : o.slot ≠ request.slot) :
    chosen order o (claimE2eOneTimeKeySimple order request rows).2 = chosen order o rows := by
  have ha : available o.slot (claimE2eOneTimeKeySimple order request rows).2 =
      available o.slot rows := by
    rw [simple_rows,available,filter_filter]
    refine filter_congr (fun row _ => ?_)
    by_cases hs : row.slot = o.slot
    · have hk : row.key ∉ (chosen order request rows).map OneTimeKey.key := by
        intro hm
        obtain ⟨taken,ht,heq⟩ := mem_map.mp hm
        have hsl : taken.slot = row.slot := congrArg Prod.fst heq
        exact hne (hs.symm.trans (hsl.symm.trans (mem_chosen ht).2))
      simp [hk]
    · simp [hs]
  rw [chosen,ha,chosen]

def ranked (order : RowOrder) (query : List Request) (rows : List OneTimeKey) : List OneTimeKey :=
  query.flatMap (fun request => chosen order request rows)

theorem claimEach_eq (hq : (query.map Request.slot).Nodup) : claimEach order query rows =
    ⟨ranked order query rows,(query.map (fun request => (⟨request.slot,
        request.count-(chosen order request rows).length⟩ : Request))).filter
          (fun request => 0 < request.count),
      rows.filter (fun row => row.key ∉ (ranked order query rows).map OneTimeKey.key)⟩ := by
  induction query generalizing rows with
  | nil => simp [claimEach,ranked]
  | cons request query ih =>
    rw [map_cons,nodup_cons] at hq
    have ho : ∀ o ∈ query, chosen order o (claimE2eOneTimeKeySimple order request rows).2 =
        chosen order o rows := fun o hm => chosen_simple (fun heq => hq.1 (heq ▸ mem_map_of_mem hm))
    have hr : ranked order query (claimE2eOneTimeKeySimple order request rows).2 =
        ranked order query rows := flatMap_congr ho
    simp only [claimEach,ih hq.2,hr,Claims.mk.injEq]
    refine ⟨rfl,?_,?_⟩
    · rw [map_congr_left (fun o hm => by rw [ho o hm]),map_cons,filter_cons]
      simp only [decide_eq_true_eq,Nat.pos_iff_ne_zero]
      rfl
    · rw [simple_rows,filter_filter]
      refine filter_congr (fun row _ => ?_)
      rw [← Bool.decide_and,decide_eq_decide,ranked,ranked,flatMap_cons,map_append,
        mem_append,not_or,and_comm]

theorem foldl_fulfil (claims : List OneTimeKey) : claims.foldl fulfil query =
    query.map (fun request =>
      ⟨request.slot,request.count-(available request.slot claims).length⟩) := by
  induction claims generalizing query with
  | nil => simp [available]
  | cons row claims ih =>
    rw [foldl_cons,ih,fulfil,map_map]
    refine map_congr_left (fun request _ => ?_)
    by_cases h : row.slot = request.slot
    · simp [available,h]
      omega
    · simp [available,h,Ne.symm h]

theorem available_ranked (hq : (query.map Request.slot).Nodup) (hr : request ∈ query) :
    available request.slot (ranked order query rows) = chosen order request rows := by
  have ha : available request.slot (chosen order request rows) = chosen order request rows := by
    simpa [available] using fun row h => (mem_chosen h).2
  have hn : ∀ o : Request, o.slot ≠ request.slot →
      available request.slot (chosen order o rows) = [] := by
    intro o hne
    simpa [available] using fun row h => (mem_chosen h).2.trans_ne hne
  induction query with
  | nil => cases hr
  | cons first query ih =>
    rw [map_cons,nodup_cons] at hq
    rw [ranked,flatMap_cons,available,filter_append]
    change available _ _ ++ available _ (ranked order query rows) = _
    rcases mem_cons.mp hr with rfl | hr
    · have hre : available request.slot (ranked order query rows) = [] := by
        rw [available,filter_eq_nil_iff]
        intro row hrow hs
        obtain ⟨o,ho,hrow⟩ := mem_flatMap.mp hrow
        rw [← of_decide_eq_true hs,(mem_chosen hrow).2] at hq
        exact hq.1 (mem_map_of_mem ho)
      rw [ha,hre,append_nil]
    · rw [hn first (fun heq => hq.1 (heq ▸ mem_map_of_mem hr)),ih hq.2 hr,nil_append]

theorem bulk_perm (order : RowOrder) (hq : (query.map Request.slot).Nodup)
    (hu : (rows.map OneTimeKey.key).Nodup) :
    (rows.filter (fun row => row.key ∈ (ranked order query rows).map OneTimeKey.key)).Perm
      (ranked order query rows) := by
  have hs : ∀ row ∈ ranked order query rows, row ∈ rows := by
    intro row hr
    obtain ⟨request,-,hr⟩ := mem_flatMap.mp hr
    exact (mem_chosen hr).1
  have hn : (ranked order query rows).Nodup := by
    refine nodup_flatMap.mpr ⟨fun _ _ => chosen_nodup hu.of_map,?_⟩
    refine (pairwise_map.mp hq).imp (fun hne row h h' => ?_)
    exact hne ((mem_chosen h).2.symm.trans (mem_chosen h').2)
  rw [perm_ext_iff_of_nodup (hu.of_map.filter _) hn]
  intro row
  simp only [mem_filter,decide_eq_true_eq]
  constructor
  · rintro ⟨hr,hm⟩
    obtain ⟨o,ho,heq⟩ := mem_map.mp hm
    exact inj_on_of_nodup_map hu (hs o ho) hr heq ▸ ho
  · exact fun hr => ⟨hs row hr,mem_map_of_mem hr⟩

theorem claim_accounted (eng : Engine) (order : RowOrder) (hq : (query.map Request.slot).Nodup)
    (hu : (rows.map OneTimeKey.key).Nodup) :
    Accounted query rows (claimE2eOneTimeKeys eng order query rows) := by
  have hb := bulk_perm order hq hu
  have hp := filter_append_perm
    (fun row => row.key ∈ (ranked order query rows).map OneTimeKey.key) rows
  simp only [← decide_not] at hp
  have hs : ∀ request ∈ query, request.count-(chosen order request rows).length =
      request.count-(available request.slot rows).length := by
    intro request _
    rw [chosen_length]
    omega
  have ha : ∀ rs, rs.Perm (ranked order query rows) →
      ∀ mi, mi = (query.map (fun request => (⟨request.slot,
        request.count-(available request.slot rs).length⟩ : Request))).filter
          (fun request => 0 < request.count) →
      Accounted query rows ⟨rs,mi,
        rows.filter (fun row => row.key ∉ (ranked order query rows).map OneTimeKey.key)⟩ := by
    rintro rs hpe _ rfl
    have hc : ∀ request ∈ query, (available request.slot rs).length =
        (chosen order request rows).length :=
      fun request hr => (hpe.filter _).length_eq.trans (congrArg _ (available_ranked hq hr))
    refine ⟨hp.symm.trans ((hb.trans hpe.symm).append_right _),?_,?_,?_⟩
    · intro row hrow
      obtain ⟨request,hr,hrow⟩ := mem_flatMap.mp (hpe.mem_iff.mp hrow)
      exact (mem_chosen hrow).2 ▸ mem_map_of_mem hr
    · exact fun request hr => (hc request hr).trans (chosen_length order)
    · refine congrArg _ (map_congr_left (fun request hr => ?_))
      rw [hc request hr,hs request hr,shortfall]
  cases eng with
  | postgres => exact ha _ hb _ (by rw [foldl_fulfil]; rfl)
  | sqlite =>
    rw [claimE2eOneTimeKeys,claimEach_eq hq]
    refine ha _ (List.Perm.refl _) _ (congrArg _ (map_congr_left (fun request hr => ?_)))
    rw [available_ranked hq hr]

end Claiming

section Runs

variable {w : World}

structure Inv (w : World) : Prop where
  unique : (w.rows.map OneTimeKey.key).Nodup
  numbers : ((w.returned.flatten ++ w.rows).map OneTimeKey.number).Nodup
  below : ∀ row ∈ w.returned.flatten ++ w.rows, row.number < w.nextNumber

theorem Inv.claim (h : Inv w) {qy : List Request} {claims : Claims}
    (hc : Accounted qy w.rows claims) :
    Inv { w with rows := claims.rows, returned := claims.results::w.returned } := by
  have hp : (w.returned.flatten ++ w.rows).Perm
      ((claims.results::w.returned).flatten ++ claims.rows) := by
    refine (hc.perm.append_left _).trans ?_
    rw [← append_assoc]
    exact perm_append_comm.append_right _
  refine ⟨?_,(hp.map _).nodup_iff.mp h.numbers,fun row hr => h.below row (hp.mem_iff.mpr hr)⟩
  exact ((hc.perm.map _).nodup_iff.mp h.unique).sublist ((sublist_append_right _ _).map _)

theorem Inv.upload (h : Inv w) (oneTimeKeysMatch : String → String → Bool) (userId did : String)
    (oneTimeKeys : Dict (String × String) String) :
    Inv (uploadOneTimeKeysForUser oneTimeKeysMatch userId did oneTimeKeys w) := by
  unfold uploadOneTimeKeysForUser
  split
  · exact h
  · set newKeys := oneTimeKeys.entries.filter (fun e => storedKey w userId did e.1 = none) with hnk
    set added : List OneTimeKey := (newKeys.zipIdx w.nextNumber).map (fun p =>
      ⟨⟨userId,did,p.1.1.1⟩,p.1.1.2,p.1.2,p.2⟩) with ha
    have hk : added.map OneTimeKey.key =
        newKeys.keys.map (fun name => (⟨userId,did,name.1⟩,name.2)) := by
      rw [map_map,keys,map_map]
      conv_rhs => rw [← zipIdx_map_fst w.nextNumber newKeys,map_map]
      rfl
    have hn : added.map OneTimeKey.number = range' w.nextNumber newKeys.length := by
      rw [map_map,← zipIdx_map_snd w.nextNumber newKeys]
      rfl
    have hl : ∀ row ∈ added, w.nextNumber ≤ row.number ∧
        row.number < w.nextNumber+newKeys.length := by
      intro row hr
      simpa [hn] using mem_map_of_mem (f := OneTimeKey.number) hr
    refine ⟨?_,?_,?_⟩
    · rw [map_append,nodup_append']
      refine ⟨h.unique,?_,?_⟩
      · rw [hk]
        have hnd : newKeys.NodupKeys := List.NodupKeys.sublist filter_sublist oneTimeKeys.nodupKeys
        refine List.Nodup.map ?_ hnd
        rintro ⟨algorithm,keyId⟩ ⟨algorithm',keyId'⟩ heq
        simpa using heq
      · intro key ho hnew
        rw [hk] at hnew
        obtain ⟨row,hr,rfl⟩ := mem_map.mp ho
        obtain ⟨name,hna,heq⟩ := mem_map.mp hnew
        obtain ⟨e,he,rfl⟩ := mem_map.mp hna
        have hno := of_decide_eq_true (mem_filter.mp he).2
        rw [storedKey,find?_eq_none] at hno
        exact hno row hr (decide_eq_true heq.symm)
    · rw [← append_assoc,map_append,nodup_append']
      refine ⟨h.numbers,hn ▸ nodup_range',?_⟩
      intro nm ho hnew
      obtain ⟨row,hr,rfl⟩ := mem_map.mp ho
      obtain ⟨row',hr',heq⟩ := mem_map.mp hnew
      have hlt := h.below row hr
      have hle := (hl row' hr').1
      omega
    · intro row hr
      rw [← append_assoc] at hr
      rcases mem_append.mp hr with hr | hr
      · exact Nat.lt_add_right _ (h.below row hr)
      · exact (hl row hr).2

def Admits (op : Op) (_ : World) : Prop :=
  match op with
  | .upload .. => True
  | .claim _ _ query => Proper query

theorem step_inv (oneTimeKeysMatch : String → String → Bool) (op : Op) (w : World) (h : Inv w)
    (ha : Admits op w) : Inv (step oneTimeKeysMatch op w) := by
  cases op with
  | upload userId did oneTimeKeys => exact h.upload _ _ _ _
  | claim eng ord qy => exact h.claim (claim_accounted eng ord ha.1 h.unique)

/-- In every run of uploads and claims no key is returned twice. A claim takes as many stored keys
for a request as it asks for, or all that there are, and reports what is missing, in the same
way on both databases. -/
theorem keys_claimed_once (oneTimeKeysMatch : String → String → Bool) (ops : List Op)
    (hadmitted : Admitted (step oneTimeKeysMatch) Admits ops start) :
    ((run (step oneTimeKeysMatch) ops start).returned.flatten.map OneTimeKey.number).Nodup ∧
    ∀ (engine : Engine) (order : RowOrder) (query : List Request), Proper query →
      Accounted query (run (step oneTimeKeysMatch) ops start).rows
        (claimE2eOneTimeKeys engine order query (run (step oneTimeKeysMatch) ops start).rows) := by
  have hinv : Inv (run (step oneTimeKeysMatch) ops start) :=
    hadmitted.invariant (step_inv oneTimeKeysMatch)
      ⟨by simp [start],by simp [start],by simp [start]⟩
  constructor
  · exact hinv.numbers.sublist ((sublist_append_left _ _).map _)
  · intro engine order query hquery
    exact claim_accounted engine order hquery.1 hinv.unique

def asStored : RowOrder := ⟨id,fun _ => List.Perm.refl _⟩

def phone : Slot := ⟨"@alice:example.org","PHONE","signed_curve25519"⟩

def twoKeys : List Op :=
  [.upload phone.userId phone.deviceId ((∅ : Dict (String × String) String).insert
      (phone.algorithm,"AAA") "a" |>.insert (phone.algorithm,"AAB") "b"),
    .claim .sqlite asStored [⟨phone,3⟩]]

theorem keys_claimed_once_twoKeys :
    ((run (step (· == ·)) twoKeys start).returned.flatten.map OneTimeKey.number).Nodup ∧
      (run (step (· == ·)) twoKeys start).returned.flatten.length = 2 :=
  ⟨(keys_claimed_once (· == ·) twoKeys ⟨trivial,⟨by decide,by decide⟩,trivial⟩).1,by decide +kernel⟩

end Runs

end Synapse.OneTimeKeys
