import Synapse.Dict
import Synapse.Runs

/-!
# Access tokens and their memoised look-up

An access token that was made along with a refresh token is deleted by the database
with it. Only the operations that delete access tokens themselves tell the cache of
the look-up about it, so a token that went with a refresh token goes on to work.
-/

set_option autoImplicit false

namespace Synapse.AccessTokens
open List Dict Runs

structure RefreshToken where
  id : ℕ
  token : String
  userId : String
  deviceId : String
  nextTokenId : Option ℕ

structure AccessToken where
  id : ℕ
  token : String
  userId : String
  deviceId : Option String
  refreshTokenId : Option ℕ
  deriving DecidableEq

structure Store where
  refreshTokens : List RefreshToken
  accessTokens : List AccessToken
  nextId : ℕ
  /-- The cache of `get_user_by_access_token`. -/
  cached : Dict String (Option String)

def start : Store := ⟨[],[],1,∅⟩

def queryForAuth (s : Store) (token : String) : Option String :=
  (s.accessTokens.find? (·.token = token)).map AccessToken.userId

def getUserByAccessToken (s : Store) (token : String) : Option String :=
  (s.cached.lookup token).getD (queryForAuth s token)

/-- The refresh tokens that go when those with the given ids are deleted: along with a token
goes the one that points at it. -/
def cascade (refreshTokens : List RefreshToken) (ids : List ℕ) : List ℕ :=
  (fun ids => (refreshTokens.filter (fun row => row.id ∈ ids ∨
    ∃ next ∈ row.nextTokenId, next ∈ ids)).map RefreshToken.id)^[refreshTokens.length+1] ids

def deleteRefreshTokens (ids : List ℕ) (s : Store) : Store :=
  let deleted := cascade s.refreshTokens ids
  { s with
    refreshTokens := s.refreshTokens.filter (·.id ∉ deleted)
    accessTokens := s.accessTokens.filter (fun row => ∀ id ∈ row.refreshTokenId, id ∉ deleted) }

def deleteRefreshTokensWhere (p : RefreshToken → Bool) (s : Store) : Store :=
  deleteRefreshTokens ((s.refreshTokens.filter p).map RefreshToken.id) s

def setNext (tokenId nextTokenId : ℕ) (refreshTokens : List RefreshToken) : List RefreshToken :=
  refreshTokens.map (fun row =>
    if row.id = tokenId then { row with nextTokenId := some nextTokenId } else row)

def replaceRefreshToken (tokenId nextTokenId : ℕ) (s : Store) : Store :=
  match s.refreshTokens.find? (·.id = tokenId), s.refreshTokens.find? (·.id = nextTokenId) with
  | some row, some _ =>
    let updated := { s with refreshTokens := setNext tokenId nextTokenId s.refreshTokens }
    let cleared := match row.nextTokenId with
      | none => updated
      | some oldNextTokenId => deleteRefreshTokens [oldNextTokenId] updated
    deleteRefreshTokensWhere (·.nextTokenId = some tokenId) cleared
  | _, _ => s

def deleteAccessToken (token : String) (s : Store) : Store :=
  if token ∈ s.accessTokens.map AccessToken.token then
    { s with
      accessTokens := s.accessTokens.filter (·.token ≠ token)
      cached := s.cached.erase token }
  else s

def chosen (userId : String) (exceptTokenId : Option ℕ) (deviceId : Option String)
    (row : AccessToken) : Bool :=
  row.userId = userId ∧ (∀ id ∈ exceptTokenId, row.id ≠ id) ∧
    (deviceId = none ∨ row.deviceId = deviceId)

/-- The access token that is excepted still goes with its refresh token. -/
def userDeleteAccessTokens (userId : String) (exceptTokenId : Option ℕ) (deviceId : Option String)
    (s : Store) : Store :=
  let deleted := { s with
    accessTokens := s.accessTokens.filter (fun row => !chosen userId exceptTokenId deviceId row)
    cached := popAll s.cached ((s.accessTokens.filter (chosen userId exceptTokenId deviceId)).map
      AccessToken.token) }
  deleteRefreshTokensWhere
    (fun row => row.userId = userId ∧ ∀ id ∈ deviceId, row.deviceId = id) deleted

inductive Op where
  | addRefreshToken (userId token deviceId : String)
  | addAccessToken (userId token : String) (deviceId : Option String) (refreshTokenId : Option ℕ)
  | lookUp (token : String)
  | evict (token : String)
  | replaceRefreshToken (tokenId nextTokenId : ℕ)
  | deleteAccessToken (token : String)
  | deleteRefreshToken (token : String)
  | userDeleteAccessTokens (userId : String) (exceptTokenId : Option ℕ) (deviceId : Option String)

def step : Op → Store → Store
  | .addRefreshToken userId token deviceId, s =>
    if token ∈ s.refreshTokens.map RefreshToken.token then s
    else { s with
      refreshTokens := s.refreshTokens ++ [⟨s.nextId,token,userId,deviceId,none⟩]
      nextId := s.nextId+1 }
  | .addAccessToken userId token deviceId refreshTokenId, s =>
    if token ∈ s.accessTokens.map AccessToken.token ∨
        ∃ id ∈ refreshTokenId, id ∉ s.refreshTokens.map RefreshToken.id then s
    else { s with
      accessTokens := s.accessTokens ++ [⟨s.nextId,token,userId,deviceId,refreshTokenId⟩]
      nextId := s.nextId+1 }
  | .lookUp token, s => { s with cached := s.cached.insert token (getUserByAccessToken s token) }
  | .evict token, s => { s with cached := s.cached.erase token }
  | .replaceRefreshToken tokenId nextTokenId, s => replaceRefreshToken tokenId nextTokenId s
  | .deleteAccessToken token, s => deleteAccessToken token s
  | .deleteRefreshToken token, s => deleteRefreshTokensWhere (·.token = token) s
  | .userDeleteAccessTokens userId exceptTokenId deviceId, s =>
    userDeleteAccessTokens userId exceptTokenId deviceId s

def cascadeWhere (p : RefreshToken → Bool) (refreshTokens : List RefreshToken) : List ℕ :=
  cascade refreshTokens ((refreshTokens.filter p).map RefreshToken.id)

/-- The refresh tokens that go when one is replaced: the one that replaced it before, and then
those that it replaced. -/
def replacedTokens (tokenId nextTokenId : ℕ) (refreshTokens : List RefreshToken) : List ℕ :=
  let updated := setNext tokenId nextTokenId refreshTokens
  let before := match (refreshTokens.find? (·.id = tokenId)).bind RefreshToken.nextTokenId with
    | none => []
    | some oldNextTokenId => cascade updated [oldNextTokenId]
  before ++ cascadeWhere (·.nextTokenId = some tokenId) (updated.filter (·.id ∉ before))

/-- No look-up is cached of an access token that was made along with one of the refresh tokens. -/
def Spares (refreshTokenIds : List ℕ) (accessTokens : List AccessToken)
    (cached : Dict String (Option String)) : Prop :=
  ∀ row ∈ accessTokens, row.token ∈ cached → ∀ id ∈ row.refreshTokenId, id ∉ refreshTokenIds

/-- A token is not looked up before it is made, and no look-up is cached of a token that is
deleted only because its refresh token is. -/
def Uncached (op : Op) (s : Store) : Prop :=
  match op with
  | .addAccessToken _ token _ _ => token ∉ s.cached
  | .replaceRefreshToken tokenId nextTokenId =>
    Spares (replacedTokens tokenId nextTokenId s.refreshTokens) s.accessTokens s.cached
  | .deleteRefreshToken token =>
    Spares (cascadeWhere (·.token = token) s.refreshTokens) s.accessTokens s.cached
  | .userDeleteAccessTokens userId exceptTokenId deviceId =>
    Spares (cascadeWhere (fun row => row.userId = userId ∧ ∀ id ∈ deviceId, row.deviceId = id)
      s.refreshTokens)
      (s.accessTokens.filter (fun row => !chosen userId exceptTokenId deviceId row)) s.cached
  | _ => True

instance : ∀ op s, Decidable (Uncached op s)
  | .addAccessToken _ _ _ _, _ => inferInstanceAs (Decidable (¬_))
  | .replaceRefreshToken _ _, _ | .deleteRefreshToken _, _ | .userDeleteAccessTokens _ _ _, _ =>
    inferInstanceAs (Decidable (∀ row ∈ _, _))
  | .addRefreshToken _ _ _, _ | .lookUp _, _ | .evict _, _ | .deleteAccessToken _, _ =>
    inferInstanceAs (Decidable True)

def HasRow (s : Store) (token : String) : Prop := ∃ row ∈ s.accessTokens, row.token = token

def Sound (s : Store) : Prop := All (fun token user => user.isSome ↔ HasRow s token) s.cached

variable {s s' : Store}

theorem Sound.getUser (h : Sound s) (tk : String) :
    (getUserByAccessToken s tk).isSome ↔ HasRow s tk := by
  rw [getUserByAccessToken]
  cases hc : s.cached.lookup tk with
  | none => simp [queryForAuth,HasRow]
  | some u => exact h tk u hc

theorem Sound.delete (h : Sound s) (hr : s'.accessTokens ⊆ s.accessTokens)
    (hc : ∀ tk u, s'.cached.lookup tk = some u → s.cached.lookup tk = some u)
    (hd : ∀ row ∈ s.accessTokens, row ∉ s'.accessTokens → row.token ∉ s'.cached) : Sound s' := by
  intro tk u hl
  refine (h tk u (hc tk u hl)).trans ⟨?_,?_⟩
  · rintro ⟨row,hrow,rfl⟩
    refine ⟨row,?_,rfl⟩
    by_contra hg
    exact hd row hrow hg (mem_iff_lookup.mpr ⟨u,hl⟩)
  · rintro ⟨row,hrow,ht⟩
    exact ⟨row,hr hrow,ht⟩

theorem Sound.unchanged (h : Sound s) (hr : s'.accessTokens = s.accessTokens)
    (hc : ∀ tk u, s'.cached.lookup tk = some u → s.cached.lookup tk = some u) : Sound s' :=
  h.delete (by simp [hr]) hc (fun row hrow hg => absurd (hr ▸ hrow) hg)

theorem Sound.deleteRefreshTokens (h : Sound s) {ids : List ℕ}
    (hs : Spares (cascade s.refreshTokens ids) s.accessTokens s.cached) :
    Sound (deleteRefreshTokens ids s) := by
  refine h.delete (filter_subset_self _) (fun _ _ hl => hl) ?_
  intro row hrow hg hc
  exact hg (mem_filter.mpr ⟨hrow,by simpa using hs row hrow hc⟩)

theorem Sound.replaceRefreshToken (h : Sound s) {tokenId nextTokenId : ℕ}
    (hs : Spares (replacedTokens tokenId nextTokenId s.refreshTokens) s.accessTokens s.cached) :
    Sound (replaceRefreshToken tokenId nextTokenId s) := by
  rw [AccessTokens.replaceRefreshToken]
  split
  · next row _ hrow _ =>
    rw [replacedTokens,hrow,Option.bind_some] at hs
    have hu : Sound { s with refreshTokens := setNext tokenId nextTokenId s.refreshTokens } := h
    dsimp only
    split
    · next hn =>
      simp only [hn,nil_append] at hs
      exact hu.deleteRefreshTokens (by simpa [cascadeWhere] using hs)
    · next old hn =>
      simp only [hn] at hs
      refine Sound.deleteRefreshTokens (hu.deleteRefreshTokens ?_) ?_
      · intro row hrow hc id hid hm
        exact hs row hrow hc id hid (mem_append_left _ hm)
      · intro row hrow hc id hid hm
        exact hs row (mem_filter.mp hrow).1 hc id hid (mem_append_right _ hm)
  · exact h

theorem Sound.step (h : Sound s) {op : Op} (hu : Uncached op s) : Sound (step op s) := by
  have hp : ∀ {tk l : String} {u}, (s.cached.erase tk).lookup l = some u →
      s.cached.lookup l = some u := by
    intro tk l u hl
    exact (pop_cases hl).2
  cases op with
  | addRefreshToken userId tk did =>
    simp only [AccessTokens.step]
    split <;> exact h.unchanged rfl (fun _ _ hl => hl)
  | addAccessToken userId tk did refreshTokenId =>
    simp only [AccessTokens.step]
    split
    · exact h
    · intro l u hl
      have hne : tk ≠ l := fun heq => hu (heq ▸ mem_iff_lookup.mpr ⟨u,hl⟩)
      refine (h l u hl).trans ?_
      simp [HasRow,hne]
  | lookUp tk => exact All.set h (h.getUser tk)
  | evict tk => exact h.unchanged rfl (fun _ _ hl => hp hl)
  | replaceRefreshToken tokenId nextTokenId => exact h.replaceRefreshToken hu
  | deleteAccessToken tk =>
    simp only [AccessTokens.step,AccessTokens.deleteAccessToken]
    split
    · refine h.delete (filter_subset_self _) (fun _ _ hl => hp hl) ?_
      intro row hrow hg
      have ht : row.token = tk := by
        by_contra hne
        exact hg (mem_filter.mpr ⟨hrow,by simpa using hne⟩)
      simp [ht]
    · exact h
  | deleteRefreshToken tk => exact h.deleteRefreshTokens hu
  | userDeleteAccessTokens userId exceptTokenId did =>
    refine Sound.deleteRefreshTokens (h.delete (filter_subset_self _) ?_ ?_) ?_
    · intro l u hl
      rw [lookup_popAll] at hl
      split at hl
      · cases hl
      · exact hl
    · -- the look-ups of the rows that are chosen are dropped
      intro row hrow hg hc
      have hch : chosen userId exceptTokenId did row = true := by
        by_contra hn
        exact hg (mem_filter.mpr ⟨hrow,by simpa using hn⟩)
      exact (mem_popAll.mp hc).2 (mem_map.mpr ⟨row,mem_filter.mpr ⟨hrow,hch⟩,rfl⟩)
    · intro row hrow hc
      exact hu row hrow (mem_popAll.mp hc).1

/-- In every run of such operations a token gets its user exactly if it has a row. -/
theorem deleted_tokens_stop {ops : List Op} (h : Admitted step Uncached ops start)
    (token : String) :
    (getUserByAccessToken (run step ops start) token).isSome ↔
      HasRow (run step ops start) token :=
  (h.invariant (I := Sound) (fun _ _ hs hop => hs.step hop) (all_empty _)).getUser token

/-- Two refreshes, each of them creating a pair of tokens: the first pair is deleted. -/
def twoRefreshes (used : List Op) : List Op :=
  [.addRefreshToken "@u:hs" "r1" "D",.addAccessToken "@u:hs" "a1" (some "D") (some 1)] ++ used ++
  [.addRefreshToken "@u:hs" "r2" "D",.addAccessToken "@u:hs" "a2" (some "D") (some 3),
    .replaceRefreshToken 1 3,.lookUp "a2",
    .addRefreshToken "@u:hs" "r3" "D",.addAccessToken "@u:hs" "a3" (some "D") (some 5),
    .replaceRefreshToken 3 5]

theorem deleted_tokens_stop_twoRefreshes :
    Admitted step Uncached (twoRefreshes []) start ∧
      ((getUserByAccessToken (run step (twoRefreshes []) start) "a1").isSome ↔
        HasRow (run step (twoRefreshes []) start) "a1") :=
  ⟨by decide +kernel,deleted_tokens_stop (by decide +kernel) "a1"⟩

/-- The first access token was used. It goes on to get its user after its row is deleted. -/
theorem rotated_token_still_works :
    getUserByAccessToken (run step (twoRefreshes [.lookUp "a1"]) start) "a1" = some "@u:hs" ∧
      (run step (twoRefreshes [.lookUp "a1"]) start).accessTokens.map AccessToken.token =
        ["a2","a3"] := by
  decide +kernel

end Synapse.AccessTokens
