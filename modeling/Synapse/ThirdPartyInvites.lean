import Synapse.AuthTypesCompleteness

/-!
# Signatures of third-party invites

An invite made for a third-party identifier is accepted when its signed part
verifies under a public key of the third-party invite. For each key only one
signature is tried.
-/

set_option autoImplicit false

namespace Synapse.EventAuth
open Python List EventTypes

/-- The Ed25519 signatures, by server and key name, in the order of the blocks. -/
def ed25519Signatures (signatures : JsonDict) : List (String × String) :=
  signatures.flatMap (fun block => match block.2 with
    | .object names => ((names.map Prod.fst).filter isEd25519).map (fun name => (block.1,name))
    | _ => [])

/-- An invite with the third-party invite that it matches, with well-formed
keys and signatures. -/
structure MatchedInvite (event : Event) (authEvents : AuthMap) where
  invite : JsonDict
  signed : JsonDict
  signatures : JsonDict
  token : String
  target : String
  inviteEvent : Event
  publicKeys : List Json
  hasInvite : event.content.lookup "third_party_invite" = some (.object invite)
  hasSigned : invite.lookup "signed" = some (.object signed)
  mxid : signed.lookup "mxid" = some (.str target)
  hasToken : signed.lookup "token" = some (.str token)
  hasSignatures : signed.lookup "signatures" = some (.object signatures)
  found : authEvents.lookup (thirdPartyInvite,token) = some inviteEvent
  sender : inviteEvent.sender = event.sender
  stateKey : event.stateKey = some target
  keys : getPublicKeys inviteEvent = .ok publicKeys
  wellFormed : ∀ key ∈ publicKeys, ∃ publicKey : Json,
    (Json.index key (.str "public_key") : Raises Json) = .ok publicKey
  blocks : ∀ block ∈ signatures, ∃ names, block.2 = .object names

variable (py : Runtime)

def VerifiesUnder (signed : JsonDict) (publicKeys : List Json) (signature : String × String) :
    Prop :=
  ∃ key ∈ publicKeys, ∃ publicKey, (Json.index key (.str "public_key") : Raises Json) =
    .ok publicKey ∧ py.verify signed signature.1 signature.2 publicKey = .verified

/-- The check is an arbitrary predicate of the server, the key name and the key. -/
def Decides (signed : JsonDict) : Prop :=
  ∀ server name publicKey error, py.verify signed server name publicKey ≠ .raises error

theorem firstKey_eq {sigs : JsonDict} (h : ∀ b ∈ sigs, ∃ names, b.2 = Json.object names) :
    firstKey sigs = .ok (ed25519Signatures sigs).head? := by
  induction sigs with
  | nil => rfl
  | cons b sigs ih =>
    obtain ⟨server,block⟩ := b
    obtain ⟨names,rfl⟩ := h (server,block) (by simp)
    rw [firstKey]
    simp only [Json.items,ok_bind]
    rw [ed25519Signatures,flatMap_cons,head?_append,head?_map,head?_filter]
    cases (names.map Prod.fst).find? isEd25519 with
    | none => exact ih (fun b hb => h b (by simp [hb]))
    | some name => rfl

variable {py} {signed sigs : JsonDict}

theorem verifyWithKeys_iff (hd : Decides py signed)
    (hb : ∀ b ∈ sigs, ∃ names, b.2 = Json.object names) {ks : List Json}
    (hk : ∀ key ∈ ks, ∃ pk : Json, (Json.index key (.str "public_key") : Raises Json) = .ok pk) :
    ∃ b, verifyWithKeys py signed (.object sigs) ks = .ok b ∧
      (b = true ↔ ∃ sig ∈ (ed25519Signatures sigs).head?, VerifiesUnder py signed ks sig) := by
  induction ks with
  | nil => exact ⟨false,rfl,by simp [VerifiesUnder]⟩
  | cons key ks ih =>
    obtain ⟨pk,hpk⟩ := hk key (by simp)
    obtain ⟨b,hv,hiff⟩ := ih (fun key' h' => hk key' (by simp [h']))
    rw [verifyWithKeys,hpk]
    simp only [ok_bind,Json.items,firstKey_eq hb]
    cases hf : (ed25519Signatures sigs).head? with
    | none => exact ⟨b,hv,by simpa [hf] using hiff⟩
    | some sig =>
      obtain ⟨server,name⟩ := sig
      simp only
      cases hs : py.verify signed server name pk with
      | verified => exact ⟨true,rfl,by simpa using ⟨key,by simp,pk,hpk,hs⟩⟩
      | swallowed =>
        refine ⟨b,hv,?_⟩
        rw [hiff,hf]
        simp [VerifiesUnder,hpk,hs]
      | raises error => exact absurd hs (hd server name pk error)

variable {event : Event} {authEvents : AuthMap}

/-- An invite is accepted exactly when some signature verifies, if and only if
the first signature verifies in case any does. -/
theorem verifyThirdPartyInvite_iff (m : MatchedInvite event authEvents) (hd : Decides py m.signed) :
    (∃ accepted, verifyThirdPartyInvite py event authEvents = .ok accepted ∧
      (accepted = true ↔ ∃ sig ∈ ed25519Signatures m.signatures,
        VerifiesUnder py m.signed m.publicKeys sig)) ↔
    ∀ sig ∈ ed25519Signatures m.signatures, VerifiesUnder py m.signed m.publicKeys sig →
      ∃ first ∈ (ed25519Signatures m.signatures).head?,
        VerifiesUnder py m.signed m.publicKeys first := by
  obtain ⟨b,hv,hiff⟩ := verifyWithKeys_iff hd m.blocks m.wellFormed
  have hb : verifyThirdPartyInvite py event authEvents = .ok b := by
    simp [verifyThirdPartyInvite,m.hasInvite,m.hasSigned,m.mxid,m.hasToken,m.hasSignatures,
      verifySigned,lookupValue,m.found,m.sender,Event.requireStateKey,m.stateKey,Json.isStr,m.keys,
      hv]
  constructor
  · rintro ⟨accepted,ha,hacc⟩ sig hs hver
    obtain rfl := Except.ok.inj (hb.symm.trans ha)
    exact hiff.mp (hacc.mpr ⟨sig,hs,hver⟩)
  · intro hfirst
    refine ⟨b,hb,hiff.trans ⟨?_,?_⟩⟩
    · rintro ⟨sig,hs,hver⟩
      exact ⟨sig,mem_of_mem_head? hs,hver⟩
    · rintro ⟨sig,hs,hver⟩
      exact hfirst sig hs hver

def signedBundle (signatures : JsonDict) : JsonDict :=
  [("mxid",.str "@new:x"),("token",.str "abc"),("signatures",.object signatures)]

def signedInvite (signatures : JsonDict) : Event :=
  stateEvent fooLevels EventTypes.member "@new:x"
    [("third_party_invite",.object [("signed",.object (signedBundle signatures))])]

def invitedByToken : AuthMap :=
  AList.insert (thirdPartyInvite,"abc")
    (stateEvent fooLevels thirdPartyInvite "abc" [("public_key",.str "key")]) ∅

def signatureOf (server : String) : String × Json :=
  (server,.object [("ed25519:0",.str "signature")])

def matchedInvite (servers : List String) :
    MatchedInvite (signedInvite (servers.map signatureOf)) invitedByToken where
  invite := [("signed",.object (signedBundle (servers.map signatureOf)))]
  signed := signedBundle (servers.map signatureOf)
  signatures := servers.map signatureOf
  token := "abc"
  target := "@new:x"
  inviteEvent := stateEvent fooLevels thirdPartyInvite "abc" [("public_key",.str "key")]
  publicKeys := [.object [("public_key",.str "key")]]
  hasInvite := rfl
  hasSigned := rfl
  mxid := rfl
  hasToken := rfl
  hasSignatures := rfl
  found := rfl
  sender := rfl
  stateKey := rfl
  keys := rfl
  wellFormed := by simp [Json.index,Json.item]
  blocks := by simp [signatureOf]

/-- Only the signature of the second server is good. -/
def secondSigned : Runtime :=
  { (default : Runtime) with
    verify := fun _ server _ _ => if server = "b:x" then .verified else .swallowed }

/-- A bad signature after a good one does no harm. -/
theorem verifyThirdPartyInvite_iff_second :
    ∃ accepted, verifyThirdPartyInvite secondSigned (signedInvite (["b:x","a:x"].map signatureOf))
        invitedByToken = .ok accepted ∧
      (accepted = true ↔ ∃ sig ∈ ed25519Signatures (matchedInvite ["b:x","a:x"]).signatures,
        VerifiesUnder secondSigned (matchedInvite ["b:x","a:x"]).signed
          (matchedInvite ["b:x","a:x"]).publicKeys sig) :=
  (verifyThirdPartyInvite_iff (matchedInvite ["b:x","a:x"])
    (by
      intro server name pk error
      simp only [secondSigned]
      split <;> simp)).mpr
    (fun _ _ _ => ⟨("b:x","ed25519:0"),rfl,_,mem_singleton_self _,.str "key",rfl,rfl⟩)

/-- A signature that verifies is not tried after one that does not, so the
order of the servers decides. -/
theorem second_signature_not_tried :
    verifyThirdPartyInvite secondSigned (signedInvite (["a:x","b:x"].map signatureOf))
        invitedByToken = .ok false ∧
      verifyThirdPartyInvite secondSigned (signedInvite (["b:x","a:x"].map signatureOf))
        invitedByToken = .ok true ∧
      VerifiesUnder secondSigned (matchedInvite ["a:x","b:x"]).signed
        (matchedInvite ["a:x","b:x"]).publicKeys ("b:x","ed25519:0") :=
  ⟨rfl,rfl,_,mem_singleton_self _,.str "key",rfl,rfl⟩

end Synapse.EventAuth
