import AetherLite.Crypto.NodeIdentity
import AetherLite.Lib.Base64
import AetherLite.Storage.IndexedDBStore

/-! The secret keys a page keeps in the slots of its store: the trip of the user and the key of
the node. Each is sealed with the passphrase of the call that stores it. -/
set_option autoImplicit false

namespace Storage

open Js Program IndexedDBStore

def secretKeyBytes : Nat := 64

namespace KeyPair

/-- The secret key, and the public key after it. -/
def secret (pair : KeyPair) : Bytes := pair.privateKey ++ pair.publicKey

def ofSecret (secret : Bytes) : KeyPair where
  publicKey := secret.drop secretKeyBytes
  privateKey := secret.take secretKeyBytes

theorem ofSecret_secret {pair : KeyPair} (h : pair.privateKey.length = secretKeyBytes) :
    ofSecret pair.secret = pair := by
  simp [ofSecret,secret,← h]

end KeyPair

section
variable (p : Primitives) (w : World)

/-- `crypto_sign_keypair` -/
def signKeypair : Action {pair : KeyPair // pair.publicKey.length = 32 ∧
    pair.privateKey.length = secretKeyBytes} := do
  let s ← get
  set { s with drawn := s.drawn+1 }
  pure (w.keypair s.drawn)

namespace Identity

def tripSlot : String := "trip"

/-- The trip is read from its slot, whether or not it opens. -/
def initTrip (passphrase : String) : Action Bool := do
  match ← getSealed p tripSlot with
  | none => pure false
  | some (sealed,_) =>
    match SecretVault.openSealed p sealed passphrase with
    | none => pure false
    | some secret => do
      modify fun s => { s with tripKeyPair := some (KeyPair.ofSecret secret) }
      pure true

/-- `btoa` of a string of bytes -/
def btoa (bs : Bytes) : String :=
  let letters := (Base64.encode bs).map fun c => if c = '-' then '+' else if c = '_' then '/' else c
  String.ofList (letters ++ List.replicate ((3-bs.length % 3) % 3) '=')

/-- `crypto_hash` is given by `hash`. -/
def tripDisplay (hash : Bytes → Bytes) : Option KeyPair → String
  | none => ""
  | some pair => "◆" ++ btoa ((hash pair.publicKey).take 5)

def generateTrip (hash : Bytes → Bytes) (passphrase : String) (params : VaultParams) :
    Action String := do
  if passphrase = "" then
    throw (.rangeError "Identity.generateTrip: a non-empty passphrase is required")
  else do
    let pair ← signKeypair w
    modify fun s => { s with tripKeyPair := some pair.val }
    let sealed ← sealSecret p w pair.val.secret passphrase params
    saveSealed p w tripSlot sealed .undefined
    pure (tripDisplay hash (← get).tripKeyPair)

def deleteTrip : Action Unit := do
  modify fun s => { s with tripKeyPair := none }
  deleteSealed tripSlot

end Identity

namespace NodeIdentityStore

open NodeIdentity

variable (sodium : Sodium)

def nodeSlot : String := "node"

/-- The loop of `solveNodeIdPow`, so many rounds from `counter` on. -/
def solveFrom (pubkey : Bytes) (params : PowParams) : Nat → Nat → Option Nat
  | 0, _ => none
  | n+1, counter =>
    if PowPolicy.meetsDifficulty (nodeIdPowHash sodium pubkey counter params) params.difficulty
    then some counter
    else solveFrom pubkey params n (counter+1)

def solveNodeIdPow (pubkey : Bytes) (params : PowParams) : Except Thrown Nat :=
  if params.difficulty ≤ 0 then .ok 0
  else match solveFrom sodium pubkey params Number.maxSafeInteger.toNat 0 with
  | some counter => .ok counter
  | none => .error (.error "NodeIdentity: PoW search exhausted")

def mine (params : PowParams) : Action NodeIdentity := do
  let pair ← signKeypair w
  let counter ← .lift (solveNodeIdPow sodium pair.val.publicKey params)
  pure (fromKeyPair sodium pair.val.publicKey pair.val.privateKey (.ofNat counter))

/-- The identity of a secret that opened; none when it is of no use any more. -/
def restore (params : PowParams) (secret : Bytes) (metadata : Val) : Option NodeIdentity :=
  if secret.length ≠ secretKeyBytes+publicKeyBytes then none
  else match PowPolicy.safeInteger? (metadata.field "powCounter") with
  | none => none
  | some powCounter =>
    if powCounter < 0 then none
    else
      let pair := KeyPair.ofSecret secret
      let identity := fromKeyPair sodium pair.publicKey pair.privateKey (.ofInt powCounter)
      if verifyClaim sodium identity.claim params then some identity else none

def tryLoad (passphrase : String) (params : PowParams) : Action (Option NodeIdentity) := do
  match ← getSealed p nodeSlot with
  | none => pure none
  | some (sealed,metadata) =>
    match SecretVault.openSealed p sealed passphrase with
    | none => throw wrongPassphrase
    | some secret => pure (restore sodium params secret metadata)

/-- `exportSecret` -/
def keyPair (identity : NodeIdentity) : KeyPair := ⟨identity.pubkey,identity.privkey⟩

def metaOf (identity : NodeIdentity) : Val := .obj [
  ("powCounter",.num identity.powCounter),
  ("peerId",.str identity.peerId)]

def save (identity : NodeIdentity) (passphrase : String) (vaultParams : VaultParams) :
    Action Unit := do
  let sealed ← sealSecret p w (keyPair identity).secret passphrase vaultParams
  saveSealed p w nodeSlot sealed (metaOf identity)

def loadOrMine (passphrase : String) (params : PowParams) (vaultParams : VaultParams) :
    Action NodeIdentity := do
  if passphrase = "" then
    throw (.rangeError "NodeIdentityStore.loadOrMine: a non-empty passphrase is required to persist the node identity")
  else do
    match ← tryLoad p sodium passphrase params with
    | some identity => pure identity
    | none => do
      let identity ← mine w sodium params
      save p w identity passphrase vaultParams
      pure identity

end NodeIdentityStore

end

section Specs
variable {p : Primitives} {w : World} {sodium : Sodium} {s : Session}

theorem ensures_getSealed (slot : String) :
    Ensures s (getSealed p slot) (fun _ t => ∃ n, s.Does n s.db t)
      (fun t => ∃ n, s.Does n s.db t) := by
  unfold getSealed
  refine ensures_get_bind ?_
  split
  · exact ensures_pure ⟨0,.refl s⟩
  refine ((ensures_read _).mono (fun _ _ h => h) fun _ h => ⟨0,h.1 ▸ .refl s⟩).bind ?_
  rintro record t ⟨ht,-⟩
  split
  · refine (ensures_requireVault.mono (fun _ _ h => h) fun _ h => ⟨1,h.1 ▸ ht⟩).bind ?_
    rintro vault u ⟨rfl,-,-⟩
    refine (ensures_lift (Q := fun _ x => x = u) (fun _ _ => rfl) fun _ _ => ⟨1,ht⟩).bind ?_
    rintro opened x rfl
    exact ensures_pure ⟨1,ht⟩
  · exact ensures_pure ⟨1,ht⟩
  · exact ensures_pure ⟨1,ht⟩

/-- A slot with no metadata. -/
theorem exec_getSealed_plain (ho : s.opened = true) (hb : s.budget = none) {slot : String}
    (hslot : slot ≠ dekSlot) {r : IdentityRecord} (hr : JsMap.get s.db.identity slot = some r)
    {sealed : SealedSecret} (hs : r.sealed = some sealed) (he : r.emeta = .undefined) :
    exec (getSealed p slot) s = (.ok (some (sealed,r.metadata)),s) := by
  obtain ⟨sealed',emeta,metadata,updatedAt⟩ := r
  cases hs
  cases he
  simp [getSealed,exec_bind,ho,hslot,exec_read hb,hr]

/-- The metadata under the data key comes back, up to what an encoding does not tell apart. -/
theorem exec_getSealed_meta (hp : p.Ideal) (ho : s.opened = true) (hb : s.budget = none)
    {slot : String} (hslot : slot ≠ dekSlot) {r : IdentityRecord}
    (hr : JsMap.get s.db.identity slot = some r) {sealed : SealedSecret}
    (hs : r.sealed = some sealed) {v : DataVault} (hv : s.vault = some v) {m : Val}
    (he : DataVault.Sealed p v r.emeta ("identity:" ++ slot) m) (hopen : v.isOpen = true) :
    ∃ m', exec (getSealed p slot) s = (.ok (some (sealed,m')),s) ∧ m'.Same m := by
  obtain ⟨opened,hopened,hsame⟩ := he.holds hp
  obtain ⟨_,bytes,_,_,hbytes⟩ := he
  obtain ⟨sealed',emeta,metadata,updatedAt⟩ := r
  cases hs
  cases hbytes
  refine ⟨if opened.isNullish then .undefined else opened,?_,?_⟩
  · have hvault : exec requireVault s = (.ok v,s) := by simp [requireVault,exec_bind,hv,hopen]
    have hguard : ¬(s.opened = false ∨ slot = dekSlot) := by simp [ho,hslot]
    rw [getSealed,exec_bind,exec_get]
    dsimp only
    rw [if_neg hguard,exec_bind,exec_read hb,hr]
    dsimp only
    rw [exec_bind,hvault]
    dsimp only
    rw [exec_bind,hopened]
    rfl
  · cases hn : opened.isNullish with
    | false => simpa [hn] using hsame
    | true =>
      cases opened with
      | undefined => exact hsame
      | null => exact hsame
      | _ => cases hn

theorem ensures_signKeypair :
    Ensures s (signKeypair w) (fun _ t => s.Does 0 s.db t) (fun _ => False) := by
  obtain ⟨db,opened,vault,tripKeyPair,budget,drawn,written⟩ := s
  cases budget with
  | none => exact ⟨rfl,fun k hk => by cases hk⟩
  | some k => exact ⟨rfl,fun k' hk => Nat.zero_le _⟩

namespace Identity

theorem exec_initTrip (ho : s.opened = true) (hb : s.budget = none) {r : IdentityRecord}
    (hr : JsMap.get s.db.identity tripSlot = some r) {sealed : SealedSecret}
    (hs : r.sealed = some sealed) (he : r.emeta = .undefined) (passphrase : String) :
    exec (initTrip p passphrase) s = match SecretVault.openSealed p sealed passphrase with
      | none => (.ok false,s)
      | some secret => (.ok true,{ s with tripKeyPair := some (KeyPair.ofSecret secret) }) := by
  have hslot : tripSlot ≠ dekSlot := by decide
  rw [initTrip,exec_bind,exec_getSealed_plain ho hb hslot hr hs he]
  dsimp only
  cases SecretVault.openSealed p sealed passphrase with
  | none => rfl
  | some secret => rfl

end Identity

namespace NodeIdentityStore

open NodeIdentity

theorem ensures_tryLoad (passphrase : String) (params : PowParams) :
    Ensures s (tryLoad p sodium passphrase params)
      (fun _ t => ∃ n, s.Does n s.db t) (fun t => ∃ n, s.Does n s.db t) := by
  unfold tryLoad
  refine (ensures_getSealed _).bind ?_
  intro record t ht
  split
  · exact ensures_pure ht
  split
  · exact ensures_throw ht
  · exact ensures_pure ht

theorem solveFrom_sound {pubkey : Bytes} {params : PowParams} {n counter found : Nat}
    (h : solveFrom sodium pubkey params n counter = some found) :
    found < counter+n ∧ PowPolicy.meetsDifficulty
      (nodeIdPowHash sodium pubkey found params) params.difficulty = true := by
  induction n generalizing counter with
  | zero => cases h
  | succ n ih =>
    unfold solveFrom at h
    split at h
    · next hm =>
      cases h
      exact ⟨by omega,hm⟩
    · obtain ⟨hlt,hm⟩ := ih h
      exact ⟨by omega,hm⟩

theorem solveNodeIdPow_ok {pubkey : Bytes} {params : PowParams} {counter : Nat}
    (h : solveNodeIdPow sodium pubkey params = .ok counter) :
    (counter : Int) ≤ Number.maxSafeInteger ∧ (params.difficulty = 0 ∨ PowPolicy.meetsDifficulty
      (nodeIdPowHash sodium pubkey counter params) params.difficulty = true) := by
  unfold solveNodeIdPow at h
  split at h
  · next hd =>
    cases h
    exact ⟨by decide,.inl (by omega)⟩
  split at h
  · next found hf =>
    cases h
    obtain ⟨hlt,hm⟩ := solveFrom_sound hf
    rw [Nat.zero_add] at hlt
    have hsafe : (0 : Int) ≤ Number.maxSafeInteger := by decide
    exact ⟨by omega,.inr hm⟩
  · cases h

/-- An identity that was mined is good under the parameters it was mined with. -/
theorem verifyClaim_mined (hsha : ∀ bs, (sodium.sha256 bs).length = 32) {pubkey privkey : Bytes}
    (hpub : pubkey.length = publicKeyBytes) {params : PowParams}
    {counter : Nat}
    (h : solveNodeIdPow sodium pubkey params = .ok counter) :
    verifyClaim sodium
      (fromKeyPair sodium pubkey privkey (.ofNat counter)).claim params = true := by
  obtain ⟨hsafe,hpow⟩ := solveNodeIdPow_ok h
  have hid : (derivePeerId sodium pubkey).toList.length = 32 := by
    simp [derivePeerId,Bytes.toHex_length,hsha,peerIdBytes]
  have hdigits : (derivePeerId sodium pubkey).toList.all isHexDigit =
      true := toHex_digits _
  have hle : counter ≤ 9007199254740991 := by
    rw [Number.maxSafeInteger] at hsafe
    omega
  simp only [verifyClaim,claim,fromKeyPair,
    Number.toSafeInt?_ofNat,hle,if_true,hid,hdigits,hpub,peerIdBytes]
  simpa using hpow

/-- An identity that was just mined. -/
structure Mined (sodium : Sodium) (params : PowParams) (identity : NodeIdentity) :
    Prop where
  privkey : identity.privkey.length = secretKeyBytes
  derived : fromKeyPair sodium identity.pubkey identity.privkey
    identity.powCounter = identity
  claim : verifyClaim sodium identity.claim params = true

theorem ensures_mine (hsha : ∀ bs, (sodium.sha256 bs).length = 32)
    (params : PowParams) :
    Ensures s (mine w sodium params)
      (fun identity t => s.Does 0 s.db t ∧ Mined sodium params identity)
      (fun t => s.Does 0 s.db t) := by
  unfold mine
  refine ensures_signKeypair.bind_of_total ?_
  intro pair t ht
  refine (ensures_lift (Q := fun counter u => u = t ∧
      solveNodeIdPow sodium pair.val.publicKey params = .ok counter)
    (fun counter hc => ⟨rfl,hc⟩) fun _ _ => ht).bind ?_
  rintro counter u ⟨rfl,hc⟩
  exact ensures_pure ⟨ht,pair.2.2,rfl,verifyClaim_mined hsha pair.2.1 hc⟩

/-- An identity that is still good comes back from its secret and its metadata. -/
theorem restore_eq {identity : NodeIdentity} {params : PowParams} {m : Val}
    (hpriv : identity.privkey.length = secretKeyBytes)
    (hderived : fromKeyPair sodium identity.pubkey identity.privkey
      identity.powCounter = identity)
    (hm : m.Same (metaOf identity))
    (hclaim : verifyClaim sodium identity.claim params = true) :
    restore sodium params (keyPair identity).secret m =
      some identity := by
  have hnum := (hm.field "powCounter").eq_num
  have hverify := hclaim
  simp only [verifyClaim,claim,Bool.and_eq_true,beq_iff_eq] at hverify
  obtain ⟨⟨-,hpub⟩,hcounter⟩ := hverify
  split at hcounter
  · cases hcounter
  next counter hc =>
  simp only [Bool.and_eq_true,decide_eq_true_eq] at hcounter
  have hneg : ¬counter < 0 := by omega
  have hlen : (keyPair identity).secret.length =
      secretKeyBytes+publicKeyBytes := by
    simp [KeyPair.secret,keyPair,hpriv,hpub]
  have hcount := (Number.toSafeInt?_eq_some hc).1
  have hpair : KeyPair.ofSecret (keyPair identity).secret =
      keyPair identity := KeyPair.ofSecret_secret hpriv
  rw [restore,if_neg (not_not.mpr hlen),hnum]
  simp only [PowPolicy.safeInteger?,hc,if_neg hneg,hpair,← hcount]
  simp only [keyPair,hderived,hclaim,if_true]

end NodeIdentityStore

end Specs

end Storage
