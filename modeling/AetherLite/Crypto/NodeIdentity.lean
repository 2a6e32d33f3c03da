import AetherLite.Crypto.PowPolicy
import AetherLite.Lib.JsOps

/-! Bound identities: the id of a node is the hash of its key, and a JOIN is signed for
one verifier, one challenge and one connection. -/
set_option autoImplicit false

/-- libsodium as the identity of a node uses it. -/
structure Sodium where
  sha256 : Bytes → Bytes
  pwhash : (password salt : Bytes) → (opsLimit memLimit : Nat) → Bytes
  signDetached : (message privateKey : Bytes) → Bytes
  verifyDetached : (signature message publicKey : Bytes) → Bool

namespace NodeIdentity

open Js

structure PowParams where
  difficulty : Nat
  opsLimit : Nat
  memLimit : Nat

/-- `NODE_ID_POW` -/
def nodeIdPow : PowParams := ⟨10,1,2^20⟩

def nodeIdSalt : Bytes :=
  [0x41,0x45,0x54,0x48,0x45,0x52,0x2f,0x76,0x33,0x2f,0x6e,0x6f,0x64,0x65,0x69,0x64]

/-- `AETHER/v3/peerid` -/
def peerIdDomain : Bytes := [65,69,84,72,69,82,47,118,51,47,112,101,101,114,105,100]

/-- `AETHER/v3/position` -/
def positionDomain : Bytes :=
  [65,69,84,72,69,82,47,118,51,47,112,111,115,105,116,105,111,110]

/-- `AETHER/v4/join` -/
def joinDomain : Bytes := [65,69,84,72,69,82,47,118,52,47,106,111,105,110]

/-- `AETHER/v1/guard-decl` -/
def guardDeclDomain : Bytes :=
  [65,69,84,72,69,82,47,118,49,47,103,117,97,114,100,45,100,101,99,108]

/-- `AETHER/v1/tracker-join` -/
def trackerJoinDomain : Bytes :=
  [65,69,84,72,69,82,47,118,49,47,116,114,97,99,107,101,114,45,106,111,105,110]

def peerIdBytes : Nat := 16
def challengeBytes : Nat := 32
def publicKeyBytes : Nat := 32
def signatureBytes : Nat := 64

def isHexDigit (c : Char) : Bool := c.isDigit || (decide ('a' ≤ c) && decide (c ≤ 'f'))

/-- `PEER_ID_RE` -/
def isPeerId (s : String) : Bool := s.toList.length == 32 && s.toList.all isHexDigit

/-- `Encoding.fromHex` of a text of hex digits -/
def fromHex : List Char → Bytes
  | a :: b :: cs => UInt8.ofNat ((digitsValue 16 [a,b]).getD 0) :: fromHex cs
  | [a] => [UInt8.ofNat ((digitsValue 16 [a]).getD 0)]
  | [] => []

structure NodeClaim where
  peerId : String
  pubkey : Bytes
  powCounter : Number

structure SignedNodeClaim extends NodeClaim where
  challenge : Bytes
  signature : Bytes

/-- What a JOIN is bound to, beside the challenge and the signer. -/
structure JoinBinding where
  verifierId : String
  signerFingerprint : String
  verifierFingerprint : String

def lengthPrefixed (text : String) : Except Thrown Bytes :=
  if (Bytes.utf8 text).length > 0xffff then .error (.rangeError "JoinBinding field too long")
  else .ok (Bytes.lengthPrefixed 2 (Bytes.utf8 text))

def joinMessage (challenge : Bytes) (signerId : String) (binding : JoinBinding) :
    Except Thrown Bytes := do
  let verifier ← lengthPrefixed binding.verifierId
  let signer ← lengthPrefixed signerId
  let signerFp ← lengthPrefixed binding.signerFingerprint
  let verifierFp ← lengthPrefixed binding.verifierFingerprint
  .ok (joinDomain ++ challenge ++ verifier ++ signer ++ signerFp ++ verifierFp)

/-- `trackerHost.toLowerCase()` is given by `lower`. -/
def trackerJoinMessage (lower : String → String) (nonce : Bytes) (peerId trackerHost : String) :
    Except Thrown Bytes :=
  if nonce.length ≠ challengeBytes then
    .error (.rangeError "trackerJoinMessage: nonce must be 32 bytes")
  else do
    let id ← lengthPrefixed peerId
    let host ← lengthPrefixed (lower trackerHost)
    .ok (trackerJoinDomain ++ nonce ++ id ++ host)

section
variable (sodium : Sodium)

def derivePeerId (pubkey : Bytes) : String :=
  Bytes.toHex ((sodium.sha256 (peerIdDomain ++ pubkey)).take peerIdBytes)

def derivePosition (peerId : String) : Number :=
  let h := sodium.sha256 (positionDomain ++ fromHex peerId.toList)
  (Number.ofRat (Bytes.toNat (h.take 8))).divBy (2^64)

def nodeIdPowHash (pubkey : Bytes) (counter : Nat) (params : PowParams) : Bytes :=
  sodium.pwhash (pubkey ++ Bytes.bigEndian 8 counter) nodeIdSalt params.opsLimit params.memLimit

def verifyClaim (claim : NodeClaim) (params : PowParams) : Bool :=
  claim.peerId.toList.length == peerIdBytes*2 && claim.peerId.toList.all isHexDigit &&
    claim.pubkey.length == publicKeyBytes &&
    match claim.powCounter.toSafeInt? with
    | none => false
    | some counter =>
      decide (0 ≤ counter) && derivePeerId sodium claim.pubkey == claim.peerId &&
        (params.difficulty == 0 ||
          PowPolicy.meetsDifficulty (nodeIdPowHash sodium claim.pubkey counter.toNat params)
            params.difficulty)

/-- A message that cannot be built verifies as false: the source catches the throw. -/
def verifySignedClaim (claim : SignedNodeClaim) (expectedChallenge : Bytes) (binding : JoinBinding)
    (params : PowParams) : Bool :=
  expectedChallenge.length == challengeBytes &&
    claim.challenge.length == expectedChallenge.length &&
    claim.signature.length == signatureBytes && claim.challenge == expectedChallenge &&
    claim.pubkey.length == publicKeyBytes &&
    (match joinMessage claim.challenge claim.peerId binding with
    | .error _ => false
    | .ok message => sodium.verifyDetached claim.signature message claim.pubkey) &&
    verifyClaim sodium claim.toNodeClaim params

end

end NodeIdentity

structure NodeIdentity where
  peerId : String
  position : Js.Number
  pubkey : Bytes
  privkey : Bytes
  powCounter : Js.Number

namespace NodeIdentity

open Js

section
variable (sodium : Sodium)

def fromKeyPair (pubkey privkey : Bytes) (powCounter : Number) : NodeIdentity :=
  let peerId := derivePeerId sodium pubkey
  ⟨peerId,derivePosition sodium peerId,pubkey,privkey,powCounter⟩

def claim (identity : NodeIdentity) : NodeClaim :=
  ⟨identity.peerId,identity.pubkey,identity.powCounter⟩

def signClaim (identity : NodeIdentity) (challenge : Bytes) (binding : JoinBinding) :
    Except Thrown SignedNodeClaim :=
  if challenge.length ≠ challengeBytes then
    .error (.rangeError "signClaim: challenge must be 32 bytes")
  else do
    let message ← joinMessage challenge identity.peerId binding
    .ok { identity.claim with
      challenge := challenge
      signature := sodium.signDetached message identity.privkey }

end

/-! A signature tells what it was made for: the messages of the three kinds differ, and
one of a JOIN determines its fields. -/

theorem lengthPrefixed_ok {text : String} {bs : Bytes} (h : lengthPrefixed text = .ok bs) :
    (Bytes.utf8 text).length < 256^2 ∧ bs = Bytes.lengthPrefixed 2 (Bytes.utf8 text) := by
  unfold lengthPrefixed at h
  split at h
  · cases h
  · cases h
    exact ⟨by omega,rfl⟩

theorem lengthPrefixed_append_inj {s t : String} {a b c d : Bytes} (ha : lengthPrefixed s = .ok a)
    (hb : lengthPrefixed t = .ok b) (h : a ++ c = b ++ d) : s = t ∧ c = d := by
  obtain ⟨hs,rfl⟩ := lengthPrefixed_ok ha
  obtain ⟨ht,rfl⟩ := lengthPrefixed_ok hb
  obtain ⟨he,hr⟩ := Bytes.lengthPrefixed_append_inj hs ht h
  exact ⟨Bytes.utf8_inj he,hr⟩

/-- The parts of the message of a JOIN. -/
theorem joinMessage_ok {challenge m : Bytes} {signerId : String} {binding : JoinBinding}
    (h : joinMessage challenge signerId binding = .ok m) :
    ∃ a b c d, lengthPrefixed binding.verifierId = .ok a ∧ lengthPrefixed signerId = .ok b ∧
      lengthPrefixed binding.signerFingerprint = .ok c ∧
        lengthPrefixed binding.verifierFingerprint = .ok d ∧
          m = joinDomain ++ (challenge ++ (a ++ (b ++ (c ++ (d ++ []))))) := by
  obtain ⟨a,ha,h⟩ := bind_ok h
  obtain ⟨b,hb,h⟩ := bind_ok h
  obtain ⟨c,hc,h⟩ := bind_ok h
  obtain ⟨d,hd,h⟩ := bind_ok h
  cases h
  exact ⟨a,b,c,d,ha,hb,hc,hd,by simp⟩

theorem joinMessage_inj {challenge challenge' m : Bytes} {signerId signerId' : String}
    {binding binding' : JoinBinding} (hlen : challenge.length = challenge'.length)
    (h : joinMessage challenge signerId binding = .ok m)
    (h' : joinMessage challenge' signerId' binding' = .ok m) :
    challenge = challenge' ∧ signerId = signerId' ∧ binding = binding' := by
  obtain ⟨a,b,c,d,ha,hb,hc,hd,rfl⟩ := joinMessage_ok h
  obtain ⟨a',b',c',d',ha',hb',hc',hd',he⟩ := joinMessage_ok h'
  have he := List.append_cancel_left he
  obtain ⟨hch,he⟩ := List.append_inj he hlen
  obtain ⟨hv,he⟩ := lengthPrefixed_append_inj ha ha' he
  obtain ⟨hs,he⟩ := lengthPrefixed_append_inj hb hb' he
  obtain ⟨hsf,he⟩ := lengthPrefixed_append_inj hc hc' he
  obtain ⟨hvf,-⟩ := lengthPrefixed_append_inj hd hd' he
  obtain ⟨verifierId,signerFingerprint,verifierFingerprint⟩ := binding
  cases hv
  cases hsf
  cases hvf
  exact ⟨hch,hs,rfl⟩

theorem joinMessage_ne_trackerJoinMessage {challenge nonce m : Bytes} {signerId peerId host : String}
    {binding : JoinBinding} {lower : String → String}
    (h : joinMessage challenge signerId binding = .ok m) :
    trackerJoinMessage lower nonce peerId host ≠ .ok m := by
  intro h'
  obtain ⟨a,b,c,d,-,-,-,-,rfl⟩ := joinMessage_ok h
  unfold trackerJoinMessage at h'
  split at h'
  · cases h'
  obtain ⟨id,-,h'⟩ := bind_ok h'
  obtain ⟨host,-,h'⟩ := bind_ok h'
  have he := congrArg (List.take 9) (Except.ok.inj h')
  simp [joinDomain,trackerJoinDomain] at he

theorem joinMessage_ne_guardDecl {challenge m body : Bytes} {signerId : String}
    {binding : JoinBinding} (h : joinMessage challenge signerId binding = .ok m) :
    guardDeclDomain ++ body ≠ m := by
  intro h'
  obtain ⟨a,b,c,d,-,-,-,-,rfl⟩ := joinMessage_ok h
  have he := congrArg (List.take 9) h'
  simp [joinDomain,guardDeclDomain] at he

theorem toHex_digits (bs : Bytes) : (Bytes.toHex bs).toList.all isHexDigit = true := by
  have key : ∀ n : Fin 16, isHexDigit (Bytes.hexDigit n.1) = true := by decide
  rw [Bytes.toHex,String.toList_ofList,List.all_eq_true]
  intro c hc
  obtain ⟨n,hn,rfl⟩ := Bytes.mem_hexChars hc
  exact key ⟨n,hn⟩

/-- What a claim that is found good says. -/
structure Verified (sodium : Sodium) (claim : SignedNodeClaim) (challenge : Bytes)
    (binding : JoinBinding) : Prop where
  answers : claim.challenge = challenge
  length : challenge.length = challengeBytes
  signature : ∃ m, joinMessage challenge claim.peerId binding = .ok m ∧
    sodium.verifyDetached claim.signature m claim.pubkey = true
  peerId : derivePeerId sodium claim.pubkey = claim.peerId

theorem derivePeerId_of_verifyClaim {sodium : Sodium} {claim : NodeClaim} {params : PowParams}
    (h : verifyClaim sodium claim params = true) :
    derivePeerId sodium claim.pubkey = claim.peerId := by
  simp only [verifyClaim,Bool.and_eq_true] at h
  have hrest := h.2
  split at hrest
  · cases hrest
  · simp only [Bool.and_eq_true,beq_iff_eq] at hrest
    exact hrest.1.2

theorem verified_of_verifySignedClaim {sodium : Sodium} {claim : SignedNodeClaim} {challenge : Bytes}
    {binding : JoinBinding} {params : PowParams}
    (h : verifySignedClaim sodium claim challenge binding params = true) :
    Verified sodium claim challenge binding := by
  simp only [verifySignedClaim,Bool.and_eq_true,beq_iff_eq] at h
  obtain ⟨⟨⟨⟨⟨⟨hlen,-⟩,-⟩,hch⟩,-⟩,hsig⟩,hclaim⟩ := h
  refine ⟨hch,hlen,?_,?_⟩
  · rw [hch] at hsig
    split at hsig
    · cases hsig
    · next m hm => exact ⟨m,hm,hsig⟩
  · exact derivePeerId_of_verifyClaim hclaim

end NodeIdentity
