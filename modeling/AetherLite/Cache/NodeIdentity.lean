import AetherLite.Cache.Validator

/-! Bound identities on the cache node, which signs the challenge of a HELLO alone. -/
set_option autoImplicit false

namespace Cache

/-- What the cache node uses of SHA-256, Argon2id and Ed25519. -/
structure Crypto where
  sha256 : Bytes → Bytes
  /-- One lane and 32 bytes of output, or a failure -/
  argon2id : (input salt : Bytes) → (mCostKib opsLimit : UInt32) → Option Bytes
  verifyingKey : (signingKey : Bytes) → Bytes
  isVerifyingKey : Bytes → Bool
  sign : (signingKey message : Bytes) → Bytes
  verify : (verifyingKey message signature : Bytes) → Bool

/-- `b"AETHER/v3/peerid"` -/
def peerIdDomain : Bytes :=
  [0x41,0x45,0x54,0x48,0x45,0x52,0x2f,0x76,0x33,0x2f,0x70,0x65,0x65,0x72,0x69,0x64]

/-- `b"AETHER/v3/join"` -/
def joinDomain : Bytes := [0x41,0x45,0x54,0x48,0x45,0x52,0x2f,0x76,0x33,0x2f,0x6a,0x6f,0x69,0x6e]

/-- `b"AETHER/v3/nodeid"` -/
def nodeIdSalt : Bytes :=
  [0x41,0x45,0x54,0x48,0x45,0x52,0x2f,0x76,0x33,0x2f,0x6e,0x6f,0x64,0x65,0x69,0x64]

def peerIdBytes : Nat := 16
def challengeBytes : Nat := 32
def pubkeyBytes : Nat := 32
def signatureBytes : Nat := 64

structure NodeIdPowParams where
  difficulty : UInt32
  opsLimit : UInt32
  /-- In bytes -/
  memLimit : UInt32

/-- `NODE_ID_POW` -/
def nodeIdPow : NodeIdPowParams := ⟨10,1,1048576⟩

structure NodeClaim where
  peerId : String
  pubkey : Bytes
  powCounter : UInt64

/-- `u8::is_ascii_uppercase` -/
def isAsciiUppercase (b : UInt8) : Bool := 0x41 ≤ b && b ≤ 0x5a

def isValidPeerId (peerId : String) : Bool :=
  (Bytes.utf8 peerId).length == peerIdBytes*2 &&
    (Bytes.utf8 peerId).all fun b => isAsciiHexdigit b && !isAsciiUppercase b

/-- What a JOIN signs: neither end of the connection, nor the connection. -/
def joinMessage (challenge : Bytes) : Bytes := joinDomain ++ challenge

section
variable (crypto : Crypto)

def derivePeerId (pubkey : Bytes) : String :=
  Bytes.toHex ((crypto.sha256 (peerIdDomain ++ pubkey)).take peerIdBytes)

def nodeIdPowHash (pubkey : Bytes) (counter : UInt64) (params : NodeIdPowParams) : Option Bytes :=
  crypto.argon2id (pubkey ++ toBeBytes64 counter) nodeIdSalt (params.memLimit/1024) params.opsLimit

def verifyClaim (claim : NodeClaim) (params : NodeIdPowParams) : Bool :=
  if !isValidPeerId claim.peerId then false
  else if derivePeerId crypto claim.pubkey ≠ claim.peerId then false
  else if params.difficulty = 0 then true
  else match nodeIdPowHash crypto claim.pubkey claim.powCounter params with
  | some hash => meetsDifficulty hash params.difficulty
  | none => false

def verifySignedClaim (claim : NodeClaim) (challenge signature expectedChallenge : Bytes)
    (params : NodeIdPowParams) : Bool :=
  if !verifyClaim crypto claim params then false
  else if challenge ≠ expectedChallenge then false
  else if signature.length ≠ signatureBytes then false
  else if !crypto.isVerifyingKey claim.pubkey then false
  else crypto.verify claim.pubkey (joinMessage challenge) signature

/-- The id of a node is always that of its key. -/
structure NodeIdentity where
  peerId : String
  powCounter : UInt64
  signingKey : Bytes
  bound : derivePeerId crypto (crypto.verifyingKey signingKey) = peerId

end

namespace NodeIdentity

variable {crypto : Crypto}

def pubkey (identity : NodeIdentity crypto) : Bytes := crypto.verifyingKey identity.signingKey

def claim (identity : NodeIdentity crypto) : NodeClaim :=
  ⟨identity.peerId,identity.pubkey,identity.powCounter⟩

def signChallenge (identity : NodeIdentity crypto) (challenge : Bytes) : Bytes :=
  crypto.sign identity.signingKey (joinMessage challenge)

end NodeIdentity

section
variable {crypto : Crypto} {params : NodeIdPowParams} {claim : NodeClaim}
variable {challenge signature expected : Bytes}

theorem joinMessage_inj {c c' : Bytes} (h : joinMessage c = joinMessage c') : c = c' :=
  List.append_cancel_left h

theorem derivePeerId_of_verifyClaim (h : verifyClaim crypto claim params = true) :
    derivePeerId crypto claim.pubkey = claim.peerId := by
  unfold verifyClaim at h
  split at h
  · cases h
  split at h
  · cases h
  · next hid => exact not_not.mp hid

/-- What a claim that is found good says: a signature on the challenge, and nothing of who
it was sent to. -/
theorem verified_of_verifySignedClaim
    (h : verifySignedClaim crypto claim challenge signature expected params = true) :
    challenge = expected ∧ derivePeerId crypto claim.pubkey = claim.peerId ∧
      crypto.verify claim.pubkey (joinMessage expected) signature = true := by
  unfold verifySignedClaim at h
  split at h
  · cases h
  next hclaim =>
  split at h
  · cases h
  next hch =>
  split at h
  · cases h
  split at h
  · cases h
  · have hclaim : verifyClaim crypto claim params = true := by simpa using hclaim
    obtain rfl : challenge = expected := not_not.mp hch
    exact ⟨rfl,derivePeerId_of_verifyClaim hclaim,h⟩

end

end Cache
