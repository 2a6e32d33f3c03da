import AetherLite.Crypto.PacketBuilder

/-! How a packet is put together: signed, encrypted, and worked for. -/
set_option autoImplicit false

structure KeyPair where
  publicKey : Bytes
  privateKey : Bytes

structure Identity where
  sessionKeyPair : KeyPair
  tripKeyPair : Option KeyPair

structure SignatureResult where
  sessionPubkey : Bytes
  sessionSignature : Bytes
  tripPubkey : Option Bytes
  tripSignature : Option Bytes

def Identity.sign (signDetached : Bytes → Bytes → Bytes) (identity : Identity)
    (postData : Bytes) : SignatureResult where
  sessionPubkey := identity.sessionKeyPair.publicKey
  sessionSignature := signDetached postData identity.sessionKeyPair.privateKey
  tripPubkey := identity.tripKeyPair.map KeyPair.publicKey
  tripSignature := identity.tripKeyPair.map fun kp => signDetached postData kp.privateKey

namespace KeyManager

/-- The first bits of the topic hash. -/
def computeZoneId (topicHash : Bytes) (depth : Nat) : Nat :=
  if depth = 0 then 0
  else ((topicHash.getD 0 0).toNat*256+(topicHash.getD 1 0).toNat) >>>
    ((16-(depth : Int)) % 32).toNat

end KeyManager

namespace PowPolicy

open Js

/-- The loop of `solvePow`, so many rounds from `i` on. -/
def solveFrom (sha256 : Bytes → Bytes) (preimage : Bytes) (difficulty : Nat) :
    Nat → Nat → Option Nat
  | 0, _ => none
  | n+1, i =>
    if meetsDifficulty (powHash sha256 preimage i) difficulty then some i
    else solveFrom sha256 preimage difficulty n (i+1)

def solvePow (sha256 : Bytes → Bytes) (header : PowCommittedHeader) :
    Except Thrown (Option Nat) := do
  let preimage ← powPreimage header
  .ok (solveFrom sha256 preimage ((integer? header.powDifficulty).getD 0).toNat
    Number.maxSafeInteger.toNat 0)

/-- `PoWEngine.compute` -/
def compute (sha256 : Bytes → Bytes) (header : PowCommittedHeader) : Except Thrown Nat := do
  let difficulty ← header.powDifficulty.number
  if difficulty.lt (Number.ofNat minDifficulty) then
    .error (.rangeError "PoWEngine.compute: difficulty below the minimum")
  else if (Number.ofNat maxDifficulty).lt difficulty then
    .error (.rangeError "PoWEngine.compute: difficulty above the maximum")
  else match ← solvePow sha256 header with
  | some nonce => .ok nonce
  | none => .error (.error "PoWEngine: PoW search exhausted")

end PowPolicy

namespace PacketBuilder

open Js PowPolicy

/-- What the author has besides the libraries of a reader. -/
structure Author where
  signDetached : (message privateKey : Bytes) → Bytes
  /-- `sodium.crypto_hash` -/
  cryptoHash : Bytes → Bytes
  sha256 : Bytes → Bytes
  identity : Identity

/-- The arguments of `build`, without the key and the engines. The parents and the weight come
from the posts of others. -/
structure Draft where
  content : String
  boardId : String
  threadId : String
  postNumber : Number := .fin 0
  replyTo : Option Number := none
  powDifficulty : Number
  currentDepth : Nat
  postType : Number := .fin 0
  dagParents : List Val := []
  threadRoot : String := ""
  cumulativePow : Val := .num (.fin 0)

def optional {α : Type*} (f : α → Val) : Option α → Val
  | some a => f a
  | none => .null

def roundToMinute (ms : Nat) : Nat := ms/60000*60000

def Draft.signedFields (d : Draft) (now : Nat) : List (String × Val) := [
  ("content",.str d.content),
  ("post_number",.num d.postNumber),
  ("reply_to",optional .num d.replyTo),
  ("created_at",.num (Number.ofNat now)),
  ("board_id",.str d.boardId),
  ("thread_id",.str d.threadId),
  ("parents",.arr d.dagParents),
  ("cumulative_pow",d.cumulativePow),
  ("thread_root",.str d.threadRoot)]

def signatureFields (sig : SignatureResult) : List (String × Val) := [
  ("session_pubkey",.bytes sig.sessionPubkey),
  ("session_sig",.bytes sig.sessionSignature),
  ("trip_pubkey",optional .bytes sig.tripPubkey),
  ("trip_sig",optional .bytes sig.tripSignature)]

def Draft.encryptedRecord (d : Draft) (innerPayload : Bytes) : Val := .obj [
  ("board_id",.str d.boardId),
  ("thread_id",.str d.threadId),
  ("post_type",.num d.postType),
  ("inner_payload",.bytes innerPayload)]

section
variable (p : Primitives) (a : Author)

/-- The two layers under the encryption. -/
def Draft.plaintext (d : Draft) (now : Nat) : Except Thrown Bytes := do
  let signedData ← p.encode (.obj (d.signedFields now))
  let sig := a.identity.sign a.signDetached signedData
  let innerPayload ← p.encode (.obj (d.signedFields now ++ signatureFields sig))
  p.encode (d.encryptedRecord innerPayload)

def packetOf (header : PowCommittedHeader) (packetId : String) (powNonce : Nat) : Val := .obj [
  ("packet_id",.str packetId),
  ("hop_count",.num (.fin 0)),
  ("pow_nonce",.num (Number.ofNat powNonce)),
  ("pow_difficulty",header.powDifficulty),
  ("timestamp",header.timestamp),
  ("zone_id",header.zoneId),
  ("nonce",.bytes header.nonce),
  ("payload",.bytes header.payload)]

def Draft.committed (d : Draft) (key nonce ciphertext : Bytes) (now : Nat) :
    PowCommittedHeader where
  timestamp := .num (Number.ofNat now)
  zoneId := .num (Number.ofNat (KeyManager.computeZoneId ((a.cryptoHash key).take 32)
    d.currentDepth))
  powDifficulty := .num d.powDifficulty
  nonce := nonce
  payload := ciphertext

/-- `date` is the time at which it is called, `nonce` the one that is drawn. -/
def build (d : Draft) (key : Bytes) (date : Nat) (nonce : Bytes) : Except Thrown Val := do
  let now := roundToMinute date
  let encPayload ← d.plaintext p a now
  let ciphertext := p.aeadEncrypt key nonce (magic ++ encPayload)
  let committed := d.committed a key nonce ciphertext now
  let powNonce ← compute a.sha256 committed
  let packetId ← derivePacketId a.sha256 committed
  .ok (packetOf committed packetId powNonce)

end

end PacketBuilder
