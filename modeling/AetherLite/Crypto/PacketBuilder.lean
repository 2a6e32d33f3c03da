import AetherLite.Lib.JsonText
import AetherLite.Crypto.PowPolicy

/-! The layers of a packet: signature, encryption and header, and how a receiver
takes them off again. -/
set_option autoImplicit false

namespace PacketBuilder

open Js PowPolicy

/-- libsodium and msgpack as the builder calls them. -/
structure Primitives where
  /-- The first four bytes of the payload key stream; none when the call throws. -/
  keystream : (key nonce : Bytes) → Option Bytes
  aeadEncrypt : (key nonce plaintext : Bytes) → Bytes
  aeadDecrypt : (key nonce ciphertext : Bytes) → Option Bytes
  /-- none when the call throws, as it does on a key or a signature of another length. -/
  verifyDetached : (signature message publicKey : Bytes) → Option Bool
  encode : Val → Except Thrown Bytes
  decode : Val → Option Val

def magic : Bytes := [0x41,0x45,0x54,0x48]
def publicKeyBytes : Nat := 32
def signatureBytes : Nat := 64

/-- What `verifyAndDecrypt` returns: the signed fields, and three more. -/
structure Post where
  content : Val
  postNumber : Val := .undefined
  replyTo : Val := .undefined
  createdAt : Val
  boardId : Val
  threadId : Val
  parents : Val := .undefined
  cumulativePow : Val := .undefined
  threadRoot : Val := .undefined
  postType : Val
  sessionPubkey : Val := .undefined
  tripPubkey : Val := .undefined

/-- The record that is signed. The last three fields are in it only when the inner
payload has parents. -/
def signedFields (inner : Val) : Val :=
  .obj <| [
    ("content",inner.field "content"),
    ("post_number",inner.field "post_number"),
    ("reply_to",inner.field "reply_to"),
    ("created_at",inner.field "created_at"),
    ("board_id",inner.field "board_id"),
    ("thread_id",inner.field "thread_id")] ++
    if (inner.field "parents").strictEq .undefined then [] else [
      ("parents",inner.field "parents"),
      ("cumulative_pow",inner.field "cumulative_pow"),
      ("thread_root",inner.field "thread_root")]

section
variable (p : Primitives)

/-- `MagicFilter.quickCheck`, which passes what it cannot decide. -/
def quickCheck (key ciphertext nonce : Bytes) : Bool :=
  if ciphertext.length < 4 then false
  else match p.keystream key nonce with
  | none => true
  | some stream => List.zipWith (· ^^^ ·) (ciphertext.take 4) stream == magic

/-- `CryptoEngine.decrypt` -/
def decrypt (key ciphertext nonce : Bytes) : Option Bytes :=
  (p.aeadDecrypt key nonce ciphertext).bind fun plaintext =>
    if plaintext.take 4 = magic then some (plaintext.drop 4) else none

inductive TripCheck where
  | absent
  | verified (publicKey : Bytes)
  | refused
  deriving DecidableEq

def verifyTripSignature (inner : Val) (signedData : Bytes) : Except Thrown TripCheck :=
  let hasPubkey := !(inner.field "trip_pubkey").isNullish
  let hasSig := !(inner.field "trip_sig").isNullish
  if !hasPubkey && !hasSig then .ok .absent
  else if !hasPubkey || !hasSig then .ok .refused
  else do
    let pubkey ← toBytes (inner.field "trip_pubkey")
    let sig ← toBytes (inner.field "trip_sig")
    if pubkey.length ≠ publicKeyBytes then .ok .refused
    else if sig.length ≠ signatureBytes then .ok .refused
    else if p.verifyDetached sig signedData pubkey = some true then .ok (.verified pubkey)
    else .ok .refused

/-- The signature of the session key; whatever throws here is caught. -/
def verifySession (inner : Val) (signedData : Bytes) : Bool :=
  match Val.newUint8Array (inner.field "session_pubkey"),
      Val.newUint8Array (inner.field "session_sig") with
  | .ok pubkey,.ok sig => p.verifyDetached sig signedData pubkey = some true
  | _,_ => false

/-- The checks of a decoded packet, the two signatures over the signed fields. -/
def verifyInner (encPayload inner : Val) : Except Thrown (Option Post) :=
  if inner.isNullish then .error (.typeError "Cannot read properties of null")
  else do
    let signedData ← p.encode (signedFields inner)
    if !verifySession p inner signedData then .ok none
    else
      let post (trip : Val) : Post := {
        content := inner.field "content"
        postNumber := inner.field "post_number"
        replyTo := inner.field "reply_to"
        createdAt := inner.field "created_at"
        boardId := inner.field "board_id"
        threadId := inner.field "thread_id"
        parents := inner.field "parents"
        cumulativePow := inner.field "cumulative_pow"
        threadRoot := inner.field "thread_root"
        postType := encPayload.field "post_type"
        sessionPubkey := inner.field "session_pubkey"
        tripPubkey := trip }
      match ← verifyTripSignature p inner signedData with
      | .refused => .ok none
      | .absent => .ok (some (post .null))
      | .verified pubkey => .ok (some (post (.bytes pubkey)))

/-- The two decoded layers of a packet: the encrypted record and the signed one. A packet
that is not for the key, or whose layers do not open, has none; only the conversions
outside the try blocks throw. -/
def layers (packet : Val) (key : Bytes) : Except Thrown (Option (Val × Val)) := do
  let ciphertext ← toBytes (packet.field "payload")
  let nonce ← toBytes (packet.field "nonce")
  if !quickCheck p key ciphertext nonce then .ok none
  else match (decrypt p key ciphertext nonce).bind fun buf => p.decode (.bytes buf) with
  | none => .ok none
  | some encPayload =>
    if encPayload.isNullish then .ok none
    else .ok ((p.decode (encPayload.field "inner_payload")).map fun inner => (encPayload,inner))

def verifyAndDecrypt (packet : Val) (key : Bytes) : Except Thrown (Option Post) := do
  match ← layers p packet key with
  | none => .ok none
  | some (encPayload,inner) => verifyInner p encPayload inner

/-- The record the signatures of a post are over. -/
def Post.signedRecord (post : Post) : Val :=
  .obj <| [
    ("content",post.content),
    ("post_number",post.postNumber),
    ("reply_to",post.replyTo),
    ("created_at",post.createdAt),
    ("board_id",post.boardId),
    ("thread_id",post.threadId)] ++
    if post.parents.strictEq .undefined then [] else [
      ("parents",post.parents),
      ("cumulative_pow",post.cumulativePow),
      ("thread_root",post.threadRoot)]

/-- The keys that signed a post, the session's and the author's, with the message they
signed. Ed25519 is deterministic, so these stand for the signatures. -/
def signatures (post : Post) : List (Bytes × Bytes) :=
  match p.encode post.signedRecord with
  | .error _ => []
  | .ok message =>
    let session := match Val.newUint8Array post.sessionPubkey with
      | .ok pubkey => [pubkey]
      | .error _ => []
    let trip := match post.tripPubkey with
      | .bytes pubkey => [pubkey]
      | _ => []
    (session ++ trip).map fun pubkey => (pubkey,message)

/-- The signatures a packet shows under a key. -/
def packetSignatures (packet : Val) (key : Bytes) : List (Bytes × Bytes) :=
  match verifyAndDecrypt p packet key with
  | .ok (some post) => signatures p post
  | _ => []

end

section
variable {p : Primitives}

theorem verifyTripSignature_verified {inner : Val} {signedData pubkey : Bytes}
    (h : verifyTripSignature p inner signedData = .ok (.verified pubkey)) :
    ∃ sig, toBytes (inner.field "trip_pubkey") = .ok pubkey ∧
      toBytes (inner.field "trip_sig") = .ok sig ∧
        p.verifyDetached sig signedData pubkey = some true := by
  unfold verifyTripSignature at h
  dsimp only at h
  split at h
  · cases h
  split at h
  · cases h
  cases hp : toBytes (inner.field "trip_pubkey") with
  | error e => simp [hp,bind,Except.bind] at h
  | ok pubkey' =>
    cases hs : toBytes (inner.field "trip_sig") with
    | error e => simp [hp,hs,bind,Except.bind] at h
    | ok sig =>
      simp only [hp,hs,bind,Except.bind] at h
      split at h
      · cases h
      split at h
      · cases h
      split at h
      · next hv =>
        cases h
        exact ⟨sig,rfl,rfl,hv⟩
      · cases h

/-- What `verifyInner` returns has been read from the two layers, and a trip key in it
verified a signature in the inner one over the signed fields. -/
theorem verifyInner_some {encPayload inner : Val} {post : Post}
    (h : verifyInner p encPayload inner = .ok (some post)) :
    ∃ signedData, p.encode (signedFields inner) = .ok signedData ∧
      post.signedRecord = signedFields inner ∧ ∀ pubkey, post.tripPubkey = .bytes pubkey →
        ∃ sig, toBytes (inner.field "trip_pubkey") = .ok pubkey ∧
          toBytes (inner.field "trip_sig") = .ok sig ∧
            p.verifyDetached sig signedData pubkey = some true := by
  unfold verifyInner at h
  split at h
  · cases h
  cases hs : p.encode (signedFields inner) with
  | error e => simp [hs,bind,Except.bind] at h
  | ok signedData =>
    simp only [hs,bind,Except.bind] at h
    split at h
    · cases h
    cases ht : verifyTripSignature p inner signedData with
    | error e => simp [ht] at h
    | ok trip =>
      simp only [ht] at h
      cases trip with
      | refused => cases h
      | absent =>
        cases h
        exact ⟨signedData,rfl,rfl,fun pubkey hp => (by cases hp)⟩
      | verified pubkey =>
        cases h
        refine ⟨signedData,rfl,rfl,fun pubkey' hp => ?_⟩
        cases hp
        exact verifyTripSignature_verified ht

theorem verifyAndDecrypt_some {packet : Val} {key : Bytes} {post : Post}
    (h : verifyAndDecrypt p packet key = .ok (some post)) :
    ∃ encPayload inner, layers p packet key = .ok (some (encPayload,inner)) ∧
      verifyInner p encPayload inner = .ok (some post) := by
  unfold verifyAndDecrypt at h
  cases hl : layers p packet key with
  | error e => simp [hl,bind,Except.bind] at h
  | ok o =>
    simp only [hl,bind,Except.bind] at h
    cases o with
    | none => cases h
    | some l => exact ⟨l.1,l.2,rfl,h⟩

end

/-- The reviver of the orchestrators, who parse a packet that was stored or fetched. -/
def packetReviver (v : Val) : Except Thrown Val :=
  if (v.field "_type").strictEq (.str "Uint8Array") then do
    .ok (.bytes (← Val.newUint8Array (v.field "data")))
  else .ok v

def parsePacket (body : Bytes) : Except Thrown Val := JsonText.parseBytes packetReviver body

/-- A stand-in for the libraries. A ciphertext opens under the key it starts with,
every signature holds, and two messages have encodings: the creation of a thread and a
reply in it. -/
def sample : Primitives where
  keystream _ _ := none
  aeadEncrypt key _ plaintext := key ++ plaintext
  aeadDecrypt key _ ciphertext :=
    if ciphertext.take key.length = key then some (ciphertext.drop key.length) else none
  verifyDetached _ _ _ := some true
  encode _ := .ok []
  decode
    | .bytes [1] => some (.obj [("post_type",.num (.fin 1)),("inner_payload",.bytes [3])])
    | .bytes [2] => some (.obj [("post_type",.num (.fin 0)),("inner_payload",.bytes [3])])
    | .bytes [3] => some (.obj [
        ("content",.str "text"),("thread_id",.str "thread"),("created_at",.num (.fin 60000)),
        ("parents",.arr []),("cumulative_pow",.num (.fin 12))])
    | _ => none

/-- A packet that `sample` opens under the key. -/
def samplePacket (key : Bytes) (packetId : String) (message : UInt8) : Val := .obj [
  ("packet_id",.str packetId),
  ("timestamp",.num (.fin 60000)),
  ("nonce",.bytes []),
  ("payload",.bytes (key ++ magic ++ [message]))]

end PacketBuilder
