import AetherLite.Crypto.PacketBuild
import AetherLite.Lib.MsgPack

/-! What a packet that was built opens to, what the first look at a packet lets through, and what
the signatures of a packet are worth. -/
set_option autoImplicit false

namespace PacketBuilder

open Js PowPolicy

/-- Keys open what they close and sign what they check, the first bytes are under the key stream,
and msgpack reads what it writes. -/
structure Sound (p : Primitives) (signDetached : Bytes → Bytes → Bytes) (f : MsgPack.Float64)
    (pair : KeyPair → Prop) : Prop where
  opens : ∀ key nonce plaintext,
    p.aeadDecrypt key nonce (p.aeadEncrypt key nonce plaintext) = some plaintext
  shorter : ∀ key nonce ciphertext plaintext,
    p.aeadDecrypt key nonce ciphertext = some plaintext → plaintext.length ≤ ciphertext.length
  stream : ∀ key nonce ciphertext plaintext stream,
    p.aeadDecrypt key nonce ciphertext = some plaintext → p.keystream key nonce = some stream →
      4 ≤ plaintext.length → List.zipWith (· ^^^ ·) (ciphertext.take 4) stream = plaintext.take 4
  verifies : ∀ kp message, pair kp →
    p.verifyDetached (signDetached message kp.privateKey) message kp.publicKey = some true
  publicKeyLength : ∀ kp, pair kp → kp.publicKey.length = publicKeyBytes
  signatureLength : ∀ kp message, pair kp →
    (signDetached message kp.privateKey).length = signatureBytes
  decode_encode : ∀ v bs, p.encode v = .ok bs → MsgPack.Portable f v →
    p.decode (.bytes bs) = some v.nullify

section
variable {p : Primitives} {signDetached : Bytes → Bytes → Bytes} {f : MsgPack.Float64}
  {pair : KeyPair → Prop}

/-- The first look lets everything through that opens. -/
theorem quickCheck_of_decrypt (hs : Sound p signDetached f pair) {key ciphertext nonce m : Bytes}
    (h : decrypt p key ciphertext nonce = some m) : quickCheck p key ciphertext nonce = true := by
  obtain ⟨plaintext,hopen,hmagic⟩ := Option.bind_eq_some_iff.mp h
  simp only [Option.ite_none_right_eq_some,Option.some.injEq] at hmagic
  have hlen : 4 ≤ plaintext.length := by
    have htake := congrArg List.length hmagic.1
    simp [magic] at htake
    omega
  have hle := hs.shorter key nonce ciphertext plaintext hopen
  unfold quickCheck
  rw [if_neg (by omega)]
  cases hk : p.keystream key nonce with
  | none => rfl
  | some stream =>
    dsimp only
    rw [hs.stream key nonce ciphertext plaintext stream hopen hk hlen,hmagic.1]
    rfl

theorem decrypt_encrypt (hs : Sound p signDetached f pair) (key nonce m : Bytes) :
    decrypt p key (p.aeadEncrypt key nonce (magic ++ m)) nonce = some m := by
  unfold decrypt
  rw [hs.opens]
  simp [magic]

/-- msgpack reads the draft as it writes it, and its time is a Date. -/
structure Draft.Portable (f : MsgPack.Float64) (d : Draft) (date : Nat) : Prop where
  postNumber : MsgPack.Portable f (.num d.postNumber)
  replyTo : ∀ n, d.replyTo = some n → MsgPack.Portable f (.num n)
  dagParents : MsgPack.PortableAll f d.dagParents
  keepsParents : Val.nullifyAll d.dagParents = d.dagParents
  cumulativePow : MsgPack.Portable f d.cumulativePow
  keepsWeight : d.cumulativePow.nullify = d.cumulativePow
  postType : MsgPack.Portable f (.num d.postType)
  date : date ≤ 8640000000000000

variable {a : Author} {d : Draft} {key nonce : Bytes} {date : Nat}

theorem portable_date {f : MsgPack.Float64} {now : Nat} (h : now ≤ 8640000000000000) :
    MsgPack.Portable f (.num (Number.ofNat now)) := by
  intro hn
  rw [Number.toSafeInt?_ofNat,if_pos (by omega)] at hn
  cases hn

theorem portable_signed {d : Draft} {date : Nat} (hd : d.Portable f date)
    (sig : SignatureResult) : MsgPack.Portable f (.obj (d.signedFields (roundToMinute date))) ∧
      MsgPack.Portable f
        (.obj (d.signedFields (roundToMinute date) ++ signatureFields sig)) := by
  have hnow : roundToMinute date ≤ 8640000000000000 :=
    (Nat.div_mul_le_self date 60000).trans hd.date
  have hreply : MsgPack.Portable f (optional .num d.replyTo) := by
    cases hr : d.replyTo with
    | none => simp [optional,MsgPack.Portable]
    | some n => exact hd.replyTo n hr
  have hbytes : ∀ o : Option Bytes, MsgPack.Portable f (optional .bytes o) := by
    intro o
    cases o <;> simp [optional,MsgPack.Portable]
  have hparents : MsgPack.Portable f (.arr d.dagParents) := by
    simpa [MsgPack.Portable] using hd.dagParents
  have hstr : ∀ s, MsgPack.Portable f (.str s) := fun s => by simp [MsgPack.Portable]
  have hb : ∀ bs, MsgPack.Portable f (.bytes bs) := fun s => by simp [MsgPack.Portable]
  constructor
  · refine ⟨?_,?_,?_⟩
    · simp [JsMap.keys,Draft.signedFields]
    · simp [JsMap.keys,Draft.signedFields]
    · simp [Draft.signedFields,MsgPack.PortableFields,hstr,hd.postNumber,hd.cumulativePow,hreply,
        hparents,portable_date hnow]
  · refine ⟨?_,?_,?_⟩
    · simp [JsMap.keys,Draft.signedFields,signatureFields]
    · simp [JsMap.keys,Draft.signedFields,signatureFields]
    · simp [Draft.signedFields,signatureFields,MsgPack.PortableFields,hstr,hb,hbytes,hd.postNumber,
        hd.cumulativePow,hreply,hparents,portable_date hnow]

theorem nullify_signed (hd : d.Portable f date) (now : Nat) (sig : SignatureResult) :
    (Val.obj (d.signedFields now)).nullify = .obj (d.signedFields now) ∧
      (Val.obj (d.signedFields now ++ signatureFields sig)).nullify =
        .obj (d.signedFields now ++ signatureFields sig) := by
  have hreply : (optional Val.num d.replyTo).nullify = optional .num d.replyTo := by
    cases d.replyTo <;> rfl
  have hbytes : ∀ o : Option Bytes, (optional Val.bytes o).nullify = optional .bytes o := by
    intro o
    cases o <;> rfl
  have hparents := hd.keepsParents
  have hweight := hd.keepsWeight
  constructor
  · simp [Draft.signedFields,Val.nullify,Val.nullifyFields,hreply,hparents,hweight]
  · simp [Draft.signedFields,signatureFields,Val.nullify,Val.nullifyFields,hreply,hbytes,
      hparents,hweight]

/-- The post that a draft is read back as. -/
def Draft.post (d : Draft) (identity : Identity) (now : Nat) : Post where
  content := .str d.content
  postNumber := .num d.postNumber
  replyTo := optional .num d.replyTo
  createdAt := .num (Number.ofNat now)
  boardId := .str d.boardId
  threadId := .str d.threadId
  parents := .arr d.dagParents
  cumulativePow := d.cumulativePow
  threadRoot := .str d.threadRoot
  postType := .num d.postType
  sessionPubkey := .bytes identity.sessionKeyPair.publicKey
  tripPubkey := optional .bytes (identity.tripKeyPair.map KeyPair.publicKey)

theorem verifyInner_signed (hs : Sound p a.signDetached f pair)
    (hsession : pair a.identity.sessionKeyPair)
    (htrip : ∀ kp, a.identity.tripKeyPair = some kp → pair kp) {now : Nat} {signedData : Bytes}
    (hsigned : p.encode (.obj (d.signedFields now)) = .ok signedData) (innerPayload : Bytes) :
    verifyInner p (d.encryptedRecord innerPayload) (.obj (d.signedFields now ++
      signatureFields (a.identity.sign a.signDetached signedData))) =
        .ok (some (d.post a.identity now)) := by
  have hfields : signedFields (.obj (d.signedFields now ++
      signatureFields (a.identity.sign a.signDetached signedData))) = .obj (d.signedFields now) := by
    simp [signedFields,Draft.signedFields,signatureFields,Val.field,JsMap.get,Val.strictEq]
  have hsessionOk : verifySession p (.obj (d.signedFields now ++
      signatureFields (a.identity.sign a.signDetached signedData))) signedData = true := by
    simp [verifySession,Draft.signedFields,signatureFields,Val.field,JsMap.get,Val.newUint8Array,
      Identity.sign,hs.verifies _ signedData hsession]
  have htripOk : verifyTripSignature p (.obj (d.signedFields now ++
      signatureFields (a.identity.sign a.signDetached signedData))) signedData =
        .ok (a.identity.tripKeyPair.elim .absent fun kp => .verified kp.publicKey) := by
    cases hk : a.identity.tripKeyPair with
    | none =>
      simp [verifyTripSignature,Draft.signedFields,signatureFields,Val.field,JsMap.get,
        Identity.sign,hk,optional,Val.isNullish]
    | some kp =>
      have hp := htrip kp hk
      simp [verifyTripSignature,Draft.signedFields,signatureFields,Val.field,JsMap.get,
        Identity.sign,hk,optional,Val.isNullish,toBytes,bind,Except.bind,hs.publicKeyLength kp hp,
        hs.signatureLength kp signedData hp,hs.verifies kp signedData hp]
  unfold verifyInner
  rw [hfields,hsigned]
  simp only [Val.isNullish,Bool.false_eq_true,if_false,bind,Except.bind,hsessionOk,htripOk,
    Bool.not_true]
  cases hk : a.identity.tripKeyPair with
  | none =>
    simp [Draft.post,Draft.signedFields,signatureFields,Draft.encryptedRecord,Val.field,JsMap.get,
      Identity.sign,hk,optional]
  | some kp =>
    simp [Draft.post,Draft.signedFields,signatureFields,Draft.encryptedRecord,Val.field,JsMap.get,
      Identity.sign,hk,optional]

theorem portable_encrypted (hd : d.Portable f date) (innerPayload : Bytes) :
    MsgPack.Portable f (d.encryptedRecord innerPayload) := by
  have htype := hd.postType
  refine ⟨by simp [JsMap.keys],by simp [JsMap.keys],?_⟩
  simp [MsgPack.PortableFields,MsgPack.Portable] at htype ⊢
  exact htype

/-- The layers that were closed are the ones that open. -/
theorem layers_sealed (hs : Sound p signDetached f pair) {packet encPayload inner : Val}
    {m : Bytes}
    (hpayload : packet.field "payload" = .bytes (p.aeadEncrypt key nonce (magic ++ m)))
    (hnonce : packet.field "nonce" = .bytes nonce) (hm : p.decode (.bytes m) = some encPayload)
    (hobj : encPayload.isNullish = false)
    (hinner : p.decode (encPayload.field "inner_payload") = some inner) :
    layers p packet key = .ok (some (encPayload,inner)) := by
  have hopen := decrypt_encrypt hs key nonce m
  have hquick := quickCheck_of_decrypt hs hopen
  simp [layers,hpayload,hnonce,toBytes,bind,Except.bind,hquick,hopen,hm,hobj,hinner]

/-- A packet that was built opens to the fields it was built from. -/
theorem build_opens (hs : Sound p a.signDetached f pair) (hd : d.Portable f date)
    (hsession : pair a.identity.sessionKeyPair)
    (htrip : ∀ kp, a.identity.tripKeyPair = some kp → pair kp) {packet : Val}
    (hb : build p a d key date nonce = .ok packet) :
    verifyAndDecrypt p packet key = .ok (some (d.post a.identity (roundToMinute date))) := by
  unfold build at hb
  obtain ⟨encPayload,hplain,hb⟩ := bind_ok hb
  obtain ⟨powNonce,-,hb⟩ := bind_ok hb
  obtain ⟨packetId,-,hb⟩ := bind_ok hb
  cases hb
  unfold Draft.plaintext at hplain
  obtain ⟨signedData,hsigned,hplain⟩ := bind_ok hplain
  obtain ⟨innerPayload,hinner,hplain⟩ := bind_ok hplain
  obtain ⟨hportSigned,hportInner⟩ := portable_signed hd
    (a.identity.sign a.signDetached signedData)
  have hdecInner := hs.decode_encode _ _ hinner hportInner
  rw [(nullify_signed hd _ _).2] at hdecInner
  have hdecEnc := hs.decode_encode _ _ hplain (portable_encrypted hd innerPayload)
  have hlayers : layers p (packetOf (d.committed a key nonce
      (p.aeadEncrypt key nonce (magic ++ encPayload)) (roundToMinute date)) packetId powNonce) key =
        .ok (some (d.encryptedRecord innerPayload,.obj (d.signedFields (roundToMinute date) ++
          signatureFields (a.identity.sign a.signDetached signedData)))) :=
    layers_sealed hs rfl rfl hdecEnc rfl hdecInner
  unfold verifyAndDecrypt
  rw [hlayers]
  exact verifyInner_signed hs hsession htrip hsigned innerPayload

/-- The signature holds over the fields of the record that are signed. -/
def SignedBy (p : Primitives) (inner : Val) (publicKey signature : Bytes) : Prop :=
  ∃ message, p.encode (signedFields inner) = .ok message ∧
    p.verifyDetached signature message publicKey = some true

def SessionSigned (p : Primitives) (inner : Val) : Prop :=
  ∃ pubkey sig, Val.newUint8Array (inner.field "session_pubkey") = .ok pubkey ∧
    Val.newUint8Array (inner.field "session_sig") = .ok sig ∧ SignedBy p inner pubkey sig

def TripSigned (p : Primitives) (inner : Val) : Prop :=
  ∃ pubkey sig, toBytes (inner.field "trip_pubkey") = .ok pubkey ∧
    toBytes (inner.field "trip_sig") = .ok sig ∧ pubkey.length = publicKeyBytes ∧
      sig.length = signatureBytes ∧ SignedBy p inner pubkey sig

/-- The fields of a trip that the record has. -/
def tripFields (inner : Val) : List Val :=
  [inner.field "trip_pubkey",inner.field "trip_sig"].filter fun v => !v.isNullish

/-- The record can be put together again for its signatures, and where the session signs it the
two fields of a trip hold nothing that has no Number. -/
structure Refusable (p : Primitives) (inner : Val) : Prop where
  encodes : throws (p.encode (signedFields inner)) = false
  converts : SessionSigned p inner → (tripFields inner).length = 2 →
    (tripFields inner).any hasNumberless = false

theorem verifySession_iff {inner : Val} {signedData : Bytes}
    (he : p.encode (signedFields inner) = .ok signedData) :
    verifySession p inner signedData = true ↔ SessionSigned p inner := by
  unfold verifySession SessionSigned SignedBy
  cases hp : Val.newUint8Array (inner.field "session_pubkey") with
  | error e => simp
  | ok pubkey =>
    cases hs : Val.newUint8Array (inner.field "session_sig") with
    | error e => simp
    | ok sig => simp [he]

theorem verifyTripSignature_refused {inner : Val} {signedData : Bytes}
    (he : p.encode (signedFields inner) = .ok signedData) (htrip : tripFields inner ≠ [])
    (hno : ¬TripSigned p inner) :
    verifyTripSignature p inner signedData = .ok .refused ↔
      ((tripFields inner).length = 2 → (tripFields inner).any hasNumberless = false) := by
  unfold verifyTripSignature
  cases hp : (inner.field "trip_pubkey").isNullish with
  | true =>
    cases hs : (inner.field "trip_sig").isNullish with
    | true => simp [tripFields,hp,hs] at htrip
    | false => simp [tripFields,hp,hs]
  | false =>
    cases hs : (inner.field "trip_sig").isNullish with
    | true => simp [tripFields,hp,hs]
    | false =>
      have hkey := throws_toBytes (inner.field "trip_pubkey")
      have hsig := throws_toBytes (inner.field "trip_sig")
      cases hb : toBytes (inner.field "trip_pubkey") with
      | error e =>
        rw [hb] at hkey
        simp [tripFields,hp,hs,bind,Except.bind,← hkey]
      | ok pubkey =>
        cases hc : toBytes (inner.field "trip_sig") with
        | error e =>
          rw [hc] at hsig
          simp [tripFields,hp,hs,bind,Except.bind,← hsig]
        | ok sig =>
          rw [hb] at hkey
          rw [hc] at hsig
          have hunsigned : pubkey.length = publicKeyBytes → sig.length = signatureBytes →
              p.verifyDetached sig signedData pubkey ≠ some true := fun hk hl hv =>
            hno ⟨pubkey,sig,hb,hc,hk,hl,signedData,he,hv⟩
          simpa [tripFields,hp,hs,bind,Except.bind,← hkey,← hsig] using hunsigned

/-- A record whose trip does not sign it is dropped as far as nothing throws on the way. -/
theorem verifyInner_unsigned {encPayload inner : Val} (htrip : tripFields inner ≠ [])
    (hno : ¬TripSigned p inner) :
    verifyInner p encPayload inner = .ok none ↔ Refusable p inner := by
  have hinner : inner.isNullish = false := by
    cases inner with
    | undefined | null => simp [tripFields,Val.field,Val.isNullish] at htrip
    | _ => rfl
  unfold verifyInner
  rw [hinner,if_neg (by decide)]
  cases he : p.encode (signedFields inner) with
  | error e =>
    have hthrows : ¬Refusable p inner := fun h => by simpa [he] using h.encodes
    simp [bind,Except.bind,hthrows]
  | ok signedData =>
    have hsession := verifySession_iff (p := p) he
    have hrefused := verifyTripSignature_refused he htrip hno
    simp only [bind,Except.bind]
    by_cases hv : verifySession p inner signedData = true
    · rw [hv,if_neg (by decide)]
      have hiff : Refusable p inner ↔
          ((tripFields inner).length = 2 → (tripFields inner).any hasNumberless = false) :=
        ⟨fun h => h.converts (hsession.mp hv),fun h => ⟨by rw [he]; rfl,fun _ => h⟩⟩
      rw [hiff,← hrefused]
      cases ht : verifyTripSignature p inner signedData with
      | error e => simp
      | ok trip => cases trip <;> simp
    · have hunsigned : ¬SessionSigned p inner := fun h => hv (hsession.mpr h)
      have hok : Refusable p inner := ⟨by rw [he]; rfl,fun h => absurd h hunsigned⟩
      simp [hv,hok]

theorem layers_some {packet : Val} {key : Bytes} {l : Val × Val}
    (h : layers p packet key = .ok (some l)) :
    ∃ ciphertext nonce, toBytes (packet.field "payload") = .ok ciphertext ∧
      toBytes (packet.field "nonce") = .ok nonce ∧ quickCheck p key ciphertext nonce = true := by
  unfold layers at h
  obtain ⟨ciphertext,hc,h⟩ := bind_ok h
  obtain ⟨nonce,hn,h⟩ := bind_ok h
  refine ⟨ciphertext,nonce,hc,hn,?_⟩
  cases hq : quickCheck p key ciphertext nonce with
  | true => rfl
  | false => simp [hq] at h

theorem tripPubkey_of_verifyInner {encPayload inner : Val} {post : Post}
    (h : verifyInner p encPayload inner = .ok (some post)) :
    post.tripPubkey = .null ∨ ∃ pubkey, post.tripPubkey = .bytes pubkey := by
  unfold verifyInner at h
  split at h
  · cases h
  obtain ⟨signedData,-,h⟩ := bind_ok h
  split at h
  · cases h
  obtain ⟨trip,-,h⟩ := bind_ok h
  cases trip with
  | refused => cases h
  | absent =>
    cases h
    exact .inl rfl
  | verified pubkey =>
    cases h
    exact .inr ⟨pubkey,rfl⟩

/-- A trip that a post carries has signed the fields that are returned. -/
theorem trip_signs {packet : Val} {key : Bytes} {post : Post}
    (h : verifyAndDecrypt p packet key = .ok (some post)) :
    post.tripPubkey = .null ∨ ∃ l pubkey sig message, layers p packet key = .ok (some l) ∧
      post.tripPubkey = .bytes pubkey ∧ toBytes (l.2.field "trip_sig") = .ok sig ∧
        p.encode post.signedRecord = .ok message ∧
          p.verifyDetached sig message pubkey = some true := by
  obtain ⟨encPayload,inner,hl,hv⟩ := verifyAndDecrypt_some h
  obtain ⟨message,he,hrecord,hsig⟩ := verifyInner_some hv
  rcases tripPubkey_of_verifyInner hv with hnull | ⟨pubkey,hp⟩
  · exact .inl hnull
  · obtain ⟨sig,-,hs,hverified⟩ := hsig pubkey hp
    exact .inr ⟨(encPayload,inner),pubkey,sig,message,hl,hp,hs,hrecord ▸ he,hverified⟩

/-- The writer, the first look and the reader agree, where reading does not throw. -/
theorem readers_agree (hs : Sound p a.signDetached f pair) :
    (∀ (d : Draft) (key nonce : Bytes) (date : Nat) (packet : Val), d.Portable f date →
      pair a.identity.sessionKeyPair → (∀ kp, a.identity.tripKeyPair = some kp → pair kp) →
        build p a d key date nonce = .ok packet →
          verifyAndDecrypt p packet key =
            .ok (some (d.post a.identity (roundToMinute date)))) ∧
      ∀ (packet : Val) (key : Bytes),
        (∀ post, verifyAndDecrypt p packet key = .ok (some post) →
          ∃ ciphertext nonce, toBytes (packet.field "payload") = .ok ciphertext ∧
            toBytes (packet.field "nonce") = .ok nonce ∧
              quickCheck p key ciphertext nonce = true) ∧
        (∀ ciphertext nonce m, decrypt p key ciphertext nonce = some m →
          quickCheck p key ciphertext nonce = true) ∧
        (∀ post, verifyAndDecrypt p packet key = .ok (some post) →
          post.tripPubkey = .null ∨ ∃ l pubkey sig message, layers p packet key = .ok (some l) ∧
            post.tripPubkey = .bytes pubkey ∧ toBytes (l.2.field "trip_sig") = .ok sig ∧
              p.encode post.signedRecord = .ok message ∧
                p.verifyDetached sig message pubkey = some true) ∧
        ∀ l, layers p packet key = .ok (some l) → tripFields l.2 ≠ [] → ¬TripSigned p l.2 →
          (verifyAndDecrypt p packet key = .ok none ↔ Refusable p l.2) := by
  constructor
  · intro d key nonce date packet hd hsession htrip hb
    exact build_opens hs hd hsession htrip hb
  · intro packet key
    refine ⟨fun post h => ?_,fun ciphertext nonce m h => quickCheck_of_decrypt hs h,
      fun post h => trip_signs h,fun l hl htrip hno => ?_⟩
    · obtain ⟨encPayload,inner,hl,-⟩ := verifyAndDecrypt_some h
      exact layers_some hl
    · have hread : verifyAndDecrypt p packet key = verifyInner p l.1 l.2 := by
        simp [verifyAndDecrypt,hl,bind,Except.bind]
      rw [hread]
      exact verifyInner_unsigned htrip hno

end

/-! Libraries that leave everything in the clear. -/

def clearFloat64 : MsgPack.Float64 where
  bytes _ := List.replicate 8 0
  value _ := .nan
  length := MsgPack.zeros_length

def clear : Primitives where
  keystream _ _ := some [0,0,0,0]
  aeadEncrypt _ _ plaintext := plaintext ++ List.replicate 16 0
  aeadDecrypt _ _ ciphertext :=
    if 16 ≤ ciphertext.length then some (ciphertext.take (ciphertext.length-16)) else none
  verifyDetached signature _ publicKey :=
    if publicKey.length = publicKeyBytes ∧ signature.length = signatureBytes then
      some (signature == publicKey ++ List.replicate 32 0) else none
  encode v := match MsgPack.encode clearFloat64 v with
    | some bs => .ok bs
    | none => .error (.error "Unrecognized object")
  decode
    | .bytes bs => MsgPack.decode clearFloat64 bs
    | _ => none

def clearSign (_message privateKey : Bytes) : Bytes :=
  (privateKey ++ List.replicate signatureBytes 0).take signatureBytes

theorem clear_sound : Sound clear clearSign clearFloat64 fun kp =>
    kp.publicKey.length = 32 ∧ kp.privateKey = kp.publicKey where
  opens key nonce plaintext := by simp [clear]
  shorter key nonce ciphertext plaintext h := by
    simp only [clear,Option.ite_none_right_eq_some,Option.some.injEq] at h
    obtain ⟨hlen,rfl⟩ := h
    simp
  stream key nonce ciphertext plaintext stream h hk hlen := by
    simp only [clear,Option.ite_none_right_eq_some,Option.some.injEq] at h hk
    obtain ⟨hge,rfl⟩ := h
    subst hk
    match ciphertext with
    | [] | [_] | [_,_] | [_,_,_] => simp at hge
    | b0 :: b1 :: b2 :: b3 :: bs =>
      have hle : 4 ≤ (b0 :: b1 :: b2 :: b3 :: bs).length-16 := by
        rw [List.length_take] at hlen
        omega
      rw [List.take_take,min_eq_left hle]
      simp
  verifies kp message h := by
    simp [clear,clearSign,h.1,h.2,publicKeyBytes,signatureBytes,List.take_append]
  publicKeyLength kp h := h.1
  signatureLength kp message h := by simp [clearSign]
  decode_encode v bs h hv := by
    simp only [clear] at h ⊢
    cases he : MsgPack.encode clearFloat64 v with
    | none => simp [he] at h
    | some bs' =>
      simp only [he,Except.ok.injEq] at h
      exact h ▸ MsgPack.decode_encode he hv

/-- An author with a trip. -/
def clearAuthor : Author where
  signDetached := clearSign
  cryptoHash _ := List.replicate 64 0
  sha256 _ := List.replicate 32 0
  identity := {
    sessionKeyPair := ⟨List.replicate 32 0,List.replicate 32 0⟩
    tripKeyPair := some ⟨List.replicate 32 1,List.replicate 32 1⟩ }

def clearDraft : Draft where
  content := "text"
  boardId := "board"
  threadId := "thread"
  powDifficulty := .fin 8
  currentDepth := 0

theorem clearDraft_portable : clearDraft.Portable clearFloat64 0 := by
  have hint : ∀ n : Nat, n ≤ 9007199254740991 →
      MsgPack.Portable clearFloat64 (.num (Number.ofNat n)) := by
    intro n hn h
    rw [Number.toSafeInt?_ofNat,if_pos hn] at h
    cases h
  exact ⟨hint 0 (by omega),fun n h => (by cases h),trivial,rfl,hint 0 (by omega),rfl,
    hint 0 (by omega),by omega⟩

/-- The record of the draft with a trip key that is a list of an object with a string method of
its own. -/
def objectRecord : Val :=
  .obj (clearDraft.signedFields 0 ++ [
    ("session_pubkey",.bytes (List.replicate 32 0)),
    ("session_sig",.bytes (List.replicate 64 0)),
    ("trip_pubkey",.arr [.obj [("toString",.null)]]),
    ("trip_sig",.bytes (List.replicate 64 0))])

def objectPacket : Val := .obj [
  ("payload",.bytes (clear.aeadEncrypt [] [] (magic ++ MsgPack.pack clearFloat64
    (clearDraft.encryptedRecord (MsgPack.pack clearFloat64 objectRecord))))),
  ("nonce",.bytes [])]

theorem layers_object :
    layers clear objectPacket [] = .ok (some (clearDraft.encryptedRecord
      (MsgPack.pack clearFloat64 objectRecord),objectRecord)) := by
  have hinner : MsgPack.decode clearFloat64 (MsgPack.pack clearFloat64 objectRecord) =
      some objectRecord := by
    have hp : MsgPack.encode clearFloat64 objectRecord =
        some (MsgPack.pack clearFloat64 objectRecord) := if_pos (by decide +kernel)
    have hzero : (Number.fin 0).toSafeInt? = some 0 := by decide
    have hv : MsgPack.Portable clearFloat64 objectRecord := by
      refine ⟨by decide +kernel,by decide +kernel,?_⟩
      simp [Draft.signedFields,clearDraft,optional,Number.ofNat,hzero,MsgPack.PortableFields,
        MsgPack.PortableAll,MsgPack.Portable,JsMap.keys]
    exact MsgPack.decode_encode hp hv
  have houter : MsgPack.decode clearFloat64 (MsgPack.pack clearFloat64
      (clearDraft.encryptedRecord (MsgPack.pack clearFloat64 objectRecord))) =
        some (clearDraft.encryptedRecord (MsgPack.pack clearFloat64 objectRecord)) := by
    have hp : MsgPack.encode clearFloat64 (clearDraft.encryptedRecord
        (MsgPack.pack clearFloat64 objectRecord)) = some _ := if_pos (by decide +kernel)
    exact MsgPack.decode_encode hp (portable_encrypted clearDraft_portable _)
  exact layers_sealed clear_sound rfl rfl houter rfl hinner

/-- A packet with a trip that has not signed it, and a reader that throws. -/
theorem trip_throws :
    Sound clear clearSign clearFloat64 (fun kp =>
      kp.publicKey.length = 32 ∧ kp.privateKey = kp.publicKey) ∧
    ¬∀ (packet : Val) (key : Bytes) (l : Val × Val), layers clear packet key = .ok (some l) →
      tripFields l.2 ≠ [] → ¬TripSigned clear l.2 →
        verifyAndDecrypt clear packet key = .ok none := by
  refine ⟨clear_sound,fun h => ?_⟩
  have hfields : tripFields objectRecord ≠ [] := by
    intro h
    have hlen : (tripFields objectRecord).length = 2 := by decide +kernel
    simp [h] at hlen
  have hunsigned : ¬TripSigned clear objectRecord := by
    rintro ⟨pubkey,sig,hp,-⟩
    have hthrows : throws (toBytes (objectRecord.field "trip_pubkey")) = true := by decide +kernel
    simp [hp] at hthrows
  have hnull := h objectPacket [] _ layers_object hfields hunsigned
  have hthrows : throws (verifyInner clear (clearDraft.encryptedRecord
      (MsgPack.pack clearFloat64 objectRecord)) objectRecord) = true := by decide +kernel
  simp [verifyAndDecrypt,layers_object,bind,Except.bind] at hnull
  simp [hnull] at hthrows

theorem build_clear :
    throws (build clear clearAuthor clearDraft (List.replicate 32 0) 0 []) = false := by
  decide +kernel

theorem readers_agree_clear :
    ∃ packet, build clear clearAuthor clearDraft (List.replicate 32 0) 0 [] = .ok packet ∧
      verifyAndDecrypt clear packet (List.replicate 32 0) =
        .ok (some (clearDraft.post clearAuthor.identity 0)) ∧
      ∀ l, layers clear packet (List.replicate 32 0) = .ok (some l) → tripFields l.2 ≠ [] →
        ¬TripSigned clear l.2 → (verifyAndDecrypt clear packet (List.replicate 32 0) = .ok none ↔
          Refusable clear l.2) := by
  obtain ⟨packet,hb⟩ := throws_eq_false build_clear
  have hs : Sound clear clearAuthor.signDetached clearFloat64 fun kp =>
      kp.publicKey.length = 32 ∧ kp.privateKey = kp.publicKey := clear_sound
  have hagree := readers_agree hs
  refine ⟨packet,hb,?_,(hagree.2 packet (List.replicate 32 0)).2.2.2⟩
  exact hagree.1 clearDraft (List.replicate 32 0) [] 0 packet clearDraft_portable
    (by decide +kernel) (by
      intro kp hk
      cases hk
      decide +kernel) hb

end PacketBuilder
