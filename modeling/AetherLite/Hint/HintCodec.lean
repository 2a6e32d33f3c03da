import AetherLite.Hint.HintCrypto
import AetherLite.Common.JsonBinary
import AetherLite.Lib.JsOps

/-! Hints, slots and payloads as byte strings: each decoder is the inverse of its encoder. -/
set_option autoImplicit false

namespace Hint

open Js PowPolicy

/-- An integer that is not negative and not above a limit. -/
def upTo? (limit : Nat) (n : Option Int) : Option { k : Nat // k ≤ limit } :=
  n.bind fun i => if h : i.toNat ≤ limit then if 0 ≤ i then some ⟨i.toNat,h⟩ else none else none

/-- The bytes of a field, if they can be had and are as long as they should be. -/
def sized? (length : Nat) (bs : Except Thrown Bytes) : Option { bs : Bytes // bs.length = length } :=
  bs.toOption.bind fun bs => if h : bs.length = length then some ⟨bs,h⟩ else none

/-- A received object, if it has the form of a hint. -/
def parseHintPacket (raw : Val) : Option HintPacket :=
  if !raw.isObject then none
  else if !(raw.field "version").strictEq (.num (Number.ofNat hintVersion)) then none
  else do
    let ⟨ttl,ttl_le⟩ ← upTo? 255 (integer? (raw.field "ttl"))
    let ⟨powNonce,powNonce_le⟩ ← upTo? maxSafeNat (safeInteger? (raw.field "pow_nonce"))
    let ⟨blindTag,blindTag_length⟩ ← sized? blindTagSize (toBytes (raw.field "blind_tag"))
    let ⟨nonce,nonce_length⟩ ← sized? hintNonceSize (toBytes (raw.field "nonce"))
    let ⟨ciphertext,ciphertext_length⟩ ← sized? hintCiphertextSize (toBytes (raw.field "ciphertext"))
    some { ttl, blindTag, nonce, powNonce, ciphertext,
           ttl_le, blindTag_length, nonce_length, powNonce_le, ciphertext_length }

/-- The fields of a hint as an object. -/
def fields (version ttl : Nat) (blindTag nonce : Bytes) (powNonce : Nat) (ciphertext : Bytes) : Val :=
  .obj [("version",.num (Number.ofNat version)),("ttl",.num (Number.ofNat ttl)),
    ("blind_tag",.bytes blindTag),("nonce",.bytes nonce),
    ("pow_nonce",.num (Number.ofNat powNonce)),("ciphertext",.bytes ciphertext)]

def HintPacket.toVal (h : HintPacket) : Val :=
  fields hintVersion h.ttl h.blindTag h.nonce h.powNonce h.ciphertext

/-- A payload as the callers of the encoder pass it. -/
structure RawPayload where
  nonce : Bytes
  messageId : Number
  timestamp : Number

def HintPayload.raw (p : HintPayload) : RawPayload where
  nonce := p.nonce
  messageId := Number.ofNat p.messageId
  timestamp := Number.ofNat p.timestamp

def encodeHintPayload (fmt : Format) (p : RawPayload) : Except Thrown Bytes := do
  if p.nonce.length ≠ mailboxNonceSize then
    throw (.rangeError "encodeHintPayload: nonce must be 32 bytes")
  let messageId ← inRange p.messageId.toSafeInt? Number.maxSafeInteger
    (.rangeError ("encodeHintPayload: invalid message_id " ++ fmt.number p.messageId))
  let timestamp ← inRange p.timestamp.toSafeInt? Number.maxSafeInteger
    (.rangeError ("encodeHintPayload: invalid timestamp " ++ fmt.number p.timestamp))
  .ok (p.nonce ++ Bytes.bigEndian 8 messageId ++ Bytes.bigEndian 8 timestamp)

theorem upTo?_ofNat (limit n : Nat) :
    upTo? limit (some (n : Int)) = if h : n ≤ limit then some ⟨n,h⟩ else none := by
  simp [upTo?]

theorem sized?_ok (length : Nat) (bs : Bytes) :
    sized? length (.ok bs) = if h : bs.length = length then some ⟨bs,h⟩ else none := rfl

/-- What has the fields of a hint is read as that hint. -/
theorem parseHintPacket_toVal (h : HintPacket) : parseHintPacket h.toVal = some h := by
  have hversion : (h.toVal.field "version").strictEq (.num (Number.ofNat hintVersion)) = true := rfl
  have hpow : safeInteger? (h.toVal.field "pow_nonce") = some (h.powNonce : Int) := by
    show (Number.ofNat h.powNonce).toSafeInt? = _
    have hle : h.powNonce ≤ 9007199254740991 := h.powNonce_le
    rw [Number.toSafeInt?_ofNat,if_pos hle]
  have httl : integer? (h.toVal.field "ttl") = some (h.ttl : Int) := Number.toInt?_ofNat h.ttl
  have htag : toBytes (h.toVal.field "blind_tag") = .ok h.blindTag := rfl
  have hnonce : toBytes (h.toVal.field "nonce") = .ok h.nonce := rfl
  have hct : toBytes (h.toVal.field "ciphertext") = .ok h.ciphertext := rfl
  unfold parseHintPacket
  rw [hversion,hpow,httl,htag,hnonce,hct]
  simp [HintPacket.toVal,fields,Val.isObject,upTo?_ofNat,sized?_ok,h.ttl_le,h.powNonce_le,
    h.blindTag_length,h.nonce_length,h.ciphertext_length]

/-- The object that is built of the bytes of a hint. -/
def decodedFields (bs : Bytes) : Val :=
  fields (Bytes.toNat (bs.take 1)) (bs.getD 1 0).toNat ((bs.drop 2).take 4) ((bs.drop 6).take 12)
    (Bytes.toNat ((bs.drop 18).take 8)) (bs.drop 26)

/-- `decodeHint` leaves the checks to `parseHintPacket`, but for the length and the
proof-of-work nonce, which might be none that a Number can hold. -/
theorem decodeHint_eq (bs : Bytes) : decodeHint bs =
    if bs.length ≠ encodedHintSize then none
    else if maxSafeNat < Bytes.toNat ((bs.drop 18).take 8) then none
    else parseHintPacket (decodedFields bs) := by
  unfold decodeHint
  by_cases hlen : bs.length = encodedHintSize
  · rw [dif_pos hlen,if_neg (not_not.mpr hlen)]
    by_cases hpow : Bytes.toNat ((bs.drop 18).take 8) ≤ maxSafeNat
    · rw [dif_pos hpow,if_neg (Nat.not_lt.mpr hpow)]
      by_cases hv : Bytes.toNat (bs.take 1) = hintVersion
      · rw [if_pos hv,decodedFields,hv]
        exact (parseHintPacket_toVal _).symm
      · have hversion : ((decodedFields bs).field "version").strictEq
            (.num (Number.ofNat hintVersion)) = false := by
          rw [← Bool.not_eq_true]
          intro he
          have hnum := Val.eq_of_strictEq he
          have hcast : ((Bytes.toNat (bs.take 1) : Nat) : Rat) = (hintVersion : Nat) := by
            simpa [decodedFields,fields,Val.field,JsMap.get,Number.ofNat] using hnum
          exact hv (by exact_mod_cast hcast)
        rw [if_neg hv,parseHintPacket,hversion]
        simp
    · rw [dif_neg hpow,if_pos (Nat.lt_of_not_le hpow)]
      simp
  · rw [dif_neg hlen,if_pos hlen]

theorem bigEndian_one (n : Nat) : Bytes.bigEndian 1 n = [UInt8.ofNat n] := rfl

theorem encodeHint_length (h : HintPacket) : (encodeHint h).length = encodedHintSize := by
  simp [encodeHint,encodedHintSize,h.blindTag_length,h.nonce_length,h.ciphertext_length]
  omega

/-- The bytes of the proof-of-work nonce. -/
theorem encodeHint_powNonce (h : HintPacket) :
    Bytes.toNat (((encodeHint h).drop 18).take 8) = h.powNonce := by
  have htag : h.blindTag.length = 4 := h.blindTag_length
  have hnonce : h.nonce.length = 12 := h.nonce_length
  have hlt : h.powNonce < 256^8 := by
    have hle := h.powNonce_le
    unfold maxSafeNat at hle
    omega
  have hcut : ((encodeHint h).drop 18).take 8 = Bytes.bigEndian 8 h.powNonce := by
    simp [encodeHint,bigEndian_one,List.drop_append,htag,hnonce,
      List.drop_of_length_le]
  rw [hcut,Bytes.toNat_bigEndian hlt]

theorem decodedFields_encodeHint (h : HintPacket) : decodedFields (encodeHint h) = h.toVal := by
  have htag : h.blindTag.length = 4 := h.blindTag_length
  have hnonce : h.nonce.length = 12 := h.nonce_length
  have httl : h.ttl % 256 = h.ttl := Nat.mod_eq_of_lt (Nat.lt_succ_of_le h.ttl_le)
  have hversion : Bytes.toNat [UInt8.ofNat hintVersion] = hintVersion := rfl
  rw [decodedFields,encodeHint_powNonce,HintPacket.toVal]
  simp [encodeHint,bigEndian_one,List.drop_append,htag,hnonce,httl,hversion,
    List.drop_of_length_le]

theorem decodeHint_encodeHint (h : HintPacket) : decodeHint (encodeHint h) = some h := by
  rw [decodeHint_eq,if_neg (not_not.mpr (encodeHint_length h)),encodeHint_powNonce,
    if_neg (Nat.not_lt.mpr h.powNonce_le),decodedFields_encodeHint,parseHintPacket_toVal]

/-- A piece that is cut out and what follows it. -/
theorem take_append_rest (bs : Bytes) (a b : Nat) :
    (bs.drop a).take b ++ bs.drop (a+b) = bs.drop a := by
  rw [← List.drop_drop,List.take_append_drop]

theorem encodeHint_of_decode {bs : Bytes} {h : HintPacket} (hd : decodeHint bs = some h) :
    encodeHint h = bs := by
  unfold decodeHint at hd
  split at hd
  · next hlen =>
    split at hd
    · next hv =>
      split at hd
      · cases hd
        have hsize : bs.length = 90 := hlen
        have hversion : Bytes.bigEndian 1 hintVersion = bs.take 1 := by
          rw [← hv,Bytes.bigEndian_toNat (by simp [hsize])]
        have httl : Bytes.bigEndian 1 (bs.getD 1 0).toNat = (bs.drop 1).take 1 := by
          match bs,hsize with
          | a :: b :: bs,_ => simp [bigEndian_one]
        have hpow : Bytes.bigEndian 8 (Bytes.toNat ((bs.drop 18).take 8)) = (bs.drop 18).take 8 :=
          Bytes.bigEndian_toNat (by simp [hsize])
        simp only [encodeHint,hversion,httl,hpow,List.append_assoc]
        rw [take_append_rest bs 18 8,take_append_rest bs 6 12,take_append_rest bs 2 4,
          take_append_rest bs 1 1,List.take_append_drop]
      · cases hd
    · cases hd
  · cases hd

theorem decodeHint_iff {h : HintPacket} {bs : Bytes} : decodeHint bs = some h ↔ encodeHint h = bs :=
  ⟨encodeHint_of_decode,fun he => he ▸ decodeHint_encodeHint h⟩

theorem encodeSlotBlob_length (h : HintPacket) (body : Bytes) :
    (encodeSlotBlob h body).length = 4+encodedHintSize+body.length := by
  simp [encodeSlotBlob,encodeHint_length]

theorem decodeSlotBlob_encode (h : HintPacket) (body : Bytes) :
    decodeSlotBlob (encodeSlotBlob h body) = some ⟨h,body⟩ := by
  have hlen := encodeHint_length h
  have hhead : (encodeSlotBlob h body).take 4 = Bytes.bigEndian 4 encodedHintSize := by
    simp [encodeSlotBlob,Bytes.lengthPrefixed,hlen]
  have hhint : ((encodeSlotBlob h body).drop 4).take encodedHintSize = encodeHint h := by
    simp [encodeSlotBlob,Bytes.lengthPrefixed,hlen]
  have hbody : (encodeSlotBlob h body).drop (4+encodedHintSize) = body := by
    simp [encodeSlotBlob,Bytes.lengthPrefixed,hlen,List.drop_append]
  have hsize : Bytes.toNat (Bytes.bigEndian 4 encodedHintSize) = encodedHintSize := rfl
  have htotal := encodeSlotBlob_length h body
  unfold decodeSlotBlob
  rw [if_neg (by omega),hhead,hsize,if_neg (by simp),if_neg (by omega),hhint,hbody,
    decodeHint_encodeHint]
  rfl

theorem encodeSlotBlob_of_decode {bs : Bytes} {slot : SlotBlob} (hd : decodeSlotBlob bs = some slot) :
    encodeSlotBlob slot.hint slot.body = bs := by
  unfold decodeSlotBlob at hd
  split at hd
  · cases hd
  split at hd
  · cases hd
  · next hlen hsize =>
    split at hd
    · cases hd
    · next hrest =>
      obtain ⟨hint,hh,rfl⟩ := Option.map_eq_some_iff.mp hd
      have hsize := not_not.mp hsize
      have hhead : Bytes.bigEndian 4 encodedHintSize = bs.take 4 := by
        rw [← hsize,Bytes.bigEndian_toNat (by simp; omega)]
      have hcut : (bs.drop 4).take encodedHintSize = encodeHint hint := (decodeHint_iff.mp hh).symm
      rw [encodeSlotBlob,Bytes.lengthPrefixed,encodeHint_length,hhead,← hcut,List.append_assoc,
        take_append_rest,List.take_append_drop]

theorem decodeSlotBlob_iff {slot : SlotBlob} {bs : Bytes} :
    decodeSlotBlob bs = some slot ↔ encodeSlotBlob slot.hint slot.body = bs :=
  ⟨encodeSlotBlob_of_decode,fun he => he ▸ decodeSlotBlob_encode slot.hint slot.body⟩

/-- A slot begins with a zero byte, that of the length of its hint. -/
theorem decodeSlotBlob_zero {bs : Bytes} {slot : SlotBlob} (hd : decodeSlotBlob bs = some slot) :
    ∃ rest, bs = 0 :: rest := by
  rw [← encodeSlotBlob_of_decode hd,encodeSlotBlob,Bytes.lengthPrefixed,encodeHint_length]
  exact ⟨_,rfl⟩

section
variable {fmt : Format}

theorem inRange_iff {n : Number} {e : Thrown} {k : Nat} :
    inRange n.toSafeInt? Number.maxSafeInteger e = .ok k ↔ n = Number.ofNat k ∧ k ≤ maxSafeNat := by
  constructor
  · intro h
    obtain ⟨hn,hk⟩ := inRange_ok h
    obtain ⟨rfl,-⟩ := Number.toSafeInt?_eq_some hn
    unfold Number.maxSafeInteger at hk
    exact ⟨by simp [Number.ofInt,Number.ofNat],by unfold maxSafeNat; omega⟩
  · rintro ⟨rfl,hk⟩
    have hk : k ≤ 9007199254740991 := hk
    have hle : (k : Int) ≤ Number.maxSafeInteger := by
      unfold Number.maxSafeInteger
      omega
    simp [inRange,Number.toSafeInt?_ofNat,hk,hle]

/-- The encoder takes what has the form of a payload. -/
theorem encodeHintPayload_iff {p : RawPayload} {bs : Bytes} :
    encodeHintPayload fmt p = .ok bs ↔ ∃ q : HintPayload, q.raw = p ∧
      q.nonce ++ Bytes.bigEndian 8 q.messageId ++ Bytes.bigEndian 8 q.timestamp = bs := by
  constructor
  · intro h
    by_cases hlen : p.nonce.length = mailboxNonceSize
    · simp only [encodeHintPayload,hlen,ne_eq,not_true_eq_false,if_false] at h
      obtain ⟨m,hm,h⟩ := bind_ok h
      obtain ⟨t,ht,h⟩ := bind_ok h
      cases h
      obtain ⟨hm,hmle⟩ := inRange_iff.mp hm
      obtain ⟨ht,htle⟩ := inRange_iff.mp ht
      exact ⟨⟨p.nonce,m,t,hlen,hmle,htle⟩,by simp [HintPayload.raw,← hm,← ht],rfl⟩
    · simp [encodeHintPayload,hlen,throw,throwThe,MonadExceptOf.throw,bind,Except.bind] at h
  · rintro ⟨q,rfl,rfl⟩
    have hm := inRange_iff (e := .rangeError ("encodeHintPayload: invalid message_id " ++
      fmt.number (Number.ofNat q.messageId))) |>.mpr ⟨rfl,q.messageId_le⟩
    have ht := inRange_iff (e := .rangeError ("encodeHintPayload: invalid timestamp " ++
      fmt.number (Number.ofNat q.timestamp))) |>.mpr ⟨rfl,q.timestamp_le⟩
    simp [encodeHintPayload,HintPayload.raw,q.nonce_length,hm,ht,bind,Except.bind]

theorem decodeHintPayload_iff {q : HintPayload} {bs : Bytes} : decodeHintPayload bs = some q ↔
    q.nonce ++ Bytes.bigEndian 8 q.messageId ++ Bytes.bigEndian 8 q.timestamp = bs := by
  have hnonce : q.nonce.length = 32 := q.nonce_length
  constructor
  · intro hd
    unfold decodeHintPayload at hd
    split at hd
    · next hlen =>
      split at hd
      · split at hd
        · cases hd
          have hsize : bs.length = 48 := hlen
          have hm : Bytes.bigEndian 8 (Bytes.toNat ((bs.drop 32).take 8)) = (bs.drop 32).take 8 :=
            Bytes.bigEndian_toNat (by simp [hsize])
          have ht : Bytes.bigEndian 8 (Bytes.toNat ((bs.drop 40).take 8)) = bs.drop 40 := by
            rw [List.take_of_length_le (by simp [hsize]),Bytes.bigEndian_toNat (by simp [hsize])]
          simp only [mailboxNonceSize,Nat.reduceAdd,hm,ht,List.append_assoc]
          rw [take_append_rest bs 32 8,List.take_append_drop]
        · cases hd
      · cases hd
    · cases hd
  · rintro rfl
    have hm : Bytes.toNat (Bytes.bigEndian 8 q.messageId) = q.messageId := by
      have hle := q.messageId_le
      unfold maxSafeNat at hle
      rw [Bytes.toNat_bigEndian (by omega)]
    have ht : Bytes.toNat (Bytes.bigEndian 8 q.timestamp) = q.timestamp := by
      have hle := q.timestamp_le
      unfold maxSafeNat at hle
      rw [Bytes.toNat_bigEndian (by omega)]
    have htake : (Bytes.bigEndian 8 q.timestamp).take 8 = Bytes.bigEndian 8 q.timestamp :=
      List.take_of_length_le (by simp)
    simp [decodeHintPayload,mailboxNonceSize,hintPlaintextSize,hnonce,hm,ht,htake,q.messageId_le,
      q.timestamp_le,List.drop_append,List.drop_of_length_le]

end

def zeroHint : HintPacket where
  ttl := 8
  blindTag := List.replicate 4 0
  nonce := List.replicate 12 0
  powNonce := 7
  ciphertext := List.replicate 64 0
  ttl_le := hintInitialTtl_le
  blindTag_length := rfl
  nonce_length := zeroNonce_length
  powNonce_le := by decide
  ciphertext_length := rfl

end Hint
