import AetherLite.Lib.JsValue
import AetherLite.Lib.Sha256

/-! The proof of work and the content id of a gossip packet, over the SHA-256 the
caller gives. -/
set_option autoImplicit false

namespace PowPolicy

open Js

def minDifficulty : Nat := 8
def maxDifficulty : Nat := 32
def networkDifficulty : Nat := 12
def maxPayloadSize : Nat := 2*1024
def nonceSize : Nat := 12
def maxTimeDrift : Nat := 15*60*1000
def maxHopCount : Nat := 30

/-- "AETHER/v3/gossip" -/
def gossipDomain : Bytes :=
  [0x41,0x45,0x54,0x48,0x45,0x52,0x2f,0x76,0x33,0x2f,0x67,0x6f,0x73,0x73,0x69,0x70]

/-- The fields a proof of work and a packet id commit to. -/
structure PowCommittedHeader where
  timestamp : Val
  zoneId : Val
  powDifficulty : Val
  nonce : Bytes
  payload : Bytes

/-- A decoded byte string may be a Uint8Array, an array of numbers or `{data: [...]}`. -/
def toBytes (value : Val) : Except Thrown Bytes :=
  match value with
  | .bytes bs => .ok bs
  | .arr xs => Val.uint8ArrayFrom xs
  | .obj fs =>
    match (Val.obj fs).field "data" with
    | .arr xs => Val.uint8ArrayFrom xs
    | _ => .ok []
  | _ => .ok []

/-- `Number.isInteger(v)`, with the integer. -/
def integer? : Val → Option Int
  | .num n => n.toInt?
  | _ => none

/-- `Number.isSafeInteger(v)`, with the integer. -/
def safeInteger? : Val → Option Int
  | .num n => n.toSafeInt?
  | _ => none

def inRange (n : Option Int) (limit : Int) (e : Thrown) : Except Thrown Nat :=
  match n with
  | some i => if 0 ≤ i ∧ i ≤ limit then .ok i.toNat else .error e
  | none => .error e

def preimageBytes (timestamp zoneId difficulty : Nat) (nonce payload : Bytes) : Bytes :=
  gossipDomain ++ Bytes.bigEndian 8 timestamp ++ Bytes.bigEndian 4 zoneId ++
    Bytes.bigEndian 1 difficulty ++ Bytes.lengthPrefixed 2 nonce ++ Bytes.lengthPrefixed 4 payload

def powPreimage (header : PowCommittedHeader) : Except Thrown Bytes := do
  let timestamp ← inRange (safeInteger? header.timestamp) Number.maxSafeInteger
    (.rangeError "powPreimage: invalid timestamp")
  let zoneId ← inRange (integer? header.zoneId) 0xffffffff
    (.rangeError "powPreimage: invalid zone_id")
  let difficulty ← inRange (integer? header.powDifficulty) 255
    (.rangeError "powPreimage: invalid pow_difficulty")
  if header.nonce.length > 0xffff then .error (.rangeError "powPreimage: nonce too long")
  else if header.payload.length > 0xffffffff then
    .error (.rangeError "powPreimage: payload too long")
  else .ok (preimageBytes timestamp zoneId difficulty header.nonce header.payload)

/-- Whether the hash starts with `difficulty` zero bits. -/
def meetsDifficulty (hash : Bytes) (difficulty : Nat) : Bool :=
  if difficulty = 0 then true
  else if difficulty > hash.length*8 then false
  else
    (hash.take (difficulty/8)).all (· == 0) &&
      (difficulty % 8 = 0 ||
        (hash.getD (difficulty/8) 0).toNat/2^(8-difficulty % 8) = 0)

/-- Whether a value stands for bytes but holds an element without a Number. -/
def hasNumberless (value : Val) : Bool :=
  match value with
  | .arr xs => xs.any Val.toNumberThrows
  | .obj fs =>
    match (Val.obj fs).field "data" with
    | .arr xs => xs.any Val.toNumberThrows
    | _ => false
  | _ => false

theorem throws_uint8ArrayFrom (xs : List Val) :
    throws (Val.uint8ArrayFrom xs) = xs.any Val.toNumberThrows := by
  rw [Val.uint8ArrayFrom,throws_mapM]
  congr 1
  funext x
  rw [← Val.throws_toNumber]
  cases x.toNumber <;> rfl

theorem throws_toBytes (value : Val) : throws (toBytes value) = hasNumberless value := by
  unfold toBytes hasNumberless
  cases value with
  | arr xs => exact throws_uint8ArrayFrom xs
  | obj fs =>
    dsimp only
    split
    · next xs heq => simpa [heq] using throws_uint8ArrayFrom xs
    · rfl
  | _ => rfl

section
variable (sha256 : Bytes → Bytes)

def powHash (preimage : Bytes) (powNonce : Nat) : Bytes :=
  sha256 (preimage ++ Bytes.bigEndian 8 powNonce)

def derivePacketId (header : PowCommittedHeader) : Except Thrown String := do
  .ok (Bytes.toHex (sha256 (← powPreimage header)))

/-- The comparisons convert the claimed difficulty; a header without a preimage has
no proof of work. -/
def verifyPow (header : PowCommittedHeader) (powNonce : Nat) : Except Thrown Bool := do
  let difficulty ← header.powDifficulty.number
  if difficulty.lt (Number.ofNat minDifficulty) then .ok false
  else if (Number.ofNat maxDifficulty).lt difficulty then .ok false
  else match powPreimage header,integer? header.powDifficulty with
    | .ok preimage,some d => .ok (meetsDifficulty (powHash sha256 preimage powNonce) d.toNat)
    | _,_ => .ok false

end

theorem inRange_ok {n : Option Int} {limit : Int} {e : Thrown} {k : Nat}
    (h : inRange n limit e = .ok k) : n = some (k : Int) ∧ (k : Int) ≤ limit := by
  unfold inRange at h
  split at h
  · next i =>
    split at h
    · next hi =>
      have hk : i.toNat = k := by simpa using h
      have hki : (k : Int) = i := by omega
      rw [hki]
      exact ⟨rfl,hi.2⟩
    · cases h
  · cases h

theorem integer?_num {v : Val} {i : Int} (h : integer? v = some i) : v = .num (Number.ofInt i) := by
  cases v with
  | num n => rw [Number.toInt?_eq_some h]
  | _ => cases h

theorem safeInteger?_num {v : Val} {i : Int} (h : safeInteger? v = some i) :
    v = .num (Number.ofInt i) := by
  cases v with
  | num n => rw [(Number.toSafeInt?_eq_some h).1]
  | _ => cases h

/-- What a preimage says of its header. -/
structure Committed (header : PowCommittedHeader) (timestamp zoneId difficulty : Nat) : Prop where
  timestamp_eq : header.timestamp = .num (Number.ofInt timestamp)
  zoneId_eq : header.zoneId = .num (Number.ofInt zoneId)
  difficulty_eq : header.powDifficulty = .num (Number.ofInt difficulty)
  timestamp_lt : timestamp < 256^8
  zoneId_lt : zoneId < 256^4
  difficulty_lt : difficulty < 256^1
  nonce_lt : header.nonce.length < 256^2
  payload_lt : header.payload.length < 256^4

theorem powPreimage_ok {header : PowCommittedHeader} {preimage : Bytes}
    (h : powPreimage header = .ok preimage) :
    ∃ t z d, Committed header t z d ∧
      preimage = preimageBytes t z d header.nonce header.payload := by
  unfold powPreimage at h
  cases ht : inRange (safeInteger? header.timestamp) Number.maxSafeInteger
      (.rangeError "powPreimage: invalid timestamp") with
  | error e => simp [ht,bind,Except.bind] at h
  | ok t =>
    cases hz : inRange (integer? header.zoneId) 0xffffffff
        (.rangeError "powPreimage: invalid zone_id") with
    | error e => simp [ht,hz,bind,Except.bind] at h
    | ok z =>
      cases hd : inRange (integer? header.powDifficulty) 255
          (.rangeError "powPreimage: invalid pow_difficulty") with
      | error e => simp [ht,hz,hd,bind,Except.bind] at h
      | ok d =>
        simp only [ht,hz,hd,bind,Except.bind] at h
        split at h
        · cases h
        · next hn =>
          split at h
          · cases h
          · next hp =>
            obtain ⟨ht,htl⟩ := inRange_ok ht
            obtain ⟨hz,hzl⟩ := inRange_ok hz
            obtain ⟨hd,hdl⟩ := inRange_ok hd
            have htl' : (t : Int) ≤ 9007199254740991 := htl
            refine ⟨t,z,d,⟨safeInteger?_num ht,integer?_num hz,integer?_num hd,?_,?_,?_,?_,?_⟩,?_⟩
            · omega
            · omega
            · omega
            · omega
            · omega
            · exact (Except.ok.inj h).symm

theorem preimageBytes_inj {t z d t' z' d' : Nat} {n p n' p' : Bytes}
    (ht : t < 256^8 ∧ t' < 256^8) (hz : z < 256^4 ∧ z' < 256^4) (hd : d < 256^1 ∧ d' < 256^1)
    (hn : n.length < 256^2 ∧ n'.length < 256^2) (hp : p.length < 256^4 ∧ p'.length < 256^4)
    (h : preimageBytes t z d n p = preimageBytes t' z' d' n' p') :
    t = t' ∧ z = z' ∧ d = d' ∧ n = n' ∧ p = p' := by
  simp only [preimageBytes,List.append_assoc] at h
  have h := List.append_cancel_left h
  obtain ⟨htt,h⟩ := List.append_inj h (by simp)
  obtain ⟨hzz,h⟩ := List.append_inj h (by simp)
  obtain ⟨hdd,h⟩ := List.append_inj h (by simp)
  obtain ⟨hnn,h⟩ := Bytes.lengthPrefixed_append_inj hn.1 hn.2 h
  have hpp := Bytes.lengthPrefixed_append_inj (c := []) (d := []) hp.1 hp.2 (by simpa using h)
  exact ⟨Bytes.bigEndian_inj ht.1 ht.2 htt,Bytes.bigEndian_inj hz.1 hz.2 hzz,
    Bytes.bigEndian_inj hd.1 hd.2 hdd,hnn,hpp.1⟩

/-- A header that has a packet id is compared without a conversion that throws. -/
theorem verifyPow_total {sha256 : Bytes → Bytes} {header : PowCommittedHeader} {packetId : String}
    (h : derivePacketId sha256 header = .ok packetId) (powNonce : Nat) :
    throws (verifyPow sha256 header powNonce) = false := by
  unfold derivePacketId at h
  cases hp : powPreimage header with
  | error e => simp [hp,bind,Except.bind] at h
  | ok preimage =>
    obtain ⟨t,z,d,hc,-⟩ := powPreimage_ok hp
    have hn : header.powDifficulty.number = .ok (Number.ofInt d) := by rw [hc.difficulty_eq]; rfl
    unfold verifyPow
    rw [hn]
    dsimp only [bind,Except.bind]
    split
    · rfl
    split
    · rfl
    split <;> rfl

end PowPolicy
