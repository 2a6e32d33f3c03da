import AetherLite.Crypto.PowPolicy

/-! What a relay checks of a packet without any key. -/
set_option autoImplicit false

namespace PacketValidator

open Js PowPolicy

inductive RejectReason where
  | malformed
  | badPacketIdType
  | badTimestamp
  | badPayloadSize
  | badNonceSize
  | badHopCount
  | badPowNonce
  | timeDrift
  | packetIdMismatch
  | insufficientPow
  deriving DecidableEq, Repr

inductive ValidationResult where
  | ok
  | fail (reason : RejectReason)
  deriving DecidableEq, Repr

structure ValidateOptions where
  now : Int
  allowStale : Bool := false

/-- The part of a packet that its proof of work and id commit to. The conversions to
bytes may throw. -/
def committedHeaderOf (packet : Val) : Except Thrown PowCommittedHeader := do
  let nonce ← toBytes (packet.field "nonce")
  let payload ← toBytes (packet.field "payload")
  .ok ⟨packet.field "timestamp",packet.field "zone_id",packet.field "pow_difficulty",nonce,payload⟩

/-- A string of 64 code units. -/
def packetId? : Val → Option String
  | .str s => if utf16Length s = 64 then some s else none
  | _ => none

def nonNegative? (n : Option Int) : Option Nat :=
  n.bind fun i => if 0 ≤ i then some i.toNat else none

def timestamp? (packet : Val) : Option Nat := nonNegative? (safeInteger? (packet.field "timestamp"))

/-- The checks after the header has been read. -/
def checkHeader (sha256 : Bytes → Bytes) (opts : ValidateOptions) (packet : Val)
    (packetId : String) (timestamp : Nat) (header : PowCommittedHeader) :
    Except Thrown ValidationResult :=
  if header.payload.length = 0 ∨ header.payload.length > maxPayloadSize then
    .ok (.fail .badPayloadSize)
  else if header.nonce.length ≠ nonceSize then .ok (.fail .badNonceSize)
  else match nonNegative? (integer? (packet.field "hop_count")) with
  | none => .ok (.fail .badHopCount)
  | some hopCount =>
    if hopCount > maxHopCount then .ok (.fail .badHopCount)
    else match nonNegative? (safeInteger? (packet.field "pow_nonce")) with
    | none => .ok (.fail .badPowNonce)
    | some powNonce =>
      if timestamp-opts.now > maxTimeDrift then .ok (.fail .timeDrift)
      else if ¬opts.allowStale ∧ opts.now-timestamp > maxTimeDrift then .ok (.fail .timeDrift)
      else match derivePacketId sha256 header with
      | .error _ => .ok (.fail .malformed)
      | .ok expectedId =>
        if expectedId ≠ packetId then .ok (.fail .packetIdMismatch)
        else do
          if ← verifyPow sha256 header powNonce then .ok .ok else .ok (.fail .insufficientPow)

def check (sha256 : Bytes → Bytes) (packet : Val) (opts : ValidateOptions) :
    Except Thrown ValidationResult :=
  if !packet.isObject then .ok (.fail .malformed)
  else match packetId? (packet.field "packet_id") with
  | none => .ok (.fail .badPacketIdType)
  | some packetId =>
    match timestamp? packet with
    | none => .ok (.fail .badTimestamp)
    | some timestamp => do
      checkHeader sha256 opts packet packetId timestamp (← committedHeaderOf packet)

theorem throws_committedHeaderOf (packet : Val) : throws (committedHeaderOf packet) =
    (hasNumberless (packet.field "nonce") || hasNumberless (packet.field "payload")) := by
  rw [← throws_toBytes,← throws_toBytes]
  unfold committedHeaderOf
  cases toBytes (packet.field "nonce") with
  | error e => rfl
  | ok nonce =>
    cases toBytes (packet.field "payload") with
    | error e => rfl
    | ok payload => rfl

theorem throws_checkHeader {sha256 : Bytes → Bytes} (opts : ValidateOptions) (packet : Val)
    (packetId : String) (timestamp : Nat) (header : PowCommittedHeader) :
    throws (checkHeader sha256 opts packet packetId timestamp header) = false := by
  unfold checkHeader
  split
  · rfl
  split
  · rfl
  cases nonNegative? (integer? (packet.field "hop_count")) with
  | none => rfl
  | some hopCount =>
    dsimp only
    split
    · rfl
    cases nonNegative? (safeInteger? (packet.field "pow_nonce")) with
    | none => rfl
    | some powNonce =>
      dsimp only
      split
      · rfl
      split
      · rfl
      cases hid : derivePacketId sha256 header with
      | error e => rfl
      | ok expectedId =>
        dsimp only
        split
        · rfl
        · obtain ⟨b,hb⟩ := throws_eq_false (verifyPow_total hid powNonce)
          rw [hb]
          cases b <;> rfl

/-- The check throws on exactly the packets that get as far as their header and hold
an element without a Number in its byte fields. -/
theorem throws_check {sha256 : Bytes → Bytes} (packet : Val) (opts : ValidateOptions) :
    throws (check sha256 packet opts) =
      (packet.isObject && (packetId? (packet.field "packet_id")).isSome &&
        (timestamp? packet).isSome &&
        (hasNumberless (packet.field "nonce") || hasNumberless (packet.field "payload"))) := by
  unfold check
  cases packet.isObject with
  | false => rfl
  | true =>
    cases packetId? (packet.field "packet_id") with
    | none => rfl
    | some packetId =>
      cases timestamp? packet with
      | none => rfl
      | some timestamp =>
        rw [← throws_committedHeaderOf]
        cases committedHeaderOf packet with
        | error e => rfl
        | ok header => exact throws_checkHeader opts packet packetId timestamp header

/-- The bytes that the id of a packet is the hash of. -/
def preimage? (packet : Val) : Option Bytes :=
  match committedHeaderOf packet with
  | .ok header => (powPreimage header).toOption
  | .error _ => none

/-- What a packet that passes shows of its time and its id. -/
structure Valid (sha256 : Bytes → Bytes) (packet : Val) (opts : ValidateOptions) (id : String)
    (timestamp : Nat) (preimage : Bytes) : Prop where
  id_eq : packetId? (packet.field "packet_id") = some id
  timestamp_eq : timestamp? packet = some timestamp
  preimage_eq : preimage? packet = some preimage
  id_hash : id = Bytes.toHex (sha256 preimage)
  not_future : timestamp-opts.now ≤ maxTimeDrift
  not_stale : opts.allowStale = true ∨ opts.now-timestamp ≤ maxTimeDrift

theorem checkHeader_iff {sha256 : Bytes → Bytes} {opts : ValidateOptions} {packet : Val}
    {packetId : String} {timestamp : Nat} {header : PowCommittedHeader} :
    checkHeader sha256 opts packet packetId timestamp header = .ok .ok ↔
      (header.payload.length ≠ 0 ∧ header.payload.length ≤ maxPayloadSize) ∧
      header.nonce.length = nonceSize ∧
      (∃ n, nonNegative? (integer? (packet.field "hop_count")) = some n ∧ n ≤ maxHopCount) ∧
      ∃ n, nonNegative? (safeInteger? (packet.field "pow_nonce")) = some n ∧
        timestamp-opts.now ≤ maxTimeDrift ∧
        (opts.allowStale = true ∨ opts.now-timestamp ≤ maxTimeDrift) ∧
        derivePacketId sha256 header = .ok packetId ∧ verifyPow sha256 header n = .ok true := by
  constructor
  · intro h
    unfold checkHeader at h
    split at h
    · cases h
    next hpayload =>
    split at h
    · cases h
    next hnonce =>
    cases hh : nonNegative? (integer? (packet.field "hop_count")) with
    | none => simp [hh] at h
    | some hopCount =>
      simp only [hh] at h
      split at h
      · cases h
      next hhop =>
      cases hp : nonNegative? (safeInteger? (packet.field "pow_nonce")) with
      | none => simp [hp] at h
      | some powNonce =>
        simp only [hp] at h
        split at h
        · cases h
        next hfuture =>
        split at h
        · cases h
        next hstale =>
        cases hid : derivePacketId sha256 header with
        | error e => simp [hid] at h
        | ok expectedId =>
          simp only [hid] at h
          split at h
          · cases h
          next heq =>
          obtain ⟨b,hb,h⟩ := bind_ok h
          have hstale' : opts.allowStale = true ∨ opts.now-timestamp ≤ maxTimeDrift := by
            by_cases hs : opts.allowStale = true
            · exact .inl hs
            · exact .inr (not_lt.mp fun hlt => hstale ⟨hs,hlt⟩)
          refine ⟨by omega,not_not.mp hnonce,⟨hopCount,rfl,by omega⟩,powNonce,rfl,by omega,hstale',
            by rw [not_not.mp heq],?_⟩
          cases b with
          | true => exact hb
          | false => simp at h
  · intro ⟨hpayload,hnonce,⟨hopCount,hh,hhop⟩,powNonce,hp,hfuture,hstale,hid,hpow⟩
    have h1 : ¬(header.payload.length = 0 ∨ header.payload.length > maxPayloadSize) := by omega
    have h2 : ¬hopCount > maxHopCount := by omega
    have h3 : ¬timestamp-opts.now > maxTimeDrift := by omega
    have h4 : ¬(¬opts.allowStale = true ∧ opts.now-timestamp > maxTimeDrift) := by
      rintro ⟨hn,hgt⟩
      have hle := hstale.resolve_left hn
      omega
    simp only [checkHeader,if_neg h1,hnonce,hh,if_neg h2,hp,if_neg h3,if_neg h4,hid,hpow,bind,
      Except.bind]
    simp

theorem checkHeader_ok {sha256 : Bytes → Bytes} {opts : ValidateOptions} {packet : Val}
    {packetId : String} {timestamp : Nat} {header : PowCommittedHeader}
    (h : checkHeader sha256 opts packet packetId timestamp header = .ok .ok) :
    timestamp-opts.now ≤ maxTimeDrift ∧
      (opts.allowStale = true ∨ opts.now-timestamp ≤ maxTimeDrift) ∧
      derivePacketId sha256 header = .ok packetId := by
  obtain ⟨-,-,-,n,-,hfuture,hstale,hid,-⟩ := checkHeader_iff.mp h
  exact ⟨hfuture,hstale,hid⟩

/-- The clock enters the check in the two time windows only. -/
theorem checkHeader_window {sha256 : Bytes → Bytes} {opts opts' : ValidateOptions} {packet : Val}
    {packetId : String} {timestamp : Nat} {header : PowCommittedHeader}
    (h : checkHeader sha256 opts packet packetId timestamp header = .ok .ok)
    (hf : timestamp-opts'.now ≤ maxTimeDrift) (hs : opts'.now-timestamp ≤ maxTimeDrift) :
    checkHeader sha256 opts' packet packetId timestamp header = .ok .ok := by
  obtain ⟨hpayload,hnonce,hhop,n,hn,-,-,hrest⟩ := checkHeader_iff.mp h
  exact checkHeader_iff.mpr ⟨hpayload,hnonce,hhop,n,hn,hf,.inr hs,hrest⟩

theorem derivePacketId_ok {sha256 : Bytes → Bytes} {header : PowCommittedHeader} {id : String}
    (h : derivePacketId sha256 header = .ok id) :
    ∃ preimage, powPreimage header = .ok preimage ∧ id = Bytes.toHex (sha256 preimage) := by
  unfold derivePacketId at h
  cases hp : powPreimage header with
  | error e => simp [hp,bind,Except.bind] at h
  | ok preimage =>
    simp only [hp,bind,Except.bind,Except.ok.injEq] at h
    exact ⟨preimage,rfl,h.symm⟩

theorem check_iff {sha256 : Bytes → Bytes} {packet : Val} {opts : ValidateOptions} :
    check sha256 packet opts = .ok .ok ↔ packet.isObject = true ∧ ∃ id timestamp header,
      packetId? (packet.field "packet_id") = some id ∧ timestamp? packet = some timestamp ∧
      committedHeaderOf packet = .ok header ∧
      checkHeader sha256 opts packet id timestamp header = .ok .ok := by
  unfold check
  cases packet.isObject with
  | false => simp
  | true =>
    cases packetId? (packet.field "packet_id") with
    | none => simp
    | some id =>
      cases timestamp? packet with
      | none => simp
      | some timestamp =>
        cases committedHeaderOf packet with
        | error e => simp [bind,Except.bind]
        | ok header => simp [bind,Except.bind]

theorem check_ok {sha256 : Bytes → Bytes} {packet : Val} {opts : ValidateOptions}
    (h : check sha256 packet opts = .ok .ok) :
    ∃ id timestamp preimage, Valid sha256 packet opts id timestamp preimage := by
  obtain ⟨-,id,timestamp,header,hid,ht,hc,h⟩ := check_iff.mp h
  obtain ⟨hfuture,hstale,hd⟩ := checkHeader_ok h
  obtain ⟨preimage,hp,hhash⟩ := derivePacketId_ok hd
  exact ⟨id,timestamp,preimage,hid,ht,by simp [preimage?,hc,hp,Except.toOption],hhash,hfuture,
    hstale⟩

theorem check_window {sha256 : Bytes → Bytes} {packet : Val} {opts opts' : ValidateOptions}
    {t : Nat} (h : check sha256 packet opts = .ok .ok) (ht : timestamp? packet = some t)
    (hf : t-opts'.now ≤ maxTimeDrift) (hs : opts'.now-t ≤ maxTimeDrift) :
    check sha256 packet opts' = .ok .ok := by
  obtain ⟨ho,id,timestamp,header,hid,htimestamp,hc,h⟩ := check_iff.mp h
  obtain rfl : timestamp = t := Option.some.inj (htimestamp.symm.trans ht)
  exact check_iff.mpr ⟨ho,id,timestamp,header,hid,htimestamp,hc,checkHeader_window h hf hs⟩

/-- A preimage determines the timestamp of its packet. -/
theorem timestamp_of_preimage {p q : Val} {preimage : Bytes} (hp : preimage? p = some preimage)
    (hq : preimage? q = some preimage) : timestamp? p = timestamp? q := by
  have key : ∀ r : Val, preimage? r = some preimage → ∃ t z d header,
      r.field "timestamp" = header.timestamp ∧ Committed header t z d ∧
        preimage = preimageBytes t z d header.nonce header.payload := by
    intro r hr
    unfold preimage? at hr
    cases hc : committedHeaderOf r with
    | error e => simp [hc] at hr
    | ok header =>
      simp only [hc] at hr
      cases hpre : powPreimage header with
      | error e => simp [hpre,Except.toOption] at hr
      | ok bs =>
        have hbs : bs = preimage := by simpa [hpre,Except.toOption] using hr
        obtain ⟨t,z,d,hcom,he⟩ := powPreimage_ok hpre
        refine ⟨t,z,d,header,?_,hcom,hbs ▸ he⟩
        unfold committedHeaderOf at hc
        cases hn : toBytes (r.field "nonce") with
        | error e => simp [hn,bind,Except.bind] at hc
        | ok nonce =>
          cases hl : toBytes (r.field "payload") with
          | error e => simp [hn,hl,bind,Except.bind] at hc
          | ok payload =>
            simp only [hn,hl,bind,Except.bind,Except.ok.injEq] at hc
            rw [← hc]
  obtain ⟨t,z,d,header,htp,hcp,hep⟩ := key p hp
  obtain ⟨t',z',d',header',htq,hcq,heq⟩ := key q hq
  obtain ⟨htt,-⟩ := preimageBytes_inj ⟨hcp.timestamp_lt,hcq.timestamp_lt⟩
    ⟨hcp.zoneId_lt,hcq.zoneId_lt⟩ ⟨hcp.difficulty_lt,hcq.difficulty_lt⟩
    ⟨hcp.nonce_lt,hcq.nonce_lt⟩ ⟨hcp.payload_lt,hcq.payload_lt⟩ (hep.symm.trans heq)
  rw [timestamp?,timestamp?,htp,htq,hcp.timestamp_eq,hcq.timestamp_eq,htt]

end PacketValidator
