import AetherLite.Cache.Hint

/-! What the cache node checks of a packet and of a mailbox entry. -/
set_option autoImplicit false

namespace Cache

inductive RejectReason where
  | badPacketId
  | badPayloadSize
  | badNonceSize
  | badHopCount
  | timeDrift
  | packetIdMismatch
  | insufficientPow
  deriving DecidableEq

/-- Without a time there is no check of it. -/
structure ValidateOptions where
  nowMs : UInt64 := 0
  allowStale : Bool := false

structure GossipPacket where
  packetId : String
  hopCount : UInt32
  powNonce : UInt64
  powDifficulty : UInt32
  timestamp : UInt64
  zoneId : UInt32
  nonce : Bytes
  payload : Bytes

def GossipPacket.committedHeader (p : GossipPacket) : PowCommittedHeader :=
  ⟨p.timestamp,p.zoneId,p.powDifficulty,p.nonce,p.payload⟩

/-- `u8::is_ascii_hexdigit` -/
def isAsciiHexdigit (b : UInt8) : Bool :=
  (0x30 ≤ b && b ≤ 0x39) || (0x41 ≤ b && b ≤ 0x46) || (0x61 ≤ b && b ≤ 0x66)

/-- `u64::saturating_sub` -/
def saturatingSub (a b : UInt64) : UInt64 := if b ≤ a then a-b else 0

def outsideDrift (timestamp : UInt64) (opts : ValidateOptions) : Bool :=
  opts.nowMs > 0 && (timestamp > opts.nowMs+maxTimeDriftMs ||
    (!opts.allowStale && saturatingSub opts.nowMs timestamp > maxTimeDriftMs))

section
variable (sha256 : Bytes → Bytes)

def checkPacket (packet : GossipPacket) (opts : ValidateOptions) : Except RejectReason Unit :=
  let id := Bytes.utf8 packet.packetId
  if id.length ≠ 64 || !id.all isAsciiHexdigit then .error .badPacketId
  else
    let header := packet.committedHeader
    if header.payload.isEmpty || header.payload.length > maxPayloadSize then .error .badPayloadSize
    else if header.nonce.length ≠ nonceSize then .error .badNonceSize
    else if packet.hopCount > maxHopCount then .error .badHopCount
    else if outsideDrift packet.timestamp opts then .error .timeDrift
    else match packetId sha256 header with
    | none => .error .badPacketId
    | some expected =>
      if expected ≠ packet.packetId then .error .packetIdMismatch
      else if !verifyPow sha256 header packet.powNonce then .error .insufficientPow
      else .ok ()

end

/-- What `checkPacket` asks of a packet, the time aside. -/
structure Sound (sha256 : Bytes → Bytes) (packet : GossipPacket) : Prop where
  payload_pos : packet.payload ≠ []
  payload_le : packet.payload.length ≤ maxPayloadSize
  nonce_length : packet.nonce.length = nonceSize
  hopCount_le : packet.hopCount ≤ maxHopCount
  id_hash : packetId sha256 packet.committedHeader = some packet.packetId
  id_hex : (Bytes.utf8 packet.packetId).length = 64 ∧
    (Bytes.utf8 packet.packetId).all isAsciiHexdigit = true
  pow : verifyPow sha256 packet.committedHeader packet.powNonce = true

theorem checkPacket_ok {sha256 : Bytes → Bytes} {packet : GossipPacket} {opts : ValidateOptions} :
    checkPacket sha256 packet opts = .ok () ↔
      Sound sha256 packet ∧ outsideDrift packet.timestamp opts = false := by
  constructor
  · intro h
    unfold checkPacket at h
    dsimp only at h
    split at h
    · cases h
    next hid =>
    split at h
    · cases h
    next hp =>
    split at h
    · cases h
    next hn =>
    split at h
    · cases h
    next hh =>
    split at h
    · cases h
    next hdrift =>
    split at h
    · cases h
    next expected hexpected =>
    split at h
    · cases h
    next heq =>
    split at h
    · cases h
    next hpow =>
    simp only [Bool.or_eq_true,decide_eq_true_eq,Bool.not_eq_true',not_or,not_not,
      Bool.not_eq_false] at hid
    simp only [Bool.or_eq_true,List.isEmpty_iff,decide_eq_true_eq,not_or,not_lt] at hp
    refine ⟨⟨hp.1,hp.2,not_not.mp hn,UInt32.not_lt.mp hh,?_,hid,by simpa using hpow⟩,
      by simpa using hdrift⟩
    rw [hexpected,not_not.mp heq]
  · intro ⟨hs,hdrift⟩
    have hp1 : packet.committedHeader.payload ≠ [] := hs.payload_pos
    have hp2 : ¬packet.committedHeader.payload.length > maxPayloadSize := not_lt.mpr hs.payload_le
    have hn : packet.committedHeader.nonce.length = nonceSize := hs.nonce_length
    have hh : ¬packet.hopCount > maxHopCount := UInt32.not_lt.mpr hs.hopCount_le
    unfold checkPacket
    simp [hs.id_hex.1,hs.id_hex.2,hp1,hp2,hn,hh,hdrift,hs.id_hash,hs.pow]

theorem packetId_some {sha256 : Bytes → Bytes} {h : PowCommittedHeader} {id : String}
    (hid : packetId sha256 h = some id) :
    ∃ bs, preimage h = some bs ∧ id = Bytes.toHex (sha256 bs) := by
  obtain ⟨bs,hbs,rfl⟩ := Option.map_eq_some_iff.mp hid
  exact ⟨bs,hbs,rfl⟩

def maxEntryBytes : Nat := 16*1024

inductive EntryReject where
  | tooLarge
  | notJson
  | badHintPow
  | packet (reason : RejectReason)
  deriving DecidableEq

section
variable (sha256 : Bytes → Bytes) (fromSlice : Bytes → Option GossipPacket)

/-- A packet in JSON, as `serde_json::from_slice` reads it. -/
def checkPacketBytes (bs : Bytes) (nowMs : UInt64) : Except EntryReject GossipPacket :=
  match fromSlice bs with
  | none => .error .notJson
  | some packet =>
    match checkPacket sha256 packet ⟨nowMs,true⟩ with
    | .ok () => .ok packet
    | .error reason => .error (.packet reason)

def checkEntry (entry : Bytes) (nowMs : UInt64) : Except EntryReject GossipPacket :=
  if entry.isEmpty || entry.length > maxEntryBytes then .error .tooLarge
  else match decodeSlot entry with
  | some slot =>
    match slot.hint.check sha256 hintPowDifficulty with
    | .error _ => .error .badHintPow
    | .ok () => checkPacketBytes sha256 fromSlice slot.body nowMs
  | none => checkPacketBytes sha256 fromSlice entry nowMs

end

end Cache
