import AetherLite.Crypto.PacketBuild
import AetherLite.Gossip.PacketValidator
import AetherLite.Hint.HintPacket
import AetherLite.Onion.OnionRouter

/-! How large a packet gets, and what that decides: whether a relay lets it through, and whether
it fits into a cell. -/
set_option autoImplicit false

namespace PowPolicy

open Js

variable {sha256 : Bytes → Bytes}

theorem solveFrom_some {preimage : Bytes} {difficulty n i k : Nat}
    (h : solveFrom sha256 preimage difficulty n i = some k) :
    meetsDifficulty (powHash sha256 preimage k) difficulty = true ∧ k < i+n := by
  induction n generalizing i with
  | zero => cases h
  | succ n ih =>
    unfold solveFrom at h
    split at h
    · next hm =>
      cases h
      exact ⟨hm,by omega⟩
    · obtain ⟨hk,hlt⟩ := ih h
      exact ⟨hk,by omega⟩

/-- A nonce that is found is a safe integer and holds as a proof of work. -/
theorem compute_ok {header : PowCommittedHeader} {powNonce : Nat}
    (h : compute sha256 header = .ok powNonce) :
    verifyPow sha256 header powNonce = .ok true ∧ powNonce < 9007199254740991 := by
  unfold compute at h
  obtain ⟨difficulty,hd,h⟩ := bind_ok h
  split at h
  · cases h
  next hmin =>
  split at h
  · cases h
  next hmax =>
  obtain ⟨o,ho,h⟩ := bind_ok h
  cases o with
  | none => cases h
  | some k =>
    cases h
    obtain ⟨preimage,hp,ho⟩ := bind_ok ho
    obtain ⟨t,z,d,hc,-⟩ := powPreimage_ok hp
    have hi : integer? header.powDifficulty = some (d : Int) := by
      rw [hc.difficulty_eq]
      exact Number.toInt?_ofInt d
    obtain ⟨hm,hlt⟩ := solveFrom_some (Except.ok.inj ho)
    rw [hi] at hm
    have hbound : powNonce < 9007199254740991 := by
      rw [Nat.zero_add] at hlt
      exact hlt
    refine ⟨?_,hbound⟩
    simp only [verifyPow,hd,bind,Except.bind,hmin,hmax,hp,hi]
    simpa using hm

end PowPolicy

namespace PacketBuilder

open Js PowPolicy PacketValidator

def tagBytes : Nat := 16

/-- How long what the libraries make is. -/
structure Lengths (p : Primitives) (a : Author) : Prop where
  encode : ∀ v bs, p.encode v = .ok bs → bs.length = MsgPack.size v
  aeadEncrypt : ∀ key nonce m, (p.aeadEncrypt key nonce m).length = m.length+tagBytes
  signDetached : ∀ m privateKey, (a.signDetached m privateKey).length = signatureBytes
  sha256 : ∀ m, (a.sha256 m).length = 32

/-- The size of the payload that a draft is sealed into: both layers in msgpack, with the
signatures in the inner one, the magic and the tag. -/
def Draft.payloadSize (d : Draft) (identity : Identity) (date : Nat) : Nat :=
  let sig := identity.sign (fun _ _ => List.replicate signatureBytes 0) []
  let inner := MsgPack.size (.obj (d.signedFields (roundToMinute date) ++ signatureFields sig))
  magic.length+MsgPack.size (d.encryptedRecord (List.replicate inner 0))+tagBytes

section
variable {p : Primitives} {a : Author} {d : Draft} {key nonce : Bytes} {date : Nat} {packet : Val}

theorem size_inner (hl : Lengths p a) (fields : List (String × Val)) (m : Bytes) :
    MsgPack.size (.obj (fields ++ signatureFields (a.identity.sign a.signDetached m))) =
      MsgPack.size (.obj (fields ++ signatureFields
        (a.identity.sign (fun _ _ => List.replicate signatureBytes 0) []))) := by
  have hlen : (fields ++ signatureFields (a.identity.sign a.signDetached m)).length =
      (fields ++ signatureFields
        (a.identity.sign (fun _ _ => List.replicate signatureBytes 0) [])).length := by
    simp [signatureFields]
  simp only [MsgPack.size,MsgPack.sizeFields_append,hlen]
  cases hk : a.identity.tripKeyPair with
  | none =>
    simp [signatureFields,Identity.sign,hk,optional,MsgPack.sizeFields,MsgPack.size,
      hl.signDetached]
  | some kp =>
    simp [signatureFields,Identity.sign,hk,optional,MsgPack.sizeFields,MsgPack.size,
      hl.signDetached]

theorem size_encryptedRecord (d : Draft) {m m' : Bytes} (h : m.length = m'.length) :
    MsgPack.size (d.encryptedRecord m) = MsgPack.size (d.encryptedRecord m') := by
  simp [Draft.encryptedRecord,MsgPack.size,MsgPack.sizeFields,h]

/-- What a packet that was built is made of. -/
structure Built (a : Author) (d : Draft) (date : Nat) (nonce : Bytes) (packet : Val)
    (header : PowCommittedHeader) (packetId : String) (powNonce : Nat) : Prop where
  packet_eq : packet = packetOf header packetId powNonce
  timestamp_eq : header.timestamp = .num (Number.ofNat (roundToMinute date))
  zoneId_num : ∃ n, header.zoneId = .num n
  difficulty_num : ∃ n, header.powDifficulty = .num n
  nonce_eq : header.nonce = nonce
  payload_length : header.payload.length = d.payloadSize a.identity date
  packetId_eq : derivePacketId a.sha256 header = .ok packetId
  pow : verifyPow a.sha256 header powNonce = .ok true
  powNonce_lt : powNonce < 9007199254740991

theorem build_ok (hl : Lengths p a) (hb : build p a d key date nonce = .ok packet) :
    ∃ header packetId powNonce, Built a d date nonce packet header packetId powNonce := by
  unfold build at hb
  obtain ⟨encPayload,hplain,hb⟩ := bind_ok hb
  obtain ⟨powNonce,hpow,hb⟩ := bind_ok hb
  obtain ⟨packetId,hid,hb⟩ := bind_ok hb
  cases hb
  unfold Draft.plaintext at hplain
  obtain ⟨signedData,-,hplain⟩ := bind_ok hplain
  obtain ⟨innerPayload,hinner,hplain⟩ := bind_ok hplain
  have hin := hl.encode _ _ hinner
  rw [size_inner hl] at hin
  have hlen : innerPayload.length = (List.replicate (MsgPack.size (.obj
      (d.signedFields (roundToMinute date) ++ signatureFields (a.identity.sign
        (fun _ _ => List.replicate signatureBytes 0) [])))) (0 : UInt8)).length := by
    rw [List.length_replicate,hin]
  have henc := hl.encode _ _ hplain
  rw [size_encryptedRecord d hlen] at henc
  have hpayload : (p.aeadEncrypt key nonce (magic ++ encPayload)).length =
      d.payloadSize a.identity date := by
    rw [hl.aeadEncrypt,List.length_append,henc,Draft.payloadSize]
  obtain ⟨hverify,hlt⟩ := compute_ok hpow
  exact ⟨_,packetId,powNonce,rfl,rfl,⟨_,rfl⟩,⟨_,rfl⟩,rfl,hpayload,hid,hverify,hlt⟩

/-- A relay whose clock is near lets a built packet through unless the payload is too large. -/
theorem check_built {header : PowCommittedHeader} {packetId : String} {powNonce : Nat}
    (hl : Lengths p a) (h : Built a d date nonce packet header packetId powNonce)
    (hnonce : nonce.length = nonceSize) (hdate : date ≤ 8640000000000000)
    {opts : ValidateOptions} (hfuture : roundToMinute date-opts.now ≤ maxTimeDrift)
    (hstale : opts.now-roundToMinute date ≤ maxTimeDrift) :
    check a.sha256 packet opts = .ok .ok ↔ d.payloadSize a.identity date ≤ maxPayloadSize := by
  obtain ⟨preimage,hp,hhash⟩ := derivePacketId_ok h.packetId_eq
  have hidLength : utf16Length packetId = 64 := by
    rw [hhash,utf16Length_of_ascii (Bytes.toHex_ascii _),Bytes.toHex_length,hl.sha256]
  have hround : roundToMinute date ≤ date := Nat.div_mul_le_self date 60000
  have htime : timestamp? packet = some (roundToMinute date) := by
    have hsafe : (Number.ofNat (roundToMinute date)).toSafeInt? = some (roundToMinute date : Int) := by
      rw [Number.toSafeInt?_ofNat,if_pos (by omega)]
    simp [h.packet_eq,timestamp?,packetOf,Val.field,JsMap.get,h.timestamp_eq,safeInteger?,hsafe,
      nonNegative?]
  have hpowNonce : nonNegative? (safeInteger? (packet.field "pow_nonce")) = some powNonce := by
    have hlt := h.powNonce_lt
    have hsafe : (Number.ofNat powNonce).toSafeInt? = some (powNonce : Int) := by
      rw [Number.toSafeInt?_ofNat,if_pos (by omega)]
    simp [h.packet_eq,packetOf,Val.field,JsMap.get,safeInteger?,hsafe,nonNegative?]
  have hhop : nonNegative? (integer? (packet.field "hop_count")) = some 0 := by
    simp [h.packet_eq,packetOf,Val.field,JsMap.get,integer?,Number.toInt?,nonNegative?]
  have hheader : committedHeaderOf packet = .ok header := by
    simp [h.packet_eq,committedHeaderOf,packetOf,Val.field,JsMap.get,toBytes,bind,Except.bind]
  have hobj : packet.isObject = true := by rw [h.packet_eq]; rfl
  have hpid : packetId? (packet.field "packet_id") = some packetId := by
    simp [h.packet_eq,packetOf,Val.field,JsMap.get,packetId?,hidLength]
  have hpos : d.payloadSize a.identity date ≠ 0 := by
    rw [Draft.payloadSize,tagBytes]
    omega
  have hnot : ¬roundToMinute date-opts.now > maxTimeDrift := by omega
  have hnot' : ¬opts.now-roundToMinute date > maxTimeDrift := by omega
  simp only [check,hobj,hpid,htime,hheader,bind,Except.bind,checkHeader,h.payload_length]
  by_cases hsize : d.payloadSize a.identity date ≤ maxPayloadSize
  · simp [hsize,hpos,h.nonce_eq,hnonce,hhop,maxHopCount,hpowNonce,hnot,hnot',h.packetId_eq,h.pow]
  · simp [hsize,not_le.mp hsize]

/-- The slot a packet is stored in, as `prepareSlot` hands it to the exit. -/
def exitSlot (mailboxKey : Bytes) (hint : Hint.HintPacket) : String × Bytes :=
  (Bytes.toHex mailboxKey,Hint.encodeHint hint)

/-- What `broadcast` sends through the circuit. -/
def exitFluff (packet : Val) (slot : String × Bytes) : OnionRouter.ExitPayload :=
  .exitFluff ((integer? (packet.field "zone_id")).getD 0) packet (some slot)

/-- The layer of the exit before it is sealed; none where it throws. -/
def exitLayer (f : MsgPack.Float64) (random : Nat → Bytes) (exit : OnionRouter.ExitPayload) :
    Option Bytes := do
  let payload ← MsgPack.encode f exit.toVal
  OnionRouter.padCell random payload OnionRouter.exitLayerSize

theorem encodeHint_length (hint : Hint.HintPacket) :
    (Hint.encodeHint hint).length = Hint.encodedHintSize := by
  simp [Hint.encodeHint,hint.blindTag_length,hint.nonce_length,hint.ciphertext_length,
    Hint.encodedHintSize,Hint.blindTagSize,Hint.hintNonceSize,Hint.hintCiphertextSize,
    Hint.hintPlaintextSize]

theorem size_packetId {header : PowCommittedHeader} {packetId : String} (hl : Lengths p a)
    (h : derivePacketId a.sha256 header = .ok packetId) :
    (Bytes.utf8 packetId).length = 64 := by
  obtain ⟨preimage,-,hhash⟩ := derivePacketId_ok h
  rw [hhash,Bytes.utf8_toHex_length,hl.sha256]

/-- What a packet adds to its payload. -/
theorem size_packet {header : PowCommittedHeader} {packetId : String} {powNonce : Nat}
    (hl : Lengths p a) (h : Built a d date nonce packet header packetId powNonce)
    (hnonce : nonce.length = nonceSize) :
    MsgPack.size packet ≤ d.payloadSize a.identity date+208 := by
  obtain ⟨zone,hzone⟩ := h.zoneId_num
  obtain ⟨difficulty,hdifficulty⟩ := h.difficulty_num
  have hid := size_packetId hl h.packetId_eq
  have hkeys : (["packet_id","hop_count","pow_nonce","pow_difficulty","timestamp","zone_id",
      "nonce","payload"].map fun k => MsgPack.size (.str k)).sum = 77 := by decide +kernel
  have hhead : MsgPack.headSize (.map 8) = 1 ∧ MsgPack.headSize (.str 64) = 2 ∧
      MsgPack.headSize (.bin 12) = 2 := by decide
  have hhop := MsgPack.size_num_le (.fin 0)
  have hpow := MsgPack.size_num_le (Number.ofNat powNonce)
  have htime := MsgPack.size_num_le (Number.ofNat (roundToMinute date))
  have hz := MsgPack.size_num_le zone
  have hd := MsgPack.size_num_le difficulty
  have hbin := MsgPack.headSize_bin_le header.payload.length
  have hpay := h.payload_length
  have hvals : MsgPack.size packet = MsgPack.headSize (.map 8)+77+
      (MsgPack.size (.str packetId)+MsgPack.size (.num (.fin 0))+
        MsgPack.size (.num (Number.ofNat powNonce))+MsgPack.size (.num difficulty)+
        MsgPack.size (.num (Number.ofNat (roundToMinute date)))+MsgPack.size (.num zone)+
        MsgPack.size (.bytes nonce)+MsgPack.size (.bytes header.payload)) := by
    rw [h.packet_eq,packetOf,MsgPack.size_obj hkeys rfl]
    simp [h.timestamp_eq,hzone,hdifficulty,h.nonce_eq,Nat.add_assoc]
  simp only [MsgPack.size_bytes,MsgPack.size_str,hid,hnonce,nonceSize] at hvals
  omega

theorem size_exitFluff (packet : Val) {mailboxKey : Bytes} (hkey : mailboxKey.length = 32)
    (hint : Hint.HintPacket) : MsgPack.size (exitFluff packet (exitSlot mailboxKey hint)).toVal ≤
      MsgPack.size packet+222 := by
  have hkeys : (["type","zoneId","packet","slot"].map fun k => MsgPack.size (.str k)).sum = 24 := by
    decide +kernel
  have hslotKeys : (["topicHash","hint"].map fun k => MsgPack.size (.str k)).sum = 15 := by
    decide +kernel
  have htype : MsgPack.size (.str "exit_fluff") = 11 := by decide +kernel
  have hzone := MsgPack.size_num_le
    (Number.ofInt ((integer? (packet.field "zone_id")).getD 0))
  have hheads : MsgPack.headSize (.map 4) = 1 ∧ MsgPack.headSize (.map 2) = 1 ∧
      MsgPack.headSize (.str (2*32)) = 2 := by decide
  have hbin := MsgPack.headSize_bin_le Hint.encodedHintSize
  have hhintSize : Hint.encodedHintSize = 90 := rfl
  have hslot : MsgPack.size (OnionRouter.ExitPayload.slotVal (some (exitSlot mailboxKey hint))) =
      MsgPack.headSize (.map 2)+15+(MsgPack.size (.str (Bytes.toHex mailboxKey))+
        MsgPack.size (.bytes (Hint.encodeHint hint))) := by
    rw [exitSlot,OnionRouter.ExitPayload.slotVal,MsgPack.size_obj hslotKeys rfl]
    simp
  have hvals : MsgPack.size (exitFluff packet (exitSlot mailboxKey hint)).toVal =
      MsgPack.headSize (.map 4)+24+(MsgPack.size (.str "exit_fluff")+MsgPack.size (.num
        (Number.ofInt ((integer? (packet.field "zone_id")).getD 0)))+MsgPack.size packet+
          MsgPack.size (OnionRouter.ExitPayload.slotVal (some (exitSlot mailboxKey hint)))) := by
    rw [exitFluff,OnionRouter.ExitPayload.toVal,MsgPack.size_obj hkeys rfl]
    simp [Nat.add_assoc]
  have hhex := MsgPack.size_str (Bytes.toHex mailboxKey)
  have hhint := MsgPack.size_bytes (Hint.encodeHint hint)
  rw [Bytes.utf8_toHex_length,hkey] at hhex
  rw [encodeHint_length] at hhint
  omega

theorem packable_exitFluff {header : PowCommittedHeader} {packetId : String} {powNonce : Nat}
    (hl : Lengths p a) (h : Built a d date nonce packet header packetId powNonce)
    (hnonce : nonce.length = nonceSize) (hsize : d.payloadSize a.identity date ≤ maxPayloadSize)
    {mailboxKey : Bytes} (hkey : mailboxKey.length = 32) (hint : Hint.HintPacket) :
    MsgPack.packable MsgPack.maxDepth (exitFluff packet (exitSlot mailboxKey hint)).toVal = true := by
  obtain ⟨zone,hzone⟩ := h.zoneId_num
  obtain ⟨difficulty,hdifficulty⟩ := h.difficulty_num
  have hid := size_packetId hl h.packetId_eq
  have hkeys : (["type","zoneId","packet","slot","topicHash","hint","packet_id","hop_count",
      "pow_nonce","pow_difficulty","timestamp","zone_id","nonce","payload","exit_fluff"].all
        fun k => decide ((Bytes.utf8 k).length < 0x100000000)) = true := by decide +kernel
  simp only [List.all_cons,List.all_nil,Bool.and_true,Bool.and_eq_true,decide_eq_true_eq] at hkeys
  have hhint := encodeHint_length hint
  have hhintSize : Hint.encodedHintSize = 90 := rfl
  have hpay := h.payload_length
  have hmax : maxPayloadSize = 2048 := rfl
  have hp : header.payload.length < 4294967296 := by omega
  have hn : header.nonce.length < 4294967296 := by
    rw [h.nonce_eq,hnonce]
    decide
  have hh : (Hint.encodeHint hint).length < 4294967296 := by omega
  have hi : (Bytes.utf8 packetId).length < 4294967296 := by omega
  have hm : (Bytes.utf8 (Bytes.toHex mailboxKey)).length < 4294967296 := by
    rw [Bytes.utf8_toHex_length]
    omega
  simp [exitFluff,exitSlot,OnionRouter.ExitPayload.toVal,OnionRouter.ExitPayload.slotVal,
    MsgPack.packable,MsgPack.packableFields,MsgPack.maxDepth,h.packet_eq,packetOf,hkeys,
    h.timestamp_eq,hzone,hdifficulty,hp,hn,hh,hi,hm]

/-- A packet that is let through fits into a cell with its slot. -/
theorem exitLayer_built {header : PowCommittedHeader} {packetId : String} {powNonce : Nat}
    (hl : Lengths p a) (h : Built a d date nonce packet header packetId powNonce)
    (hnonce : nonce.length = nonceSize) (hsize : d.payloadSize a.identity date ≤ maxPayloadSize)
    {mailboxKey : Bytes} (hkey : mailboxKey.length = 32) (hint : Hint.HintPacket)
    (f : MsgPack.Float64) (random : Nat → Bytes) :
    (exitLayer f random (exitFluff packet (exitSlot mailboxKey hint))).isSome = true := by
  have hpack := packable_exitFluff hl h hnonce hsize hkey hint
  have hexit := size_exitFluff packet hkey hint
  have hpacket := size_packet hl h hnonce
  have hlen := MsgPack.length_pack (f := f) _ hpack
  have hmax : maxPayloadSize = 2048 := rfl
  have hlayer : OnionRouter.exitLayerSize = 3400 := rfl
  have hfits : ¬(MsgPack.pack f (exitFluff packet (exitSlot mailboxKey hint)).toVal).length >
      OnionRouter.exitLayerSize-4 := by omega
  simp [exitLayer,MsgPack.encode,hpack,OnionRouter.padCell,hfits]

/-- The text alone, with the magic and the tag. -/
theorem content_lt_payloadSize (d : Draft) (identity : Identity) (date : Nat) :
    (Bytes.utf8 d.content).length+20 ≤ d.payloadSize identity date := by
  have hinner : (Bytes.utf8 d.content).length ≤ MsgPack.size (.obj
      (d.signedFields (roundToMinute date) ++ signatureFields
        (identity.sign (fun _ _ => List.replicate signatureBytes 0) []))) := by
    simp only [MsgPack.size,MsgPack.sizeFields_append]
    simp only [Draft.signedFields,MsgPack.sizeFields,MsgPack.size_str]
    omega
  have hmagic : magic.length = 4 := rfl
  have htag : tagBytes = 16 := rfl
  simp only [Draft.payloadSize,Draft.encryptedRecord,MsgPack.size,MsgPack.sizeFields,
    List.length_replicate] at hinner ⊢
  omega

/-- A relay whose clock is at most 14 minutes off lets the packet through, and a cell takes it
with its slot. -/
structure Carried (a : Author) (f : MsgPack.Float64) (random : Nat → Bytes) (date : Nat)
    (packet : Val) : Prop where
  relayed : ∀ now : Int, date-now ≤ 840000 → now-date ≤ 840000 →
    check a.sha256 packet { now := now } = .ok .ok
  fits : ∀ (mailboxKey : Bytes) (hint : Hint.HintPacket), mailboxKey.length = 32 →
    (exitLayer f random (exitFluff packet (exitSlot mailboxKey hint))).isSome = true

theorem carried_iff {f : MsgPack.Float64} {random : Nat → Bytes} (hl : Lengths p a)
    (hb : build p a d key date nonce = .ok packet) (hnonce : nonce.length = nonceSize)
    (hdate : date ≤ 8640000000000000) :
    Carried a f random date packet ↔ d.payloadSize a.identity date ≤ maxPayloadSize := by
  obtain ⟨header,packetId,powNonce,h⟩ := build_ok hl hb
  have hround : roundToMinute date ≤ date ∧ date < roundToMinute date+60000 := by
    have hmod := Nat.div_add_mod date 60000
    have hlt := Nat.mod_lt date (show 60000 > 0 by decide)
    unfold roundToMinute
    omega
  have hdrift : (maxTimeDrift : Int) = 900000 := rfl
  have hcheck : ∀ now : Int, date-now ≤ 840000 → now-date ≤ 840000 →
      (check a.sha256 packet { now := now } = .ok .ok ↔
        d.payloadSize a.identity date ≤ maxPayloadSize) := fun now hpast hfuture =>
    check_built hl h hnonce hdate (by dsimp only; omega) (by dsimp only; omega)
  constructor
  · intro hc
    exact (hcheck date (by omega) (by omega)).mp (hc.relayed date (by omega) (by omega))
  · intro hsize
    exact {
      relayed := fun now hpast hfuture => (hcheck now hpast hfuture).mpr hsize
      fits := fun mailboxKey hint hkey =>
        exitLayer_built hl h hnonce hsize hkey hint f random }

end

end PacketBuilder
