import AetherLite.Crypto.Commitment
import AetherLite.Lib.JsNumber

/-! Which packets the browser and the cache node both accept. -/
set_option autoImplicit false

namespace Cache

open Js

theorem leadingBits_eq (b : UInt8) {r : Nat} (h0 : 0 < r) (hr : r < 8) :
    (b &&& ((0xff : UInt8) <<< UInt8.ofNat (8-r)) == 0) = decide (b.toNat/2^(8-r) = 0) := by
  have key : ∀ (b : Fin 256) (r : Fin 8), 0 < r.1 →
      (UInt8.ofNat b.1 &&& ((0xff : UInt8) <<< UInt8.ofNat (8-r.1)) == 0) =
        decide (b.1/2^(8-r.1) = 0) := by decide +kernel
  have hb := key ⟨b.toNat,b.toNat_lt⟩ ⟨r,hr⟩ h0
  simpa using hb

theorem meetsDifficulty_eq (hash : Bytes) (d : UInt32) :
    meetsDifficulty hash d = PowPolicy.meetsDifficulty hash d.toNat := by
  unfold meetsDifficulty PowPolicy.meetsDifficulty
  have hzero : d = 0 ↔ d.toNat = 0 := by
    rw [← UInt32.toNat_inj]
    rfl
  simp only [hzero]
  split
  · rfl
  split
  · rfl
  have hall : (hash.take (d.toNat/8)).all (· == 0) = !(hash.take (d.toNat/8)).any (· != 0) := by
    simp [List.all_eq_not_any_not,bne]
  rw [hall]
  split
  · next hany => simp [hany]
  next hany =>
  by_cases hr : d.toNat % 8 = 0
  · simp [hr,hany]
  · have hbits := leadingBits_eq (hash.getD (d.toNat/8) 0) (Nat.pos_of_ne_zero hr)
      (Nat.mod_lt _ (by decide))
    rw [if_pos (Nat.pos_of_ne_zero hr),hbits]
    simp [hr,hany]

theorem isAsciiHexdigit_toHex (bs : Bytes) :
    (Bytes.utf8 (Bytes.toHex bs)).all isAsciiHexdigit = true := by
  have key : ∀ n : Fin 16,
      (String.utf8EncodeChar (Bytes.hexDigit n.1)).all isAsciiHexdigit = true := by decide
  rw [Bytes.utf8_eq_flatMap,Bytes.toHex,String.toList_ofList]
  induction bs with
  | nil => rfl
  | cons b bs ih =>
    have hb := b.toNat_lt
    have hhi := key ⟨b.toNat/16,by omega⟩
    have hlo := key ⟨b.toNat % 16,by omega⟩
    simp only [Bytes.hexChars,List.flatMap_cons,List.all_append,hhi,hlo,ih,Bool.and_self]

/-- The Number that a reader makes of a whole number. -/
def numberOf (n : Nat) : Val := .num (Number.ofRat n)

theorem safeInteger?_numberOf (n : Nat) : PowPolicy.safeInteger? (numberOf n) =
    if n ≤ 9007199254740991 then some (n : Int) else none := Number.toSafeInt?_ofRat n

theorem numberOf_safe {n : Nat} (h : n ≤ 9007199254740991) :
    numberOf n = .num (Number.ofInt n) := by
  have hs := Number.toSafeInt?_ofRat n
  rw [if_pos h] at hs
  rw [numberOf,(Number.toSafeInt?_eq_some hs).1]

theorem integer?_numberOf {n : Nat} (h : n ≤ 9007199254740991) :
    PowPolicy.integer? (numberOf n) = some (n : Int) := by
  rw [numberOf_safe h]
  exact Number.toInt?_ofInt n

theorem nonNegative?_safe (n : Nat) :
    PacketValidator.nonNegative? (PowPolicy.safeInteger? (numberOf n)) =
      if n ≤ 9007199254740991 then some n else none := by
  rw [safeInteger?_numberOf]
  by_cases h : n ≤ 9007199254740991 <;> simp [PacketValidator.nonNegative?,h]

theorem nonNegative?_integer {n : Nat} (h : n ≤ 9007199254740991) :
    PacketValidator.nonNegative? (PowPolicy.integer? (numberOf n)) = some n := by
  rw [integer?_numberOf h]
  simp [PacketValidator.nonNegative?]

/-- The value is the packet, as the browser holds it. -/
structure Views (v : Val) (q : GossipPacket) : Prop where
  isObject : v.isObject = true
  packetId : v.field "packet_id" = .str q.packetId
  hopCount : v.field "hop_count" = numberOf q.hopCount.toNat
  powNonce : v.field "pow_nonce" = numberOf q.powNonce.toNat
  powDifficulty : v.field "pow_difficulty" = numberOf q.powDifficulty.toNat
  timestamp : v.field "timestamp" = numberOf q.timestamp.toNat
  zoneId : v.field "zone_id" = numberOf q.zoneId.toNat
  nonce : PowPolicy.toBytes (v.field "nonce") = .ok q.nonce
  payload : PowPolicy.toBytes (v.field "payload") = .ok q.payload

/-- The object that the browser holds of a packet. -/
def GossipPacket.view (q : GossipPacket) : Val :=
  .obj [("packet_id",.str q.packetId),("hop_count",numberOf q.hopCount.toNat),
    ("pow_nonce",numberOf q.powNonce.toNat),("pow_difficulty",numberOf q.powDifficulty.toNat),
    ("timestamp",numberOf q.timestamp.toNat),("zone_id",numberOf q.zoneId.toNat),
    ("nonce",.bytes q.nonce),("payload",.bytes q.payload)]

theorem GossipPacket.views_view (q : GossipPacket) : Views q.view q :=
  ⟨rfl,rfl,rfl,rfl,rfl,rfl,rfl,rfl,rfl⟩

/-- The header the browser reads of a packet. -/
def GossipPacket.headerView (q : GossipPacket) : PowPolicy.PowCommittedHeader where
  timestamp := numberOf q.timestamp.toNat
  zoneId := numberOf q.zoneId.toNat
  powDifficulty := numberOf q.powDifficulty.toNat
  nonce := q.nonce
  payload := q.payload

theorem Views.committedHeaderOf {v : Val} {q : GossipPacket} (hv : Views v q) :
    PacketValidator.committedHeaderOf v = .ok q.headerView := by
  simp [PacketValidator.committedHeaderOf,hv.nonce,hv.payload,hv.timestamp,hv.zoneId,
    hv.powDifficulty,bind,Except.bind,GossipPacket.headerView]

theorem headerView_safe {q : GossipPacket} (ht : q.timestamp.toNat ≤ 9007199254740991) :
    q.headerView = ⟨.num (Number.ofInt q.timestamp.toNat),.num (Number.ofInt q.zoneId.toNat),
      .num (Number.ofInt q.powDifficulty.toNat),q.nonce,q.payload⟩ := by
  have hz := q.zoneId.toNat_lt
  have hd := q.powDifficulty.toNat_lt
  simp only [GossipPacket.headerView,numberOf_safe ht,
    numberOf_safe (show q.zoneId.toNat ≤ 9007199254740991 by omega),
    numberOf_safe (show q.powDifficulty.toNat ≤ 9007199254740991 by omega)]

/-- Both read one preimage of a packet, the browser of a time it can hold. -/
theorem powPreimage_headerView {q : GossipPacket} {bs : Bytes} :
    PowPolicy.powPreimage q.headerView = .ok bs ↔
      q.timestamp.toNat ≤ 9007199254740991 ∧ preimage q.committedHeader = some bs := by
  by_cases ht : q.timestamp.toNat ≤ 9007199254740991
  · constructor
    · intro h
      have hm : Commitment.Mirrors (.packet q.headerView) (.packet q.committedHeader) := by
        rw [headerView_safe ht]
        exact ⟨rfl,rfl,rfl,rfl,rfl⟩
      have hp : Item.preimage (.packet q.committedHeader) = some bs :=
        Commitment.preimage_of_mirrors hm h
      exact ⟨ht,hp⟩
    · intro h
      have hp : Item.preimage (.packet q.committedHeader) = some bs := h.2
      obtain ⟨hf,hbytes⟩ := Item.commitment_of_preimage hp
      rw [headerView_safe ht]
      exact (Commitment.powPreimage_of_fits ht hf).trans (congrArg Except.ok hbytes)
  · have hs : PowPolicy.safeInteger? q.headerView.timestamp = none := by
      have hnone := safeInteger?_numberOf q.timestamp.toNat
      rwa [if_neg ht] at hnone
    simp [ht,PowPolicy.powPreimage,hs,PowPolicy.inRange,bind,Except.bind]

theorem derivePacketId_headerView {sha256 : Bytes → Bytes} {q : GossipPacket} {id : String} :
    PowPolicy.derivePacketId sha256 q.headerView = .ok id ↔
      q.timestamp.toNat ≤ 9007199254740991 ∧ packetId sha256 q.committedHeader = some id := by
  constructor
  · intro h
    obtain ⟨bs,hbs,rfl⟩ := PacketValidator.derivePacketId_ok h
    obtain ⟨ht,hp⟩ := powPreimage_headerView.mp hbs
    simp [ht,packetId,hp]
  · intro ⟨ht,h⟩
    obtain ⟨bs,hp,rfl⟩ := packetId_some h
    have hbs := powPreimage_headerView.mpr ⟨ht,hp⟩
    simp [PowPolicy.derivePacketId,hbs,bind,Except.bind]

theorem lt_ofNat (m n : Nat) : (Number.ofInt m).lt (Number.ofNat n) = decide (m < n) := by
  simp [Number.ofInt,Number.ofNat,Number.lt]

theorem ofNat_lt (m n : Nat) : (Number.ofNat m).lt (Number.ofInt n) = decide (m < n) := by
  simp [Number.ofInt,Number.ofNat,Number.lt]

theorem verifyPow_headerView {sha256 : Bytes → Bytes} {q : GossipPacket}
    (ht : q.timestamp.toNat ≤ 9007199254740991) :
    PowPolicy.verifyPow sha256 q.headerView q.powNonce.toNat =
      .ok (verifyPow sha256 q.committedHeader q.powNonce) := by
  have hd := q.powDifficulty.toNat_lt
  have hdiff := numberOf_safe (show q.powDifficulty.toNat ≤ 9007199254740991 by omega)
  have hnum : q.headerView.powDifficulty.number = .ok (Number.ofInt q.powDifficulty.toNat) := by
    change (numberOf q.powDifficulty.toNat).number = _
    rw [hdiff]
    rfl
  have hint : PowPolicy.integer? q.headerView.powDifficulty = some (q.powDifficulty.toNat : Int) :=
    integer?_numberOf (by omega)
  have hmin : q.committedHeader.powDifficulty < minDifficulty ↔
      q.powDifficulty.toNat < PowPolicy.minDifficulty := UInt32.lt_iff_toNat_lt
  have hmax : q.committedHeader.powDifficulty > maxDifficulty ↔
      PowPolicy.maxDifficulty < q.powDifficulty.toNat := UInt32.lt_iff_toNat_lt
  unfold PowPolicy.verifyPow verifyPow
  simp only [hnum,hint,bind,Except.bind,lt_ofNat,ofNat_lt,hmin,hmax,Bool.or_eq_true,
    decide_eq_true_eq]
  by_cases hlow : q.powDifficulty.toNat < PowPolicy.minDifficulty
  · simp [hlow]
  by_cases hhigh : PowPolicy.maxDifficulty < q.powDifficulty.toNat
  · simp [hhigh]
  simp only [hlow,hhigh,or_self,if_false]
  cases hp : preimage q.committedHeader with
  | none =>
    cases hb : PowPolicy.powPreimage q.headerView with
    | error e => rfl
    | ok bs =>
      obtain ⟨-,hbs⟩ := powPreimage_headerView.mp hb
      rw [hp] at hbs
      cases hbs
  | some bs =>
    have hb := powPreimage_headerView.mpr ⟨ht,hp⟩
    rw [hb]
    exact congrArg Except.ok (meetsDifficulty_eq _ _).symm

/-- Whether a time is one the relays take: not far ahead, and not far behind unless the
stale pass too. -/
def Window (q : GossipPacket) (now : Nat) (allowStale : Bool) : Prop :=
  q.timestamp.toNat ≤ now+PowPolicy.maxTimeDrift ∧
    (allowStale = true ∨ now ≤ q.timestamp.toNat+PowPolicy.maxTimeDrift)

/-- The numbers of the packet that the browser takes only up to 2^53-1. -/
def Safe (q : GossipPacket) : Prop :=
  q.timestamp.toNat ≤ 9007199254740991 ∧ q.powNonce.toNat ≤ 9007199254740991

theorem Sound.id_length {sha256 : Bytes → Bytes} {q : GossipPacket} (h : Sound sha256 q) :
    utf16Length q.packetId = 64 := by
  obtain ⟨bs,-,hid⟩ := packetId_some h.id_hash
  have hlen := h.id_hex.1
  rw [hid,utf16Length_of_ascii (Bytes.toHex_ascii _),Bytes.toHex_length]
  rw [hid,Bytes.utf8_toHex_length] at hlen
  exact hlen

theorem check_views {sha256 : Bytes → Bytes} {v : Val} {q : GossipPacket} (hv : Views v q)
    (now : Nat) (allowStale : Bool) : PacketValidator.check sha256 v ⟨now,allowStale⟩ = .ok .ok ↔
      Sound sha256 q ∧ Window q now allowStale ∧ Safe q := by
  have hhop := q.hopCount.toNat_lt
  have hhopCount := nonNegative?_integer (show q.hopCount.toNat ≤ 9007199254740991 by omega)
  rw [PacketValidator.check_iff]
  simp only [PacketValidator.checkHeader_iff,PacketValidator.timestamp?,hv.isObject,hv.packetId,
    hv.timestamp,hv.committedHeaderOf,hv.hopCount,hv.powNonce,nonNegative?_safe,hhopCount]
  constructor
  · intro h
    obtain ⟨-,id,t,header,hid,ht,hc,hpayload,hnonce,⟨hop,hh,hle⟩,n,hn,hfuture,hstale,hd,hpow⟩ := h
    obtain ⟨hts,hteq⟩ := Option.ite_none_right_eq_some.mp ht
    obtain ⟨hns,hneq⟩ := Option.ite_none_right_eq_some.mp hn
    obtain ⟨hlen,hid⟩ := Option.ite_none_right_eq_some.mp hid
    cases hteq
    cases hneq
    cases hid
    cases hc
    cases hh
    have hhash := (derivePacketId_headerView.mp hd).2
    obtain ⟨bs,-,hhex⟩ := packetId_some hhash
    rw [verifyPow_headerView hts] at hpow
    have hutf8 : (Bytes.utf8 q.packetId).length = 64 := by
      rw [hhex,utf16Length_of_ascii (Bytes.toHex_ascii _)] at hlen
      rw [hhex,Bytes.utf8_length_of_ascii (Bytes.toHex_ascii _)]
      exact hlen
    have hdigits : (Bytes.utf8 q.packetId).all isAsciiHexdigit = true := by
      rw [hhex]
      exact isAsciiHexdigit_toHex _
    refine ⟨⟨?_,hpayload.2,hnonce,UInt32.le_iff_toNat_le.mpr hle,hhash,⟨hutf8,hdigits⟩,
      Except.ok.inj hpow⟩,⟨by omega,?_⟩,hts,hns⟩
    · exact List.length_pos_iff.mp (Nat.pos_of_ne_zero hpayload.1)
    · exact hstale.imp_right fun hle => by omega
  · intro h
    obtain ⟨hs,hw,hsafe⟩ := h
    refine ⟨trivial,q.packetId,q.timestamp.toNat,q.headerView,?_,by simp [hsafe.1],rfl,?_,
      hs.nonce_length,⟨_,rfl,?_⟩,q.powNonce.toNat,by simp [hsafe.2],?_,?_,?_,?_⟩
    · simp [PacketValidator.packetId?,hs.id_length]
    · have hpos := List.length_pos_iff.mpr hs.payload_pos
      exact ⟨Nat.ne_of_gt hpos,hs.payload_le⟩
    · exact UInt32.le_iff_toNat_le.mp hs.hopCount_le
    · have hfuture := hw.1
      omega
    · exact hw.2.imp_right fun hle => by omega
    · exact derivePacketId_headerView.mpr ⟨hsafe.1,hs.id_hash⟩
    · rw [verifyPow_headerView hsafe.1,hs.pow]

/-- A whole number that the browser holds exactly and that fits into a word. -/
def word? (limit : Nat) (v : Val) : Option Nat :=
  (PacketValidator.nonNegative? (PowPolicy.safeInteger? v)).filter fun n => decide (n < limit)

/-- The packet that a value is, if its numbers are safe integers. -/
def packetOf (v : Val) : Option GossipPacket := do
  let packetId ← PacketValidator.packetId? (v.field "packet_id")
  let hopCount ← word? (2^32) (v.field "hop_count")
  let powNonce ← word? (2^64) (v.field "pow_nonce")
  let powDifficulty ← word? (2^32) (v.field "pow_difficulty")
  let timestamp ← word? (2^64) (v.field "timestamp")
  let zoneId ← word? (2^32) (v.field "zone_id")
  let nonce ← (PowPolicy.toBytes (v.field "nonce")).toOption
  let payload ← (PowPolicy.toBytes (v.field "payload")).toOption
  some ⟨packetId,.ofNat hopCount,.ofNat powNonce,.ofNat powDifficulty,.ofNat timestamp,
    .ofNat zoneId,nonce,payload⟩

theorem nonNegative?_some {o : Option Int} {n : Nat} :
    PacketValidator.nonNegative? o = some n ↔ o = some (n : Int) := by
  cases o with
  | none => simp [PacketValidator.nonNegative?]
  | some i =>
    simp only [PacketValidator.nonNegative?,Option.bind_some,Option.ite_none_right_eq_some,
      Option.some.injEq]
    omega

theorem safeInteger?_some {v : Val} {n : Nat} : PowPolicy.safeInteger? v = some (n : Int) ↔
    v = .num (Number.ofInt n) ∧ n ≤ 9007199254740991 := by
  constructor
  · intro h
    have hv := PowPolicy.safeInteger?_num h
    rw [hv] at h
    have hle : |(n : Int)| ≤ Number.maxSafeInteger := (Number.toSafeInt?_eq_some h).2
    rw [Nat.abs_cast,Number.maxSafeInteger] at hle
    exact ⟨hv,by omega⟩
  · intro h
    rw [h.1,← numberOf_safe h.2,safeInteger?_numberOf,if_pos h.2]

theorem word?_some {limit n : Nat} {v : Val} : word? limit v = some n ↔
    (v = .num (Number.ofInt n) ∧ n ≤ 9007199254740991) ∧ n < limit := by
  unfold word?
  rw [Option.filter_eq_some_iff,nonNegative?_some,safeInteger?_some,decide_eq_true_iff]

theorem numberOf_word {limit n : Nat} {v : Val} (h : word? limit v = some n) : v = numberOf n := by
  obtain ⟨⟨hv,hn⟩,-⟩ := word?_some.mp h
  rw [hv,numberOf_safe hn]

theorem views_of_packetOf {v : Val} {q : GossipPacket} (h : packetOf v = some q) : Views v q := by
  simp only [packetOf,bind,Option.bind_eq_some_iff] at h
  obtain ⟨id,hid,hop,hhop,pn,hpn,d,hd,t,ht,z,hz,nonce,hnonce,payload,hpayload,hq⟩ := h
  cases hq
  have hopLt := (word?_some.mp hhop).2
  have pnLt := (word?_some.mp hpn).2
  have dLt := (word?_some.mp hd).2
  have tLt := (word?_some.mp ht).2
  have zLt := (word?_some.mp hz).2
  have hstr : v.field "packet_id" = .str id := by
    unfold PacketValidator.packetId? at hid
    split at hid
    · next s heq =>
      cases (Option.ite_none_right_eq_some.mp hid).2
      exact heq
    · cases hid
  have hbytes : ∀ {w : Val} {bs : Bytes}, (PowPolicy.toBytes w).toOption = some bs →
      PowPolicy.toBytes w = .ok bs := by
    intro w bs hw
    cases hb : PowPolicy.toBytes w with
    | error e => simp [hb,Except.toOption] at hw
    | ok bs' => simpa [hb,Except.toOption] using hw
  refine ⟨?_,hstr,?_,?_,?_,?_,?_,hbytes hnonce,hbytes hpayload⟩
  · cases v with
    | obj fs => rfl
    | _ => cases hstr
  · exact (numberOf_word hhop).trans (congrArg numberOf (UInt32.toNat_ofNat_of_lt' hopLt).symm)
  · exact (numberOf_word hpn).trans (congrArg numberOf (UInt64.toNat_ofNat_of_lt' pnLt).symm)
  · exact (numberOf_word hd).trans (congrArg numberOf (UInt32.toNat_ofNat_of_lt' dLt).symm)
  · exact (numberOf_word ht).trans (congrArg numberOf (UInt64.toNat_ofNat_of_lt' tLt).symm)
  · exact (numberOf_word hz).trans (congrArg numberOf (UInt32.toNat_ofNat_of_lt' zLt).symm)

theorem packetOf_of_check {sha256 : Bytes → Bytes} {v : Val} {opts : PacketValidator.ValidateOptions}
    (h : PacketValidator.check sha256 v opts = .ok .ok) : ∃ q, packetOf v = some q := by
  obtain ⟨-,id,t,header,hid,ht,hc,hcheck⟩ := PacketValidator.check_iff.mp h
  obtain ⟨-,-,⟨hop,hh,hle⟩,n,hn,-,-,hd,-⟩ := PacketValidator.checkHeader_iff.mp hcheck
  obtain ⟨nonce,hnonce,hc⟩ := bind_ok hc
  obtain ⟨payload,hpayload,hc⟩ := bind_ok hc
  cases hc
  obtain ⟨bs,hbs,-⟩ := PacketValidator.derivePacketId_ok hd
  obtain ⟨t',z,d,hcom,-⟩ := PowPolicy.powPreimage_ok hbs
  have hop' : word? (2^32) (v.field "hop_count") = some hop := by
    have hlt : hop ≤ 30 := hle
    rw [word?_some]
    exact ⟨⟨PowPolicy.integer?_num (nonNegative?_some.mp hh),by omega⟩,by omega⟩
  have hword : ∀ {k : Nat} {w : Val}, PacketValidator.nonNegative? (PowPolicy.safeInteger? w) =
      some k → word? (2^64) w = some k := by
    intro k w hk
    have hsafe := safeInteger?_some.mp (nonNegative?_some.mp hk)
    exact word?_some.mpr ⟨hsafe,by omega⟩
  have hz : word? (2^32) (v.field "zone_id") = some z := by
    have hlt := hcom.zoneId_lt
    exact word?_some.mpr ⟨⟨hcom.zoneId_eq,by omega⟩,by omega⟩
  have hd : word? (2^32) (v.field "pow_difficulty") = some d := by
    have hlt := hcom.difficulty_lt
    exact word?_some.mpr ⟨⟨hcom.difficulty_eq,by omega⟩,by omega⟩
  have hpow := hword hn
  have htime : word? (2^64) (v.field "timestamp") = some t := hword ht
  unfold packetOf
  rw [hid,hop',hpow,hd,htime,hz,hnonce,hpayload]
  exact ⟨_,rfl⟩

/-- A time that `Date.now` gives. -/
structure Clock where
  now : UInt64
  now_le : now.toNat ≤ 8640000000000000

/-- The time check of the node, which it leaves out when the time is 0. -/
def InTime (q : GossipPacket) (c : Clock) (allowStale : Bool) : Prop :=
  c.now = 0 ∨ Window q c.now.toNat allowStale

theorem saturatingSub_toNat (a b : UInt64) : (saturatingSub a b).toNat = a.toNat-b.toNat := by
  unfold saturatingSub
  split
  · next h => exact UInt64.toNat_sub_of_le a b h
  · next h =>
    have hlt := UInt64.lt_iff_toNat_lt.mp (UInt64.not_le.mp h)
    rw [Nat.sub_eq_zero_of_le hlt.le]
    rfl

theorem outsideDrift_iff (q : GossipPacket) (c : Clock) (allowStale : Bool) :
    outsideDrift q.timestamp ⟨c.now,allowStale⟩ = false ↔ InTime q c allowStale := by
  have hle := c.now_le
  have hadd : (c.now+maxTimeDriftMs).toNat = c.now.toNat+PowPolicy.maxTimeDrift := by
    rw [UInt64.toNat_add]
    exact Nat.mod_eq_of_lt (by change c.now.toNat+900000 < 2^64; omega)
  have hfuture : q.timestamp > c.now+maxTimeDriftMs ↔
      c.now.toNat+PowPolicy.maxTimeDrift < q.timestamp.toNat := by
    rw [gt_iff_lt,UInt64.lt_iff_toNat_lt,hadd]
  have hstale : saturatingSub c.now q.timestamp > maxTimeDriftMs ↔
      PowPolicy.maxTimeDrift < c.now.toNat-q.timestamp.toNat := by
    rw [gt_iff_lt,UInt64.lt_iff_toNat_lt,saturatingSub_toNat]
    rfl
  have hzero : c.now > 0 ↔ ¬c.now = 0 := by
    rw [gt_iff_lt,UInt64.pos_iff_ne_zero]
  unfold outsideDrift InTime Window
  simp only [hfuture,hstale,hzero]
  by_cases h0 : c.now = 0
  · simp [h0]
  · cases allowStale with
    | true => simp [h0]
    | false =>
      simp [h0]
      omega

/-- What the node takes is no more than what the browser takes: the packet is in time by
the browser's check, and its numbers are safe integers. -/
def SameVerdict (sha256 : Bytes → Bytes) (q : GossipPacket) (c : Clock) (allowStale : Bool) :
    Prop :=
  Sound sha256 q → InTime q c allowStale → Window q c.now.toNat allowStale ∧ Safe q

theorem packets_agree {sha256 : Bytes → Bytes} {v : Val} {q : GossipPacket} (hv : Views v q)
    (c : Clock) (allowStale : Bool) :
    (PacketValidator.check sha256 v ⟨c.now.toNat,allowStale⟩ = .ok .ok ↔
      checkPacket sha256 q ⟨c.now,allowStale⟩ = .ok ()) ↔ SameVerdict sha256 q c allowStale := by
  rw [check_views hv,checkPacket_ok,outsideDrift_iff]
  unfold SameVerdict InTime
  tauto

end Cache
