import AetherLite.Cache.SamePackets
import AetherLite.Mailbox.MailboxEntry

/-! Which mailbox entries the browser and the cache node both accept. -/
set_option autoImplicit false

namespace Cache

open Js

/-- The two readings of a slot have one hint and one body. -/
structure SameSlot (slot : Hint.SlotBlob) (s : SlotBlob) : Prop where
  body : s.body = slot.body
  mirrors : Commitment.Mirrors (.hint slot.hint) (.hint s.hint)
  powNonce : s.hint.powNonce.toNat = slot.hint.powNonce

/-- The length in front is that of a hint, and so much follows. -/
def HasSlot (bs : Bytes) : Prop :=
  Bytes.toNat (bs.take 4) = Hint.encodedHintSize ∧ 4+Hint.encodedHintSize ≤ bs.length

/-- The bytes of the hint of a slot. -/
def hintBytes (bs : Bytes) : Bytes := (bs.drop 4).take Hint.encodedHintSize

theorem hintBytes_length {bs : Bytes} (h : HasSlot bs) :
    (hintBytes bs).length = Hint.encodedHintSize := by
  have hlen := h.2
  rw [hintBytes,List.length_take,List.length_drop]
  omega

theorem decodeSlot_none {bs : Bytes} (h : ¬HasSlot bs) :
    decodeSlot bs = none ∧ Hint.decodeSlotBlob bs = none := by
  unfold decodeSlot Hint.decodeSlotBlob
  by_cases hlen : bs.length < 4
  · simp [hlen]
  by_cases heq : Bytes.toNat (bs.take 4) = Hint.encodedHintSize
  · have hshort : bs.length < 4+Hint.encodedHintSize := not_le.mp fun hle => h ⟨heq,hle⟩
    have hnode : ¬Bytes.toNat (bs.take 4) ≠ encodedHintSize := not_not.mpr heq
    simp [hlen,heq,hshort]
  · have hnode : Bytes.toNat (bs.take 4) ≠ encodedHintSize := heq
    simp [hlen,heq,hnode]

theorem decodeSlot_some {bs : Bytes} (h : HasSlot bs) :
    decodeSlot bs = some {
      ttl := (hintBytes bs).getD 1 0
      hint := {
        version := (hintBytes bs).getD 0 0
        blindTag := ((hintBytes bs).drop 2).take blindTagSize
        nonce := ((hintBytes bs).drop 6).take hintNonceSize
        powNonce := UInt64.ofNat (Bytes.toNat (((hintBytes bs).drop 18).take 8))
        ciphertext := (hintBytes bs).drop 26 }
      body := bs.drop (4+Hint.encodedHintSize) } ∧
    Hint.decodeSlotBlob bs = (Hint.decodeHint (hintBytes bs)).map fun hint =>
      ⟨hint,bs.drop (4+Hint.encodedHintSize)⟩ := by
  obtain ⟨heq,hle⟩ := h
  have hlen : ¬bs.length < 4 := by omega
  have hlong : ¬bs.length < 4+Hint.encodedHintSize := by omega
  have hnode : Bytes.toNat (bs.take 4) = encodedHintSize := heq
  constructor
  · unfold decodeSlot
    have hlong' : ¬bs.length < 4+encodedHintSize := hlong
    simp only [if_neg hlen,hnode,hlong',ne_eq,not_true_eq_false,decide_false,Bool.or_self,
      Bool.false_eq_true,if_false]
    rfl
  · unfold Hint.decodeSlotBlob
    simp [hlen,heq,hlong,hintBytes]

theorem hasSlot_of_decodeSlot {bs : Bytes} {s : SlotBlob} (h : decodeSlot bs = some s) :
    HasSlot bs := by
  by_contra hno
  rw [(decodeSlot_none hno).1] at h
  cases h

theorem toNat_take_one {bs : Bytes} (h : 0 < bs.length) :
    Bytes.toNat (bs.take 1) = (bs.getD 0 0).toNat := by
  cases bs with
  | nil => cases h
  | cons b bs => simp [Bytes.toNat]

/-- The browser reads a slot only if the hint is of its version and its proof-of-work nonce
is a safe integer; it reads what the node reads. -/
theorem decodeSlotBlob_some {bs : Bytes} {s : SlotBlob} (h : decodeSlot bs = some s) :
    (∀ slot, Hint.decodeSlotBlob bs = some slot → SameSlot slot s) ∧
      ((Hint.decodeSlotBlob bs).isSome ↔
        s.hint.version = hintVersion ∧ s.hint.powNonce.toNat ≤ Hint.maxSafeNat) := by
  have hslot := hasSlot_of_decodeSlot h
  obtain ⟨hnode,hbrowser⟩ := decodeSlot_some hslot
  have hlen := hintBytes_length hslot
  have hs := Option.some.inj (h.symm.trans hnode)
  have hpos : 0 < (hintBytes bs).length := by
    rw [hlen]
    decide
  have hversion : Bytes.toNat ((hintBytes bs).take 1) = s.hint.version.toNat := by
    rw [toNat_take_one hpos,hs]
  have hnonce : Bytes.toNat (((hintBytes bs).drop 18).take 8) = s.hint.powNonce.toNat := by
    have hlt := Bytes.toNat_lt (((hintBytes bs).drop 18).take 8)
    have hle : (((hintBytes bs).drop 18).take 8).length ≤ 8 := List.length_take_le _ _
    have hpow : Bytes.toNat (((hintBytes bs).drop 18).take 8) < 2^64 :=
      lt_of_lt_of_le hlt (Nat.pow_le_pow_right (by decide) hle)
    rw [hs]
    exact (UInt64.toNat_ofNat_of_lt' hpow).symm
  have hone : s.hint.version = hintVersion ↔ s.hint.version.toNat = Hint.hintVersion := by
    rw [← UInt8.toNat_inj]
    rfl
  rw [hbrowser]
  unfold Hint.decodeHint
  rw [dif_pos hlen,hversion,hone]
  by_cases hv : s.hint.version.toNat = Hint.hintVersion
  · by_cases hn : Bytes.toNat (((hintBytes bs).drop 18).take 8) ≤ Hint.maxSafeNat
    · rw [if_pos hv,dif_pos hn]
      refine ⟨fun slot hsome => ?_,by simp [hv,← hnonce,hn]⟩
      cases hsome
      refine ⟨by rw [hs],⟨hv,?_,?_,?_⟩,hnonce.symm⟩ <;> rw [hs] <;> rfl
    · rw [if_pos hv,dif_neg hn,← hnonce]
      simp [hn]
  · rw [if_neg hv]
    simp [hv]

/-- What is not a slot in the browser but one on the node begins with a zero byte. -/
theorem HasSlot.zero {bs : Bytes} (h : HasSlot bs) : ∃ rest, bs = 0 :: rest := by
  obtain ⟨heq,hle⟩ := h
  match bs,heq,hle with
  | a :: b :: c :: d :: rest,heq,_ =>
    have hsum : ((a.toNat*256+b.toNat)*256+c.toNat)*256+d.toNat = 90 := by
      have hsize : Hint.encodedHintSize = 90 := rfl
      simpa [Bytes.toNat,hsize] using heq
    have ha : a.toNat = (0 : UInt8).toNat := by
      rw [UInt8.toNat_zero]
      omega
    exact ⟨b :: c :: d :: rest,by rw [UInt8.toNat_inj.mp ha]⟩

section
variable {sha256 : Bytes → Bytes} {fromSlice : Bytes → Option GossipPacket}

theorem SameSlot.check_iff {slot : Hint.SlotBlob} {s : SlotBlob} (h : SameSlot slot s) :
    s.hint.check sha256 hintPowDifficulty = .ok () ↔
      Hint.verifyHintPow sha256 slot.hint = true := by
  obtain ⟨hversion,htag,hnonce,hct⟩ := h.mirrors
  have hpre : s.hint.preimage = some (Hint.hintPreimage slot.hint) :=
    Commitment.preimage_of_mirrors h.mirrors rfl
  have hv : s.hint.version = hintVersion := UInt8.toNat_inj.mp hversion
  have htl : s.hint.blindTag.length = blindTagSize := by
    rw [htag]
    exact slot.hint.blindTag_length
  have hnl : s.hint.nonce.length = hintNonceSize := by
    rw [hnonce]
    exact slot.hint.nonce_length
  have hcl : s.hint.ciphertext.length = hintCiphertextSize := by
    rw [hct]
    exact slot.hint.ciphertext_length
  rw [HintView.check_ok (by decide)]
  simp only [hv,htl,hnl,hcl,hpre,Option.some.injEq,exists_eq_left',true_and,meetsDifficulty_eq,
    powHash,toBeBytes64,h.powNonce]
  rfl

/-- The bytes of an entry that the node parses as a packet. -/
def packetBytes (sha256 : Bytes → Bytes) (entry : Bytes) : Option Bytes :=
  if entry.isEmpty || entry.length > maxEntryBytes then none
  else match decodeSlot entry with
  | some slot =>
    match slot.hint.check sha256 hintPowDifficulty with
    | .error _ => none
    | .ok () => some slot.body
  | none => some entry

/-- The proof-of-work nonce of the hint, if there is one, is a safe integer. -/
def SafeHint (entry : Bytes) : Prop :=
  ∀ s, decodeSlot entry = some s → s.hint.powNonce.toNat ≤ Hint.maxSafeNat

/-- The browser takes the bytes as a packet. -/
def BrowserTakes (sha256 : Bytes → Bytes) (bs : Bytes) (now : Nat) : Prop :=
  ∃ v, JsonBinary.parse bs = .ok v ∧ PacketValidator.check sha256 v ⟨now,true⟩ = .ok .ok

/-- The node takes the bytes as a packet. -/
def NodeTakes (sha256 : Bytes → Bytes) (fromSlice : Bytes → Option GossipPacket) (bs : Bytes)
    (now : UInt64) : Prop :=
  ∃ q, fromSlice bs = some q ∧ checkPacket sha256 q ⟨now,true⟩ = .ok ()

theorem browser_checkPacketBytes (bs : Bytes) (now : Nat) :
    (∃ v, MailboxEntry.checkPacketBytes sha256 bs now = .ok (.ok v)) ↔
      BrowserTakes sha256 bs now := by
  unfold MailboxEntry.checkPacketBytes BrowserTakes
  cases JsonBinary.parse bs with
  | error e => simp
  | ok packet =>
    cases ho : packet.isObject with
    | false => simp [PacketValidator.check,ho]
    | true =>
      cases hc : PacketValidator.check sha256 packet ⟨now,true⟩ with
      | error e => simp [ho,hc,bind,Except.bind]
      | ok result => cases result <;> simp [ho,hc,bind,Except.bind]

theorem browser_checkEntry (entry : Bytes) (now : Nat) :
    (∃ v, MailboxEntry.checkEntry sha256 entry now = .ok (.ok v)) ↔
      ∃ bs, MailboxEntry.packetBytes sha256 entry = some bs ∧ BrowserTakes sha256 bs now := by
  unfold MailboxEntry.checkEntry MailboxEntry.packetBytes
  by_cases hsize : entry.length = 0 ∨ entry.length > MailboxEntry.maxEntryBytes
  · simp only [if_pos hsize]
    simp
  simp only [if_neg hsize]
  cases Hint.decodeSlotBlob entry with
  | none => simp [browser_checkPacketBytes]
  | some slot =>
    cases hpow : Hint.verifyHintPow sha256 slot.hint with
    | false => simp [hpow]
    | true => simp [hpow,browser_checkPacketBytes]

theorem node_checkPacketBytes (bs : Bytes) (now : UInt64) :
    (∃ q, checkPacketBytes sha256 fromSlice bs now = .ok q) ↔
      NodeTakes sha256 fromSlice bs now := by
  unfold checkPacketBytes NodeTakes
  cases fromSlice bs with
  | none => simp
  | some packet =>
    cases hc : checkPacket sha256 packet ⟨now,true⟩ with
    | error reason => simp [hc]
    | ok u => simp [hc]

theorem node_checkEntry (entry : Bytes) (now : UInt64) :
    (∃ q, checkEntry sha256 fromSlice entry now = .ok q) ↔
      ∃ bs, packetBytes sha256 entry = some bs ∧ NodeTakes sha256 fromSlice bs now := by
  unfold checkEntry packetBytes
  cases hsize : entry.isEmpty || decide (entry.length > maxEntryBytes) with
  | true => simp
  | false =>
    cases decodeSlot entry with
    | none => simp [node_checkPacketBytes]
    | some slot =>
      cases hc : slot.hint.check sha256 hintPowDifficulty with
      | error e => simp [hc]
      | ok u => simp [hc,node_checkPacketBytes]

theorem not_browserTakes_slot {entry : Bytes} (h : HasSlot entry) (now : Nat) :
    ¬BrowserTakes sha256 entry now := by
  rintro ⟨v,hv,-⟩
  obtain ⟨rest,rfl⟩ := h.zero
  obtain ⟨e,he⟩ := JsonText.parseBytes_zero JsonBinary.reviver rest
  rw [JsonBinary.parse,he] at hv
  cases hv

/-- Of an entry with a safe hint the two parse the same bytes, but for what the browser
cannot parse. -/
theorem packetBytes_safe {entry : Bytes} (hsafe : SafeHint entry) (now : Nat) :
    (∃ bs, MailboxEntry.packetBytes sha256 entry = some bs ∧ BrowserTakes sha256 bs now) ↔
      ∃ bs, packetBytes sha256 entry = some bs ∧ BrowserTakes sha256 bs now := by
  have hempty : (entry.isEmpty || decide (entry.length > maxEntryBytes)) = true ↔
      entry.length = 0 ∨ entry.length > MailboxEntry.maxEntryBytes := by
    rw [Bool.or_eq_true,List.isEmpty_iff_length_eq_zero,decide_eq_true_iff]
    rfl
  unfold MailboxEntry.packetBytes packetBytes
  by_cases hsize : entry.length = 0 ∨ entry.length > MailboxEntry.maxEntryBytes
  · rw [if_pos hsize,if_pos (hempty.mpr hsize)]
  rw [if_neg hsize,if_neg (hempty.not.mpr hsize)]
  cases hd : decodeSlot entry with
  | none =>
    have hno : ¬HasSlot entry := by
      intro hslot
      rw [(decodeSlot_some hslot).1] at hd
      cases hd
    rw [(decodeSlot_none hno).2]
  | some s =>
    obtain ⟨hsame,hsome⟩ := decodeSlotBlob_some hd
    cases hb : Hint.decodeSlotBlob entry with
    | none =>
      have hversion : s.hint.version ≠ hintVersion := by
        intro hv
        have := hsome.mpr ⟨hv,hsafe s hd⟩
        simp [hb] at this
      have hfail : s.hint.check sha256 hintPowDifficulty ≠ .ok () := by
        intro hok
        exact hversion ((HintView.check_ok (by decide)).mp hok).1
      cases hc : s.hint.check sha256 hintPowDifficulty with
      | ok u => exact absurd hc hfail
      | error e => simp [hc,not_browserTakes_slot (hasSlot_of_decodeSlot hd)]
    | some slot =>
      have hcheck : s.hint.check sha256 hintPowDifficulty = .ok () ↔
          Hint.verifyHintPow sha256 slot.hint = true := (hsame slot hb).check_iff
      have hbody := (hsame slot hb).body
      by_cases hpow : Hint.verifyHintPow sha256 slot.hint = true
      · simp [hpow,hcheck.mpr hpow,hbody]
      · cases hc : s.hint.check sha256 hintPowDifficulty with
        | ok u => exact absurd (hcheck.mp hc) hpow
        | error e => simp [hc,hpow]

/-- With an unsafe hint there is no slot for the browser, and what is left is no JSON. -/
theorem not_browserTakes {entry : Bytes} (hlarge : ¬SafeHint entry) (now : Nat) :
    ¬∃ bs, MailboxEntry.packetBytes sha256 entry = some bs ∧ BrowserTakes sha256 bs now := by
  simp only [SafeHint,not_forall] at hlarge
  obtain ⟨s,hd,hlarge⟩ := hlarge
  have hnone : Hint.decodeSlotBlob entry = none := by
    cases hb : Hint.decodeSlotBlob entry with
    | none => rfl
    | some slot => exact absurd ((decodeSlotBlob_some hd).2.mp (by simp [hb])).2 hlarge
  rintro ⟨bs,hbs,htakes⟩
  unfold MailboxEntry.packetBytes at hbs
  split at hbs
  · cases hbs
  · rw [hnone] at hbs
    cases hbs
    exact not_browserTakes_slot (hasSlot_of_decodeSlot hd) now htakes

/-- The fields of a packet have the kinds of values that its type gives them. -/
structure Typed (v : Val) : Prop where
  packetId : ∃ s, v.field "packet_id" = .str s
  numbers : ∀ key ∈ ["hop_count","pow_nonce","pow_difficulty","timestamp","zone_id"],
    ∃ n, v.field key = .num n
  bytes : ∀ key ∈ ["nonce","payload"], (v.field key).isObject = true

/-- How the two read bytes as a packet: what both read is one packet in the sense of
`SameVerdict`, and what only one of them reads is no packet that it takes. -/
structure SameReading (sha256 : Bytes → Bytes) (fromSlice : Bytes → Option GossipPacket)
    (bs : Bytes) (c : Clock) : Prop where
  both : ∀ v q, JsonBinary.parse bs = .ok v → Typed v → fromSlice bs = some q →
    SameVerdict sha256 q c true
  node : (∀ v, JsonBinary.parse bs = .ok v → ¬Typed v) → ∀ q, fromSlice bs = some q →
    ¬(Sound sha256 q ∧ InTime q c true)
  browser : fromSlice bs = none → ∀ v q, JsonBinary.parse bs = .ok v → Views v q →
    ¬(Sound sha256 q ∧ Window q c.now.toNat true ∧ Safe q)

theorem isObject_of_toBytes {v : Val} {bs : Bytes} (h : PowPolicy.toBytes v = .ok bs)
    (hne : bs ≠ []) : v.isObject = true := by
  cases v with
  | bytes | date | arr | obj => rfl
  | _ =>
    cases h
    exact absurd rfl hne

theorem typed_of_sound {v : Val} {q : GossipPacket} (hv : Views v q) (hs : Sound sha256 q) :
    Typed v where
  packetId := ⟨_,hv.packetId⟩
  numbers := by
    simp only [List.forall_mem_cons,hv.hopCount,hv.powNonce,hv.powDifficulty,hv.timestamp,
      hv.zoneId]
    simp [numberOf]
  bytes := by
    have hne : q.nonce ≠ [] := by
      intro hnil
      have hlen := hs.nonce_length
      rw [hnil] at hlen
      cases hlen
    simp [isObject_of_toBytes hv.nonce hne,isObject_of_toBytes hv.payload hs.payload_pos]

theorem browserTakes_iff (bs : Bytes) (now : Nat) : BrowserTakes sha256 bs now ↔
    ∃ v q, JsonBinary.parse bs = .ok v ∧ Views v q ∧ Sound sha256 q ∧ Window q now true ∧
      Safe q := by
  constructor
  · intro ⟨v,hv,hcheck⟩
    obtain ⟨q,hq⟩ := packetOf_of_check hcheck
    have hviews := views_of_packetOf hq
    exact ⟨v,q,hv,hviews,(check_views hviews now true).mp hcheck⟩
  · intro ⟨v,q,hv,hviews,hrest⟩
    exact ⟨v,hv,(check_views hviews now true).mpr hrest⟩

theorem nodeTakes_iff (bs : Bytes) (c : Clock) : NodeTakes sha256 fromSlice bs c.now ↔
    ∃ q, fromSlice bs = some q ∧ Sound sha256 q ∧ InTime q c true := by
  simp only [NodeTakes,checkPacket_ok,outsideDrift_iff]

theorem sameReading_both {bs : Bytes} {c : Clock} {v : Val} {q : GossipPacket}
    (hv : JsonBinary.parse bs = .ok v) (ht : Typed v) (hq : fromSlice bs = some q) :
    SameReading sha256 fromSlice bs c ↔ SameVerdict sha256 q c true := by
  constructor
  · intro h
    exact h.both v q hv ht hq
  · intro h
    refine ⟨fun v' q' _ _ hq' => ?_,fun hno => absurd ht (hno v hv),fun hno => ?_⟩
    · cases hq.symm.trans hq'
      exact h
    · cases hq.symm.trans hno

theorem sameReading_node {bs : Bytes} {c : Clock} {q : GossipPacket}
    (hno : ∀ v, JsonBinary.parse bs = .ok v → ¬Typed v) (hq : fromSlice bs = some q) :
    SameReading sha256 fromSlice bs c ↔ ¬(Sound sha256 q ∧ InTime q c true) := by
  constructor
  · intro h
    exact h.node hno q hq
  · intro h
    refine ⟨fun v _ hv ht => absurd ht (hno v hv),fun _ q' hq' => ?_,fun hnone => ?_⟩
    · cases hq.symm.trans hq'
      exact h
    · cases hq.symm.trans hnone

theorem sameReading_browser {bs : Bytes} {c : Clock} (hq : fromSlice bs = none) :
    SameReading sha256 fromSlice bs c ↔ ¬BrowserTakes sha256 bs c.now.toNat := by
  rw [browserTakes_iff]
  constructor
  · intro h ⟨v,q,hv,hviews,hok⟩
    exact h.browser hq v q hv hviews hok
  · intro h
    refine ⟨fun v q _ _ hsome => ?_,fun _ q hsome => ?_,fun _ v q hv hviews hok => ?_⟩
    · cases hq.symm.trans hsome
    · cases hq.symm.trans hsome
    · exact h ⟨v,q,hv,hviews,hok⟩

theorem bytes_agree (reads : ∀ bs v q, JsonBinary.parse bs = .ok v → Typed v →
      fromSlice bs = some q → Views v q) (bs : Bytes) (c : Clock) :
    (BrowserTakes sha256 bs c.now.toNat ↔ NodeTakes sha256 fromSlice bs c.now) ↔
      SameReading sha256 fromSlice bs c := by
  cases hq : fromSlice bs with
  | none =>
    rw [sameReading_browser hq]
    simp [NodeTakes,hq]
  | some q =>
    have hnode : NodeTakes sha256 fromSlice bs c.now ↔
        checkPacket sha256 q ⟨c.now,true⟩ = .ok () := by
      simp [NodeTakes,hq]
    by_cases htyped : ∃ v, JsonBinary.parse bs = .ok v ∧ Typed v
    · obtain ⟨v,hv,ht⟩ := htyped
      have hbrowser : BrowserTakes sha256 bs c.now.toNat ↔
          PacketValidator.check sha256 v ⟨c.now.toNat,true⟩ = .ok .ok := by
        simp [BrowserTakes,hv]
      rw [sameReading_both hv ht hq,hbrowser,hnode]
      exact packets_agree (reads bs v q hv ht hq) c true
    · have hno : ∀ v, JsonBinary.parse bs = .ok v → ¬Typed v := fun v hv ht => htyped ⟨v,hv,ht⟩
      have hbrowser : ¬BrowserTakes sha256 bs c.now.toNat := by
        rw [browserTakes_iff]
        rintro ⟨v,q',hv,hviews,hs,-⟩
        exact hno v hv (typed_of_sound hviews hs)
      rw [sameReading_node hno hq,hnode,checkPacket_ok,outsideDrift_iff]
      simp only [hbrowser,false_iff]

/-- How the two read an entry: with a safe hint, the bytes that the node parses; what has
an unsafe one is nothing that the node takes. -/
structure SameEntry (sha256 : Bytes → Bytes) (fromSlice : Bytes → Option GossipPacket)
    (entry : Bytes) (c : Clock) : Prop where
  safe : SafeHint entry → ∀ bs, packetBytes sha256 entry = some bs →
    SameReading sha256 fromSlice bs c
  hint : ¬SafeHint entry → ∀ bs q, packetBytes sha256 entry = some bs → fromSlice bs = some q →
    ¬(Sound sha256 q ∧ InTime q c true)

theorem entries_agree (reads : ∀ bs v q, JsonBinary.parse bs = .ok v → Typed v →
      fromSlice bs = some q → Views v q) (entry : Bytes) (c : Clock) :
    ((∃ v, MailboxEntry.checkEntry sha256 entry c.now.toNat = .ok (.ok v)) ↔
      ∃ q, checkEntry sha256 fromSlice entry c.now = .ok q) ↔
    SameEntry sha256 fromSlice entry c := by
  rw [browser_checkEntry,node_checkEntry]
  by_cases hsafe : SafeHint entry
  · rw [packetBytes_safe hsafe]
    have hentry : SameEntry sha256 fromSlice entry c ↔
        ∀ bs, packetBytes sha256 entry = some bs → SameReading sha256 fromSlice bs c :=
      ⟨fun h => h.safe hsafe,fun h => ⟨fun _ => h,fun hno => absurd hsafe hno⟩⟩
    rw [hentry]
    cases packetBytes sha256 entry with
    | none => simp
    | some bs => simp [← bytes_agree reads]
  · have hentry : SameEntry sha256 fromSlice entry c ↔ ∀ bs q, packetBytes sha256 entry = some bs →
        fromSlice bs = some q → ¬(Sound sha256 q ∧ InTime q c true) :=
      ⟨fun h => h.hint hsafe,fun h => ⟨fun hyes => absurd hyes hsafe,fun _ => h⟩⟩
    rw [hentry]
    simp only [not_browserTakes hsafe,false_iff,nodeTakes_iff]
    constructor
    · intro h bs q hbs hq hok
      exact h ⟨bs,hbs,q,hq,hok⟩
    · intro h ⟨bs,hbs,q,hq,hok⟩
      exact h bs q hbs hq hok

end

/-- The packets of a node that holds its numbers as the browser does. -/
def fromBrowser (bs : Bytes) : Option GossipPacket := (JsonBinary.parse bs).toOption.bind packetOf

theorem honestEntry_checked :
    ∃ q, checkEntry Sha256.sha256 fromBrowser MailboxEntry.honestEntry 1000 = .ok q := by
  have h : (checkEntry Sha256.sha256 fromBrowser MailboxEntry.honestEntry 1000).toOption.isSome =
      true := by decide +kernel
  obtain ⟨q,hq⟩ := Option.isSome_iff_exists.mp h
  exact ⟨q,Js.toOption_eq_some.mp hq⟩

/-- The honest packet with a proof-of-work nonce that is no safe integer. -/
def unsafePacket : GossipPacket where
  packetId := "f34f7f0d280c1878fba60035a4a8c7aabad51f66828e265a6842f4f3a7c2f341"
  hopCount := 0
  powNonce := 9007199254741425
  powDifficulty := 8
  timestamp := 0
  zoneId := 0
  nonce := List.replicate 12 0
  payload := [0]

/-- Its JSON. -/
def unsafeEntry : Bytes :=
  Bytes.bigEndian 40 0x7b227061636b65745f6964223a226633346637663064323830633138373866626136303033356134 ++
  Bytes.bigEndian 40 0x6138633761616261643531663636383238653236356136383432663466336137633266333431222c ++
  Bytes.bigEndian 40 0x22686f705f636f756e74223a302c22706f775f6e6f6e6365223a3930303731393932353437343134 ++
  Bytes.bigEndian 40 0x32352c22706f775f646966666963756c7479223a382c2274696d657374616d70223a302c227a6f6e ++
  Bytes.bigEndian 40 0x655f6964223a302c226e6f6e6365223a5b302c302c302c302c302c302c302c302c302c302c302c30 ++
  Bytes.bigEndian 16 0x5d2c227061796c6f6164223a5b305d7d

end Cache
