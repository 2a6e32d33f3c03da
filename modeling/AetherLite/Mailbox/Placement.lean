import AetherLite.Common.JsonBinaryRoundTrip
import AetherLite.Hint.HintArrivals
import AetherLite.Lib.Nearest
import AetherLite.Mailbox.DHTMailbox
import AetherLite.Mailbox.SlotStorage
import AetherLite.Network.Rebalance

/-! Who stores a slot: the nodes nearest to its topic, as each node sees the ring. The nodes need
not see the same peers. -/
set_option autoImplicit false

namespace DHTMailbox

open Js Network NodeIdentity
open Hint (HintPacket decodeHint encodeSlotBlob decodeSlotBlob)
open MailboxEntry (checkEntry checkPacketBytes filterValidEntries maxEntriesPerMessage)
open SlotStorage (Offer)

def kNearest : Nat := 5
def putAcceptSlack : Nat := 3

/-- The part of the ring that a node sees: itself, and the peers that are connected and verified,
with their positions. -/
structure View where
  me : PeerId × Number
  peers : List (PeerId × Number)

def View.candidates (v : View) : List (PeerId × Number) := v.peers ++ [v.me]

def viewOf {ρ μ : Type} (cfg : PeerManager.Config ρ μ) (s : PeerManager.State ρ μ) : View where
  me := (cfg.identity.peerId,cfg.identity.position)
  peers := s.verifiedPeers.map fun p => (p.peerId,p.position)

/-- A topic hash is lower-case hexadecimal, so its first digits are a number. -/
def hashToPosition (topicHashHex : String) : Number :=
  (Number.ofNat ((digitsValue 16 (topicHashHex.toList.take 8)).getD 0)).divBy 0xffffffff

/-- The comparison that `findKNearest` sorts by. -/
def closer (topicPos : Number) (a b : PeerId × Number) : Number :=
  (RingPosition.distance topicPos a.2).sub (RingPosition.distance topicPos b.2)

def View.nearest (v : View) (topicPos : Number) (k : Nat) : List (PeerId × Number) :=
  (sortBy (closer topicPos) v.candidates).take k

def findKNearest (v : View) (topicPos : Number) (k : Nat) : List PeerId :=
  (v.nearest topicPos k).map Prod.fst

def isResponsibleFor (v : View) (topicHashHex : String) : Bool :=
  (findKNearest v (hashToPosition topicHashHex) (kNearest+putAcceptSlack)).contains v.me.1

/-- What `putToKNearest` does with an entry: the peers it is sent to, and the call of
`acceptForStorage` for the node itself. -/
structure Put where
  topicHash : String
  entry : Bytes
  sent : List PeerId
  own : Option Offer

def putToKNearest (v : View) (topicHashHex : String) (data : Bytes) : Put :=
  let nearest := findKNearest v (hashToPosition topicHashHex) kNearest
  { topicHash := topicHashHex
    entry := data
    sent := nearest.filter fun id => id ≠ v.me.1
    own := if nearest.contains v.me.1 then some ⟨topicHashHex,[data],v.me.1⟩ else none }

/-- The payload of `sendDHTPut`. -/
def putMessage (topicHash : String) (entries : List Bytes) : Val :=
  .obj [("topicHash",.str topicHash),("entries",.arr (entries.map Val.bytes))]

/-- Whom `fetch` asks. -/
def fetchTargets (v : View) (topicHashHex : String) : List PeerId :=
  (findKNearest v (hashToPosition topicHashHex) kNearest).filter fun id => id ≠ v.me.1

section
variable (sha256 : Bytes → Bytes)

/-- The slot of a packet that left its circuit here; none where nothing is done. -/
def storeSlotAsExit (decimalText : Number → List Char) (v : View) (topicHashHex : String)
    (hintBytes : Bytes) (packet : Val) (now : Int) : Except Thrown (Option Put) :=
  if !isValidTopicHash topicHashHex then .ok none
  else match decodeHint hintBytes with
  | none => .ok none
  | some hint =>
    match JsonBinary.stringify decimalText packet with
    | none => .ok none
    | some body =>
      let entry := encodeSlotBlob hint (Bytes.utf8 body)
      do
        match ← checkEntry sha256 entry now with
        | .rejected _ => .ok none
        | .ok _ => .ok (some (putToKNearest v topicHashHex entry))

/-- What a PUT asks the storage for; none where it is dropped. -/
def handlePut (v : View) (peerId : PeerId) (msg : Val) (now : Int) :
    Except Thrown (Option Offer) :=
  match msg.field "topicHash" with
  | .str topicHash =>
    if !isValidTopicHash topicHash then .ok none
    else if !isResponsibleFor v topicHash then .ok none
    else do
      let r ← filterValidEntries sha256 (msg.field "entries") now
      if r.accepted = [] then .ok none else .ok (some ⟨topicHash,r.accepted,peerId⟩)
  | _ => .ok none

end

/-- How far a peer is from the topic. -/
def distanceKey (topicHashHex : String) (p : PeerId × Number) : Rat :=
  (RingPosition.distance (hashToPosition topicHashHex) p.2).toRat

/-- The peers of `w` that are no farther from the topic than `w` itself, and that `v` did not put
before `w`. -/
def overlooked (v w : View) (topicHashHex : String) : List (PeerId × Number) :=
  w.peers.filter fun p => decide (distanceKey topicHashHex p ≤ distanceKey topicHashHex w.me) &&
    !(v.candidates.contains p &&
      decide (distanceKey topicHashHex p < distanceKey topicHashHex w.me))

/-- Every position is the one that belongs to the id. -/
structure View.Placed (sodium : Sodium) (v : View) : Prop where
  positions : ∀ p ∈ v.candidates, p.2 = derivePosition sodium p.1
  ids : (v.peers.map Prod.fst).Nodup

section
variable {sodium : Sodium} {v w : View} {topicHash : String} {id : PeerId} {k : Nat}

theorem digitsValue_lt {cs : List Char} {n : Nat} (h : digitsValue 16 cs = some n) :
    n < 16^cs.length := by
  induction cs using List.reverseRecOn generalizing n with
  | nil =>
    cases h
    decide
  | append_singleton cs c ih =>
    rw [digitsValue_snoc] at h
    obtain ⟨m,hm,h⟩ := Option.bind_eq_some_iff.mp h
    obtain ⟨d,-,h⟩ := Option.bind_eq_some_iff.mp h
    split at h
    · next hd =>
      cases h
      have hlt := ih hm
      rw [List.length_append,List.length_singleton,pow_succ]
      omega
    · cases h

/-- The largest hash is at the end of the unit interval, which is where the ring begins. -/
theorem hashToPosition_inUnit (topicHash : String) : (hashToPosition topicHash).InUnit := by
  have hle : (digitsValue 16 (topicHash.toList.take 8)).getD 0 ≤ 0xffffffff := by
    cases hd : digitsValue 16 (topicHash.toList.take 8) with
    | none => exact Nat.zero_le _
    | some n =>
      have hlt := digitsValue_lt hd
      have hpow : 16^(topicHash.toList.take 8).length ≤ 16^8 :=
        Nat.pow_le_pow_right (by decide) (List.length_take_le _ _)
      rw [Option.getD_some]
      omega
  unfold hashToPosition
  refine Number.ofRat_unit (by positivity) ?_
  rw [div_le_one (by positivity)]
  exact_mod_cast hle

theorem View.Placed.comparesBy (h : v.Placed sodium) (topicHash : String) :
    ComparesBy (closer (hashToPosition topicHash)) (distanceKey topicHash) v.candidates := by
  intro a ha b hb
  have hpos {p : PeerId × Number} (hp : p ∈ v.candidates) : p.2.InUnit := by
    rw [h.positions p hp]
    exact derivePosition_inUnit _ _
  exact Number.lt_sub
    (RingPosition.distance_onGrid (hashToPosition_inUnit topicHash) (hpos ha))
    (RingPosition.distance_onGrid (hashToPosition_inUnit topicHash) (hpos hb))

theorem mem_candidates_of_nearest {p : PeerId × Number} {topicPos : Number}
    (h : p ∈ v.nearest topicPos k) : p ∈ v.candidates :=
  (sortBy_perm _ _).subset (List.mem_of_mem_take h)

/-- An id stands for the same position everywhere. -/
theorem View.Placed.mem_nearest (h : v.Placed sodium) {topicPos : Number}
    (hid : id ∈ findKNearest v topicPos k) :
    (id,derivePosition sodium id) ∈ v.nearest topicPos k := by
  obtain ⟨p,hp,rfl⟩ := List.mem_map.mp hid
  rw [← h.positions p (mem_candidates_of_nearest hp)]
  exact hp

theorem View.Placed.mem_candidates (h : v.Placed sodium)
    (hid : id ∈ v.candidates.map Prod.fst) : (id,derivePosition sodium id) ∈ v.candidates := by
  obtain ⟨p,hp,rfl⟩ := List.mem_map.mp hid
  rw [← h.positions p hp]
  exact hp

theorem View.Placed.me (h : v.Placed sodium) : v.me = (v.me.1,derivePosition sodium v.me.1) := by
  rw [← h.positions v.me (by simp [View.candidates])]

/-- A node that another finds nearest finds itself near enough, unless the other overlooked more
peers than the slack allows. -/
theorem responsible_of_nearest (hv : v.Placed sodium) (hw : w.Placed sodium)
    (hnear : w.me.1 ∈ findKNearest v (hashToPosition topicHash) kNearest)
    (hover : (overlooked v w topicHash).length ≤ putAcceptSlack) :
    isResponsibleFor w topicHash = true := by
  have hmem := hv.mem_nearest hnear
  rw [← hw.me] at hmem
  have hfew := countP_lt_of_mem_take (hv.comparesBy topicHash) hmem
  -- what `w` finds nearer is nearer for `v` too, or was overlooked
  have hsplit : w.peers.countP
      (fun p => decide (distanceKey topicHash p ≤ distanceKey topicHash w.me)) ≤
        (overlooked v w topicHash).length + v.candidates.countP
          (fun p => decide (distanceKey topicHash p < distanceKey topicHash w.me)) := by
    have hknown : (w.peers.filter fun p => v.candidates.contains p &&
        decide (distanceKey topicHash p < distanceKey topicHash w.me)).length ≤
          v.candidates.countP
            fun p => decide (distanceKey topicHash p < distanceKey topicHash w.me) := by
      rw [List.countP_eq_length_filter]
      refine (List.subperm_of_subset (hw.ids.of_map.filter _) fun p hp => ?_).length_le
      obtain ⟨-,hp⟩ := List.mem_filter.mp hp
      rw [Bool.and_eq_true,List.contains_iff_mem] at hp
      exact List.mem_filter.mpr hp
    refine le_trans ?_ (Nat.add_le_add_left hknown _)
    unfold overlooked
    rw [← List.countP_eq_length_filter,← List.countP_eq_length_filter]
    exact countP_le_add _ _ _
  have hcount : w.candidates.countP
      (fun p => decide (distanceKey topicHash p ≤ distanceKey topicHash w.me)) ≤
        kNearest+putAcceptSlack := by
    rw [View.candidates,List.countP_append]
    have hself : [w.me].countP
        (fun p => decide (distanceKey topicHash p ≤ distanceKey topicHash w.me)) = 1 := by
      simp
    rw [hself]
    have h5 : kNearest = 5 := rfl
    omega
  have hme := mem_take_of_countP_le (hw.comparesBy topicHash) (by simp [View.candidates]) hcount
  exact List.contains_iff_mem.mpr (List.mem_map_of_mem hme)

section
variable {sha256 : Bytes → Bytes} {packet : Val} {entry : Bytes} {t now : Int}

theorem checkHeader_later (hle : t ≤ now) {packetId : String} {timestamp : Nat}
    {header : PowPolicy.PowCommittedHeader}
    (h : PacketValidator.checkHeader sha256 ⟨t,true⟩ packet packetId timestamp header = .ok .ok) :
    PacketValidator.checkHeader sha256 ⟨now,true⟩ packet packetId timestamp header = .ok .ok := by
  unfold PacketValidator.checkHeader at h ⊢
  split at h
  · cases h
  next hpayload =>
  rw [if_neg hpayload]
  split at h
  · cases h
  next hnonce =>
  rw [if_neg hnonce]
  split at h
  · cases h
  split at h
  · cases h
  next hhop =>
  rw [if_neg hhop]
  split at h
  · cases h
  split at h
  · cases h
  next hdrift =>
  -- only the bound on how far ahead a packet may be dated speaks of the time
  dsimp only at hdrift h ⊢
  rw [if_neg (by omega),if_neg (by simp)]
  rw [if_neg (by simp)] at h
  exact h

/-- What is valid stays so as time goes by. -/
theorem check_later (hle : t ≤ now)
    (h : PacketValidator.check sha256 packet ⟨t,true⟩ = .ok .ok) :
    PacketValidator.check sha256 packet ⟨now,true⟩ = .ok .ok := by
  unfold PacketValidator.check at h ⊢
  split at h
  · cases h
  next hobject =>
  rw [if_neg hobject]
  split at h
  · cases h
  split at h
  · cases h
  cases hc : PacketValidator.committedHeaderOf packet with
  | error e =>
    rw [hc] at h
    cases h
  | ok header =>
    rw [hc] at h
    exact checkHeader_later hle h

theorem checkPacketBytes_later (hle : t ≤ now)
    (h : checkPacketBytes sha256 entry t = .ok (.ok packet)) :
    checkPacketBytes sha256 entry now = .ok (.ok packet) := by
  unfold checkPacketBytes at h ⊢
  split at h
  · cases h
  · next parsed hparsed =>
    split at h
    · cases h
    · next hobject =>
      rw [if_neg hobject]
      cases hc : PacketValidator.check sha256 parsed ⟨t,true⟩ with
      | error e =>
        rw [hc] at h
        cases h
      | ok r =>
        rw [hc] at h
        cases r with
        | fail reason => cases h
        | ok =>
          rw [check_later hle hc]
          exact h

theorem checkEntry_later (hle : t ≤ now) (h : checkEntry sha256 entry t = .ok (.ok packet)) :
    checkEntry sha256 entry now = .ok (.ok packet) := by
  unfold checkEntry at h ⊢
  split at h
  · cases h
  next hlen =>
  rw [if_neg hlen]
  split at h
  · split at h
    · next hpow =>
      rw [if_pos hpow]
      exact checkPacketBytes_later hle h
    · cases h
  · exact checkPacketBytes_later hle h

/-- One valid entry passes the filter. -/
theorem filterValidEntries_single (h : checkEntry sha256 entry now = .ok (.ok packet)) :
    filterValidEntries sha256 (.arr [.bytes entry]) now = .ok ⟨[entry],[]⟩ := by
  have htake : [Val.bytes entry].take maxEntriesPerMessage = [.bytes entry] := rfl
  rw [filterValidEntries,htake,MailboxEntry.filterLoop,h]
  rfl

end

/-- What a node can see of the ring, in some state that its connections come to. -/
inductive Reached (sodium : Sodium) : View → Prop
  | run {ρ μ : Type} {cfg : PeerManager.Config ρ μ} {l : ρ} {m : μ}
    {as : List (PeerManager.Action μ)} {s : PeerManager.State ρ μ} (hs : cfg.sodium = sodium)
    (hid : cfg.identity.position = derivePosition sodium cfg.identity.peerId)
    (hr : Machine.run (PeerManager.step cfg) (PeerManager.initial l m) as = some s) :
    Reached sodium (viewOf cfg s)

theorem Reached.placed (h : Reached sodium v) : v.Placed sodium := by
  obtain @⟨ρ,μ,cfg,l,m,as,s,rfl,hid,hr⟩ := h
  have hinv : PeerManager.Inv cfg s := Machine.invariant_run'
    (fun _ a _ h hs => PeerManager.inv_step h a hs) (PeerManager.inv_initial l m) hr
  have hown : cfg.identity.position.InUnit := by
    rw [hid]
    exact derivePosition_inUnit _ _
  refine ⟨fun p hp => ?_,?_⟩
  · rcases List.mem_append.mp hp with hp | hp
    · obtain ⟨q,hq,rfl⟩ := List.mem_map.mp hp
      obtain ⟨c,hg,hc⟩ := hinv.table.mem_registered.mp (List.mem_filter.mp hq).1
      obtain ⟨r,hr,-,hpos⟩ := hinv.entries _ (JsMap.mem_of_get hg)
      obtain rfl := Option.some.inj (hr.symm.trans hc)
      exact hpos
    · rw [List.mem_singleton.mp hp]
      exact hid
  · rw [viewOf]
    dsimp only
    rw [List.map_map]
    exact (hinv.table.placed hown).ids

/-- The put of an exit, taken apart. -/
theorem storeSlotAsExit_some {sha256 : Bytes → Bytes} {decimalText : Number → List Char}
    {hintBytes : Bytes} {packet : Val} {t : Int} {put : Put}
    (h : storeSlotAsExit sha256 decimalText v topicHash hintBytes packet t = .ok (some put)) :
    isValidTopicHash topicHash = true ∧ ∃ hint body checked, decodeHint hintBytes = some hint ∧
      JsonBinary.stringify decimalText packet = some body ∧
      checkEntry sha256 (encodeSlotBlob hint (Bytes.utf8 body)) t = .ok (.ok checked) ∧
      put = putToKNearest v topicHash (encodeSlotBlob hint (Bytes.utf8 body)) := by
  unfold storeSlotAsExit at h
  split at h
  · cases h
  next hvalid =>
  refine ⟨by simpa using hvalid,?_⟩
  split at h
  · cases h
  next hint hhint =>
  split at h
  · cases h
  next body hbody =>
  dsimp only at h
  cases hc : checkEntry sha256 (encodeSlotBlob hint (Bytes.utf8 body)) t with
  | error e =>
    rw [hc] at h
    cases h
  | ok r =>
    rw [hc] at h
    cases r with
    | rejected reason => cases h
    | ok checked =>
      cases h
      exact ⟨hint,body,checked,hhint,hbody,hc,rfl⟩

theorem putMessage_topicHash (topicHash : String) (entries : List Bytes) :
    (putMessage topicHash entries).field "topicHash" = .str topicHash := rfl

theorem putMessage_entries (topicHash : String) (entries : List Bytes) :
    (putMessage topicHash entries).field "entries" = .arr (entries.map Val.bytes) := rfl

/-- A node that an exit sends a slot to takes it for storage, with the packet as it was, unless the
exit overlooked more of its peers than the slack allows. -/
theorem put_accepted (hv : Reached sodium v) (hw : Reached sodium w) {sha256 : Bytes → Bytes}
    {decimalText : Number → List Char} {hintBytes : Bytes} {packet : Val} {t now : Int} {put : Put}
    (hput : storeSlotAsExit sha256 decimalText v topicHash hintBytes packet t = .ok (some put))
    (hsent : w.me.1 ∈ put.sent) (hover : (overlooked v w topicHash).length ≤ putAcceptSlack)
    (hle : t ≤ now) (hp : JsonBinary.Portable decimalText packet) :
    handlePut sha256 w v.me.1 (putMessage put.topicHash [put.entry]) now =
        .ok (some ⟨topicHash,[put.entry],v.me.1⟩) ∧
      ∃ hint body, decodeHint hintBytes = some hint ∧ decodeSlotBlob put.entry = some ⟨hint,body⟩ ∧
        JsonBinary.parse body = .ok (JsonText.clean packet) := by
  obtain ⟨hvalid,hint,body,checked,hhint,hbody,hcheck,rfl⟩ := storeSlotAsExit_some hput
  have hnear : w.me.1 ∈ findKNearest v (hashToPosition topicHash) kNearest :=
    (List.mem_filter.mp hsent).1
  have hresponsible := responsible_of_nearest hv.placed hw.placed hnear hover
  have hfilter := filterValidEntries_single (checkEntry_later hle hcheck)
  have hparse := JsonBinary.stringify_round_trip hp hbody
  refine ⟨?_,hint,_,hhint,Hint.decodeSlotBlob_encode hint _,hparse⟩
  unfold handlePut
  rw [putMessage_topicHash,putMessage_entries]
  dsimp only [putToKNearest]
  rw [hvalid,hresponsible,List.map_singleton,hfilter]
  rfl

/-- A hash that sets the positions apart. -/
def spreadSodium : Sodium :=
  { PeerManager.sampleSodium with sha256 := fun bs => (bs.drop (bs.length-32)).reverse }

def spreadConfig (key : UInt8) : PeerManager.Config Unit Unit :=
  { PeerManager.sampleConfig key with
    sodium := spreadSodium
    identity := fromKeyPair spreadSodium (List.replicate 32 key) (List.replicate 32 key) (.fin 0) }

/-- What a node sees that has no peers. -/
def aloneView : View := viewOf (spreadConfig 2) (PeerManager.initial () ())

/-- Its work is that of the least difficulty. -/
def slotPacket : Val :=
  .obj [("packet_id",.str "f34f7f0d280c1878fba60035a4a8c7aabad51f66828e265a6842f4f3a7c2f341"),
    ("hop_count",.num (Number.ofNat 0)),("pow_nonce",.num (Number.ofNat 101)),
    ("pow_difficulty",.num (Number.ofNat 8)),("timestamp",.num (Number.ofNat 0)),
    ("zone_id",.num (Number.ofNat 0)),("nonce",.bytes (List.replicate 12 0)),("payload",.bytes [0])]

def slotTopic : String := "f34f7f0d280c1878fba60035a4a8c7aabad51f66828e265a6842f4f3a7c2f341"

def storeSlotPacket (v : View) : Except Thrown (Option Put) :=
  storeSlotAsExit Sha256.sha256 (fun _ => []) v slotTopic
    (Hint.encodeHint HintArrivals.sampleHint) slotPacket 0

/-- The exit puts the packet, to that node among others. -/
def sendsSlot (v : View) : Bool :=
  match storeSlotPacket v with
  | .ok (some put) => put.sent.contains aloneView.me.1
  | _ => false

theorem sendsSlot_iff {v : View} (h : sendsSlot v = true) :
    ∃ put, storeSlotPacket v = .ok (some put) ∧ aloneView.me.1 ∈ put.sent := by
  unfold sendsSlot at h
  split at h
  next put hput =>
    exact ⟨put,hput,List.contains_iff_mem.mp h⟩
  · cases h

theorem portable_slotPacket : JsonBinary.Portable (fun _ => []) slotPacket := by
  have hnum (n : Nat) (h : n ≤ 101) :
      JsonText.Writable (fun _ => []) (.num (Number.ofNat n)) := by
    have hsafe : n ≤ 9007199254740991 := by omega
    simp [JsonText.Writable,Number.toSafeInt?_ofNat,hsafe]
  simp [slotPacket,JsonBinary.Portable,JsonBinary.PortableFields,JsMap.keys,JsonBinary.maxBytes,
    hnum]

theorem reached_alone : Reached spreadSodium aloneView :=
  @Reached.run spreadSodium Unit Unit (spreadConfig 2) () () [] _ rfl rfl rfl

/-- The exit has one peer, which has just joined. -/
theorem put_accepted_joinRun : ∃ v put, storeSlotPacket v = .ok (some put) ∧
    handlePut Sha256.sha256 aloneView v.me.1 (putMessage put.topicHash [put.entry]) 1 =
        .ok (some ⟨slotTopic,[put.entry],v.me.1⟩) ∧
      ∃ hint body, decodeHint (Hint.encodeHint HintArrivals.sampleHint) = some hint ∧
        decodeSlotBlob put.entry = some ⟨hint,body⟩ ∧
          JsonBinary.parse body = .ok (JsonText.clean slotPacket) := by
  have hrun : (Machine.run (PeerManager.step (spreadConfig 1))
      (PeerManager.initial () ()) (PeerManager.joinRun 0 2 .inbound)).map (fun s =>
        let v := viewOf (spreadConfig 1) s
        (sendsSlot v,(overlooked v aloneView slotTopic).length)) = some (true,0) := by
    decide +kernel
  obtain ⟨s,hs,hsees⟩ := Option.map_eq_some_iff.mp hrun
  obtain ⟨hsends,hover⟩ := Prod.mk.inj hsees
  obtain ⟨put,hput,hsent⟩ := sendsSlot_iff hsends
  have hv : Reached spreadSodium (viewOf (spreadConfig 1) s) :=
    .run rfl rfl hs
  exact ⟨_,put,hput,put_accepted hv reached_alone hput hsent (by rw [hover]; decide) (by decide)
    portable_slotPacket⟩

/-- An exit and a reader that each see one of the nodes the other finds nearest have one of these
nodes in common: it gets the slot, and is asked for it. -/
theorem put_meets_fetch (hv : Reached sodium v) (hw : Reached sodium w)
    (htie : ∀ x ∈ v.candidates, ∀ y ∈ w.candidates,
      distanceKey topicHash x = distanceKey topicHash y → x = y)
    (hsees : ∃ id ∈ findKNearest v (hashToPosition topicHash) kNearest,
      id ∈ w.candidates.map Prod.fst)
    (hseen : ∃ id ∈ findKNearest w (hashToPosition topicHash) kNearest,
      id ∈ v.candidates.map Prod.fst) (entry : Bytes) :
    ∃ id, (id ∈ (putToKNearest v topicHash entry).sent ∨
        id = v.me.1 ∧ (putToKNearest v topicHash entry).own = some ⟨topicHash,[entry],id⟩) ∧
      (id ∈ fetchTargets w topicHash ∨ id = w.me.1) := by
  obtain ⟨i,hi,hiw⟩ := hsees
  obtain ⟨j,hj,hjv⟩ := hseen
  obtain ⟨p,hpv,hpw⟩ := take_sortBy_meet (hv.placed.comparesBy topicHash)
    (hw.placed.comparesBy topicHash) htie (hv.placed.mem_nearest hi) (hw.placed.mem_candidates hiw)
    (hw.placed.mem_nearest hj) (hv.placed.mem_candidates hjv)
  have hidv : p.1 ∈ findKNearest v (hashToPosition topicHash) kNearest := List.mem_map_of_mem hpv
  have hidw : p.1 ∈ findKNearest w (hashToPosition topicHash) kNearest := List.mem_map_of_mem hpw
  refine ⟨p.1,?_,?_⟩
  · by_cases hme : p.1 = v.me.1
    · refine .inr ⟨hme,?_⟩
      rw [hme] at hidv
      rw [hme,putToKNearest]
      dsimp only
      rw [if_pos (List.contains_iff_mem.mpr hidv)]
    · exact .inl (List.mem_filter.mpr ⟨hidv,by simpa using hme⟩)
  · by_cases hme : p.1 = w.me.1
    · exact .inr hme
    · exact .inl (List.mem_filter.mpr ⟨hidw,by simpa using hme⟩)

/-- The exit with that peer, and the peer as the reader. -/
theorem put_meets_fetch_joinRun : ∃ v, Reached spreadSodium v ∧ v.peers.length = 1 ∧
    ∃ id, (id ∈ (putToKNearest v slotTopic [0]).sent ∨
        id = v.me.1 ∧ (putToKNearest v slotTopic [0]).own = some ⟨slotTopic,[[0]],id⟩) ∧
      (id ∈ fetchTargets aloneView slotTopic ∨ id = aloneView.me.1) := by
  have hrun : (Machine.run (PeerManager.step (spreadConfig 1))
      (PeerManager.initial () ()) (PeerManager.joinRun 0 2 .inbound)).map (fun s =>
        let v := viewOf (spreadConfig 1) s
        (v.peers.length,v.candidates.all fun x => aloneView.candidates.all fun y =>
            decide (distanceKey slotTopic x = distanceKey slotTopic y → x = y),
          (findKNearest v (hashToPosition slotTopic) kNearest).contains aloneView.me.1,
          (v.candidates.map Prod.fst).contains aloneView.me.1)) = some (1,true,true,true) := by
    decide +kernel
  obtain ⟨s,hs,hsees⟩ := Option.map_eq_some_iff.mp hrun
  simp only [Prod.mk.injEq,List.all_eq_true,decide_eq_true_eq,List.contains_iff_mem] at hsees
  obtain ⟨hlen,htie,hnear,hknown⟩ := hsees
  have hv : Reached spreadSodium (viewOf (spreadConfig 1) s) :=
    .run rfl rfl hs
  have hme : aloneView.me.1 ∈ aloneView.candidates.map Prod.fst := List.mem_singleton.mpr rfl
  have hself : aloneView.me.1 ∈ findKNearest aloneView (hashToPosition slotTopic) kNearest := by
    decide +kernel
  exact ⟨_,hv,hlen,put_meets_fetch hv reached_alone htie ⟨_,hnear,hme⟩ ⟨_,hself,hknown⟩ [0]⟩

end

end DHTMailbox
