import AetherLite.Gossip.PacketValidator
import AetherLite.Gossip.SeenCache
import AetherLite.Lib.Machine

/-! The relay of gossip packets: one node, its two caches and its clock. -/
set_option autoImplicit false

namespace ZoneGossipRouter

open Js PacketValidator

abbrev PeerId := String

structure Peer where
  peerId : PeerId
  isConnected : Bool
  isVerified : Bool
  deriving DecidableEq

/-- A packet that was flooded, when, and what went to whom. -/
structure Relay where
  id : String
  packet : Val
  time : Nat
  sends : List (PeerId × Val)

structure State where
  clock : Nat
  flooded : SeenCache := {}
  delivered : SeenCache := {}
  -- what the listeners and the neighbours have been given, latest first
  shown : List Val := []
  relays : List Relay := []

/-- What the node asks of its surroundings while it handles a packet. -/
structure Env where
  peers : List Peer := []
  subscribed : Bool := false

inductive Action where
  | tick (ms : Nat)
  | gossip (sender : PeerId) (msg : Val) (env : Env)
  | exitFluff (packet : Val) (env : Env)
  | broadcast (packet : Val)
  | cleanupFlooded
  | cleanupDelivered

/-- `PacketValidator.validate`, with the id of a packet that passes. A check that throws
ends the handler as a refusal does. -/
def validate (sha256 : Bytes → Bytes) (packet : Val) (now : Nat) : Option String :=
  match check sha256 packet ⟨now,false⟩ with
  | .ok .ok => packetId? (packet.field "packet_id")
  | _ => none

def withHopCountZero : Val → Val
  | .obj fs => .obj (JsMap.set fs "hop_count" (.num (Number.ofNat 0)))
  | v => v

def deliverLocal (s : State) (id : String) (packet : Val) (subscribed : Bool) : State :=
  if s.delivered.has id || !subscribed then s
  else { s with delivered := s.delivered.add id s.clock, shown := packet :: s.shown }

def flood (s : State) (id : String) (packet : Val) (excludePeerId : PeerId) (peers : List Peer) :
    State :=
  if s.flooded.has id then s
  else
    let targets := peers.filter fun peer =>
      peer.peerId ≠ excludePeerId && peer.isConnected && peer.isVerified
    { s with
      flooded := s.flooded.add id s.clock
      relays := ⟨id,packet,s.clock,targets.map fun peer => (peer.peerId,withHopCountZero packet)⟩ ::
        s.relays }

/-- The common part of `handleGossip` and `handleExitFluff`. -/
def accept (sha256 : Bytes → Bytes) (s : State) (packet : Val) (sender : PeerId) (env : Env) :
    State :=
  match validate sha256 packet s.clock with
  | none => s
  | some id => flood (deliverLocal s id packet env.subscribed) id packet sender env.peers

variable (sha256 : Bytes → Bytes) (myPeerId : PeerId)

def step (s : State) (a : Action) : Option State :=
  match a with
  | .tick ms => some { s with clock := s.clock+ms }
  | .gossip sender msg env => some (accept sha256 s (msg.field "packet") sender env)
  | .exitFluff packet env => some (accept sha256 s packet myPeerId env)
  | .broadcast packet =>
    match packetId? (packet.field "packet_id") with
    | some id =>
      some { s with delivered := s.delivered.add id s.clock, shown := packet :: s.shown }
    | none => none
  | .cleanupFlooded => some { s with flooded := s.flooded.cleanup s.clock }
  | .cleanupDelivered => some { s with delivered := s.delivered.cleanup s.clock }

/-- The packet a step receives from outside. -/
def Action.received : Action → Option Val
  | .gossip _ msg _ => some (msg.field "packet")
  | .exitFluff packet _ => some packet
  | _ => none

def receivedId (a : Action) : Option String :=
  a.received.bind fun packet => packetId? (packet.field "packet_id")

def receivedPreimage (a : Action) : Option Bytes := a.received.bind preimage?

def receivedIds (as : List Action) : Finset String := (as.filterMap receivedId).toFinset

def receivedPreimages (as : List Action) : List Bytes := as.filterMap receivedPreimage

/-- A packet that the step would relay is not dated after the clock of the node. -/
def NotFutureDated (s : State) (a : Action) : Prop :=
  ∀ packet, a.received = some packet → ∀ id, validate sha256 packet s.clock = some id →
    s.flooded.has id = false → ∀ t, timestamp? packet = some t → t ≤ s.clock

section
variable {sha256 : Bytes → Bytes} {myPeerId : PeerId} {known : Finset String}
  {preimages : List Bytes}

/-- Each relayed packet is remembered, or its time is over for the validator. -/
structure Inv (sha256 : Bytes → Bytes) (known : Finset String) (preimages : List Bytes)
    (s : State) : Prop where
  once : (s.relays.map Relay.id).Nodup
  remembered : ∀ r ∈ s.relays,
    (r.id,r.time) ∈ s.flooded.cache ∨ r.time+SeenCache.ttlMs < s.clock
  dated : ∀ r ∈ s.relays, ∃ t preimage, timestamp? r.packet = some t ∧
    preimage? r.packet = some preimage ∧ preimage ∈ preimages ∧
    r.id = Bytes.toHex (sha256 preimage) ∧ t ≤ r.time
  ids_known : ∀ id ∈ s.flooded.ids, id ∈ known
  ids_nodup : s.flooded.ids.Nodup

theorem validate_some {packet : Val} {now : Nat} {id : String}
    (h : validate sha256 packet now = some id) :
    ∃ t preimage, Valid sha256 packet ⟨now,false⟩ id t preimage := by
  unfold validate at h
  split at h
  · next hc =>
    obtain ⟨id',t,preimage,hv⟩ := check_ok hc
    have hid : id' = id := Option.some.inj (hv.id_eq.symm.trans h)
    exact ⟨t,preimage,hid ▸ hv⟩
  · cases h

theorem deliverLocal_frame (s : State) (id : String) (packet : Val) (subscribed : Bool) :
    (deliverLocal s id packet subscribed).flooded = s.flooded ∧
      (deliverLocal s id packet subscribed).relays = s.relays ∧
      (deliverLocal s id packet subscribed).clock = s.clock := by
  unfold deliverLocal
  split
  · exact ⟨rfl,rfl,rfl⟩
  · exact ⟨rfl,rfl,rfl⟩

theorem Inv.deliverLocal {s : State} (h : Inv sha256 known preimages s) (id : String)
    (packet : Val) (subscribed : Bool) :
    Inv sha256 known preimages (deliverLocal s id packet subscribed) := by
  obtain ⟨hf,hr,hc⟩ := deliverLocal_frame s id packet subscribed
  constructor
  · rw [hr]; exact h.once
  · rw [hr,hf,hc]; exact h.remembered
  · rw [hr]; exact h.dated
  · rw [hf]; exact h.ids_known
  · rw [hf]; exact h.ids_nodup

/-- The two expiry rules fit together: what the cache has forgotten is stale. -/
theorem Inv.not_relayed {s : State} {packet : Val} {id : String} {t : Nat} {preimage : Bytes}
    (h : Inv sha256 known preimages s)
    (hcoll : ∀ x ∈ preimages, ∀ y ∈ preimages, sha256 x = sha256 y → x = y)
    (hv : Valid sha256 packet ⟨s.clock,false⟩ id t preimage) (hm : preimage ∈ preimages)
    (hnew : s.flooded.has id = false) : id ∉ s.relays.map Relay.id := by
  intro hid
  obtain ⟨r,hr,rfl⟩ := List.mem_map.mp hid
  rcases h.remembered r hr with hcache | hold
  · have hhas : s.flooded.has r.id = true :=
      (SeenCache.has_iff _ _).mpr (List.mem_map_of_mem hcache)
    rw [hnew] at hhas
    cases hhas
  · obtain ⟨t',y,ht',hy,hym,hid,hle⟩ := h.dated r hr
    have hxy : y = preimage :=
      hcoll y hym preimage hm (Bytes.toHex_inj (hid.symm.trans hv.id_hash))
    have htt : timestamp? r.packet = timestamp? packet :=
      timestamp_of_preimage hy (hxy ▸ hv.preimage_eq)
    have hte : t' = t := by simpa [ht',hv.timestamp_eq] using htt
    have hstale : (s.clock : Int)-t ≤ PowPolicy.maxTimeDrift := hv.not_stale.resolve_left (by simp)
    simp only [PowPolicy.maxTimeDrift] at hstale
    simp only [SeenCache.ttlMs] at hold
    omega

theorem Inv.flood {s : State} {packet : Val} {id : String} {t : Nat} {preimage : Bytes}
    (h : Inv sha256 known preimages s)
    (hcoll : ∀ x ∈ preimages, ∀ y ∈ preimages, sha256 x = sha256 y → x = y)
    (hcap : known.card ≤ SeenCache.maxSize)
    (hv : Valid sha256 packet ⟨s.clock,false⟩ id t preimage) (hm : preimage ∈ preimages)
    (hk : id ∈ known) (hdate : s.flooded.has id = false → t ≤ s.clock) (sender : PeerId)
    (peers : List Peer) : Inv sha256 known preimages (flood s id packet sender peers) := by
  unfold ZoneGossipRouter.flood
  cases hnew : s.flooded.has id with
  | true => exact h
  | false =>
    have hid : id ∉ s.flooded.ids := by
      rw [← SeenCache.has_iff,hnew]
      simp
    have hlen : s.flooded.ids.length < SeenCache.maxSize := by
      have hle := SeenCache.ids_length_le (known.erase id) h.ids_nodup
        fun i hi => Finset.mem_erase.mpr ⟨fun he => hid (he ▸ hi),h.ids_known i hi⟩
      have hlt := Finset.card_erase_lt_of_mem hk
      omega
    have hadd := SeenCache.add_new s.clock hid hlen
    have hids : (s.flooded.add id s.clock).ids = s.flooded.ids ++ [id] := by
      simp [SeenCache.ids,JsMap.keys,hadd]
    constructor
    · simp only [Bool.false_eq_true,if_false,List.map_cons,List.nodup_cons]
      exact ⟨h.not_relayed hcoll hv hm hnew,h.once⟩
    · intro r hr
      simp only [Bool.false_eq_true,if_false] at hr ⊢
      rw [hadd]
      rcases List.mem_cons.mp hr with rfl | hr
      · exact .inl (List.mem_append_right _ (List.mem_singleton.mpr rfl))
      · exact (h.remembered r hr).imp_left (List.mem_append_left _)
    · intro r hr
      simp only [Bool.false_eq_true,if_false] at hr
      rcases List.mem_cons.mp hr with rfl | hr
      · exact ⟨t,preimage,hv.timestamp_eq,hv.preimage_eq,hm,hv.id_hash,hdate hnew⟩
      · exact h.dated r hr
    · intro i hi
      simp only [Bool.false_eq_true,if_false] at hi
      rw [hids] at hi
      rcases List.mem_append.mp hi with hi | hi
      · exact h.ids_known i hi
      · rw [List.mem_singleton.mp hi]
        exact hk
    · simp only [Bool.false_eq_true,if_false]
      rw [hids]
      exact List.nodup_append.mpr ⟨h.ids_nodup,List.nodup_singleton id,by
        intro a ha b hb hab
        exact hid (List.mem_singleton.mp hb ▸ hab ▸ ha)⟩

/-- What a step needs to know of the packet it receives. -/
def Expected (known : Finset String) (preimages : List Bytes) (a : Action) : Prop :=
  (∀ id, receivedId a = some id → id ∈ known) ∧
    (∀ x, receivedPreimage a = some x → x ∈ preimages)

theorem Inv.accept {s : State} {a : Action} {packet : Val}
    (h : Inv sha256 known preimages s)
    (hcoll : ∀ x ∈ preimages, ∀ y ∈ preimages, sha256 x = sha256 y → x = y)
    (hcap : known.card ≤ SeenCache.maxSize) (ha : a.received = some packet)
    (he : Expected known preimages a) (hdate : NotFutureDated sha256 s a) (sender : PeerId)
    (env : Env) : Inv sha256 known preimages (accept sha256 s packet sender env) := by
  unfold ZoneGossipRouter.accept
  cases hval : validate sha256 packet s.clock with
  | none => exact h
  | some id =>
    obtain ⟨t,preimage,hv⟩ := validate_some hval
    obtain ⟨hf,hr,hc⟩ := deliverLocal_frame s id packet env.subscribed
    apply (h.deliverLocal id packet env.subscribed).flood hcoll hcap
    · rw [hc]; exact hv
    · exact he.2 preimage (by simp [receivedPreimage,ha,hv.preimage_eq])
    · exact he.1 id (by simp [receivedId,ha,hv.id_eq])
    · rw [hf,hc]
      intro hnew
      exact hdate packet ha id hval hnew t hv.timestamp_eq

theorem inv_step (hcoll : ∀ x ∈ preimages, ∀ y ∈ preimages, sha256 x = sha256 y → x = y)
    (hcap : known.card ≤ SeenCache.maxSize) (s : State) (a : Action) (s' : State)
    (h : Inv sha256 known preimages s)
    (hG : NotFutureDated sha256 s a ∧ Expected known preimages a)
    (hs : step sha256 myPeerId s a = some s') : Inv sha256 known preimages s' := by
  cases a with
  | tick ms =>
    cases hs
    exact ⟨h.once,fun r hr => (h.remembered r hr).imp_right fun hlt => by
      show r.time+SeenCache.ttlMs < s.clock+ms
      omega,h.dated,h.ids_known,h.ids_nodup⟩
  | gossip sender msg env =>
    cases hs
    exact h.accept hcoll hcap rfl hG.2 hG.1 sender env
  | exitFluff packet env =>
    cases hs
    exact h.accept hcoll hcap rfl hG.2 hG.1 myPeerId env
  | broadcast packet =>
    simp only [step] at hs
    split at hs
    · cases hs
      exact ⟨h.once,h.remembered,h.dated,h.ids_known,h.ids_nodup⟩
    · cases hs
  | cleanupFlooded =>
    cases hs
    have hsub := s.flooded.cleanup_sublist s.clock
    refine ⟨h.once,fun r hr => ?_,h.dated,fun id hid => h.ids_known id (hsub.subset hid),
      h.ids_nodup.sublist hsub⟩
    rcases h.remembered r hr with hm | hold
    · refine (SeenCache.mem_cleanup_or s.clock hm).imp_right fun hlt => ?_
      show r.time+SeenCache.ttlMs < s.clock
      simp only at hlt
      omega
    · exact .inr hold
  | cleanupDelivered =>
    cases hs
    exact ⟨h.once,h.remembered,h.dated,h.ids_known,h.ids_nodup⟩

theorem flood_atMostOnce {clock : Nat} {as : List Action} {s : State}
    (hr : Machine.run (step sha256 myPeerId) { clock := clock } as = some s)
    (hcap : (receivedIds as).card < SeenCache.maxSize)
    (hcoll : ∀ x ∈ receivedPreimages as, ∀ y ∈ receivedPreimages as,
      sha256 x = sha256 y → x = y)
    (hdate : Machine.Along (step sha256 myPeerId) (NotFutureDated sha256) { clock := clock } as) :
    (s.relays.map Relay.id).Nodup := by
  have hexp : ∀ a ∈ as, Expected (receivedIds as) (receivedPreimages as) a := by
    intro a ha
    exact ⟨fun id hid => List.mem_toFinset.mpr (List.mem_filterMap.mpr ⟨a,ha,hid⟩),
      fun x hx => List.mem_filterMap.mpr ⟨a,ha,hx⟩⟩
  have hinit : Inv sha256 (receivedIds as) (receivedPreimages as) { clock := clock } := by
    refine ⟨List.nodup_nil,?_,?_,?_,List.nodup_nil⟩
    · intro r hr
      cases hr
    · intro r hr
      cases hr
    · intro id hid
      cases hid
  have hinv := Machine.invariant_run (inv_step hcoll hcap.le) hinit
    (hdate.and (Machine.along_of_forall _ hexp)) hr
  exact hinv.once

/-- The condition is exact: whatever the validator lets through with a date after the
clock can be relayed a second time, once the cache has been cleaned. -/
theorem futureDated_floodedTwice {packet : Val} {clock t : Nat} {id : String}
    (hv : validate sha256 packet clock = some id) (ht : timestamp? packet = some t)
    (hlater : clock < t) : ∃ s,
    Machine.run (step sha256 myPeerId) { clock := clock }
      [.exitFluff packet {},.tick (SeenCache.ttlMs+1),.cleanupFlooded,.exitFluff packet {}] =
        some s ∧ s.relays.map Relay.id = [id,id] := by
  obtain ⟨t',preimage,hval⟩ := validate_some hv
  have htt : t' = t := Option.some.inj (hval.timestamp_eq.symm.trans ht)
  have hdrift : (t : Int)-clock ≤ PowPolicy.maxTimeDrift := htt ▸ hval.not_future
  have hagain : validate sha256 packet (clock+(SeenCache.ttlMs+1)) = some id := by
    unfold validate at hv ⊢
    split at hv
    · next hc =>
      have hd : PowPolicy.maxTimeDrift = SeenCache.ttlMs := rfl
      rw [check_window hc ht (by simp only; omega) (by simp only; omega)]
      exact hv
    · cases hv
  have hold : clock+(SeenCache.ttlMs+1)-clock > SeenCache.ttlMs := by omega
  simp [Machine.run,step,accept,hv,hagain,deliverLocal,flood,SeenCache.has,SeenCache.add,
    SeenCache.cleanup,JsMap.has,JsMap.get,JsMap.set,SeenCache.maxSize]

end

/-- A packet of the least difficulty: a nonce of twelve zeros, a payload of one. -/
def packetOf (packetId : String) (timestamp powNonce : Nat) : Val := .obj [
  ("packet_id",.str packetId),
  ("hop_count",.num (Number.ofNat 0)),
  ("pow_nonce",.num (Number.ofNat powNonce)),
  ("pow_difficulty",.num (Number.ofNat 8)),
  ("timestamp",.num (Number.ofNat timestamp)),
  ("zone_id",.num (Number.ofNat 0)),
  ("nonce",.bytes (List.replicate 12 0)),
  ("payload",.bytes [0])]

def gossipOf (packet : Val) : Action :=
  .gossip "neighbour" (.obj [("packet",packet)]) { peers := [⟨"other",true,true⟩] }

/-- Dated at the time the node's clock shows. -/
def currentPacket : Val :=
  packetOf "f34f7f0d280c1878fba60035a4a8c7aabad51f66828e265a6842f4f3a7c2f341" 0 101

/-- Dated fifteen minutes later. -/
def futurePacket : Val :=
  packetOf "50ed78ce02152d084dbf72f845eb57840d0948459b2eacdd1df8fd48627c3508" 900000 230

/-- The packet again after twenty minutes, when the cache has been cleaned. -/
def replayed (packet : Val) : List Action :=
  [gossipOf packet,.tick 1200000,.cleanupFlooded,gossipOf packet]

theorem flood_atMostOnce_currentPacket : ∃ s,
    Machine.run (step Sha256.sha256 "me") { clock := 0 } (replayed currentPacket) = some s ∧
      (s.relays.map Relay.id).Nodup := by
  have hdate : ∀ a ∈ replayed currentPacket, ∀ s : State, NotFutureDated Sha256.sha256 s a := by
    intro a ha s packet hp id _ _ t ht
    have hc : packet = currentPacket := by
      simp only [replayed,List.mem_cons,List.not_mem_nil,or_false] at ha
      rcases ha with rfl | rfl | rfl | rfl
      · exact (Option.some.inj hp).symm
      · cases hp
      · cases hp
      · exact (Option.some.inj hp).symm
    have h0 : timestamp? currentPacket = some 0 := by decide +kernel
    rw [hc,h0] at ht
    have ht0 : 0 = t := Option.some.inj ht
    omega
  cases hr : Machine.run (step Sha256.sha256 "me") { clock := 0 } (replayed currentPacket) with
  | none => cases hr
  | some s =>
    exact ⟨s,rfl,flood_atMostOnce hr (by decide +kernel) (by decide +kernel)
      ((Machine.along_of_forall _ hdate).imp fun s a h => h s)⟩

theorem futurePacket_floodedTwice :
    ¬∀ (as : List Action) (s : State),
      Machine.run (step Sha256.sha256 "me") { clock := 0 } as = some s →
      (receivedIds as).card < SeenCache.maxSize →
      (∀ x ∈ receivedPreimages as, ∀ y ∈ receivedPreimages as,
        Sha256.sha256 x = Sha256.sha256 y → x = y) →
      (s.relays.map Relay.id).Nodup := by
  intro h
  have hids : (Machine.run (step Sha256.sha256 "me") { clock := 0 }
      (replayed futurePacket)).map (fun s => decide (s.relays.map Relay.id).Nodup) =
        some false := by decide +kernel
  obtain ⟨s,hr,hs⟩ := Option.map_eq_some_iff.mp hids
  exact of_decide_eq_false hs (h _ s hr (by decide +kernel) (by decide +kernel))

end ZoneGossipRouter
