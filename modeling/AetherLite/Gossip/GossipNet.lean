import AetherLite.Gossip.ZoneGossipRouter
import AetherLite.Lib.Flooding

/-! The gossip of many nodes. Members run the router; anyone else may send them anything
under a name of his own. -/
set_option autoImplicit false

namespace GossipNet

open Js PacketValidator PowPolicy ZoneGossipRouter MessageNet

def idOf (packet : Val) : Option String := packetId? (packet.field "packet_id")

/-- The messages of a step: those of the relays it adds. -/
def outgoing (s s' : State) : List (PeerId × Val) :=
  (s'.relays.take (s'.relays.length-s.relays.length)).flatMap Relay.sends

def relayed (s : State) : List String := s.relays.map Relay.id

def shownIds (s : State) : List String := s.shown.filterMap idOf

section
variable (sha256 : Bytes → Bytes)

def machines : Machines PeerId State Val ZoneGossipRouter.Action Env where
  step k s a := (ZoneGossipRouter.step sha256 k s a).map fun s' => (s',outgoing s s')
  receive src packet env := .gossip src (.obj [("packet",packet)]) env

abbrev Net := MessageNet.Net PeerId State Val

abbrev Action := MessageNet.Action PeerId ZoneGossipRouter.Action Env

def step : Net → Action → Option Net := MessageNet.step (machines sha256)

def initial (clock : PeerId → Nat) : Net := { node := fun k => { clock := clock k } }

/-- Who hands the node a packet, and what the node sees around it then. -/
def arrival (me : PeerId) : ZoneGossipRouter.Action → Option (PeerId × Val × Env)
  | .gossip sender msg env => some (sender,msg.field "packet",env)
  | .exitFluff packet env => some (me,packet,env)
  | _ => none

/-- The dates that the node would let through at this time. -/
def Timely (s : State) (packet : Val) : Prop :=
  ∀ t ∈ timestamp? packet,
    (t : Int)-s.clock ≤ maxTimeDrift ∧ (s.clock : Int)-t ≤ maxTimeDrift

end

/-- Who takes part, which of their connections hold throughout, and who reads the zone. -/
structure Layout where
  members : Finset PeerId
  links : List (PeerId × PeerId)
  readers : Finset PeerId

namespace Layout

def link (l : Layout) (k j : PeerId) : Prop := (k,j) ∈ l.links ∧ j ∈ l.members

/-- What a member sees around it: its links are up, and a reader is subscribed. -/
def Sees (l : Layout) (k : PeerId) (env : Env) : Prop :=
  (∀ p ∈ l.links, p.1 = k → p.2 ∈ l.members → ⟨p.2,true,true⟩ ∈ env.peers) ∧
    (k ∈ l.readers → env.subscribed = true)

/-- A step of the network in which no one speaks under a member's name, and a member gets
the packet with the id in time. -/
def Fair (l : Layout) (id : String) (n : Net) : Action → Prop
  | .act k a => k ∈ l.members ∧ ∀ r ∈ arrival k a,
      (r.1 ∉ l.members ∨ r.1 = k) ∧ l.Sees k r.2.2
  | .deliver i env => ∀ r ∈ Machine.takeTask n.mail i,
      r.1.dst ∈ l.members ∧ l.Sees r.1.dst env ∧
        (idOf r.1.body = some id → Timely (n.node r.1.dst) r.1.body)

instance (s : State) (packet : Val) : Decidable (Timely s packet) :=
  inferInstanceAs (Decidable (∀ t ∈ timestamp? packet, _))

instance (l : Layout) (k : PeerId) (env : Env) : Decidable (l.Sees k env) :=
  inferInstanceAs (Decidable ((∀ p ∈ l.links, _) ∧ (_ → _)))

instance (l : Layout) (id : String) (n : Net) (x : Action) : Decidable (l.Fair id n x) :=
  match x with
  | .act _ _ => inferInstanceAs (Decidable (_ ∧ ∀ r ∈ arrival _ _, _))
  | .deliver _ _ => inferInstanceAs (Decidable (∀ r ∈ Machine.takeTask _ _, _))

end Layout

section
variable {sha256 : Bytes → Bytes} {s s' : State} {packet : Val} {id : String}

theorem field_withHopCountZero (packet : Val) {key : String} (hk : key ≠ "hop_count") :
    (withHopCountZero packet).field key = packet.field key := by
  unfold withHopCountZero
  split
  · simp only [Val.field]
    rw [JsMap.get_set_ne _ hk]
  · rfl

/-- A packet that passes passes with a hop count of zero too. -/
theorem check_withHopCountZero {opts : ValidateOptions}
    (h : check sha256 packet opts = .ok .ok) :
    check sha256 (withHopCountZero packet) opts = .ok .ok := by
  obtain ⟨ho,pid,t,header,hid,ht,hc,h⟩ := check_iff.mp h
  obtain ⟨hpayload,hnonce,⟨hop,hhop,hle⟩,n,hn,hrest⟩ := checkHeader_iff.mp h
  have hfield : ∀ {key : String}, key ≠ "hop_count" →
      (withHopCountZero packet).field key = packet.field key := field_withHopCountZero packet
  have hzero : ∃ n, nonNegative? (integer? ((withHopCountZero packet).field "hop_count")) = some n ∧
      n ≤ maxHopCount := by
    cases packet with
    | obj fs =>
      refine ⟨0,?_,Nat.zero_le _⟩
      simp only [withHopCountZero,Val.field,JsMap.get_set_self,Option.getD_some]
      decide
    | _ => exact ⟨hop,hhop,hle⟩
  refine check_iff.mpr ⟨?_,pid,t,header,?_,?_,?_,?_⟩
  · cases packet with
    | obj fs => rfl
    | _ => exact ho
  · rw [hfield (by decide)]
    exact hid
  · rw [timestamp?,hfield (by decide)]
    exact ht
  · rw [committedHeaderOf,hfield (by decide),hfield (by decide),hfield (by decide),
      hfield (by decide),hfield (by decide)]
    exact hc
  · refine checkHeader_iff.mpr ⟨hpayload,hnonce,hzero,n,?_,hrest⟩
    rw [hfield (by decide)]
    exact hn

theorem idOf_withHopCountZero (packet : Val) : idOf (withHopCountZero packet) = idOf packet := by
  rw [idOf,field_withHopCountZero packet (by decide),idOf]

theorem timestamp_withHopCountZero (packet : Val) :
    timestamp? (withHopCountZero packet) = timestamp? packet := by
  rw [timestamp?,field_withHopCountZero packet (by decide),timestamp?]

/-- The packet has passed the validator of some node at some time. -/
def Passed (sha256 : Bytes → Bytes) (packet : Val) : Prop :=
  ∃ now : Nat, check sha256 packet ⟨now,false⟩ = .ok .ok

/-- What one node let through the next does, in time. -/
theorem validate_timely (hp : Passed sha256 packet) (hid : idOf packet = some id)
    (ht : Timely s packet) : validate sha256 packet s.clock = some id := by
  obtain ⟨now,h⟩ := hp
  obtain ⟨-,-,t,-,-,htime,-⟩ := check_iff.mp h
  obtain ⟨hfuture,hstale⟩ := ht t htime
  unfold validate
  rw [check_window h htime hfuture hstale]
  exact hid

theorem passed_of_validate {now : Nat} (h : validate sha256 packet now = some id) :
    Passed sha256 (withHopCountZero packet) ∧ idOf packet = some id := by
  unfold validate at h
  split at h
  · next hc => exact ⟨⟨now,check_withHopCountZero hc⟩,h⟩
  · cases h

/-- Whom a packet goes to. -/
def sends (packet : Val) (sender : PeerId) (peers : List Peer) : List (PeerId × Val) :=
  (peers.filter fun peer => peer.peerId ≠ sender && peer.isConnected && peer.isVerified).map
    fun peer => (peer.peerId,withHopCountZero packet)

theorem mem_sends {sender j : PeerId} {peers : List Peer} (hj : ⟨j,true,true⟩ ∈ peers)
    (hne : j ≠ sender) : (j,withHopCountZero packet) ∈ sends packet sender peers :=
  List.mem_map.mpr ⟨_,List.mem_filter.mpr ⟨hj,by simp [hne]⟩,rfl⟩

theorem mem_sends_body {sender : PeerId} {peers : List Peer} {p : PeerId × Val}
    (h : p ∈ sends packet sender peers) : p.2 = withHopCountZero packet := by
  obtain ⟨peer,-,rfl⟩ := List.mem_map.mp h
  rfl

/-- What is remembered as flooded was relayed, what is remembered as delivered was shown,
and a reader was shown all that it relayed. -/
structure Recorded (reads : Prop) (s : State) : Prop where
  flooded : ∀ id ∈ s.flooded.ids, id ∈ relayed s
  delivered : ∀ id ∈ s.delivered.ids, id ∈ shownIds s
  shown : reads → ∀ id ∈ relayed s, id ∈ shownIds s

theorem Recorded.show {reads : Prop} (h : Recorded reads s) (hid : idOf packet = some id) :
    Recorded reads { s with
        delivered := s.delivered.add id s.clock, shown := packet :: s.shown } ∧
      id ∈ shownIds { s with
        delivered := s.delivered.add id s.clock, shown := packet :: s.shown } := by
  have hcons : ∀ i, i ∈ shownIds s ∨ i = id → i ∈ shownIds { s with
      delivered := s.delivered.add id s.clock, shown := packet :: s.shown } := by
    intro i hi
    simp only [shownIds,List.filterMap_cons,hid]
    rcases hi with hi | rfl
    · exact List.mem_cons_of_mem _ hi
    · exact List.mem_cons_self
  refine ⟨⟨h.flooded,fun i hi => hcons i ?_,fun hr i hi => hcons i (.inl (h.shown hr i hi))⟩,
    hcons id (.inr rfl)⟩
  exact (SeenCache.mem_ids_add hi).imp_left (h.delivered i)

theorem flood_cases (s : State) (id : String) (packet : Val) (sender : PeerId)
    (peers : List Peer) : (id ∈ s.flooded.ids ∧ flood s id packet sender peers = s) ∨
      flood s id packet sender peers =
        { s with
          flooded := s.flooded.add id s.clock
          relays := ⟨id,packet,s.clock,sends packet sender peers⟩ :: s.relays } := by
  unfold flood
  split
  · next h => exact .inl ⟨(SeenCache.has_iff _ _).mp h,rfl⟩
  · exact .inr rfl

theorem Recorded.deliverLocal {reads : Prop} (h : Recorded reads s) (hid : idOf packet = some id)
    (subscribed : Bool) : Recorded reads (deliverLocal s id packet subscribed) ∧
      (subscribed = true → id ∈ shownIds (deliverLocal s id packet subscribed)) := by
  unfold ZoneGossipRouter.deliverLocal
  split
  · next hc =>
    refine ⟨h,fun hsub => h.delivered id ?_⟩
    rw [hsub] at hc
    exact (SeenCache.has_iff _ _).mp (by simpa using hc)
  · obtain ⟨hr,hs⟩ := h.show hid
    exact ⟨hr,fun _ => hs⟩

theorem Recorded.flood {reads : Prop} (h : Recorded reads s) (sender : PeerId) (peers : List Peer)
    (hshown : reads → id ∈ shownIds s) :
    Recorded reads (flood s id packet sender peers) ∧
      id ∈ relayed (flood s id packet sender peers) := by
  rcases flood_cases s id packet sender peers with ⟨hm,he⟩ | he
  · rw [he]
    exact ⟨h,h.flooded id hm⟩
  · rw [he]
    refine ⟨⟨fun i hi => ?_,h.delivered,fun hr i hi => ?_⟩,List.mem_cons_self⟩
    · rcases SeenCache.mem_ids_add hi with hi | rfl
      · exact List.mem_cons_of_mem _ (h.flooded i hi)
      · exact List.mem_cons_self
    · rcases List.mem_cons.mp hi with rfl | hi
      · exact hshown hr
      · exact h.shown hr i hi

theorem outgoing_self (s : State) (h : s'.relays = s.relays) : outgoing s s' = [] := by
  simp [outgoing,h]

theorem outgoing_cons {r : Relay} (h : s'.relays = r :: s.relays) : outgoing s s' = r.sends := by
  simp [outgoing,h]

/-- A step that relays nothing new, or one that a packet came in which passed. -/
theorem step_relays {me : PeerId} {a : ZoneGossipRouter.Action}
    (h : ZoneGossipRouter.step sha256 me s a = some s') :
    s'.relays = s.relays ∨ ∃ sender packet env id, arrival me a = some (sender,packet,env) ∧
      validate sha256 packet s.clock = some id ∧
      s'.relays = ⟨id,packet,s.clock,sends packet sender env.peers⟩ :: s.relays := by
  have haccept : ∀ packet sender env, (accept sha256 s packet sender env).relays = s.relays ∨
      ∃ id, validate sha256 packet s.clock = some id ∧
        (accept sha256 s packet sender env).relays =
          ⟨id,packet,s.clock,sends packet sender env.peers⟩ :: s.relays := by
    intro packet sender env
    unfold accept
    cases hv : validate sha256 packet s.clock with
    | none => exact .inl rfl
    | some id =>
      obtain ⟨-,hr,hc⟩ := deliverLocal_frame s id packet env.subscribed
      dsimp only
      rcases flood_cases (deliverLocal s id packet env.subscribed) id packet sender env.peers with
        ⟨-,he⟩ | he
      · rw [he]
        exact .inl hr
      · rw [he]
        refine .inr ⟨id,rfl,?_⟩
        dsimp only
        rw [hr,hc]
  cases a with
  | gossip sender msg env =>
    cases h
    exact (haccept _ _ _).imp_right fun ⟨id,hv,hr⟩ => ⟨_,_,_,id,rfl,hv,hr⟩
  | exitFluff packet env =>
    cases h
    exact (haccept _ _ _).imp_right fun ⟨id,hv,hr⟩ => ⟨_,_,_,id,rfl,hv,hr⟩
  | broadcast packet =>
    simp only [ZoneGossipRouter.step] at h
    split at h
    · cases h
      exact .inl rfl
    · cases h
  | tick ms =>
    cases h
    exact .inl rfl
  | cleanupFlooded =>
    cases h
    exact .inl rfl
  | cleanupDelivered =>
    cases h
    exact .inl rfl

theorem Recorded.accept (sha256 : Bytes → Bytes) {reads : Prop} (h : Recorded reads s) (packet : Val) (sender : PeerId)
    (env : Env) (hsub : reads → env.subscribed = true) :
    Recorded reads (accept sha256 s packet sender env) ∧
      ∀ id, validate sha256 packet s.clock = some id →
        id ∈ relayed (accept sha256 s packet sender env) := by
  unfold ZoneGossipRouter.accept
  cases hv : validate sha256 packet s.clock with
  | none => exact ⟨h,fun id hid => by cases hid⟩
  | some id =>
    obtain ⟨hd,hshown⟩ := h.deliverLocal (passed_of_validate hv).2 env.subscribed
    obtain ⟨hf,hr⟩ := hd.flood sender env.peers fun hreads => hshown (hsub hreads)
    exact ⟨hf,fun i hi => by cases hi; exact hr⟩

theorem recorded_step {reads : Prop} {me : PeerId} {a : ZoneGossipRouter.Action}
    (h : Recorded reads s)
    (hsub : ∀ sender packet env, arrival me a = some (sender,packet,env) → reads →
      env.subscribed = true)
    (hs : ZoneGossipRouter.step sha256 me s a = some s') : Recorded reads s' ∧
      ∀ sender packet env id, arrival me a = some (sender,packet,env) →
        validate sha256 packet s.clock = some id → id ∈ relayed s' := by
  cases a with
  | gossip sender msg env =>
    cases hs
    obtain ⟨hr,hp⟩ := h.accept sha256 (msg.field "packet") sender env
      (hsub sender _ env rfl)
    refine ⟨hr,fun _ _ _ id ha hv => ?_⟩
    cases ha
    exact hp id hv
  | exitFluff packet env =>
    cases hs
    obtain ⟨hr,hp⟩ := h.accept sha256 packet me env (hsub me packet env rfl)
    refine ⟨hr,fun _ _ _ id ha hv => ?_⟩
    cases ha
    exact hp id hv
  | broadcast packet =>
    simp only [ZoneGossipRouter.step] at hs
    split at hs
    · next id hid =>
      cases hs
      exact ⟨(h.show hid).1,fun _ _ _ _ ha => by cases ha⟩
    · cases hs
  | tick ms =>
    cases hs
    exact ⟨⟨h.flooded,h.delivered,h.shown⟩,fun _ _ _ _ ha => by cases ha⟩
  | cleanupFlooded =>
    cases hs
    refine ⟨⟨fun i hi => ?_,h.delivered,h.shown⟩,fun _ _ _ _ ha => by cases ha⟩
    exact h.flooded i ((s.flooded.cleanup_sublist s.clock).subset hi)
  | cleanupDelivered =>
    cases hs
    refine ⟨⟨h.flooded,fun i hi => ?_,h.shown⟩,fun _ _ _ _ ha => by cases ha⟩
    exact h.delivered i ((s.delivered.cleanup_sublist s.clock).subset hi)

end

/-- The flooding of the packet with an id. -/
def wave (l : Layout) (id : String) : Flooding.Wave PeerId State Val where
  member k := k ∈ l.members
  link := l.link
  link_member _ _ h := h.2
  passed s := id ∈ relayed s
  carries packet := idOf packet = some id

/-- What a fair run keeps. -/
structure Inv (sha256 : Bytes → Bytes) (l : Layout) (id : String) (n : Net) : Prop where
  front : Flooding.Front (wave l id) (fun _ => False) n
  recorded : ∀ k, Recorded (k ∈ l.readers) (n.node k)
  passed : ∀ m ∈ n.mail, Passed sha256 m.body

section
variable {sha256 : Bytes → Bytes} {l : Layout} {id : String} {n n' : Net}

/-- A member's router obeys the rule of flooding. -/
theorem obeys {k : PeerId} {s s' : State} {a : ZoneGossipRouter.Action} {source : Option PeerId}
    (harrival : ∀ sender packet env, arrival k a = some (sender,packet,env) →
      l.Sees k env ∧
        (idOf packet = some id → l.link k sender → sender = k ∨ source = some sender))
    (h : ZoneGossipRouter.step sha256 k s a = some s') :
    Flooding.Obeys (wave l id) k source s s' (outgoing s s') := by
  rcases step_relays h with hr | ⟨sender,packet,env,pid,ha,hv,hr⟩
  · have he : relayed s' = relayed s := by rw [relayed,hr,relayed]
    have hp : (wave l id).passed s' = (wave l id).passed s := by simp only [wave,he]
    rw [outgoing_self s hr]
    exact ⟨fun h => hp ▸ h,fun hn h => absurd (hp ▸ h) hn,fun _ hp => absurd hp (by simp)⟩
  · have he : relayed s' = pid :: relayed s := by rw [relayed,hr,relayed,List.map_cons]
    have hid : idOf (withHopCountZero packet) = some pid := by
      rw [idOf_withHopCountZero]
      exact (passed_of_validate hv).2
    rw [outgoing_cons hr]
    constructor
    · intro h
      show id ∈ relayed s'
      rw [he]
      exact List.mem_cons_of_mem _ h
    · intro hn hp j hl
      have hpid : id = pid := by
        have hm : id ∈ relayed s' := hp
        rw [he] at hm
        exact (List.mem_cons.mp hm).resolve_right hn
      obtain ⟨⟨hpeers,-⟩,hsender⟩ := harrival sender packet env ha
      by_cases hj : j = sender
      · subst hj
        rcases hsender (hpid ▸ (passed_of_validate hv).2) hl with hk | hs
        · exact .inl hk
        · exact .inr (.inl hs)
      · exact .inr (.inr ⟨_,mem_sends (hpeers (k,j) hl.1 rfl hl.2) hj,hpid ▸ hid⟩)
    · intro p hp hc
      have hpid : some pid = some id := by
        rw [← hid,← mem_sends_body hp]
        exact hc
      show id ∈ relayed s'
      rw [he,Option.some.inj hpid]
      exact List.mem_cons_self

theorem machines_step {k : PeerId} {s s' : State} {a : ZoneGossipRouter.Action}
    {out : List (PeerId × Val)} (h : (machines sha256).step k s a = some (s',out)) :
    ZoneGossipRouter.step sha256 k s a = some s' ∧ out = outgoing s s' := by
  obtain ⟨t,ht,he⟩ := Option.map_eq_some_iff.mp h
  cases he
  exact ⟨ht,rfl⟩

/-- The surroundings that a fair step shows to the machine that takes it. -/
theorem fair_sees {x : Action} {k : PeerId} {a : ZoneGossipRouter.Action} (hf : l.Fair id n x)
    (ht : MessageNet.taken (machines sha256) n x = some (k,a)) :
    ∀ sender packet env, arrival k a = some (sender,packet,env) → l.Sees k env := by
  intro sender packet env ha
  cases x with
  | act k' a' =>
    cases ht
    exact (hf.2 _ ha).2
  | deliver i e =>
    obtain ⟨⟨m,rest⟩,htake,he⟩ := Option.map_eq_some_iff.mp ht
    cases he
    cases ha
    exact (hf _ htake).2.1

theorem Inv.obeysStep {x : Action} (h : Inv sha256 l id n) (hf : l.Fair id n x) :
    Flooding.ObeysStep (machines sha256) (wave l id) n x := by
  cases x with
  | act k a =>
    refine ⟨hf.1,fun s out hs => ?_⟩
    obtain ⟨hstep,rfl⟩ := machines_step hs
    refine obeys (fun sender packet env ha => ?_) hstep
    obtain ⟨hsender,hsees⟩ := hf.2 _ ha
    exact ⟨hsees,fun _ hl => .inl (hsender.resolve_left fun hn => hn hl.2)⟩
  | deliver i e =>
    intro m rest ht
    obtain ⟨hm,hsees,htime⟩ := hf _ ht
    refine ⟨hm,fun s out hs => ?_⟩
    obtain ⟨hstep,rfl⟩ := machines_step hs
    constructor
    · intro hc
      constructor
      · refine obeys (fun sender packet env ha => ?_) hstep
        cases ha
        exact ⟨hsees,fun _ _ => .inr rfl⟩
      · have hrec := recorded_step (h.recorded m.dst) (fun _ _ env ha hr => by
          cases ha
          exact hsees.2 hr) hstep
        exact hrec.2 m.src m.body e id rfl
          (validate_timely (h.passed m (Machine.takeTask_mem ht).1) hc (htime hc))
    · intro hc
      refine obeys (fun sender packet env ha => ?_) hstep
      cases ha
      exact ⟨hsees,fun hid => absurd hid hc⟩

theorem inv_step {x : Action} (h : Inv sha256 l id n) (hf : l.Fair id n x)
    (hs : step sha256 n x = some n') : Inv sha256 l id n' := by
  refine ⟨Flooding.front_step h.front (h.obeysStep hf) hs,?_,?_⟩
  · obtain ⟨k,a,s,out,ht,hm,hn⟩ := MessageNet.step_node hs
    obtain ⟨hstep,-⟩ := machines_step hm
    intro j
    rw [hn]
    by_cases hj : j = k
    · subst hj
      rw [Function.update_self]
      exact (recorded_step (h.recorded j) (fun sender packet env ha hr =>
        (fair_sees hf ht sender packet env ha).2 hr) hstep).1
    · rw [Function.update_of_ne hj]
      exact h.recorded j
  · have hact : ∀ (n₀ : Net) k a, (∀ m ∈ n₀.mail, Passed sha256 m.body) →
        MessageNet.act (machines sha256) n₀ k a = some n' →
        ∀ m ∈ n'.mail, Passed sha256 m.body := by
      intro n₀ k a hpassed ha m hm
      obtain ⟨s,out,hstep,rfl⟩ := MessageNet.act_some ha
      rcases List.mem_append.mp hm with hm | hm
      · exact hpassed m hm
      · obtain ⟨hrouter,rfl⟩ := machines_step hstep
        obtain ⟨p,hp,rfl⟩ := List.mem_map.mp hm
        rcases step_relays hrouter with hr | ⟨sender,packet,env,pid,-,hv,hr⟩
        · rw [outgoing_self _ hr] at hp
          cases hp
        · rw [outgoing_cons hr] at hp
          show Passed sha256 p.2
          rw [mem_sends_body hp]
          exact (passed_of_validate hv).1
    cases x with
    | act k a => exact hact n k a h.passed hs
    | deliver i e =>
      obtain ⟨m,rest,ht,ha⟩ := MessageNet.deliver_some hs
      exact hact _ _ _ (fun m' hm' => h.passed m' ((Machine.takeTask_mem ht).2 m' hm')) ha

theorem inv_initial (clock : PeerId → Nat) : Inv sha256 l id (initial clock) := by
  refine ⟨⟨fun k _ hp => ?_,fun m hm => ?_⟩,fun k => ⟨fun i hi => ?_,fun i hi => ?_,fun _ i hi => ?_⟩,
    fun m hm => ?_⟩
  · cases hp
  · cases hm
  · cases hi
  · cases hi
  · cases hi
  · cases hm

/-- Once no message with the packet is on its way to a member, every member that the links
lead to from one that relayed it has relayed it, and shown it if it reads the zone. -/
theorem flood_reaches {clock : PeerId → Nat} {xs : List Action}
    (hr : Machine.run (step sha256) (initial clock) xs = some n)
    (hfair : Machine.Along (step sha256) (l.Fair id) (initial clock) xs)
    (hquiet : ∀ m ∈ n.mail, idOf m.body = some id → m.dst ∉ l.members) {k j : PeerId}
    (hk : k ∈ l.members) (hrelayed : id ∈ relayed (n.node k))
    (hpath : Relation.ReflTransGen l.link k j) :
    id ∈ relayed (n.node j) ∧ (j ∈ l.readers → id ∈ shownIds (n.node j)) := by
  have hinv := Machine.invariant_run (fun _ _ _ h hf hs => inv_step h hf hs)
    (inv_initial clock) hfair hr
  have hreached : id ∈ relayed (n.node j) := hinv.front.reached hquiet hk hrelayed hpath
  exact ⟨hreached,fun hj => (hinv.recorded j).shown hj id hreached⟩

end

/-- Three members in a row, the last of which reads. -/
def rowOfThree : Layout where
  members := {"a","b","c"}
  links := [("a","b"),("b","a"),("b","c"),("c","b")]
  readers := {"c"}

/-- The packet leaves an exit at one end and is carried to the other. -/
def acrossTheRow : List Action := [
  .act "a" (.exitFluff currentPacket { peers := [⟨"b",true,true⟩] }),
  .deliver 0 { peers := [⟨"a",true,true⟩,⟨"c",true,true⟩] },
  .deliver 0 { peers := [⟨"b",true,true⟩], subscribed := true }]

def currentId : String := "f34f7f0d280c1878fba60035a4a8c7aabad51f66828e265a6842f4f3a7c2f341"

theorem flood_reaches_acrossTheRow : ∃ n,
    Machine.run (step Sha256.sha256) (initial fun _ => 0) acrossTheRow = some n ∧
      currentId ∈ shownIds (n.node "c") := by
  have hcheck : Machine.check (step Sha256.sha256) (fun n x => decide (rowOfThree.Fair currentId n x))
      (initial fun _ => 0) acrossTheRow = true := by decide +kernel
  have hend : (Machine.run (step Sha256.sha256) (initial fun _ => 0) acrossTheRow).map
      (fun n => (n.mail.length,relayed (n.node "a"))) = some (0,[currentId]) := by decide +kernel
  obtain ⟨n,hr,hn⟩ := Option.map_eq_some_iff.mp hend
  obtain ⟨hmail,hrelayed⟩ := Prod.mk.inj hn
  have hnil : n.mail = [] := List.length_eq_zero_iff.mp hmail
  have hpath : Relation.ReflTransGen rowOfThree.link "a" "c" :=
    (Relation.ReflTransGen.single (b := "b") ⟨by decide,by decide⟩).tail ⟨by decide,by decide⟩
  have hfair := Machine.along_of_check (fun n x h => of_decide_eq_true h) hcheck
  exact ⟨n,hr,(flood_reaches hr hfair (by simp [hnil]) (by decide)
    (hrelayed ▸ List.mem_cons_self) hpath).2 (by decide)⟩

/-- What a node has sent so far. -/
def sent (s : State) : List (PeerId × Val) := s.relays.flatMap Relay.sends

/-- A relay goes to each peer once, under its own id. -/
structure Addressed (s : State) : Prop where
  once : ∀ r ∈ s.relays, (r.sends.map Prod.fst).Nodup
  ids : ∀ r ∈ s.relays, ∀ p ∈ r.sends, idOf p.2 = some r.id

/-- What the bound on the traffic asks of a step: a peer is known under one name, and what
arrives is not dated after the clock and is one of the packets there are. -/
structure Bounded (sha256 : Bytes → Bytes) (known : Finset String) (preimages : List Bytes)
    (k : PeerId) (s : State) (a : ZoneGossipRouter.Action) : Prop where
  current : NotFutureDated sha256 s a
  expected : Expected known preimages a
  distinct : ∀ r ∈ arrival k a, (r.2.2.peers.map Peer.peerId).Nodup

section
variable {sha256 : Bytes → Bytes} {known : Finset String} {preimages : List Bytes} {n : Net}
  {id : String}

theorem sends_sent : MessageNet.Sends (machines sha256) sent := by
  intro k s a s' out h
  obtain ⟨hs,rfl⟩ := machines_step h
  rcases step_relays hs with hr | ⟨sender,packet,env,pid,-,-,hr⟩
  · rw [outgoing_self s hr,sent,hr]
    exact List.Perm.refl _
  · rw [outgoing_cons hr,sent,hr,List.flatMap_cons]
    exact List.Perm.refl _

theorem Addressed.step {k : PeerId} {s s' : State} {a : ZoneGossipRouter.Action}
    (h : Addressed s) (hd : ∀ r ∈ arrival k a, (r.2.2.peers.map Peer.peerId).Nodup)
    (hs : ZoneGossipRouter.step sha256 k s a = some s') : Addressed s' := by
  rcases step_relays hs with hr | ⟨sender,packet,env,pid,ha,hv,hr⟩
  · exact ⟨hr ▸ h.once,hr ▸ h.ids⟩
  · constructor
    · intro r hm
      rw [hr] at hm
      rcases List.mem_cons.mp hm with rfl | hm
      · have hsub := (List.filter_sublist (l := env.peers) (p := fun peer =>
          peer.peerId ≠ sender && peer.isConnected && peer.isVerified)).map Peer.peerId
        have hn := (hd _ ha).sublist hsub
        simpa [sends,Function.comp_def] using hn
      · exact h.once r hm
    · intro r hm p hp
      rw [hr] at hm
      rcases List.mem_cons.mp hm with rfl | hm
      · rw [mem_sends_body hp,idOf_withHopCountZero]
        exact (passed_of_validate hv).2
      · exact h.ids r hm p hp

/-- Relays of distinct ids hand a peer the packet with an id at most once. -/
theorem Addressed.sent_once {rs : List Relay} (hn : (rs.map Relay.id).Nodup)
    (hd : ∀ r ∈ rs, (r.sends.map Prod.fst).Nodup)
    (hid : ∀ r ∈ rs, ∀ p ∈ r.sends, idOf p.2 = some r.id) (j : PeerId) (id : String) :
    ((rs.flatMap Relay.sends).filter fun p => p.1 = j ∧ idOf p.2 = some id).length ≤ 1 := by
  induction rs with
  | nil => exact Nat.zero_le _
  | cons r rs ih =>
    rw [List.flatMap_cons,List.filter_append,List.length_append]
    have hrest := ih hn.of_cons (fun r hr => hd r (List.mem_cons_of_mem _ hr))
      fun r hr => hid r (List.mem_cons_of_mem _ hr)
    by_cases hr : r.id = id
    · have hnone : (rs.flatMap Relay.sends).filter (fun p => p.1 = j ∧ idOf p.2 = some id) = [] := by
        rw [List.filter_eq_nil_iff]
        intro p hp hpid
        obtain ⟨r',hr',hp⟩ := List.mem_flatMap.mp hp
        have hpid := (of_decide_eq_true hpid).2
        rw [hid r' (List.mem_cons_of_mem _ hr') p hp] at hpid
        refine (List.nodup_cons.mp hn).1 ?_
        rw [hr,← Option.some.inj hpid]
        exact List.mem_map_of_mem hr'
      have hone : (r.sends.filter fun p => p.1 = j ∧ idOf p.2 = some id).length ≤ 1 := by
        have hsub := (List.filter_sublist (l := r.sends)
          (p := fun p => p.1 = j ∧ idOf p.2 = some id)).map Prod.fst
        have hall := List.eq_replicate_of_mem (l := (r.sends.filter fun p =>
          p.1 = j ∧ idOf p.2 = some id).map Prod.fst) (a := j) fun i hi => by
            obtain ⟨p,hp,rfl⟩ := List.mem_map.mp hi
            exact (of_decide_eq_true (List.mem_filter.mp hp).2).1
        have hnodup := (hd r List.mem_cons_self).sublist hsub
        rw [hall,List.nodup_replicate,List.length_map] at hnodup
        exact hnodup
      rw [hnone]
      exact hone
    · have hnone : r.sends.filter (fun p => p.1 = j ∧ idOf p.2 = some id) = [] := by
        rw [List.filter_eq_nil_iff]
        intro p hp hpid
        have hpid := (of_decide_eq_true hpid).2
        rw [hid r List.mem_cons_self p hp] at hpid
        exact hr (Option.some.inj hpid)
      rw [hnone]
      simpa using hrest

theorem bounded_step (hcoll : ∀ x ∈ preimages, ∀ y ∈ preimages, sha256 x = sha256 y → x = y)
    (hcap : known.card ≤ SeenCache.maxSize) (k : PeerId) (s : State)
    (a : ZoneGossipRouter.Action) (s' : State) (out : List (PeerId × Val))
    (h : ZoneGossipRouter.Inv sha256 known preimages s ∧ Addressed s)
    (hb : Bounded sha256 known preimages k s a)
    (hs : (machines sha256).step k s a = some (s',out)) :
    ZoneGossipRouter.Inv sha256 known preimages s' ∧ Addressed s' := by
  obtain ⟨hs,-⟩ := machines_step hs
  exact ⟨ZoneGossipRouter.inv_step hcoll hcap s a s' h.1 ⟨hb.current,hb.expected⟩ hs,
    h.2.step hb.distinct hs⟩

/-- In whatever order messages arrive, a packet crosses a link at most once in each
direction: what is under way and what has arrived together hold one message. -/
theorem flood_crossesOnce {clock : PeerId → Nat} {xs : List Action}
    (hcoll : ∀ x ∈ preimages, ∀ y ∈ preimages, sha256 x = sha256 y → x = y)
    (hcap : known.card ≤ SeenCache.maxSize)
    (hbounded : Machine.Along (step sha256) (fun n x =>
      ∀ p ∈ MessageNet.taken (machines sha256) n x,
        Bounded sha256 known preimages p.1 (n.node p.1) p.2) (initial clock) xs)
    (hr : Machine.run (step sha256) (initial clock) xs = some n) (k j : PeerId) (id : String) :
    ((n.mail ++ n.delivered).filter fun m =>
      m.src = k ∧ m.dst = j ∧ idOf m.body = some id).length ≤ 1 := by
  have hinit : ∀ k, ZoneGossipRouter.Inv sha256 known preimages ((initial clock).node k) ∧
      Addressed ((initial clock).node k) := by
    intro k
    refine ⟨⟨List.nodup_nil,?_,?_,?_,List.nodup_nil⟩,⟨?_,?_⟩⟩
    · intro r hr
      cases hr
    · intro r hr
      cases hr
    · intro id hid
      cases hid
    · intro r hr
      cases hr
    · intro r hr
      cases hr
  obtain ⟨hinv,haddr⟩ := MessageNet.nodes_run (bounded_step hcoll hcap) hinit hbounded hr k
  have hperm := MessageNet.conserved_run sends_sent (n := initial clock)
    (fun _ => List.Perm.refl _) hr k
  have hcount := (hperm.filter fun m => m.dst = j ∧ idOf m.body = some id).length_eq
  rw [List.filter_filter,List.filter_map,List.length_map] at hcount
  have hone := Addressed.sent_once hinv.once haddr.once haddr.ids j id
  have heq : (fun m : MessageNet.Mail PeerId Val =>
      decide (m.dst = j ∧ idOf m.body = some id) && decide (m.src = k)) =
        fun m => decide (m.src = k ∧ m.dst = j ∧ idOf m.body = some id) := by
    funext m
    rw [← Bool.decide_and]
    exact decide_eq_decide.mpr and_comm
  rw [heq] at hcount
  rw [hcount]
  exact hone

end

/-- Whether a step hands on nothing but the sample packet, to peers under distinct names. -/
def handsOnCurrent (n : Net) (x : Action) : Bool :=
  (MessageNet.taken (machines Sha256.sha256) n x).all fun p =>
    p.2.received.all (fun packet => decide (timestamp? packet = some 0)) &&
    (receivedId p.2).all (fun id => decide (id = currentId)) &&
    (receivedPreimage p.2).all (fun bs => decide (preimage? currentPacket = some bs)) &&
    (arrival p.1 p.2).all fun r => decide (r.2.2.peers.map Peer.peerId).Nodup

theorem flood_crossesOnce_acrossTheRow : ∃ n,
    Machine.run (step Sha256.sha256) (initial fun _ => 0) acrossTheRow = some n ∧
      ((n.mail ++ n.delivered).filter fun m =>
        m.src = "b" ∧ m.dst = "c" ∧ idOf m.body = some currentId).length ≤ 1 := by
  have hcheck : Machine.check (step Sha256.sha256) handsOnCurrent (initial fun _ => 0) acrossTheRow =
      true := by decide +kernel
  have hbounded : ∀ n x, handsOnCurrent n x = true →
      ∀ p ∈ MessageNet.taken (machines Sha256.sha256) n x,
        Bounded Sha256.sha256 {currentId} (preimage? currentPacket).toList p.1 (n.node p.1) p.2 := by
    intro n x h p hp
    have hp : MessageNet.taken (machines Sha256.sha256) n x = some p := hp
    simp only [handsOnCurrent,hp,Option.all_some,Bool.and_eq_true,Option.all_eq_true,
      decide_eq_true_eq] at h
    obtain ⟨⟨⟨htime,hid⟩,hpre⟩,hpeers⟩ := h
    refine ⟨fun packet hr id _ _ t ht => ?_,⟨fun id hi => ?_,fun bs hbs => ?_⟩,hpeers⟩
    · rw [htime packet hr] at ht
      cases ht
      exact Nat.zero_le _
    · exact Finset.mem_singleton.mpr (hid id hi)
    · rw [hpre bs hbs]
      exact List.mem_singleton.mpr rfl
  cases hr : Machine.run (step Sha256.sha256) (initial fun _ => 0) acrossTheRow with
  | none => exact absurd hr (by decide +kernel)
  | some n =>
    refine ⟨n,rfl,flood_crossesOnce (fun x hx y hy _ => ?_) (by decide)
      (Machine.along_of_check hbounded hcheck) hr "b" "c" currentId⟩
    have hx := Option.mem_toList.mp hx
    have hy := Option.mem_toList.mp hy
    exact Option.some.inj (hx.symm.trans hy)

end GossipNet
