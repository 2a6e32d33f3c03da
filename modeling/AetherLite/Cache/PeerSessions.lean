import AetherLite.Cache.GossipActor
import AetherLite.Lib.Machine
import AetherLite.Lib.SessionQueue

/-! The peer manager of the cache node, its router, and the actors of the connections. They only
meet in queues: of the events for the router, and of the controls for the manager. -/
set_option autoImplicit false

namespace Cache

open Js SessionQueue

structure PeerMetadata where
  session : Nat
  verified : Bool := false
  challenge : Option Bytes := none

/-- The part of the manager that its controls change -/
structure PeerManager where
  myPeerId : PeerId
  peers : JsMap PeerId PeerMetadata := []
  nextSession : Nat := 1

namespace PeerManager

/-- What a control makes the manager do. -/
inductive Effect where
  /-- `PeerActorCommand::Close` -/
  | close (session : Nat)
  /-- `NetworkEvent::PeerReset` -/
  | reset (peerId : PeerId)
  | spawned (session : Nat) (peerId : PeerId)

def isOffer (payload : Val) : Bool :=
  match (payload.field "sdp").field "type" with
  | .str type => type == "offer"
  | _ => false

/-- `WebRTCPeer::spawn`, which may fail. -/
def spawn (m : PeerManager) (peerId : PeerId) (ok : Bool) : PeerManager × List Effect :=
  let session := m.nextSession
  let m := { m with nextSession := session+1 }
  if ok then
    ({ m with peers := JsMap.set m.peers peerId { session := session } },[.spawned session peerId])
  else (m,[])

/-- Another offer of a peer closes the connection it has. -/
def replace (m : PeerManager) (senderId : PeerId) (payload : Val) : PeerManager × List Effect :=
  match JsMap.get m.peers senderId with
  | some entry =>
    if isOffer payload then
      ({ m with peers := JsMap.delete m.peers senderId },[.close entry.session,.reset senderId])
    else (m,[])
  | none => (m,[])

def update (m : PeerManager) (peerId : PeerId) (f : PeerMetadata → PeerMetadata) : PeerManager :=
  match JsMap.get m.peers peerId with
  | some entry => { m with peers := JsMap.set m.peers peerId (f entry) }
  | none => m

/-- The loop of the manager meets a control. -/
def control (m : PeerManager) (ok : Bool) : PeerManagerControl → PeerManager × List Effect
  | .initiateConnection peerId =>
    if !isValidPeerId peerId then (m,[])
    else if peerId ≠ m.myPeerId ∧ !JsMap.has m.peers peerId then m.spawn peerId ok
    else (m,[])
  | .handleIncomingSignal senderId payload =>
    if !isValidPeerId senderId then (m,[])
    else
      let (m,effects) := m.replace senderId payload
      if JsMap.has m.peers senderId then (m,effects)
      else
        let (m,more) := m.spawn senderId ok
        (m,effects ++ more)
  | .dropPeer peerId =>
    match JsMap.get m.peers peerId with
    | some entry => ({ m with peers := JsMap.delete m.peers peerId },[.close entry.session])
    | none => (m,[])
  | .peerDisconnected peerId session =>
    if (JsMap.get m.peers peerId).any fun entry => entry.session == session then
      ({ m with peers := JsMap.delete m.peers peerId },[])
    else (m,[])
  | .setChallenge peerId challenge =>
    (m.update peerId fun entry => { entry with challenge := some challenge },[])
  | .markVerified peerId => (m.update peerId fun entry => { entry with verified := true },[])

end PeerManager

/-- `WebRTCPeer` -/
structure WebRTCPeer where
  peerId : PeerId
  announced : Bool := false
  running : Bool := true
  /-- A `Close` waits for the actor. -/
  closing : Bool := false

/-- The node, where every event is kept with the session it comes from, and every control with
the one whose event led to it. -/
structure Node where
  manager : PeerManager
  router : GossipActor := {}
  events : List (Nat × NetworkEvent) := []
  controls : List (Nat × PeerManagerControl) := []
  sessions : JsMap Nat WebRTCPeer := []
  /-- The sessions whose challenges the router holds -/
  stamps : JsMap PeerId Nat := []
  /-- The sessions whose JOINs the router has taken for its verified peers -/
  proofs : JsMap PeerId Nat := []
  /-- Every session on which a JOIN was verified -/
  joined : List Nat := []

def NetworkEvent.peerId : NetworkEvent → PeerId
  | .peerConnected peerId => peerId
  | .peerDisconnected peerId _ => peerId
  | .peerReset peerId => peerId
  | .messageReceived peerId _ => peerId

def NetworkEvent.isConnected : NetworkEvent → Bool
  | .peerConnected _ => true
  | _ => false

namespace Node

/-- The session the manager has for a peer -/
def current (s : Node) (peerId : PeerId) : Option Nat :=
  (JsMap.get s.manager.peers peerId).map PeerMetadata.session

def perform (s : Node) : PeerManager.Effect → Node
  | .close session =>
    match JsMap.get s.sessions session with
    | some a => { s with sessions := JsMap.set s.sessions session { a with closing := true } }
    | none => s
  | .reset peerId => { s with events := s.events ++ [(0,.peerReset peerId)] }
  | .spawned session peerId =>
    { s with sessions := JsMap.set s.sessions session { peerId := peerId } }

def controlOf (session : Nat) : Sent → Option (Nat × PeerManagerControl)
  | .control c => some (session,c)
  | .sendMessage _ _ => none

section
variable (cfg : GossipActor.Config)

/-- The router handles an event. -/
def deliver (s : Node) (session : Nat) (e : NetworkEvent) (rest : List (Nat × NetworkEvent))
    (now : Rat) (draw : Challenge) : Node :=
  let (router,sent) := GossipActor.handle cfg s.router e now draw
  let taken := JsMap.has router.verified e.peerId && !JsMap.has s.router.verified e.peerId
  { s with
    router := router
    events := rest
    controls := s.controls ++ sent.filterMap (controlOf session)
    stamps :=
      if JsMap.has router.challenges e.peerId then
        if e.isConnected then JsMap.set s.stamps e.peerId session else s.stamps
      else JsMap.delete s.stamps e.peerId
    proofs :=
      if JsMap.has router.verified e.peerId then
        if taken then JsMap.set s.proofs e.peerId session else s.proofs
      else JsMap.delete s.proofs e.peerId
    joined := if taken then session :: s.joined else s.joined }

inductive Action where
  /-- The tracker or another peer has the manager connect, or hands on a signal. -/
  | signalled (c : PeerManagerControl)
  /-- The manager takes its next control. -/
  | managed (ok : Bool)
  /-- The router takes its next event. -/
  | handled (now : Rat) (draw : Challenge)
  /-- The data channel of a session opens. -/
  | opened (session : Nat)
  | received (session : Nat) (message : GossipActor.P2PMessage)
  /-- The connection of a session is lost. -/
  | lost (session : Nat)
  /-- The actor of a session takes its `Close`. -/
  | closed (session : Nat)

/-- What the actor of a session does while it runs. -/
def act (s : Node) (session : Nat) (f : WebRTCPeer → Option Node) : Option Node :=
  match JsMap.get s.sessions session with
  | some a => if a.running then f a else none
  | none => none

def step (s : Node) : Action → Option Node
  | .signalled (.initiateConnection peerId) =>
    some { s with controls := s.controls ++ [(0,.initiateConnection peerId)] }
  | .signalled (.handleIncomingSignal senderId payload) =>
    some { s with controls := s.controls ++ [(0,.handleIncomingSignal senderId payload)] }
  | .signalled _ => none
  | .managed ok =>
    match s.controls with
    | [] => none
    | (_,c) :: rest =>
      let (manager,effects) := s.manager.control ok c
      some (effects.foldl perform { s with manager := manager, controls := rest })
  | .handled now draw =>
    match s.events with
    | [] => none
    | (session,e) :: rest => some (s.deliver cfg session e rest now draw)
  | .opened session => s.act session fun a =>
    if a.announced then some s
    else some { s with
      sessions := JsMap.set s.sessions session { a with announced := true }
      events := s.events ++ [(session,.peerConnected a.peerId)] }
  | .received session message => s.act session fun a =>
    some { s with events := s.events ++ [(session,.messageReceived a.peerId message)] }
  | .lost session => s.act session fun a =>
    some { s with
      sessions := JsMap.set s.sessions session { a with running := false }
      events := s.events ++ [(session,.peerDisconnected a.peerId session)] }
  | .closed session => s.act session fun a =>
    if a.closing then
      some { s with sessions := JsMap.set s.sessions session { a with running := false } }
    else none

end

/-- The node before anything has happened -/
def initial (myPeerId : PeerId) : Node := { manager := { myPeerId := myPeerId } }

/-- What the router and the manager have to agree on -/
structure Agrees (cfg : GossipActor.Config) (s : Node) : Prop where
  /-- A session is verified only after a JOIN was verified on it. -/
  marked : ∀ p entry, JsMap.get s.manager.peers p = some entry → entry.verified = true →
    entry.session ∈ s.joined
  /-- That a session is over takes nothing from a newer one in the router. -/
  challenge : ∀ from_ p session rest now draw newer,
    s.events = (from_,.peerDisconnected p session) :: rest → session < newer →
      JsMap.get s.stamps p = some newer →
        JsMap.get (GossipActor.handle cfg s.router (.peerDisconnected p session) now
          draw).1.challenges p = JsMap.get s.router.challenges p
  verified : ∀ from_ p session rest now draw newer,
    s.events = (from_,.peerDisconnected p session) :: rest → session < newer →
      JsMap.get s.proofs p = some newer →
        JsMap.get (GossipActor.handle cfg s.router (.peerDisconnected p session) now
          draw).1.verified p = JsMap.get s.router.verified p
  /-- Nor in the manager. -/
  entry : ∀ p session entry ok, JsMap.get s.manager.peers p = some entry →
    session < entry.session →
      JsMap.get (s.manager.control ok (.peerDisconnected p session)).1.peers p = some entry
  /-- When nothing is on its way, both have the same verified peers. -/
  settled : s.events = [] → s.controls = [] → ∀ p, JsMap.has s.router.verified p = true ↔
    ∃ entry, JsMap.get s.manager.peers p = some entry ∧ entry.verified = true

/-! What each of the queues says of one peer. -/

def reportOf (p : PeerId) : Nat × NetworkEvent → Option Report
  | (session,.peerConnected q) => if q = p then some (.connected session) else none
  | (session,.messageReceived q (.join _ _ _ _ _)) => if q = p then some (.join session) else none
  | (_,.messageReceived _ _) => none
  | (_,.peerDisconnected q session) => if q = p then some (.lost session) else none
  | (_,.peerReset q) => if q = p then some .reset else none

def requestOf (p : PeerId) : Nat × PeerManagerControl → Option Request
  | (session,.markVerified q) => if q = p then some (.mark session) else none
  | (session,.dropPeer q) => if q = p then some (.drop session) else none
  | (_,.peerDisconnected q session) => if q = p then some (.gone session) else none
  | _ => none

def view (s : Node) (p : PeerId) : View where
  current := (JsMap.get s.manager.peers p).map fun entry => (entry.session,entry.verified)
  requests := s.controls.filterMap (requestOf p)
  stamp := JsMap.get s.stamps p
  proved := JsMap.get s.proofs p
  reports := s.events.filterMap (reportOf p)

/-- A session is the current one of its peer, or that one has not opened. -/
def Foremost (s : Node) (session : Nat) : Prop :=
  ∀ a, JsMap.get s.sessions session = some a → ∀ other, s.current a.peerId = some other →
    other = session ∨ ∀ b, JsMap.get s.sessions other = some b → b.announced = false

/-- The events come in an order that the queues can bear: a channel opens while its session is
current; a JOIN comes, and a session is lost, before another one of the peer has opened; and an
offer takes the place of a session only when no JOIN of the peer is waiting, and no answer to
one. -/
def InOrder (s : Node) : Action → Prop
  | .opened session => ∀ a, JsMap.get s.sessions session = some a → a.announced = false →
    s.current a.peerId = some session
  | .received session (.join _ _ _ _ _) => s.Foremost session
  | .lost session => s.Foremost session
  | .managed _ => ∀ from_ senderId payload rest,
    s.controls = (from_,.handleIncomingSignal senderId payload) :: rest →
      PeerManager.isOffer payload = true → JsMap.has s.manager.peers senderId = true →
        (∀ n, .join n ∉ (s.view senderId).reports) ∧
          ∀ n, .mark n ∉ (s.view senderId).requests ∧ .drop n ∉ (s.view senderId).requests
  | _ => True

end Node

end Cache
