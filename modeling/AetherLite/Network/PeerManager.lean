import AetherLite.Lib.Machine
import AetherLite.Network.WebRTCPeer
import AetherLite.Wire.WireCodec

/-! The peer manager: who is connected, who has proved its identity, and what of the
received frames is dispatched. A connection is known by its number in the order of
creation; an entry of `peers` names the one that is registered under an id. What the
listeners of its events do are steps of their own. -/
set_option autoImplicit false

namespace PeerManager

open Js NodeIdentity Network Wire

def localLinks : Nat := 4
def maxDegree : Nat := 16

def maxPendingPeers : Nat := 8
def maxSignalsPerSender : Nat := 32
def maxSignalSenders : Nat := 32
def coolDown : Nat := 30000

/-- `RATE_CATEGORY` -/
def rateCategory : WireType → String
  | .hello | .join => "handshake"
  | .ringInfo | .ping | .pong | .localLinkReq | .localLinkAck | .localLinkRej => "control"
  | .gossip | .stem | .hint | .hintStem => "gossip"
  | .onionStem => "onion"
  | .dhtPut | .dhtPutStem => "dhtPut"
  | .dhtGet | .dhtRes => "dhtGet"
  | .pexRequest | .pexResponse => "pex"
  | .sdpRelay | .iceRelay => "signaling"
  | .unknown => "unknown"

/-- `PRE_HANDSHAKE_TYPES` -/
def preHandshake (t : WireType) : Bool := t = .hello || t = .join

/-- `MAX_FRAME_BYTES` -/
def maxFrameBytes? : WireType → Option Nat
  | .hello | .ping | .pong | .pexRequest => some 256
  | .join | .hint | .hintStem | .dhtGet => some 1024
  | .onionStem | .pexResponse | .iceRelay => some 4096
  | .gossip | .stem => some (8*1024)
  | .sdpRelay => some (16*1024)
  | _ => none

def defaultMaxFrameBytes : Nat := 1024*1024

def maxFrameBytes (t : WireType) : Nat := (maxFrameBytes? t).getD defaultMaxFrameBytes

/-- The limit that the first byte of a frame selects. -/
def frameLimit (frame : Bytes) : Nat :=
  ((frame.head?.bind WireType.ofByte?).bind maxFrameBytes?).getD defaultMaxFrameBytes

/-- `ViolationType.MALFORMED_WIRE` -/
def malformedWire : Nat := 100

/-- The rate limiter a manager is built with. -/
structure RateLimiter (ρ : Type) where
  allow : ρ → PeerId → (category : String) → (now : Nat) → Bool × ρ
  forget : ρ → PeerId → ρ

/-- The record of misbehaviour a manager is built with. -/
structure Misbehavior (μ : Type) where
  isBanned : μ → PeerId → (now : Nat) → Bool × μ
  recordViolation : μ → PeerId → (violation now : Nat) → μ

structure Config (ρ μ : Type) where
  sodium : Sodium
  cases : CaseMap
  /-- `decode` of msgpack -/
  unpack : Bytes → Option Val
  limiter : RateLimiter ρ
  misbehavior : Misbehavior μ
  identity : NodeIdentity
  powParams : PowParams
  allowMissingDtlsFingerprint : Bool := false

/-- What `newChallenge` draws. -/
abbrev Challenge := {challenge : Bytes // challenge.length = challengeBytes}

inductive Event where
  /-- A message was handed to the open channel of a connection. -/
  | sent (conn : Nat) (type : WireType) (payload : Val)
  /-- A message that arrived on a connection was given to the handlers. -/
  | dispatched (conn : Nat) (type : WireType) (payload : Val)
  | signedJoin (challenge : Challenge) (binding : JoinBinding)
  | connected (conn : Nat)
  | verified (conn : Nat)
  | disconnected (conn : Nat)
  | trackerRelay (target : PeerId) (payload : Val)

structure State (ρ μ : Type) where
  conns : List WebRTCPeer := []
  peers : JsMap PeerId Nat := []
  pexRoutes : JsMap PeerId PeerId := []
  pendingSignals : JsMap PeerId (List Val) := []
  coolDowns : JsMap PeerId Nat := []
  seenGroups : List String := []
  /-- The calls of `resolveNetGroup` that `rebalance` waits for. -/
  resolving : List (Nat × PeerId) := []
  limiter : ρ
  misbehavior : μ
  stopped : Bool := false
  now : Nat := 0
  trace : List Event := []

section
variable {ρ μ : Type}

namespace State
variable (s : State ρ μ)

/-- `_peers.get(id)`, with the number of the connection. -/
def peer? (id : PeerId) : Option (Nat × WebRTCPeer) := do
  let c ← JsMap.get s.peers id
  let p ← s.conns[c]?
  some (c,p)

def registered : List WebRTCPeer := (JsMap.values s.peers).filterMap fun c => s.conns[c]?

def update (c : Nat) (f : WebRTCPeer → WebRTCPeer) : State ρ μ :=
  { s with conns := s.conns.modify c f }

def emit (e : Event) : State ρ μ := { s with trace := s.trace ++ [e] }

def degree : Nat := s.registered.countP fun p => p.connected
def pendingCount : Nat := s.registered.countP fun p => !p.verified
def verifiedPeers : List WebRTCPeer := s.registered.filter fun p => p.connected && p.verified

/-- `isStillCurrent` -/
def isCurrent (c : Nat) (p : WebRTCPeer) : Bool := JsMap.get s.peers p.peerId == some c

end State

variable (cfg : Config ρ μ)

def sendMessage (s : State ρ μ) (id : PeerId) (type : WireType) (payload : Val) : State ρ μ :=
  match s.peer? id with
  | some (c,p) => if p.connected && p.channelOpen then s.emit (.sent c type payload) else s
  | none => s

def disconnect (s : State ρ μ) (id : PeerId) : State ρ μ :=
  match JsMap.get s.peers id with
  | none => s
  | some c => { s with
      conns := s.conns.modify c WebRTCPeer.close
      peers := JsMap.delete s.peers id
      pexRoutes := JsMap.delete s.pexRoutes id
      pendingSignals := JsMap.delete s.pendingSignals id
      limiter := cfg.limiter.forget s.limiter id
      trace := s.trace ++ [.disconnected c] }

/-- `misbehavior.isBanned` -/
def isBanned (s : State ρ μ) (id : PeerId) : Bool :=
  (cfg.misbehavior.isBanned s.misbehavior id s.now).1

/-- The check of a ban drops one that has expired. -/
def checkBan (s : State ρ μ) (id : PeerId) : State ρ μ :=
  { s with misbehavior := (cfg.misbehavior.isBanned s.misbehavior id s.now).2 }

/-- The end of `connect`: the new connection is registered. -/
def register (s : State ρ μ) (id : PeerId) (initiator : Bool) (via : Option PeerId) :
    State ρ μ × Option Nat :=
  let c := s.conns.length
  ({ s with
    conns := s.conns ++ [WebRTCPeer.create cfg.sodium id initiator]
    peers := JsMap.set s.peers id c
    pexRoutes := via.elim s.pexRoutes fun via => JsMap.set s.pexRoutes id via },some c)

def lastEvicted (s : State ρ μ) (id : PeerId) : Nat := (JsMap.get s.coolDowns id).getD 0

def endCoolDown (s : State ρ μ) (id : PeerId) : State ρ μ :=
  if lastEvicted s id = 0 then s else { s with coolDowns := JsMap.delete s.coolDowns id }

/-- `connect` from the cool-down on. -/
def admitNew (s : State ρ μ) (id : PeerId) (initiator : Bool) (via : Option PeerId) :
    State ρ μ × Option Nat :=
  if lastEvicted s id ≠ 0 ∧ s.now < lastEvicted s id+coolDown then (s,none)
  else if maxPendingPeers ≤ s.pendingCount then (endCoolDown s id,none)
  else register cfg (endCoolDown s id) id initiator via

def connect (s : State ρ μ) (id : PeerId) (initiator : Bool) (via : Option PeerId) :
    State ρ μ × Option Nat :=
  if s.stopped then (s,none)
  else
    let t := checkBan cfg s id
    if isBanned cfg s id || !isPeerId id || id = cfg.identity.peerId then (t,none)
    else match t.peer? id with
    | some (c,p) =>
      if p.connected || p.connecting then (t,some c)
      else admitNew cfg (disconnect cfg t id) id initiator via
    | none => admitNew cfg t id initiator via

def fingerprintsUsable (fp : WebRTCPeer.Fingerprints) : Bool :=
  (fp.own ≠ "" && fp.remote ≠ "") || cfg.allowMissingDtlsFingerprint

def joinPayload (claim : SignedNodeClaim) : Val :=
  .obj [("peerId",.str claim.peerId),("pubkey",.bytes claim.pubkey),
    ("powCounter",.num claim.powCounter),("challenge",.bytes claim.challenge),
    ("signature",.bytes claim.signature)]

/-- The answer to the challenge of a HELLO. -/
def answerHello (s : State ρ μ) (id : PeerId) (challenge : Challenge) : Except Thrown (State ρ μ) :=
  match s.peer? id with
  | none => .ok s
  | some (_,p) =>
    let fp := p.dtlsFingerprints cfg.cases
    if !fingerprintsUsable cfg fp then .ok s
    else do
      let binding : JoinBinding := ⟨id,fp.own,fp.remote⟩
      let claim ← cfg.identity.signClaim cfg.sodium challenge.1 binding
      .ok (sendMessage (s.emit (.signedJoin challenge binding)) id .join (joinPayload claim))

def handleHello (s : State ρ μ) (id : PeerId) (msg : Val) : Except Thrown (State ρ μ) := do
  let challenge ← PowPolicy.toBytes (msg.field "challenge")
  if h : challenge.length = challengeBytes then answerHello cfg s id ⟨challenge,h⟩ else .ok s

/-- The claim of a JOIN. -/
def joinClaim (msg : Val) : Except Thrown SignedNodeClaim := do
  let pubkey ← PowPolicy.toBytes (msg.field "pubkey")
  let challenge ← PowPolicy.toBytes (msg.field "challenge")
  let signature ← PowPolicy.toBytes (msg.field "signature")
  .ok {
    peerId := match msg.field "peerId" with
      | .str id => id
      | _ => ""
    pubkey := pubkey
    powCounter := match msg.field "powCounter" with
      | .num n => n
      | _ => Number.ofInt (-1)
    challenge := challenge
    signature := signature }

/-- The binding of a JOIN as its verifier sees it. -/
def verifierBinding (p : WebRTCPeer) : JoinBinding :=
  let fp := p.dtlsFingerprints cfg.cases
  ⟨cfg.identity.peerId,fp.remote,fp.own⟩

/-- The end of `handleJoin`: the peer is verified, and its network group is asked for. -/
def acceptJoin (s : State ρ μ) (c : Nat) (id : PeerId) (claim : SignedNodeClaim) : State ρ μ :=
  { s with
    conns := s.conns.modify c (WebRTCPeer.markVerified claim.pubkey claim.powCounter s.now)
    resolving := s.resolving ++ [(c,id)]
    trace := s.trace ++ [.verified c] }

def handleJoin (s : State ρ μ) (id : PeerId) (msg : Val) : Except Thrown (State ρ μ) :=
  match s.peer? id with
  | none => .ok s
  | some (c,p) =>
    if p.verified then .ok s
    else match p.challenge with
    | none => .ok s
    | some expected => do
      let claim ← joinClaim msg
      if claim.peerId ≠ id then .ok (disconnect cfg s id)
      else if !fingerprintsUsable cfg (p.dtlsFingerprints cfg.cases) then .ok (disconnect cfg s id)
      else if !verifySignedClaim cfg.sodium claim expected (verifierBinding cfg p) cfg.powParams then
        .ok (disconnect cfg s id)
      else .ok (acceptJoin s c id claim)

def distance (p : WebRTCPeer) : Number := RingPosition.distance cfg.identity.position p.position

def group (p : WebRTCPeer) : String := p.netGroup.getD "unknown"

def groupCap (degree distinctGroupsSeen : Nat) : Nat :=
  let groups := max 1 distinctGroupsSeen
  max 1 ((degree+groups-1)/groups)

/-- How many peers of the group of `p` there are too many. -/
def overflow (seenGroups : List String) (verified : List WebRTCPeer) (p : WebRTCPeer) : Number :=
  Number.ofInt ((verified.countP fun q => group q = group p : Nat)-
    (groupCap maxDegree seenGroups.length : Nat))

/-- The order in which the pool of `pickEvictionVictim` is sorted. -/
def evictionOrder (overflow : WebRTCPeer → Number) (a b : WebRTCPeer) : Number :=
  let crowded := (overflow b).sub (overflow a)
  if crowded.truthy then crowded
  else
    let newer := (Number.ofNat (b.verifiedAt.getD 0)).sub (Number.ofNat (a.verifiedAt.getD 0))
    if newer.truthy then newer else (distance cfg b).sub (distance cfg a)

def byDistance (verified : List WebRTCPeer) : List WebRTCPeer :=
  sortBy (fun a b => (distance cfg a).sub (distance cfg b)) verified

/-- Whether a peer is one of the `LOCAL_LINKS` nearest. -/
def isLocal (verified : List WebRTCPeer) (p : WebRTCPeer) : Bool :=
  (((byDistance cfg verified).take localLinks).map WebRTCPeer.peerId).contains p.peerId

/-- The inbound peers that may go. -/
def evictable (verified : List WebRTCPeer) : List WebRTCPeer :=
  verified.filter fun p => p.direction = .inbound && !isLocal cfg verified p

/-- The newcomer, when it may go. -/
def newcomer? (verified : List WebRTCPeer) (newcomerId : Option PeerId) : Option WebRTCPeer :=
  (verified.find? fun p => some p.peerId = newcomerId).filter fun p => !isLocal cfg verified p

/-- The order of the peers of a pool, and the first of them. -/
def firstOf (seenGroups : List String) (verified pool : List WebRTCPeer) : Option WebRTCPeer :=
  (sortBy (evictionOrder cfg (overflow seenGroups verified)) pool).head?

def pickEvictionVictim (seenGroups : List String) (verified : List WebRTCPeer)
    (newcomerId : Option PeerId) : Option WebRTCPeer :=
  if (evictable cfg verified).isEmpty then
    match newcomer? cfg verified newcomerId with
    | some newcomer => some newcomer
    | none => firstOf cfg seenGroups verified
        (verified.filter fun p => !isLocal cfg verified p && decide (some p.peerId ≠ newcomerId))
  else firstOf cfg seenGroups verified (evictable cfg verified)

/-- Anybody but the newcomer is put on a cool-down. -/
def evict (s : State ρ μ) (newcomerId : Option PeerId) (victim : PeerId) : State ρ μ :=
  disconnect cfg (if some victim = newcomerId then s
    else { s with coolDowns := JsMap.set s.coolDowns victim s.now }) victim

/-- The turns of the loop of `rebalance`. -/
def rebalanceLoop (newcomerId : Option PeerId) : Nat → State ρ μ → State ρ μ
  | 0, s => s
  | n+1, s =>
    if s.verifiedPeers.length ≤ maxDegree then s
    else match pickEvictionVictim cfg s.seenGroups s.verifiedPeers newcomerId with
    | none => s
    | some victim => rebalanceLoop newcomerId n (evict cfg s newcomerId victim.peerId)

def rebalance (s : State ρ μ) (newcomerId : Option PeerId) : State ρ μ :=
  rebalanceLoop cfg newcomerId (maxDegree*2) s

def noteGroup (s : State ρ μ) (group : String) : State ρ μ :=
  if s.seenGroups.contains group ∨ 1024 ≤ s.seenGroups.length then s
  else { s with seenGroups := s.seenGroups ++ [group] }

/-- The group of a connection is known, and noted. -/
def resolved (s : State ρ μ) (c : Nat) (group : String) : State ρ μ :=
  let t := s.update c (WebRTCPeer.resolveNetGroup group)
  noteGroup t (((t.conns[c]?).bind WebRTCPeer.netGroup).getD group)

def isOffer (msg : Val) : Bool := ((msg.field "sdp").field "type").strictEq (.str "offer")

def isNewSession (msg : Val) : Bool :=
  isOffer msg || (msg.field "type").strictEq (.str "offer") ||
    (msg.field "type").strictEq (.str "sdp-relay")

/-- A signal that comes before the offer it belongs to. -/
def bufferSignal (s : State ρ μ) (senderId : PeerId) (msg : Val) : State ρ μ :=
  if (JsMap.get s.coolDowns senderId).any fun t => s.now < t+coolDown then s
  else
    let buffered := (JsMap.get s.pendingSignals senderId).getD []
    if maxSignalsPerSender ≤ buffered.length then s
    else
      let pending :=
        if !JsMap.has s.pendingSignals senderId && decide (maxSignalSenders ≤ s.pendingSignals.length)
        then s.pendingSignals.tail else s.pendingSignals
      { s with pendingSignals := JsMap.set pending senderId (buffered ++ [msg]) }

/-- A new connection for the sender of an offer takes the signals that are waiting. -/
def openSession (s : State ρ μ) (senderId : PeerId) (msg : Val) (via : Option PeerId) : State ρ μ :=
  match connect cfg s senderId false via with
  | (s,none) => s
  | (s,some c) =>
    let buffered := (JsMap.get s.pendingSignals senderId).getD []
    let s := (msg :: buffered).foldl (fun s sig => s.update c (WebRTCPeer.signal sig)) s
    { s with pendingSignals := JsMap.delete s.pendingSignals senderId }

/-- A stale connection makes way for a new offer, without a cool-down. -/
def reoffered (s : State ρ μ) (id : PeerId) : State ρ μ :=
  let t := disconnect cfg s id
  { t with coolDowns := JsMap.delete t.coolDowns id }

def handleRelay (s : State ρ μ) (senderId : PeerId) (msg : Val) (via : Option PeerId) : State ρ μ :=
  if s.stopped then s
  else
    let t := checkBan cfg s senderId
    if isBanned cfg s senderId || !isPeerId senderId then t
    else match t.peer? senderId with
    | none =>
      if isNewSession msg then openSession cfg t senderId msg via else bufferSignal t senderId msg
    | some (c,p) =>
      if !isOffer msg then t.update c (WebRTCPeer.signal msg)
      else if p.verified && p.connected then t
      else openSession cfg (reoffered cfg t senderId) senderId msg via

/-- The relaying of SDP and ICE between peers. -/
def handleRelayMessage (s : State ρ μ) (id : PeerId) (msg : Val) (type : WireType) : State ρ μ :=
  match msg.field "targetPeerId" with
  | .str target =>
    if target = cfg.identity.peerId then
      match msg.field "senderId" with
      | .str sender => if isPeerId sender then handleRelay cfg s sender msg (some id) else s
      | _ => s
    else if JsMap.has s.peers target then sendMessage s target type msg else s
  | _ => s

/-- An entry of the peer list of a tracker. -/
def handleTrackerPeer (s : State ρ μ) (entry : Val) : State ρ μ :=
  match entry.field "peerId" with
  | .str id =>
    if !JsMap.has s.peers id && decide (s.degree < maxDegree) then (connect cfg s id true none).1 else s
  | _ => s

def handleTrackerPeers (s : State ρ μ) (peers : Val) : State ρ μ :=
  if s.stopped then s
  else match peers with
  | .arr entries => entries.foldl (handleTrackerPeer cfg) s
  | _ => s

/-- What a channel delivers. -/
inductive Data where
  | bytes (bs : Bytes)
  | text (s : String)

def Data.frame : Data → Bytes
  | .bytes bs => bs
  | .text s => Bytes.utf8 s

/-- The verified peer that is registered under the id. -/
def authenticated (s : State ρ μ) (id : PeerId) : Bool := (s.peer? id).any fun e => e.2.verified

/-- A malformed frame counts against a verified peer only. -/
def recordMalformed (s : State ρ μ) (id : PeerId) : State ρ μ :=
  if authenticated s id then
    { s with misbehavior := cfg.misbehavior.recordViolation s.misbehavior id malformedWire s.now }
  else s

/-- `rateLimiter.allow` -/
def allowed (s : State ρ μ) (id : PeerId) (t : WireType) : Bool :=
  (cfg.limiter.allow s.limiter id (rateCategory t) s.now).1

def spend (s : State ρ μ) (id : PeerId) (t : WireType) : State ρ μ :=
  { s with limiter := (cfg.limiter.allow s.limiter id (rateCategory t) s.now).2 }

/-- `handleData` up to the dispatch: the message, when it is dispatched. -/
def receive (s : State ρ μ) (id : PeerId) (data : Data) : State ρ μ × Option DecodedWireMessage :=
  let t := checkBan cfg s id
  if isBanned cfg s id then (disconnect cfg t id,none)
  else if frameLimit data.frame < data.frame.length then (t,none)
  else
    let m := WireCodec.decode cfg.unpack data.frame
    if m.type = .unknown then (disconnect cfg (recordMalformed cfg t id) id,none)
    else if allowed cfg t id m.type && (preHandshake m.type || authenticated t id) then
      (spend cfg t id m.type,some m)
    else (spend cfg t id m.type,none)

/-- The handlers of the manager itself; one that throws has changed nothing. -/
def handle (s : State ρ μ) (id : PeerId) (m : DecodedWireMessage) : State ρ μ :=
  match m.type with
  | .hello => (handleHello cfg s id m.payload).toOption.getD s
  | .join => (handleJoin cfg s id m.payload).toOption.getD s
  | .sdpRelay | .iceRelay => handleRelayMessage cfg s id m.payload m.type
  | _ => s

/-- `handleData` of a message that arrived on the connection `c`, which was made for `id`. -/
def handleData (s : State ρ μ) (c : Nat) (id : PeerId) (data : Data) : State ρ μ :=
  match receive cfg s id data with
  | (s,none) => s
  | (s,some m) => handle cfg (s.emit (.dispatched c m.type m.payload)) id m

/-- `onSignal`: a description or a candidate for the other side. -/
def relayMessage (id : PeerId) (payload : Val) : Option (WireType × Val) :=
  let message (type field : String) : Val := .obj [("type",.str type),("targetPeerId",.str id),
    ("senderId",.str cfg.identity.peerId),(field,payload)]
  if (payload.field "renegotiate").truthy ||
      ["offer","answer","rollback"].any fun t => (payload.field "type").strictEq (.str t) then
    some (.sdpRelay,message "sdp-relay" "sdp")
  else if (payload.field "candidate").truthy then some (.iceRelay,message "ice-relay" "candidate")
  else none

def onSignal (s : State ρ μ) (id : PeerId) (payload : Val) : State ρ μ :=
  match relayMessage cfg id payload with
  | none => s
  | some (type,msg) =>
    match (JsMap.get s.pexRoutes id).filter fun via => JsMap.has s.peers via with
    | some via => sendMessage s via type msg
    | none => s.emit (.trackerRelay id msg)

def onConnect (s : State ρ μ) (c : Nat) (id : PeerId) (challenge : Bytes) : State ρ μ :=
  let s := (s.emit (.connected c)).update c (WebRTCPeer.setChallenge challenge)
  sendMessage s id .hello (.obj [("challenge",.bytes challenge)])

/-- `if (isStillCurrent() && …) this.disconnect(peerId)` -/
def dropIf (s : State ρ μ) (c : Nat) (p : WebRTCPeer) (cond : Bool) : State ρ μ :=
  if s.isCurrent c p && cond then disconnect cfg s p.peerId else s

def stop (s : State ρ μ) : State ρ μ :=
  let s := { s with stopped := true, pendingSignals := [] }
  (JsMap.keys s.peers).foldl (disconnect cfg) s

inductive Action (μ : Type) where
  /-- A relayed signal from the tracker. -/
  | relay (senderId : PeerId) (msg : Val)
  | trackerPeers (peers : Val)
  | connect (id : PeerId) (initiator : Bool) (via : Option PeerId)
  /-- The browser has set the descriptions of a connection. -/
  | described (c : Nat) (own remote : Option String)
  | signalled (c : Nat) (payload : Val)
  | opened (c : Nat) (challenge : Challenge)
  | closing (c : Nat)
  | lost (c : Nat)
  | data (c : Nat) (d : Data)
  /-- A call of `resolveNetGroup` returns. -/
  | netGroup (i : Nat) (group : String)
  | connectTimeout (c : Nat)
  | handshakeTimeout (c : Nat)
  | disconnect (id : PeerId)
  | rebalance (newcomerId : Option PeerId)
  /-- Another component has recorded or lifted something. -/
  | misbehavior (m : μ)
  | tick (now : Nat)
  | start
  | stop

/-- An event of the connection `c`, which may be one that has been superseded. -/
def onConn (s : State ρ μ) (c : Nat) (f : WebRTCPeer → State ρ μ) : Option (State ρ μ) :=
  (s.conns[c]?).map f

def step (s : State ρ μ) (a : Action μ) : Option (State ρ μ) :=
  match a with
  | .relay senderId msg => some (handleRelay cfg s senderId msg none)
  | .trackerPeers peers => some (handleTrackerPeers cfg s peers)
  | .connect id initiator via => some (connect cfg s id initiator via).1
  | .described c own remote => onConn s c fun _ => s.update c (WebRTCPeer.describe own remote)
  | .signalled c payload => onConn s c fun p => onSignal cfg s p.peerId payload
  | .opened c challenge => onConn s c fun p =>
      onConnect (s.update c WebRTCPeer.opened) c p.peerId challenge.1
  | .closing c => onConn s c fun _ => s.update c WebRTCPeer.closing
  | .lost c => onConn s c fun p => dropIf cfg (s.update c WebRTCPeer.lost) c p true
  | .data c d => onConn s c fun p => handleData cfg s c p.peerId d
  | .netGroup i group =>
    (Machine.takeTask s.resolving i).map fun r =>
      rebalance cfg (resolved { s with resolving := r.2 } r.1.1 group) (some r.1.2)
  | .connectTimeout c => onConn s c fun p => dropIf cfg s c p !p.connected
  | .handshakeTimeout c => onConn s c fun p => dropIf cfg s c p !p.verified
  | .disconnect id => some (PeerManager.disconnect cfg s id)
  | .rebalance newcomerId => some (PeerManager.rebalance cfg s newcomerId)
  | .misbehavior m => some { s with misbehavior := m }
  | .tick now => some { s with now := now }
  | .start => some { s with stopped := false }
  | .stop => some (PeerManager.stop cfg s)

end

/-! A manager to run: its limiter and its record let everything through. -/

def sampleSodium : Sodium where
  sha256 bs := bs.drop (bs.length-32)
  pwhash _ _ _ _ := []
  signDetached message privateKey := privateKey ++ message.drop (message.length-32)
  verifyDetached signature message publicKey :=
    signature == publicKey ++ message.drop (message.length-32)

/-! The part of msgpack that the sample frames need. -/

mutual
def packValue : Val → Bytes
  | .num n => [UInt8.ofNat ((n.toInt?.getD 0).toNat)]
  | .str s => 0xd9 :: Bytes.lengthPrefixed 1 (Bytes.utf8 s)
  | .bytes bs => 0xc4 :: Bytes.lengthPrefixed 1 bs
  | .obj fs => UInt8.ofNat (0x80+fs.length) :: packFields fs
  | _ => [0xc0]

def packFields : List (String × Val) → Bytes
  | [] => []
  | (k,v) :: fs => packValue (.str k) ++ packValue v ++ packFields fs
end

/-- A byte string after its length. -/
def unpackBytes : Bytes → Option (Bytes × Bytes)
  | [] => none
  | n :: bs => if bs.length < n.toNat then none else some (bs.take n.toNat,bs.drop n.toNat)

def unpackString (bs : Bytes) : Option (String × Bytes) :=
  (unpackBytes bs).map fun r => (String.ofList (Utf8.decode r.1),r.2)

mutual
def unpackValue : Nat → Bytes → Option (Val × Bytes)
  | 0, _ | _, [] => none
  | fuel+1, b :: bs =>
    if b < 0x80 then some (.num (Number.ofNat b.toNat),bs)
    else if b < 0x90 then (unpackFields fuel (b.toNat-0x80) bs).map fun r => (.obj r.1,r.2)
    else if b = 0xd9 then (unpackString bs).map fun r => (.str r.1,r.2)
    else if b = 0xc4 then (unpackBytes bs).map fun r => (.bytes r.1,r.2)
    else none

def unpackFields : Nat → Nat → Bytes → Option (List (String × Val) × Bytes)
  | 0, _, _ => none
  | _, 0, bs => some ([],bs)
  | _, _, [] => none
  | fuel+1, n+1, b :: bs =>
    if b ≠ 0xd9 then none else do
      let (k,bs) ← unpackString bs
      let (v,bs) ← unpackValue fuel bs
      let (fs,bs) ← unpackFields fuel n bs
      some ((k,v) :: fs,bs)
end

/-- Nothing may follow the value. -/
def sampleUnpack (bs : Bytes) : Option Val :=
  match unpackValue (bs.length+1) bs with
  | some (v,[]) => some v
  | _ => none

def sampleFrame (m : DecodedWireMessage) : Data := .bytes (m.type.byte :: packValue m.payload)

/-- The identity whose key is made of equal bytes. -/
def sampleIdentity (key : UInt8) : NodeIdentity :=
  fromKeyPair sampleSodium (List.replicate 32 key) (List.replicate 32 key) (.fin 0)

def sampleConfig (key : UInt8) : Config Unit Unit where
  sodium := sampleSodium
  cases := ⟨id,id⟩
  unpack := sampleUnpack
  limiter := ⟨fun _ _ _ _ => (true,()),fun _ _ => ()⟩
  misbehavior := ⟨fun _ _ _ => (false,()),fun _ _ _ _ => ()⟩
  identity := sampleIdentity key
  powParams := ⟨0,1,8192⟩

/-- A manager that was just built. -/
def initial {ρ μ : Type} (limiter : ρ) (misbehavior : μ) : State ρ μ where
  limiter := limiter
  misbehavior := misbehavior

/-- An offer as it is relayed. -/
def offer : Val := .obj [("type",.str "sdp-relay"),("sdp",.obj [("type",.str "offer")])]

def sampleSdp : String := "v=0\na=fingerprint:sha-256 AA:01\n"

def sampleChallenge (b : UInt8) : Challenge := ⟨List.replicate 32 b,rfl⟩

/-- The JOIN of the peer with a key at the node with the key 1. -/
def sampleJoin (key : UInt8) (challenge : Challenge) : Data :=
  match (sampleIdentity key).signClaim sampleSodium challenge.1
    ⟨(sampleIdentity 1).peerId,"sha-256 AA:01","sha-256 AA:01"⟩ with
  | .ok claim => sampleFrame ⟨.join,joinPayload claim⟩
  | .error _ => .bytes []

end PeerManager
