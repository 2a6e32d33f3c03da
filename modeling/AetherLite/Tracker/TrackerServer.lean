import AetherLite.Lib.JsMap
import AetherLite.Lib.Machine
import AetherLite.Tracker.TrackerProtocol

/-! A tracker and the connections to it. Which callback runs next, what a connection brings and
when it closes is in the action; a callback may run more than once and after a close. -/
set_option autoImplicit false

/-- The registered nodes. -/
structure SessionManager where
  sessions : JsMap TrackerProtocol.PeerId (Nat × Nat) := []
  /-- The close handlers, each with its socket and the id that was registered on it. -/
  handlers : List (Nat × TrackerProtocol.PeerId) := []
  deriving DecidableEq

namespace SessionManager

open TrackerProtocol

inductive RegisterResult where
  | ok (replaced : Option Nat)
  | capacity
  deriving DecidableEq

/-- A session is its socket and when it was last active. -/
def registerSession (maxSessions now : Nat) (m : SessionManager) (ws : Nat) (peerId : PeerId) :
    RegisterResult × SessionManager :=
  let registered : SessionManager :=
    { sessions := JsMap.set m.sessions peerId (ws,now), handlers := m.handlers ++ [(ws,peerId)] }
  match JsMap.get m.sessions peerId with
  | some existing =>
    if existing.1 = ws then (.ok none,{ m with sessions := JsMap.set m.sessions peerId (ws,now) })
    else (.ok (some existing.1),registered)
  | none => if maxSessions ≤ m.sessions.length then (.capacity,m) else (.ok none,registered)

/-- The ids under which handlers stand on a socket, in the order of their registration. -/
def idsOf (m : SessionManager) (ws : Nat) : List PeerId :=
  (m.handlers.filter fun h => h.1 == ws).map Prod.snd

def drop (ws : Nat) (sessions : JsMap PeerId (Nat × Nat)) (id : PeerId) :
    JsMap PeerId (Nat × Nat) :=
  if (JsMap.get sessions id).any fun session => session.1 == ws then JsMap.delete sessions id
  else sessions

def onClose (m : SessionManager) (ws : Nat) : SessionManager :=
  { m with sessions := (m.idsOf ws).foldl (drop ws) m.sessions }

def touch (now ws : Nat) (sessions : JsMap PeerId (Nat × Nat)) (id : PeerId) :
    JsMap PeerId (Nat × Nat) :=
  if (JsMap.get sessions id).any fun session => session.1 == ws then
    JsMap.set sessions id (ws,now)
  else sessions

def onPong (now : Nat) (m : SessionManager) (ws : Nat) : SessionManager :=
  { m with sessions := (m.idsOf ws).foldl (touch now ws) m.sessions }

/-- The draws of `randomInt` are given. -/
def shuffle (randomInt : Nat → Nat) : Nat → List PeerId → List PeerId
  | 0, ids => ids
  | i+1, ids =>
    let j := randomInt (i+2)
    shuffle randomInt i ((ids.set (i+1) (ids.getD j "")).set j (ids.getD (i+1) ""))

def getRandomPeers (m : SessionManager) (excludeId : PeerId) (maxPeers : Nat)
    (randomInt : Nat → Nat) : List PeerId :=
  let ids := (JsMap.keys m.sessions).filter fun id => id != excludeId
  (shuffle randomInt (ids.length-1) ids).take maxPeers

def idle (idleTimeoutMs now : Nat) (session : Nat × Nat) : Bool := session.2+idleTimeoutMs < now

/-- The sockets that are terminated, and what is left. -/
def cleanupPings (idleTimeoutMs now : Nat) (m : SessionManager) : List Nat × SessionManager :=
  (((JsMap.values m.sessions).filter (idle idleTimeoutMs now)).map Prod.fst,
    { m with sessions := m.sessions.filter fun e => !idle idleTimeoutMs now e.2 })

end SessionManager

namespace TrackerServer

open Js NodeIdentity TrackerProtocol

/-- The rate limiter a tracker is built with, which has a clock of its own. -/
structure RateLimiter (ρ : Type) where
  allow : ρ → (connId : Nat) → (category : String) → Bool × ρ
  forget : ρ → (connId : Nat) → ρ

structure Config (ρ : Type) where
  sodium : Sodium
  /-- `toLowerCase` -/
  lower : String → String
  limiter : RateLimiter ρ
  powParams : PowParams
  allowedHosts : Option (List String)
  maxSessions : Nat
  idleTimeoutMs : Nat
  maxConnectionsPerAddress : Nat
  peersPerJoin : Nat

inductive ReadyState where
  | opened
  | closing
  | closed
  deriving DecidableEq

/-- A connection that was accepted, with the state of its socket. -/
structure Connection where
  readyState : ReadyState := .opened
  nonce : Bytes := []
  host : Option String
  address : String
  peerId : Option PeerId := none
  handshakeTimer : Bool := true
  deriving DecidableEq

/-- What a connection is answered. -/
inductive Answer where
  | error (ws : Nat) (code : TrackerErrorCode)
  | peers (ws : Nat) (peers : List PeerId)

inductive Event where
  | hello (ws : Nat) (nonce : Bytes)
  /-- The signature of a JOIN was good. -/
  | proved (ws : Nat) (nonce : Bytes) (peerId : PeerId) (pubkey : Bytes) (host : String)
  | registered (ws : Nat) (peerId : PeerId)
  | replaced (old : Nat)
  | relayed (sender target : Nat) (senderId : PeerId) (payload : List (String × Val))

structure State (ρ : Type) where
  conns : List Connection := []
  /-- The keys of the map of connections. -/
  connections : List Nat := []
  perAddress : JsMap String Nat := []
  sessions : SessionManager := {}
  limiter : ρ
  /-- The callbacks that wait for libsodium: those that say hello, and the joins. -/
  greeting : List Nat := []
  joining : List (Nat × TrackerJoin) := []
  now : Nat := 0
  answers : List Answer := []
  trace : List Event := []

inductive Action where
  | accept (address : String) (host : Option String)
  /-- libsodium is ready; what `randombytes_buf` draws is given. -/
  | hello (i : Nat) (nonce : { bs : Bytes // bs.length = challengeBytes })
  /-- A text, or none for a binary frame. -/
  | message (ws : Nat) (raw : Option String)
  | resume (i : Nat) (randomInt : Nat → Nat)
  | handshakeTimeout (ws : Nat)
  | pong (ws : Nat)
  | cleanupPings
  /-- The other side begins to close. -/
  | closing (ws : Nat)
  | close (ws : Nat)
  | tick (now : Nat)

section
variable {ρ : Type} (cfg : Config ρ)

def State.update (s : State ρ) (ws : Nat) (f : Connection → Connection) : State ρ :=
  { s with conns := s.conns.modify ws f }

def State.isOpen (s : State ρ) (ws : Nat) : Bool :=
  (s.conns[ws]?).any fun c => c.readyState == .opened

def State.log (s : State ρ) (e : Event) : State ρ := { s with trace := s.trace ++ [e] }

/-- A message is sent on an open connection only. -/
def State.send (s : State ρ) (ws : Nat) (e : Event) : State ρ := if s.isOpen ws then s.log e else s

def State.answer (s : State ρ) (ws : Nat) (a : Answer) : State ρ :=
  if s.isOpen ws then { s with answers := s.answers ++ [a] } else s

def Connection.shut (c : Connection) : Connection :=
  { c with readyState := if c.readyState = .opened then .closing else c.readyState }

def State.sendError (s : State ρ) (ws : Nat) (code : TrackerErrorCode) : State ρ :=
  s.answer ws (.error ws code)

def State.reject (s : State ρ) (ws : Nat) (code : TrackerErrorCode) : State ρ :=
  (s.sendError ws code).update ws Connection.shut

/-- A connection that is refused has no handlers and is not kept. -/
def accept (s : State ρ) (address : String) (host : Option String) : State ρ :=
  let count := (JsMap.get s.perAddress address).getD 0
  if cfg.maxConnectionsPerAddress ≤ count then s
  else
    { s with
      perAddress := JsMap.set s.perAddress address (count+1)
      conns := s.conns ++ [{ host := normalizeHostHeader cfg.lower host, address }]
      connections := s.connections ++ [s.conns.length]
      greeting := s.greeting ++ [s.conns.length] }

def hello (s : State ρ) (ws : Nat) (nonce : Bytes) : State ρ :=
  if s.isOpen ws then
    (s.update ws fun c => { c with nonce := nonce }).send ws (.hello ws nonce)
  else s

def release (s : State ρ) (ws : Nat) (c : Connection) : State ρ :=
  if ws ∈ s.connections then
    let left := (JsMap.get s.perAddress c.address).getD 1-1
    let s : State ρ :=
      { s with
        connections := s.connections.erase ws
        limiter := cfg.limiter.forget s.limiter ws
        perAddress :=
          if left = 0 then JsMap.delete s.perAddress c.address
          else JsMap.set s.perAddress c.address left }
    s.update ws fun c => { c with handshakeTimer := false }
  else s

/-- The listeners run in the order in which they were added. -/
def close (s : State ρ) (ws : Nat) (c : Connection) : State ρ :=
  let s := release cfg (s.update ws fun c => { c with readyState := .closed }) ws c
  { s with sessions := s.sessions.onClose ws }

def handleRelay (s : State ρ) (ws : Nat) (c : Connection) (target : PeerId)
    (payload : List (String × Val)) : State ρ :=
  match c.peerId with
  | none => s.reject ws .notJoined
  | some senderId =>
    let r := cfg.limiter.allow s.limiter ws "relay"
    let s := { s with limiter := r.2 }
    if !r.1 || target == senderId then s
    else
      match JsMap.get s.sessions.sessions target with
      | none => s
      | some session => s.send session.1 (.relayed ws session.1 senderId payload)

/-- Whether a host that is signed for is this tracker, which was asked for as `asked`. -/
def hostAccepted (asked : Option String) (host : String) : Bool :=
  match normalizeHostHeader cfg.lower (some host) with
  | none => false
  | some claimed =>
    match cfg.allowedHosts with
    | some allowed => (allowed.filterMap fun h => normalizeHostHeader cfg.lower (some h)).contains claimed
    | none => asked == some claimed

/-- A signature that cannot be checked is not good. -/
def proves (nonce : Bytes) (msg : TrackerJoin) : Bool :=
  match trackerJoinMessage cfg.lower nonce msg.peerId msg.host with
  | .error _ => false
  | .ok message =>
    cfg.sodium.verifyDetached (fromHex msg.sig.toList) message (fromHex msg.pubkey.toList)

/-- An older connection with the same id is shut. -/
def replace (s : State ρ) (ws old : Nat) : State ρ :=
  if old = ws then s
  else
    let s := s.log (.replaced old)
    let s := if old ∈ s.connections then s.update old fun c => { c with peerId := none } else s
    s.update old Connection.shut

def register (s : State ρ) (ws : Nat) (peerId : PeerId) (replaced : Option Nat) : State ρ :=
  let s := (s.log (.registered ws peerId)).update ws fun c =>
    { c with peerId := some peerId, handshakeTimer := false }
  match replaced with
  | none => s
  | some old => replace s ws old

def join (s : State ρ) (ws : Nat) (peerId : PeerId) (randomInt : Nat → Nat) : State ρ :=
  match s.sessions.registerSession cfg.maxSessions s.now ws peerId with
  | (.capacity,_) => s.reject ws .capacity
  | (.ok replaced,sessions) =>
    let s := register { s with sessions := sessions } ws peerId replaced
    s.answer ws (.peers ws
      (s.sessions.getRandomPeers peerId (min cfg.peersPerJoin trackerMaxPeers) randomInt))

/-- `handleJoin`, once libsodium is ready -/
def handleJoin (s : State ρ) (ws : Nat) (c : Connection) (msg : TrackerJoin)
    (randomInt : Nat → Nat) : State ρ :=
  if c.peerId.isSome then s.sendError ws .badMessage
  else if c.nonce = [] then s.reject ws .badMessage
  else if msg.v ≠ trackerProtocolVersion then s.reject ws .unsupportedVersion
  else if !hostAccepted cfg c.host msg.host then s.reject ws .badHost
  else if !verifyClaim cfg.sodium ⟨msg.peerId,fromHex msg.pubkey.toList,msg.powCounter⟩
      cfg.powParams then s.reject ws .invalidIdentity
  else
    let s := s.update ws fun c => { c with nonce := [] }
    if !proves cfg c.nonce msg then s.reject ws .badSignature
    else
      let s := s.log (.proved ws c.nonce msg.peerId (fromHex msg.pubkey.toList) msg.host)
      if c.readyState ≠ .opened then s
      else join cfg s ws msg.peerId randomInt

def handleMessage (s : State ρ) (ws : Nat) (c : Connection) (raw : Option String) : State ρ :=
  match raw.bind parseTrackerClientMessage with
  | none => s.reject ws .badMessage
  | some (.relay target payload) => handleRelay cfg s ws c target payload
  | some (.join msg) =>
    let r := cfg.limiter.allow s.limiter ws "join"
    let s := { s with limiter := r.2 }
    if r.1 then { s with joining := s.joining ++ [(ws,msg)] } else s.sendError ws .rateLimited

def handshakeTimeout (s : State ρ) (ws : Nat) (c : Connection) : State ρ :=
  if c.handshakeTimer then
    let s := s.update ws fun c => { c with handshakeTimer := false }
    if c.peerId.isNone then s.reject ws .timeout else s
  else s

def cleanupPings (s : State ρ) : State ρ :=
  let r := s.sessions.cleanupPings cfg.idleTimeoutMs s.now
  r.1.foldl (fun s ws => s.update ws Connection.shut) { s with sessions := r.2 }

/-- What happens on a connection there is. -/
def onConnection (s : State ρ) (ws : Nat) (f : Connection → State ρ) : Option (State ρ) :=
  (s.conns[ws]?).map f

def step (s : State ρ) : Action → Option (State ρ)
  | .accept address host => some (accept cfg s address host)
  | .hello i nonce => (Machine.takeTask s.greeting i).map fun r =>
      hello { s with greeting := r.2 } r.1 nonce.1
  | .message ws raw => onConnection s ws fun c => handleMessage cfg s ws c raw
  | .resume i randomInt => (Machine.takeTask s.joining i).bind fun r =>
      onConnection { s with joining := r.2 } r.1.1 fun c =>
        handleJoin cfg { s with joining := r.2 } r.1.1 c r.1.2 randomInt
  | .handshakeTimeout ws => onConnection s ws fun c => handshakeTimeout s ws c
  | .pong ws => some { s with sessions := s.sessions.onPong s.now ws }
  | .cleanupPings => some (cleanupPings cfg s)
  | .closing ws => some (s.update ws Connection.shut)
  | .close ws => onConnection s ws fun c => close cfg s ws c
  | .tick now => some { s with now := now }

end

end TrackerServer
