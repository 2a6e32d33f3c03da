import AetherLite.Lib.JsOps
import AetherLite.Lib.Machine
import AetherLite.Onion.OnionRouter

/-! The guard of a node, the exits behind it and the cells that go out, one a tick. -/
set_option autoImplicit false

namespace Js.Number

/-- The product of two Numbers. -/
def mul : Number → Number → Number
  | .nan,_ | _,.nan => .nan
  | .fin p,.fin q => ofRat (p*q)
  | .inf a,.fin q | .fin q,.inf a => if q = 0 then .nan else .inf (a != decide (q < 0))
  | .inf a,.inf b => .inf (a != b)

end Js.Number

namespace DandelionRouter

open Js

def observationSaturationMs : Nat := 30*60*1000

/-- The draw is the one that the loop accepts. -/
def secureRandomIndex (draw n : Nat) : Nat := if n ≤ 1 then 0 else draw % n

/-- The first index at which the sum of the weights passes `r`. -/
def indexAbove (r : Number) : Number → List Number → Option Nat
  | _, [] => none
  | acc, w :: ws =>
    if r.lt (acc.add w) then some 0 else (indexAbove r (acc.add w) ws).map (·+1)

def secureWeightedIndex (draw : UInt32) (weights : List Number) : Nat :=
  let total := weights.foldl Number.add (.fin 0)
  if !(Number.fin 0).lt total then secureRandomIndex draw.toNat weights.length
  else
    let r := ((Number.ofNat draw.toNat).divBy (2^32)).mul total
    (indexAbove r (.fin 0) weights).getD (weights.length-1)

end DandelionRouter

namespace OnionCircuit

open Js OnionRouter DandelionRouter

def guardNeighborTtlMs : Nat := 10*60*1000
def maxAttempts : Nat := 2
def maxQueue : Nat := 64

/-- A connection as the circuit sees it. -/
structure Peer where
  pubkey : Option Bytes
  isConnected : Bool
  isVerified : Bool
  outbound : Bool
  verifiedAt : Option Nat

structure GuardNeighbor where
  pubkey : Bytes
  firstSeen : Nat
  seenAt : Nat
  deriving DecidableEq

/-- The ticket, which the code has not, is the number of the push. -/
structure QueuedCell where
  payload : ExitPayload
  exit : OnionHop
  guardId : String
  ticket : Nat

/-- What is handed to the connections: a cell with the ticket of what it carries. -/
inductive Message where
  | pexRequest
  | cell (onionBytes : Bytes) (ticket : Option Nat)

/-- One call of `send`. -/
structure SendTask where
  payload : ExitPayload
  triedExits : List String := []
  attempts : Nat := 0
  waiting : Bool := true

structure Config where
  myPeerId : String
  sodium : Sodium
  powParams : NodeIdentity.PowParams
  router : OnionRouter.Primitives

/-- The random choices of one event. -/
structure Draws where
  guard : UInt32
  exit : UInt32
  entropy : Entropy

abbrev Table := JsMap String GuardNeighbor

/-- The last four fields are a record of the run: what was handed to the connections, what was
pushed on the queue, the PEX responses that came, and how many of them had come when the guard
was last pinned. -/
structure State where
  now : Nat := 0
  peers : JsMap String Peer := []
  running : Bool := false
  pinnedGuardId : Option String := none
  pinnedGuardExpiry : Number := .fin 0
  guardNeighbors : Table := []
  queue : List QueuedCell := []
  sends : List SendTask := []
  outbox : List (String × Message) := []
  pushed : List ExitPayload := []
  responses : List (String × Val) := []
  pinnedSince : Nat := 0

def State.post (s : State) (peerId : String) (m : Message) : State :=
  { s with outbox := s.outbox ++ [(peerId,m)] }

/-- `verifiedPeersWithKeys` -/
def verifiedNeighbors (s : State) : List OnionHop :=
  s.peers.filterMap fun e =>
    if e.2.isConnected && e.2.isVerified then e.2.pubkey.map fun pubkey => ⟨e.1,pubkey⟩ else none

def guardWeight (s : State) (peerId : String) : Number :=
  let peer := JsMap.get s.peers peerId
  let directionWeight : Number := if (peer.map Peer.outbound).getD false then .fin 3 else .fin 1
  let age := ((peer.bind Peer.verifiedAt).map (s.now - ·)).getD 0
  directionWeight.mul ((Number.fin 1).add
    ((Number.ofNat (min age observationSaturationMs)).divBy observationSaturationMs))

/-- The pinned guard while it is live. -/
def liveGuard (s : State) (candidates : List OnionHop) : Option OnionHop :=
  s.pinnedGuardId.bind fun id =>
    if (Number.ofNat s.now).lt s.pinnedGuardExpiry && JsMap.has s.peers id then
      candidates.find? (·.peerId == id)
    else none

/-- A guard that was just chosen is among the candidates, so the lookup that asks it for its
neighbours finds it. -/
def guardChanged (s : State) (id : Option String) : State :=
  let s := { s with guardNeighbors := [] }
  if id.isSome && s.running then
    match liveGuard s (verifiedNeighbors s) with
    | some guard => s.post guard.peerId .pexRequest
    | none => s
  else s

def setGuard (s : State) (id : Option String) (expiry : Number) : State :=
  let changed := id ≠ s.pinnedGuardId
  let s := { s with
    pinnedGuardId := id, pinnedGuardExpiry := expiry, pinnedSince := s.responses.length }
  if changed then guardChanged s id else s

def getPinnedGuard (s : State) (candidates : List OnionHop) (draw : UInt32) :
    State × Option OnionHop :=
  match liveGuard s candidates with
  | some guard => (s,some guard)
  | none =>
    if candidates.isEmpty then
      match s.pinnedGuardId with
      | some id => if JsMap.has s.peers id then (s,none) else (setGuard s none (.fin 0),none)
      | none => (s,none)
    else
      let weights := candidates.map fun c => guardWeight s c.peerId
      match candidates[secureWeightedIndex draw weights]? with
      | none => (s,none)
      | some selected => (setGuard s (some selected.peerId) (.inf false),some selected)

def currentGuard (s : State) (draw : UInt32) : State × Option OnionHop :=
  getPinnedGuard s (verifiedNeighbors s) draw

def requestGuardNeighbors (s : State) (draw : UInt32) : State :=
  match currentGuard s draw with
  | (s,some guard) => s.post guard.peerId .pexRequest
  | (s,none) => s

def isFresh (now : Nat) (info : GuardNeighbor) : Bool := !(now-info.seenAt > guardNeighborTtlMs)

section
variable (cfg : Config)

/-- The neighbours of the guard that may be an exit. -/
def eligible (s : State) (guardId : String) (exclude : List String) : List OnionHop :=
  (s.guardNeighbors.filter fun e => isFresh s.now e.2).filterMap fun e =>
    if e.1 = cfg.myPeerId || e.1 = guardId || exclude.contains e.1 then none
    else some ⟨e.1,e.2.pubkey⟩

def exitWeight (s : State) (h : OnionHop) : Number :=
  let firstSeen := ((JsMap.get s.guardNeighbors h.peerId).map GuardNeighbor.firstSeen).getD s.now
  (Number.fin (1/4)).add
    ((Number.ofNat (min (s.now-firstSeen) observationSaturationMs)).divBy observationSaturationMs)

/-- Old entries are dropped on the way; neighbours of the guard alone come before those that
are neighbours of this node too. -/
def pickExit (s : State) (guardId : String) (exclude : List String) (draw : UInt32) :
    State × Option OnionHop :=
  let fresh := eligible cfg s guardId exclude
  let s := { s with guardNeighbors := s.guardNeighbors.filter fun e => isFresh s.now e.2 }
  let nonAdjacent := fresh.filter fun h => !JsMap.has s.peers h.peerId
  let pool := if nonAdjacent.isEmpty then fresh else nonAdjacent
  if fresh.isEmpty then (s,none)
  else (s,pool[secureWeightedIndex draw (pool.map (exitWeight s))]?)

/-- `sodium.memcmp`, which throws on different lengths -/
def memcmp (a b : Bytes) : Except Thrown Bool :=
  if a.length ≠ b.length then
    .error (.typeError "Only instances of identical length can be compared")
  else .ok (a == b)

def powCounterOf (entry : Val) : Number :=
  match entry.field "powCounter" with
  | .num n => n
  | _ => .nan

def sameKey (known : Option GuardNeighbor) (pubkey : Bytes) : Except Thrown Bool :=
  match known with
  | none => .ok false
  | some info => memcmp info.pubkey pubkey

/-- One entry of a response of the guard. -/
def mergeEntry (now : Nat) (table : Table) (entry : Val) : Except Thrown Table :=
  match entry.field "id" with
  | .str peerId =>
    if !NodeIdentity.isPeerId peerId then .ok table
    else if peerId = cfg.myPeerId then .ok table
    else do
      let known := JsMap.get table peerId
      let pubkey ← PowPolicy.toBytes (entry.field "pubkey")
      let same ← sameKey known pubkey
      if same then
        .ok (JsMap.set table peerId ⟨pubkey,(known.map GuardNeighbor.firstSeen).getD now,now⟩)
      else if !NodeIdentity.verifyClaim cfg.sodium ⟨peerId,pubkey,powCounterOf entry⟩
          cfg.powParams then .ok table
      else .ok (JsMap.set table peerId ⟨pubkey,now,now⟩)
  | _ => .ok table

/-- What throws ends the response; what was taken from it before stays. -/
def mergeEntries (now : Nat) : Table → List Val → Table
  | table, [] => table
  | table, entry :: entries =>
    match mergeEntry cfg now table entry with
    | .ok table => mergeEntries now table entries
    | .error _ => table

def handleGuardPex (s : State) (senderId : String) (msg : Val) : State :=
  let s := { s with responses := s.responses ++ [(senderId,msg)] }
  if s.pinnedGuardId ≠ some senderId then s
  else match msg.field "peers" with
  | .arr peers =>
    { s with guardNeighbors := mergeEntries cfg s.now s.guardNeighbors (peers.take 16) }
  | _ => s

/-- The first entry that can go to the guard; what is for another guard and finds no exit
behind this one is lost. -/
def takeItem (guardId : String) (draw : UInt32) : State → List QueuedCell →
    State × Option QueuedCell
  | s, [] => ({ s with queue := [] },none)
  | s, item :: rest =>
    if item.guardId = guardId then ({ s with queue := rest },some item)
    else
      match pickExit cfg s guardId [] draw with
      | (s,some exit) => ({ s with queue := rest },some { item with exit := exit, guardId := guardId })
      | (s,none) => takeItem guardId draw s rest

/-- The cell for the guard and the exit, or nothing when it cannot be wrapped. -/
def emitWrapped (s : State) (d : Draws) (guard : OnionHop) (exit : OnionHop)
    (payload : ExitPayload) (ticket : Option Nat) : State :=
  match wrapCircuit cfg.router d.entropy payload [guard,exit] with
  | none => s
  | some cell => s.post guard.peerId (.cell cell ticket)

def emitCell (s : State) (d : Draws) : State :=
  match currentGuard s d.guard with
  | (s,none) => s
  | (s,some guard) =>
    match takeItem cfg guard.peerId d.exit s s.queue with
    | (s,some item) => emitWrapped cfg s d guard item.exit item.payload (some item.ticket)
    | (s,none) =>
      match pickExit cfg s guard.peerId [] d.exit with
      | (s,some exit) => emitWrapped cfg s d guard exit .drop none
      | (s,none) => s

/-- One attempt of `send`, up to where it waits for the echo. -/
def sendAttempt (s : State) (task : SendTask) (d : Draws) : State × SendTask :=
  match currentGuard s d.guard with
  | (s,none) => (s,{ task with waiting := false })
  | (s,some guard) =>
    match pickExit cfg s guard.peerId task.triedExits d.exit with
    | (s,none) => (s,{ task with waiting := false })
    | (s,some exit) =>
      let task := { task with triedExits := task.triedExits ++ [exit.peerId] }
      if s.queue.length ≥ maxQueue then (s,{ task with waiting := false })
      else
        ({ s with queue := s.queue ++ [⟨task.payload,exit,guard.peerId,s.pushed.length⟩]
                  pushed := s.pushed ++ [task.payload] },
          { task with attempts := task.attempts+1 })

def send (s : State) (payload : ExitPayload) (d : Draws) : State :=
  if !s.running then s
  else
    let (s,task) := sendAttempt cfg s { payload := payload } d
    { s with sends := s.sends ++ [task] }

/-- The echo comes, or its time is over. -/
def resumeSend (s : State) (i : Nat) (task : SendTask) (echo : Bool) (d : Draws) : State :=
  if echo || task.attempts ≥ maxAttempts then
    { s with sends := s.sends.set i { task with waiting := false } }
  else
    let (s,task) := sendAttempt cfg s task d
    { s with sends := s.sends.set i task }

def start (s : State) (draw : UInt32) : State :=
  if s.running then s else requestGuardNeighbors { s with running := true } draw

def stop (s : State) : State := { s with running := false, queue := [] }

inductive Action where
  | clock (ms : Nat)
  /-- a connection comes, changes or goes -/
  | peer (id : String) (peer : Option Peer)
  | pexResponse (senderId : String) (msg : Val)
  | pexTimer (draw : UInt32)
  | tick (d : Draws)
  | resetPinnedGuard
  | send (payload : ExitPayload) (d : Draws)
  | echo (i : Nat) (seen : Bool) (d : Draws)
  | start (draw : UInt32)
  | stop

def step (s : State) : Action → Option State
  | .clock ms => some { s with now := s.now+ms }
  | .peer id (some peer) => some { s with peers := JsMap.set s.peers id peer }
  | .peer id none => some { s with peers := JsMap.delete s.peers id }
  | .pexResponse senderId msg => some (handleGuardPex cfg s senderId msg)
  | .pexTimer draw => some (requestGuardNeighbors s draw)
  | .tick d => some (emitCell cfg s d)
  | .resetPinnedGuard => some (setGuard s none (.fin 0))
  | .send payload d => some (send cfg s payload d)
  | .echo i seen d =>
    (s.sends[i]?).bind fun task =>
      if task.waiting then some (resumeSend cfg s i task seen d) else none
  | .start draw => some (start s draw)
  | .stop => some (stop s)

end

end OnionCircuit
