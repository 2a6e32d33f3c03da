import AetherLite.Lib.Machine
import AetherLite.Mailbox.MailboxEntry

/-! Asking the nodes nearest to a topic for what they hold. -/
set_option autoImplicit false

namespace DHTMailbox

open Js MailboxEntry

def isHexLower (c : Char) : Bool := c.isDigit || ('a' ≤ c && c ≤ 'f')

/-- `TOPIC_HASH_RE` -/
def isValidTopicHash (t : String) : Bool :=
  (t.toList.length == 64 || t.toList.length == 128) && t.toList.all isHexLower

inductive Timer where
  | unset
  | armed
  | done
  deriving DecidableEq

/-- The closure of one call of `fetch` that asked somebody. The last four fields are a record:
what was stored here, what the promise was resolved with, and how many responses had come when
the requests went out and when the promise was settled. -/
structure Fetch where
  topicHash : String
  nearest : List String
  requestIds : List String
  uniquePackets : JsMap String Bytes
  responsesReceived : Nat := 0
  settled : Bool := false
  graceTimer : Timer := .unset
  hardTimer : Timer := .armed
  localEntries : List Bytes
  resolved : List (List Bytes) := []
  since : Nat
  till : Option Nat := none

/-- `resolve` is the one of the fetch with the number. -/
structure PendingRequest where
  fetch : Nat
  topicHash : String
  target : String

/-- A message `DHT_RES`, with its sender and the time at which it came. -/
structure Response where
  peerId : String
  msg : Val
  now : Int

/-- `fetching` are the calls that wait for the store, `returned` what the calls that asked nobody
gave. -/
structure State where
  fetching : List (String × List String) := []
  fetches : List Fetch := []
  pendingRequests : JsMap String PendingRequest := []
  returned : List (List Bytes) := []
  responses : List Response := []

def addPackets (m : JsMap String Bytes) (packets : List Bytes) : JsMap String Bytes :=
  packets.foldl (fun m p => JsMap.set m (Bytes.toHex p) p) m

/-- `nearest` are the nearest nodes without this one. -/
def startFetch (s : State) (topicHash : String) (nearest : List String) : State :=
  if !isValidTopicHash topicHash then { s with returned := s.returned ++ [[]] }
  else { s with fetching := s.fetching ++ [(topicHash,nearest)] }

def requestId (id : String) : String := "fetch_" ++ id

def addRequests (fetch : Nat) (topicHash : String) (m : JsMap String PendingRequest)
    (requests : List (String × String)) : JsMap String PendingRequest :=
  requests.foldl (fun m r => JsMap.set m r.1 ⟨fetch,topicHash,r.2⟩) m

def newFetch (topicHash : String) (nearest requestIds : List String) (localEntries : List Bytes)
    (since : Nat) : Fetch where
  topicHash := topicHash
  nearest := nearest
  requestIds := requestIds
  uniquePackets := addPackets [] localEntries
  localEntries := localEntries
  since := since

/-- The store has answered, or failed; `ids` are the random parts of the request ids. -/
def continueFetch (s : State) (topicHash : String) (nearest : List String)
    (stored : Option (List Bytes)) (ids : List String) : Option State :=
  let localEntries := stored.getD []
  if nearest.isEmpty then
    some { s with returned := s.returned ++ [JsMap.values (addPackets [] localEntries)] }
  else if ids.length ≠ nearest.length then none
  else
    let requestIds := ids.map requestId
    some { s with
      fetches := s.fetches ++
        [newFetch topicHash nearest requestIds localEntries s.responses.length]
      pendingRequests := addRequests s.fetches.length topicHash s.pendingRequests
        (requestIds.zip nearest) }

/-- `finalize` of the fetch with the number. -/
def finalize (s : State) (i : Nat) (f : Fetch) : State :=
  if f.settled then s
  else { s with
    fetches := s.fetches.set i { f with
      settled := true, hardTimer := .done, graceTimer := .done
      resolved := f.resolved ++ [JsMap.values f.uniquePackets]
      till := some s.responses.length }
    pendingRequests := f.requestIds.foldl JsMap.delete s.pendingRequests }

/-- `resolve` of a request. -/
def resolveRequest (s : State) (i : Nat) (packets : List Bytes) : State :=
  match s.fetches[i]? with
  | none => s
  | some f =>
    let f := { f with
      responsesReceived := f.responsesReceived+1
      uniquePackets := addPackets f.uniquePackets packets }
    if f.responsesReceived ≥ f.nearest.length then
      finalize { s with fetches := s.fetches.set i f } i f
    else if f.graceTimer = .unset then
      { s with fetches := s.fetches.set i { f with graceTimer := .armed } }
    else { s with fetches := s.fetches.set i f }

section
variable (sha256 : Bytes → Bytes)

def handleRes (s : State) (r : Response) : State :=
  let s := { s with responses := s.responses ++ [r] }
  match r.msg.field "reqId" with
  | .str reqId =>
    match JsMap.get s.pendingRequests reqId with
    | none => s
    | some req =>
      if req.target ≠ r.peerId then s
      else if r.msg.field "topicHash" != .str req.topicHash then s
      else
        let s := { s with pendingRequests := JsMap.delete s.pendingRequests reqId }
        -- a filter that throws ends the handler
        match filterValidEntries sha256 (r.msg.field "entries") r.now with
        | .error _ => s
        | .ok result => resolveRequest s req.fetch result.accepted
  | _ => s

inductive Action where
  | fetch (topicHash : String) (nearest : List String)
  | stored (i : Nat) (entries : Option (List Bytes)) (ids : List String)
  | res (r : Response)
  | hardTimeout (i : Nat)
  | graceElapsed (i : Nat)

def step (s : State) : Action → Option State
  | .fetch topicHash nearest => some (startFetch s topicHash nearest)
  | .stored i entries ids =>
    (Machine.takeTask s.fetching i).bind fun (task,fetching) =>
      continueFetch { s with fetching := fetching } task.1 task.2 entries ids
  | .res r => some (handleRes sha256 s r)
  | .hardTimeout i => (s.fetches[i]?).bind fun f =>
    if f.hardTimer = .armed then some (finalize s i f) else none
  | .graceElapsed i => (s.fetches[i]?).bind fun f =>
    if f.graceTimer = .armed then some (finalize s i f) else none

end

end DHTMailbox
