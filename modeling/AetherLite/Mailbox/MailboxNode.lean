import AetherLite.Mailbox.Placement

/-! The mailbox of a node while messages come in, its own calls go on and time passes: what it
keeps and what it gives out. -/
set_option autoImplicit false

namespace MailboxNode

open Js Network
open DHTMailbox (View Response isValidTopicHash isResponsibleFor)
open MailboxEntry (checkEntry filterValidEntries maxEntriesPerMessage)
open SlotStorage (Call Offer Row Wait)

structure Config where
  me : PeerId × Number
  sha256 : Bytes → Bytes
  blobBytes : String → Row → Nat
  decimalText : Number → List Char

/-- A call of `handleGet` that waits for the store. -/
structure Get where
  peerId : PeerId
  topicHash : String
  reqId : String

/-- What `sendMessage` is called with, after the type. -/
inductive Message where
  | put (target : PeerId) (topicHash : String) (entries : List Bytes)
  | get (target : PeerId) (topicHash reqId : String)
  | res (target : PeerId) (topicHash reqId : String) (entries : List Bytes)

/-- `now` is what `Date.now` gives. -/
structure State where
  now : Int
  storage : SlotStorage.State := {}
  mailbox : DHTMailbox.State := {}
  gets : List Get := []
  sent : List Message := []

/-- The calls of the storage, which read the clock themselves. -/
inductive Work where
  | start
  | answer (works : Bool)
  | resume
  | prune
  | pruned (i : Nat) (works : Bool)
  | pruneReturn (i : Nat)

def Work.action (now : Int) : Work → SlotStorage.Action
  | start => .start
  | answer works => .answer works now
  | resume => .resume now
  | prune => .prune now
  | pruned i works => .pruned i works
  | pruneReturn i => .pruneReturn i

/-- `peers` are those that are connected and verified at the time. -/
inductive Action where
  | tick (ms : Nat)
  | handlePut (peerId : PeerId) (msg : Val) (peers : List (PeerId × Number))
  | storeSlotAsExit (topicHash : String) (hint : Bytes) (packet : Val)
    (peers : List (PeerId × Number))
  | handleGet (peerId : PeerId) (msg : Val)
  /-- the store answers a call of `handleGet` -/
  | got (i : Nat) (works : Bool)
  | handleRes (peerId : PeerId) (msg : Val) (peers : List (PeerId × Number))
  | fetch (topicHash : String) (peers : List (PeerId × Number))
  /-- the store answers a call of `fetch` -/
  | read (i : Nat) (works : Bool) (ids : List String)
  | hardTimeout (i : Nat)
  | graceElapsed (i : Nat)
  | work (w : Work)

def handleGet (peerId : PeerId) (msg : Val) : Option Get :=
  match msg.field "topicHash",msg.field "reqId" with
  | .str topicHash,.str reqId =>
    if !isValidTopicHash topicHash || utf16Length reqId > 64 then none
    else some ⟨peerId,topicHash,reqId⟩
  | _,_ => none

section
variable (cfg : Config)

def Config.view (peers : List (PeerId × Number)) : View := ⟨cfg.me,peers⟩

/-- The end of `handleRes`: what a response asks the storage for. -/
def resOffer (v : View) (s : DHTMailbox.State) (r : Response) : Option Offer :=
  match r.msg.field "reqId" with
  | .str reqId => (JsMap.get s.pendingRequests reqId).bind fun req =>
    if req.target ≠ r.peerId then none
    else if r.msg.field "topicHash" != .str req.topicHash then none
    else match filterValidEntries cfg.sha256 (r.msg.field "entries") r.now with
      | .error _ => none
      | .ok result =>
        if result.accepted ≠ [] ∧ isResponsibleFor v req.topicHash then
          some ⟨req.topicHash,result.accepted,r.peerId⟩
        else none
  | _ => none

/-- `acceptForStorage`, as far as it runs at once. -/
def State.accept (s : State) (offer : Option Offer) : State :=
  { s with storage := { s.storage with queue := s.storage.queue ++ offer.toList } }

/-- What the store holds for a topic. -/
def State.entries (s : State) (topicHash : String) : List Bytes :=
  ((JsMap.get s.storage.rows topicHash).map Row.entries).getD []

def putMessages (p : DHTMailbox.Put) : List Message :=
  p.sent.map fun id => .put id p.topicHash [p.entry]

def sendRes (s : State) (g : Get) : State :=
  { s with
    sent := s.sent ++
      [.res g.peerId g.topicHash g.reqId ((s.entries g.topicHash).take maxEntriesPerMessage)] }

def getMessages (topicHash : String) (nearest ids : List String) : List Message :=
  (nearest.zip ids).map fun x => .get x.1 topicHash (DHTMailbox.requestId x.2)

/-- A handler that throws leaves what it has done until then. -/
def step (s : State) : Action → Option State
  | .tick ms => some { s with now := s.now+ms }
  | .handlePut peerId msg peers =>
    match DHTMailbox.handlePut cfg.sha256 (cfg.view peers) peerId msg s.now with
    | .error _ => some s
    | .ok offer => some (s.accept offer)
  | .storeSlotAsExit topicHash hint packet peers =>
    match DHTMailbox.storeSlotAsExit cfg.sha256 cfg.decimalText (cfg.view peers) topicHash hint
      packet s.now with
    | .ok (some put) => some ({ s with sent := s.sent ++ putMessages put }.accept put.own)
    | _ => some s
  | .handleGet peerId msg => some { s with gets := s.gets ++ (handleGet peerId msg).toList }
  | .got i works => (Machine.takeTask s.gets i).map fun x =>
    let s := { s with gets := x.2 }
    if works then sendRes s x.1 else s
  | .handleRes peerId msg peers =>
    let r : Response := ⟨peerId,msg,s.now⟩
    some ({ s with mailbox := DHTMailbox.handleRes cfg.sha256 s.mailbox r }.accept
      (resOffer cfg (cfg.view peers) s.mailbox r))
  | .fetch topicHash peers => some { s with
      mailbox := DHTMailbox.startFetch s.mailbox topicHash
        (DHTMailbox.fetchTargets (cfg.view peers) topicHash) }
  | .read i works ids => (Machine.takeTask s.mailbox.fetching i).bind fun x =>
    let stored := if works then some (s.entries x.1.1) else none
    (DHTMailbox.continueFetch { s.mailbox with fetching := x.2 } x.1.1 x.1.2 stored ids).map
      fun mailbox => { s with
        mailbox := mailbox
        sent := s.sent ++ getMessages x.1.1 x.1.2 ids }
  | .hardTimeout i =>
    (DHTMailbox.step cfg.sha256 s.mailbox (.hardTimeout i)).map fun mailbox =>
      { s with mailbox := mailbox }
  | .graceElapsed i =>
    (DHTMailbox.step cfg.sha256 s.mailbox (.graceElapsed i)).map fun mailbox =>
      { s with mailbox := mailbox }
  | .work w =>
    (SlotStorage.step cfg.me.1 cfg.blobBytes s.storage (w.action s.now)).map fun storage =>
      { s with storage := storage }

end

/-- The entry passes the check on its own. -/
def Passes (sha256 : Bytes → Bytes) (now : Int) (entry : Bytes) : Prop :=
  ∃ packet, checkEntry sha256 entry now = .ok (.ok packet)

end MailboxNode
