import AetherLite.Common.JsonBinary
import AetherLite.Lib.Machine
import AetherLite.Logic.ThreadDAGManager
import AetherLite.Logic.Types

/-! The posts of the open thread. The board, the thread and its key are fields that are
read again after an `await`; the arguments of a call are kept by its continuation. -/
set_option autoImplicit false

namespace ThreadOrchestrator

open Js PacketBuilder ThreadDAGManager Logic

/-- A thread of a board, with its key. -/
structure Target where
  boardId : String
  threadId : String
  key : Bytes
  deriving DecidableEq

/-- Where a post came from. The code keeps no such record. -/
inductive Origin where
  | packet (packet : Val) (post : Post)
  | reply (built : Target) (packet : Val)

/-- The arguments of a call of `handlePacketObject`, and the rows its caller in
`loadInitialCache` has still to read. -/
structure PacketCall where
  target : Target
  packet : Val
  cacheRest : Option (List PostRow)

def PacketCall.isFromDB (c : PacketCall) : Bool := c.cacheRest.isSome

inductive Cont where
  -- handlePacketObject, in verifyAndDecrypt and db.save
  | decrypted (c : PacketCall)
  | persisted (c : PacketCall)
  -- loadInitialCache, in db.getPosts and handlePacketObject
  | cacheRead (target : Target)
  | cacheNext (target : Target) (rest : List PostRow)
  -- submitReply, in PacketBuilder.build and db.save
  | built (target : Target) (text : String) (tips : List Val) (nextWeight : Val)
  | replySaved (target : Target) (packet : Val)

structure State where
  snapshot : List (DAGPost Origin) := []
  dag : DAG Origin := { threadId := "" }
  seenPacketIds : List Val := []
  currentBoardId : Option String := none
  currentThreadId : Option String := none
  currentThreadKey : Option Bytes := none
  unwatchZone : Option Bytes := none
  isListening : Bool := false
  -- the registrations with the hint router
  hintKeys : JsMap String Bytes := []
  bodyListeners : Nat := 0
  -- the handlers that wait for a first neighbour, and those whose wait has timed out
  waiting : Nat := 0
  timedOut : Nat := 0
  pending : List Cont := []
  -- what was handed to the store and announced, with where it came from
  saves : List (Origin × PostSave) := []
  slots : List (Target × Bytes) := []
  /-- The arguments of the last call of `activate` since the last `clear`. -/
  requested : Option (String × String × Bytes) := none

inductive Action where
  | activate (boardId threadId : String) (boardKey : Bytes)
  | clear
  | gossip (packet : Val)
  | hintBody (body : Bytes) (keyId : String)
  | submitReply (text : String)
  | peerConnect
  | waitTimeout
  | resume (i : Nat) (result : Awaited) (env : Env)

def hintKeyId (threadId : String) : String := "thread:" ++ threadId

def suspend (s : State) (c : Cont) : State := { s with pending := s.pending ++ [c] }

/-- The three fields, when all are set. -/
def current (s : State) : Option Target :=
  match s.currentBoardId,s.currentThreadId,s.currentThreadKey with
  | some b,some t,some k => some ⟨b,t,k⟩
  | _,_,_ => none

/-- The open thread, when neither id is the empty string. -/
def openThread (s : State) : Option Target :=
  match current s with
  | some t => if t.boardId = "" ∨ t.threadId = "" then none else some t
  | none => none

/-- `triggerInitialSync`: without a neighbour a handler waits for one. -/
def triggerInitialSync (s : State) (env : Env) : State :=
  if env.degree = 0 then { s with waiting := s.waiting+1 } else s

def settle (s : State) (c : PacketCall) : State :=
  match c.cacheRest with
  | some rest => suspend s (.cacheNext c.target rest)
  | none => s

/-- `handlePacketObject` up to its first `await`. -/
def enterPacket (s : State) (c : PacketCall) : State :=
  if c.packet.isNullish then settle s c
  else
    let id := c.packet.field "packet_id"
    if s.seenPacketIds.any (· == id) then settle s c
    else suspend { s with seenPacketIds := id :: s.seenPacketIds } (.decrypted c)

/-- The rows up to the first that parses; after the last one the network sync. -/
def cacheLoop (s : State) (target : Target) (env : Env) : List PostRow → State
  | [] => triggerInitialSync s env
  | row :: rest =>
    match JsonBinary.parse row.payload with
    | .error _ => cacheLoop s target env rest
    | .ok packet => enterPacket s ⟨target,packet,some rest⟩

section
variable (p : Primitives) (loc : JsLocale) (deriveThreadKey : Bytes → String → Bytes)

/-- The snapshot is the order of the DAG, which may throw. -/
def notify (s : State) : Option State :=
  match getSortedPosts loc s.dag with
  | .ok posts => some { s with snapshot := posts }
  | .error _ => none

/-- The post as the DAG keeps it. -/
def dagPostOf (c : PacketCall) (post : Post) : DAGPost Origin where
  packetId := c.packet.field "packet_id"
  post := { post with
    parents := orElse post.parents (.arr [])
    cumulativePow := orElse post.cumulativePow (.num (.fin 0))
    threadRoot := orElse post.threadRoot (.str c.target.threadId) }
  origin := .packet c.packet post

def saveOf (boardId threadId : String) (packet : Val) (post : Post) : PostSave where
  boardId := boardId
  threadId := threadId
  payload := .inr packet
  parents := post.parents
  cumulativePow := post.cumulativePow
  threadRoot := post.threadRoot
  createdAt := post.createdAt

/-- `handlePacketObject` after the decryption. A failure of the order is caught after
the post has entered the DAG. -/
def resumeDecrypted (s : State) (c : PacketCall) : State :=
  match verifyAndDecrypt p c.packet c.target.key with
  | .error _ | .ok none => settle s c
  | .ok (some post) =>
    if !(post.threadId.strictEq (.str c.target.threadId) && post.postType.strictEq (.num (.fin 0)))
    then settle s c
    else
      let dagPost := dagPostOf c post
      match addPost s.dag dagPost with
      | none => settle s c
      | some dag =>
        match notify loc { s with dag := dag } with
        | none => settle { s with dag := dag } c
        | some s =>
          if c.isFromDB then settle s c
          else suspend { s with saves := (.packet c.packet post,
            saveOf c.target.boardId c.target.threadId c.packet dagPost.post) :: s.saves }
            (.persisted c)

/-- `submitReply` up to `PacketBuilder.build`. -/
def submitReply (s : State) (text : String) : State :=
  match openThread s with
  | none => s
  | some target =>
    if text = "" then s
    else
      let nextWeight := do
        (← getMaxCumulativePow loc s.dag).plus loc.format
          (.num (Number.ofNat PowPolicy.networkDifficulty))
      match getTips s.dag,nextWeight with
      | .ok tips,.ok weight => suspend s (.built target text tips weight)
      | _,_ => s

/-- `prepareSlot` and the broadcast, under the key of the field; without a key the
derivation of the hint key throws. -/
def sendAnonymously (s : State) (target : Target) : State :=
  match s.currentThreadKey with
  | some k => { s with slots := (target,k) :: s.slots }
  | none => s

def optStr : Option String → Val
  | some t => .str t
  | none => .null

/-- The post that shows a reply, from the fields at the time. -/
def replyPost (s : State) (target : Target) (text : String) (tips : List Val) (nextWeight : Val)
    (packet : Val) : DAGPost Origin where
  packetId := packet.field "packet_id"
  post := {
    content := .str text
    postNumber := .num (.fin 0)
    createdAt := .num (packetTimestamp packet)
    boardId := optStr s.currentBoardId
    threadId := optStr s.currentThreadId
    parents := .arr tips
    cumulativePow := nextWeight
    threadRoot := optStr s.currentThreadId
    postType := .undefined }
  origin := .reply target packet

/-- `submitReply` after `PacketBuilder.build`. The ids are set whenever the DAG takes
the post. -/
def resumeBuilt (s : State) (target : Target) (text : String) (tips : List Val) (nextWeight : Val)
    (packet : Val) : State :=
  let dagPost := replyPost s target text tips nextWeight packet
  match addPost s.dag dagPost with
  | none => sendAnonymously s target
  | some dag =>
    let s := { s with dag := dag, seenPacketIds := packet.field "packet_id" :: s.seenPacketIds }
    match notify loc s with
    | none => s
    | some s => suspend { s with saves := (.reply target packet,
        saveOf (s.currentBoardId.getD "") (s.currentThreadId.getD "") packet dagPost.post) ::
          s.saves } (.replySaved target packet)

def resume (s : State) (c : Cont) (result : Awaited) (env : Env) : Option State :=
  match c,result with
  | .decrypted c,.done => some (resumeDecrypted p loc s c)
  | .persisted c,.done | .persisted c,.failed => some (settle s c)
  | .cacheRead target,.postRows stored =>
    some (cacheLoop s target env (getPosts stored target.boardId target.threadId))
  | .cacheRead target,.failed => some (cacheLoop s target env [])
  | .cacheNext target rest,.done => some (cacheLoop s target env rest)
  | .built target text tips nextWeight,.packet packet =>
    some (resumeBuilt loc s target text tips nextWeight packet)
  | .built _ _ _ _,.failed => some s
  | .replySaved target _,.done | .replySaved target _,.failed => some (sendAnonymously s target)
  | _,_ => none

/-- The empty DAG has an order, so `notify` does not throw here. -/
def clear (s : State) : State :=
  { s with
    hintKeys := match s.currentThreadId with
      | some t => if t = "" then s.hintKeys else JsMap.delete s.hintKeys (hintKeyId t)
      | none => s.hintKeys
    isListening := false
    unwatchZone := none
    dag := { threadId := "" }
    seenPacketIds := []
    currentBoardId := none
    currentThreadId := none
    currentThreadKey := none
    snapshot := []
    requested := none }

/-- Only another thread id resets the fields. -/
def switchThread (s : State) (boardId threadId : String) (boardKey : Bytes) : State :=
  if s.currentThreadId = some threadId then s
  else { clear s with
    currentBoardId := some boardId
    currentThreadId := some threadId
    currentThreadKey := some (deriveThreadKey boardKey threadId)
    unwatchZone := some (deriveThreadKey boardKey threadId)
    dag := { threadId := threadId } }

def listen (s : State) (threadId : String) (key : Bytes) : State :=
  if s.isListening then s
  else { s with
    hintKeys := JsMap.set s.hintKeys (hintKeyId threadId) key
    bodyListeners := s.bodyListeners+1
    isListening := true }

/-- `activate` up to the read of the stored packets. -/
def activate (s : State) (boardId threadId : String) (boardKey : Bytes) : State :=
  let s := { switchThread deriveThreadKey s boardId threadId boardKey with
    requested := some (boardId,threadId,boardKey) }
  match s.currentThreadKey with
  | none => s
  | some key => suspend (listen s threadId key) (.cacheRead ⟨boardId,threadId,key⟩)

def onGossipPacket (s : State) (packet : Val) : State :=
  match openThread s with
  | some target => enterPacket s ⟨target,packet,none⟩
  | none => s

def onHintBody (s : State) (body : Bytes) (keyId : String) : State :=
  match openThread s with
  | none => s
  | some target =>
    if keyId ≠ hintKeyId target.threadId then s
    else match parsePacket body with
    | .error _ => s
    | .ok packet => enterPacket s ⟨target,packet,none⟩

/-- `currentBoardKey` is never set, so of the handler of new neighbours only the waits
it ends are left. -/
def step (s : State) (a : Action) : Option State :=
  match a with
  | .activate boardId threadId boardKey =>
    some (activate deriveThreadKey s boardId threadId boardKey)
  | .clear => some (clear s)
  | .gossip packet => some (onGossipPacket s packet)
  | .hintBody body keyId => some (onHintBody s body keyId)
  | .submitReply text => some (submitReply loc s text)
  | .peerConnect => some { s with waiting := 0 }
  | .waitTimeout =>
    if 0 < s.waiting then some { s with waiting := s.waiting-1, timedOut := s.timedOut+1 }
    else none
  | .resume i result env =>
    (Machine.takeTask s.pending i).bind fun t =>
      resume p loc { s with pending := t.2 } t.1 result env

end


section Steps
variable {p : Primitives} {loc : JsLocale} {deriveThreadKey : Bytes → String → Bytes} {s : State}

/-- The open thread and its posts are the same. -/
structure SameShown (s s' : State) : Prop where
  boardId : s'.currentBoardId = s.currentBoardId
  threadId : s'.currentThreadId = s.currentThreadId
  threadKey : s'.currentThreadKey = s.currentThreadKey
  dag : s'.dag = s.dag
  snapshot : s'.snapshot = s.snapshot

/-- So are the registrations and what was saved and announced. -/
structure SameView (s s' : State) : Prop extends SameShown s s' where
  hintKeys : s'.hintKeys = s.hintKeys
  saves : s'.saves = s.saves
  slots : s'.slots = s.slots
  requested : s'.requested = s.requested

theorem SameShown.refl (s : State) : SameShown s s := ⟨rfl,rfl,rfl,rfl,rfl⟩

theorem SameShown.trans {s₁ s₂ s₃ : State} (h : SameShown s₁ s₂) (h' : SameShown s₂ s₃) :
    SameShown s₁ s₃ :=
  ⟨h'.1.trans h.1,h'.2.trans h.2,h'.3.trans h.3,h'.4.trans h.4,h'.5.trans h.5⟩

theorem SameView.refl (s : State) : SameView s s := ⟨.refl s,rfl,rfl,rfl,rfl⟩

theorem SameView.trans {s₁ s₂ s₃ : State} (h : SameView s₁ s₂) (h' : SameView s₂ s₃) :
    SameView s₁ s₃ :=
  ⟨h.toSameShown.trans h'.toSameShown,h'.hintKeys.trans h.hintKeys,h'.saves.trans h.saves,
    h'.slots.trans h.slots,h'.requested.trans h.requested⟩

theorem sameView_suspend (s : State) (c : Cont) : SameView s (suspend s c) :=
  ⟨⟨rfl,rfl,rfl,rfl,rfl⟩,rfl,rfl,rfl,rfl⟩

theorem sameView_settle (s : State) (c : PacketCall) : SameView s (settle s c) := by
  unfold settle
  split
  · exact sameView_suspend s _
  · exact .refl s

theorem sameView_enterPacket (s : State) (c : PacketCall) : SameView s (enterPacket s c) := by
  unfold enterPacket
  split
  · exact sameView_settle s c
  dsimp only
  split
  · exact sameView_settle s c
  · exact ⟨⟨rfl,rfl,rfl,rfl,rfl⟩,rfl,rfl,rfl,rfl⟩

theorem sameView_cacheLoop (s : State) (target : Target) (env : Env) (rows : List PostRow) :
    SameView s (cacheLoop s target env rows) := by
  induction rows with
  | nil =>
    unfold cacheLoop triggerInitialSync
    split
    · exact ⟨⟨rfl,rfl,rfl,rfl,rfl⟩,rfl,rfl,rfl,rfl⟩
    · exact .refl s
  | cons row rest ih =>
    unfold cacheLoop
    split
    · exact ih
    · exact sameView_enterPacket s _

/-- What a step can do: besides the two calls, three continuations write. -/
inductive Change (p : Primitives) (loc : JsLocale) (deriveThreadKey : Bytes → String → Bytes)
    (s : State) : Action → State → Prop where
  | quiet {a : Action} {s' : State} : SameView s s' → Change p loc deriveThreadKey s a s'
  | decrypted {i : Nat} {env : Env} {c : PacketCall} {rest : List Cont} :
    Machine.takeTask s.pending i = some (.decrypted c,rest) →
    Change p loc deriveThreadKey s (.resume i .done env)
      (resumeDecrypted p loc { s with pending := rest } c)
  | built {i : Nat} {env : Env} {target : Target} {text : String} {tips : List Val}
      {nextWeight packet : Val} {rest : List Cont} :
    Machine.takeTask s.pending i = some (.built target text tips nextWeight,rest) →
    Change p loc deriveThreadKey s (.resume i (.packet packet) env)
      (resumeBuilt loc { s with pending := rest } target text tips nextWeight packet)
  | sent {i : Nat} {result : Awaited} {env : Env} {target : Target} {packet : Val}
      {rest : List Cont} :
    Machine.takeTask s.pending i = some (.replySaved target packet,rest) →
    Change p loc deriveThreadKey s (.resume i result env)
      (sendAnonymously { s with pending := rest } target)
  | cleared : Change p loc deriveThreadKey s .clear (clear s)
  | activated (boardId threadId : String) (boardKey : Bytes) :
    Change p loc deriveThreadKey s (.activate boardId threadId boardKey)
      (activate deriveThreadKey s boardId threadId boardKey)

theorem change_resume {i : Nat} {c : Cont} {rest : List Cont} {result : Awaited} {env : Env}
    {s' : State} (ht : Machine.takeTask s.pending i = some (c,rest))
    (h : resume p loc { s with pending := rest } c result env = some s') :
    Change p loc deriveThreadKey s (.resume i result env) s' := by
  have hq : SameView s { s with pending := rest } := ⟨⟨rfl,rfl,rfl,rfl,rfl⟩,rfl,rfl,rfl,rfl⟩
  unfold resume at h
  split at h
  · cases h
    exact .decrypted ht
  · cases h
    exact .quiet (hq.trans (sameView_settle _ _))
  · cases h
    exact .quiet (hq.trans (sameView_settle _ _))
  · cases h
    exact .quiet (hq.trans (sameView_cacheLoop _ _ _ _))
  · cases h
    exact .quiet (hq.trans (sameView_cacheLoop _ _ _ _))
  · cases h
    exact .quiet (hq.trans (sameView_cacheLoop _ _ _ _))
  · cases h
    exact .built ht
  · cases h
    exact .quiet hq
  · cases h
    exact .sent ht
  · cases h
    exact .sent ht
  · cases h

theorem change_step {a : Action} {s' : State} (h : step p loc deriveThreadKey s a = some s') :
    Change p loc deriveThreadKey s a s' := by
  cases a with
  | activate boardId threadId boardKey =>
    cases h
    exact .activated boardId threadId boardKey
  | clear =>
    cases h
    exact .cleared
  | gossip packet =>
    cases h
    unfold onGossipPacket
    split
    · exact .quiet (sameView_enterPacket s _)
    · exact .quiet (.refl s)
  | hintBody body keyId =>
    cases h
    unfold onHintBody
    split
    · exact .quiet (.refl s)
    split
    · exact .quiet (.refl s)
    split
    · exact .quiet (.refl s)
    · exact .quiet (sameView_enterPacket s _)
  | submitReply text =>
    cases h
    unfold submitReply
    split
    · exact .quiet (.refl s)
    split
    · exact .quiet (.refl s)
    dsimp only
    split
    · exact .quiet (sameView_suspend s _)
    · exact .quiet (.refl s)
  | peerConnect =>
    cases h
    exact .quiet ⟨⟨rfl,rfl,rfl,rfl,rfl⟩,rfl,rfl,rfl,rfl⟩
  | waitTimeout =>
    simp only [step] at h
    split at h
    · cases h
      exact .quiet ⟨⟨rfl,rfl,rfl,rfl,rfl⟩,rfl,rfl,rfl,rfl⟩
    · cases h
  | resume i result env =>
    obtain ⟨⟨c,rest⟩,ht,h⟩ := Option.bind_eq_some_iff.mp h
    exact change_resume ht h

end Steps

section Unmixed
variable (p : Primitives) (deriveThreadKey : Bytes → String → Bytes)

/-- Whether a post belongs to the thread, the board and the key. -/
def Origin.BelongsTo (target : Target) : Origin → Prop
  | .packet q post => verifyAndDecrypt p q target.key = .ok (some post)
  | .reply built _ => built = target

def Own (s : State) (n : DAGPost Origin) : Prop :=
  ∃ target, current s = some target ∧ n.origin.BelongsTo p target

/-- Threads, boards and keys are not mixed. -/
structure Unmixed (s : State) : Prop where
  /-- The fields, and the key hints are opened with, are those of the last activation. -/
  active : ∀ b t k, s.requested = some (b,t,k) →
    current s = some ⟨b,t,deriveThreadKey k t⟩ ∧
      JsMap.get s.hintKeys (hintKeyId t) = some (deriveThreadKey k t)
  shown : ∀ n ∈ s.snapshot, Own p s n
  saved : ∀ e ∈ s.saves, ∀ built packet, e.1 = .reply built packet →
    e.2.boardId = built.boardId ∧ e.2.threadId = built.threadId
  announced : ∀ e ∈ s.slots, e.2 = e.1.key

/-- An activation of the thread that is open already asks for the same board and key,
and a continuation that is about to write finds the fields its call started with, or no
thread at all. -/
def OwnThread (s : State) (a : Action) : Prop :=
  match a with
  | .activate boardId threadId boardKey => s.currentThreadId = some threadId →
      current s = some ⟨boardId,threadId,deriveThreadKey boardKey threadId⟩
  | .resume i result _ =>
    match s.pending[i]?,result with
    | some (.decrypted c),.done =>
      s.dag.threadId = c.target.threadId → s.currentThreadKey = some c.target.key
    | some (.built target _ _ _),.packet _ => current s = none ∨ current s = some target
    | some (.replySaved target _),_ =>
      s.currentThreadKey = none ∨ s.currentThreadKey = some target.key
    | _,_ => True
  | _ => True

structure Inv (s : State) : Prop where
  together : current s = none →
    s.currentBoardId = none ∧ s.currentThreadId = none ∧ s.currentThreadKey = none
  threadId : s.dag.threadId = s.currentThreadId.getD ""
  posts : ∀ n ∈ JsMap.values s.dag.nodes, Own p s n
  hintKey : ∀ target, current s = some target →
    JsMap.get s.hintKeys (hintKeyId target.threadId) = some target.key
  unmixed : Unmixed p deriveThreadKey s

end Unmixed

section Proofs
variable {p : Primitives} {loc : JsLocale} {deriveThreadKey : Bytes → String → Bytes} {s : State}

theorem current_some {target : Target} (h : current s = some target) :
    s.currentBoardId = some target.boardId ∧ s.currentThreadId = some target.threadId ∧
      s.currentThreadKey = some target.key := by
  unfold current at h
  split at h
  · next b t k hb ht hk =>
    cases h
    exact ⟨hb,ht,hk⟩
  · cases h

theorem current_congr {s' : State} (hb : s'.currentBoardId = s.currentBoardId)
    (ht : s'.currentThreadId = s.currentThreadId) (hk : s'.currentThreadKey = s.currentThreadKey) :
    current s' = current s := by
  unfold current
  rw [hb,ht,hk]

theorem Inv.frame {s' : State} (h : Inv p deriveThreadKey s) (v : SameView s s') :
    Inv p deriveThreadKey s' := by
  have hc := current_congr v.boardId v.threadId v.threadKey
  have hown : ∀ n, Own p s n → Own p s' n := by
    rintro n ⟨target,ht,ho⟩
    exact ⟨target,hc.trans ht,ho⟩
  refine ⟨?_,?_,?_,?_,?_,?_,?_,?_⟩
  · rw [hc,v.boardId,v.threadId,v.threadKey]
    exact h.together
  · rw [v.dag,v.threadId]
    exact h.threadId
  · rw [v.dag]
    exact fun n hn => hown n (h.posts n hn)
  · rw [hc,v.hintKeys]
    exact h.hintKey
  · rw [hc,v.requested,v.hintKeys]
    exact h.unmixed.active
  · rw [v.snapshot]
    exact fun n hn => hown n (h.unmixed.shown n hn)
  · rw [v.saves]
    exact h.unmixed.saved
  · rw [v.slots]
    exact h.unmixed.announced

theorem Inv.settle (h : Inv p deriveThreadKey s) (c : PacketCall) :
    Inv p deriveThreadKey (settle s c) := h.frame (sameView_settle s c)

/-- A post of the open thread enters the DAG. -/
theorem Inv.addPost (h : Inv p deriveThreadKey s) {n : DAGPost Origin} {dag : DAG Origin}
    (ha : addPost s.dag n = some dag) (hn : Own p s n) (seen : List Val) :
    Inv p deriveThreadKey { s with dag := dag, seenPacketIds := seen } := by
  have hid := (addPost_threadId ha).1
  refine ⟨h.together,hid.trans h.threadId,fun m hm => ?_,h.hintKey,h.unmixed.active,
    h.unmixed.shown,h.unmixed.saved,h.unmixed.announced⟩
  rcases mem_of_addPost ha hm with rfl | hm
  · exact hn
  · exact h.posts m hm

theorem Inv.notify (h : Inv p deriveThreadKey s) {s' : State} (hs : notify loc s = some s') :
    Inv p deriveThreadKey s' := by
  unfold ThreadOrchestrator.notify at hs
  cases hp : getSortedPosts loc s.dag with
  | error e => simp [hp] at hs
  | ok posts =>
    simp only [hp,Option.some.injEq] at hs
    rw [← hs]
    exact ⟨h.together,h.threadId,h.posts,h.hintKey,h.unmixed.active,
      fun n hn => h.posts n (mem_of_getSortedPosts hp n hn),h.unmixed.saved,h.unmixed.announced⟩

theorem notify_current {s' : State} (hs : notify loc s = some s') : current s' = current s := by
  unfold ThreadOrchestrator.notify at hs
  split at hs
  · cases hs
    rfl
  · cases hs

theorem Inv.saveReply (h : Inv p deriveThreadKey s) {target : Target} {e : PostSave}
    (hb : e.boardId = target.boardId) (ht : e.threadId = target.threadId) (packet : Val)
    (c : Cont) : Inv p deriveThreadKey
      (ThreadOrchestrator.suspend { s with saves := (.reply target packet,e) :: s.saves } c) := by
  refine ⟨h.together,h.threadId,h.posts,h.hintKey,h.unmixed.active,h.unmixed.shown,?_,
    h.unmixed.announced⟩
  intro f hf built q' hfb
  rcases List.mem_cons.mp hf with rfl | hf
  · cases hfb
    exact ⟨hb,ht⟩
  · exact h.unmixed.saved f hf built q' hfb

theorem Inv.savePacket (h : Inv p deriveThreadKey s) (q : Val) (post : Post) (e : PostSave)
    (c : Cont) : Inv p deriveThreadKey
      (ThreadOrchestrator.suspend { s with saves := (.packet q post,e) :: s.saves } c) := by
  refine ⟨h.together,h.threadId,h.posts,h.hintKey,h.unmixed.active,h.unmixed.shown,?_,
    h.unmixed.announced⟩
  intro f hf built q' hfb
  rcases List.mem_cons.mp hf with rfl | hf
  · cases hfb
  · exact h.unmixed.saved f hf built q' hfb

theorem Inv.sendAnonymously (h : Inv p deriveThreadKey s) {target : Target}
    (hk : s.currentThreadKey = none ∨ s.currentThreadKey = some target.key) :
    Inv p deriveThreadKey (sendAnonymously s target) := by
  unfold ThreadOrchestrator.sendAnonymously
  split
  · next k hkey =>
    have hkk : k = target.key := by simpa [hkey] using hk
    refine ⟨h.together,h.threadId,h.posts,h.hintKey,h.unmixed.active,h.unmixed.shown,
      h.unmixed.saved,?_⟩
    intro e he
    rcases List.mem_cons.mp he with rfl | he
    · exact hkk
    · exact h.unmixed.announced e he
  · exact h

/-- An open thread has its board and its key. -/
theorem Inv.current_of_key (h : Inv p deriveThreadKey s) {k : Bytes}
    (hk : s.currentThreadKey = some k) : ∃ target, current s = some target ∧ target.key = k := by
  cases hc : current s with
  | none =>
    rw [(h.together hc).2.2] at hk
    cases hk
  | some target =>
    have hkey := (current_some hc).2.2
    exact ⟨target,rfl,Option.some.inj (hkey.symm.trans hk)⟩

theorem Inv.resumeDecrypted (h : Inv p deriveThreadKey s) {c : PacketCall}
    (hG : s.dag.threadId = c.target.threadId → s.currentThreadKey = some c.target.key) :
    Inv p deriveThreadKey (resumeDecrypted p loc s c) := by
  unfold ThreadOrchestrator.resumeDecrypted
  cases hv : verifyAndDecrypt p c.packet c.target.key with
  | error e => exact h.settle c
  | ok o =>
    cases o with
    | none => exact h.settle c
    | some post =>
      dsimp only
      split
      · exact h.settle c
      next hpost =>
      cases ha : ThreadDAGManager.addPost s.dag (dagPostOf c post) with
      | none => exact h.settle c
      | some dag =>
        dsimp only
        have hid : s.dag.threadId = c.target.threadId := by
          have h1 := (addPost_threadId ha).2
          have h2 : post.threadId.strictEq (.str c.target.threadId) = true := by
            simp only [Bool.not_eq_true,Bool.not_eq_false',Bool.and_eq_true] at hpost
            exact hpost.1
          have h1 : post.threadId.strictEq (.str s.dag.threadId) = true := h1
          cases ht : post.threadId with
          | str t =>
            rw [ht] at h1 h2
            exact (beq_iff_eq.mp h1).symm.trans (beq_iff_eq.mp h2)
          | _ =>
            rw [ht] at h1
            cases h1
        obtain ⟨target,hc,hkey⟩ := h.current_of_key (hG hid)
        have hown : Own p s (dagPostOf c post) := ⟨target,hc,by rw [← hkey] at hv; exact hv⟩
        have hd := h.addPost ha hown s.seenPacketIds
        cases hn : ThreadOrchestrator.notify loc { s with dag := dag } with
        | none => exact hd.settle c
        | some s' =>
          dsimp only
          have hs' := hd.notify hn
          split
          · exact hs'.settle c
          · exact hs'.savePacket _ _ _ _

theorem Inv.resumeBuilt (h : Inv p deriveThreadKey s) {target : Target}
    (hG : current s = none ∨ current s = some target) (text : String) (tips : List Val)
    (nextWeight packet : Val) :
    Inv p deriveThreadKey (resumeBuilt loc s target text tips nextWeight packet) := by
  unfold ThreadOrchestrator.resumeBuilt
  dsimp only
  cases ha : ThreadDAGManager.addPost s.dag (replyPost s target text tips nextWeight packet) with
  | none =>
    refine h.sendAnonymously (hG.imp (fun hc => (h.together hc).2.2) fun hc => ?_)
    exact (current_some hc).2.2
  | some dag =>
    dsimp only
    have hc : current s = some target := by
      refine hG.resolve_left fun hc => ?_
      have hstr := (addPost_threadId ha).2
      simp only [replyPost,(h.together hc).2.1,optStr] at hstr
      cases hstr
    have hd := h.addPost ha ⟨target,hc,rfl⟩ (packet.field "packet_id" :: s.seenPacketIds)
    cases hn : ThreadOrchestrator.notify loc _ with
    | none => exact hd
    | some s' =>
      have hc' : current s' = some target := (notify_current hn).trans hc
      obtain ⟨hb,ht,-⟩ := current_some hc'
      exact (hd.notify hn).saveReply (by simp [saveOf,hb]) (by simp [saveOf,ht]) _ _

theorem inv_clear (h : Inv p deriveThreadKey s) : Inv p deriveThreadKey (clear s) := by
  refine ⟨fun _ => ⟨rfl,rfl,rfl⟩,rfl,?_,?_,?_,?_,h.unmixed.saved,h.unmixed.announced⟩
  · intro n hn
    cases hn
  · intro target ht
    cases ht
  · intro b t k hr
    cases hr
  · intro n hn
    cases hn

/-- A fresh activation: the DAG is empty, and the key is registered with its id. -/
theorem inv_fresh (h : Inv p deriveThreadKey s) (b t : String) (k : Bytes) :
    Inv p deriveThreadKey (activate deriveThreadKey (clear s) b t k) := by
  have hset : JsMap.get (JsMap.set (clear s).hintKeys (hintKeyId t) (deriveThreadKey k t))
      (hintKeyId t) = some (deriveThreadKey k t) := JsMap.get_set_self _ _ _
  refine ⟨fun hc => ?_,rfl,?_,?_,?_,?_,h.unmixed.saved,h.unmixed.announced⟩
  · cases hc
  · intro n hn
    cases hn
  · intro target ht
    cases ht
    exact hset
  · intro b' t' k' hr
    cases hr
    exact ⟨rfl,hset⟩
  · intro n hn
    cases hn

theorem Inv.activate (h : Inv p deriveThreadKey s) {b t : String} {k : Bytes}
    (hG : s.currentThreadId = some t → current s = some ⟨b,t,deriveThreadKey k t⟩) :
    Inv p deriveThreadKey (activate deriveThreadKey s b t k) := by
  by_cases ht : s.currentThreadId = some t
  · have hc := hG ht
    obtain ⟨-,-,hk⟩ := current_some hc
    have hsame : switchThread deriveThreadKey s b t k = s := if_pos ht
    have hreq : Inv p deriveThreadKey { s with requested := some (b,t,k) } := by
      refine ⟨h.together,h.threadId,h.posts,h.hintKey,?_,h.unmixed.shown,h.unmixed.saved,
        h.unmixed.announced⟩
      intro b' t' k' hr
      cases hr
      exact ⟨hc,h.hintKey _ hc⟩
    unfold ThreadOrchestrator.activate
    rw [hsame]
    dsimp only
    split
    · next hnone =>
      rw [hk] at hnone
      cases hnone
    next key hkey =>
    have hkk : key = deriveThreadKey k t := Option.some.inj (hkey.symm.trans hk)
    rw [hkk]
    refine Inv.frame ?_ (sameView_suspend _ _)
    unfold listen
    split
    · exact hreq
    · have hset : JsMap.get (JsMap.set s.hintKeys (hintKeyId t) (deriveThreadKey k t))
          (hintKeyId t) = some (deriveThreadKey k t) := JsMap.get_set_self _ _ _
      refine ⟨h.together,h.threadId,h.posts,?_,?_,h.unmixed.shown,h.unmixed.saved,
        h.unmixed.announced⟩
      · intro target htar
        have htt : target = ⟨b,t,deriveThreadKey k t⟩ := Option.some.inj (htar.symm.trans hc)
        rw [htt]
        exact hset
      · intro b' t' k' hr
        cases hr
        exact ⟨hc,hset⟩
  · have hfresh := inv_fresh h b t k
    have heq : ThreadOrchestrator.activate deriveThreadKey s b t k =
        ThreadOrchestrator.activate deriveThreadKey (clear s) b t k := by
      have h1 : switchThread deriveThreadKey s b t k =
          switchThread deriveThreadKey (clear s) b t k := by
        unfold switchThread
        rw [if_neg ht,if_neg (by simp [clear])]
        simp [clear]
      unfold ThreadOrchestrator.activate
      rw [h1]
    rw [heq]
    exact hfresh

theorem inv_step (s : State) (a : Action) (s' : State) (h : Inv p deriveThreadKey s)
    (hG : OwnThread deriveThreadKey s a) (hs : step p loc deriveThreadKey s a = some s') :
    Inv p deriveThreadKey s' := by
  have htake : ∀ rest, Inv p deriveThreadKey { s with pending := rest } := fun rest =>
    h.frame ⟨⟨rfl,rfl,rfl,rfl,rfl⟩,rfl,rfl,rfl,rfl⟩
  cases change_step hs with
  | quiet hq => exact h.frame hq
  | decrypted ht =>
    simp only [OwnThread,Machine.takeTask_get ht] at hG
    exact (htake _).resumeDecrypted hG
  | @built _ _ _ _ _ _ _ rest ht =>
    simp only [OwnThread,Machine.takeTask_get ht] at hG
    exact (htake rest).resumeBuilt hG _ _ _ _
  | @sent _ _ _ _ _ rest ht =>
    simp only [OwnThread,Machine.takeTask_get ht] at hG
    exact (htake rest).sendAnonymously hG
  | cleared => exact inv_clear h
  | activated boardId threadId boardKey => exact h.activate hG

theorem thread_unmixed {as : List Action}
    (hr : Machine.run (step p loc deriveThreadKey) {} as = some s)
    (hG : Machine.Along (step p loc deriveThreadKey) (OwnThread deriveThreadKey) {} as) :
    Unmixed p deriveThreadKey s := by
  have hinit : Inv p deriveThreadKey {} := by
    refine ⟨fun _ => ⟨rfl,rfl,rfl⟩,rfl,?_,?_,?_,?_,?_,?_⟩
    · intro n hn
      cases hn
    · intro target ht
      cases ht
    · intro b t k hr
      cases hr
    · intro n hn
      cases hn
    · intro e he
      cases he
    · intro e he
      cases he
  exact (Machine.invariant_run inv_step hinit hG hr).unmixed

end Proofs

def sampleThreadKey (boardKey : Bytes) (_ : String) : Bytes := boardKey ++ [1]

/-- A reply whose thread stays open until it has been announced. -/
def repliedRun : List Action := [
  .activate "A" "first" [10],
  .submitReply "text",
  .resume 1 (.packet (samplePacket [10,1] "p" 2)) {},
  .resume 1 .done {}]

theorem thread_unmixed_repliedRun : ∃ s,
    Machine.run (step sample sampleLocale sampleThreadKey) {} repliedRun = some s ∧
      s.snapshot.length = 1 ∧ s.slots.length = 1 ∧ Unmixed sample sampleThreadKey s := by
  have hG : Machine.Along (step sample sampleLocale sampleThreadKey)
      (OwnThread sampleThreadKey) {} repliedRun := by
    refine ⟨nofun,fun t ht => ?_⟩
    cases ht
    refine ⟨trivial,fun t ht => ?_⟩
    cases ht
    refine ⟨.inr rfl,fun t ht => ?_⟩
    cases ht
    exact ⟨.inr rfl,fun t _ => trivial⟩
  exact ⟨_,rfl,rfl,rfl,thread_unmixed (by rfl) hG⟩

/-- Another thread is opened while the proof of work of a reply is running. -/
def switchedRun : List Action := [
  .activate "A" "first" [10],
  .submitReply "text",
  .activate "B" "second" [20],
  .resume 1 (.packet (samplePacket [10,1] "p" 2)) {}]

theorem thread_mixed_switchedRun : ¬∀ (as : List Action) (s : State),
    Machine.run (step sample sampleLocale sampleThreadKey) {} as = some s →
      Unmixed sample sampleThreadKey s := by
  intro h
  have hu := h switchedRun _ rfl
  obtain ⟨hb,-⟩ := hu.saved _ List.mem_cons_self ⟨"A","first",[10,1]⟩ _ rfl
  have hne : ("B" : String) ≠ "A" := by decide
  exact hne hb

end ThreadOrchestrator
