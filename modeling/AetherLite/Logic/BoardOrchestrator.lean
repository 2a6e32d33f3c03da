import AetherLite.Lib.Machine
import AetherLite.Crypto.PacketBuilder
import AetherLite.Logic.Types

/-! The thread list of the open board. Every `await` is a suspended continuation that
keeps the variables of its call, and the order in which they resume is free. -/
set_option autoImplicit false

namespace BoardOrchestrator

open Js PacketBuilder Logic

/-- Where the data of a listed thread came from. The code keeps no such record. -/
inductive Origin where
  | packet (packet : Val) (post : Post)
  | submitted (boardId : String) (key : Bytes) (packet : Val)
  | row (r : ThreadRow)

structure ThreadMeta where
  post : Post
  packetId : Val
  maxPow : Number
  createdAt : Number
  origins : List Origin

/-- The arguments of a call of `handlePacketObject`, and the rows its caller in
`loadInitialCache` has still to read. -/
structure PacketCall where
  boardId : String
  key : Bytes
  packet : Val
  rawData : Option Bytes
  cacheRest : Option (List PostRow)

def PacketCall.isFromDB (c : PacketCall) : Bool := c.cacheRest.isSome

inductive Cont where
  -- handlePacketObject, in verifyAndDecrypt, db.getThreads and db.save
  | decrypted (c : PacketCall)
  | statsRead (c : PacketCall) (post : Post) (createdAt base : Number)
  | persisted (c : PacketCall)
  -- loadInitialCache, in db.getPosts and handlePacketObject
  | cacheRead (boardId : String) (key : Bytes)
  | cacheNext (boardId : String) (key : Bytes) (rest : List PostRow)
  -- the callback of the statistics timer, in db.getThreads
  | statsTick (boardId : String)
  -- submitThread, in PacketBuilder.build and db.save
  | built (boardId : String) (key : Bytes) (title threadId : String)
  | submitSaved (boardId : String) (key : Bytes) (packet : Val)
  -- the finally clause of fullSync
  | syncFinally

structure State where
  threads : JsMap Val ThreadMeta := []
  snapshot : List ThreadMeta := []
  seenPacketIds : List Val := []
  currentBoardId : Option String := none
  currentBoardKey : Option Bytes := none
  /-- The key whose zone `unwatchZone` would leave. -/
  unwatchZone : Option Bytes := none
  isListening : Bool := false
  statsTimer : Option String := none
  syncInFlight : Bool := false
  syncDebounce : Bool := false
  -- the registrations with the hint router, and what has been handed over
  hintKeys : JsMap String Bytes := []
  bodyListeners : Nat := 0
  saves : List PostSave := []
  sends : List (Val × Bytes) := []
  pending : List Cont := []

inductive Action where
  | activate (boardId : String) (key : Bytes)
  | clear
  | gossip (packet : Val)
  | hintBody (body : Bytes) (keyId : String)
  | submitThread (boardId : String) (key : Bytes) (title threadId : String)
  | statsTimer
  | peerConnect
  | debounceFired (env : Env)
  | resume (i : Nat) (result : Awaited) (env : Env)

def hintKeyId (boardId : String) : String := "board:" ++ boardId

def suspend (s : State) (c : Cont) : State := { s with pending := s.pending ++ [c] }

def notify (s : State) : State := { s with snapshot := JsMap.values s.threads }

/-- The open board, when its id is not the empty string. -/
def openBoard (s : State) : Option (String × Bytes) :=
  match s.currentBoardId,s.currentBoardKey with
  | some b,some k => if b = "" then none else some (b,k)
  | _,_ => none

def startStatsSync (s : State) (boardId : String) : State := { s with statsTimer := some boardId }

def fullSync (s : State) (boardId : String) (env : Env) : State :=
  if s.syncInFlight then s
  else
    let s := if env.degree = 0 then s else startStatsSync s boardId
    suspend { s with syncInFlight := true } .syncFinally

/-- The promise of `handlePacketObject` settles; `loadInitialCache` goes on with the
next row, a handler is done. -/
def settle (s : State) (c : PacketCall) : State :=
  match c.cacheRest with
  | some rest => suspend s (.cacheNext c.boardId c.key rest)
  | none => s

/-- `handlePacketObject` up to its first `await`. -/
def enterPacket (s : State) (c : PacketCall) : State :=
  if c.packet.isNullish then settle s c
  else
    let id := c.packet.field "packet_id"
    if s.seenPacketIds.any (· == id) then settle s c
    else suspend { s with seenPacketIds := id :: s.seenPacketIds } (.decrypted c)

/-- The rows up to the first that parses; after the last one the network sync. -/
def cacheLoop (s : State) (boardId : String) (key : Bytes) (env : Env) : List PostRow → State
  | [] => fullSync s boardId env
  | row :: rest =>
    match parsePacket row.payload with
    | .error _ => cacheLoop s boardId key env rest
    | .ok packet => enterPacket s ⟨boardId,key,packet,some row.payload,some rest⟩

def normalizeTimestamp (raw : Val) (now : Number) : Except Thrown Number := do
  let n ← raw.number
  .ok (if n.finitePositive then n else now)

/-- `Number(meta.cumulative_pow || 0)` -/
def basePow (post : Post) : Except Thrown Number := (orElse post.cumulativePow (.num (.fin 0))).number

/-- The row of the thread among the statistics read. -/
def statsOf (stored : List ThreadRow) (boardId : String) (threadId : Val) : Option ThreadRow :=
  (getThreads stored boardId).find? fun r => r.threadId.strictEq threadId

/-- The new entry of a thread; none when nothing changes. The last argument is what a
new or changed entry owes its data to. -/
def merged (existing : Option ThreadMeta) (post : Post) (packetId : Val) (maxPow createdAt : Number)
    (origins : List Origin) : Option ThreadMeta :=
  match existing with
  | some t =>
    let mergedPow := Number.max t.maxPow.orZero maxPow
    let mergedAt := if t.createdAt.finitePositive then t.createdAt else createdAt
    if mergedPow.strictEq t.maxPow && mergedAt.strictEq t.createdAt then none
    else some { t with maxPow := mergedPow, createdAt := mergedAt, origins := t.origins ++ origins }
  | none => some ⟨post,packetId,maxPow,createdAt,origins⟩

/-- `mergeThread`, with whether it changed the list. -/
def mergeThread (s : State) (post : Post) (packetId : Val) (maxPow createdAt : Number)
    (origins : List Origin) : State × Bool :=
  match merged (JsMap.get s.threads post.threadId) post packetId maxPow createdAt origins with
  | some t => ({ s with threads := JsMap.set s.threads post.threadId t },true)
  | none => (s,false)

/-- The listeners are notified of a merge that changed the list. -/
def mergeAndNotify (s : State) (post : Post) (packetId : Val) (maxPow createdAt : Number)
    (origins : List Origin) : State :=
  let (s,changed) := mergeThread s post packetId maxPow createdAt origins
  if changed then notify s else s

def persistThread (s : State) (c : PacketCall) (post : Post) : State :=
  suspend { s with saves := {
    boardId := c.boardId
    threadId := boardMetaThreadId
    payload := match c.rawData with
      | some raw => .inl raw
      | none => .inr c.packet
    parents := orElse post.parents (.arr [])
    cumulativePow := orElse post.cumulativePow (.num (.fin 0))
    threadRoot := post.threadId
    createdAt := post.createdAt } :: s.saves } (.persisted c)

/-- `handlePacketObject` between the decryption and the read of the statistics. -/
def resumeDecrypted (p : Primitives) (s : State) (c : PacketCall) (env : Env) : State :=
  match verifyAndDecrypt p c.packet c.key with
  | .error _ | .ok none => settle s c
  | .ok (some post) =>
    if !post.postType.strictEq (.num (.fin 1)) then settle s c
    else match normalizeTimestamp post.createdAt env.now,basePow post with
      | .ok createdAt,.ok base => suspend s (.statsRead c post createdAt base)
      | _,_ => settle s c

/-- `handlePacketObject` after the read of the statistics. -/
def resumeStatsRead (s : State) (c : PacketCall) (post : Post) (createdAt base : Number)
    (stored : List ThreadRow) : State :=
  let row := statsOf stored c.boardId post.threadId
  let maxPow := match row with
    | some r => Number.max base r.maxPow.orZero
    | none => base
  let s := mergeAndNotify s post (c.packet.field "packet_id") maxPow createdAt
    (.packet c.packet post :: row.toList.map .row)
  if c.isFromDB then settle s c else persistThread s c post

/-- One row of the statistics; none when it changes nothing. -/
def tickRow (threads : JsMap Val ThreadMeta) (now : Number) (r : ThreadRow) :
    Option (JsMap Val ThreadMeta) :=
  match JsMap.get threads r.threadId with
  | none => none
  | some t =>
    let newPow := Number.max r.maxPow.orZero t.maxPow.orZero
    let currentCreatedAt := if t.createdAt.finitePositive then t.createdAt else .fin 0
    let dbCreatedAt := if r.createdAt.finitePositive then r.createdAt else .fin 0
    let bestCreatedAt :=
      if currentCreatedAt.finitePositive then currentCreatedAt
      else if dbCreatedAt.finitePositive then dbCreatedAt else now
    if newPow.strictEq t.maxPow && bestCreatedAt.strictEq t.createdAt then none
    else some (JsMap.set threads r.threadId
      { t with maxPow := newPow, createdAt := bestCreatedAt, origins := t.origins ++ [.row r] })

/-- The loop over the rows, with whether one of them changed the list. -/
def tickRows (now : Number) : JsMap Val ThreadMeta → List ThreadRow → JsMap Val ThreadMeta × Bool
  | threads, [] => (threads,false)
  | threads, r :: rs =>
    match tickRow threads now r with
    | some threads => ((tickRows now threads rs).1,true)
    | none => tickRows now threads rs

def resumeStatsTick (s : State) (boardId : String) (stored : List ThreadRow) (env : Env) : State :=
  let (threads,changed) := tickRows env.now s.threads (getThreads stored boardId)
  let s := { s with threads := threads }
  if changed then notify s else s

/-- The entry that lists one's own thread. -/
def submittedPost (boardId title threadId : String) (packet : Val) : Post where
  content := .str title
  createdAt := .num (packetTimestamp packet)
  boardId := .str boardId
  threadId := .str threadId
  postType := .num (.fin 1)

/-- `submitThread` after `PacketBuilder.build`. -/
def resumeBuilt (s : State) (boardId : String) (key : Bytes) (title threadId : String)
    (packet : Val) : State :=
  let savedAt := packetTimestamp packet
  let difficulty := Number.ofNat PowPolicy.networkDifficulty
  let (s,_) := mergeThread s (submittedPost boardId title threadId packet)
    (packet.field "packet_id") difficulty savedAt [.submitted boardId key packet]
  let s := notify { s with seenPacketIds := packet.field "packet_id" :: s.seenPacketIds }
  suspend { s with saves := {
    boardId := boardId
    threadId := boardMetaThreadId
    payload := .inr packet
    parents := .arr []
    cumulativePow := .num difficulty
    threadRoot := .str threadId
    createdAt := .num savedAt } :: s.saves } (.submitSaved boardId key packet)

def resume (p : Primitives) (s : State) (c : Cont) (result : Awaited) (env : Env) : Option State :=
  match c,result with
  | .decrypted c,.done => some (resumeDecrypted p s c env)
  | .statsRead c post createdAt base,.threadRows stored =>
    some (resumeStatsRead s c post createdAt base stored)
  | .statsRead c _ _ _,.failed => some (settle s c)
  | .persisted c,.done | .persisted c,.failed => some (settle s c)
  | .cacheRead boardId key,.postRows stored =>
    some (cacheLoop s boardId key env (getPosts stored boardId boardMetaThreadId))
  | .cacheRead boardId key,.failed => some (cacheLoop s boardId key env [])
  | .cacheNext boardId key rest,.done => some (cacheLoop s boardId key env rest)
  | .statsTick boardId,.threadRows stored => some (resumeStatsTick s boardId stored env)
  | .statsTick _,.failed => some s
  | .built boardId key title threadId,.packet packet =>
    some (resumeBuilt s boardId key title threadId packet)
  | .built _ _ _ _,.failed => some s
  | .submitSaved _ key packet,.done | .submitSaved _ key packet,.failed =>
    some { s with sends := (packet,key) :: s.sends }
  | .syncFinally,.done => some { s with syncInFlight := false }
  | _,_ => none

def clear (s : State) : State :=
  notify { s with
    statsTimer := none
    syncDebounce := false
    hintKeys := match s.currentBoardId with
      | some b => if b = "" then s.hintKeys else JsMap.delete s.hintKeys (hintKeyId b)
      | none => s.hintKeys
    isListening := false
    unwatchZone := none
    currentBoardId := none
    currentBoardKey := none
    threads := []
    seenPacketIds := [] }

/-- The same board under another key is another board. -/
def switchBoard (s : State) (boardId : String) (key : Bytes) : State :=
  if s.currentBoardId = some boardId ∧ s.currentBoardKey = some key then s
  else { clear s with
    currentBoardId := some boardId
    currentBoardKey := some key
    unwatchZone := some key }

def listen (s : State) (boardId : String) (key : Bytes) : State :=
  if s.isListening then s
  else { s with
    hintKeys := JsMap.set s.hintKeys (hintKeyId boardId) key
    bodyListeners := s.bodyListeners+1
    isListening := true }

/-- `activate` up to the read of the stored packets. -/
def activate (s : State) (boardId : String) (key : Bytes) : State :=
  suspend (listen (switchBoard s boardId key) boardId key) (.cacheRead boardId key)

def onGossipPacket (s : State) (packet : Val) : State :=
  match openBoard s with
  | some (b,k) => enterPacket s ⟨b,k,packet,none,none⟩
  | none => s

def onHintBody (s : State) (body : Bytes) (keyId : String) : State :=
  match openBoard s with
  | none => s
  | some (b,k) =>
    if keyId ≠ hintKeyId b then s
    else match parsePacket body with
    | .error _ => s
    | .ok packet => enterPacket s ⟨b,k,packet,some body,none⟩

def step (p : Primitives) (s : State) (a : Action) : Option State :=
  match a with
  | .activate boardId key => some (activate s boardId key)
  | .clear => some (clear s)
  | .gossip packet => some (onGossipPacket s packet)
  | .hintBody body keyId => some (onHintBody s body keyId)
  | .submitThread boardId key title threadId =>
    some (if title = "" then s else suspend s (.built boardId key title threadId))
  | .statsTimer => s.statsTimer.map fun b => suspend s (.statsTick b)
  | .peerConnect => some { s with syncDebounce := s.syncDebounce || (openBoard s).isSome }
  | .debounceFired env =>
    if s.syncDebounce then
      let s := { s with syncDebounce := false }
      some (match openBoard s with
        | some (b,_) => fullSync s b env
        | none => s)
    else none
  | .resume i result env =>
    (Machine.takeTask s.pending i).bind fun t =>
      resume p { s with pending := t.2 } t.1 result env

/-- A merge is about to write to the list, of a board that may not be open any more. -/
def Cont.isMerge : Cont → Bool
  | .statsRead _ _ _ _ => true
  | _ => false

section Steps
variable {p : Primitives} {s : State}

theorem openBoard_some {b : String} {k : Bytes} (h : openBoard s = some (b,k)) :
    s.currentBoardId = some b ∧ s.currentBoardKey = some k ∧ b ≠ "" := by
  unfold openBoard at h
  split at h
  · next b' k' hb hk =>
    obtain ⟨hne,he⟩ := Option.ite_none_left_eq_some.mp h
    cases he
    exact ⟨hb,hk,hne⟩
  · cases h

/-- The open board is the same, and so are the registrations for it. -/
structure SameBoard (s s' : State) : Prop where
  boardId : s'.currentBoardId = s.currentBoardId
  boardKey : s'.currentBoardKey = s.currentBoardKey
  listening : s'.isListening = s.isListening
  bodyListeners : s'.bodyListeners = s.bodyListeners

/-- So is the list, and no merge has been suspended. -/
structure Quiet (s s' : State) : Prop extends SameBoard s s' where
  threads : s'.threads = s.threads
  snapshot : s'.snapshot = s.snapshot
  pending : ∀ c ∈ s'.pending, c ∈ s.pending ∨ c.isMerge = false

theorem SameBoard.refl (s : State) : SameBoard s s := ⟨rfl,rfl,rfl,rfl⟩

theorem SameBoard.trans {s₁ s₂ s₃ : State} (h : SameBoard s₁ s₂) (h' : SameBoard s₂ s₃) :
    SameBoard s₁ s₃ :=
  ⟨h'.1.trans h.1,h'.2.trans h.2,h'.3.trans h.3,h'.4.trans h.4⟩

theorem SameBoard.openBoard {s s' : State} (h : SameBoard s s') : openBoard s' = openBoard s := by
  unfold BoardOrchestrator.openBoard
  rw [h.boardId,h.boardKey]

theorem Quiet.refl (s : State) : Quiet s s := ⟨.refl s,rfl,rfl,fun _ hc => .inl hc⟩

theorem Quiet.trans {s₁ s₂ s₃ : State} (h : Quiet s₁ s₂) (h' : Quiet s₂ s₃) : Quiet s₁ s₃ := by
  refine ⟨h.toSameBoard.trans h'.toSameBoard,h'.threads.trans h.threads,
    h'.snapshot.trans h.snapshot,fun c hc => ?_⟩
  rcases h'.pending c hc with hc | hc
  · exact h.pending c hc
  · exact .inr hc

theorem quiet_suspend (s : State) {c : Cont} (hc : c.isMerge = false) : Quiet s (suspend s c) := by
  refine ⟨⟨rfl,rfl,rfl,rfl⟩,rfl,rfl,fun d hd => ?_⟩
  rcases List.mem_append.mp hd with hd | hd
  · exact .inl hd
  · exact .inr (List.mem_singleton.mp hd ▸ hc)

theorem Quiet.suspend {s' : State} (h : Quiet s s') {c : Cont} (hc : c.isMerge = false) :
    Quiet s (suspend s' c) := h.trans (quiet_suspend s' hc)

theorem quiet_take {i : Nat} {c : Cont} {rest : List Cont}
    (h : Machine.takeTask s.pending i = some (c,rest)) : Quiet s { s with pending := rest } :=
  ⟨⟨rfl,rfl,rfl,rfl⟩,rfl,rfl,fun d hd => .inl ((Machine.takeTask_mem h).2 d hd)⟩

theorem quiet_settle (s : State) (c : PacketCall) : Quiet s (settle s c) := by
  unfold settle
  split
  · exact quiet_suspend s rfl
  · exact .refl s

theorem quiet_enterPacket (s : State) (c : PacketCall) : Quiet s (enterPacket s c) := by
  unfold enterPacket
  split
  · exact quiet_settle s c
  dsimp only
  split
  · exact quiet_settle s c
  · refine Quiet.suspend ?_ rfl
    exact ⟨⟨rfl,rfl,rfl,rfl⟩,rfl,rfl,fun _ hc => .inl hc⟩

theorem quiet_fullSync (s : State) (boardId : String) (env : Env) :
    Quiet s (fullSync s boardId env) := by
  unfold fullSync
  split
  · exact .refl s
  dsimp only
  split
  · refine Quiet.suspend ?_ rfl
    exact ⟨⟨rfl,rfl,rfl,rfl⟩,rfl,rfl,fun _ hc => .inl hc⟩
  · refine Quiet.suspend ?_ rfl
    exact ⟨⟨rfl,rfl,rfl,rfl⟩,rfl,rfl,fun _ hc => .inl hc⟩

theorem quiet_cacheLoop (s : State) (boardId : String) (key : Bytes) (env : Env)
    (rows : List PostRow) : Quiet s (cacheLoop s boardId key env rows) := by
  induction rows with
  | nil => exact quiet_fullSync s boardId env
  | cons row rest ih =>
    unfold cacheLoop
    split
    · exact ih
    · exact quiet_enterPacket s _

theorem quiet_persistThread (s : State) (c : PacketCall) (post : Post) :
    Quiet s (persistThread s c post) := by
  unfold persistThread
  refine Quiet.suspend ?_ rfl
  exact ⟨⟨rfl,rfl,rfl,rfl⟩,rfl,rfl,fun _ hc => .inl hc⟩

theorem quiet_onHintBody (s : State) (body : Bytes) (keyId : String) :
    Quiet s (onHintBody s body keyId) := by
  unfold onHintBody
  split
  · exact .refl s
  split
  · exact .refl s
  split
  · exact .refl s
  · exact quiet_enterPacket s _

/-- What a step can do: the list changes in four ways, and merges are suspended in one. -/
inductive Change (p : Primitives) (s : State) : Action → State → Prop where
  | quiet {a : Action} {s' : State} : Quiet s s' → Change p s a s'
  | decrypted {i : Nat} {env : Env} {c : PacketCall} {rest : List Cont} {post : Post}
      {createdAt base : Number} :
    Machine.takeTask s.pending i = some (.decrypted c,rest) →
    verifyAndDecrypt p c.packet c.key = .ok (some post) →
    post.postType.strictEq (.num (.fin 1)) = true →
    normalizeTimestamp post.createdAt env.now = .ok createdAt →
    Change p s (.resume i .done env)
      (suspend { s with pending := rest } (.statsRead c post createdAt base))
  | merged {i : Nat} {env : Env} {c : PacketCall} {rest : List Cont} {post : Post}
      {createdAt base : Number} {stored : List ThreadRow} :
    Machine.takeTask s.pending i = some (.statsRead c post createdAt base,rest) →
    Change p s (.resume i (.threadRows stored) env)
      (resumeStatsRead { s with pending := rest } c post createdAt base stored)
  | ticked {i : Nat} {env : Env} {boardId : String} {rest : List Cont}
      {stored : List ThreadRow} :
    Machine.takeTask s.pending i = some (.statsTick boardId,rest) →
    Change p s (.resume i (.threadRows stored) env)
      (resumeStatsTick { s with pending := rest } boardId stored env)
  | built {i : Nat} {env : Env} {boardId title threadId : String} {key : Bytes}
      {rest : List Cont} {packet : Val} :
    Machine.takeTask s.pending i = some (.built boardId key title threadId,rest) →
    Change p s (.resume i (.packet packet) env)
      (resumeBuilt { s with pending := rest } boardId key title threadId packet)
  | cleared : Change p s .clear (clear s)
  | activated (boardId : String) (key : Bytes) :
    Change p s (.activate boardId key) (activate s boardId key)

theorem change_decrypted {i : Nat} {env : Env} {c : PacketCall} {rest : List Cont}
    (ht : Machine.takeTask s.pending i = some (.decrypted c,rest)) :
    Change p s (.resume i .done env) (resumeDecrypted p { s with pending := rest } c env) := by
  have hsettle : Change p s (.resume i .done env) (settle { s with pending := rest } c) :=
    .quiet ((quiet_take ht).trans (quiet_settle _ c))
  unfold resumeDecrypted
  split
  · exact hsettle
  · exact hsettle
  · next post hpost =>
    split
    · exact hsettle
    next htype =>
    split
    · next createdAt base hat _ => exact .decrypted ht hpost (by simpa using htype) hat
    · exact hsettle

theorem change_resume {i : Nat} {c : Cont} {rest : List Cont} {result : Awaited} {env : Env}
    {s' : State} (ht : Machine.takeTask s.pending i = some (c,rest))
    (h : resume p { s with pending := rest } c result env = some s') :
    Change p s (.resume i result env) s' := by
  have hq := quiet_take ht
  unfold resume at h
  split at h
  · cases h
    exact change_decrypted ht
  · cases h
    exact .merged ht
  · cases h
    exact .quiet (hq.trans (quiet_settle _ _))
  · cases h
    exact .quiet (hq.trans (quiet_settle _ _))
  · cases h
    exact .quiet (hq.trans (quiet_settle _ _))
  · cases h
    exact .quiet (hq.trans (quiet_cacheLoop _ _ _ _ _))
  · cases h
    exact .quiet (hq.trans (quiet_cacheLoop _ _ _ _ _))
  · cases h
    exact .quiet (hq.trans (quiet_cacheLoop _ _ _ _ _))
  · cases h
    exact .ticked ht
  · cases h
    exact .quiet hq
  · cases h
    exact .built ht
  · cases h
    exact .quiet hq
  · cases h
    exact .quiet ⟨⟨rfl,rfl,rfl,rfl⟩,rfl,rfl,hq.pending⟩
  · cases h
    exact .quiet ⟨⟨rfl,rfl,rfl,rfl⟩,rfl,rfl,hq.pending⟩
  · cases h
    exact .quiet ⟨⟨rfl,rfl,rfl,rfl⟩,rfl,rfl,hq.pending⟩
  · cases h

theorem change_step {a : Action} {s' : State} (h : step p s a = some s') : Change p s a s' := by
  cases a with
  | activate boardId key =>
    cases h
    exact .activated boardId key
  | clear =>
    cases h
    exact .cleared
  | gossip packet =>
    cases h
    unfold onGossipPacket
    split
    · exact .quiet (quiet_enterPacket s _)
    · exact .quiet (.refl s)
  | hintBody body keyId =>
    cases h
    exact .quiet (quiet_onHintBody s body keyId)
  | submitThread boardId key title threadId =>
    cases h
    split
    · exact .quiet (.refl s)
    · exact .quiet (quiet_suspend s rfl)
  | statsTimer =>
    obtain ⟨b,-,rfl⟩ := Option.map_eq_some_iff.mp h
    exact .quiet (quiet_suspend s rfl)
  | peerConnect =>
    cases h
    exact .quiet ⟨⟨rfl,rfl,rfl,rfl⟩,rfl,rfl,fun _ hc => .inl hc⟩
  | debounceFired env =>
    simp only [step] at h
    split at h
    · cases h
      have hq : Quiet s { s with syncDebounce := false } :=
        ⟨⟨rfl,rfl,rfl,rfl⟩,rfl,rfl,fun _ hc => .inl hc⟩
      split
      · exact .quiet (hq.trans (quiet_fullSync _ _ env))
      · exact .quiet hq
    · cases h
  | resume i result env =>
    obtain ⟨⟨c,rest⟩,ht,h⟩ := Option.bind_eq_some_iff.mp h
    exact change_resume ht h

theorem sameBoard_mergeThread (s : State) (post : Post) (packetId : Val) (maxPow createdAt : Number)
    (os : List Origin) : SameBoard s (mergeThread s post packetId maxPow createdAt os).1 := by
  unfold mergeThread
  split
  · exact ⟨rfl,rfl,rfl,rfl⟩
  · exact ⟨rfl,rfl,rfl,rfl⟩

theorem sameBoard_notify (s : State) : SameBoard s (notify s) := ⟨rfl,rfl,rfl,rfl⟩

theorem sameBoard_mergeAndNotify (s : State) (post : Post) (packetId : Val)
    (maxPow createdAt : Number) (os : List Origin) :
    SameBoard s (mergeAndNotify s post packetId maxPow createdAt os) := by
  unfold mergeAndNotify
  dsimp only
  split
  · exact (sameBoard_mergeThread s post packetId maxPow createdAt os).trans ⟨rfl,rfl,rfl,rfl⟩
  · exact sameBoard_mergeThread s post packetId maxPow createdAt os

/-- After the merge the rest of `handlePacketObject` leaves the list alone. -/
theorem quiet_resumeStatsRead (s : State) (c : PacketCall) (post : Post) (createdAt base : Number)
    (stored : List ThreadRow) : ∃ maxPow, Quiet
      (mergeAndNotify s post (c.packet.field "packet_id") maxPow createdAt
        (.packet c.packet post :: (statsOf stored c.boardId post.threadId).toList.map .row))
      (resumeStatsRead s c post createdAt base stored) := by
  unfold resumeStatsRead
  dsimp only
  split
  · exact ⟨_,quiet_settle _ c⟩
  · exact ⟨_,quiet_persistThread _ c post⟩

theorem quiet_resumeBuilt (s : State) (boardId : String) (key : Bytes) (title threadId : String)
    (packet : Val) : Quiet
      (notify (mergeThread s (submittedPost boardId title threadId packet)
        (packet.field "packet_id") (Number.ofNat PowPolicy.networkDifficulty)
        (packetTimestamp packet) [.submitted boardId key packet]).1)
      (resumeBuilt s boardId key title threadId packet) := by
  refine Quiet.suspend ?_ rfl
  exact ⟨⟨rfl,rfl,rfl,rfl⟩,rfl,rfl,fun _ hc => .inl hc⟩

def Action.switches : Action → Bool
  | .activate _ _ | .clear => true
  | _ => false

/-- Only `activate` and `clear` change the open board. -/
theorem sameBoard_step {a : Action} {s' : State} (ha : a.switches = false)
    (h : step p s a = some s') : SameBoard s s' := by
  cases change_step h with
  | quiet hq => exact hq.toSameBoard
  | decrypted ht _ _ _ => exact (quiet_take ht).toSameBoard.trans ⟨rfl,rfl,rfl,rfl⟩
  | merged ht =>
    obtain ⟨_,hq⟩ := quiet_resumeStatsRead _ _ _ _ _ _
    exact ((quiet_take ht).toSameBoard.trans (sameBoard_mergeAndNotify _ _ _ _ _ _)).trans
      hq.toSameBoard
  | ticked ht =>
    unfold resumeStatsTick
    dsimp only
    split
    · exact (quiet_take ht).toSameBoard.trans ⟨rfl,rfl,rfl,rfl⟩
    · exact (quiet_take ht).toSameBoard.trans ⟨rfl,rfl,rfl,rfl⟩
  | built ht =>
    exact (((quiet_take ht).toSameBoard.trans (sameBoard_mergeThread _ _ _ _ _ _)).trans
      (sameBoard_notify _)).trans (quiet_resumeBuilt _ _ _ _ _ _).toSameBoard
  | cleared => cases ha
  | activated boardId key => cases ha

end Steps

section Unmixed
variable (p : Primitives)

/-- Whether an origin belongs to a board under a key. -/
def Origin.BelongsTo (boardId : String) (key : Bytes) : Origin → Prop
  | .packet q post => verifyAndDecrypt p q key = .ok (some post)
  | .submitted b _ _ => b = boardId
  | .row r => r.boardId = boardId

/-- The thread has an origin, and all it owes its data to belongs to the board. -/
def ThreadMeta.Own (boardId : String) (key : Bytes) (t : ThreadMeta) : Prop :=
  t.origins ≠ [] ∧ ∀ o ∈ t.origins, o.BelongsTo p boardId key

/-- All of the threads belong to the open board; there are none without one. -/
def Unmixed (s : State) (ts : List ThreadMeta) : Prop :=
  match s.currentBoardId,s.currentBoardKey with
  | some b,some k => ∀ t ∈ ts, t.Own p b k
  | none,none => ts = []
  | _,_ => False

/-- A continuation that is about to write is resumed while its own board is open. A
statistics tick of another board is harmless when none of its threads is listed. -/
def OwnBoard (s : State) (a : Action) : Prop :=
  match a with
  | .resume i (.threadRows stored) _ =>
    match s.pending[i]? with
    | some (.statsRead c _ _ _) =>
      s.currentBoardId = some c.boardId ∧ s.currentBoardKey = some c.key
    | some (.statsTick b) =>
      s.currentBoardId = some b ∨
        ∀ r ∈ getThreads stored b, JsMap.get s.threads r.threadId = none
    | _ => True
  | .resume i (.packet _) _ =>
    match s.pending[i]? with
    | some (.built b _ _ _) => s.currentBoardId = some b
    | _ => True
  | _ => True

/-- A suspended merge holds what its packet decrypted to. -/
def Cont.Sound : Cont → Prop
  | .statsRead c post _ _ => verifyAndDecrypt p c.packet c.key = .ok (some post)
  | _ => True

structure Inv (s : State) : Prop where
  threads : Unmixed p s (JsMap.values s.threads)
  snapshot : Unmixed p s s.snapshot
  pending : ∀ c ∈ s.pending, c.Sound p

end Unmixed

section Proofs
variable {p : Primitives} {s : State}

theorem Unmixed.congr {s s' : State} (h : SameBoard s s') {ts : List ThreadMeta}
    (hu : Unmixed p s ts) : Unmixed p s' ts := by
  unfold Unmixed at hu ⊢
  rw [h.boardId,h.boardKey]
  exact hu

theorem Cont.sound_of_not_merge {c : Cont} (h : c.isMerge = false) : c.Sound p := by
  cases c with
  | statsRead c post createdAt base => cases h
  | _ => trivial

theorem Inv.quiet (h : Inv p s) {s' : State} (q : Quiet s s') : Inv p s' := by
  refine ⟨?_,?_,fun c hc => ?_⟩
  · rw [q.threads]
    exact h.threads.congr q.toSameBoard
  · rw [q.snapshot]
    exact h.snapshot.congr q.toSameBoard
  · rcases q.pending c hc with hc | hc
    · exact h.pending c hc
    · exact Cont.sound_of_not_merge hc

theorem Inv.notify (h : Inv p s) : Inv p (notify s) := ⟨h.threads,h.threads,h.pending⟩

theorem Unmixed.own {ts : List ThreadMeta} {b : String} {k : Bytes} (h : Unmixed p s ts)
    (hb : s.currentBoardId = some b) (hk : s.currentBoardKey = some k) :
    ∀ t ∈ ts, t.Own p b k := by
  unfold Unmixed at h
  rw [hb,hk] at h
  exact h

theorem unmixed_of_own {ts : List ThreadMeta} {b : String} {k : Bytes}
    (hb : s.currentBoardId = some b) (hk : s.currentBoardKey = some k)
    (h : ∀ t ∈ ts, t.Own p b k) : Unmixed p s ts := by
  unfold Unmixed
  rw [hb,hk]
  exact h

/-- An open board has its key. -/
theorem Unmixed.key {ts : List ThreadMeta} {b : String} (h : Unmixed p s ts)
    (hb : s.currentBoardId = some b) : ∃ k, s.currentBoardKey = some k := by
  unfold Unmixed at h
  rw [hb] at h
  cases hk : s.currentBoardKey with
  | none => simp [hk] at h
  | some k => exact ⟨k,rfl⟩

theorem ThreadMeta.Own.append {t : ThreadMeta} {b : String} {k : Bytes} {os : List Origin}
    (h : t.Own p b k) (ho : ∀ o ∈ os, o.BelongsTo p b k) (maxPow createdAt : Number) :
    ThreadMeta.Own p b k
      { t with maxPow := maxPow, createdAt := createdAt, origins := t.origins ++ os } := by
  refine ⟨List.append_ne_nil_of_left_ne_nil h.1 os,fun o hm => ?_⟩
  rcases List.mem_append.mp hm with hm | hm
  · exact h.2 o hm
  · exact ho o hm

theorem own_merged {existing : Option ThreadMeta} {post : Post} {packetId : Val}
    {maxPow createdAt : Number} {os : List Origin} {t : ThreadMeta} {b : String} {k : Bytes}
    (h : merged existing post packetId maxPow createdAt os = some t)
    (he : ∀ e, existing = some e → e.Own p b k) (hne : os ≠ [])
    (ho : ∀ o ∈ os, o.BelongsTo p b k) : t.Own p b k := by
  unfold merged at h
  split at h
  · next e =>
    obtain ⟨-,ht⟩ := Option.ite_none_left_eq_some.mp h
    rw [← Option.some.inj ht]
    exact (he e rfl).append ho _ _
  · cases h
    exact ⟨hne,ho⟩

theorem Inv.mergeThread (h : Inv p s) {b : String} {k : Bytes} (hb : s.currentBoardId = some b)
    (hk : s.currentBoardKey = some k) {os : List Origin} (hne : os ≠ [])
    (ho : ∀ o ∈ os, o.BelongsTo p b k) (post : Post) (packetId : Val) (maxPow createdAt : Number) :
    Inv p (mergeThread s post packetId maxPow createdAt os).1 := by
  unfold BoardOrchestrator.mergeThread
  split
  · next t ht =>
    refine ⟨?_,h.snapshot,h.pending⟩
    refine unmixed_of_own (s := { s with threads := _ }) hb hk fun u hu => ?_
    rcases JsMap.mem_values_set hu with rfl | hu
    · refine own_merged ht (fun e he => ?_) hne ho
      exact h.threads.own hb hk e (JsMap.get_mem_values he)
    · exact h.threads.own hb hk u hu
  · exact h

theorem tickRows_own {threads : JsMap Val ThreadMeta} (now : Number) {rows : List ThreadRow}
    {b : String} {k : Bytes} (h : ∀ t ∈ JsMap.values threads, t.Own p b k)
    (hr : ∀ r ∈ rows, r.boardId = b) :
    ∀ t ∈ JsMap.values (tickRows now threads rows).1, t.Own p b k := by
  induction rows generalizing threads with
  | nil => exact h
  | cons r rows ih =>
    have hrows : ∀ q ∈ rows, q.boardId = b := fun q hq => hr q (List.mem_cons_of_mem r hq)
    unfold tickRows
    cases ht : tickRow threads now r with
    | none => exact ih h hrows
    | some next =>
      refine ih ?_ hrows
      unfold tickRow at ht
      cases hg : JsMap.get threads r.threadId with
      | none => simp [hg] at ht
      | some t =>
        simp only [hg] at ht
        obtain ⟨-,ht⟩ := Option.ite_none_left_eq_some.mp ht
        rw [← Option.some.inj ht]
        intro u hu
        rcases JsMap.mem_values_set hu with rfl | hu
        · refine (h t (JsMap.get_mem_values hg)).append (fun o ho => ?_) _ _
          rw [List.mem_singleton.mp ho]
          exact hr r List.mem_cons_self
        · exact h u hu

/-- Rows of threads that are not listed change nothing. -/
theorem tickRows_unlisted {threads : JsMap Val ThreadMeta} {now : Number} {rows : List ThreadRow}
    (h : ∀ r ∈ rows, JsMap.get threads r.threadId = none) :
    tickRows now threads rows = (threads,false) := by
  induction rows with
  | nil => rfl
  | cons r rows ih =>
    have hr : tickRow threads now r = none := by
      unfold tickRow
      rw [h r List.mem_cons_self]
    rw [tickRows,hr]
    exact ih fun q hq => h q (List.mem_cons_of_mem r hq)

theorem Inv.resumeStatsRead (h : Inv p s) {c : PacketCall} {post : Post} {createdAt base : Number}
    (hc : Cont.Sound p (.statsRead c post createdAt base))
    (hb : s.currentBoardId = some c.boardId) (hk : s.currentBoardKey = some c.key)
    (stored : List ThreadRow) : Inv p (resumeStatsRead s c post createdAt base stored) := by
  have ho : ∀ o ∈ Origin.packet c.packet post ::
      ((statsOf stored c.boardId post.threadId).toList.map Origin.row),
      o.BelongsTo p c.boardId c.key := by
    intro o hm
    rcases List.mem_cons.mp hm with rfl | hm
    · exact hc
    · obtain ⟨r,hr,rfl⟩ := List.mem_map.mp hm
      have hf := List.mem_of_find?_eq_some (Option.mem_toList.mp hr)
      exact getThreads_board hf
  obtain ⟨maxPow,hq⟩ := quiet_resumeStatsRead s c post createdAt base stored
  refine Inv.quiet ?_ hq
  have hm := h.mergeThread hb hk (List.cons_ne_nil _ _) ho post (c.packet.field "packet_id")
    maxPow createdAt
  unfold mergeAndNotify
  dsimp only
  split
  · exact hm.notify
  · exact hm

theorem Inv.resumeStatsTick (h : Inv p s) {boardId : String} {stored : List ThreadRow}
    (hb : s.currentBoardId = some boardId ∨
      ∀ r ∈ getThreads stored boardId, JsMap.get s.threads r.threadId = none) (env : Env) :
    Inv p (resumeStatsTick s boardId stored env) := by
  unfold BoardOrchestrator.resumeStatsTick
  dsimp only
  rcases hb with hb | hnone
  · obtain ⟨k,hk⟩ := h.threads.key hb
    have ht := tickRows_own env.now (h.threads.own hb hk)
      fun r (hr : r ∈ getThreads stored boardId) => getThreads_board hr
    have hi : Inv p { s with
        threads := (tickRows env.now s.threads (getThreads stored boardId)).1 } :=
      ⟨unmixed_of_own (s := { s with threads := _ }) hb hk ht,h.snapshot,h.pending⟩
    split
    · exact hi.notify
    · exact hi
  · rw [tickRows_unlisted hnone]
    exact h

theorem Inv.resumeBuilt (h : Inv p s) {boardId : String} (hb : s.currentBoardId = some boardId)
    (key : Bytes) (title threadId : String) (packet : Val) :
    Inv p (resumeBuilt s boardId key title threadId packet) := by
  obtain ⟨k,hk⟩ := h.threads.key hb
  refine Inv.quiet ?_ (quiet_resumeBuilt s boardId key title threadId packet)
  have ho : ∀ o ∈ [Origin.submitted boardId key packet], o.BelongsTo p boardId k := by
    intro o ho
    rw [List.mem_singleton.mp ho]
    rfl
  exact (h.mergeThread hb hk (List.cons_ne_nil _ _) ho _ _ _ _).notify

theorem inv_clear (h : Inv p s) : Inv p (clear s) := ⟨rfl,rfl,h.pending⟩

theorem Inv.activate (h : Inv p s) (boardId : String) (key : Bytes) :
    Inv p (activate s boardId key) := by
  have hswitch : Inv p (switchBoard s boardId key) := by
    unfold switchBoard
    split
    · exact h
    · refine ⟨?_,?_,h.pending⟩
      · intro t ht
        cases ht
      · intro t ht
        cases ht
  refine Inv.quiet ?_ (quiet_suspend _ rfl)
  unfold listen
  split
  · exact hswitch
  · exact ⟨hswitch.threads,hswitch.snapshot,hswitch.pending⟩

theorem inv_step (s : State) (a : Action) (s' : State) (h : Inv p s) (hG : OwnBoard s a)
    (hs : step p s a = some s') : Inv p s' := by
  cases change_step hs with
  | quiet hq => exact h.quiet hq
  | @decrypted i env c rest post createdAt base ht hpost _ _ =>
    have h' := h.quiet (quiet_take ht)
    refine ⟨h'.threads,h'.snapshot,fun d hd => ?_⟩
    rcases List.mem_append.mp hd with hd | hd
    · exact h'.pending d hd
    · rw [List.mem_singleton.mp hd]
      exact hpost
  | merged ht =>
    have hc := h.pending _ (Machine.takeTask_mem ht).1
    simp only [OwnBoard,Machine.takeTask_get ht] at hG
    exact (h.quiet (quiet_take ht)).resumeStatsRead hc hG.1 hG.2 _
  | ticked ht =>
    simp only [OwnBoard,Machine.takeTask_get ht] at hG
    exact (h.quiet (quiet_take ht)).resumeStatsTick hG _
  | built ht =>
    simp only [OwnBoard,Machine.takeTask_get ht] at hG
    exact (h.quiet (quiet_take ht)).resumeBuilt hG _ _ _ _
  | cleared => exact inv_clear h
  | activated boardId key => exact h.activate boardId key

end Proofs

/-- The board stays open while its packet is handled. -/
def handledRun : List Action := [
  .activate "A" [10],
  .gossip (samplePacket [10] "p" 1),
  .resume 1 .done {},
  .resume 1 (.threadRows []) {}]

/-- A switch of boards while a packet of the first board is being decrypted. -/
def switchedRun : List Action := [
  .activate "A" [10],
  .gossip (samplePacket [10] "p" 1),
  .activate "B" [20],
  .resume 1 .done {},
  .resume 2 (.threadRows []) {}]

end BoardOrchestrator
