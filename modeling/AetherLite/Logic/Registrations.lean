import AetherLite.Logic.BoardOrchestrator
import AetherLite.Logic.ThreadOrchestrator
import AetherLite.Network.TopicWatches
import Mathlib.Logic.Function.Basic

/-! What the two orchestrators register with the rest of the node, and what they take back. -/
set_option autoImplicit false

namespace Registrations

open Js PacketBuilder ThreadDAGManager Logic

inductive Owner where
  | board
  | thread
  deriving DecidableEq

/-- Where the orchestrators register. Each has one handler for the packets and one for the
neighbours; a zone is watched under a handle. -/
structure Hooks where
  listeners : List Owner := []
  peerConnect : List Owner := []
  zones : ZoneManager.Watches := {}
  /-- Who was given a handle. -/
  watchers : List Owner := []
  /-- The handle that the field of an orchestrator has. -/
  unwatchZone : Owner → Option Nat := fun _ => none

namespace Hooks

/-- `offMessage` and `off` remove every occurrence. -/
def off (k : Hooks) (o : Owner) : Hooks :=
  { k with
    listeners := k.listeners.filter fun h => h != o
    peerConnect := k.peerConnect.filter fun h => h != o }

/-- What `clear` takes back here, with `isListening`. -/
def clear (k : Hooks) (o : Owner) (isListening : Bool) : Hooks :=
  let k := if isListening then k.off o else k
  { k with
    zones := match k.unwatchZone o with
      | some handle => ZoneManager.release k.zones handle
      | none => k.zones
    unwatchZone := Function.update k.unwatchZone o none }

def watch (k : Hooks) (o : Owner) (topicHash : Bytes) : Hooks :=
  { k with
    zones := ZoneManager.watchTopic k.zones topicHash
    watchers := k.watchers ++ [o]
    unwatchZone := Function.update k.unwatchZone o (some k.zones.handles.length) }

/-- What `activate` registers here once, with `isListening`. -/
def listen (k : Hooks) (o : Owner) (isListening : Bool) : Hooks :=
  if isListening then k
  else { k with listeners := k.listeners ++ [o], peerConnect := k.peerConnect ++ [o] }

/-- The handles of one that are not released. -/
def watching (k : Hooks) (o : Owner) : List Nat :=
  (List.range k.watchers.length).filter fun handle =>
    k.watchers[handle]? == some o && (k.zones.handles[handle]?).any fun e => !e.2

end Hooks

/-- The orchestrators have the registrations with the hint router and the timer themselves. -/
structure Node where
  board : BoardOrchestrator.State := {}
  thread : ThreadOrchestrator.State := {}
  hooks : Hooks := {}

inductive Action where
  | board (a : BoardOrchestrator.Action)
  | thread (a : ThreadOrchestrator.Action)

section
variable (p : Primitives) (loc : JsLocale) (deriveThreadKey : Bytes → String → Bytes)
variable (cryptoHash : Bytes → Bytes)

def deriveTopicHash (key : Bytes) : Bytes := (cryptoHash key).take 32

def boardHooks (n : Node) : BoardOrchestrator.Action → Hooks
  | .activate boardId key =>
    let k := if n.board.currentBoardId = some boardId ∧ n.board.currentBoardKey = some key then
        n.hooks
      else (n.hooks.clear .board n.board.isListening).watch .board (deriveTopicHash cryptoHash key)
    k.listen .board (BoardOrchestrator.switchBoard n.board boardId key).isListening
  | .clear => n.hooks.clear .board n.board.isListening
  | _ => n.hooks

def threadHooks (n : Node) : ThreadOrchestrator.Action → Hooks
  | .activate boardId threadId boardKey =>
    let s := ThreadOrchestrator.switchThread deriveThreadKey n.thread boardId threadId boardKey
    let k := if n.thread.currentThreadId = some threadId then n.hooks
      else (n.hooks.clear .thread n.thread.isListening).watch .thread
        (deriveTopicHash cryptoHash (deriveThreadKey boardKey threadId))
    if s.currentThreadKey = none then k else k.listen .thread s.isListening
  | .clear => n.hooks.clear .thread n.thread.isListening
  | _ => n.hooks

def step (n : Node) : Action → Option Node
  | .board a => (BoardOrchestrator.step p n.board a).map fun s =>
      { n with board := s, hooks := boardHooks cryptoHash n a }
  | .thread a => (ThreadOrchestrator.step p loc deriveThreadKey n.thread a).map fun s =>
      { n with thread := s, hooks := threadHooks deriveThreadKey cryptoHash n a }

end

/-! What one orchestrator has itself. -/

/-- The continuation leads to a sync. -/
def syncsBoard : BoardOrchestrator.Cont → Bool
  | .decrypted c | .statsRead c _ _ _ | .persisted c => c.isFromDB
  | .cacheRead _ _ | .cacheNext _ _ _ => true
  | _ => false

def syncsThread : ThreadOrchestrator.Cont → Bool
  | .decrypted c | .persisted c => c.isFromDB
  | .cacheRead _ | .cacheNext _ _ => true
  | _ => false

structure Held where
  active : Bool
  listening : Bool
  bodyListeners : Nat
  hintKeys : Nat
  timers : Nat
  /-- The handlers of `peer:connect` that wait for a first neighbour, or did until the timeout. -/
  waits : Nat
  syncs : Bool

def heldBoard (s : BoardOrchestrator.State) : Held where
  active := s.currentBoardId.isSome
  listening := s.isListening
  bodyListeners := s.bodyListeners
  hintKeys := s.hintKeys.length
  timers := s.statsTimer.isSome.toNat
  waits := 0
  syncs := s.pending.any syncsBoard

def heldThread (s : ThreadOrchestrator.State) : Held where
  active := s.currentThreadId.isSome
  listening := s.isListening
  bodyListeners := s.bodyListeners
  hintKeys := s.hintKeys.length
  timers := 0
  waits := s.waiting+s.timedOut
  syncs := s.pending.any syncsThread

def Node.held (n : Node) : Owner → Held
  | .board => heldBoard n.board
  | .thread => heldThread n.thread

inductive Kind where
  | listener
  | peerConnect
  | bodyListener
  | hintKey
  | zoneWatch
  | statsTimer

def Node.registered (n : Node) (o : Owner) : Kind → Nat
  | .listener => n.hooks.listeners.count o
  | .peerConnect => n.hooks.peerConnect.count o+(n.held o).waits
  | .bodyListener => (n.held o).bodyListeners
  | .hintKey => (n.held o).hintKeys
  | .zoneWatch => (n.hooks.watching o).length
  | .statsTimer => (n.held o).timers

/-- Of each kind there is none without an active board or thread, and at most one with it. -/
def Balanced (n : Node) : Prop :=
  ∀ o kind, n.registered o kind ≤ (n.held o).active.toNat

/-! What a step does to the registrations. -/

inductive Turn where
  | keep
  | wait
  | clear
  | replace
  deriving DecidableEq

def boardTurn (s : BoardOrchestrator.State) : BoardOrchestrator.Action → Turn
  | .activate boardId key =>
    if s.currentBoardId = some boardId ∧ s.currentBoardKey = some key then .keep else .replace
  | .clear => .clear
  | _ => .keep

/-- The continuation goes through the rest of the cache and starts the first sync. -/
def startsSync (s : ThreadOrchestrator.State) (i : Nat) (result : Awaited) : Bool :=
  match s.pending[i]?,result with
  | some (.cacheRead target),.postRows stored =>
    (getPosts stored target.boardId target.threadId).all fun row =>
      throws (JsonBinary.parse row.payload)
  | some (.cacheRead _),.failed => true
  | some (.cacheNext _ rest),.done => rest.all fun row => throws (JsonBinary.parse row.payload)
  | _,_ => false

def threadTurn (s : ThreadOrchestrator.State) : ThreadOrchestrator.Action → Turn
  | .activate _ threadId _ => if s.currentThreadId = some threadId then .keep else .replace
  | .clear => .clear
  | .resume i result env => if env.degree = 0 ∧ startsSync s i result then .wait else .keep
  | _ => .keep

def Action.owner : Action → Owner
  | .board _ => .board
  | .thread _ => .thread

def Node.turn (n : Node) : Action → Turn
  | .board a => boardTurn n.board a
  | .thread a => threadTurn n.thread a

/-- What is active is neither cleared nor replaced, and no first sync starts without a
neighbour. -/
def Keeps (n : Node) (a : Action) : Prop :=
  ((n.turn a = .clear ∨ n.turn a = .replace) → (n.held a.owner).active = false) ∧
  n.turn a ≠ .wait

/-- The orchestrator has something open, or is about to sync. -/
def Held.Busy (h : Held) : Prop := h.active = true ∨ h.syncs = true

/-- The registrations are the same but for the timer, which starts in a sync. -/
structure Held.Same (h h' : Held) : Prop where
  active : h'.active = h.active
  listening : h'.listening = h.listening
  bodyListeners : h'.bodyListeners = h.bodyListeners
  hintKeys : h'.hintKeys = h.hintKeys
  timers : h'.timers = h.timers ∨ (h'.timers ≤ 1 ∧ h.Busy)
  syncs : h'.syncs = true → h.Busy

structure Held.Cleared (h h' : Held) : Prop where
  active : h'.active = false
  listening : h'.listening = false
  bodyListeners : h'.bodyListeners = h.bodyListeners
  hintKeys : h'.hintKeys ≤ h.hintKeys
  timers : h'.timers = 0
  waits : h'.waits = h.waits
  syncs : h'.syncs = h.syncs

structure Held.Replaced (h h' : Held) : Prop where
  active : h'.active = true
  listening : h'.listening = true
  bodyListeners : h'.bodyListeners = h.bodyListeners+1
  hintKeys : h'.hintKeys ≤ h.hintKeys+1
  timers : h'.timers = 0
  waits : h'.waits = h.waits

def Held.Turned (h h' : Held) : Turn → Prop
  | .keep => h.Same h' ∧ h'.waits ≤ h.waits
  | .wait => h.Same h' ∧ h'.waits = h.waits+1
  | .clear => h.Cleared h'
  | .replace => h.Replaced h'

theorem Held.Same.refl (h : Held) : h.Same h := ⟨rfl,rfl,rfl,rfl,.inl rfl,.inr⟩

theorem Held.Same.waits {h h' : Held} (hs : h.Same h') (n : Nat) : h.Same { h' with waits := n } :=
  ⟨hs.active,hs.listening,hs.bodyListeners,hs.hintKeys,hs.timers,hs.syncs⟩

theorem any_append_singleton {α : Type*} {f : α → Bool} {xs : List α} {x : α}
    (h : (xs ++ [x]).any f = true) : xs.any f = true ∨ f x = true := by simpa using h

section Board

open BoardOrchestrator

variable {p : Primitives} {s t : State} {c : Cont} {call : PacketCall}

/-- A continuation that leads to a sync is only suspended by one that did. -/
theorem same_suspend (h : (heldBoard s).Same (heldBoard t))
    (hc : syncsBoard c = true → (heldBoard s).Busy) :
    (heldBoard s).Same (heldBoard (suspend t c)) where
  active := h.active
  listening := h.listening
  bodyListeners := h.bodyListeners
  hintKeys := h.hintKeys
  timers := h.timers
  syncs hs := by
    obtain hs | hs := any_append_singleton hs
    · exact h.syncs hs
    · exact hc hs

theorem same_settle (h : (heldBoard s).Same (heldBoard t))
    (hc : call.isFromDB = true → (heldBoard s).Busy) :
    (heldBoard s).Same (heldBoard (settle t call)) := by
  unfold settle
  split
  · next rest hrest => exact same_suspend h fun _ => hc (by simp [PacketCall.isFromDB,hrest])
  · exact h

theorem same_enterPacket (h : (heldBoard s).Same (heldBoard t))
    (hc : call.isFromDB = true → (heldBoard s).Busy) :
    (heldBoard s).Same (heldBoard (enterPacket t call)) := by
  unfold enterPacket
  dsimp only
  split
  · exact same_settle h hc
  · split
    · exact same_settle h hc
    · exact same_suspend (t := { t with
        seenPacketIds := call.packet.field "packet_id" :: t.seenPacketIds }) h hc

/-- A sync starts the timer, whatever is open. -/
theorem same_fullSync (h : (heldBoard s).Same (heldBoard t)) (hb : (heldBoard s).Busy)
    (boardId : String) (env : Env) : (heldBoard s).Same (heldBoard (fullSync t boardId env)) := by
  have hstart : (heldBoard s).Same (heldBoard (startStatsSync t boardId)) := {
    active := h.active
    listening := h.listening
    bodyListeners := h.bodyListeners
    hintKeys := h.hintKeys
    timers := .inr ⟨Nat.le_refl 1,hb⟩
    syncs := h.syncs }
  unfold fullSync
  dsimp only
  split
  · exact h
  · split
    · exact same_suspend (t := { t with syncInFlight := true }) h fun _ => hb
    · exact same_suspend (t := { startStatsSync t boardId with syncInFlight := true }) hstart
        fun _ => hb

theorem same_cacheLoop (h : (heldBoard s).Same (heldBoard t)) (hb : (heldBoard s).Busy)
    (boardId : String) (key : Bytes) (env : Env) (rows : List PostRow) :
    (heldBoard s).Same (heldBoard (cacheLoop t boardId key env rows)) := by
  induction rows with
  | nil => exact same_fullSync h hb boardId env
  | cons row rest ih =>
    unfold cacheLoop
    split
    · exact ih
    · exact same_enterPacket h fun _ => hb

theorem same_mergeThread (h : (heldBoard s).Same (heldBoard t)) (post : Post) (packetId : Val)
    (maxPow createdAt : Number) (origins : List Origin) :
    (heldBoard s).Same (heldBoard (mergeThread t post packetId maxPow createdAt origins).1) := by
  unfold mergeThread
  split
  · exact h
  · exact h

theorem same_mergeAndNotify (h : (heldBoard s).Same (heldBoard t)) (post : Post) (packetId : Val)
    (maxPow createdAt : Number) (origins : List Origin) :
    (heldBoard s).Same (heldBoard (mergeAndNotify t post packetId maxPow createdAt origins)) := by
  have hmerge := same_mergeThread h post packetId maxPow createdAt origins
  unfold mergeAndNotify
  dsimp only
  split
  · exact hmerge
  · exact hmerge

theorem same_resumeDecrypted (h : (heldBoard s).Same (heldBoard t))
    (hc : call.isFromDB = true → (heldBoard s).Busy) (env : Env) :
    (heldBoard s).Same (heldBoard (resumeDecrypted p t call env)) := by
  unfold resumeDecrypted
  split
  · exact same_settle h hc
  · exact same_settle h hc
  · split
    · exact same_settle h hc
    · split
      · exact same_suspend h hc
      · exact same_settle h hc

theorem same_resumeStatsRead (h : (heldBoard s).Same (heldBoard t))
    (hc : call.isFromDB = true → (heldBoard s).Busy) (post : Post) (createdAt base : Number)
    (stored : List ThreadRow) :
    (heldBoard s).Same (heldBoard (resumeStatsRead t call post createdAt base stored)) := by
  unfold resumeStatsRead
  dsimp only
  split
  · exact same_settle (same_mergeAndNotify h _ _ _ _ _) hc
  · exact same_suspend (same_mergeAndNotify h _ _ _ _ _) hc

theorem same_resumeBuilt (h : (heldBoard s).Same (heldBoard t)) (boardId : String) (key : Bytes)
    (title threadId : String) (packet : Val) :
    (heldBoard s).Same (heldBoard (resumeBuilt t boardId key title threadId packet)) := by
  unfold resumeBuilt
  dsimp only
  apply same_suspend
  · exact same_mergeThread h _ _ _ _ _
  · intro hc
    cases hc

theorem same_resume {i : Nat} {rest : List Cont} {result : Awaited} {env : Env}
    (ht : Machine.takeTask s.pending i = some (c,rest))
    (h : resume p { s with pending := rest } c result env = some t) :
    (heldBoard s).Same (heldBoard t) := by
  obtain ⟨hmem,hrest⟩ := Machine.takeTask_mem ht
  have hbusy : syncsBoard c = true → (heldBoard s).Busy :=
    fun hc => .inr (List.any_eq_true.mpr ⟨c,hmem,hc⟩)
  have htake : (heldBoard s).Same (heldBoard { s with pending := rest }) := {
    active := rfl
    listening := rfl
    bodyListeners := rfl
    hintKeys := rfl
    timers := .inl rfl
    syncs := by
      intro hs
      obtain ⟨d,hd,hsyncs⟩ := List.any_eq_true.mp hs
      exact .inr (List.any_eq_true.mpr ⟨d,hrest d hd,hsyncs⟩) }
  unfold resume at h
  split at h
  · cases h
    exact same_resumeDecrypted htake hbusy env
  · cases h
    exact same_resumeStatsRead htake hbusy _ _ _ _
  · cases h
    exact same_settle htake hbusy
  · cases h
    exact same_settle htake hbusy
  · cases h
    exact same_settle htake hbusy
  · cases h
    exact same_cacheLoop htake (hbusy rfl) _ _ _ _
  · cases h
    exact same_cacheLoop htake (hbusy rfl) _ _ _ _
  · cases h
    exact same_cacheLoop htake (hbusy rfl) _ _ _ _
  · cases h
    unfold resumeStatsTick
    dsimp only
    split
    · exact htake
    · exact htake
  · cases h
    exact htake
  · cases h
    exact same_resumeBuilt htake _ _ _ _ _
  · cases h
    exact htake
  · cases h
    exact htake
  · cases h
    exact htake
  · cases h
    exact htake
  · cases h

theorem cleared_board (s : State) : (heldBoard s).Cleared (heldBoard (BoardOrchestrator.clear s)) where
  active := rfl
  listening := rfl
  bodyListeners := rfl
  hintKeys := by
    simp only [heldBoard,BoardOrchestrator.clear,notify]
    split
    · split
      · exact Nat.le_refl _
      · exact (JsMap.delete_sublist _ _).length_le
    · exact Nat.le_refl _
  timers := rfl
  waits := rfl
  syncs := rfl

theorem activate_board (hl : s.isListening = s.currentBoardId.isSome) (boardId : String)
    (key : Bytes) : (heldBoard s).Turned (heldBoard (activate s boardId key))
      (boardTurn s (.activate boardId key)) := by
  unfold activate switchBoard
  by_cases hsame : s.currentBoardId = some boardId ∧ s.currentBoardKey = some key
  · have hturn : boardTurn s (.activate boardId key) = .keep := if_pos hsame
    have hactive : s.isListening = true := by rw [hl,hsame.1]; rfl
    rw [hturn,if_pos hsame,BoardOrchestrator.listen,if_pos hactive]
    refine ⟨same_suspend (.refl _) fun _ => .inl ?_,Nat.le_refl _⟩
    simp [heldBoard,hsame.1]
  · have hturn : boardTurn s (.activate boardId key) = .replace := if_neg hsame
    have hclear := cleared_board s
    rw [hturn,if_neg hsame,BoardOrchestrator.listen,if_neg (by simp [BoardOrchestrator.clear,notify])]
    constructor
    · rfl
    · rfl
    · exact congrArg (·+1) hclear.bodyListeners
    · have hlength := JsMap.length_set (BoardOrchestrator.clear s).hintKeys (hintKeyId boardId) key
      have hle := hclear.hintKeys
      simp only [heldBoard,suspend] at hle ⊢
      split at hlength
      · omega
      · omega
    · rfl
    · rfl

/-- What a step does is what its turn says. -/
theorem turned_board {a : BoardOrchestrator.Action} (hl : s.isListening = s.currentBoardId.isSome)
    (h : BoardOrchestrator.step p s a = some t) :
    (heldBoard s).Turned (heldBoard t) (boardTurn s a) := by
  have hkeep : (heldBoard s).Same (heldBoard t) → (heldBoard s).Turned (heldBoard t) .keep :=
    fun hsame => ⟨hsame,Nat.le_refl _⟩
  cases a with
  | activate boardId key =>
    cases h
    exact activate_board hl boardId key
  | clear =>
    cases h
    exact cleared_board s
  | gossip packet =>
    cases h
    apply hkeep
    unfold onGossipPacket
    split
    · exact same_enterPacket (.refl _) fun hc => by cases hc
    · exact .refl _
  | hintBody body keyId =>
    cases h
    apply hkeep
    unfold onHintBody
    split
    · exact .refl _
    · split
      · exact .refl _
      · split
        · exact .refl _
        · exact same_enterPacket (.refl _) fun hc => by cases hc
  | submitThread boardId key title threadId =>
    cases h
    apply hkeep
    split
    · exact .refl _
    · exact same_suspend (.refl _) fun hc => by cases hc
  | statsTimer =>
    obtain ⟨b,-,rfl⟩ := Option.map_eq_some_iff.mp h
    exact hkeep (same_suspend (.refl _) fun hc => by cases hc)
  | peerConnect =>
    cases h
    exact hkeep (.refl _)
  | debounceFired env =>
    simp only [BoardOrchestrator.step] at h
    split at h
    · cases h
      apply hkeep
      split
      · next b k hopen =>
        refine same_fullSync (t := { s with syncDebounce := false }) (.refl _) (.inl ?_) b env
        have hb : s.currentBoardId = some b := (openBoard_some hopen).1
        simp [heldBoard,hb]
      · exact .refl _
    · cases h
  | resume i result env =>
    obtain ⟨⟨c,rest⟩,ht,h⟩ := Option.bind_eq_some_iff.mp h
    exact hkeep (same_resume ht h)

end Board

/-- Nor does the number of waiting handlers change. -/
def Held.Still (h h' : Held) : Prop := h.Same h' ∧ h'.waits = h.waits

section Thread

open ThreadOrchestrator

variable {p : Primitives} {loc : JsLocale} {deriveThreadKey : Bytes → String → Bytes}
variable {s t : State} {c : Cont} {call : PacketCall} {target : Target}

theorem still_suspend (h : (heldThread s).Still (heldThread t))
    (hc : syncsThread c = true → (heldThread s).Busy) :
    (heldThread s).Still (heldThread (suspend t c)) where
  left := {
    active := h.1.active
    listening := h.1.listening
    bodyListeners := h.1.bodyListeners
    hintKeys := h.1.hintKeys
    timers := h.1.timers
    syncs := by
      intro hs
      obtain hs | hs := any_append_singleton hs
      · exact h.1.syncs hs
      · exact hc hs }
  right := h.2

theorem still_settle (h : (heldThread s).Still (heldThread t))
    (hc : call.isFromDB = true → (heldThread s).Busy) :
    (heldThread s).Still (heldThread (settle t call)) := by
  unfold settle
  split
  · next rest hrest => exact still_suspend h fun _ => hc (by simp [PacketCall.isFromDB,hrest])
  · exact h

theorem still_enterPacket (h : (heldThread s).Still (heldThread t))
    (hc : call.isFromDB = true → (heldThread s).Busy) :
    (heldThread s).Still (heldThread (enterPacket t call)) := by
  unfold enterPacket
  dsimp only
  split
  · exact still_settle h hc
  · split
    · exact still_settle h hc
    · exact still_suspend (t := { t with
        seenPacketIds := call.packet.field "packet_id" :: t.seenPacketIds }) h hc

/-- At the end of the rows a handler waits if there is no neighbour. -/
theorem turned_cacheLoop (h : (heldThread s).Still (heldThread t)) (hb : (heldThread s).Busy)
    (target : Target) (env : Env) (rows : List PostRow) :
    (heldThread s).Turned (heldThread (cacheLoop t target env rows))
      (if env.degree = 0 ∧ rows.all (fun row => throws (JsonBinary.parse row.payload)) = true then
        .wait else .keep) := by
  induction rows with
  | nil =>
    unfold cacheLoop triggerInitialSync
    by_cases hdegree : env.degree = 0
    · have hwaits : t.waiting+1+t.timedOut = (heldThread s).waits+1 := by
        rw [← h.2]
        exact Nat.add_right_comm t.waiting 1 t.timedOut
      simp only [hdegree,List.all_nil,and_self,if_true]
      exact ⟨h.1.waits _,hwaits⟩
    · rw [if_neg hdegree,if_neg fun hand => hdegree hand.1]
      exact ⟨h.1,Nat.le_of_eq h.2⟩
  | cons row rest ih =>
    unfold cacheLoop
    split
    · next e he =>
      simp only [List.all_cons,he,throws,Bool.true_and]
      exact ih
    · next packet hp =>
      rw [if_neg (by simp [hp,throws])]
      have hstill : (heldThread s).Still
          (heldThread (enterPacket t ⟨target,packet,some rest⟩)) := still_enterPacket h fun _ => hb
      exact ⟨hstill.1,Nat.le_of_eq hstill.2⟩

theorem still_notify {t' : State} (h : (heldThread s).Still (heldThread t))
    (hn : notify loc t = some t') : (heldThread s).Still (heldThread t') := by
  unfold notify at hn
  split at hn
  · cases hn
    exact h
  · cases hn

theorem still_sendAnonymously (h : (heldThread s).Still (heldThread t)) (target : Target) :
    (heldThread s).Still (heldThread (sendAnonymously t target)) := by
  unfold sendAnonymously
  split
  · exact h
  · exact h

theorem still_resumeDecrypted (h : (heldThread s).Still (heldThread t))
    (hc : call.isFromDB = true → (heldThread s).Busy) :
    (heldThread s).Still (heldThread (resumeDecrypted p loc t call)) := by
  unfold resumeDecrypted
  split
  · exact still_settle h hc
  · exact still_settle h hc
  · next post hpost =>
    split
    · exact still_settle h hc
    · dsimp only
      split
      · exact still_settle h hc
      · next dag hdag =>
        have hadded : (heldThread s).Still (heldThread { t with dag := dag }) := h
        split
        · exact still_settle hadded hc
        · next t' hnotify =>
          have hshown := still_notify hadded hnotify
          split
          · exact still_settle hshown hc
          · exact still_suspend (t := { t' with saves := (.packet call.packet post,
              saveOf call.target.boardId call.target.threadId call.packet
                (dagPostOf call post).post) :: t'.saves }) hshown hc

theorem still_resumeBuilt (h : (heldThread s).Still (heldThread t)) (text : String)
    (tips : List Val) (nextWeight packet : Val) :
    (heldThread s).Still (heldThread (resumeBuilt loc t target text tips nextWeight packet)) := by
  unfold resumeBuilt
  dsimp only
  split
  · exact still_sendAnonymously h target
  · next dag hdag =>
    split
    · exact h
    · next t' hnotify =>
      have hadded : (heldThread s).Still (heldThread { t with
          dag := dag, seenPacketIds := packet.field "packet_id" :: t.seenPacketIds }) := h
      have hshown := still_notify hadded hnotify
      apply still_suspend
      · exact hshown
      · intro hc
        cases hc

theorem turned_resume {i : Nat} {rest : List Cont} {result : Awaited} {env : Env}
    (ht : Machine.takeTask s.pending i = some (c,rest))
    (h : resume p loc { s with pending := rest } c result env = some t) :
    (heldThread s).Turned (heldThread t) (threadTurn s (.resume i result env)) := by
  obtain ⟨hmem,hrest⟩ := Machine.takeTask_mem ht
  have hget := Machine.takeTask_get ht
  have hbusy : syncsThread c = true → (heldThread s).Busy :=
    fun hc => .inr (List.any_eq_true.mpr ⟨c,hmem,hc⟩)
  have htake : (heldThread s).Still (heldThread { s with pending := rest }) := {
    left := {
      active := rfl
      listening := rfl
      bodyListeners := rfl
      hintKeys := rfl
      timers := .inl rfl
      syncs := by
        intro hs
        obtain ⟨d,hd,hsyncs⟩ := List.any_eq_true.mp hs
        exact .inr (List.any_eq_true.mpr ⟨d,hrest d hd,hsyncs⟩) }
    right := rfl }
  have hkeep : (heldThread s).Still (heldThread t) → startsSync s i result = false →
      (heldThread s).Turned (heldThread t) (threadTurn s (.resume i result env)) := by
    intro hstill hno
    have hturn : threadTurn s (.resume i result env) = .keep := if_neg (by simp [hno])
    rw [hturn]
    exact ⟨hstill.1,Nat.le_of_eq hstill.2⟩
  unfold resume at h
  split at h
  · cases h
    exact hkeep (still_resumeDecrypted htake hbusy) (by simp [startsSync,hget])
  · cases h
    exact hkeep (still_settle htake hbusy) (by simp [startsSync,hget])
  · cases h
    exact hkeep (still_settle htake hbusy) (by simp [startsSync,hget])
  · next target stored =>
    cases h
    have hloop := turned_cacheLoop htake (hbusy rfl) target env
      (getPosts stored target.boardId target.threadId)
    simpa only [threadTurn,startsSync,hget] using hloop
  · next target =>
    cases h
    have hloop := turned_cacheLoop htake (hbusy rfl) target env []
    simpa only [threadTurn,startsSync,hget,List.all_nil] using hloop
  · next target rows =>
    cases h
    have hloop := turned_cacheLoop htake (hbusy rfl) target env rows
    simpa only [threadTurn,startsSync,hget] using hloop
  · cases h
    exact hkeep (still_resumeBuilt htake _ _ _ _) (by simp [startsSync,hget])
  · cases h
    exact hkeep htake (by simp [startsSync,hget])
  · cases h
    exact hkeep (still_sendAnonymously htake _) (by simp [startsSync,hget])
  · cases h
    exact hkeep (still_sendAnonymously htake _) (by simp [startsSync,hget])
  · cases h

theorem cleared_thread (s : State) : (heldThread s).Cleared (heldThread (ThreadOrchestrator.clear s)) where
  active := rfl
  listening := rfl
  bodyListeners := rfl
  hintKeys := by
    simp only [heldThread,ThreadOrchestrator.clear]
    split
    · split
      · exact Nat.le_refl _
      · exact (JsMap.delete_sublist _ _).length_le
    · exact Nat.le_refl _
  timers := rfl
  waits := rfl
  syncs := rfl

theorem activate_thread (hl : s.isListening = s.currentThreadId.isSome) (boardId threadId : String)
    (boardKey : Bytes) :
    (heldThread s).Turned (heldThread (activate deriveThreadKey s boardId threadId boardKey))
      (threadTurn s (.activate boardId threadId boardKey)) := by
  unfold activate switchThread
  by_cases hsame : s.currentThreadId = some threadId
  · have hturn : threadTurn s (.activate boardId threadId boardKey) = .keep := if_pos hsame
    have hactive : s.isListening = true := by rw [hl,hsame]; rfl
    rw [hturn,if_pos hsame]
    dsimp only
    split
    · exact ⟨.refl _,Nat.le_refl _⟩
    · next key hkey =>
      rw [ThreadOrchestrator.listen,if_pos hactive]
      have hstill := still_suspend (s := s) (c := .cacheRead ⟨boardId,threadId,key⟩)
        (t := { s with requested := some (boardId,threadId,boardKey) }) ⟨.refl _,rfl⟩
        (fun _ => .inl (by simp [heldThread,hsame]))
      exact ⟨hstill.1,Nat.le_of_eq hstill.2⟩
  · have hturn : threadTurn s (.activate boardId threadId boardKey) = .replace := if_neg hsame
    have hclear := cleared_thread s
    rw [hturn,if_neg hsame]
    dsimp only
    rw [ThreadOrchestrator.listen,if_neg (by simp [ThreadOrchestrator.clear])]
    constructor
    · rfl
    · rfl
    · exact congrArg (·+1) hclear.bodyListeners
    · have hlength := JsMap.length_set (ThreadOrchestrator.clear s).hintKeys (hintKeyId threadId)
        (deriveThreadKey boardKey threadId)
      have hle := hclear.hintKeys
      simp only [heldThread,suspend] at hle ⊢
      split at hlength
      · omega
      · omega
    · rfl
    · rfl

theorem turned_thread {a : ThreadOrchestrator.Action}
    (hl : s.isListening = s.currentThreadId.isSome)
    (h : ThreadOrchestrator.step p loc deriveThreadKey s a = some t) :
    (heldThread s).Turned (heldThread t) (threadTurn s a) := by
  have hkeep : (heldThread s).Still (heldThread t) → (heldThread s).Turned (heldThread t) .keep :=
    fun hstill => ⟨hstill.1,Nat.le_of_eq hstill.2⟩
  have hrefl : (heldThread s).Still (heldThread s) := ⟨.refl _,rfl⟩
  cases a with
  | activate boardId threadId boardKey =>
    cases h
    exact activate_thread hl boardId threadId boardKey
  | clear =>
    cases h
    exact cleared_thread s
  | gossip packet =>
    cases h
    apply hkeep
    unfold onGossipPacket
    split
    · exact still_enterPacket hrefl fun hc => by cases hc
    · exact hrefl
  | hintBody body keyId =>
    cases h
    apply hkeep
    unfold onHintBody
    split
    · exact hrefl
    · split
      · exact hrefl
      · split
        · exact hrefl
        · exact still_enterPacket hrefl fun hc => by cases hc
  | submitReply text =>
    cases h
    apply hkeep
    unfold submitReply
    split
    · exact hrefl
    · split
      · exact hrefl
      · dsimp only
        split
        · exact still_suspend hrefl fun hc => by cases hc
        · exact hrefl
  | peerConnect =>
    cases h
    refine ⟨(Held.Same.refl _).waits _,?_⟩
    simp only [heldThread]
    omega
  | waitTimeout =>
    simp only [ThreadOrchestrator.step] at h
    split at h
    · cases h
      refine ⟨(Held.Same.refl _).waits _,?_⟩
      simp only [heldThread]
      omega
    · cases h
  | resume i result env =>
    obtain ⟨⟨c,rest⟩,ht,h⟩ := Option.bind_eq_some_iff.mp h
    exact turned_resume ht h

end Thread

section Hooks

variable {k : Hooks} {active : Owner → Bool} {o : Owner}

/-- The registrations of an orchestrator are there while it has something open. -/
structure Hooks.Matches (k : Hooks) (active : Owner → Bool) : Prop where
  listeners : ∀ o, k.listeners.count o = (active o).toNat
  peerConnect : ∀ o, k.peerConnect.count o = (active o).toNat
  unwatch : ∀ o, (k.unwatchZone o).isSome = active o
  length : k.watchers.length = k.zones.handles.length
  watched : ∀ handle key o, k.zones.handles[handle]? = some (key,false) →
    k.watchers[handle]? = some o → k.unwatchZone o = some handle

/-- One orchestrator takes back its own. -/
theorem count_off {hs : List Owner} (h : ∀ o, hs.count o = (active o).toNat) (o : Owner) (o' : Owner) :
    (if active o then hs.filter fun h => h != o else hs).count o' =
      (Function.update active o false o').toNat := by
  by_cases ho : o' = o
  · subst ho
    rw [Function.update_self]
    cases hactive : active o' with
    | false => simpa [hactive] using h o'
    | true => simp [List.count_eq_zero,List.mem_filter]
  · rw [Function.update_of_ne ho]
    split
    · rw [List.count_filter (by simpa using ho),h]
    · exact h o'

theorem count_listen {hs : List Owner} (h : ∀ o, hs.count o = (active o).toNat)
    (ho : active o = false) (o' : Owner) :
    (hs ++ [o]).count o' = (Function.update active o true o').toNat := by
  rw [List.count_append,h]
  by_cases he : o' = o
  · subst he
    simp [ho]
  · simp [Function.update_of_ne he,Ne.symm he]

/-- The handle of the field, if any, is released. -/
def Hooks.released (k : Hooks) (o : Owner) : ZoneManager.Watches :=
  match k.unwatchZone o with
  | some handle => ZoneManager.release k.zones handle
  | none => k.zones

theorem length_released (k : Hooks) (o : Owner) :
    (k.released o).handles.length = k.zones.handles.length := by
  unfold Hooks.released
  split
  · next handle hhandle => exact ZoneManager.length_handles k.zones [.release handle]
  · rfl

theorem released_before {handle : Nat} {key : String}
    (h : (k.released o).handles[handle]? = some (key,false)) :
    k.zones.handles[handle]? = some (key,false) ∧ k.unwatchZone o ≠ some handle := by
  unfold Hooks.released at h
  split at h
  · next handle' hhandle =>
    obtain ⟨hold,hne⟩ | ⟨topic,htopic,-⟩ :=
      ZoneManager.handle_before (c := .release handle') h
    · refine ⟨hold,?_⟩
      rw [hhandle]
      intro he
      exact hne (congrArg _ (Option.some.inj he))
    · cases htopic
  · next hnone => exact ⟨h,by simp [hnone]⟩

theorem Hooks.Matches.clear (h : k.Matches active) (o : Owner) :
    (k.clear o (active o)).Matches (Function.update active o false) := by
  have hzones : (k.clear o (active o)).zones = k.released o := by
    cases hactive : active o <;> rfl
  have hwatchers : (k.clear o (active o)).watchers = k.watchers := by
    cases hactive : active o <;> rfl
  have hunwatch : (k.clear o (active o)).unwatchZone = Function.update k.unwatchZone o none := by
    cases hactive : active o <;> rfl
  have hlisteners : (k.clear o (active o)).listeners =
      if active o then k.listeners.filter (fun h => h != o) else k.listeners := by
    cases hactive : active o <;> rfl
  have hpeers : (k.clear o (active o)).peerConnect =
      if active o then k.peerConnect.filter (fun h => h != o) else k.peerConnect := by
    cases hactive : active o <;> rfl
  constructor
  · intro o'
    rw [hlisteners]
    exact count_off h.listeners o o'
  · intro o'
    rw [hpeers]
    exact count_off h.peerConnect o o'
  · intro o'
    rw [hunwatch]
    by_cases ho : o' = o
    · subst ho
      simp
    · rw [Function.update_of_ne ho,Function.update_of_ne ho,h.unwatch]
  · rw [hwatchers,hzones,length_released,h.length]
  · intro handle key o' hhandle howner
    rw [hzones] at hhandle
    rw [hwatchers] at howner
    obtain ⟨hold,hne⟩ := released_before hhandle
    have hfield := h.watched handle key o' hold howner
    have ho : o' ≠ o := by
      intro he
      exact hne (he ▸ hfield)
    rw [hunwatch,Function.update_of_ne ho,hfield]

theorem Hooks.Matches.open (h : k.Matches active) (ho : active o = false) (topicHash : Bytes) :
    ((k.watch o topicHash).listen o false).Matches (Function.update active o true) := by
  have hunwatch : ((k.watch o topicHash).listen o false).unwatchZone =
      Function.update k.unwatchZone o (some k.zones.handles.length) := rfl
  have hnone : k.unwatchZone o = none := by
    have hfield := h.unwatch o
    rw [ho] at hfield
    simpa using hfield
  constructor
  · exact count_listen h.listeners ho
  · exact count_listen h.peerConnect ho
  · intro o'
    rw [hunwatch]
    by_cases he : o' = o
    · subst he
      simp
    · rw [Function.update_of_ne he,Function.update_of_ne he,h.unwatch]
  · simp [Hooks.listen,Hooks.watch,ZoneManager.watchTopic,h.length]
  · intro handle key o' hhandle howner
    rw [hunwatch]
    obtain ⟨hold,-⟩ | ⟨topic,-,rfl,-⟩ :=
      ZoneManager.handle_before (s := k.zones) (c := .watchTopic topicHash) hhandle
    · obtain ⟨hlt,-⟩ := List.getElem?_eq_some_iff.mp hold
      have hbefore : k.watchers[handle]? = some o' := by
        rw [← howner]
        exact (List.getElem?_append_left (h.length ▸ hlt)).symm
      have hfield := h.watched handle key o' hold hbefore
      have hne : o' ≠ o := by
        intro he
        rw [he,hnone] at hfield
        cases hfield
      rw [Function.update_of_ne hne,hfield]
    · have hnew : (k.watchers ++ [o])[k.zones.handles.length]? = some o' := howner
      rw [← h.length,List.getElem?_concat_length] at hnew
      cases hnew
      exact Function.update_self _ _ _

/-- The handles that are not released are those of the field. -/
theorem Hooks.Matches.watching (h : k.Matches active) (o : Owner) :
    (k.watching o).length ≤ (active o).toNat := by
  have hfield : ∀ handle ∈ k.watching o, k.unwatchZone o = some handle := by
    intro handle hmem
    simp only [Hooks.watching,List.mem_filter,Bool.and_eq_true,beq_iff_eq,Option.any_eq_true] at hmem
    obtain ⟨-,howner,e,he,hreleased⟩ := hmem
    have hfalse : e.2 = false := by simpa using hreleased
    have hlive : k.zones.handles[handle]? = some (e.1,false) := by rw [he,← hfalse]
    exact h.watched handle e.1 o hlive howner
  have hnodup : (k.watching o).Nodup := List.nodup_range.filter _
  have hactive := h.unwatch o
  cases hw : k.watching o with
  | nil => exact Nat.zero_le _
  | cons handle rest =>
    have hfirst := hfield handle (by simp [hw])
    rw [hfirst] at hactive
    have hrest : rest = [] := by
      rw [List.eq_nil_iff_forall_not_mem]
      intro handle' hmem
      have hsecond := hfield handle' (by simp [hw,hmem])
      rw [hfirst] at hsecond
      rw [hw,List.nodup_cons] at hnodup
      exact hnodup.1 (Option.some.inj hsecond ▸ hmem)
    simp [hrest,← hactive]

end Hooks

section

variable {p : Primitives} {loc : JsLocale} {deriveThreadKey : Bytes → String → Bytes}
variable {cryptoHash : Bytes → Bytes} {n n' : Node} {a : Action}

/-- An orchestrator listens as long as it has something open. -/
structure Hooked (n : Node) : Prop where
  listening : ∀ o, (n.held o).listening = (n.held o).active
  hooks : n.hooks.Matches fun o => (n.held o).active

def Hooks.Turned (k k' : Hooks) (o : Owner) (active : Bool) : Turn → Prop
  | .keep | .wait => k' = k
  | .clear => k' = k.clear o active
  | .replace => ∃ topicHash, k' = ((k.clear o active).watch o topicHash).listen o false

theorem turned_boardHooks (h : Hooked n) (a : BoardOrchestrator.Action) :
    n.hooks.Turned (boardHooks cryptoHash n a) .board (n.held .board).active
      (boardTurn n.board a) := by
  have hl : n.board.isListening = n.board.currentBoardId.isSome := h.listening .board
  cases a with
  | activate boardId key =>
    unfold boardHooks BoardOrchestrator.switchBoard
    dsimp only
    by_cases hsame : n.board.currentBoardId = some boardId ∧ n.board.currentBoardKey = some key
    · have hturn : boardTurn n.board (.activate boardId key) = .keep := if_pos hsame
      have hactive : n.board.isListening = true := by rw [hl,hsame.1]; rfl
      rw [hturn,if_pos hsame,if_pos hsame,hactive]
      rfl
    · have hturn : boardTurn n.board (.activate boardId key) = .replace := if_neg hsame
      rw [hturn,if_neg hsame,if_neg hsame,hl]
      exact ⟨_,rfl⟩
  | clear => exact congrArg (n.hooks.clear .board) hl
  | gossip packet => rfl
  | hintBody body keyId => rfl
  | submitThread boardId key title threadId => rfl
  | statsTimer => rfl
  | peerConnect => rfl
  | debounceFired env => rfl
  | resume i result env => rfl

theorem turned_threadHooks (h : Hooked n) (a : ThreadOrchestrator.Action) :
    n.hooks.Turned (threadHooks deriveThreadKey cryptoHash n a) .thread (n.held .thread).active
      (threadTurn n.thread a) := by
  have hl : n.thread.isListening = n.thread.currentThreadId.isSome := h.listening .thread
  cases a with
  | activate boardId threadId boardKey =>
    unfold threadHooks ThreadOrchestrator.switchThread
    dsimp only
    by_cases hsame : n.thread.currentThreadId = some threadId
    · have hturn : threadTurn n.thread (.activate boardId threadId boardKey) = .keep :=
        if_pos hsame
      have hactive : n.thread.isListening = true := by rw [hl,hsame]; rfl
      rw [hturn,if_pos hsame,if_pos hsame,hactive]
      exact ite_self _
    · have hturn : threadTurn n.thread (.activate boardId threadId boardKey) = .replace :=
        if_neg hsame
      rw [hturn,if_neg hsame,if_neg hsame,hl]
      exact ⟨_,rfl⟩
  | clear => exact congrArg (n.hooks.clear .thread) hl
  | gossip packet => rfl
  | hintBody body keyId => rfl
  | submitReply text => rfl
  | peerConnect => rfl
  | waitTimeout => rfl
  | resume i result env =>
    unfold threadTurn
    dsimp only
    split
    · rfl
    · rfl

/-- A step turns the orchestrator it belongs to. -/
theorem turned_step (h : Hooked n) (hs : step p loc deriveThreadKey cryptoHash n a = some n') :
    (n.held a.owner).Turned (n'.held a.owner) (n.turn a) ∧
    n.hooks.Turned n'.hooks a.owner (n.held a.owner).active (n.turn a) ∧
    ∀ o, o ≠ a.owner → n'.held o = n.held o := by
  cases a with
  | board a =>
    obtain ⟨s,hboard,rfl⟩ := Option.map_eq_some_iff.mp hs
    refine ⟨turned_board (h.listening .board) hboard,turned_boardHooks h a,?_⟩
    intro o ho
    cases o with
    | board => exact absurd rfl ho
    | thread => rfl
  | thread a =>
    obtain ⟨s,hthread,rfl⟩ := Option.map_eq_some_iff.mp hs
    refine ⟨turned_thread (h.listening .thread) hthread,turned_threadHooks h a,?_⟩
    intro o ho
    cases o with
    | board => rfl
    | thread => exact absurd rfl ho

/-- Whether something is open after a turn. -/
def Turn.active (before : Bool) : Turn → Bool
  | .keep | .wait => before
  | .clear => false
  | .replace => true

theorem active_turned {h h' : Held} {turn : Turn} (ht : h.Turned h' turn) :
    h'.active = turn.active h.active := by
  cases turn with
  | keep => exact ht.1.active
  | wait => exact ht.1.active
  | clear => exact Held.Cleared.active ht
  | replace => exact Held.Replaced.active ht

theorem listening_turned {h h' : Held} {turn : Turn} (ht : h.Turned h' turn)
    (hl : h.listening = h.active) : h'.listening = h'.active := by
  cases turn with
  | keep => rw [ht.1.listening,ht.1.active,hl]
  | wait => rw [ht.1.listening,ht.1.active,hl]
  | clear => rw [Held.Cleared.listening ht,Held.Cleared.active ht]
  | replace => rw [Held.Replaced.listening ht,Held.Replaced.active ht]

theorem Hooks.Matches.turned {k k' : Hooks} {active : Owner → Bool} {o : Owner} {turn : Turn}
    (h : k.Matches active) (ht : k.Turned k' o (active o) turn) :
    k'.Matches (Function.update active o (turn.active (active o))) := by
  cases turn with
  | keep =>
    rw [show k' = k from ht,Turn.active,Function.update_eq_self]
    exact h
  | wait =>
    rw [show k' = k from ht,Turn.active,Function.update_eq_self]
    exact h
  | clear =>
    rw [show k' = k.clear o (active o) from ht]
    exact h.clear o
  | replace =>
    obtain ⟨topicHash,rfl⟩ := ht
    have hopen := (h.clear o).open (Function.update_self o false active) topicHash
    rwa [Function.update_idem] at hopen

theorem Hooked.step (h : Hooked n) (hs : step p loc deriveThreadKey cryptoHash n a = some n') :
    Hooked n' := by
  obtain ⟨hheld,hhooks,hother⟩ := turned_step h hs
  constructor
  · intro o
    by_cases ho : o = a.owner
    · rw [ho]
      exact listening_turned hheld (h.listening _)
    · rw [hother o ho,h.listening]
  · have hmatches := h.hooks.turned hhooks
    have hactive : (fun o => (n'.held o).active) =
        Function.update (fun o => (n.held o).active) a.owner
          ((n.turn a).active (n.held a.owner).active) := by
      funext o
      by_cases ho : o = a.owner
      · subst ho
        rw [Function.update_self,active_turned hheld]
      · rw [Function.update_of_ne ho,hother o ho]
    rw [hactive]
    exact hmatches

theorem hooked_nil : Hooked {} where
  listening o := by cases o <;> rfl
  hooks := {
    listeners := fun o => by cases o <;> rfl
    peerConnect := fun o => by cases o <;> rfl
    unwatch := fun o => by cases o <;> rfl
    length := rfl
    watched := fun handle key o h => by cases h }

/-- What an orchestrator has itself is balanced too. -/
structure Held.Clean (h : Held) : Prop where
  bodyListeners : h.bodyListeners = h.active.toNat
  hintKeys : h.hintKeys ≤ h.active.toNat
  timers : h.timers ≤ h.active.toNat
  waits : h.waits = 0
  syncs : h.syncs = true → h.active = true

structure Inv (n : Node) : Prop where
  hooked : Hooked n
  clean : ∀ o, (n.held o).Clean

theorem Held.Clean.same {h h' : Held} (hc : h.Clean) (hs : h.Same h') (hw : h'.waits = 0) :
    h'.Clean where
  bodyListeners := by rw [hs.bodyListeners,hs.active,hc.bodyListeners]
  hintKeys := by rw [hs.hintKeys,hs.active]; exact hc.hintKeys
  timers := by
    rw [hs.active]
    obtain heq | ⟨hle,hactive | hsyncs⟩ := hs.timers
    · rw [heq]
      exact hc.timers
    · rw [hactive]
      exact hle
    · rw [hc.syncs hsyncs]
      exact hle
  waits := hw
  syncs hsyncs := by
    rw [hs.active]
    obtain hactive | hbefore := hs.syncs hsyncs
    · exact hactive
    · exact hc.syncs hbefore

/-- While nothing is open, the turns leave nothing behind. -/
theorem Held.Clean.turned {h h' : Held} {turn : Turn} (hc : h.Clean) (ht : h.Turned h' turn)
    (hopen : (turn = .clear ∨ turn = .replace) → h.active = false) (hwait : turn ≠ .wait) :
    h'.Clean := by
  have hwaits := hc.waits
  cases turn with
  | keep =>
    have hle := ht.2
    exact hc.same ht.1 (by omega)
  | wait => exact absurd rfl hwait
  | clear =>
    have ht : h.Cleared h' := ht
    have hactive := hopen (.inl rfl)
    have hbodies := hc.bodyListeners
    have hkeys := hc.hintKeys
    rw [hactive,Bool.toNat_false] at hbodies hkeys
    have hafter := ht.hintKeys
    constructor
    · rw [ht.bodyListeners,ht.active,hbodies]
      rfl
    · rw [ht.active]
      simp only [Bool.toNat_false]
      omega
    · rw [ht.timers]
      exact Nat.zero_le _
    · rw [ht.waits,hwaits]
    · intro hsyncs
      rw [ht.syncs] at hsyncs
      have htrue := hc.syncs hsyncs
      rw [hactive] at htrue
      cases htrue
  | replace =>
    have ht : h.Replaced h' := ht
    have hactive := hopen (.inr rfl)
    have hbodies := hc.bodyListeners
    have hkeys := hc.hintKeys
    rw [hactive,Bool.toNat_false] at hbodies hkeys
    have hafter := ht.hintKeys
    constructor
    · rw [ht.bodyListeners,ht.active,hbodies]
      rfl
    · rw [ht.active]
      simp only [Bool.toNat_true]
      omega
    · rw [ht.timers]
      exact Nat.zero_le _
    · rw [ht.waits,hwaits]
    · intro _
      exact ht.active

theorem inv_step (n : Node) (a : Action) (n' : Node) (h : Inv n) (hk : Keeps n a)
    (hs : step p loc deriveThreadKey cryptoHash n a = some n') : Inv n' := by
  obtain ⟨hheld,-,hother⟩ := turned_step h.hooked hs
  refine ⟨h.hooked.step hs,?_⟩
  intro o
  by_cases ho : o = a.owner
  · rw [ho]
    exact (h.clean _).turned hheld hk.1 hk.2
  · rw [hother o ho]
    exact h.clean o

theorem Inv.balanced (h : Inv n) : Balanced n := by
  intro o kind
  have hc := h.clean o
  cases kind with
  | listener => exact Nat.le_of_eq (h.hooked.hooks.listeners o)
  | peerConnect =>
    have hcount := h.hooked.hooks.peerConnect o
    have hwaits := hc.waits
    simp only [Node.registered]
    omega
  | bodyListener => exact Nat.le_of_eq hc.bodyListeners
  | hintKey => exact hc.hintKeys
  | zoneWatch => exact h.hooked.hooks.watching o
  | statsTimer => exact hc.timers

theorem step_some_of_turn (hturn : n.turn a ≠ .keep) :
    ∃ n', step p loc deriveThreadKey cryptoHash n a = some n' := by
  cases a with
  | board a =>
    cases a with
    | activate boardId key => exact ⟨_,rfl⟩
    | clear => exact ⟨_,rfl⟩
    | _ => exact absurd rfl hturn
  | thread a =>
    cases a with
    | activate boardId threadId boardKey => exact ⟨_,rfl⟩
    | clear => exact ⟨_,rfl⟩
    | resume i result env =>
      have hstarts : startsSync n.thread i result = true := by
        by_contra hno
        exact hturn (if_neg fun hand => hno hand.2)
      unfold startsSync at hstarts
      simp only [step,ThreadOrchestrator.step,Machine.takeTask]
      split at hstarts
      · next target stored hget =>
        rw [hget]
        exact ⟨_,rfl⟩
      · next target hget =>
        rw [hget]
        exact ⟨_,rfl⟩
      · next target rest hget =>
        rw [hget]
        exact ⟨_,rfl⟩
      · cases hstarts
    | _ => exact absurd rfl hturn

/-- A turn that is left out would leave a body listener or a handler behind. -/
theorem keeps_of_balanced (h : Inv n)
    (hb : ∀ n', step p loc deriveThreadKey cryptoHash n a = some n' → Balanced n') : Keeps n a := by
  by_cases hkeep : n.turn a = .keep
  · simp [Keeps,hkeep]
  obtain ⟨n',hs⟩ : ∃ n', step p loc deriveThreadKey cryptoHash n a = some n' :=
    step_some_of_turn hkeep
  obtain ⟨hheld,-,-⟩ := turned_step h.hooked hs
  have hc := h.clean a.owner
  have hbodies := hc.bodyListeners
  have hafter := hb n' hs a.owner .bodyListener
  have hpeers := hb n' hs a.owner .peerConnect
  have hcount := (h.hooked.step hs).hooks.peerConnect a.owner
  simp only [Node.registered] at hafter hpeers
  constructor
  · intro hturn
    by_contra hactive
    rw [Bool.not_eq_false] at hactive
    rw [hactive,Bool.toNat_true] at hbodies
    obtain hturn | hturn := hturn
    · rw [hturn] at hheld
      have hheld : (n.held a.owner).Cleared (n'.held a.owner) := hheld
      rw [hheld.bodyListeners,hheld.active,Bool.toNat_false] at hafter
      omega
    · rw [hturn] at hheld
      have hheld : (n.held a.owner).Replaced (n'.held a.owner) := hheld
      rw [hheld.bodyListeners,hheld.active,Bool.toNat_true] at hafter
      omega
  · intro hturn
    rw [hturn] at hheld
    have hwaits := hheld.2
    omega

/-- In every run the handlers of the packets and of the neighbours and the watch of a zone are
balanced, whatever is cleared or replaced. -/
theorem hooks_balanced {as : List Action}
    (hr : Machine.run (step p loc deriveThreadKey cryptoHash) {} as = some n) (o : Owner) :
    n.hooks.listeners.count o = (n.held o).active.toNat ∧
    n.hooks.peerConnect.count o = (n.held o).active.toNat ∧
    (n.hooks.watching o).length ≤ (n.held o).active.toNat := by
  have hooked := Machine.invariant_run' (I := Hooked) (fun _ _ _ h hs => h.step hs) hooked_nil hr
  exact ⟨hooked.hooks.listeners o,hooked.hooks.peerConnect o,hooked.hooks.watching o⟩

theorem inv_nil : Inv {} where
  hooked := hooked_nil
  clean o := by
    cases o with
    | board => exact ⟨rfl,Nat.le_refl 0,Nat.le_refl 0,rfl,fun h => by cases h⟩
    | thread => exact ⟨rfl,Nat.le_refl 0,Nat.le_refl 0,rfl,fun h => by cases h⟩

end

/-- The registrations are balanced in every state of a run if and only if no step of it clears or
replaces what is active or lets a handler wait for a first neighbour. -/
theorem balanced_iff (p : Primitives) (loc : JsLocale) (deriveThreadKey : Bytes → String → Bytes)
    (cryptoHash : Bytes → Bytes) (as : List Action) :
    Machine.Along (step p loc deriveThreadKey cryptoHash) Keeps {} as ↔
      ∀ bs n, bs <+: as → Machine.run (step p loc deriveThreadKey cryptoHash) {} bs = some n →
        Balanced n :=
  Machine.along_iff_kept (V := fun _ _ => True) (fun n a n' h _ hk hs => inv_step n a n' h hk hs)
    (fun _ h => h.balanced) (fun _ _ h _ hb => keeps_of_balanced h hb) inv_nil
    (Machine.along_of_forall (P := fun _ => True) _ fun _ _ => trivial)

/-- A board is closed while its cache is read. -/
def clearedRun : List Action := [
  .board (.activate "A" [10]),
  .board .clear,
  .board (.resume 0 .failed { degree := 1 })]

/-- The body listener stays, and the sync that goes on sets a timer. -/
theorem unbalanced_clearedRun :
    (∃ n, Machine.run (step sample sampleLocale ThreadOrchestrator.sampleThreadKey id) {}
        clearedRun = some n ∧
      (n.held .board).active = false ∧ n.registered .board .bodyListener = 1 ∧
      n.registered .board .statsTimer = 1) ∧
    ¬∀ (as : List Action) (n : Node),
      Machine.run (step sample sampleLocale ThreadOrchestrator.sampleThreadKey id) {} as = some n →
        Balanced n := by
  constructor
  · exact ⟨_,rfl,rfl,rfl,rfl⟩
  · intro h
    have hb := h clearedRun _ rfl .board .bodyListener
    exact absurd hb (by decide)

end Registrations
