import AetherLite.Gossip.PacketValidator
import AetherLite.Lib.JsNumber
import AetherLite.Logic.BoardOrchestrator
import AetherLite.Logic.ThreadSnapshot
import AetherLite.Storage.ThreadStats

/-! The two orchestrators over one store of statistics, and the work that was done for
each thread. -/
set_option autoImplicit false

namespace ThreadWeight

open Js Js.Val PacketBuilder Logic

/-- A packet that was built, and for which thread. -/
structure Built where
  packet : Val
  threadId : Val

/-- The difficulty in the header of a packet, which its proof of work is checked against. -/
def difficulty (packet : Val) : Nat :=
  (PacketValidator.nonNegative? (PowPolicy.integer? (packet.field "pow_difficulty"))).getD 0

/-- The difficulties of all packets built for a thread. -/
def total (ledger : List Built) (threadId : Val) : Nat :=
  ((ledger.filter fun b => b.threadId.strictEq threadId).map fun b => difficulty b.packet).sum

structure State where
  board : BoardOrchestrator.State := {}
  thread : ThreadOrchestrator.State := {}
  store : Storage.Session
  /-- The store as it was before each save. -/
  past : List Storage.Session := []
  ledger : List Built := []

/-- A holder of a key builds a packet that the relays accept. A read resolves to what the
store held at some time, and a save is done some time after it was called. Only the store
outlives a restart. -/
inductive Action where
  | build (packet : Val) (key : Bytes) (now : Int)
  | board (a : BoardOrchestrator.Action)
  | thread (a : ThreadOrchestrator.Action)
  | readStats (i k : Nat) (boardId : String) (env : Env)
  | save (fromThread : Bool) (i : Nat)
  | restart

/-- Every packet has its own id. -/
def isFresh (ledger : List Built) (b : Built) : Bool :=
  !ledger.any fun c => c.packet.field "packet_id" == b.packet.field "packet_id"

/-- What `PacketBuilder.build` resolves to has the difficulty it was asked for. -/
def enterOwn (ledger : List Built) : Option Built → Option (List Built)
  | none => some ledger
  | some b =>
    if difficulty b.packet = PowPolicy.networkDifficulty ∧ isFresh ledger b then some (b :: ledger)
    else none

/-- The packet that a step of the board gets from `PacketBuilder.build`. -/
def boardBuilt (s : BoardOrchestrator.State) : BoardOrchestrator.Action → Option Built
  | .resume i (.packet packet) _ =>
    match s.pending[i]? with
    | some (.built _ _ _ threadId) => some ⟨packet,.str threadId⟩
    | _ => none
  | _ => none

def threadBuilt (s : ThreadOrchestrator.State) : ThreadOrchestrator.Action → Option Built
  | .resume i (.packet packet) _ =>
    match s.pending[i]? with
    | some (.built target _ _ _) => some ⟨packet,.str target.threadId⟩
    | _ => none
  | _ => none

/-- Rows come from the store, and `generateId` makes no empty string. -/
def isOpen : BoardOrchestrator.Action → Bool
  | .resume _ (.threadRows _) _ => false
  | .submitThread _ _ _ threadId => decide (threadId ≠ "")
  | _ => true

def numberOr (otherwise : Number) : Val → Number
  | .num n => n
  | _ => otherwise

def rowOf (stats : Val) : ThreadRow where
  boardId := match stats.field "boardId" with
    | .str b => b
    | _ => ""
  threadId := stats.field "threadId"
  maxPow := numberOr .nan (stats.field "max_pow")
  createdAt := numberOr .nan (stats.field "created_at")

section
variable (sha256 : Bytes → Bytes) (p : Primitives)

/-- The entry of a packet that relays accept and that shows a post under the key. -/
def accepted (packet : Val) (key : Bytes) (now : Int) : Option Built :=
  match PacketValidator.check sha256 packet ⟨now,true⟩,verifyAndDecrypt p packet key with
  | .ok .ok,.ok (some post) => some ⟨packet,post.threadId⟩
  | _,_ => none

variable (loc : ThreadDAGManager.JsLocale)
  (deriveThreadKey : Bytes → String → Bytes) (q : Storage.Primitives) (w : Storage.World)
  (stringify : Val → Bytes)

/-- The argument of `db.save`. -/
def savedPost (e : PostSave) : Storage.SavedPost where
  boardId := e.boardId
  threadId := e.threadId
  payload := match e.payload with
    | .inl raw => raw
    | .inr packet => stringify packet
  dag := .obj [
    ("parents",e.parents),
    ("cumulative_pow",e.cumulativePow),
    ("thread_root",e.threadRoot),
    ("created_at",e.createdAt)]

def saveCall (s : State) (fromThread : Bool) (i : Nat) : Option PostSave :=
  if fromThread then (s.thread.saves[i]?).map Prod.snd else s.board.saves[i]?

def step (s : State) : Action → Option State
  | .build packet key now => do
    let b ← accepted sha256 p packet key now
    if isFresh s.ledger b then some { s with ledger := b :: s.ledger } else none
  | .board a =>
    if isOpen a then do
      let ledger ← enterOwn s.ledger (boardBuilt s.board a)
      let board ← BoardOrchestrator.step p s.board a
      some { s with board := board, ledger := ledger }
    else none
  | .thread a => do
    let ledger ← enterOwn s.ledger (threadBuilt s.thread a)
    let thread ← ThreadOrchestrator.step p loc deriveThreadKey s.thread a
    some { s with thread := thread, ledger := ledger }
  | .readStats i k boardId env => do
    let store ← (s.store :: s.past)[k]?
    let rows ← (Storage.IndexedDBStore.shownThreads q store boardId).toOption
    let board ← BoardOrchestrator.step p s.board (.resume i (.threadRows (rows.map rowOf)) env)
    some { s with board := board }
  | .save fromThread i => do
    let e ← saveCall s fromThread i
    let store ← Storage.IndexedDBStore.saveStep q w loc.format s.store (savedPost stringify e)
    some { s with store := store, past := s.store :: s.past }
  | .restart => some { s with board := {}, thread := {} }

end

/-- A number that the work for the thread pays for. -/
def Worth (ledger : List Built) (n : Number) (threadId : Val) : Prop :=
  ∃ r : Rat, n = .fin r ∧ r ≤ total ledger threadId

/-- Every weight in the list, and every weight in the statistics, is paid for. -/
structure Backed (q : Storage.Primitives) (vault : Storage.DataVault) (s : State) : Prop where
  shown : ∀ t ∈ s.board.snapshot, Worth s.ledger t.maxPow t.post.threadId
  stored : ∀ e ∈ s.store.db.ethreads, ∀ stats,
    vault.openRecord q e.2.blob (Storage.IndexedDBStore.threadPlace e.1) = .ok (some stats) →
      ∃ n, stats.field "max_pow" = .num n ∧ Worth s.ledger n (stats.field "threadId")

/-- The field of a packet: a Number that is paid for, of a thread with a proper id. -/
def Earned (ledger : List Built) (weight threadId : Val) : Prop :=
  ∃ t n, threadId = .str t ∧ weight = .num n ∧ Worth ledger n threadId

def weightOf (post : Post) : Val := orElse post.cumulativePow (.num (.fin 0))

section
variable (p : Primitives)

/-- What the inputs of a step claim is paid for: the weight of a packet, for its thread and
for the thread whose statistics it is merged into. A reply is written into the thread it was
built for, whose work stays in the range of exact integers. -/
def Honest (s : State) : Action → Prop
  | .board (.resume i .done _) =>
    match s.board.pending[i]? with
    | some (.decrypted c) => ∀ post, verifyAndDecrypt p c.packet c.key = .ok (some post) →
        post.postType.strictEq (.num (.fin 1)) = true →
          Earned s.ledger (weightOf post) post.threadId ∧
            Earned s.ledger (weightOf post) (orElse post.threadId (.str boardMetaThreadId))
    | _ => True
  | .thread (.resume i .done _) =>
    match s.thread.pending[i]? with
    | some (.decrypted c) => ∀ post, verifyAndDecrypt p c.packet c.target.key = .ok (some post) →
        ThreadOrchestrator.IsPostOf c.target post →
          ThreadDAGManager.IsNew s.thread.dag (ThreadOrchestrator.dagPostOf c post) →
            Earned s.ledger (weightOf post) post.threadId ∧
              Earned s.ledger (weightOf post) (orElse post.threadRoot (.str c.target.threadId))
    | _ => True
  | .thread (.submitReply _) => ∀ t, s.thread.currentThreadId = some t →
      total s.ledger (.str t)+PowPolicy.networkDifficulty ≤ 2^53
  | .thread (.resume i (.packet _) _) =>
    match s.thread.pending[i]? with
    | some (.built target _ _ _) =>
      s.thread.currentThreadId = none ∨ s.thread.currentThreadId = some target.threadId
    | _ => True
  | _ => True

end

section Ledger
variable {ledger ledger' : List Built} {n : Number} {weight threadId : Val}

theorem total_cons (b : Built) (ledger : List Built) (threadId : Val) :
    total (b :: ledger) threadId =
      (if b.threadId.strictEq threadId then difficulty b.packet else 0)+total ledger threadId := by
  unfold total
  rw [List.filter_cons]
  by_cases hb : b.threadId.strictEq threadId = true
  · simp [hb]
  · simp [hb]

/-- The work that was done is never less. -/
def Grows (ledger ledger' : List Built) : Prop := ∀ threadId, total ledger threadId ≤ total ledger' threadId

theorem Grows.refl (ledger : List Built) : Grows ledger ledger := fun _ => le_rfl

theorem grows_cons (b : Built) (ledger : List Built) : Grows ledger (b :: ledger) := by
  intro threadId
  rw [total_cons]
  omega

theorem Worth.grows (h : Worth ledger n threadId) (hg : Grows ledger ledger') :
    Worth ledger' n threadId := by
  obtain ⟨r,hr,hle⟩ := h
  have hcast : (total ledger threadId : Rat) ≤ total ledger' threadId := by exact_mod_cast hg threadId
  exact ⟨r,hr,hle.trans hcast⟩

theorem Earned.grows (h : Earned ledger weight threadId) (hg : Grows ledger ledger') :
    Earned ledger' weight threadId := by
  obtain ⟨t,n,ht,hn,hw⟩ := h
  exact ⟨t,n,ht,hn,hw.grows hg⟩

theorem Worth.max {m : Number} (hm : Worth ledger m threadId) (hn : Worth ledger n threadId) :
    Worth ledger (m.max n) threadId := by
  obtain ⟨a,rfl,ha⟩ := hm
  obtain ⟨b,rfl,hb⟩ := hn
  by_cases hlt : (Number.fin a).lt (.fin b) = true
  · exact ⟨b,by simp [Number.max,hlt],hb⟩
  · exact ⟨a,by simp [Number.max,hlt],ha⟩

theorem worth_zero (ledger : List Built) (threadId : Val) : Worth ledger (.fin 0) threadId := by
  exact ⟨0,rfl,by exact_mod_cast Nat.zero_le _⟩

theorem Worth.orZero (h : Worth ledger n threadId) : Worth ledger n.orZero threadId := by
  unfold Number.orZero
  split
  · exact h
  · exact worth_zero ledger threadId

/-- What was built here adds its difficulty to its thread. -/
theorem enterOwn_cases {own : Option Built} (h : enterOwn ledger own = some ledger') :
    Grows ledger ledger' ∧ ∀ b, own = some b → ∀ t, b.threadId = .str t →
      total ledger' (.str t) = PowPolicy.networkDifficulty+total ledger (.str t) := by
  cases own with
  | none =>
    cases h
    exact ⟨.refl _,fun b hb => by cases hb⟩
  | some b =>
    simp only [enterOwn] at h
    split at h
    · next hb =>
      cases h
      refine ⟨grows_cons b ledger,fun c hc t ht => ?_⟩
      cases hc
      rw [total_cons,ht,hb.1]
      simp [strictEq]
    · cases h

end Ledger

end ThreadWeight
