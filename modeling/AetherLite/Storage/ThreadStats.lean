import AetherLite.Lib.Machine
import AetherLite.Logic.Types
import AetherLite.Storage.IndexedDBStore

/-! The statistics of the threads, which every save of a post with DAG data brings up to
date, and the list a board reads from them. -/
set_option autoImplicit false

namespace Storage

open Js Logic Program

/-- A post that is saved, with the DAG data if it has any. -/
structure SavedPost where
  boardId : String
  threadId : String
  payload : Bytes
  dag : Val := .undefined

namespace IndexedDBStore

section
variable (p : Primitives) (w : World) (fmt : Format)

/-- A transaction on the database. It ends when the function does, by an exception too. If
one of its operations or its end fails, nothing of it is left. -/
def transaction {α : Type} (x : Action α) : Action α :=
  ExceptT.mk fun s =>
    match exec x s with
    | (r,t) =>
      if t.budget = some 0 then
        (match r with
          | .ok _ => .error (.error "the operation failed")
          | .error e => .error e,{ t with db := s.db })
      else (r,{ t with budget := t.budget.map (· - 1) })

def postEntry (post : SavedPost) (timestamp : Nat) : Val := .obj [
  ("boardId",.str post.boardId),
  ("threadId",.str post.threadId),
  ("payload",.bytes post.payload),
  ("timestamp",.num (.ofNat timestamp))]

/-- `post.dag.thread_root || post.threadId` -/
def targetThreadId (post : SavedPost) : Val :=
  orElse (post.dag.field "thread_root") (.str post.threadId)

/-- The key of the statistics of a thread. The board is not in it. -/
def statsKey (vault : DataVault) (post : SavedPost) : Except Thrown String := do
  vault.index p "thread" (← (targetThreadId post).toStr fmt)

/-- A property of the statistics there are, null without any. -/
def existingField (existing : Val) (key : String) (otherwise : Val) : Val :=
  if existing.truthy then existing.field key else otherwise

def newMaxPow (existing : Val) (post : SavedPost) : Except Thrown Number := do
  let currentMaxPow ← (orElse (existingField existing "max_pow" .undefined) (.num (.fin 0))).toNumber
  .ok (currentMaxPow.max (← (orElse (post.dag.field "cumulative_pow") (.num (.fin 0))).toNumber))

/-- A time that is kept: a finite positive Number. -/
def isValidTime : Val → Bool
  | .num n => n.finitePositive
  | _ => false

def createdAt (existing : Val) (post : SavedPost) : Action Val :=
  let existingCreatedAt := existingField existing "created_at" .null
  let incomingCreatedAt := post.dag.field "created_at"
  if isValidTime existingCreatedAt then pure existingCreatedAt
  else if isValidTime incomingCreatedAt then pure incomingCreatedAt
  else do pure (.num (.ofNat (← dateNow w)))

def stats (post : SavedPost) (maxPow : Number) (createdAt : Val) (lastUpdated : Nat) : Val := .obj [
  ("threadId",targetThreadId post),
  ("boardId",.str post.boardId),
  ("max_pow",.num maxPow),
  ("created_at",createdAt),
  ("last_updated",.num (.ofNat lastUpdated))]

def threadPlace (k : String) : String := "ethreads:" ++ k

/-- The statistics under a key, null when there are none or they do not open. -/
def existingStats (vault : DataVault) (k : String) : Option ThreadRow → Except Thrown Val
  | none => .ok .null
  | some row => do .ok ((← vault.openRecord p row.blob (threadPlace k)).getD .null)

/-- The second half of `save`. -/
def saveStats (vault : DataVault) (post : SavedPost) : Action Unit := do
  let k ← .lift (statsKey p fmt vault post)
  let row ← read fun db => JsMap.get db.ethreads k
  let existing ← .lift (existingStats p vault k row)
  let maxPow ← .lift (newMaxPow existing post)
  let createdAt ← createdAt w existing post
  let lastUpdated ← dateNow w
  let b ← .lift (vault.index p "board" post.boardId)
  let blob ← sealRecord p w vault (stats post maxPow createdAt lastUpdated) (threadPlace k)
  write fun db => { db with ethreads := JsMap.set db.ethreads k ⟨b,.bytes blob⟩ }

def addPost (vault : DataVault) (post : SavedPost) (bt : String) (timestamp : Nat) :
    Action Unit := do
  let blob ← sealRecord p w vault (postEntry post timestamp) ("eposts:" ++ bt)
  write fun db => { db with
    eposts := db.eposts ++ [⟨db.nextPostId,bt,.bytes blob⟩]
    nextPostId := db.nextPostId+1 }

def save (post : SavedPost) : Action Unit := do
  if (← get).opened = false then pure ()
  else do
    let vault ← requireVault
    let bt ← .lift (postIndex p vault post.boardId post.threadId)
    let timestamp ← dateNow w
    transaction do
      addPost p w vault post bt timestamp
      if post.dag.truthy then saveStats p w fmt vault post else pure ()

/-- The rows with an index value, in the order of their keys. -/
def rowsOfBoard (db : Database) (b : String) : List (String × ThreadRow) :=
  (db.ethreads.filter fun e => e.2.b = b).mergeSort fun e f => e.1 ≤ f.1

def isOfBoard (boardId : String) (s : Val) : Bool := (s.field "boardId").strictEq (.str boardId)

/-- What `getThreads` makes of the rows it read. -/
def openThreads (vault : DataVault) (boardId : String) (rows : List (String × ThreadRow)) :
    Except Thrown (List Val) := do
  let opened ← rows.mapM fun e => vault.openRecord p e.2.blob (threadPlace e.1)
  .ok ((opened.filterMap id).filter (isOfBoard boardId))

def getThreads (boardId : String) : Action (List Val) := do
  if (← get).opened = false then pure []
  else do
    let vault ← requireVault
    let b ← .lift (vault.index p "board" boardId)
    let rows ← read fun db => rowsOfBoard db b
    .lift (openThreads p vault boardId rows)

end

section Specs
variable {p : Primitives} {w : World} {fmt : Format} {s : Session} {vault : DataVault}

/-- Either way a transaction ends, its body has done its work or nothing is left of it. -/
theorem ensures_transaction {α : Type} {x : Action α} {Q Q' : α → Session → Prop}
    {E E' : Session → Prop} (h : Ensures s x Q E)
    (hQ : ∀ a t budget, Q a t → Q' a { t with budget := budget })
    (hE : ∀ t budget, E t → E' { t with budget := budget })
    (hundone : ∀ t, (∃ a, Q a t) ∨ E t → E' { t with db := s.db }) :
    Ensures s (transaction x) Q' E' := by
  have hexec : exec (transaction x) s = match exec x s with
      | (r,t) =>
        if t.budget = some 0 then
          (match r with
            | .ok _ => .error (.error "the operation failed")
            | .error e => .error e,{ t with db := s.db })
        else (r,{ t with budget := t.budget.map (· - 1) }) := rfl
  unfold Ensures at h ⊢
  rw [hexec]
  generalize exec x s = outcome at h ⊢
  obtain ⟨r,t⟩ := outcome
  cases r with
  | ok a =>
    by_cases hb : t.budget = some 0
    · simpa [hb] using hundone t (.inl ⟨a,h⟩)
    · simpa [hb] using hQ a t _ h
  | error e =>
    by_cases hb : t.budget = some 0
    · simpa [hb] using hundone t (.inr h)
    · simpa [hb] using hE t _ h

/-- What `save` puts in the place of a thread: a row of the board it was called for. -/
structure Wrote (p : Primitives) (fmt : Format) (vault : DataVault) (post : SavedPost)
    (before after : Database) (k : String) (row : ThreadRow) : Prop where
  key : statsKey p fmt vault post = .ok k
  index : vault.index p "board" post.boardId = .ok row.b
  sealed : ∃ existing maxPow createdAt lastUpdated,
    existingStats p vault k (JsMap.get before.ethreads k) = .ok existing ∧
      newMaxPow existing post = .ok maxPow ∧ DataVault.Sealed p vault row.blob (threadPlace k)
        (stats post maxPow createdAt lastUpdated)
  ethreads : after.ethreads = JsMap.set before.ethreads k row

theorem ensures_createdAt (existing : Val) (post : SavedPost) :
    Ensures s (createdAt w existing post) (fun _ t => s.Does 0 s.db t) (fun _ => False) := by
  unfold createdAt
  dsimp only
  split
  · exact ensures_pure (.refl s)
  split
  · exact ensures_pure (.refl s)
  · exact ensures_dateNow.bind fun now t ht => ensures_pure ht

/-- The same vault and the same statistics. -/
structure Kept (s t : Session) : Prop where
  vault : t.vault = s.vault
  opened : t.opened = s.opened
  ethreads : t.db.ethreads = s.db.ethreads

theorem Kept.refl (s : Session) : Kept s s := ⟨rfl,rfl,rfl⟩

theorem Kept.trans {s t u : Session} (h : Kept s t) (h' : Kept t u) : Kept s u :=
  ⟨h'.vault.trans h.vault,h'.opened.trans h.opened,h'.ethreads.trans h.ethreads⟩

theorem kept_of_does {t : Session} {n : Nat} {db : Database} (h : s.Does n db t)
    (hdb : db.ethreads = s.db.ethreads) : Kept s t :=
  ⟨h.vault_eq,h.opened_eq,h.db_eq ▸ hdb⟩

theorem ensures_lift_kept {α : Type} {t : Session} (x : Except Thrown α) (h : Kept s t) :
    Ensures t (.lift x) (fun a u => u = t ∧ x = .ok a) (Kept s) :=
  ensures_lift (fun _ ha => ⟨rfl,ha⟩) fun _ _ => h

theorem ensures_sealRecord_kept {t : Session} (value : Val) (ad : String) (h : Kept s t) :
    Ensures t (sealRecord p w vault value ad)
      (fun blob u => Kept s u ∧ DataVault.Sealed p vault (.bytes blob) ad value) (Kept s) :=
  (ensures_sealRecord vault value ad).mono
    (fun _ _ hu => ⟨h.trans (kept_of_does hu.1 rfl),hu.2⟩)
    fun _ hu => h.trans (kept_of_does hu.1 rfl)

theorem ensures_saveStats (post : SavedPost) :
    Ensures s (saveStats p w fmt vault post)
      (fun _ t => t.vault = s.vault ∧ t.opened = s.opened ∧
        ∃ k row, Wrote p fmt vault post s.db t.db k row) (Kept s) := by
  unfold saveStats
  refine (ensures_lift_kept (statsKey p fmt vault post) (.refl s)).bind ?_
  intro k t ⟨ht,hk⟩
  rw [ht]
  refine ((ensures_read _).mono (fun _ _ h => h) fun u hu => hu.1 ▸ Kept.refl s).bind ?_
  intro row u ⟨hu,hrow⟩
  have hkept := kept_of_does hu rfl
  refine (ensures_lift_kept (existingStats p vault k row) hkept).bind ?_
  intro existing u' ⟨hu',hexisting⟩
  rw [hu']
  refine (ensures_lift_kept (newMaxPow existing post) hkept).bind ?_
  intro maxPow u' ⟨hu',hmax⟩
  rw [hu']
  refine (ensures_createdAt existing post).bind_of_total ?_
  intro createdAt v hv
  refine ensures_dateNow.bind_of_total ?_
  intro lastUpdated x hx
  have hkept := hkept.trans ((kept_of_does hv rfl).trans (kept_of_does hx rfl))
  refine (ensures_lift_kept (vault.index p "board" post.boardId) hkept).bind ?_
  intro b x' ⟨hx',hb⟩
  rw [hx']
  refine (ensures_sealRecord_kept _ _ hkept).bind ?_
  intro blob y ⟨hy,hsealed⟩
  refine (ensures_write _).mono ?_ fun z hz => hz.1 ▸ hy
  intro _ z hz
  refine ⟨hz.vault_eq.trans hy.vault,hz.opened_eq.trans hy.opened,k,⟨b,.bytes blob⟩,hk,hb,
    ⟨existing,maxPow,createdAt,lastUpdated,hrow ▸ hexisting,hmax,hsealed⟩,?_⟩
  rw [hz.db_eq,hy.ethreads]

theorem ensures_addPost (post : SavedPost) (bt : String) (timestamp : Nat) :
    Ensures s (addPost p w vault post bt timestamp) (fun _ => Kept s) (Kept s) := by
  unfold addPost
  refine (ensures_sealRecord_kept _ _ (.refl s)).bind ?_
  intro blob y ⟨hy,_⟩
  exact (ensures_write _).mono (fun _ z hz => hy.trans (kept_of_does hz rfl))
    fun z hz => hz.1 ▸ hy

/-- A save that returns has written the statistics, if there is DAG data to read; one that
throws has not. -/
theorem ensures_save (hv : s.vault = some vault) (post : SavedPost) :
    Ensures s (save p w fmt post)
      (fun _ t => t.vault = s.vault ∧ t.opened = s.opened ∧
        if s.opened ∧ post.dag.truthy then ∃ k row, Wrote p fmt vault post s.db t.db k row
        else t.db.ethreads = s.db.ethreads) (Kept s) := by
  unfold save
  refine ensures_get_bind ?_
  by_cases ho : s.opened = false
  · rw [if_pos ho]
    exact ensures_pure ⟨rfl,rfl,by simp [ho]⟩
  rw [if_neg ho]
  have hopen : s.opened = true := by simpa using ho
  refine (ensures_requireVault.mono (fun _ _ h => h) fun t ht => ht.1 ▸ Kept.refl s).bind ?_
  intro v t ⟨ht,hvault,_⟩
  obtain rfl : v = vault := Option.some.inj (hvault.symm.trans hv)
  rw [ht]
  refine (ensures_lift_kept (postIndex p v post.boardId post.threadId) (.refl s)).bind ?_
  intro bt t ⟨ht,_⟩
  rw [ht]
  refine ensures_dateNow.bind_of_total ?_
  intro timestamp u hu
  have hkept := kept_of_does hu rfl
  refine ensures_transaction (Q := fun _ t => t.vault = s.vault ∧ t.opened = s.opened ∧
      if post.dag.truthy then ∃ k row, Wrote p fmt v post s.db t.db k row
      else t.db.ethreads = s.db.ethreads) (E := Kept s) ?_ ?_ ?_ ?_
  · refine ((ensures_addPost post bt timestamp).mono (fun _ _ h => hkept.trans h)
      fun _ h => hkept.trans h).bind ?_
    intro _ x hx
    by_cases hd : post.dag.truthy = true
    · rw [if_pos hd]
      refine (ensures_saveStats post).mono ?_ fun _ h => hx.trans h
      intro _ y ⟨hyv,hyo,k,row,hwrote⟩
      refine ⟨hyv.trans hx.vault,hyo.trans hx.opened,?_⟩
      rw [if_pos hd]
      exact ⟨k,row,hwrote.key,hwrote.index,hx.ethreads ▸ hwrote.sealed,
        hx.ethreads ▸ hwrote.ethreads⟩
    · rw [if_neg hd]
      refine ensures_pure ⟨hx.vault,hx.opened,?_⟩
      rw [if_neg hd]
      exact hx.ethreads
  · intro _ t budget ⟨htv,hto,ht⟩
    refine ⟨htv,hto,?_⟩
    simpa [hopen] using ht
  · exact fun t budget h => ⟨h.vault,h.opened,h.ethreads⟩
  · intro t ht
    have hsame : t.vault = s.vault ∧ t.opened = s.opened := by
      rcases ht with ⟨_,h⟩ | h
      · exact ⟨h.1,h.2.1⟩
      · exact ⟨h.vault,h.opened⟩
    exact ⟨hsame.1,hsame.2,hkept.ethreads⟩

end Specs

section Boards
variable (p : Primitives) (w : World) (fmt : Format) (vault : DataVault)

/-- A call of `save`, whether it returns or throws. -/
def saveStep (s : Session) (post : SavedPost) : Option Session :=
  some (exec (save p w fmt post) s).2

/-- What `getThreads` returns when no operation of it fails. -/
def shownThreads (s : Session) (boardId : String) : Except Thrown (List Val) :=
  (exec (getThreads p boardId) { s with budget := none }).1

/-- The save leaves the threads of the other boards as they are. -/
def Spares (s : Session) (post : SavedPost) : Prop :=
  ∀ t, saveStep p w fmt s post = some t → ∀ boardId, boardId ≠ post.boardId →
    shownThreads p t boardId = shownThreads p s boardId

/-- Under the key the statistics are going to, there is no row of another board. -/
def Vacant (s : Session) (post : SavedPost) : Prop :=
  s.opened = true → post.dag.truthy = true → ∀ k row, statsKey p fmt vault post = .ok k →
    JsMap.get s.db.ethreads k = some row → vault.index p "board" post.boardId = .ok row.b

def Returns (s : Session) (post : SavedPost) : Prop := (exec (save p w fmt post) s).1 = .ok ()

/-- The row has statistics of the board it is indexed under. -/
def BoardRow (k : String) (row : ThreadRow) : Prop :=
  ∃ boardId stats, vault.index p "board" boardId = .ok row.b ∧
    stats.field "boardId" = .str boardId ∧ DataVault.Sealed p vault row.blob (threadPlace k) stats

/-- An unlocked store with rows as `save` leaves them. -/
structure Consistent (s : Session) : Prop where
  unlocked : s.vault = some vault
  isOpen : vault.isOpen = true
  rows : ∀ e ∈ s.db.ethreads, BoardRow p vault e.1 e.2

end Boards

section Boards
variable {p : Primitives} {w : World} {fmt : Format} {vault : DataVault} {s t : Session}
  {post : SavedPost}

theorem shownThreads_eq (hv : s.vault = some vault) (hopen : vault.isOpen = true)
    (ho : s.opened = true) {boardId b : String} (hb : vault.index p "board" boardId = .ok b) :
    shownThreads p s boardId = openThreads p vault boardId (rowsOfBoard s.db b) := by
  obtain ⟨db,opened,vault',tripKeyPair,budget,drawn,written⟩ := s
  subst hv ho
  have hvault : exec requireVault ⟨db,true,some vault,tripKeyPair,none,drawn,written⟩ =
      (.ok vault,⟨db,true,some vault,tripKeyPair,none,drawn,written⟩) := by
    change exec (if vault.isOpen then pure vault else throw _) _ = _
    rw [if_pos hopen]
    rfl
  have hget : exec (get : Action Session) ⟨db,true,some vault,tripKeyPair,none,drawn,written⟩ =
      (.ok ⟨db,true,some vault,tripKeyPair,none,drawn,written⟩,
        ⟨db,true,some vault,tripKeyPair,none,drawn,written⟩) := rfl
  unfold shownThreads getThreads
  dsimp only
  rw [exec_bind,hget]
  dsimp only
  rw [if_neg (by simp),exec_bind,hvault]
  dsimp only
  rw [hb]
  change (exec (.lift (openThreads p vault boardId (rowsOfBoard db b))) _).1 = _
  cases openThreads p vault boardId (rowsOfBoard db b) with
  | ok threads => rfl
  | error e => rfl

theorem shownThreads_closed (ho : s.opened = false) (boardId : String) :
    shownThreads p s boardId = .ok [] := by
  have hget : exec (get : Action Session) { s with budget := none } =
      (.ok { s with budget := none },{ s with budget := none }) := rfl
  unfold shownThreads getThreads
  rw [exec_bind,hget]
  dsimp only
  rw [if_pos ho]
  rfl

/-- What is shown depends on the rows of the board. -/
theorem shownThreads_congr (hs : Consistent p vault s) (ht : Consistent p vault t)
    (ho : t.opened = s.opened) {boardId : String}
    (hrows : ∀ b, vault.index p "board" boardId = .ok b → rowsOfBoard t.db b = rowsOfBoard s.db b) :
    shownThreads p t boardId = shownThreads p s boardId := by
  cases hopen : s.opened with
  | false => rw [shownThreads_closed hopen,shownThreads_closed (ho.trans hopen)]
  | true =>
    obtain ⟨b,hb⟩ := DataVault.index_ok hs.isOpen "board" boardId
    rw [shownThreads_eq hs.unlocked hs.isOpen hopen hb,
      shownThreads_eq ht.unlocked ht.isOpen (ho.trans hopen) hb,hrows b hb]

theorem Wrote.boardRow {before after : Database} {k : String} {row : ThreadRow}
    (h : Wrote p fmt vault post before after k row) : BoardRow p vault k row := by
  obtain ⟨existing,maxPow,createdAt,lastUpdated,-,-,hsealed⟩ := h.sealed
  exact ⟨post.boardId,_,h.index,rfl,hsealed⟩

theorem consistent_step (hs : Consistent p vault s) (h : saveStep p w fmt s post = some t) :
    Consistent p vault t := by
  cases h
  have hspec : Ensures s (save p w fmt post) (fun _ => Consistent p vault) (Consistent p vault) := by
    refine (ensures_save hs.unlocked post).mono ?_ ?_
    · intro _ t ⟨hv,_,hrow⟩
      refine ⟨hv.trans hs.unlocked,hs.isOpen,?_⟩
      split at hrow
      · obtain ⟨k,row,hwrote⟩ := hrow
        intro e he
        rw [hwrote.ethreads] at he
        rcases JsMap.mem_set he with rfl | he
        · exact hwrote.boardRow
        · exact hs.rows e he
      · rw [hrow]
        exact hs.rows
    · intro t hk
      exact ⟨hk.vault.trans hs.unlocked,hs.isOpen,hk.ethreads ▸ hs.rows⟩
  exact hspec.state rfl

/-- The rows of one board, before and after a save for another. -/
theorem rowsOfBoard_set {db db' : Database} {k b : String} {row : ThreadRow}
    (hset : db'.ethreads = JsMap.set db.ethreads k row) (hnew : row.b ≠ b) :
    rowsOfBoard db' b = rowsOfBoard db b ↔
      ∀ old, JsMap.get db.ethreads k = some old → old.b ≠ b := by
  cases hg : JsMap.get db.ethreads k with
  | none =>
    rw [JsMap.set_of_get_none row hg] at hset
    simp [rowsOfBoard,hset,hnew]
  | some old =>
    obtain ⟨l,r,hm,hset'⟩ := JsMap.set_of_get_some hg
    rw [hset' row] at hset
    constructor
    · intro heq old' hold hb
      obtain rfl := Option.some.inj hold
      have hlength := congrArg List.length heq
      simp [rowsOfBoard,hset,hm,hnew,hb] at hlength
    · intro hold
      simp [rowsOfBoard,hset,hm,hnew,hold old rfl]

theorem openThreads_ok {boardId : String} {rows : List (String × ThreadRow)}
    (h : ∀ e ∈ rows, ∃ s, vault.openRecord p e.2.blob (threadPlace e.1) = .ok (some s) ∧
      isOfBoard boardId s = true) :
    ∃ threads, openThreads p vault boardId rows = .ok threads ∧ threads.length = rows.length := by
  have hmap : ∃ stored : List Val, rows.mapM (fun e => vault.openRecord p e.2.blob (threadPlace e.1)) =
      .ok (stored.map some) ∧ stored.length = rows.length ∧ ∀ s ∈ stored, isOfBoard boardId s = true := by
    induction rows with
    | nil => exact ⟨[],rfl,rfl,fun s hs => by cases hs⟩
    | cons e rows ih =>
      obtain ⟨he,hrest⟩ := List.forall_mem_cons.mp h
      obtain ⟨s,hs,hb⟩ := he
      obtain ⟨stored,hm,hl,hall⟩ := ih hrest
      refine ⟨s :: stored,?_,by simp [hl],List.forall_mem_cons.mpr ⟨hb,hall⟩⟩
      rw [List.mapM_cons,hs,hm]
      rfl
  obtain ⟨stored,hm,hl,hall⟩ := hmap
  refine ⟨stored,?_,hl⟩
  simp only [openThreads,hm,bind,Except.bind]
  rw [List.filterMap_map,List.filter_eq_self.mpr]
  · simp
  · simpa using hall

theorem str_of_same {v : Val} {text : String} (h : v.Same (.str text)) : v = .str text := by
  cases v with
  | str t => simpa [Val.Same,Val.nullify] using h
  | _ => simp [Val.Same,Val.nullify] at h

/-- Every row that is read for a board opens, and is of the board. -/
theorem Consistent.opens (hp : p.Ideal) (hs : Consistent p vault s) {boardId b : String}
    (hb : vault.index p "board" boardId = .ok b) :
    ∃ threads, openThreads p vault boardId (rowsOfBoard s.db b) = .ok threads ∧
      threads.length = (rowsOfBoard s.db b).length := by
  refine openThreads_ok fun e he => ?_
  have hmem := List.mem_filter.mp ((List.mergeSort_perm _ _).subset he)
  obtain ⟨other,stats,hindex,hfield,hsealed⟩ := hs.rows e hmem.1
  have hrow : e.2.b = b := of_decide_eq_true hmem.2
  obtain rfl : other = boardId := DataVault.index_inj hp (hrow ▸ hindex) hb
  obtain ⟨opened,hopen,hsame⟩ := hsealed.holds hp
  refine ⟨opened,hopen,?_⟩
  have hboard := str_of_same (hfield ▸ hsame.field "boardId")
  simp [isOfBoard,hboard,Val.strictEq]

/-- The indexes of two boards are different. -/
theorem index_ne (hp : p.Ideal) {boardId other b c : String}
    (hb : vault.index p "board" boardId = .ok b) (hc : vault.index p "board" other = .ok c)
    (hne : boardId ≠ other) : b ≠ c :=
  fun heq => hne (DataVault.index_inj hp hb (heq ▸ hc))

theorem spares_of_vacant (hp : p.Ideal) (hs : Consistent p vault s)
    (h : Vacant p fmt vault s post) : Spares p w fmt s post := by
  intro t ht boardId hne
  have hconsistent := consistent_step hs ht
  have hspec : Ensures s (save p w fmt post)
      (fun _ t => t.opened = s.opened ∧ ∀ b, vault.index p "board" boardId = .ok b →
        rowsOfBoard t.db b = rowsOfBoard s.db b)
      (fun t => t.opened = s.opened ∧ ∀ b, vault.index p "board" boardId = .ok b →
        rowsOfBoard t.db b = rowsOfBoard s.db b) := by
    have hsame : ∀ t : Session, t.db.ethreads = s.db.ethreads →
        ∀ b, rowsOfBoard t.db b = rowsOfBoard s.db b := fun t ht b => by rw [rowsOfBoard,ht]; rfl
    refine (ensures_save hs.unlocked post).mono ?_ fun t hk => ⟨hk.opened,fun b _ => hsame t hk.ethreads b⟩
    intro _ t ⟨_,ho,hrow⟩
    refine ⟨ho,fun b hb => ?_⟩
    split at hrow
    · next hdag =>
      obtain ⟨k,row,hwrote⟩ := hrow
      have hnew : row.b ≠ b := index_ne hp hwrote.index hb (Ne.symm hne)
      refine (rowsOfBoard_set hwrote.ethreads hnew).mpr fun old hold => ?_
      have hown := h hdag.1 hdag.2 k old hwrote.key hold
      exact index_ne hp hown hb (Ne.symm hne)
    · exact hsame t hrow b
  cases ht
  obtain ⟨ho,hrows⟩ := hspec.state rfl
  exact shownThreads_congr hs hconsistent ho hrows

/-- A row of another board under the key is lost to its board. -/
theorem vacant_of_spares (hp : p.Ideal) (hs : Consistent p vault s)
    (hret : Returns p w fmt s post) (h : Spares p w fmt s post) : Vacant p fmt vault s post := by
  intro ho hdag k old hk hold
  have hmem : (k,old) ∈ s.db.ethreads := JsMap.mem_of_get hold
  obtain ⟨boardId,_,hindex,-,-⟩ := hs.rows _ hmem
  by_contra hforeign
  have hne : boardId ≠ post.boardId := fun heq => hforeign (heq ▸ hindex)
  obtain ⟨t,ht⟩ : ∃ t, saveStep p w fmt s post = some t := ⟨_,rfl⟩
  have hconsistent := consistent_step hs ht
  have hshown := h t ht boardId hne
  have hexec : exec (save p w fmt post) s = (.ok (),t) := by
    cases ht
    exact Prod.ext hret rfl
  obtain ⟨-,hopened,hrow⟩ := (ensures_save hs.unlocked post).ok hexec
  rw [if_pos ⟨ho,hdag⟩] at hrow
  obtain ⟨k',row,hwrote⟩ := hrow
  obtain rfl : k' = k := Except.ok.inj (hwrote.key.symm.trans hk)
  have hnew : row.b ≠ old.b := index_ne hp hwrote.index hindex (Ne.symm hne)
  have hrows : (rowsOfBoard t.db old.b).length ≠ (rowsOfBoard s.db old.b).length := by
    obtain ⟨l,r,hm,hset⟩ := JsMap.set_of_get_some hold
    have hafter := hwrote.ethreads.trans (hset row)
    simp [rowsOfBoard,hafter,hm,hnew]
  obtain ⟨before,hbefore,hlb⟩ := hs.opens hp hindex
  obtain ⟨after,hafter,hla⟩ := hconsistent.opens hp hindex
  rw [shownThreads_eq hs.unlocked hs.isOpen ho hindex,shownThreads_eq hconsistent.unlocked
    hconsistent.isOpen (hopened.trans ho) hindex,hbefore,hafter] at hshown
  rw [← hla,← hlb,Except.ok.inj hshown] at hrows
  exact hrows rfl

/-- While no save finds a row of another board under its key, every save leaves the threads
of the other boards as they are; and a run of saves that return leaves them only so. -/
theorem saves_spare_boards (hp : p.Ideal) (hs : Consistent p vault s) (posts : List SavedPost) :
    (Machine.Along (saveStep p w fmt) (Vacant p fmt vault) s posts →
      Machine.Along (saveStep p w fmt) (Spares p w fmt) s posts) ∧
    (Machine.Along (saveStep p w fmt) (Returns p w fmt) s posts →
      Machine.Along (saveStep p w fmt) (Spares p w fmt) s posts →
        Machine.Along (saveStep p w fmt) (Vacant p fmt vault) s posts) := by
  have hstep : ∀ s post t, Consistent p vault s → saveStep p w fmt s post = some t →
      Consistent p vault t := fun _ _ _ hs ht => consistent_step hs ht
  refine ⟨fun h => h.imp_of_invariant hstep (fun _ _ hs => spares_of_vacant hp hs) hs,?_⟩
  intro hret h
  exact (hret.and h).imp_of_invariant hstep (fun _ _ hs hg => vacant_of_spares hp hs hg.1 hg.2) hs

end Boards

section Vacancy
variable (p : Primitives) (fmt : Format) (vault : DataVault)

def isVacant (s : Session) (post : SavedPost) : Bool :=
  match statsKey p fmt vault post with
  | .error _ => true
  | .ok k =>
    match JsMap.get s.db.ethreads k,vault.index p "board" post.boardId with
    | none,_ => true
    | some row,.ok b => b == row.b
    | some _,.error _ => false

variable {p : Primitives} {fmt : Format} {vault : DataVault}

theorem vacant_of_isVacant {s : Session} {post : SavedPost}
    (h : isVacant p fmt vault s post = true) : Vacant p fmt vault s post := by
  intro _ _ k row hk hrow
  simp only [isVacant,hk,hrow] at h
  split at h
  · next hnone => cases hnone
  · next hsome hb =>
    cases hsome
    rw [hb,beq_iff_eq.mp h]
  · cases h

end Vacancy

/-! A stand-in that encodes posts and statistics of two boards and two threads. -/

namespace StatsSample

def letter : String → Except Thrown UInt8
  | "A" => .ok 1
  | "B" => .ok 2
  | "T" => .ok 3
  | "U" => .ok 4
  | _ => .error (.error "not encoded")

def nameOf : UInt8 → String
  | 1 => "A"
  | 2 => "B"
  | 3 => "T"
  | _ => "U"

theorem nameOf_letter {name : String} {x : UInt8} (h : letter name = .ok x) : nameOf x = name := by
  unfold letter at h
  split at h
  · cases h
    rfl
  · cases h
    rfl
  · cases h
    rfl
  · cases h
    rfl
  · cases h

def entry (boardId threadId : String) : Val := postEntry ⟨boardId,threadId,[],.undefined⟩ 0

def row (boardId threadId : String) : Val :=
  stats ⟨boardId,threadId,[],.undefined⟩ (.fin 12) (.num (.fin 60000)) 0

def encode : Val → Except Thrown Bytes
  | .obj [("boardId",.str b),("threadId",.str t),("payload",.bytes bs),("timestamp",.num n)] =>
    if bs = [] ∧ n = .fin 0 then do .ok [1,← letter b,← letter t]
    else .error (.error "not encoded")
  | .obj [("threadId",.str t),("boardId",.str b),("max_pow",.num m),("created_at",.num c),
      ("last_updated",.num u)] =>
    if m = .fin 12 ∧ c = .fin 60000 ∧ u = .fin 0 then do .ok [2,← letter b,← letter t]
    else .error (.error "not encoded")
  | _ => .error (.error "not encoded")

def decode : Bytes → Option Val
  | [1,b,t] => some (entry (nameOf b) (nameOf t))
  | [2,b,t] => some (row (nameOf b) (nameOf t))
  | _ => none

theorem decode_encode {v : Val} {bs : Bytes} (h : encode v = .ok bs) : decode bs = some v := by
  unfold encode at h
  split at h
  · split at h
    · next hv =>
      obtain ⟨rfl,rfl⟩ := hv
      obtain ⟨x,hx,h⟩ := bind_ok h
      obtain ⟨y,hy,h⟩ := bind_ok h
      cases h
      simp [decode,nameOf_letter hx,nameOf_letter hy,entry,postEntry,Number.ofNat]
    · cases h
  · split at h
    · next hv =>
      obtain ⟨rfl,rfl,rfl⟩ := hv
      obtain ⟨x,hx,h⟩ := bind_ok h
      obtain ⟨y,hy,h⟩ := bind_ok h
      cases h
      simp [decode,nameOf_letter hx,nameOf_letter hy,row,stats,targetThreadId,orElse,Val.field,
        Val.truthy,Number.ofNat]
    · cases h
  · cases h

def primitives : Primitives := { sample with encode := encode, decode := decode }

theorem ideal : primitives.Ideal where
  box := sample_ideal.box
  boxKey := sample_ideal.boxKey
  passphrase := sample_ideal.passphrase
  limits := sample_ideal.limits
  aead := sample_ideal.aead
  tag := sample_ideal.tag
  hash := sample_ideal.hash
  encoding v _ h := ⟨v,decode_encode h,rfl⟩

def format : Format where
  number _ := ""
  date _ := ""

def vault : DataVault := ⟨List.replicate 32 1,[]⟩

def start : Session := { opened := true, vault := some vault }

/-- A post of a board that names a thread as its root. -/
def post (boardId root : String) : SavedPost where
  boardId := boardId
  threadId := "T"
  payload := []
  dag := .obj [("thread_root",.str root),("cumulative_pow",.num (.fin 12)),
    ("created_at",.num (.fin 60000))]

theorem consistent_start : Consistent primitives vault start :=
  ⟨rfl,rfl,fun e he => by cases he⟩

end StatsSample

section Samples
open StatsSample

theorem saves_spare_boards_apart :
    Machine.Along (saveStep primitives sampleWorld format) (Spares primitives sampleWorld format)
      start [post "A" "T",post "B" "U"] := by
  have hv : Machine.Along (saveStep primitives sampleWorld format)
      (Vacant primitives format vault) start [post "A" "T",post "B" "U"] :=
    Machine.along_of_check (fun _ _ => vacant_of_isVacant) (by decide +kernel)
  exact (saves_spare_boards ideal consistent_start _).1 hv

/-- Both boards have a post with the same thread root. -/
theorem saves_not_spare_boards : ¬∀ posts : List SavedPost,
    Machine.Along (saveStep primitives sampleWorld format) (Spares primitives sampleWorld format)
      start posts := by
  intro h
  have hrun := h [post "A" "T",post "B" "T"]
  have hshown := (hrun.2 _ rfl).1 _ rfl "A" (by decide)
  have hcount := congrArg (fun threads => threads.toOption.map List.length) hshown
  revert hcount
  decide +kernel

end Samples

end IndexedDBStore

end Storage
