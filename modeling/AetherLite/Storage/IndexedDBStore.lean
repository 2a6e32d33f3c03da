import AetherLite.Lib.JsOps
import AetherLite.Lib.Program
import AetherLite.Storage.DataVault

/-! The database of a node: its object stores, the lock, and the migration of the rows
that earlier versions stored in the clear. -/
set_option autoImplicit false

namespace Storage

open Js

structure IdentityRecord where
  sealed : Option SealedSecret := none
  emeta : Val := .undefined
  /-- `meta` -/
  metadata : Val := .undefined
  updatedAt : Nat := 0

structure MailboxRow where
  day : Number
  blob : Val

structure PostRow where
  id : Nat
  bt : String
  blob : Val

structure ThreadRow where
  b : String
  blob : Val

/-- What is on the disk. The last three stores exist only in a database that an earlier
version made, and hold whatever it stored in the clear. -/
structure Database where
  identity : JsMap String IdentityRecord := []
  emailbox : JsMap String MailboxRow := []
  eposts : List PostRow := []
  nextPostId : Nat := 1
  ethreads : JsMap String ThreadRow := []
  boards : JsMap String Val := []
  kv : JsMap String Val := []
  mailbox : Option (List Val) := none
  posts : Option (List Val) := none
  threads : Option (List Val) := none

structure KeyPair where
  publicKey : Bytes
  privateKey : Bytes
  deriving DecidableEq

/-- A record that was sealed for its place. -/
structure Written where
  vault : DataVault
  ad : String
  value : Val

/-- A page with its store and its identity. After `budget` more operations on the
database one fails. -/
structure Session where
  db : Database := {}
  opened : Bool := false
  vault : Option DataVault := none
  tripKeyPair : Option KeyPair := none
  budget : Option Nat := none
  drawn : Nat := 0
  written : List Written := []

/-- What a page draws and reads from outside, in order. -/
structure World where
  random : (drawn length : Nat) → {bytes : Bytes // bytes.length = length}
  keypair : (drawn : Nat) →
    {pair : KeyPair // pair.publicKey.length = 32 ∧ pair.privateKey.length = 64}
  clock : (drawn : Nat) → Nat

abbrev Action := Program Thrown Session

def dekSlot : String := "__dek__"

def dayMs : Nat := 24*60*60*1000

def Session.isUnlocked (s : Session) : Bool :=
  match s.vault with
  | some v => v.isOpen
  | none => false

/-- The sealed data key on the disk. -/
def Database.dek (db : Database) : Option SealedSecret :=
  (JsMap.get db.identity dekSlot).bind IdentityRecord.sealed

namespace IndexedDBStore

/-- One operation on the database. One that fails has no effect. -/
def request {α : Type} (f : Database → α × Database) : Action α := do
  let s ← get
  match s.budget with
  | some 0 => throw (.error "the operation failed")
  | budget =>
    let (a,db) := f s.db
    set { s with db := db, budget := budget.map (· - 1) }
    pure a

def read {α : Type} (f : Database → α) : Action α := request fun db => (f db,db)
def write (f : Database → Database) : Action Unit := request fun db => ((),f db)

section
variable (p : Primitives) (w : World)

/-- `randombytes_buf` -/
def randombytes (length : Nat) : Action {bytes : Bytes // bytes.length = length} := do
  let s ← get
  set { s with drawn := s.drawn+1 }
  pure (w.random s.drawn length)

/-- `Date.now` -/
def dateNow : Action Nat := do
  let s ← get
  set { s with drawn := s.drawn+1 }
  pure (w.clock s.drawn)

def init : Action Unit := do
  if (← get).opened then pure ()
  else do
    write id
    modify fun s => { s with opened := true }

def requireVault : Action DataVault := do
  match (← get).vault with
  | some v =>
    if v.isOpen then pure v
    else throw (.error "IndexedDBStore is locked; call unlock(passphrase) first")
  | none => throw (.error "IndexedDBStore is locked; call unlock(passphrase) first")

/-- `SecretVault.seal` -/
def sealSecret (secret : Bytes) (passphrase : String) (params : VaultParams) :
    Action SealedSecret := do
  let salt ← randombytes w 16
  let nonce ← randombytes w DataVault.nonceBytes
  .lift (SecretVault.sealSecret p secret passphrase params salt nonce)

/-- `vault.seal` -/
def sealRecord (vault : DataVault) (value : Val) (ad : String) : Action Bytes := do
  let nonce ← randombytes w DataVault.nonceBytes
  let blob ← .lift (DataVault.sealRecord p vault value ad nonce)
  modify fun s => { s with written := s.written ++ [⟨vault,ad,value⟩] }
  pure blob

structure MailboxEntry where
  topicHash : String
  entries : List Val
  lastUpdated : Val

def MailboxEntry.toVal (r : MailboxEntry) : Val := .obj [
  ("topicHash",.str r.topicHash),
  ("entries",.arr r.entries),
  ("lastUpdated",r.lastUpdated)]

def writeMailbox (record : MailboxEntry) : Action Unit := do
  let vault ← requireVault
  let k ← .lift (vault.index p "mailbox" record.topicHash)
  let lastUpdated ← .lift record.lastUpdated.toNumber
  let blob ← sealRecord p w vault record.toVal ("emailbox:" ++ k)
  write fun db => { db with
    emailbox := JsMap.set db.emailbox k ⟨(lastUpdated.divBy dayMs).floor,.bytes blob⟩ }

def postIndex (vault : DataVault) (boardId threadId : String) : Except Thrown String :=
  vault.index p "posts" (boardId ++ "\x00" ++ threadId)

/-- `getSealed`, of a store that has been opened. -/
def getSealed (slot : String) : Action (Option (SealedSecret × Val)) := do
  if (← get).opened = false ∨ slot = dekSlot then pure none
  else do
    match ← read fun db => JsMap.get db.identity slot with
    | some { sealed := some sealed, emeta := .bytes emeta, .. } =>
      let vault ← requireVault
      let opened ← .lift (vault.openRecord p (.bytes emeta) ("identity:" ++ slot))
      let metadata := match opened with
        | some m => if m.isNullish then .undefined else m
        | none => .undefined
      pure (some (sealed,metadata))
    | some { sealed := some sealed, metadata := metadata, .. } => pure (some (sealed,metadata))
    | _ => pure none

/-- The encrypted `meta` of a slot; undefined when there is none. -/
def sealMeta (slot : String) : Val → Action Val
  | .undefined => pure .undefined
  | metadata => do
    let vault ← requireVault
    pure (.bytes (← sealRecord p w vault metadata ("identity:" ++ slot)))

def saveSealed (slot : String) (sealed : SealedSecret) (metadata : Val) : Action Unit := do
  if (← get).opened = false then pure ()
  else if slot = dekSlot then throw (.rangeError "reserved identity slot")
  else do
    let emeta ← sealMeta p w slot metadata
    let updatedAt ← dateNow w
    write fun db => { db with
      identity := JsMap.set db.identity slot ⟨some sealed,emeta,.undefined,updatedAt⟩ }

def deleteSealed (slot : String) : Action Unit := do
  if (← get).opened = false ∨ slot = dekSlot then pure ()
  else write fun db => { db with identity := JsMap.delete db.identity slot }

/-- A row of the store `mailbox` that is migrated. -/
def mailboxRow? (r : Val) : Option (String × List Val) :=
  match r.field "topicHash",r.field "entries" with
  | .str topicHash,.arr entries => some (topicHash,entries)
  | _,_ => none

def lastUpdatedOrNow (r : Val) : Action Val :=
  if (r.field "lastUpdated").truthy then pure (r.field "lastUpdated")
  else do pure (.num (.ofNat (← dateNow w)))

def moveMailboxRow (r : Val) : Action Unit :=
  match mailboxRow? r with
  | none => pure ()
  | some (topicHash,entries) => do
    writeMailbox p w ⟨topicHash,entries,← lastUpdatedOrNow w r⟩

def migrateMailbox : Action Unit := do
  if (← get).db.mailbox.isSome then do
    let rows ← read fun db => db.mailbox.getD []
    rows.forM (moveMailboxRow p w)
    write fun db => { db with mailbox := some [] }
  else pure ()

/-- A row of the store `posts` that is migrated. -/
def postRow? (r : Val) : Option (String × String) :=
  match r.field "boardId",r.field "threadId" with
  | .str boardId,.str threadId => some (boardId,threadId)
  | _,_ => none

def postRecord (r : Val) : Val := .obj [
  ("boardId",r.field "boardId"),
  ("threadId",r.field "threadId"),
  ("payload",r.field "payload"),
  ("timestamp",r.field "timestamp")]

def copyPost (vault : DataVault) (r : Val) : Action Unit :=
  match postRow? r with
  | none => pure ()
  | some (boardId,threadId) => do
    let bt ← .lift (postIndex p vault boardId threadId)
    let blob ← sealRecord p w vault (postRecord r) ("eposts:" ++ bt)
    write fun db => { db with
      eposts := db.eposts ++ [⟨db.nextPostId,bt,.bytes blob⟩]
      nextPostId := db.nextPostId+1 }

def migratePosts : Action Unit := do
  if (← get).db.posts.isSome then do
    let vault ← requireVault
    let rows ← read fun db => db.posts.getD []
    rows.forM (copyPost p w vault)
    write fun db => { db with posts := some [] }
  else pure ()

/-- A row of the store `threads` that is migrated. -/
def threadRow? (r : Val) : Option (String × String) :=
  match r.field "threadId",r.field "boardId" with
  | .str threadId,.str boardId => some (threadId,boardId)
  | _,_ => none

def moveThreadRow (vault : DataVault) (r : Val) : Action Unit :=
  match threadRow? r with
  | none => pure ()
  | some (threadId,boardId) => do
    let k ← .lift (vault.index p "thread" threadId)
    let b ← .lift (vault.index p "board" boardId)
    let blob ← sealRecord p w vault r ("ethreads:" ++ k)
    write fun db => { db with ethreads := JsMap.set db.ethreads k ⟨b,.bytes blob⟩ }

def migrateThreads : Action Unit := do
  if (← get).db.threads.isSome then do
    let vault ← requireVault
    let rows ← read fun db => db.threads.getD []
    rows.forM (moveThreadRow p w vault)
    write fun db => { db with threads := some [] }
  else pure ()

/-- A slot that was sealed without a passphrase is sealed again with this one. -/
def resealSlot (passphrase : String) (params : VaultParams) (slot : String) : Action Unit := do
  match ← read fun db => JsMap.get db.identity slot with
  | some { sealed := some sealed, emeta := emeta, metadata := metadata, .. } =>
    if sealed.isProtected then pure ()
    else match SecretVault.openSealed p sealed "" with
    | none => pure ()
    | some secret => do
      let resealed ← sealSecret p w secret passphrase params
      saveSealed p w slot resealed (if emeta.truthy then .undefined else metadata)
  | _ => pure ()

def migrateLegacy (passphrase : String) (params : VaultParams) : Action Unit := do
  migrateMailbox p w
  migratePosts p w
  migrateThreads p w
  ["trip","node"].forM (resealSlot p w passphrase params)

/-- `DataVault.create`, and its sealed key on the disk. -/
def createVault (passphrase : String) (params : VaultParams) : Action Unit := do
  let dek ← randombytes w DataVault.dekBytes
  let salt ← randombytes w 16
  let nonce ← randombytes w DataVault.nonceBytes
  let (vault,sealed) ← .lift (DataVault.create p passphrase params dek salt nonce)
  let updatedAt ← dateNow w
  write fun db => { db with
    identity := JsMap.set db.identity dekSlot ⟨some sealed,.undefined,.undefined,updatedAt⟩ }
  modify fun s => { s with vault := some vault }

def unlock (passphrase : String) (params : VaultParams) : Action Unit := do
  init
  let sealed? ← read Database.dek
  if (← get).isUnlocked then
    match sealed? with
    | none => throw wrongPassphrase
    | some sealed => do
      let _ ← .lift (DataVault.openDek p sealed passphrase)
      pure ()
  else do
    match sealed? with
    | some sealed => do
      let vault ← .lift (DataVault.openDek p sealed passphrase)
      modify fun s => { s with vault := some vault }
    | none => createVault p w passphrase params
    migrateLegacy p w passphrase params

def changePassphrase (oldPassphrase newPassphrase : String) (params : VaultParams) :
    Action Unit := do
  init
  match ← read Database.dek with
  | none => throw (.error "IndexedDBStore: no vault to rewrap")
  | some sealed => do
    let salt ← randombytes w 16
    let nonce ← randombytes w DataVault.nonceBytes
    let sealed ← .lift (DataVault.rewrap p sealed oldPassphrase newPassphrase params salt nonce)
    let updatedAt ← dateNow w
    write fun db => { db with
      identity := JsMap.set db.identity dekSlot ⟨some sealed,.undefined,.undefined,updatedAt⟩ }

end

end IndexedDBStore

/-! What each operation leaves behind, whether it returns or throws. -/

open Program

/-- The session after `n` operations have left the database as `db`. -/
def Session.after (s : Session) (db : Database) (n drawn : Nat) (written : List Written) : Session :=
  { s with db := db, budget := s.budget.map (· - n), drawn := drawn, written := written }

/-- From `s` to `t` there were `n` operations, which left the database as `db`. -/
structure Session.Does (s : Session) (n : Nat) (db : Database) (t : Session) : Prop where
  eq : t = s.after db n t.drawn t.written
  affords : ∀ k, s.budget = some k → n ≤ k

namespace Session.Does

variable {s t u : Session} {m n : Nat} {db db' : Database}

theorem refl (s : Session) : s.Does 0 s.db s := by
  obtain ⟨db,opened,vault,tripKeyPair,budget,drawn,written⟩ := s
  cases budget with
  | none => exact ⟨rfl,fun k hk => by cases hk⟩
  | some k => exact ⟨rfl,fun k hk => Nat.zero_le _⟩

theorem db_eq (h : s.Does n db t) : t.db = db := by
  rw [h.eq]
  rfl

theorem vault_eq (h : s.Does n db t) : t.vault = s.vault := by
  rw [h.eq]
  rfl

theorem opened_eq (h : s.Does n db t) : t.opened = s.opened := by
  rw [h.eq]
  rfl

theorem tripKeyPair_eq (h : s.Does n db t) : t.tripKeyPair = s.tripKeyPair := by
  rw [h.eq]
  rfl

theorem budget_eq (h : s.Does n db t) : t.budget = s.budget.map (· - n) := by
  rw [h.eq]
  rfl

theorem trans (h : s.Does m db t) (h' : t.Does n db' u) : s.Does (m+n) db' u := by
  refine ⟨?_,fun k hk => ?_⟩
  · rw [h'.eq,h.eq]
    simp [Session.after,Function.comp_def,Nat.sub_sub]
  · have hm := h.affords k hk
    have hn := h'.affords (k-m) (by simp [h.budget_eq,hk])
    omega

/-- What has only been drawn does not count. -/
theorem after_draw (h : s.Does 0 s.db t) (h' : t.Does n db u) : s.Does n db u := by
  simpa using h.trans h'

theorem draw (h : s.Does 0 s.db t) (h' : t.Does 0 t.db u) : s.Does 0 s.db u := by
  rw [h.db_eq] at h'
  exact h.after_draw h'

theorem budget_of (h : s.Does n db t) {k : Nat} (ht : t.budget = some k) :
    s.budget = some (n+k) := by
  rw [h.budget_eq] at ht
  obtain ⟨j,hj,rfl⟩ := Option.map_eq_some_iff.mp ht
  have hn := h.affords j hj
  rw [hj,Nat.add_sub_cancel' hn]

/-- The operation after these fails. -/
theorem exhausted (h : s.Does n db t) (ht : t.budget = some 0) : s.budget = some n :=
  h.budget_of ht

end Session.Does

namespace IndexedDBStore

section Specs
variable {p : Primitives} {w : World} {s : Session}

/-- An operation takes effect, or fails and has none. -/
theorem ensures_request {α : Type} (f : Database → α × Database) :
    Ensures s (request f) (fun a t => s.Does 1 (f s.db).2 t ∧ a = (f s.db).1)
      (fun t => t = s ∧ s.budget = some 0) := by
  obtain ⟨db,opened,vault,tripKeyPair,budget,drawn,written⟩ := s
  cases budget with
  | none => exact ⟨⟨rfl,fun k hk => by cases hk⟩,rfl⟩
  | some k =>
    cases k with
    | zero => exact ⟨rfl,rfl⟩
    | succ k =>
      refine ⟨⟨rfl,fun k' hk => ?_⟩,rfl⟩
      cases hk
      omega

theorem ensures_read {α : Type} (f : Database → α) :
    Ensures s (read f) (fun a t => s.Does 1 s.db t ∧ a = f s.db)
      (fun t => t = s ∧ s.budget = some 0) := ensures_request _

theorem ensures_write (f : Database → Database) :
    Ensures s (write f) (fun _ t => s.Does 1 (f s.db) t) (fun t => t = s ∧ s.budget = some 0) :=
  (ensures_request _).mono (fun _ _ h => h.1) fun _ h => h

theorem exec_read {α : Type} (hb : s.budget = none) (f : Database → α) :
    exec (read f) s = (.ok (f s.db),s) := by
  obtain ⟨db,opened,vault,tripKeyPair,budget,drawn,written⟩ := s
  cases hb
  rfl

theorem exec_write (hb : s.budget = none) (f : Database → Database) :
    exec (write f) s = (.ok (),{ s with db := f s.db }) := by
  obtain ⟨db,opened,vault,tripKeyPair,budget,drawn,written⟩ := s
  cases hb
  rfl

theorem ensures_randombytes (length : Nat) :
    Ensures s (randombytes w length) (fun _ t => s.Does 0 s.db t) (fun _ => False) := by
  obtain ⟨db,opened,vault,tripKeyPair,budget,drawn,written⟩ := s
  cases budget with
  | none => exact ⟨rfl,fun k hk => by cases hk⟩
  | some k => exact ⟨rfl,fun k' hk => Nat.zero_le _⟩

theorem ensures_dateNow :
    Ensures s (dateNow w) (fun _ t => s.Does 0 s.db t) (fun _ => False) := by
  obtain ⟨db,opened,vault,tripKeyPair,budget,drawn,written⟩ := s
  cases budget with
  | none => exact ⟨rfl,fun k hk => by cases hk⟩
  | some k => exact ⟨rfl,fun k' hk => Nat.zero_le _⟩

theorem ensures_requireVault :
    Ensures s requireVault (fun v t => t = s ∧ s.vault = some v ∧ v.isOpen = true)
      (fun t => t = s ∧ s.isUnlocked = false) := by
  unfold requireVault
  refine ensures_get_bind ?_
  split
  · next v hv =>
    by_cases ho : v.isOpen = true
    · rw [if_pos ho]
      exact ensures_pure ⟨rfl,hv,ho⟩
    · rw [if_neg ho]
      exact ensures_throw ⟨rfl,by simpa [Session.isUnlocked,hv] using ho⟩
  · next hv => exact ensures_throw ⟨rfl,by simp [Session.isUnlocked,hv]⟩

theorem ensures_sealSecret (secret : Bytes) (passphrase : String) (params : VaultParams) :
    Ensures s (sealSecret p w secret passphrase params)
      (fun sealed t => s.Does 0 s.db t ∧ SecretVault.SealedBy p sealed secret passphrase)
      (fun t => s.Does 0 s.db t) := by
  unfold sealSecret
  refine (ensures_randombytes 16).bind_of_total ?_
  intro salt t ht
  refine (ensures_randombytes DataVault.nonceBytes).bind_of_total ?_
  intro nonce u hu
  rw [ht.db_eq] at hu
  have hsu := ht.trans hu
  exact ensures_lift (fun sealed hs => ⟨hsu,params,salt,nonce,hs⟩) fun _ _ => hsu

/-- What is logged changes nothing else. -/
theorem does_log (s : Session) (written : List Written) :
    s.Does 0 s.db { s with written := written } := by
  obtain ⟨db,opened,vault,tripKeyPair,budget,drawn,_⟩ := s
  cases budget with
  | none => exact ⟨rfl,fun k hk => by cases hk⟩
  | some k => exact ⟨rfl,fun k' hk => Nat.zero_le _⟩

theorem not_open_or_throws {vault : DataVault} {value : Val} {ad : String} {nonce : Bytes}
    {e : Thrown} (h : DataVault.sealRecord p vault value ad nonce = .error e) :
    vault.isOpen = false ∨ throws (p.encode value) = true := by
  unfold DataVault.sealRecord at h
  split at h
  · next hv => exact .inl (by simpa using hv)
  · cases hx : p.encode value with
    | error e => exact .inr rfl
    | ok text => simp [hx,bind,Except.bind] at h

/-- The blob has been sealed for its place. -/
theorem ensures_sealRecord (vault : DataVault) (value : Val) (ad : String) :
    Ensures s (sealRecord p w vault value ad)
      (fun blob t => s.Does 0 s.db t ∧ DataVault.Sealed p vault (.bytes blob) ad value)
      (fun t => s.Does 0 s.db t ∧
        (vault.isOpen = false ∨ throws (p.encode value) = true)) := by
  unfold sealRecord
  refine (ensures_randombytes DataVault.nonceBytes).bind_of_total ?_
  intro nonce t ht
  have hlift : Ensures t (.lift (DataVault.sealRecord p vault value ad nonce))
      (fun blob u => u = t ∧ DataVault.sealRecord p vault value ad nonce = .ok blob)
      (fun u => s.Does 0 s.db u ∧ (vault.isOpen = false ∨ throws (p.encode value) = true)) :=
    ensures_lift (fun blob hb => ⟨rfl,hb⟩) fun e he => ⟨ht,not_open_or_throws he⟩
  refine hlift.bind ?_
  intro blob u ⟨hu,hblob⟩
  have hlogged := ht.draw (does_log t (t.written ++ [⟨vault,ad,value⟩]))
  refine Ensures.bind (Q := fun _ x => s.Does 0 s.db x) (ensures_modify (hu ▸ hlogged)) ?_
  intro _ x hx
  exact ensures_pure ⟨hx,nonce,blob,nonce.2,hblob,rfl⟩

end Specs

end IndexedDBStore

def sampleWorld : World where
  random _ length := ⟨List.replicate length 0,by simp⟩
  keypair _ := ⟨⟨List.replicate 32 1,List.replicate 64 2⟩,by simp⟩
  clock _ := 0

end Storage
