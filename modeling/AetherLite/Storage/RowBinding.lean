import AetherLite.Storage.EncryptedRows

/-! The rows of an unlocked store when somebody without the key has changed them in any way, over
any run of its operations. -/
set_option autoImplicit false

namespace Storage

open Js Program IndexedDBStore

namespace RowBinding

inductive Operation where
  | unlock (passphrase : String) (params : VaultParams)
  | changePassphrase (oldPassphrase newPassphrase : String) (params : VaultParams)
  | put (topicHash : String) (newEntries : List Bytes)
  | save (post : SavedPost)
  | saveBoard (boardId : String) (key : Bytes)
  | removeBoard (boardId : String)
  | setSetting (name : String) (value : Val)
  | saveSealed (slot : String) (sealed : SealedSecret) (metadata : Val)
  | deleteSealed (slot : String)

inductive Call where
  | operation (o : Operation) (budget : Option Nat)
  | lock
  /-- The page is closed, or crashes, and is opened again. -/
  | reload
  /-- The rows on the disk are replaced by any others; the key of a row is its text. -/
  | tamper (db : Database)

section
variable (p : Primitives) (w : World) (fmt : Format) (other : Val → Except Thrown String)

def perform : Operation → Action Unit
  | .unlock passphrase params => unlock p w passphrase params
  | .changePassphrase oldPassphrase newPassphrase params =>
    changePassphrase p w oldPassphrase newPassphrase params
  | .put topicHash newEntries => putMailbox p w other topicHash newEntries
  | .save post => save p w fmt post
  | .saveBoard boardId key => saveBoard p w boardId key
  | .removeBoard boardId => removeBoard p boardId
  | .setSetting name value => setSetting p w name value
  | .saveSealed slot sealed metadata => saveSealed p w slot sealed metadata
  | .deleteSealed slot => deleteSealed slot

def step (s : Session) : Call → Option Session
  | .operation o budget => some (exec (perform p w fmt other o) { s with budget := budget }).2
  | .lock => some { s with vault := none }
  | .reload => some { s with opened := false, vault := none, tripKeyPair := none }
  | .tamper db => some { s with db := db }

end

/-- What a record is asked for by. -/
inductive Key where
  | mailbox (topicHash : String)
  | post (boardId threadId : String)
  | stats (boardId : String)
  | board (boardId : String)
  | setting (name : String)
  | metadata (slot : String)

def Key.label : Key → String
  | .mailbox _ => "emailbox:"
  | .post _ _ => "eposts:"
  | .stats _ => "ethreads:"
  | .board _ => "boards:"
  | .setting _ => "kv:"
  | .metadata _ => "identity:"

theorem Key.label_append {key key' : Key} {a b : String}
    (h : key.label ++ a = key'.label ++ b) : key.label = key'.label ∧ a = b := by
  cases key <;> cases key' <;> simp_all [Key.label,String.ext_iff]

section
variable (p : Primitives)

/-- The records that are written under a key, each with the index value of its row. -/
def Key.Record (v : DataVault) (text : String) (value : Val) : Key → Prop
  | .mailbox topicHash => v.index p "mailbox" topicHash = .ok text ∧
      ∃ entries lastUpdated, value = MailboxEntry.toVal ⟨topicHash,entries,lastUpdated⟩
  | .post boardId threadId => postIndex p v boardId threadId = .ok text ∧
      value.field "boardId" = .str boardId ∧ value.field "threadId" = .str threadId
  | .stats boardId => (∃ threadId, v.index p "thread" threadId = .ok text) ∧
      value.field "boardId" = .str boardId
  | .board boardId => v.index p "boardkey" boardId = .ok text ∧
      ∃ key addedAt, value = boardRecord boardId key addedAt
  | .setting name => v.index p "kv" name = .ok text
  | .metadata slot => slot = text

def WrittenUnder (key : Key) (e : Written) : Prop :=
  ∃ text, e.ad = key.label ++ text ∧ key.Record p e.vault text e.value

/-- A post has a timestamp from which another can be subtracted. -/
def Key.Allows (value : Val) : Key → Prop
  | .post _ _ => (value.field "timestamp").toNumberThrows = false
  | _ => True

/-- So have the posts that were stored in the clear and will be migrated. -/
def Timed (db : Database) : Prop :=
  ∀ r ∈ db.posts.getD [], (postRow? r).isSome → (r.field "timestamp").toNumberThrows = false

/-- What was sealed is a record; and where `T` holds, the posts have timestamps. -/
structure Sound (T : Prop) (s : Session) : Prop where
  written : ∀ e ∈ s.written, ∃ key, WrittenUnder p key e ∧ (T → key.Allows e.value)
  timed : T → Timed s.db

/-- The program leaves a sound store behind. -/
def Keeps (T : Prop) {α : Type} (x : Action α) : Prop :=
  ∀ s, Sound p T s → Ensures s x (fun _ => Sound p T) (Sound p T)

end

section Keeping
variable {p : Primitives} {w : World} {fmt : Format} {other : Val → Except Thrown String}
variable {T : Prop} {α β : Type}

theorem keeps_pure (a : α) : Keeps p T (pure a : Action α) := fun _ h => ensures_pure h

theorem keeps_throw (e : Thrown) : Keeps p T (throw e : Action α) := fun _ h => ensures_throw h

theorem Keeps.bind {x : Action α} {f : α → Action β} (hx : Keeps p T x)
    (hf : ∀ a, Keeps p T (f a)) : Keeps p T (x >>= f) := fun s h => (hx s h).bind fun a t ht => hf a t ht

theorem keeps_get_bind {f : Session → Action β} (hf : ∀ s, Keeps p T (f s)) :
    Keeps p T (get >>= f) := fun s h => ensures_get_bind (hf s s h)

theorem keeps_lift_bind {x : Except Thrown α} {f : α → Action β}
    (hf : ∀ a, x = .ok a → Keeps p T (f a)) : Keeps p T (.lift x >>= f) := by
  intro s h
  have hlift : Ensures s (.lift x) (fun a t => x = .ok a ∧ Sound p T t) (Sound p T) :=
    ensures_lift (fun a ha => ⟨ha,h⟩) fun _ _ => h
  exact hlift.bind fun a t ht => hf a ht.1 t ht.2

theorem keeps_lift (x : Except Thrown α) : Keeps p T (.lift x) :=
  fun _ h => ensures_lift (fun _ _ => h) fun _ _ => h

/-- An operation on the database logs nothing. -/
theorem request_written (f : Database → α × Database) (s : Session) :
    Ensures s (request f) (fun a t => t.written = s.written ∧ t.db = (f s.db).2 ∧ a = (f s.db).1)
      (fun t => t = s) := by
  obtain ⟨db,opened,vault,tripKeyPair,budget,drawn,written⟩ := s
  cases budget with
  | none => exact ⟨rfl,rfl,rfl⟩
  | some k =>
    cases k with
    | zero => exact rfl
    | succ k => exact ⟨rfl,rfl,rfl⟩

theorem keeps_read_bind {g : Database → α} {f : α → Action β}
    (hf : ∀ db, (T → Timed db) → Keeps p T (f (g db))) : Keeps p T (read g >>= f) := by
  intro s h
  refine ((request_written _ s).mono (fun _ _ h => h) fun t ht => ht ▸ h).bind ?_
  intro a t ⟨hw,hdb,ha⟩
  subst ha
  exact hf s.db h.timed t ⟨hw ▸ h.written,hdb ▸ h.timed⟩

theorem keeps_write {f : Database → Database} (hf : ∀ db, Timed db → Timed (f db)) :
    Keeps p T (write f) := by
  intro s h
  refine (request_written _ s).mono ?_ fun t ht => ht ▸ h
  intro _ t ⟨hw,hdb,_⟩
  exact ⟨hw ▸ h.written,fun hT => hdb ▸ hf s.db (h.timed hT)⟩

theorem keeps_modify {f : Session → Session}
    (hf : ∀ s, (f s).written = s.written ∧ (f s).db = s.db) : Keeps p T (modify f) := by
  intro s h
  refine ensures_modify ⟨?_,?_⟩
  · rw [(hf s).1]
    exact h.written
  · rw [(hf s).2]
    exact h.timed

theorem keeps_randombytes (length : Nat) : Keeps p T (randombytes w length) := by
  intro s h
  exact ⟨h.written,h.timed⟩

theorem keeps_dateNow : Keeps p T (dateNow w) := by
  intro s h
  exact ⟨h.written,h.timed⟩

theorem keeps_requireVault : Keeps p T requireVault := by
  intro s h
  refine ensures_requireVault.mono ?_ ?_
  · intro v t ht
    exact ht.1 ▸ h
  · intro t ht
    exact ht.1 ▸ h

/-- What is sealed is a record, in the place of a row for its key. -/
theorem keeps_sealRecord {v : DataVault} {value : Val} {ad : String} (key : Key)
    (h : WrittenUnder p key ⟨v,ad,value⟩) (ha : T → key.Allows value) :
    Keeps p T (sealRecord p w v value ad) := by
  unfold sealRecord
  refine (keeps_randombytes _).bind fun nonce => (keeps_lift _).bind fun blob => ?_
  refine Keeps.bind ?_ fun _ => keeps_pure blob
  intro s hs
  refine ensures_modify ⟨?_,hs.timed⟩
  intro e he
  rcases List.mem_append.mp he with he | he
  · exact hs.written e he
  · rw [List.mem_singleton.mp he]
    exact ⟨key,h,ha⟩

theorem keeps_forM {f : α → Action Unit} {as : List α} (hf : ∀ a ∈ as, Keeps p T (f a)) :
    Keeps p T (as.forM f) := by
  induction as with
  | nil => exact keeps_pure ()
  | cons a as ih =>
    have hrest := ih fun b hb => hf b (List.mem_cons_of_mem a hb)
    exact (hf a List.mem_cons_self).bind fun _ => hrest

theorem keeps_ite {c : Prop} [Decidable c] {x y : Action α} (hx : Keeps p T x) (hy : Keeps p T y) :
    Keeps p T (if c then x else y) := by
  split
  · exact hx
  · exact hy

end Keeping

section Operations
variable {p : Primitives} {w : World} {fmt : Format} {other : Val → Except Thrown String}
variable {T : Prop}

theorem keeps_writeMailbox (record : MailboxEntry) : Keeps p T (writeMailbox p w record) := by
  unfold writeMailbox
  refine keeps_requireVault.bind fun v => keeps_lift_bind fun k hk => ?_
  refine (keeps_lift _).bind fun lastUpdated => ?_
  refine (keeps_sealRecord (.mailbox record.topicHash) ⟨k,rfl,hk,_,_,rfl⟩ fun _ => trivial).bind ?_
  exact fun blob => keeps_write fun _ h => h

theorem keeps_readMailbox (topicHash : String) : Keeps p T (readMailbox p topicHash) := by
  unfold readMailbox
  refine keeps_requireVault.bind fun v => keeps_lift_bind fun k _ => keeps_read_bind fun db _ => ?_
  split
  · exact keeps_pure _
  · exact (keeps_lift _).bind fun _ => keeps_pure _

theorem keeps_putMailbox (topicHash : String) (newEntries : List Bytes) :
    Keeps p T (putMailbox p w other topicHash newEntries) := by
  unfold putMailbox
  refine keeps_get_bind fun s => keeps_ite (keeps_pure ()) ?_
  refine (keeps_readMailbox topicHash).bind fun record => keeps_ite ?_ ?_
  · split
    · exact keeps_throw _
    · refine (keeps_lift _).bind fun added => keeps_ite (keeps_pure ()) ?_
      exact keeps_dateNow.bind fun now => keeps_writeMailbox _
  · exact keeps_dateNow.bind fun now => keeps_writeMailbox _

theorem keeps_transaction {α : Type} {x : Action α} (h : Keeps p T x) :
    Keeps p T (transaction x) := by
  intro s hs
  refine ensures_transaction (h s hs) (fun _ _ _ ht => ⟨ht.written,ht.timed⟩)
    (fun _ _ ht => ⟨ht.written,ht.timed⟩) ?_
  intro t ht
  have hsound : Sound p T t := ht.elim (fun ⟨_,h⟩ => h) id
  exact ⟨hsound.written,hs.timed⟩

theorem keeps_saveStats (vault : DataVault) (post : SavedPost) :
    Keeps p T (saveStats p w fmt vault post) := by
  unfold saveStats
  refine keeps_lift_bind fun k hk => keeps_read_bind fun db _ => (keeps_lift _).bind fun existing => ?_
  refine (keeps_lift _).bind fun maxPow => ?_
  have hcreated : Keeps p T (createdAt w existing post) := by
    unfold createdAt
    refine keeps_ite (keeps_pure _) (keeps_ite (keeps_pure _) ?_)
    exact keeps_dateNow.bind fun _ => keeps_pure _
  refine hcreated.bind fun createdAt => keeps_dateNow.bind fun lastUpdated => ?_
  refine (keeps_lift _).bind fun b => ?_
  obtain ⟨threadId,-,hk⟩ := bind_ok hk
  refine (keeps_sealRecord (.stats post.boardId)
    ⟨k,rfl,⟨threadId,hk⟩,by simp [stats,Val.field,JsMap.get]⟩ fun _ => trivial).bind ?_
  exact fun blob => keeps_write fun _ h => h

theorem keeps_addPost {vault : DataVault} {post : SavedPost} {bt : String}
    (hbt : postIndex p vault post.boardId post.threadId = .ok bt) (timestamp : Nat) :
    Keeps p T (addPost p w vault post bt timestamp) := by
  unfold addPost
  refine (keeps_sealRecord (.post post.boardId post.threadId) ⟨bt,rfl,hbt,?_,?_⟩ ?_).bind ?_
  · simp [postEntry,Val.field,JsMap.get]
  · simp [postEntry,Val.field,JsMap.get]
  · intro _
    simp [Key.Allows,postEntry,Val.field,JsMap.get,Val.toNumberThrows,Val.toStringThrows]
  · exact fun blob => keeps_write fun _ h => h

theorem keeps_save (post : SavedPost) : Keeps p T (save p w fmt post) := by
  unfold save
  refine keeps_get_bind fun s => keeps_ite (keeps_pure ()) ?_
  refine keeps_requireVault.bind fun vault => keeps_lift_bind fun bt hbt => ?_
  refine keeps_dateNow.bind fun timestamp => keeps_transaction ?_
  refine (keeps_addPost hbt timestamp).bind fun _ => ?_
  exact keeps_ite (keeps_saveStats vault post) (keeps_pure ())

theorem keeps_saveBoard (boardId : String) (key : Bytes) : Keeps p T (saveBoard p w boardId key) := by
  unfold saveBoard
  refine keeps_requireVault.bind fun v => keeps_lift_bind fun k hk => ?_
  refine keeps_dateNow.bind fun addedAt => ?_
  refine (keeps_sealRecord (.board boardId) ⟨k,rfl,hk,key,addedAt,rfl⟩ fun _ => trivial).bind ?_
  exact fun blob => keeps_write fun _ h => h

theorem keeps_removeBoard (boardId : String) : Keeps p T (removeBoard p boardId) := by
  unfold removeBoard
  refine keeps_requireVault.bind fun v => (keeps_lift _).bind fun k => ?_
  exact keeps_write fun _ h => h

theorem keeps_setSetting (name : String) (value : Val) : Keeps p T (setSetting p w name value) := by
  unfold setSetting
  refine keeps_requireVault.bind fun v => keeps_lift_bind fun k hk => ?_
  refine (keeps_sealRecord (.setting name) ⟨k,rfl,hk⟩ fun _ => trivial).bind ?_
  exact fun blob => keeps_write fun _ h => h

theorem keeps_saveSealed (slot : String) (sealed : SealedSecret) (metadata : Val) :
    Keeps p T (saveSealed p w slot sealed metadata) := by
  have hmeta : Keeps p T (sealMeta p w slot metadata) := by
    unfold sealMeta
    split
    · exact keeps_pure _
    · refine keeps_requireVault.bind fun v => ?_
      exact (keeps_sealRecord (.metadata slot) ⟨slot,rfl,rfl⟩ fun _ => trivial).bind fun _ =>
        keeps_pure _
  unfold saveSealed
  refine keeps_get_bind fun s => keeps_ite (keeps_pure ()) (keeps_ite (keeps_throw _) ?_)
  refine hmeta.bind fun emeta => keeps_dateNow.bind fun updatedAt => ?_
  exact keeps_write fun _ h => h

theorem keeps_deleteSealed (slot : String) : Keeps p T (deleteSealed slot) := by
  unfold deleteSealed
  exact keeps_get_bind fun s => keeps_ite (keeps_pure ()) (keeps_write fun _ h => h)

theorem keeps_init : Keeps p T init := by
  unfold init
  refine keeps_get_bind fun s => keeps_ite (keeps_pure ()) ?_
  exact (keeps_write fun _ h => h).bind fun _ => keeps_modify fun _ => ⟨rfl,rfl⟩

theorem keeps_changePassphrase (oldPassphrase newPassphrase : String) (params : VaultParams) :
    Keeps p T (changePassphrase p w oldPassphrase newPassphrase params) := by
  unfold changePassphrase
  refine keeps_init.bind fun _ => keeps_read_bind fun db _ => ?_
  split
  · exact keeps_throw _
  · refine (keeps_randombytes _).bind fun salt => (keeps_randombytes _).bind fun nonce => ?_
    refine (keeps_lift _).bind fun sealed => keeps_dateNow.bind fun updatedAt => ?_
    exact keeps_write fun _ h => h

/-- A post that was stored in the clear is sealed under its own board and thread. -/
theorem keeps_copyPost {r : Val} (vault : DataVault)
    (h : T → (postRow? r).isSome → (r.field "timestamp").toNumberThrows = false) :
    Keeps p T (copyPost p w vault r) := by
  unfold copyPost
  split
  · exact keeps_pure ()
  · next boardId threadId hr =>
    refine keeps_lift_bind fun bt hbt => ?_
    obtain ⟨hboard,hthread⟩ : r.field "boardId" = .str boardId ∧ r.field "threadId" = .str threadId := by
      unfold postRow? at hr
      split at hr
      · next hb ht =>
        cases hr
        exact ⟨hb,ht⟩
      · cases hr
    refine (keeps_sealRecord (.post boardId threadId) ⟨bt,rfl,hbt,?_,?_⟩ ?_).bind ?_
    · simp [postRecord,Val.field,JsMap.get] at hboard ⊢
      exact hboard
    · simp [postRecord,Val.field,JsMap.get] at hthread ⊢
      exact hthread
    · intro hT
      simpa [Key.Allows,postRecord,Val.field,JsMap.get] using h hT (by rw [hr]; rfl)
    · exact fun blob => keeps_write fun _ h => h

theorem keeps_moveThreadRow (vault : DataVault) (r : Val) :
    Keeps p T (moveThreadRow p w vault r) := by
  unfold moveThreadRow
  split
  · exact keeps_pure ()
  · next threadId boardId hr =>
    have hboard : r.field "boardId" = .str boardId := by
      unfold threadRow? at hr
      split at hr
      · next hb =>
        cases hr
        exact hb
      · cases hr
    refine keeps_lift_bind fun k hk => (keeps_lift _).bind fun b => ?_
    refine (keeps_sealRecord (.stats boardId) ⟨k,rfl,⟨threadId,hk⟩,hboard⟩ fun _ => trivial).bind ?_
    exact fun blob => keeps_write fun _ h => h

theorem keeps_moveMailboxRow (r : Val) : Keeps p T (moveMailboxRow p w r) := by
  have hnow : Keeps p T (lastUpdatedOrNow w r) := by
    unfold lastUpdatedOrNow
    exact keeps_ite (keeps_pure _) (keeps_dateNow.bind fun _ => keeps_pure _)
  unfold moveMailboxRow
  split
  · exact keeps_pure ()
  · exact hnow.bind fun _ => keeps_writeMailbox _

theorem keeps_sealSecret (secret : Bytes) (passphrase : String) (params : VaultParams) :
    Keeps p T (IndexedDBStore.sealSecret p w secret passphrase params) := by
  unfold IndexedDBStore.sealSecret
  exact (keeps_randombytes _).bind fun _ => (keeps_randombytes _).bind fun _ => keeps_lift _

theorem keeps_resealSlot (passphrase : String) (params : VaultParams) (slot : String) :
    Keeps p T (resealSlot p w passphrase params slot) := by
  unfold resealSlot
  refine keeps_read_bind fun db _ => ?_
  split
  · refine keeps_ite (keeps_pure ()) ?_
    split
    · exact keeps_pure ()
    · exact (keeps_sealSecret _ passphrase params).bind fun _ => keeps_saveSealed slot _ _
  · exact keeps_pure ()

theorem keeps_migrateLegacy (passphrase : String) (params : VaultParams) :
    Keeps p T (migrateLegacy p w passphrase params) := by
  have hempty : ∀ db : Database, Timed { db with posts := some [] } := by
    intro db r hr
    cases hr
  unfold migrateLegacy migrateMailbox migratePosts migrateThreads
  refine (keeps_get_bind fun s => keeps_ite ?_ (keeps_pure ())).bind fun _ => ?_
  · refine keeps_read_bind fun db _ => (keeps_forM fun r _ => keeps_moveMailboxRow r).bind fun _ => ?_
    exact keeps_write fun _ h => h
  refine (keeps_get_bind fun s => keeps_ite ?_ (keeps_pure ())).bind fun _ => ?_
  · refine keeps_requireVault.bind fun vault => keeps_read_bind fun db hdb => ?_
    refine (keeps_forM fun r hr => keeps_copyPost vault fun hT => hdb hT r hr).bind fun _ => ?_
    exact keeps_write fun db _ => hempty db
  refine (keeps_get_bind fun s => keeps_ite ?_ (keeps_pure ())).bind fun _ => ?_
  · refine keeps_requireVault.bind fun vault => keeps_read_bind fun db _ => ?_
    refine (keeps_forM fun r _ => keeps_moveThreadRow vault r).bind fun _ => ?_
    exact keeps_write fun _ h => h
  exact keeps_forM fun slot _ => keeps_resealSlot passphrase params slot

theorem keeps_unlock (passphrase : String) (params : VaultParams) :
    Keeps p T (unlock p w passphrase params) := by
  have hcreate : Keeps p T (createVault p w passphrase params) := by
    unfold createVault
    refine (keeps_randombytes _).bind fun dek => (keeps_randombytes _).bind fun salt => ?_
    refine (keeps_randombytes _).bind fun nonce => (keeps_lift _).bind fun r => ?_
    refine keeps_dateNow.bind fun updatedAt => Keeps.bind ?_ fun _ => ?_
    · exact keeps_write fun _ h => h
    · exact keeps_modify fun _ => ⟨rfl,rfl⟩
  unfold unlock
  refine keeps_init.bind fun _ => keeps_read_bind fun db _ => keeps_get_bind fun s => ?_
  refine keeps_ite ?_ ?_
  · split
    · exact keeps_throw _
    · exact (keeps_lift _).bind fun _ => keeps_pure ()
  · dsimp only
    split
    · refine (keeps_lift _).bind fun vault => Keeps.bind ?_ fun _ => keeps_migrateLegacy passphrase params
      exact keeps_modify fun _ => ⟨rfl,rfl⟩
    · exact hcreate.bind fun _ => keeps_migrateLegacy passphrase params

theorem keeps_perform (o : Operation) : Keeps p T (perform p w fmt other o) := by
  cases o with
  | unlock passphrase params => exact keeps_unlock passphrase params
  | changePassphrase old new params => exact keeps_changePassphrase old new params
  | put topicHash newEntries => exact keeps_putMailbox topicHash newEntries
  | save post => exact keeps_save post
  | saveBoard boardId key => exact keeps_saveBoard boardId key
  | removeBoard boardId => exact keeps_removeBoard boardId
  | setSetting name value => exact keeps_setSetting name value
  | saveSealed slot sealed metadata => exact keeps_saveSealed slot sealed metadata
  | deleteSealed slot => exact keeps_deleteSealed slot

/-- Whoever replaces the rows leaves the posts in the clear their timestamps. -/
def KeepsTimes : Session → Call → Prop
  | _,.tamper db => Timed db
  | _,_ => True

theorem sound_step {s t : Session} {c : Call} (h : Sound p T s) (hc : T → KeepsTimes s c)
    (ht : step p w fmt other s c = some t) : Sound p T t := by
  cases c with
  | operation o budget =>
    cases ht
    have hbudget : Sound p T { s with budget := budget } := ⟨h.written,h.timed⟩
    exact (keeps_perform o _ hbudget).state rfl
  | lock =>
    cases ht
    exact ⟨h.written,h.timed⟩
  | reload =>
    cases ht
    exact ⟨h.written,h.timed⟩
  | tamper db =>
    cases ht
    exact ⟨h.written,hc⟩

end Operations

section Reading
variable (p : Primitives)

def blobs (db : Database) : List Val :=
  db.emailbox.map (fun e => e.2.blob) ++ db.eposts.map PostRow.blob ++
    db.ethreads.map (fun e => e.2.blob) ++ db.boards.map Prod.snd ++ db.kv.map Prod.snd

/-- What opens on the disk was sealed so; without the key, nobody makes anything else that opens. -/
def Unforged (v : DataVault) (s : Session) : Prop :=
  ∀ bytes, Val.bytes bytes ∈ blobs s.db → ∀ ad text,
    p.aeadDecrypt (bytes.drop DataVault.nonceBytes) ad (bytes.take DataVault.nonceBytes) v.encKey =
      some text → ∃ e ∈ s.written, e.vault = v ∧ Bytes.utf8 e.ad = ad ∧ p.encode e.value = .ok text

/-- A record was at some time written under a key. -/
def Was (v : DataVault) (s : Session) (key : Key) (value : Val) : Prop :=
  ∃ e ∈ s.written, e.vault = v ∧ e.value = value ∧ WrittenUnder p key e

/-- What a program returns when no operation on the database fails. -/
def returned {α : Type} (x : Action α) (s : Session) : Except Thrown α :=
  (exec x { s with budget := none }).1

/-- The posts of a thread on the disk. -/
def postsOf (v : DataVault) (s : Session) (boardId threadId : String) : List Val :=
  match postIndex p v boardId threadId with
  | .error _ => []
  | .ok bt => (rowsOfThread s.db bt).filterMap fun row =>
      (openPost p v boardId threadId bt row).toOption.join

/-- There is no second post, or each has a timestamp from which another can be subtracted. -/
def Sortable (v : DataVault) (s : Session) : Prop :=
  ∀ boardId threadId, s.opened = true → (postsOf p v s boardId threadId).length < 2 ∨
    ∀ q ∈ postsOf p v s boardId threadId, (q.field "timestamp").toNumberThrows = false

/-- Every read returns records that were written under the key it is given, up to what msgpack does
not tell apart, or nothing. -/
structure Bound (v : DataVault) (s : Session) : Prop where
  get : ∀ topicHash, ∃ r, returned (getMailbox p topicHash) s = .ok r ∧ (r = .undefined ∨
    ∃ value, Was p v s (.mailbox topicHash) value ∧ r.Same (value.field "entries"))
  getPosts : ∀ boardId threadId, ∃ r, returned (getPosts p boardId threadId) s = .ok r ∧
    ∀ q ∈ r, ∃ value post id, Was p v s (.post boardId threadId) value ∧ post.Same value ∧
      q = withId post id
  getThreads : ∀ boardId, ∃ r, returned (getThreads p boardId) s = .ok r ∧
    ∀ q ∈ r, ∃ value, Was p v s (.stats boardId) value ∧ q.Same value
  getBoardKey : ∀ boardId, ∃ r, returned (getBoardKey p boardId) s = .ok r ∧ (r = .null ∨
    ∃ value, Was p v s (.board boardId) value ∧ r.Same (value.field "key"))
  listBoards : ∃ r, returned (listBoards p) s = .ok r ∧
    ∀ q ∈ r, ∃ boardId value, Was p v s (.board boardId) value ∧ q.Same value
  getSetting : ∀ name, ∃ r, returned (getSetting p name) s = .ok r ∧ (r = .undefined ∨
    ∃ value, Was p v s (.setting name) value ∧ r.Same value)

end Reading

section Reads
variable {p : Primitives} {v : DataVault} {s : Session} {T : Prop} {α β : Type}

theorem returned_vault_bind (hv : s.vault = some v) (ho : v.isOpen = true)
    (f : DataVault → Action β) : returned (requireVault >>= f) s = returned (f v) s := by
  obtain ⟨db,opened,vault,tripKeyPair,budget,drawn,written⟩ := s
  subst hv
  have hvault : exec requireVault ⟨db,opened,some v,tripKeyPair,none,drawn,written⟩ =
      (.ok v,⟨db,opened,some v,tripKeyPair,none,drawn,written⟩) := by
    change exec (if v.isOpen then pure v else throw _) _ = _
    rw [if_pos ho]
    rfl
  rw [returned,exec_bind,hvault]
  rfl

theorem returned_lift_bind {x : Except Thrown α} {a : α} (hx : x = .ok a) (f : α → Action β) :
    returned (.lift x >>= f) s = returned (f a) s := by
  rw [hx]
  rfl

theorem returned_read_bind (g : Database → α) (f : α → Action β) :
    returned (read g >>= f) s = returned (f (g s.db)) s := rfl

theorem returned_opened {x y : Action α} :
    returned (do if (← get).opened = false then x else y) s =
      if s.opened = false then returned x s else returned y s := by
  have hget : returned (do if (← get).opened = false then x else y) s =
      returned (if s.opened = false then x else y) s := rfl
  rw [hget]
  split <;> rfl

theorem returned_lift (x : Except Thrown α) : returned (.lift x) s = x := by
  cases x <;> rfl

/-- What a blob opens to was sealed for that place. -/
theorem opens (hp : p.Ideal) (ho : v.isOpen = true) (hs : Sound p T s) (hf : Unforged p v s)
    {blob : Val} (hb : blob ∈ blobs s.db) (place : String) (kind : Key) (text : String)
    (hplace : place = kind.label ++ text) :
    ∃ o, v.openRecord p blob place = .ok o ∧ ∀ opened, o = some opened →
      ∃ key value, Was p v s key value ∧ opened.Same value ∧ key.label = kind.label ∧
        key.Record p v text value ∧ (T → key.Allows value) := by
  subst hplace
  unfold DataVault.openRecord
  rw [ho]
  cases blob with
  | bytes bytes =>
    simp only [Bool.not_true,Bool.false_eq_true,if_false]
    split
    · exact ⟨none,rfl,fun _ h => by cases h⟩
    refine ⟨_,rfl,?_⟩
    intro opened hopened
    obtain ⟨plain,hplain,hdecode⟩ := Option.bind_eq_some_iff.mp hopened
    obtain ⟨e,he,hvault,had,hencode⟩ := hf bytes hb _ plain hplain
    obtain ⟨decoded,hdecoded,hsame⟩ := hp.encoding e.value plain hencode
    cases hdecode.symm.trans hdecoded
    obtain ⟨key,⟨text',had',hrecord⟩,hallows⟩ := hs.written e he
    obtain ⟨hlabel,rfl⟩ := Key.label_append (had'.symm.trans (Bytes.utf8_inj had))
    exact ⟨key,e.value,⟨e,he,hvault,rfl,_,had',hrecord⟩,hsame,hlabel,hvault ▸ hrecord,hallows⟩
  | _ => exact ⟨none,rfl,fun _ h => by cases h⟩

theorem get_reads (hp : p.Ideal) (hv : s.vault = some v) (ho : v.isOpen = true) (hs : Sound p T s)
    (hf : Unforged p v s) (topicHash : String) :
    ∃ r, returned (getMailbox p topicHash) s = .ok r ∧ (r = .undefined ∨
      ∃ value, Was p v s (.mailbox topicHash) value ∧ r.Same (value.field "entries")) := by
  obtain ⟨k,hk⟩ := DataVault.index_ok (p := p) ho "mailbox" topicHash
  unfold getMailbox
  rw [returned_opened]
  split
  · exact ⟨_,rfl,.inl rfl⟩
  unfold readMailbox
  simp only [bind_assoc]
  rw [returned_vault_bind hv ho,returned_lift_bind hk,returned_read_bind]
  cases hrow : JsMap.get s.db.emailbox k with
  | none => exact ⟨_,rfl,.inl rfl⟩
  | some row =>
    have hb : row.blob ∈ blobs s.db := by
      have hmem : row.blob ∈ s.db.emailbox.map fun e => e.2.blob :=
        List.mem_map.mpr ⟨_,JsMap.mem_of_get hrow,rfl⟩
      simp [blobs,hmem]
    obtain ⟨o,hopen,hwritten⟩ := opens hp ho hs hf hb ("emailbox:" ++ k) (.mailbox topicHash) k rfl
    simp only [bind_assoc]
    rw [returned_lift_bind hopen]
    refine ⟨_,rfl,?_⟩
    cases o with
    | none => exact .inl rfl
    | some opened =>
      obtain ⟨key,value,hwas,hsame,hlabel,hrecord,-⟩ := hwritten opened rfl
      cases key with
      | mailbox topicHash' =>
        obtain rfl := DataVault.index_inj hp hrecord.1 hk
        rw [orUndefined]
        split
        · exact .inl rfl
        · exact .inr ⟨value,hwas,hsame.field "entries"⟩
      | _ => simp [Key.label] at hlabel

theorem field_withId (post : Val) (id : Nat) {name : String} (h : name ≠ "id") :
    (withId post id).field name = post.field name := by
  cases post with
  | obj fs => simp [withId,Val.field,JsMap.get_set_ne _ h]
  | _ => simp [withId,Val.field,JsMap.get,Ne.symm h]

/-- Two elements or more can be sorted by a property when all have a Number there. -/
theorem sortByField_ok {name : String} {vs : List Val}
    (h : vs.length < 2 ∨ ∀ v ∈ vs, (v.field name).toNumberThrows = false) :
    ∃ r, sortByField name vs = .ok r ∧ r.Perm vs := by
  unfold sortByField
  split
  · exact ⟨vs,rfl,.refl vs⟩
  next htwo =>
  have hkeyed : ∀ v ∈ vs, ∃ y, (do .ok (v,← (v.field name).toNumber) : Except Thrown (Val × Number)) =
      .ok y ∧ True := by
    intro v hv
    have hnumber := h.resolve_left htwo v hv
    obtain ⟨n,hn⟩ := throws_eq_false ((Val.throws_toNumber _).trans hnumber)
    exact ⟨(v,n),by rw [hn]; rfl,trivial⟩
  obtain ⟨keyed,hmap,-⟩ := mapM_ok hkeyed
  refine ⟨_,by rw [hmap]; rfl,?_⟩
  have hfst : keyed.map Prod.fst = vs := by
    refine map_of_mapM ?_ hmap
    intro v y hy
    obtain ⟨n,-,hy⟩ := bind_ok hy
    cases hy
    rfl
  rw [← hfst]
  exact (sortBy_perm _ keyed).map Prod.fst

theorem of_sortByField_ok {name : String} {vs r : List Val} (h : sortByField name vs = .ok r) :
    vs.length < 2 ∨ ∀ v ∈ vs, (v.field name).toNumberThrows = false := by
  unfold sortByField at h
  split at h
  · next htwo => exact .inl htwo
  obtain ⟨keyed,hmap,-⟩ := bind_ok h
  have hnone := throws_mapM (fun v => (do .ok (v,← (v.field name).toNumber) :
    Except Thrown (Val × Number))) vs
  rw [hmap,throws_ok] at hnone
  refine .inr fun v hv => ?_
  have hv := List.any_eq_false.mp hnone.symm v hv
  rw [← Val.throws_toNumber]
  cases hn : (v.field name).toNumber with
  | ok n => rfl
  | error e => simp [hn,bind,Except.bind] at hv

theorem eq_of_isOf {post : Val} {name text : String}
    (h : (post.field name).strictEq (.str text) = true) {value : Val} (hsame : post.Same value) :
    value.field name = .str text := by
  have hfield := (hsame.field name).symm
  rw [Val.eq_of_strictEq h] at hfield
  exact str_of_same hfield

/-- A post that is read was written for its thread. -/
theorem openPost_reads (hp : p.Ideal) (ho : v.isOpen = true) (hs : Sound p T s)
    (hf : Unforged p v s) {boardId threadId bt : String} {row : PostRow}
    (hrow : row ∈ rowsOfThread s.db bt) :
    ∃ o, openPost p v boardId threadId bt row = .ok o ∧ ∀ q, o = some q →
      (∃ value post id, Was p v s (.post boardId threadId) value ∧ post.Same value ∧
        q = withId post id) ∧ (T → (q.field "timestamp").toNumberThrows = false) := by
  have hmem : row ∈ s.db.eposts :=
    (List.mem_filter.mp ((List.perm_insertionSort _ _).subset hrow)).1
  have hb : row.blob ∈ blobs s.db := by
    simp only [blobs,List.mem_append,List.mem_map]
    exact .inl (.inl (.inl (.inr ⟨row,hmem,rfl⟩)))
  obtain ⟨o,hopen,hwritten⟩ := opens hp ho hs hf hb ("eposts:" ++ bt)
    (.post boardId threadId) bt rfl
  refine ⟨_,by rw [openPost,hopen]; rfl,?_⟩
  intro q hq
  obtain ⟨post,hpost,rfl⟩ := Option.map_eq_some_iff.mp hq
  obtain ⟨rfl,hof⟩ := Option.filter_eq_some_iff.mp hpost
  obtain ⟨key,value,hwas,hsame,hlabel,hrecord,hallows⟩ := hwritten post rfl
  simp only [isOfThread,Bool.and_eq_true] at hof
  cases key with
  | post boardId' threadId' =>
    have hboard := eq_of_isOf hof.1.2 hsame
    have hthread := eq_of_isOf hof.2 hsame
    cases hboard.symm.trans hrecord.2.1
    cases hthread.symm.trans hrecord.2.2
    refine ⟨⟨value,post,row.id,hwas,hsame,rfl⟩,fun hT => ?_⟩
    rw [field_withId post row.id (by decide),(hsame.field "timestamp").toNumberThrows]
    exact hallows hT
  | _ => simp [Key.label] at hlabel

/-- The posts of a thread are sorted, of which each was written for it. -/
theorem getPosts_eq (hp : p.Ideal) (hv : s.vault = some v) (ho : v.isOpen = true)
    (hs : Sound p T s) (hf : Unforged p v s) (boardId threadId : String) :
    (returned (getPosts p boardId threadId) s = if s.opened = false then .ok []
      else sortByField "timestamp" (postsOf p v s boardId threadId)) ∧
    ∀ q ∈ postsOf p v s boardId threadId, (∃ value post id,
      Was p v s (.post boardId threadId) value ∧ post.Same value ∧ q = withId post id) ∧
        (T → (q.field "timestamp").toNumberThrows = false) := by
  obtain ⟨bt,hbt⟩ : ∃ bt, postIndex p v boardId threadId = .ok bt :=
    DataVault.index_ok ho "posts" (boardId ++ "\x00" ++ threadId)
  have hopened : (rowsOfThread s.db bt).mapM (openPost p v boardId threadId bt) = .ok
      ((rowsOfThread s.db bt).map fun row => (openPost p v boardId threadId bt row).toOption.join) := by
    refine mapM_eq_map fun row hrow => ?_
    obtain ⟨o,ho,-⟩ : ∃ o, openPost p v boardId threadId bt row = .ok o ∧ _ :=
      openPost_reads hp ho hs hf hrow
    rw [ho]
    rfl
  have hposts : postsOf p v s boardId threadId = (rowsOfThread s.db bt).filterMap fun row =>
      (openPost p v boardId threadId bt row).toOption.join := by rw [postsOf,hbt]
  constructor
  · unfold getPosts
    rw [returned_opened]
    split
    · rfl
    rw [returned_vault_bind hv ho,returned_lift_bind hbt,returned_read_bind,returned_lift,openPosts,
      hopened,hposts]
    change sortByField "timestamp" (List.filterMap id (List.map _ _)) = _
    rw [List.filterMap_map]
    rfl
  · intro q hq
    rw [hposts] at hq
    obtain ⟨row,hrow,hq⟩ := List.mem_filterMap.mp hq
    obtain ⟨o,ho,hall⟩ : ∃ o, openPost p v boardId threadId bt row = .ok o ∧ _ :=
      openPost_reads hp ho hs hf hrow
    rw [ho] at hq
    exact hall q hq

theorem getThreads_reads (hp : p.Ideal) (hv : s.vault = some v) (ho : v.isOpen = true)
    (hs : Sound p T s) (hf : Unforged p v s) (boardId : String) :
    ∃ r, returned (getThreads p boardId) s = .ok r ∧
      ∀ q ∈ r, ∃ value, Was p v s (.stats boardId) value ∧ q.Same value := by
  obtain ⟨b,hb⟩ := DataVault.index_ok (p := p) ho "board" boardId
  unfold getThreads
  rw [returned_opened]
  split
  · exact ⟨_,rfl,by simp⟩
  rw [returned_vault_bind hv ho,returned_lift_bind hb,returned_read_bind,returned_lift]
  have hrows : ∀ e ∈ rowsOfBoard s.db b, ∃ o, v.openRecord p e.2.blob (threadPlace e.1) = .ok o ∧
      ∀ q, o = some q → isOfBoard boardId q = true →
        ∃ value, Was p v s (.stats boardId) value ∧ q.Same value := by
    intro e he
    have hmem : e ∈ s.db.ethreads :=
      (List.mem_filter.mp ((List.mergeSort_perm _ _).subset he)).1
    have hblob : e.2.blob ∈ blobs s.db := by
      simp only [blobs,List.mem_append,List.mem_map]
      exact .inl (.inl (.inr ⟨e,hmem,rfl⟩))
    obtain ⟨o,hopen,hwritten⟩ := opens hp ho hs hf hblob (threadPlace e.1) (.stats boardId) e.1 rfl
    refine ⟨o,hopen,?_⟩
    intro q hq hof
    obtain ⟨key,value,hwas,hsame,hlabel,hrecord,-⟩ := hwritten q hq
    cases key with
    | stats boardId' =>
      have hboard := eq_of_isOf hof hsame
      cases hboard.symm.trans hrecord.2
      exact ⟨value,hwas,hsame⟩
    | _ => simp [Key.label] at hlabel
  obtain ⟨opened,hopened,hall⟩ := mapM_ok hrows
  refine ⟨_,by rw [openThreads,hopened]; rfl,?_⟩
  intro q hq
  obtain ⟨hq,hof⟩ := List.mem_filter.mp hq
  obtain ⟨o,hmem,ho⟩ := List.mem_filterMap.mp hq
  exact hall o hmem q ho hof

theorem getBoardKey_reads (hp : p.Ideal) (hv : s.vault = some v) (ho : v.isOpen = true)
    (hs : Sound p T s) (hf : Unforged p v s) (boardId : String) :
    ∃ r, returned (getBoardKey p boardId) s = .ok r ∧ (r = .null ∨
      ∃ value, Was p v s (.board boardId) value ∧ r.Same (value.field "key")) := by
  obtain ⟨k,hk⟩ := DataVault.index_ok (p := p) ho "boardkey" boardId
  unfold getBoardKey
  rw [returned_vault_bind hv ho,returned_lift_bind hk,returned_read_bind]
  cases hrow : JsMap.get s.db.boards k with
  | none => exact ⟨_,rfl,.inl rfl⟩
  | some blob =>
    have hb : blob ∈ blobs s.db := by
      have hmem := JsMap.mem_of_get hrow
      simp only [blobs,List.mem_append,List.mem_map]
      exact .inl (.inr ⟨_,hmem,rfl⟩)
    obtain ⟨o,hopen,hwritten⟩ := opens hp ho hs hf hb ("boards:" ++ k) (.board boardId) k rfl
    dsimp only
    rw [returned_lift_bind hopen]
    refine ⟨_,rfl,?_⟩
    cases o with
    | none => exact .inl rfl
    | some opened =>
      obtain ⟨key,value,hwas,hsame,hlabel,hrecord,-⟩ := hwritten opened rfl
      cases key with
      | board boardId' =>
        obtain rfl := DataVault.index_inj hp hrecord.1 hk
        rw [keyOfBoard]
        split
        · exact .inr ⟨value,hwas,hsame.field "key"⟩
        · exact .inl rfl
      | _ => simp [Key.label] at hlabel

theorem listBoards_reads (hp : p.Ideal) (hv : s.vault = some v) (ho : v.isOpen = true)
    (hs : Sound p T s) (hf : Unforged p v s) :
    ∃ r, returned (listBoards p) s = .ok r ∧
      ∀ q ∈ r, ∃ boardId value, Was p v s (.board boardId) value ∧ q.Same value := by
  unfold listBoards
  rw [returned_vault_bind hv ho,returned_read_bind,returned_lift]
  have hrows : ∀ e ∈ s.db.boards.insertionSort fun e f => e.1 ≤ f.1,
      ∃ o, v.openRecord p e.2 ("boards:" ++ e.1) = .ok o ∧ ∀ q, o = some q →
        (∃ boardId value, Was p v s (.board boardId) value ∧ q.Same value) ∧
          (q.field "addedAt").toNumberThrows = false := by
    intro e he
    have hmem : e ∈ s.db.boards := (List.perm_insertionSort _ _).subset he
    have hblob : e.2 ∈ blobs s.db := by
      simp only [blobs,List.mem_append,List.mem_map]
      exact .inl (.inr ⟨e,hmem,rfl⟩)
    obtain ⟨o,hopen,hwritten⟩ := opens hp ho hs hf hblob ("boards:" ++ e.1) (.board "") e.1 rfl
    refine ⟨o,hopen,?_⟩
    intro q hq
    obtain ⟨key,value,hwas,hsame,hlabel,hrecord,-⟩ := hwritten q hq
    cases key with
    | board boardId =>
      refine ⟨⟨boardId,value,hwas,hsame⟩,?_⟩
      obtain ⟨-,bytes,addedAt,rfl⟩ := hrecord
      rw [(hsame.field "addedAt").toNumberThrows]
      simp [boardRecord,Val.field,JsMap.get,Val.toNumberThrows,Val.toStringThrows]
    | _ => simp [Key.label] at hlabel
  obtain ⟨opened,hopened,hall⟩ := mapM_ok hrows
  have hboards : ∀ q ∈ (opened.filterMap id).filter fun r => !r.strictEq .null,
      (∃ boardId value, Was p v s (.board boardId) value ∧ q.Same value) ∧
        (q.field "addedAt").toNumberThrows = false := by
    intro q hq
    obtain ⟨o,hmem,ho⟩ := List.mem_filterMap.mp (List.mem_filter.mp hq).1
    exact hall o hmem q ho
  obtain ⟨r,hr,hperm⟩ := sortByField_ok (.inr fun q hq => (hboards q hq).2)
  refine ⟨r,?_,fun q hq => (hboards q (hperm.subset hq)).1⟩
  rw [openBoards,hopened]
  exact hr

theorem getSetting_reads (hp : p.Ideal) (hv : s.vault = some v) (ho : v.isOpen = true)
    (hs : Sound p T s) (hf : Unforged p v s) (name : String) :
    ∃ r, returned (getSetting p name) s = .ok r ∧ (r = .undefined ∨
      ∃ value, Was p v s (.setting name) value ∧ r.Same value) := by
  obtain ⟨k,hk⟩ := DataVault.index_ok (p := p) ho "kv" name
  unfold getSetting
  rw [returned_vault_bind hv ho,returned_lift_bind hk,returned_read_bind]
  cases hrow : JsMap.get s.db.kv k with
  | none => exact ⟨_,rfl,.inl rfl⟩
  | some blob =>
    have hb : blob ∈ blobs s.db := by
      have hmem := JsMap.mem_of_get hrow
      simp only [blobs,List.mem_append,List.mem_map]
      exact .inr ⟨_,hmem,rfl⟩
    obtain ⟨o,hopen,hwritten⟩ := opens hp ho hs hf hb ("kv:" ++ k) (.setting name) k rfl
    dsimp only
    rw [returned_lift_bind hopen]
    refine ⟨_,rfl,?_⟩
    cases o with
    | none => exact .inl rfl
    | some opened =>
      obtain ⟨key,value,hwas,hsame,hlabel,hrecord,-⟩ := hwritten opened rfl
      cases key with
      | setting name' =>
        obtain rfl := DataVault.index_inj hp hrecord hk
        rw [orUndefined]
        split
        · exact .inl rfl
        · exact .inr ⟨value,hwas,hsame⟩
      | _ => simp [Key.label] at hlabel

end Reads

section Runs
variable (p : Primitives) (w : World) (fmt : Format) (other : Val → Except Thrown String)

end Runs

/-! A stand-in whose boxes show the place they were sealed for. -/

namespace Sample

/-- A post in the clear whose timestamp has no Number. -/
def oddPost : Val := .obj [
  ("boardId",.str "B"),("threadId",.str "T"),("timestamp",.obj [("toString",.null)])]

def encode : Val → Except Thrown Bytes
  | .obj [("boardId",.str "B"),("threadId",.str "T"),("payload",.undefined),
      ("timestamp",.obj [("toString",.null)])] => .ok [1]
  | .str "x" => .ok [2]
  | .str "y" => .ok [3]
  | _ => .error (.error "not encoded")

def decode : Bytes → Option Val
  | [1] => some (postRecord oddPost)
  | [2] => some (.str "x")
  | [3] => some (.str "y")
  | _ => none

theorem decode_encode {v : Val} {bs : Bytes} (h : encode v = .ok bs) : decode bs = some v := by
  unfold encode at h
  split at h
  · cases h
    rfl
  · cases h
    rfl
  · cases h
    rfl
  · cases h

def primitives : Primitives :=
  { sample with
    aeadEncrypt := fun m ad _ _ => Storage.Sample.close ad m
    aeadDecrypt := fun c ad _ _ => Storage.Sample.reopen ad c
    encode := encode
    decode := decode }

theorem ideal : primitives.Ideal where
  box := sample_ideal.box
  boxKey := sample_ideal.boxKey
  passphrase := sample_ideal.passphrase
  limits := sample_ideal.limits
  aead m ad _ _ := Storage.Sample.reopen_close ad m
  tag m ad _ _ := by simp [primitives,Storage.Sample.close,Storage.Sample.frame]
  hash := sample_ideal.hash
  encoding v _ h := ⟨v,decode_encode h,rfl⟩

def format : Format where
  number _ := ""
  date _ := ""

def noHex (_ : Val) : Except Thrown String := .error (.error "no bytes")

abbrev next : Session → Call → Option Session := step primitives sampleWorld format noHex

def wasSealed (v : DataVault) (s : Session) (ad text : Bytes) : Bool :=
  s.written.any fun e => e.vault.encKey == v.encKey && e.vault.idxKey == v.idxKey &&
    Bytes.utf8 e.ad == ad && (encode e.value).toOption == some text

def unforged (v : DataVault) (s : Session) : Bool :=
  (blobs s.db).all fun
    | .bytes bytes =>
      ((Storage.Sample.unframe (bytes.drop DataVault.nonceBytes)).all fun r => wasSealed v s r.1 r.2)
    | _ => true

theorem unforged_of_check {v : DataVault} {s : Session} (h : unforged v s = true) :
    Unforged primitives v s := by
  intro bytes hmem ad text hopen
  have hblob := List.all_eq_true.mp h _ hmem
  obtain ⟨⟨ad',text'⟩,hframe,hr⟩ := Option.bind_eq_some_iff.mp hopen
  obtain ⟨rfl,rfl⟩ : ad' = ad ∧ text' = text := by simpa using hr
  simp only [hframe,Option.all_some,wasSealed,List.any_eq_true,Bool.and_eq_true,beq_iff_eq] at hblob
  obtain ⟨e,he,⟨⟨henc,hidx⟩,had⟩,hencode⟩ := hblob
  refine ⟨e,he,?_,had,?_⟩
  · obtain ⟨⟨encKey,idxKey⟩,_,_⟩ := e
    obtain ⟨encKey',idxKey'⟩ := v
    cases henc
    cases hidx
    rfl
  · change encode e.value = _
    cases hx : encode e.value with
    | error _ => simp [hx,Except.toOption] at hencode
    | ok bs => simpa [hx,Except.toOption] using hencode

def sampleParams : VaultParams := ⟨1,8192⟩

/-- Two settings. -/
def settings : List Call := [
  .operation (.unlock "secret" sampleParams) none,
  .operation (.setSetting "a" (.str "x")) none,
  .operation (.setSetting "b" (.str "y")) none]

def blobFor (ad : String) (text : Bytes) : Val :=
  .bytes (List.replicate 24 0 ++ Storage.Sample.close (Bytes.utf8 ad) text)

/-- The rows of the settings with their blobs exchanged. -/
def exchanged : Database where
  kv := [("6b760061",blobFor "kv:6b760062" [3]),("6b760062",blobFor "kv:6b760061" [2])]

/-- The posts in the clear are replaced before the store is unlocked. -/
def oddRun : List Call := [
  .tamper { posts := some [oddPost,oddPost] },
  .operation (.unlock "secret" sampleParams) none]

def isReady (s : Session) : Bool :=
  match s.vault with
  | some v => v.isOpen && unforged v s
  | none => false

theorem ready {calls : List Call} (h : (Machine.run next {} calls).map isReady = some true) :
    ∃ s v, Machine.run next {} calls = some s ∧ s.vault = some v ∧ v.isOpen = true ∧
      Unforged primitives v s := by
  obtain ⟨s,hs,hready⟩ := Option.map_eq_some_iff.mp h
  unfold isReady at hready
  split at hready
  · next v hv =>
    rw [Bool.and_eq_true] at hready
    exact ⟨s,v,hs,hv,hready.1,unforged_of_check hready.2⟩
  · cases hready

end Sample


section Samples
open RowBinding.Sample

theorem exchanged_ready :
    (Machine.run next {} (settings ++ [.tamper exchanged])).map isReady = some true := by
  decide +kernel

theorem odd_ready : (Machine.run next {} oddRun).map isReady = some true := by decide +kernel

end Samples

end RowBinding

end Storage
