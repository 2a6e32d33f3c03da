import Mathlib.Data.List.Forall2
import AetherLite.Lib.Machine
import AetherLite.Storage.IndexedDBStore

/-! The migration of the rows that were stored in the clear, over any number of calls of
`unlock` and `lock` on a database whose operations may fail. -/
set_option autoImplicit false

namespace Storage

open Js Program IndexedDBStore

/-- One of the object stores that have the key of a row in the row. -/
structure KeyedStore (ν : Type) where
  rows : Database → JsMap String ν
  put : Database → JsMap String ν → Database
  rows_put : ∀ db m, rows (put db m) = m
  put_put : ∀ db m m', put (put db m) m' = put db m'
  put_rows : ∀ db, put db (rows db) = db

def emailboxStore : KeyedStore MailboxRow where
  rows := Database.emailbox
  put db m := { db with emailbox := m }
  rows_put _ _ := rfl
  put_put _ _ _ := rfl
  put_rows _ := rfl

def ethreadsStore : KeyedStore ThreadRow where
  rows := Database.ethreads
  put db m := { db with ethreads := m }
  rows_put _ _ := rfl
  put_put _ _ _ := rfl
  put_rows _ := rfl

def DistinctKeys (key : Val → Option String) (rows : List Val) : Prop :=
  ∀ r ∈ rows, ∀ r' ∈ rows, ∀ k, key r = some k → key r' = some k → r = r'

/-- A store that has been cleared; one that was never made stays away. -/
def emptied : Option (List Val) → Option (List Val) := Option.map fun _ => []

/-- The operations the migration of the store `mailbox` makes. -/
def mailboxOps (db : Database) : Nat :=
  match db.mailbox with
  | none => 0
  | some rows => (rows.countP fun r => (mailboxRow? r).isSome)+2

section
variable (p : Primitives) (v : DataVault)

/-- The key a row of the store `mailbox` is migrated to. -/
def mailboxKey (r : Val) : Option String :=
  (mailboxRow? r).bind fun row => (v.index p "mailbox" row.1).toOption

def MailboxHolds (k : String) (r : Val) (row : MailboxRow) : Prop :=
  ∃ topicHash entries lastUpdated, mailboxRow? r = some (topicHash,entries) ∧
    ((r.field "lastUpdated").truthy = true → lastUpdated = r.field "lastUpdated") ∧
      DataVault.Sealed p v row.blob ("emailbox:" ++ k)
        (MailboxEntry.toVal ⟨topicHash,entries,lastUpdated⟩)

def threadKey (r : Val) : Option String :=
  (threadRow? r).bind fun row => (v.index p "thread" row.1).toOption

def ThreadHolds (k : String) (r : Val) (row : ThreadRow) : Prop :=
  ∃ threadId boardId, threadRow? r = some (threadId,boardId) ∧
    v.index p "board" boardId = .ok row.b ∧ DataVault.Sealed p v row.blob ("ethreads:" ++ k) r

def PostHolds (r : Val) (row : PostRow) : Prop :=
  ∃ boardId threadId, postRow? r = some (boardId,threadId) ∧
    postIndex p v boardId threadId = .ok row.bt ∧
      DataVault.Sealed p v row.blob ("eposts:" ++ row.bt) (postRecord r)

/-- The rows of the store `posts` that are migrated. -/
def goodPosts (rows : List Val) : List Val := rows.filter fun r => (postRow? r).isSome

/-- A row whose copy cannot be written. -/
def Unwritable (r : Val) : Prop := throws (p.encode (postRecord r)) = true

/-- The record of a slot that was sealed without a passphrase, and the one in its place. -/
structure Resealed (passphrase slot : String) (r r' : IdentityRecord) : Prop where
  kept : ∃ sealed secret resealed, r.sealed = some sealed ∧ sealed.isProtected = false ∧
    SecretVault.openSealed p sealed "" = some secret ∧ r'.sealed = some resealed ∧
      SecretVault.SealedBy p resealed secret passphrase
  plain : r'.metadata = .undefined
  metadata : let m := if r.emeta.truthy then .undefined else r.metadata
    m = .undefined ∧ r'.emeta = .undefined ∨
      DataVault.Sealed p v r'.emeta ("identity:" ++ slot) m

/-- The operation that fails is one after the first post has been copied and before the
posts are cleared. -/
def HalfCopied (budget : Option Nat) (db : Database) : Prop :=
  ∃ copied, 0 < copied ∧ copied ≤ (goodPosts (db.posts.getD [])).length ∧
    budget = some (mailboxOps db+1+copied)

/-- What a migration has done to the database when it returns or throws. -/
structure Progress (passphrase : String) (budget : Option Nat) (db db' : Database) : Prop where
  emailbox : JsMap.Overlaid (mailboxKey p v) (MailboxHolds p v) (db.mailbox.getD [])
    db.emailbox db'.emailbox
  mailbox : db'.mailbox = db.mailbox ∨ db'.mailbox = emptied db.mailbox ∧
    (DistinctKeys (mailboxKey p v) (db.mailbox.getD []) →
      ∀ r ∈ db.mailbox.getD [], JsMap.Covered (mailboxKey p v) (MailboxHolds p v) db'.emailbox r)
  posts : db'.posts = db.posts ∧ (db'.eposts = db.eposts ∨
      (∃ r ∈ db.posts.getD [], Unwritable p r) ∨ HalfCopied budget db) ∨
    db'.posts = emptied db.posts ∧ ∃ new, db'.eposts = db.eposts ++ new ∧
      List.Forall₂ (PostHolds p v) (goodPosts (db.posts.getD [])) new
  ethreads : JsMap.Overlaid (threadKey p v) (ThreadHolds p v) (db.threads.getD [])
    db.ethreads db'.ethreads
  threads : db'.threads = db.threads ∨ db'.threads = emptied db.threads ∧
    (DistinctKeys (threadKey p v) (db.threads.getD []) →
      ∀ r ∈ db.threads.getD [], JsMap.Covered (threadKey p v) (ThreadHolds p v) db'.ethreads r)
  identity : ∀ slot, JsMap.get db'.identity slot = JsMap.get db.identity slot ∨
    slot ∈ ["trip","node"] ∧ ∃ r r', JsMap.get db.identity slot = some r ∧
      JsMap.get db'.identity slot = some r' ∧ Resealed p v passphrase slot r r'

end

/-- Nothing is left in the clear. -/
structure LegacyEmpty (db : Database) : Prop where
  mailbox : db.mailbox.getD [] = []
  posts : db.posts.getD [] = []
  threads : db.threads.getD [] = []

section Specs
variable {p : Primitives} {w : World} {v : DataVault} {s : Session}

theorem ensures_lastUpdatedOrNow (r : Val) :
    Ensures s (lastUpdatedOrNow w r)
      (fun lastUpdated t => s.Does 0 s.db t ∧
        ((r.field "lastUpdated").truthy = true → lastUpdated = r.field "lastUpdated"))
      (fun _ => False) := by
  unfold lastUpdatedOrNow
  split
  · exact ensures_pure ⟨.refl s,fun _ => rfl⟩
  · next hf => exact ensures_dateNow.bind_of_total fun n t ht => ensures_pure ⟨ht,(absurd · hf)⟩

theorem ensures_moveMailboxRow (hv : s.vault = some v) (r : Val) :
    Ensures s (moveMailboxRow p w r)
      (fun _ t => (mailboxKey p v r = none ∧ s.Does 0 s.db t) ∨
        ∃ k row, mailboxKey p v r = some k ∧ MailboxHolds p v k r row ∧
          s.Does 1 (emailboxStore.put s.db (JsMap.set (emailboxStore.rows s.db) k row)) t)
      (fun t => s.Does 0 s.db t) := by
  unfold moveMailboxRow
  split
  · next hr => exact ensures_pure (.inl ⟨by simp [mailboxKey,hr],.refl s⟩)
  · next topicHash entries hr =>
    refine (ensures_lastUpdatedOrNow r).bind_of_total fun lastUpdated t ⟨ht,hl⟩ => ?_
    unfold writeMailbox
    refine (ensures_requireVault.mono (fun _ _ h => h) fun _ h => h.1 ▸ ht).bind ?_
    rintro v' u ⟨rfl,hv',ho⟩
    rw [ht.vault_eq,hv] at hv'
    cases hv'
    refine (ensures_lift (Q := fun k u' => u' = u ∧ v.index p "mailbox" topicHash = .ok k)
      (fun k hk => ⟨rfl,hk⟩) fun _ _ => ht).bind ?_
    rintro k u' ⟨rfl,hk⟩
    refine (ensures_lift (Q := fun _ u'' => u'' = u') (fun _ _ => rfl) fun _ _ => ht).bind ?_
    rintro n u' rfl
    refine ((ensures_sealRecord v _ _).mono (fun _ _ h => h) fun _ h => ht.draw h.1).bind ?_
    rintro blob x ⟨hx,hb⟩
    have hsx := ht.draw hx
    refine (ensures_write _).mono (fun _ y hy => .inr ?_) fun _ h => h.1 ▸ hsx
    rw [hsx.db_eq] at hy
    refine ⟨k,⟨(n.divBy dayMs).floor,.bytes blob⟩,?_,⟨topicHash,entries,_,hr,hl,hb⟩,
      hsx.after_draw hy⟩
    simp [mailboxKey,hr,hk,Except.toOption]

theorem ensures_moveThreadRow (r : Val) :
    Ensures s (moveThreadRow p w v r)
      (fun _ t => (threadKey p v r = none ∧ s.Does 0 s.db t) ∨
        ∃ k row, threadKey p v r = some k ∧ ThreadHolds p v k r row ∧
          s.Does 1 (ethreadsStore.put s.db (JsMap.set (ethreadsStore.rows s.db) k row)) t)
      (fun t => s.Does 0 s.db t) := by
  unfold moveThreadRow
  split
  · next hr => exact ensures_pure (.inl ⟨by simp [threadKey,hr],.refl s⟩)
  · next threadId boardId hr =>
    refine (ensures_lift (Q := fun k t => t = s ∧ v.index p "thread" threadId = .ok k)
      (fun k hk => ⟨rfl,hk⟩) fun _ _ => .refl s).bind ?_
    rintro k t ⟨rfl,hk⟩
    refine (ensures_lift (Q := fun b u => u = t ∧ v.index p "board" boardId = .ok b)
      (fun b hb => ⟨rfl,hb⟩) fun _ _ => .refl t).bind ?_
    rintro b u ⟨rfl,hb⟩
    refine ((ensures_sealRecord v _ _).mono (fun _ _ h => h) fun _ h => h.1).bind ?_
    rintro blob x ⟨hx,hblob⟩
    refine (ensures_write _).mono (fun _ y hy => .inr ?_) fun _ h => h.1 ▸ hx
    rw [hx.db_eq] at hy
    refine ⟨k,⟨b,.bytes blob⟩,?_,⟨threadId,boardId,hr,hb,hblob⟩,hx.after_draw hy⟩
    simp [threadKey,hr,hk,Except.toOption]

theorem ensures_copyPost (ho : v.isOpen = true) (r : Val) :
    Ensures s (copyPost p w v r)
      (fun _ t => (postRow? r = none ∧ s.Does 0 s.db t) ∨
        ∃ row, (postRow? r).isSome ∧ PostHolds p v r row ∧ row.id = s.db.nextPostId ∧
          s.Does 1 { s.db with
            eposts := s.db.eposts ++ [row]
            nextPostId := s.db.nextPostId+1 } t)
      (fun t => s.Does 0 s.db t ∧ (s.budget = some 0 ∨ Unwritable p r)) := by
  unfold copyPost
  split
  · next hr => exact ensures_pure (.inl ⟨hr,.refl s⟩)
  · next boardId threadId hr =>
    obtain ⟨bt,hbt⟩ := DataVault.index_ok (p := p) ho "posts" (boardId ++ "\x00" ++ threadId)
    refine (ensures_lift (Q := fun k t => t = s ∧ k = bt)
      (fun k hk => ⟨rfl,Except.ok.inj (hk.symm.trans hbt)⟩)
      fun e he => (nomatch hbt.symm.trans he)).bind ?_
    rintro _ t ⟨rfl,rfl⟩
    refine ((ensures_sealRecord v _ _).mono (fun _ _ h => h)
      fun _ h => ⟨h.1,.inr (h.2.resolve_left (by simp [ho]))⟩).bind ?_
    rintro blob x ⟨hx,hblob⟩
    refine (ensures_write _).mono (fun _ y hy => .inr ?_) fun _ h => h.1 ▸ ⟨hx,.inl ?_⟩
    · rw [hx.db_eq] at hy
      exact ⟨⟨t.db.nextPostId,_,.bytes blob⟩,by simp [hr],⟨boardId,threadId,hr,hbt,hblob⟩,rfl,
        hx.after_draw hy⟩
    · exact hx.exhausted h.2

/-- The rows that have a key are put into the store one after the other. A failure leaves
some of them in it. -/
theorem ensures_copyRows {ν : Type} (S : KeyedStore ν) {f : Val → Action Unit}
    {key : Val → Option String} {holds : String → Val → ν → Prop}
    (hf : ∀ r t, t.vault = s.vault → Ensures t (f r)
      (fun _ u => (key r = none ∧ t.Does 0 t.db u) ∨ ∃ k row, key r = some k ∧ holds k r row ∧
        t.Does 1 (S.put t.db (JsMap.set (S.rows t.db) k row)) u)
      (fun u => t.Does 0 t.db u)) (rows : List Val) :
    Ensures s (rows.forM f)
      (fun _ t => ∃ m, s.Does (rows.countP fun r => (key r).isSome) (S.put s.db m) t ∧
        JsMap.Overlaid key holds rows (S.rows s.db) m ∧
          (DistinctKeys key rows → ∀ r ∈ rows, JsMap.Covered key holds m r))
      (fun t => ∃ n m, s.Does n (S.put s.db m) t ∧
        JsMap.Overlaid key holds rows (S.rows s.db) m) := by
  -- the invariant: the rows before the remaining ones are in the map
  let I (rest : List Val) (t : Session) : Prop := ∃ done m, rows = done ++ rest ∧
    s.Does (done.countP fun r => (key r).isSome) (S.put s.db m) t ∧
      JsMap.Overlaid key holds rows (S.rows s.db) m ∧
        (DistinctKeys key rows → ∀ r ∈ done, JsMap.Covered key holds m r)
  have hinit : I rows s := by
    refine ⟨[],S.rows s.db,rfl,?_,.refl _,fun _ r hr => by cases hr⟩
    rw [S.put_rows]
    exact .refl s
  refine (ensures_forM (I := I) ?_ hinit).mono ?_ fun _ h => h
  · rintro r rest t ⟨done,m,hrows,hdone,hover,hcov⟩
    have hmem : r ∈ rows := by simp [hrows]
    refine (hf r t hdone.vault_eq).mono ?_ fun u hu => ?_
    · rintro - u (⟨hk,hu⟩ | ⟨k,row,hk,hrow,hu⟩)
      · rw [hdone.db_eq] at hu
        refine ⟨done ++ [r],m,by simp [hrows],?_,hover,fun hinj r' hr' => ?_⟩
        · simpa [hk] using hdone.trans hu
        · rcases List.mem_append.mp hr' with hr' | hr'
          · exact hcov hinj r' hr'
          · cases List.mem_singleton.mp hr'
            intro k hk'
            rw [hk] at hk'
            cases hk'
      · rw [hdone.db_eq,S.rows_put,S.put_put] at hu
        refine ⟨done ++ [r],JsMap.set m k row,by simp [hrows],?_,hover.set hmem hk hrow,
          fun hinj r' hr' => ?_⟩
        · simpa [hk] using hdone.trans hu
        · by_cases hk' : key r' = some k
          · have hmem' : r' ∈ rows := by
              rw [hrows]
              rcases List.mem_append.mp hr' with hr' | hr'
              · exact List.mem_append_left _ hr'
              · cases List.mem_singleton.mp hr'
                simp
            cases hinj r' hmem' r hmem k hk' hk
            exact JsMap.covered_set_self hk hrow
          · rcases List.mem_append.mp hr' with hr' | hr'
            · exact (hcov hinj r' hr').set_ne hk'
            · cases List.mem_singleton.mp hr'
              exact absurd hk hk'
    · rw [hdone.db_eq] at hu
      exact ⟨_,m,hdone.trans hu,hover⟩
  · rintro - t ⟨done,m,hrows,hdone,hover,hcov⟩
    rw [List.append_nil] at hrows
    subst hrows
    exact ⟨m,hdone,hover,hcov⟩

theorem mailboxKey_isSome (ho : v.isOpen = true) (r : Val) :
    (mailboxKey p v r).isSome = (mailboxRow? r).isSome := by
  cases hr : mailboxRow? r with
  | none => simp [mailboxKey,hr]
  | some row =>
    obtain ⟨k,hk⟩ := DataVault.index_ok (p := p) ho "mailbox" row.1
    simp [mailboxKey,hr,hk,Except.toOption]

theorem threadKey_isSome (ho : v.isOpen = true) (r : Val) :
    (threadKey p v r).isSome = (threadRow? r).isSome := by
  cases hr : threadRow? r with
  | none => simp [threadKey,hr]
  | some row =>
    obtain ⟨k,hk⟩ := DataVault.index_ok (p := p) ho "thread" row.1
    simp [threadKey,hr,hk,Except.toOption]

theorem ensures_migrateMailbox (hv : s.vault = some v) (ho : v.isOpen = true) :
    Ensures s (migrateMailbox p w)
      (fun _ t => ∃ m,
        s.Does (mailboxOps s.db) { s.db with
          emailbox := m
          mailbox := emptied s.db.mailbox } t ∧
        JsMap.Overlaid (mailboxKey p v) (MailboxHolds p v) (s.db.mailbox.getD []) s.db.emailbox m ∧
          (DistinctKeys (mailboxKey p v) (s.db.mailbox.getD []) →
            ∀ r ∈ s.db.mailbox.getD [], JsMap.Covered (mailboxKey p v) (MailboxHolds p v) m r))
      (fun t => ∃ n m, s.Does n { s.db with emailbox := m } t ∧
        JsMap.Overlaid (mailboxKey p v) (MailboxHolds p v) (s.db.mailbox.getD []) s.db.emailbox
          m) := by
  unfold migrateMailbox
  refine ensures_get_bind ?_
  cases hm : s.db.mailbox with
  | none =>
    refine ensures_pure ⟨s.db.emailbox,?_,.refl _,fun _ r hr => by cases hr⟩
    have hsame : { s.db with emailbox := s.db.emailbox, mailbox := emptied none } = s.db := by
      rw [emptied,Option.map_none,← hm]
    rw [hsame,mailboxOps,hm]
    exact .refl s
  | some rows =>
    have hsame : { s.db with emailbox := s.db.emailbox } = s.db := rfl
    refine ((ensures_read _).mono (fun _ _ h => h)
      fun _ h => ⟨0,s.db.emailbox,h.1 ▸ .refl s,.refl _⟩).bind ?_
    rintro _ t ⟨ht,rfl⟩
    rw [hm]
    have hf : ∀ r u, u.vault = t.vault → Ensures u (moveMailboxRow p w r) _ _ :=
      fun r u hu => ensures_moveMailboxRow (p := p) (w := w) (v := v)
        (by rw [hu,ht.vault_eq,hv]) r
    refine ((ensures_copyRows emailboxStore hf rows).mono (fun _ _ h => h) ?_).bind ?_
    · rintro u ⟨n,m,hu,hover⟩
      rw [ht.db_eq] at hu hover
      exact ⟨_,m,ht.trans hu,hover⟩
    · rintro - u ⟨m,hu,hover,hcov⟩
      rw [ht.db_eq] at hu hover
      refine (ensures_write _).mono (fun _ x hx => ⟨m,?_,hover,hcov⟩)
        fun x hx => ⟨_,m,hx.1 ▸ ht.trans hu,hover⟩
      rw [hu.db_eq] at hx
      have hops : mailboxOps s.db = 1+(rows.countP fun r => (mailboxKey p v r).isSome)+1 := by
        simp only [mailboxOps,hm,mailboxKey_isSome ho]
        omega
      rw [hops]
      exact (ht.trans hu).trans hx

theorem ensures_migrateThreads (hv : s.vault = some v) :
    Ensures s (migrateThreads p w)
      (fun _ t => ∃ n m,
        s.Does n { s.db with
          ethreads := m
          threads := emptied s.db.threads } t ∧
        JsMap.Overlaid (threadKey p v) (ThreadHolds p v) (s.db.threads.getD []) s.db.ethreads m ∧
          (DistinctKeys (threadKey p v) (s.db.threads.getD []) →
            ∀ r ∈ s.db.threads.getD [], JsMap.Covered (threadKey p v) (ThreadHolds p v) m r))
      (fun t => ∃ n m, s.Does n { s.db with ethreads := m } t ∧
        JsMap.Overlaid (threadKey p v) (ThreadHolds p v) (s.db.threads.getD []) s.db.ethreads
          m) := by
  unfold migrateThreads
  refine ensures_get_bind ?_
  cases hm : s.db.threads with
  | none =>
    refine ensures_pure ⟨0,s.db.ethreads,?_,.refl _,fun _ r hr => by cases hr⟩
    have hsame : { s.db with ethreads := s.db.ethreads, threads := emptied none } = s.db := by
      rw [emptied,Option.map_none,← hm]
    rw [hsame]
    exact .refl s
  | some rows =>
    have hstay : s.Does 0 { s.db with ethreads := s.db.ethreads } s := .refl s
    refine (ensures_requireVault.mono (fun _ _ h => h)
      fun _ h => ⟨0,s.db.ethreads,h.1 ▸ hstay,.refl _⟩).bind ?_
    rintro v' x ⟨rfl,hv',-⟩
    rw [hv] at hv'
    cases hv'
    refine ((ensures_read _).mono (fun _ _ h => h)
      fun _ h => ⟨0,_,h.1 ▸ hstay,.refl _⟩).bind ?_
    rintro _ t ⟨ht,rfl⟩
    rw [hm]
    have hf : ∀ r u, u.vault = t.vault → Ensures u (moveThreadRow p w v r) _ _ :=
      fun r u _ => ensures_moveThreadRow r
    refine ((ensures_copyRows ethreadsStore hf rows).mono (fun _ _ h => h) ?_).bind ?_
    · rintro u ⟨n,m,hu,hover⟩
      rw [ht.db_eq] at hu hover
      exact ⟨_,m,ht.trans hu,hover⟩
    · rintro - u ⟨m,hu,hover,hcov⟩
      rw [ht.db_eq] at hu hover
      refine (ensures_write _).mono (fun _ x hx => ?_) fun x hx => ⟨_,m,hx.1 ▸ ht.trans hu,hover⟩
      rw [hu.db_eq] at hx
      exact ⟨_,m,(ht.trans hu).trans hx,hover,hcov⟩

/-- The posts are copied in order; a failure after `new` of them leaves these copies. -/
theorem ensures_migratePosts (hv : s.vault = some v) (ho : v.isOpen = true) :
    Ensures s (migratePosts p w)
      (fun _ t => ∃ n new, List.Forall₂ (PostHolds p v) (goodPosts (s.db.posts.getD [])) new ∧
        s.Does n { s.db with
          eposts := s.db.eposts ++ new
          nextPostId := s.db.nextPostId+new.length
          posts := emptied s.db.posts } t)
      (fun t => ∃ n new, s.Does n { s.db with
          eposts := s.db.eposts ++ new
          nextPostId := s.db.nextPostId+new.length } t ∧
        (new = [] ∨ (∃ r ∈ s.db.posts.getD [], Unwritable p r) ∨
          new.length ≤ (goodPosts (s.db.posts.getD [])).length ∧
            s.budget = some (1+new.length))) := by
  unfold migratePosts
  refine ensures_get_bind ?_
  have hnone : { s.db with
      eposts := s.db.eposts ++ []
      nextPostId := s.db.nextPostId+([] : List PostRow).length } = s.db := by
    rw [List.append_nil]
    rfl
  have hstay : s.Does 0 { s.db with
      eposts := s.db.eposts ++ []
      nextPostId := s.db.nextPostId+([] : List PostRow).length } s := by
    rw [hnone]
    exact .refl s
  cases hm : s.db.posts with
  | none =>
    refine ensures_pure ⟨0,[],List.Forall₂.nil,?_⟩
    have hposts : emptied none = s.db.posts := hm.symm
    rw [hposts]
    exact hstay
  | some rows =>
    refine (ensures_requireVault.mono (fun _ _ h => h)
      fun _ h => ⟨0,[],h.1 ▸ hstay,.inl rfl⟩).bind ?_
    rintro v' x ⟨rfl,hv',-⟩
    rw [hv] at hv'
    cases hv'
    refine ((ensures_read _).mono (fun _ _ h => h)
      fun _ h => ⟨0,[],h.1 ▸ hstay,.inl rfl⟩).bind ?_
    rintro _ t ⟨ht,rfl⟩
    rw [hm]
    -- the invariant: what is not copied yet are the good ones of the remaining rows
    let I (rest : List Val) (u : Session) : Prop := ∃ done new,
      rows = done ++ rest ∧ List.Forall₂ (PostHolds p v) (goodPosts done) new ∧
        t.Does new.length { x.db with
          eposts := x.db.eposts ++ new
          nextPostId := x.db.nextPostId+new.length } u
    have hinit : I rows t := by
      refine ⟨[],[],rfl,List.Forall₂.nil,?_⟩
      rw [hnone,← ht.db_eq]
      exact .refl t
    have hfail : ∀ done rest new u n, rows = done ++ rest →
        List.Forall₂ (PostHolds p v) (goodPosts done) new →
        t.Does new.length { x.db with
          eposts := x.db.eposts ++ new
          nextPostId := x.db.nextPostId+new.length } u → u.budget = some 0 →
        n = 1+new.length → new.length ≤ (goodPosts rows).length ∧ x.budget = some n := by
      intro done rest new u n hrows hall hdone hb hn
      refine ⟨?_,hn ▸ (ht.trans hdone).exhausted hb⟩
      rw [← hall.length_eq,hrows,goodPosts,goodPosts,List.filter_append,List.length_append]
      omega
    refine ((ensures_forM (I := I) ?_ hinit).mono (fun _ _ h => h) fun _ h => h).bind ?_
    · rintro r rest u ⟨done,new,hrows,hall,hdone⟩
      refine (ensures_copyPost ho r).mono ?_ ?_
      · rintro - y (⟨hr,hy⟩ | ⟨row,hr,hrow,-,hy⟩)
        · refine ⟨done ++ [r],new,by simp [hrows],?_,?_⟩
          · simpa [goodPosts,hr] using hall
          · rw [hdone.db_eq] at hy
            simpa using hdone.trans hy
        · refine ⟨done ++ [r],new ++ [row],by simp [hrows],?_,?_⟩
          · have hg : goodPosts (done ++ [r]) = goodPosts done ++ [r] := by simp [goodPosts,hr]
            rw [hg]
            exact List.rel_append hall (.cons hrow .nil)
          · rw [hdone.db_eq] at hy
            simpa [Nat.add_assoc] using hdone.trans hy
      · rintro y ⟨hy,hwhy⟩
        rw [hdone.db_eq] at hy
        refine ⟨_,new,ht.trans (hdone.trans hy),.inr ?_⟩
        rcases hwhy with hb | hr
        · exact .inr (hfail done _ new u _ hrows hall hdone hb rfl)
        · exact .inl ⟨r,by simp [hrows],hr⟩
    · rintro - u ⟨done,new,hrows,hall,hdone⟩
      refine (ensures_write _).mono (fun _ y hy => ?_) fun y hy => ?_
      · rw [hdone.db_eq] at hy
        rw [List.append_nil] at hrows
        subst hrows
        exact ⟨_,new,hall,ht.trans (hdone.trans hy)⟩
      · rw [hy.1]
        exact ⟨_,new,ht.trans hdone,.inr (.inr (hfail done _ new u _ hrows hall hdone hy.2 rfl))⟩

theorem ensures_sealMeta (slot : String) (m : Val) :
    Ensures s (sealMeta p w slot m)
      (fun emeta t => s.Does 0 s.db t ∧ (m = .undefined ∧ emeta = .undefined ∨
        m ≠ .undefined ∧ ∃ v, s.vault = some v ∧ DataVault.Sealed p v emeta ("identity:" ++ slot) m))
      (fun t => s.Does 0 s.db t) := by
  unfold sealMeta
  split
  · exact ensures_pure ⟨.refl s,.inl ⟨rfl,rfl⟩⟩
  · next hm =>
    refine (ensures_requireVault.mono (fun _ _ h => h) fun _ h => h.1 ▸ .refl s).bind ?_
    rintro v t ⟨rfl,hv,-⟩
    refine ((ensures_sealRecord v _ _).mono (fun _ _ h => h) fun _ h => h.1).bind ?_
    exact fun blob u hu => ensures_pure ⟨hu.1,.inr ⟨hm,v,hv,hu.2⟩⟩

/-- The record that is put into a slot. Its metadata is sealed with the key of the page. -/
theorem ensures_saveSealed (slot : String) (sealed : SealedSecret) (m : Val) :
    Ensures s (saveSealed p w slot sealed m)
      (fun _ t => (s.opened = false ∧ t = s) ∨ ∃ r : IdentityRecord,
        r.sealed = some sealed ∧ r.metadata = .undefined ∧
          (m = .undefined ∧ r.emeta = .undefined ∨ m ≠ .undefined ∧
            ∃ v, s.vault = some v ∧ DataVault.Sealed p v r.emeta ("identity:" ++ slot) m) ∧
          s.Does 1 { s.db with identity := JsMap.set s.db.identity slot r } t)
      (fun t => s.Does 0 s.db t) := by
  unfold saveSealed
  refine ensures_get_bind ?_
  split
  · next ho => exact ensures_pure (.inl ⟨ho,rfl⟩)
  split
  · exact ensures_throw (.refl s)
  refine (ensures_sealMeta slot m).bind ?_
  rintro emeta t ⟨ht,hmeta⟩
  refine ensures_dateNow.bind_of_total ?_
  intro now u hu
  have hsu := ht.draw hu
  refine (ensures_write _).mono (fun _ y hy => .inr ?_) fun _ h => h.1 ▸ hsu
  rw [hsu.db_eq] at hy
  exact ⟨⟨some sealed,emeta,.undefined,now⟩,rfl,rfl,hmeta,hsu.after_draw hy⟩

/-- A slot stays as it is, or is sealed again. -/
theorem ensures_resealSlot (hv : s.vault = some v) (passphrase : String) (params : VaultParams)
    (slot : String) :
    Ensures s (resealSlot p w passphrase params slot)
      (fun _ t => ∃ n identity, s.Does n { s.db with identity := identity } t ∧
        (identity = s.db.identity ∨ ∃ r r', JsMap.get s.db.identity slot = some r ∧
          Resealed p v passphrase slot r r' ∧ identity = JsMap.set s.db.identity slot r'))
      (fun t => ∃ n, s.Does n s.db t) := by
  unfold resealSlot
  refine ((ensures_read _).mono (fun _ _ h => h) fun _ h => ⟨0,h.1 ▸ .refl s⟩).bind ?_
  rintro record t ⟨ht,hrec⟩
  split
  · next sealed emeta metadata updatedAt =>
    split
    · exact ensures_pure ⟨1,s.db.identity,ht,.inl rfl⟩
    next hprot =>
    split
    · exact ensures_pure ⟨1,s.db.identity,ht,.inl rfl⟩
    next secret hopen =>
    refine ((ensures_sealSecret secret passphrase params).mono (fun _ _ h => h)
      fun u hu => ⟨1,ht.trans (ht.db_eq ▸ hu)⟩).bind ?_
    rintro resealed u ⟨hu,hby⟩
    rw [ht.db_eq] at hu
    have hsu := ht.trans hu
    have hvu : u.vault = some v := by rw [hsu.vault_eq,hv]
    refine (ensures_saveSealed slot resealed _).mono ?_ fun y hy => ⟨1,?_⟩
    · rintro - y (⟨-,rfl⟩ | ⟨r',hsealed,hplain,hmeta,hy⟩)
      · exact ⟨1,s.db.identity,hsu,.inl rfl⟩
      · rw [hsu.db_eq] at hy
        have hmeta := hmeta.imp_right fun ⟨_,v',hv',h⟩ =>
          (Option.some.inj (hvu.symm.trans hv')).symm ▸ h
        refine ⟨2,_,hsu.trans hy,.inr ⟨_,r',hrec.symm,⟨?_,hplain,hmeta⟩,rfl⟩⟩
        exact ⟨sealed,secret,resealed,rfl,by simpa using hprot,hopen,hsealed,hby⟩
    · rw [hsu.db_eq] at hy
      exact hsu.trans hy
  · exact ensures_pure ⟨1,s.db.identity,ht,.inl rfl⟩

theorem ensures_resealSlots (hv : s.vault = some v) (passphrase : String)
    (params : VaultParams) {slots : List String} (hn : slots.Nodup) :
    let Kept (t : Session) : Prop := ∃ n identity, s.Does n { s.db with identity := identity } t ∧
      ∀ slot, JsMap.get identity slot = JsMap.get s.db.identity slot ∨ slot ∈ slots ∧
        ∃ r r', JsMap.get s.db.identity slot = some r ∧ JsMap.get identity slot = some r' ∧
          Resealed p v passphrase slot r r'
    Ensures s (slots.forM (resealSlot p w passphrase params)) (fun _ => Kept) Kept := by
  intro Kept
  let I (rest : List String) (t : Session) : Prop := ∃ done, slots = done ++ rest ∧
    ∃ n identity, s.Does n { s.db with identity := identity } t ∧
      ∀ slot, JsMap.get identity slot = JsMap.get s.db.identity slot ∨ slot ∈ done ∧
        ∃ r r', JsMap.get s.db.identity slot = some r ∧ JsMap.get identity slot = some r' ∧
          Resealed p v passphrase slot r r'
  have hkept : ∀ rest t, I rest t → Kept t := by
    rintro rest t ⟨done,hslots,n,identity,hdone,hid⟩
    refine ⟨n,identity,hdone,fun slot => (hid slot).imp_right fun h => ⟨?_,h.2⟩⟩
    rw [hslots]
    exact List.mem_append_left _ h.1
  have hinit : I slots s := ⟨[],rfl,0,s.db.identity,.refl s,fun _ => .inl rfl⟩
  refine (ensures_forM (I := I) ?_ hinit).mono (fun _ t h => hkept [] t h) fun _ h => h
  rintro slot rest t ⟨done,hslots,n,identity,hdone,hid⟩
  have hvt : t.vault = some v := by rw [hdone.vault_eq,hv]
  have hnew : slot ∉ done := by
    rw [hslots] at hn
    exact fun hd => (List.nodup_append.mp hn).2.2 slot hd slot List.mem_cons_self rfl
  refine (ensures_resealSlot hvt passphrase params slot).mono ?_ fun u ⟨m,hu⟩ => ?_
  · rintro - u ⟨m,identity',hu,hi⟩
    rw [hdone.db_eq] at hu hi
    refine ⟨done ++ [slot],by simp [hslots],_,identity',hdone.trans hu,fun slot' => ?_⟩
    rcases hi with rfl | ⟨r,r',hr,hre,rfl⟩
    · exact (hid slot').imp_right fun h => ⟨List.mem_append_left _ h.1,h.2⟩
    · by_cases hs : slot' = slot
      · subst hs
        have hsame := (hid slot').resolve_right fun h => hnew h.1
        refine .inr ⟨by simp,r,r',?_,JsMap.get_set_self _ _ _,hre⟩
        exact hsame.symm.trans hr
      · rw [JsMap.get_set_ne identity hs]
        exact (hid slot').imp_right fun h => ⟨List.mem_append_left _ h.1,h.2⟩
  · rw [hdone.db_eq] at hu
    exact hkept _ u ⟨done,hslots,_,identity,hdone.trans hu,hid⟩

/-- A migration leaves its progress behind, and a complete one nothing in the clear. -/
theorem ensures_migrateLegacy (hv : s.vault = some v) (ho : v.isOpen = true)
    (passphrase : String) (params : VaultParams) :
    Ensures s (migrateLegacy p w passphrase params)
      (fun _ t => LegacyEmpty t.db ∧ ∃ n, s.Does n t.db t ∧
        Progress p v passphrase s.budget s.db t.db)
      (fun t => ∃ n, s.Does n t.db t ∧ Progress p v passphrase s.budget s.db t.db) := by
  unfold migrateLegacy
  have hempty : ∀ o : Option (List Val), (emptied o).getD [] = [] := by
    intro o
    cases o with
    | none => rfl
    | some rows => rfl
  refine ((ensures_migrateMailbox hv ho).mono (fun _ _ h => h) ?_).bind ?_
  · rintro t ⟨n,m,ht,hover⟩
    rw [ht.db_eq]
    exact ⟨n,ht,hover,.inl rfl,.inl ⟨rfl,.inl rfl⟩,.refl _,.inl rfl,fun _ => .inl rfl⟩
  rintro - t ⟨m,ht,hover,hcov⟩
  have hvt : t.vault = some v := by rw [ht.vault_eq,hv]
  refine ((ensures_migratePosts hvt ho).mono (fun _ _ h => h) ?_).bind ?_
  · rintro u ⟨n,new,hu,hwhy⟩
    rw [ht.db_eq] at hu hwhy
    rw [hu.db_eq]
    refine ⟨_,ht.trans hu,hover,.inr ⟨rfl,hcov⟩,.inl ⟨rfl,?_⟩,.refl _,.inl rfl,fun _ => .inl rfl⟩
    rcases hwhy with rfl | hr | ⟨hlen,hb⟩
    · exact .inl (List.append_nil _)
    · exact .inr (.inl hr)
    · cases new with
      | nil => exact .inl (List.append_nil _)
      | cons row new =>
        refine .inr (.inr ⟨(row :: new).length,by simp,hlen,?_⟩)
        rw [ht.budget_of hb,Nat.add_assoc]
  rintro - u ⟨n,new,hall,hu⟩
  rw [ht.db_eq] at hu hall
  have hsu := ht.trans hu
  have hvu : u.vault = some v := by rw [hsu.vault_eq,hv]
  have hposts : ∀ db' : Database, db'.posts = emptied s.db.posts → db'.eposts = s.db.eposts ++ new →
      db'.posts = emptied s.db.posts ∧ ∃ new, db'.eposts = s.db.eposts ++ new ∧
        List.Forall₂ (PostHolds p v) (goodPosts (s.db.posts.getD [])) new :=
    fun db' h h' => ⟨h,new,h',hall⟩
  refine ((ensures_migrateThreads hvu).mono (fun _ _ h => h) ?_).bind ?_
  · rintro x ⟨k,m',hx,hover'⟩
    rw [hsu.db_eq] at hx hover'
    rw [hx.db_eq]
    exact ⟨_,hsu.trans hx,hover,.inr ⟨rfl,hcov⟩,.inr (hposts _ rfl rfl),hover',.inl rfl,
      fun _ => .inl rfl⟩
  rintro - x ⟨k,m',hx,hover',hcov'⟩
  rw [hsu.db_eq] at hx hover' hcov'
  have hsx := hsu.trans hx
  have hvx : x.vault = some v := by rw [hsx.vault_eq,hv]
  have hnodup : ["trip","node"].Nodup := by decide
  refine (ensures_resealSlots hvx passphrase params hnodup).mono ?_ ?_
  · rintro - y ⟨j,identity,hy,hid⟩
    rw [hsx.db_eq] at hy hid
    rw [hy.db_eq]
    exact ⟨⟨hempty _,hempty _,hempty _⟩,_,hsx.trans hy,hover,.inr ⟨rfl,hcov⟩,
      .inr (hposts _ rfl rfl),hover',.inr ⟨rfl,hcov'⟩,hid⟩
  · rintro y ⟨j,identity,hy,hid⟩
    rw [hsx.db_eq] at hy hid
    rw [hy.db_eq]
    exact ⟨_,hsx.trans hy,hover,.inr ⟨rfl,hcov⟩,.inr (hposts _ rfl rfl),hover',.inr ⟨rfl,hcov'⟩,
      hid⟩

theorem ensures_init : Ensures s init
    (fun _ t => Session.Does { s with opened := true } (if s.opened then 0 else 1) s.db t)
    (fun t => t = s ∧ s.opened = false ∧ s.budget = some 0) := by
  unfold init
  refine ensures_get_bind ?_
  split
  · next ho =>
    have hsame : { s with opened := true } = s := by
      rw [← ho]
    rw [hsame]
    exact ensures_pure (.refl s)
  · next ho =>
    have hclosed : s.opened = false := by simpa using ho
    refine ((ensures_write _).mono (fun _ _ h => h) fun _ h => ⟨h.1,hclosed,h.2⟩).bind ?_
    intro _ t ht
    refine ensures_modify ⟨?_,ht.affords⟩
    rw [ht.eq]
    rfl

end Specs

namespace Migration

inductive Call where
  | unlock (passphrase : String) (params : VaultParams) (budget : Option Nat)
  | lock
  /-- The page is closed, or crashes, and is opened again. -/
  | reload

structure State where
  session : Session := {}
  /-- The last call was one of `unlock` that resolved. -/
  resolved : Bool := false

section
variable (p : Primitives) (w : World)

def step (s : State) : Call → Option State
  | .unlock passphrase params budget =>
    let (r,t) := exec (unlock p w passphrase params) { s.session with budget := budget }
    some ⟨t,!throws r⟩
  | .lock => some ⟨{ s.session with vault := none },false⟩
  | .reload => some ⟨{ s.session with opened := false, vault := none, tripKeyPair := none },false⟩

/-- The operations `unlock` makes before it knows the sealed key. -/
def readOps (s : Session) : Nat := if s.opened then 1 else 2

/-- The passphrase opens the sealed key, which can be read. -/
def Reauthenticates (s : Session) (passphrase : String) (budget : Option Nat) : Prop :=
  (∃ sealed v, s.db.dek = some sealed ∧ DataVault.openDek p sealed passphrase = .ok v) ∧
    ∀ k, budget = some k → readOps s ≤ k

/-- No call of `unlock` only compares the passphrase while there are rows in the clear. -/
def MigratesFirst (s : State) : Call → Prop
  | .unlock passphrase _ budget => s.session.isUnlocked = true →
      Reauthenticates p s.session passphrase budget → LegacyEmpty s.session.db
  | _ => True

/-- A call of `unlock` that resolves leaves nothing in the clear. -/
def Empties (s : State) (a : Call) : Prop :=
  ∀ t, step p w s a = some t → t.resolved = true → LegacyEmpty t.session.db

end

section Proofs
variable {p : Primitives} {w : World} {s : Session} {passphrase : String} {params : VaultParams}

/-- The key and the database when the migration starts. -/
inductive Start (p : Primitives) (passphrase : String) (db : Database) :
    DataVault → Database → Prop where
  | opened {sealed : SealedSecret} {v : DataVault} (hd : db.dek = some sealed)
      (ho : DataVault.openDek p sealed passphrase = .ok v) : Start p passphrase db v db
  | created {r : IdentityRecord} {sealed : SealedSecret} {dek : Bytes} (hd : db.dek = none)
      (hr : r.sealed = some sealed) (hl : dek.length = DataVault.dekBytes)
      (hs : SecretVault.SealedBy p sealed dek passphrase) (hp : passphrase ≠ "") :
      Start p passphrase db (DataVault.fromDek p dek)
        { db with identity := JsMap.set db.identity dekSlot r }

/-- The operations of `unlock` before the migration. -/
def startOps (s : Session) : Nat := readOps s+if s.db.dek.isSome then 0 else 1

/-- The migration has been started, and has come as far as `t`. -/
def Migrating (p : Primitives) (passphrase : String) (s t : Session) : Prop :=
  ∃ v db budget, Start p passphrase s.db v db ∧ t.vault = some v ∧ t.opened = true ∧
    (∀ k, budget = some k → s.budget = some (startOps s+k)) ∧
      Progress p v passphrase budget db t.db

theorem Start.isOpen {db db' : Database} {v : DataVault} (h : Start p passphrase db v db') :
    v.isOpen = true := by
  cases h with
  | opened _ ho => exact DataVault.openDek_isOpen ho
  | created => exact DataVault.fromDek_isOpen _

theorem ensures_createVault (hd : s.db.dek = none) :
    Ensures s (createVault p w passphrase params)
      (fun _ t => ∃ v db, Start p passphrase s.db v db ∧
        Session.Does { s with vault := some v } 1 db t)
      (fun t => s.Does 0 s.db t) := by
  unfold createVault
  refine (ensures_randombytes DataVault.dekBytes).bind_of_total ?_
  intro dek a ha
  refine (ensures_randombytes 16).bind_of_total ?_
  intro salt b hb
  refine (ensures_randombytes DataVault.nonceBytes).bind_of_total ?_
  intro nonce c hc
  have hsc := (ha.draw hb).draw hc
  refine (ensures_lift (Q := fun r t => t = c ∧
      DataVault.create p passphrase params dek salt nonce = .ok r)
    (fun r hr => ⟨rfl,hr⟩) fun _ _ => hsc).bind ?_
  rintro ⟨vault,sealed⟩ _ ⟨rfl,hcreate⟩
  refine ensures_dateNow.bind_of_total ?_
  intro now d hd'
  have hsd := hsc.draw hd'
  refine ((ensures_write _).mono (fun _ _ h => h) fun _ h => h.1 ▸ hsd).bind ?_
  intro _ e he
  rw [hsd.db_eq] at he
  have hse := hsd.after_draw he
  obtain ⟨_,hpass,hcreate⟩ := bind_ok hcreate
  obtain ⟨sealed',hs,hcreate⟩ := bind_ok hcreate
  cases hcreate
  have hne := DataVault.requirePassphrase_ok hpass
  have hstart : Start p passphrase s.db _ _ :=
    .created (r := ⟨some sealed,.undefined,.undefined,now⟩) hd rfl dek.2
      ⟨params,salt,nonce,hs⟩ hne
  refine ensures_modify ⟨_,_,hstart,?_,hse.affords⟩
  rw [hse.eq]
  rfl

theorem readOps_eq (s : Session) : readOps s = (if s.opened then 0 else 1)+1 := by
  unfold readOps
  split
  · rfl
  · rfl

/-- A store that is unlocked already only compares the passphrase. -/
theorem ensures_unlock_unlocked (passphrase : String) (params : VaultParams)
    (hs : s.isUnlocked = true) :
    Ensures s (unlock p w passphrase params)
      (fun _ t => t.db = s.db ∧ t.vault = s.vault ∧ Reauthenticates p s passphrase s.budget)
      (fun t => t.db = s.db ∧ t.vault = s.vault ∧ ¬Reauthenticates p s passphrase s.budget) := by
  unfold unlock
  refine (ensures_init.mono (fun _ _ h => h) fun t ht => ?_).bind ?_
  · refine ⟨by rw [ht.1],by rw [ht.1],fun h => ?_⟩
    have hops := h.2 0 ht.2.2
    simp [readOps,ht.2.1] at hops
  intro _ t ht
  refine ((ensures_read _).mono (fun _ _ h => h) fun u hu => ?_).bind ?_
  · rw [hu.1]
    refine ⟨ht.db_eq,ht.vault_eq,fun h => ?_⟩
    have hops := h.2 _ (ht.exhausted hu.2)
    rw [readOps_eq] at hops
    omega
  rintro sealed? u ⟨hu,rfl⟩
  rw [ht.db_eq] at hu ⊢
  have hsu := ht.trans hu
  have hlu : u.isUnlocked = true := by
    unfold Session.isUnlocked at hs ⊢
    rw [hsu.vault_eq]
    exact hs
  refine ensures_get_bind ?_
  rw [hlu]
  simp only [if_true]
  have hops : ∀ k, s.budget = some k → readOps s ≤ k := by
    rw [readOps_eq]
    exact hsu.affords
  cases hd : s.db.dek with
  | none =>
    refine ensures_throw ⟨hsu.db_eq,hsu.vault_eq,fun h => ?_⟩
    obtain ⟨sealed,v,hs,-⟩ := h.1
    cases hd.symm.trans hs
  | some sealed =>
    have hrefused : ∀ e, DataVault.openDek p sealed passphrase = .error e →
        ¬Reauthenticates p s passphrase s.budget := by
      intro e he h
      obtain ⟨sealed',v,hs,hv⟩ := h.1
      cases hd.symm.trans hs
      cases he.symm.trans hv
    refine (ensures_lift (Q := fun v x => x = u ∧ DataVault.openDek p sealed passphrase = .ok v)
      (fun v hv => ⟨rfl,hv⟩) fun e he => ⟨hsu.db_eq,hsu.vault_eq,hrefused e he⟩).bind ?_
    rintro v x ⟨rfl,hv⟩
    exact ensures_pure ⟨hsu.db_eq,hsu.vault_eq,⟨sealed,v,hd,hv⟩,hops⟩

/-- A locked store that is unlocked has been migrated. One that was not has been left as it
was, or the migration has been started. -/
theorem ensures_unlock_locked (passphrase : String) (params : VaultParams)
    (hl : s.isUnlocked = false) :
    Ensures s (unlock p w passphrase params)
      (fun _ t => LegacyEmpty t.db ∧ Migrating p passphrase s t)
      (fun t => t.db = s.db ∧ t.vault = s.vault ∨ Migrating p passphrase s t) := by
  unfold unlock
  refine (ensures_init.mono (fun _ _ h => h) fun t ht => ?_).bind ?_
  · exact .inl (by rw [ht.1]; exact ⟨rfl,rfl⟩)
  intro _ t ht
  refine ((ensures_read _).mono (fun _ _ h => h) fun u hu => ?_).bind ?_
  · rw [hu.1]
    exact .inl ⟨ht.db_eq,ht.vault_eq⟩
  rintro sealed? u ⟨hu,rfl⟩
  rw [ht.db_eq] at hu ⊢
  have hsu : Session.Does { s with opened := true } (readOps s) s.db u := by
    rw [readOps_eq]
    exact ht.trans hu
  have hstay : ∀ x, u.Does 0 u.db x → x.db = s.db ∧ x.vault = s.vault := by
    intro x hx
    have h := hsu.trans hx
    exact ⟨by rw [hx.db_eq,hsu.db_eq],by rw [h.vault_eq]⟩
  refine ensures_get_bind ?_
  have hlu : u.isUnlocked = false := by
    unfold Session.isUnlocked at hl ⊢
    rw [hsu.vault_eq]
    exact hl
  rw [hlu]
  simp only [Bool.false_eq_true,if_false]
  -- what the migration does from here
  have hmigrate : ∀ (x : Session) (v : DataVault) (db : Database),
      Start p passphrase s.db v db →
      Session.Does { u with vault := some v } (if s.db.dek.isSome then 0 else 1) db x →
      Ensures x (migrateLegacy p w passphrase params)
        (fun _ t => LegacyEmpty t.db ∧ Migrating p passphrase s t)
        (fun t => t.db = s.db ∧ t.vault = s.vault ∨ Migrating p passphrase s t) := by
    intro x v db hstart hx
    have hbudget : ∀ k, x.budget = some k → s.budget = some (startOps s+k) := by
      intro k hk
      have hu' : u.budget = some _ := hx.budget_of hk
      have hs' : s.budget = some _ := hsu.budget_of hu'
      rw [hs',startOps,Nat.add_assoc]
    have hopened : x.opened = true := by rw [hx.opened_eq]; exact hsu.opened_eq
    have hmigrating : ∀ y n, x.Does n y.db y → Progress p v passphrase x.budget x.db y.db →
        Migrating p passphrase s y := by
      intro y n hy hprog
      rw [hx.db_eq] at hprog
      refine ⟨v,db,x.budget,hstart,?_,?_,hbudget,hprog⟩
      · rw [hy.vault_eq,hx.vault_eq]
      · rw [hy.opened_eq,hopened]
    refine (ensures_migrateLegacy (hx.vault_eq) hstart.isOpen passphrase params).mono ?_ ?_
    · rintro - y ⟨hempty,n,hy,hprog⟩
      exact ⟨hempty,hmigrating y n hy hprog⟩
    · rintro y ⟨n,hy,hprog⟩
      exact .inr (hmigrating y n hy hprog)
  cases hd : s.db.dek with
  | some sealed =>
    dsimp only
    refine (ensures_lift (Q := fun v x => x = u ∧ DataVault.openDek p sealed passphrase = .ok v)
      (fun v hv => ⟨rfl,hv⟩) fun _ _ => .inl (hstay u (.refl u))).bind ?_
    rintro v x ⟨hxu,hv⟩
    rw [hxu]
    refine (ensures_modify (Q := fun _ x => Session.Does { u with vault := some v } 0 s.db x)
      ?_).bind fun _ x hx => hmigrate x v s.db (.opened hd hv) (by simpa [hd] using hx)
    rw [← hsu.db_eq]
    exact .refl _
  | none =>
    dsimp only
    have hdu : u.db.dek = none := by rw [hsu.db_eq,hd]
    refine ((ensures_createVault hdu).mono (fun _ _ h => h) fun x hx => .inl (hstay x hx)).bind ?_
    rintro - x ⟨v,db,hstart,hx⟩
    rw [hsu.db_eq] at hstart
    exact hmigrate x v db hstart (by simpa [hd] using hx)

/-- A call of `unlock` that resolves leaves nothing in the clear if and only if it has not
merely compared the passphrase while something was. -/
theorem empties_iff (s : State) (a : Call) : Empties p w s a ↔ MigratesFirst p s a := by
  cases a with
  | lock =>
    refine ⟨fun _ => trivial,fun _ t ht hr => ?_⟩
    cases ht
    cases hr
  | reload =>
    refine ⟨fun _ => trivial,fun _ t ht hr => ?_⟩
    cases ht
    cases hr
  | unlock passphrase params budget =>
    cases hx : exec (unlock p w passphrase params) { s.session with budget := budget } with
    | mk r t =>
      have hstep : step p w s (.unlock passphrase params budget) = some ⟨t,!throws r⟩ := by
        simp only [step,hx]
      cases hl : s.session.isUnlocked with
      | false =>
        refine ⟨fun _ h => absurd (hl.symm.trans h) (by simp),fun _ u hu hr => ?_⟩
        cases hstep.symm.trans hu
        have hok : throws r = false := by simpa using hr
        obtain ⟨a,rfl⟩ := throws_eq_false hok
        have hun := ensures_unlock_locked (p := p) (w := w) passphrase params
          (s := { s.session with budget := budget }) hl
        exact (hun.ok hx).1
      | true =>
        have hun := ensures_unlock_unlocked (p := p) (w := w) passphrase params
          (s := { s.session with budget := budget }) hl
        constructor
        · intro h _ hre
          cases r with
          | ok a =>
            have hempty := h _ hstep rfl
            rwa [(hun.ok hx).1] at hempty
          | error e => exact absurd hre (hun.thrown hx).2.2
        · intro h u hu hr
          cases hstep.symm.trans hu
          have hok : throws r = false := by simpa using hr
          obtain ⟨a,rfl⟩ := throws_eq_false hok
          obtain ⟨hdb,-,hre⟩ := hun.ok hx
          have hempty := h hl hre
          rwa [← hdb] at hempty

/-- In a run of calls every `unlock` that resolves leaves nothing in the clear if and only
if none merely compares the passphrase while something is. -/
theorem unlock_empties_iff (s : State) (as : List Call) :
    Machine.Along (step p w) (Empties p w) s as ↔
      Machine.Along (step p w) (MigratesFirst p) s as :=
  ⟨fun h => h.imp fun t a => (empties_iff t a).mp,fun h => h.imp fun t a => (empties_iff t a).mpr⟩

end Proofs

/-! What a run of interrupted migrations keeps. -/

section
variable (p : Primitives)

/-- The passphrase is the one of the store, or may become it. -/
def Accepted (s : Session) (passphrase : String) : Prop :=
  match s.db.dek with
  | some sealed => ∃ v, DataVault.openDek p sealed passphrase = .ok v
  | none => passphrase ≠ ""

/-- The `meta` of a slot, as `getSealed` reads it. -/
def metaOf (v : DataVault) (slot : String) (r : IdentityRecord) : Val :=
  match r.emeta with
  | .bytes emeta =>
    match v.openRecord p (.bytes emeta) ("identity:" ++ slot) with
    | .ok (some m) => m
    | _ => .undefined
  | _ => r.metadata

/-- A slot that is sealed again loses nothing: it has no encrypted `meta`, or one that is
not there once it is decrypted. -/
def MetaSafe (s : Session) (passphrase slot : String) : Prop :=
  ∀ r sealed secret, JsMap.get s.db.identity slot = some r → r.sealed = some sealed →
    sealed.isProtected = false → SecretVault.openSealed p sealed "" = some secret →
      r.emeta.truthy = false ∨ ∃ dek, s.db.dek = some dek ∧
        ∀ v, DataVault.openDek p dek passphrase = .ok v → (metaOf p v slot r).isNullish = true

/-- No migration is interrupted between the first copy of a post and the clearing of the
posts, and none seals a slot again that has an encrypted `meta`. -/
def Uncut (s : State) : Call → Prop
  | .unlock passphrase _ budget => s.session.isUnlocked = false → Accepted p s.session passphrase →
      (∀ copied, 0 < copied → copied ≤ (goodPosts (s.session.db.posts.getD [])).length →
        budget ≠ some (startOps s.session+(mailboxOps s.session.db+1+copied))) ∧
      ∀ slot ∈ ["trip","node"], MetaSafe p s.session passphrase slot
  | _ => True

/-- A database as an earlier version left it: the topic and the thread are keys of their
rows, every post can be written, and a sealed key was sealed by `DataVault.create`. -/
structure WellFormed (db : Database) : Prop where
  topics : ∀ r ∈ db.mailbox.getD [], ∀ r' ∈ db.mailbox.getD [], ∀ row row',
    mailboxRow? r = some row → mailboxRow? r' = some row' → row.1 = row'.1 → r = r'
  threadIds : ∀ r ∈ db.threads.getD [], ∀ r' ∈ db.threads.getD [], ∀ row row',
    threadRow? r = some row → threadRow? r' = some row' → row.1 = row'.1 → r = r'
  posts : ∀ r ∈ db.posts.getD [], ¬Unwritable p r
  key : ∀ sealed, db.dek = some sealed → ∃ dek passphrase,
    dek.length = DataVault.dekBytes ∧ SecretVault.SealedBy p sealed dek passphrase

def MailboxStored (v : DataVault) (r : Val) (k : String) (row : MailboxRow) : Prop :=
  ∃ topicHash entries lastUpdated, mailboxRow? r = some (topicHash,entries) ∧
    v.index p "mailbox" topicHash = .ok k ∧
      ((r.field "lastUpdated").truthy = true → lastUpdated = r.field "lastUpdated") ∧
        DataVault.Holds p v row.blob ("emailbox:" ++ k)
          (MailboxEntry.toVal ⟨topicHash,entries,lastUpdated⟩)

def PostStored (v : DataVault) (r : Val) (row : PostRow) : Prop :=
  ∃ boardId threadId, postRow? r = some (boardId,threadId) ∧
    postIndex p v boardId threadId = .ok row.bt ∧
      DataVault.Holds p v row.blob ("eposts:" ++ row.bt) (postRecord r)

def ThreadStored (v : DataVault) (r : Val) (k : String) (row : ThreadRow) : Prop :=
  ∃ threadId boardId, threadRow? r = some (threadId,boardId) ∧
    v.index p "thread" threadId = .ok k ∧ v.index p "board" boardId = .ok row.b ∧
      DataVault.Holds p v row.blob ("ethreads:" ++ k) r

/-- The secret of a slot and its `meta` are what they were. It opens as it did, or with the
passphrase of the store. -/
def SlotKept (v : DataVault) (db db' : Database) (slot : String) : Prop :=
  ∀ r sealed, JsMap.get db.identity slot = some r → r.sealed = some sealed →
    ∃ r' sealed', JsMap.get db'.identity slot = some r' ∧ r'.sealed = some sealed' ∧
      (metaOf p v slot r').Same (metaOf p v slot r) ∧
        (sealed' = sealed ∨ ∃ secret passphrase dek,
          SecretVault.openSealed p sealed "" = some secret ∧
            SecretVault.openSealed p sealed' passphrase = some secret ∧
              db'.dek = some dek ∧ DataVault.openDek p dek passphrase = .ok v)

/-- Every row of the first database that was in the clear is in the second one once, and
can be read with the key; nothing else has been added, and the slots are what they were. -/
structure Lossless (v : DataVault) (db db' : Database) : Prop where
  mailbox : ∀ r ∈ db.mailbox.getD [], (mailboxRow? r).isSome →
    ∃ k row, JsMap.get db'.emailbox k = some row ∧ MailboxStored p v r k row
  onlyMailbox : ∀ k, JsMap.get db'.emailbox k = JsMap.get db.emailbox k ∨
    ∃ r ∈ db.mailbox.getD [], ∃ row, JsMap.get db'.emailbox k = some row ∧
      MailboxStored p v r k row
  posts : ∃ new, db'.eposts = db.eposts ++ new ∧
    List.Forall₂ (PostStored p v) (goodPosts (db.posts.getD [])) new
  threads : ∀ r ∈ db.threads.getD [], (threadRow? r).isSome →
    ∃ k row, JsMap.get db'.ethreads k = some row ∧ ThreadStored p v r k row
  onlyThreads : ∀ k, JsMap.get db'.ethreads k = JsMap.get db.ethreads k ∨
    ∃ r ∈ db.threads.getD [], ∃ row, JsMap.get db'.ethreads k = some row ∧
      ThreadStored p v r k row
  slots : ∀ slot ∈ ["trip","node"], SlotKept p v db db' slot

/-- How far the migration of the first database has come in the second. -/
structure Stage (v : DataVault) (db db' : Database) : Prop where
  emailbox : JsMap.Overlaid (mailboxKey p v) (MailboxHolds p v) (db.mailbox.getD [])
    db.emailbox db'.emailbox
  mailbox : db'.mailbox = db.mailbox ∨ db'.mailbox = emptied db.mailbox ∧
    ∀ r ∈ db.mailbox.getD [], JsMap.Covered (mailboxKey p v) (MailboxHolds p v) db'.emailbox r
  posts : db'.posts = db.posts ∧ db'.eposts = db.eposts ∨
    db'.posts = emptied db.posts ∧ ∃ new, db'.eposts = db.eposts ++ new ∧
      List.Forall₂ (PostHolds p v) (goodPosts (db.posts.getD [])) new
  ethreads : JsMap.Overlaid (threadKey p v) (ThreadHolds p v) (db.threads.getD [])
    db.ethreads db'.ethreads
  threads : db'.threads = db.threads ∨ db'.threads = emptied db.threads ∧
    ∀ r ∈ db.threads.getD [], JsMap.Covered (threadKey p v) (ThreadHolds p v) db'.ethreads r
  slots : ∀ slot ∈ ["trip","node"],
    JsMap.get db'.identity slot = JsMap.get db.identity slot ∨
      ∃ passphrase r r' dek, JsMap.get db.identity slot = some r ∧
        JsMap.get db'.identity slot = some r' ∧ Resealed p v passphrase slot r r' ∧
          db'.dek = some dek ∧ DataVault.openDek p dek passphrase = .ok v ∧
            (r.emeta.truthy = false ∨ (metaOf p v slot r).isNullish = true)

/-- The key of the store. -/
def KeyOf (db : Database) (v : DataVault) : Prop :=
  ∃ sealed passphrase, db.dek = some sealed ∧ DataVault.openDek p sealed passphrase = .ok v

structure Inv (db : Database) (s : State) : Prop where
  unkeyed : s.session.db.dek = none → s.session.db = db
  key : ∀ sealed, s.session.db.dek = some sealed → ∃ dek passphrase,
    dek.length = DataVault.dekBytes ∧ SecretVault.SealedBy p sealed dek passphrase
  vault : ∀ v, s.session.vault = some v → KeyOf p s.session.db v
  stage : ∀ v, KeyOf p s.session.db v → Stage p v db s.session.db

end

section Proofs
variable {p : Primitives} {w : World} {v : DataVault} {orig db db' : Database} {s : State}

theorem mailboxKey_eq_some {r : Val} {k : String} (h : mailboxKey p v r = some k) :
    ∃ row, mailboxRow? r = some row ∧ v.index p "mailbox" row.1 = .ok k := by
  obtain ⟨row,hrow,hk⟩ := Option.bind_eq_some_iff.mp h
  refine ⟨row,hrow,?_⟩
  cases hi : v.index p "mailbox" row.1 with
  | error e => simp [hi,Except.toOption] at hk
  | ok k' =>
    rw [hi] at hk
    cases hk
    rfl

theorem threadKey_eq_some {r : Val} {k : String} (h : threadKey p v r = some k) :
    ∃ row, threadRow? r = some row ∧ v.index p "thread" row.1 = .ok k := by
  obtain ⟨row,hrow,hk⟩ := Option.bind_eq_some_iff.mp h
  refine ⟨row,hrow,?_⟩
  cases hi : v.index p "thread" row.1 with
  | error e => simp [hi,Except.toOption] at hk
  | ok k' =>
    rw [hi] at hk
    cases hk
    rfl

theorem WellFormed.mailboxKeys (hp : p.Ideal) (hw : WellFormed p db) :
    DistinctKeys (mailboxKey p v) (db.mailbox.getD []) := by
  intro r hr r' hr' k hk hk'
  obtain ⟨row,hrow,hi⟩ := mailboxKey_eq_some hk
  obtain ⟨row',hrow',hi'⟩ := mailboxKey_eq_some hk'
  exact hw.topics r hr r' hr' row row' hrow hrow' (DataVault.index_inj hp hi hi')

theorem WellFormed.threadKeys (hp : p.Ideal) (hw : WellFormed p db) :
    DistinctKeys (threadKey p v) (db.threads.getD []) := by
  intro r hr r' hr' k hk hk'
  obtain ⟨row,hrow,hi⟩ := threadKey_eq_some hk
  obtain ⟨row',hrow',hi'⟩ := threadKey_eq_some hk'
  exact hw.threadIds r hr r' hr' row row' hrow hrow' (DataVault.index_inj hp hi hi')

/-- A sealed key opens to one key, whatever the passphrase. -/
theorem keyOf_unique (hp : p.Ideal) {v' : DataVault}
    (hk : ∀ sealed, db.dek = some sealed → ∃ dek passphrase,
      dek.length = DataVault.dekBytes ∧ SecretVault.SealedBy p sealed dek passphrase)
    (h : KeyOf p db v) (h' : KeyOf p db v') : v = v' := by
  have hopen : ∀ sealed dek passphrase other u, SecretVault.SealedBy p sealed dek passphrase →
      DataVault.openDek p sealed other = .ok u → u = DataVault.fromDek p dek := by
    intro sealed dek passphrase other u hs hu
    obtain ⟨-,-,hu⟩ := bind_ok hu
    obtain ⟨dek',hd,hu⟩ := bind_ok hu
    cases hu
    unfold DataVault.unsealDek at hd
    cases ho : SecretVault.openSealed p sealed other with
    | none => simp [ho] at hd
    | some opened =>
      simp only [ho] at hd
      split at hd
      · cases hd
      · cases hd
        rw [((hs.openSealed_iff hp other dek').mp ho).2]
  obtain ⟨sealed,other,hd,ho⟩ := h
  obtain ⟨sealed',other',hd',ho'⟩ := h'
  cases hd.symm.trans hd'
  obtain ⟨dek,passphrase,-,hs⟩ := hk sealed hd
  rw [hopen sealed dek passphrase other v hs ho,hopen sealed dek passphrase other' v' hs ho']

/-- The key that has just been created. -/
theorem openDek_created (hp : p.Ideal) {sealed : SealedSecret} {dek : Bytes} {passphrase : String}
    (hl : dek.length = DataVault.dekBytes) (hs : SecretVault.SealedBy p sealed dek passphrase)
    (hne : passphrase ≠ "") :
    DataVault.openDek p sealed passphrase = .ok (DataVault.fromDek p dek) := by
  have ho := (hs.openSealed_iff hp passphrase dek).mpr ⟨rfl,rfl⟩
  have hn : ¬dek.length ≠ DataVault.dekBytes := fun h => h hl
  simp [DataVault.openDek,DataVault.requirePassphrase,DataVault.unsealDek,ho,hne,hn,bind,
    Except.bind]

theorem Stage.refl (db : Database) : Stage p v db db :=
  ⟨.refl _,.inl rfl,.inl ⟨rfl,rfl⟩,.refl _,.inl rfl,fun _ _ => .inl rfl⟩

theorem emptied_emptied (o : Option (List Val)) : emptied (emptied o) = emptied o := by
  cases o with
  | none => rfl
  | some rows => rfl

theorem emptied_getD (o : Option (List Val)) : (emptied o).getD [] = [] := by
  cases o with
  | none => rfl
  | some rows => rfl

theorem dek_of_progress {passphrase : String} {budget : Option Nat}
    (h : Progress p v passphrase budget db db') : db'.dek = db.dek := by
  unfold Database.dek
  rcases h.identity dekSlot with hk | ⟨hk,-⟩
  · rw [hk]
  · simp [dekSlot] at hk

/-- One more migration, not cut among the posts, brings the first database further. -/
theorem Stage.progress (hp : p.Ideal) (hw : WellFormed p orig) (h : Stage p v orig db)
    {passphrase : String} {budget : Option Nat} (hprog : Progress p v passphrase budget db db')
    (hcut : ¬HalfCopied budget db) {dek : SealedSecret} (hd : db.dek = some dek)
    (ho : DataVault.openDek p dek passphrase = .ok v)
    (hmeta : ∀ slot ∈ ["trip","node"], ∀ r r', JsMap.get db.identity slot = some r →
      Resealed p v passphrase slot r r' →
        r.emeta.truthy = false ∨ (metaOf p v slot r).isNullish = true) :
    Stage p v orig db' := by
  have hmailRows : ∀ r ∈ db.mailbox.getD [], r ∈ orig.mailbox.getD [] := by
    rcases h.mailbox with hm | ⟨hm,-⟩
    · rw [hm]
      exact fun r hr => hr
    · rw [hm,emptied_getD]
      exact fun r hr => by cases hr
  have hthreadRows : ∀ r ∈ db.threads.getD [], r ∈ orig.threads.getD [] := by
    rcases h.threads with hm | ⟨hm,-⟩
    · rw [hm]
      exact fun r hr => hr
    · rw [hm,emptied_getD]
      exact fun r hr => by cases hr
  refine ⟨h.emailbox.trans (hprog.emailbox.mono hmailRows),?_,?_,
    h.ethreads.trans (hprog.ethreads.mono hthreadRows),?_,?_⟩
  · rcases h.mailbox with hm | ⟨hm,hcov⟩
    · rcases hprog.mailbox with hm' | ⟨hm',hcov'⟩
      · exact .inl (hm'.trans hm)
      · rw [hm] at hm' hcov'
        exact .inr ⟨hm',hcov' (hw.mailboxKeys hp)⟩
    · have hget := hprog.emailbox
      rw [hm,emptied_getD] at hget
      refine .inr ⟨?_,fun r hr => (hcov r hr).congr hget.get_eq⟩
      rcases hprog.mailbox with hm' | ⟨hm',-⟩
      · rw [hm',hm]
      · rw [hm',hm,emptied_emptied]
  · rcases h.posts with ⟨hm,he⟩ | ⟨hm,new,he,hall⟩
    · rcases hprog.posts with ⟨hm',he' | ⟨r,hr,hu⟩ | hcut'⟩ | ⟨hm',new,he',hall⟩
      · exact .inl ⟨hm'.trans hm,he'.trans he⟩
      · rw [hm] at hr
        exact absurd hu (hw.posts r hr)
      · exact absurd hcut' hcut
      · rw [hm] at hm' hall
        rw [he] at he'
        exact .inr ⟨hm',new,he',hall⟩
    · have hrows : db.posts.getD [] = [] := by rw [hm,emptied_getD]
      rcases hprog.posts with ⟨hm',he' | ⟨r,hr,-⟩ | hcut'⟩ | ⟨hm',new',he',hall'⟩
      · exact .inr ⟨hm'.trans hm,new,he'.trans he,hall⟩
      · rw [hrows] at hr
        cases hr
      · exact absurd hcut' hcut
      · rw [hrows] at hall'
        cases hall'
        refine .inr ⟨?_,new,by rw [he',he,List.append_nil],hall⟩
        rw [hm',hm,emptied_emptied]
  · rcases h.threads with hm | ⟨hm,hcov⟩
    · rcases hprog.threads with hm' | ⟨hm',hcov'⟩
      · exact .inl (hm'.trans hm)
      · rw [hm] at hm' hcov'
        exact .inr ⟨hm',hcov' (hw.threadKeys hp)⟩
    · have hget := hprog.ethreads
      rw [hm,emptied_getD] at hget
      refine .inr ⟨?_,fun r hr => (hcov r hr).congr hget.get_eq⟩
      rcases hprog.threads with hm' | ⟨hm',-⟩
      · rw [hm',hm]
      · rw [hm',hm,emptied_emptied]
  · intro slot hslot
    rcases hprog.identity slot with hsame | ⟨-,r,r',hr,hr',hre⟩
    · rw [hsame,dek_of_progress hprog]
      exact h.slots slot hslot
    · rcases h.slots slot hslot with hsame | ⟨passphrase',r₀,r₁,dek',-,hr₁,hre',hd',ho',-⟩
      · refine .inr ⟨passphrase,r,r',dek,hsame ▸ hr,hr',hre,?_,ho,hmeta slot hslot r r' hr hre⟩
        rw [dek_of_progress hprog,hd]
      · -- a slot that has been sealed again is protected
        cases hr.symm.trans hr₁
        obtain ⟨sealed,_,resealed,_,_,_,hsealed,hby⟩ := hre'.kept
        obtain ⟨sealed',_,_,hsealed',hprot',_⟩ := hre.kept
        cases hsealed.symm.trans hsealed'
        have hne := DataVault.openDek_ne ho'
        rw [hby.isProtected] at hprot'
        simp [hne] at hprot'

/-- What starts a migration keeps the key of the store, and the rest of the database. -/
theorem Inv.start (hp : p.Ideal) (h : Inv p orig s) {passphrase : String}
    (hs : Start p passphrase s.session.db v db) :
    KeyOf p db v ∧ (∃ dek, db.dek = some dek ∧ DataVault.openDek p dek passphrase = .ok v) ∧
      (∀ sealed, db.dek = some sealed → ∃ dek passphrase,
        dek.length = DataVault.dekBytes ∧ SecretVault.SealedBy p sealed dek passphrase) ∧
      Stage p v orig db := by
  cases hs with
  | opened hd ho =>
    have hk : KeyOf p s.session.db v := ⟨_,passphrase,hd,ho⟩
    exact ⟨hk,⟨_,hd,ho⟩,h.key,h.stage v hk⟩
  | @created r sealed dek hd hr hl hsealed hne =>
    have hdek : Database.dek { s.session.db with
        identity := JsMap.set s.session.db.identity dekSlot r } = some sealed := by
      simp [Database.dek,hr]
    have ho := openDek_created hp hl hsealed hne
    refine ⟨⟨sealed,passphrase,hdek,ho⟩,⟨sealed,hdek,ho⟩,?_,?_⟩
    · intro sealed' hd'
      cases hdek.symm.trans hd'
      exact ⟨dek,passphrase,hl,hsealed⟩
    · rw [h.unkeyed hd]
      refine ⟨.refl _,.inl rfl,.inl ⟨rfl,rfl⟩,.refl _,.inl rfl,fun slot hslot => .inl ?_⟩
      refine JsMap.get_set_ne _ ?_ _
      rintro rfl
      simp [dekSlot] at hslot

/-- The slots that a migration seals again have no `meta` to lose. -/
theorem metaSafe_start {passphrase : String} {db₀ : Database} {t : Session}
    (hs : Start p passphrase t.db v db₀)
    (hsafe : ∀ slot ∈ ["trip","node"], MetaSafe p t passphrase slot) :
    ∀ slot ∈ ["trip","node"], ∀ r r', JsMap.get db₀.identity slot = some r →
      Resealed p v passphrase slot r r' →
        r.emeta.truthy = false ∨ (metaOf p v slot r).isNullish = true := by
  intro slot hslot r r' hr hre
  obtain ⟨sealed,secret,_,hsealed,hprot,hopen,_⟩ := hre.kept
  cases hs with
  | opened hd ho =>
    rcases hsafe slot hslot r sealed secret hr hsealed hprot hopen with he | ⟨dek,hd',hm⟩
    · exact .inl he
    · cases hd.symm.trans hd'
      exact .inr (hm v ho)
  | created hd _ _ _ _ =>
    have hne : slot ≠ dekSlot := by
      rintro rfl
      simp [dekSlot] at hslot
    rw [JsMap.get_set_ne _ hne] at hr
    rcases hsafe slot hslot r sealed secret hr hsealed hprot hopen with he | ⟨dek,hd',-⟩
    · exact .inl he
    · cases hd.symm.trans hd'

/-- A migration that has been started, and is not cut, keeps the invariant. -/
theorem Inv.migrating (hp : p.Ideal) (hw : WellFormed p orig) (h : Inv p orig s)
    {passphrase : String} {params : VaultParams} {budget : Option Nat} {t : Session} {b : Bool}
    (hG : Uncut p s (.unlock passphrase params budget)) (hl : s.session.isUnlocked = false)
    (hm : Migrating p passphrase { s.session with budget := budget } t) :
    Inv p orig ⟨t,b⟩ := by
  obtain ⟨v,db,left,hstart,hv,-,hbudget,hprog⟩ := hm
  obtain ⟨hkey,⟨dek,hd,ho⟩,hsealed,hstage⟩ := h.start hp hstart
  have hacc : Accepted p s.session passphrase := by
    unfold Accepted
    cases hstart with
    | opened hd₀ ho₀ =>
      have hd' : s.session.db.dek = _ := hd₀
      rw [hd']
      exact ⟨v,ho₀⟩
    | created hd₀ _ _ _ hne =>
      have hd' : s.session.db.dek = none := hd₀
      rw [hd']
      exact hne
  obtain ⟨hcut,hsafe⟩ := hG hl hacc
  have hsame : db.posts = s.session.db.posts ∧ mailboxOps db = mailboxOps s.session.db := by
    cases hstart with
    | opened => exact ⟨rfl,rfl⟩
    | created => exact ⟨rfl,rfl⟩
  have hwhole : ¬HalfCopied left db := by
    rintro ⟨copied,hpos,hle,hleft⟩
    rw [hsame.1] at hle
    refine hcut copied hpos hle ?_
    rw [← hsame.2]
    exact hbudget _ hleft
  have hnew := hstage.progress hp hw hprog hwhole hd ho (metaSafe_start hstart hsafe)
  have hdek := dek_of_progress hprog
  have hkeyOf : ∀ u, KeyOf p t.db u → KeyOf p db u := fun u hu => by
    unfold KeyOf at hu ⊢
    rwa [hdek] at hu
  refine ⟨fun hnone => ?_,fun sealed hs => hsealed sealed (hdek ▸ hs),fun u hu => ?_,
    fun u hu => ?_⟩
  · have hnone' : t.db.dek = none := hnone
    rw [hdek,hd] at hnone'
    cases hnone'
  · have hu' : t.vault = some u := hu
    rw [hv] at hu'
    cases hu'
    exact ⟨dek,passphrase,hdek.trans hd,ho⟩
  · cases keyOf_unique hp hsealed hkey (hkeyOf u hu)
    exact hnew

/-- A call that leaves the database and the open key alone. -/
theorem Inv.same (h : Inv p orig s) {t : State} (hdb : t.session.db = s.session.db)
    (hv : t.session.vault = s.session.vault ∨ t.session.vault = none) : Inv p orig t := by
  refine ⟨?_,?_,fun u hu => ?_,?_⟩
  · rw [hdb]
    exact h.unkeyed
  · rw [hdb]
    exact h.key
  · rw [hdb]
    rcases hv with hv | hv
    · exact h.vault u (hv ▸ hu)
    · rw [hv] at hu
      cases hu
  · rw [hdb]
    exact h.stage

theorem inv_step (hp : p.Ideal) (hw : WellFormed p orig) (s : State) (a : Call) (t : State)
    (h : Inv p orig s) (hG : Uncut p s a) (hs : step p w s a = some t) : Inv p orig t := by
  cases a with
  | lock =>
    cases hs
    exact h.same rfl (.inr rfl)
  | reload =>
    cases hs
    exact h.same rfl (.inr rfl)
  | unlock passphrase params budget =>
    cases hx : exec (unlock p w passphrase params) { s.session with budget := budget } with
    | mk r u =>
      have hstep : step p w s (.unlock passphrase params budget) = some ⟨u,!throws r⟩ := by
        simp only [step,hx]
      cases hstep.symm.trans hs
      cases hl : s.session.isUnlocked with
      | true =>
        have hun := ensures_unlock_unlocked (p := p) (w := w) passphrase params
          (s := { s.session with budget := budget }) hl
        cases r with
        | ok a => exact h.same (hun.ok hx).1 (.inl (hun.ok hx).2.1)
        | error e => exact h.same (hun.thrown hx).1 (.inl (hun.thrown hx).2.1)
      | false =>
        have hun := ensures_unlock_locked (p := p) (w := w) passphrase params
          (s := { s.session with budget := budget }) hl
        cases r with
        | ok a => exact h.migrating hp hw hG hl (hun.ok hx).2
        | error e =>
          rcases hun.thrown hx with ⟨hdb,hv⟩ | hm
          · exact h.same hdb (.inl hv)
          · exact h.migrating hp hw hG hl hm

theorem metaOf_resealed (hp : p.Ideal) {passphrase slot : String} {r r' : IdentityRecord}
    (h : Resealed p v passphrase slot r r')
    (hsafe : r.emeta.truthy = false ∨ (metaOf p v slot r).isNullish = true) :
    (metaOf p v slot r').Same (metaOf p v slot r) := by
  have hnull : ∀ m : Val, m.isNullish = true → Val.undefined.Same m := by
    intro m hm
    cases m with
    | undefined => rfl
    | null => rfl
    | _ => cases hm
  have hnew : ∀ m : Val, m = .undefined ∧ r'.emeta = .undefined ∨
      DataVault.Sealed p v r'.emeta ("identity:" ++ slot) m → (metaOf p v slot r').Same m := by
    rintro m (⟨rfl,he⟩ | hs)
    · simp [metaOf,he,h.plain,Val.Same]
    · obtain ⟨opened,ho,hsame⟩ := hs.holds hp
      obtain ⟨_,bytes,_,_,hb⟩ := hs
      rw [hb] at ho
      simpa [metaOf,hb,ho] using hsame
  have hmeta := hnew _ h.metadata
  by_cases he : r.emeta.truthy = true
  · rw [if_pos he] at hmeta
    have hn := hsafe.resolve_left (by simp [he])
    exact hmeta.trans (hnull _ hn)
  · rw [if_neg he] at hmeta
    have hplain : metaOf p v slot r = r.metadata := by
      unfold metaOf
      split
      · next emeta hb => simp [hb,Val.truthy] at he
      · rfl
    rwa [hplain]

/-- A migration that has come to its end has lost and doubled nothing. -/
theorem Stage.lossless (hp : p.Ideal) (ho : v.isOpen = true) (h : Stage p v db db')
    (hempty : LegacyEmpty db') :
    Lossless p v db db' := by
  have hmail : ∀ r k row, mailboxKey p v r = some k → MailboxHolds p v k r row →
      MailboxStored p v r k row := by
    rintro r k row hk ⟨topicHash,entries,lastUpdated,hr,hl,hs⟩
    obtain ⟨row',hrow',hi⟩ := mailboxKey_eq_some hk
    cases hr.symm.trans hrow'
    exact ⟨topicHash,entries,lastUpdated,hr,hi,hl,hs.holds hp⟩
  have hthread : ∀ r k row, threadKey p v r = some k → ThreadHolds p v k r row →
      ThreadStored p v r k row := by
    rintro r k row hk ⟨threadId,boardId,hr,hb,hs⟩
    obtain ⟨row',hrow',hi⟩ := threadKey_eq_some hk
    cases hr.symm.trans hrow'
    exact ⟨threadId,boardId,hr,hi,hb,hs.holds hp⟩
  have hpost : ∀ r row, PostHolds p v r row → PostStored p v r row := by
    rintro r row ⟨boardId,threadId,hr,hb,hs⟩
    exact ⟨boardId,threadId,hr,hb,hs.holds hp⟩
  refine ⟨?_,?_,?_,?_,?_,?_⟩
  · intro r hr hrow
    obtain ⟨k,hk⟩ := Option.isSome_iff_exists.mp ((mailboxKey_isSome (p := p) ho r).trans hrow)
    have hcov : JsMap.Covered (mailboxKey p v) (MailboxHolds p v) db'.emailbox r := by
      rcases h.mailbox with hm | ⟨-,hcov⟩
      · rw [← hm,hempty.mailbox] at hr
        cases hr
      · exact hcov r hr
    obtain ⟨row,hget,hholds⟩ := hcov k hk
    exact ⟨k,row,hget,hmail r k row hk hholds⟩
  · intro k
    refine (h.emailbox k).imp_right ?_
    rintro ⟨r,hr,row,hk,hget,hrow⟩
    exact ⟨r,hr,row,hget,hmail r k row hk hrow⟩
  · rcases h.posts with ⟨hm,he⟩ | ⟨-,new,he,hall⟩
    · refine ⟨[],by rw [he,List.append_nil],?_⟩
      rw [← hm,hempty.posts]
      exact .nil
    · exact ⟨new,he,hall.imp fun r row hr => hpost r row hr⟩
  · intro r hr hrow
    obtain ⟨k,hk⟩ := Option.isSome_iff_exists.mp ((threadKey_isSome (p := p) ho r).trans hrow)
    have hcov : JsMap.Covered (threadKey p v) (ThreadHolds p v) db'.ethreads r := by
      rcases h.threads with hm | ⟨-,hcov⟩
      · rw [← hm,hempty.threads] at hr
        cases hr
      · exact hcov r hr
    obtain ⟨row,hget,hholds⟩ := hcov k hk
    exact ⟨k,row,hget,hthread r k row hk hholds⟩
  · intro k
    refine (h.ethreads k).imp_right ?_
    rintro ⟨r,hr,row,hk,hget,hrow⟩
    exact ⟨r,hr,row,hget,hthread r k row hk hrow⟩
  · intro slot hslot r sealed hr hsealed
    rcases h.slots slot hslot with hsame | ⟨passphrase,r₀,r',dek,hr₀,hr',hre,hd,ho,hsafe⟩
    · exact ⟨r,sealed,hsame.trans hr,hsealed,rfl,.inl rfl⟩
    · cases hr.symm.trans hr₀
      obtain ⟨sealed₀,secret,resealed,hs₀,_,hopen₀,hs',hby⟩ := hre.kept
      cases hsealed.symm.trans hs₀
      refine ⟨r',resealed,hr',hs',metaOf_resealed hp hre hsafe,.inr ⟨secret,passphrase,dek,hopen₀,
        ?_,hd,ho⟩⟩
      exact (hby.openSealed_iff hp passphrase secret).mpr ⟨rfl,rfl⟩

/-- After a run of migrations that were interrupted anywhere but among the posts, one that
completes has brought every row over once. -/
theorem migration_lossless (hp : p.Ideal) (hw : WellFormed p db) {as : List Call}
    {passphrase : String} {params : VaultParams} {budget : Option Nat} {t : State}
    (hG : Machine.Along (step p w) (Uncut p) { session := { db := db } }
      (as ++ [.unlock passphrase params budget]))
    (hr : Machine.run (step p w) { session := { db := db } } as = some s)
    (hl : s.session.isUnlocked = false)
    (ht : step p w s (.unlock passphrase params budget) = some t) (hok : t.resolved = true) :
    ∃ v, t.session.vault = some v ∧ Lossless p v db t.session.db := by
  have hinit : Inv p db { session := { db := db } } :=
    ⟨fun _ => rfl,hw.key,fun v hv => (by cases hv),fun _ _ => .refl db⟩
  obtain ⟨hGas,hGlast⟩ := (Machine.along_append _ as _).mp hG
  have hinv := Machine.invariant_run (inv_step hp hw) hinit hGas hr
  have hinv' := inv_step hp hw s _ t hinv (hGlast s hr).1 ht
  cases hx : exec (unlock p w passphrase params) { s.session with budget := budget } with
  | mk r u =>
    have hstep : step p w s (.unlock passphrase params budget) = some ⟨u,!throws r⟩ := by
      simp only [step,hx]
    cases hstep.symm.trans ht
    have hthrows : throws r = false := by simpa using hok
    obtain ⟨a,rfl⟩ := throws_eq_false hthrows
    have hun := ensures_unlock_locked (p := p) (w := w) passphrase params
      (s := { s.session with budget := budget }) hl
    obtain ⟨hempty,v,_,_,hstart,hv,-⟩ := hun.ok hx
    exact ⟨v,hv,(hinv'.stage v (hinv'.vault v hv)).lossless hp hstart.isOpen hempty⟩

end Proofs

def sampleParams : VaultParams := ⟨1,8192⟩

/-- One post in the clear. -/
def legacyPost : Database := { posts := some [Sample.post] }

abbrev sampleStep : State → Call → Option State := step sample sampleWorld

/-- The migration fails when it reads the posts; the store is unlocked then. -/
def reunlockedRun : List Call := [
  .unlock "secret" sampleParams (some 3),
  .unlock "secret" sampleParams none]

theorem unlock_keeps_reunlockedRun : ¬∀ (s : State) (as : List Call),
    Machine.Along sampleStep (Empties sample sampleWorld) s as := by
  intro h
  have hall := h { session := { db := legacyPost } } reunlockedRun
  have hrun : (Machine.run sampleStep { session := { db := legacyPost } } reunlockedRun).map
      (fun t => t.resolved && (t.session.db.posts.getD []).length == 1) = some true := by
    decide +kernel
  obtain ⟨t,ht,hsum⟩ := Option.map_eq_some_iff.mp hrun
  obtain ⟨u,hu,ht⟩ := Machine.run_cons_inv ht
  obtain ⟨x,hx,ht⟩ := Machine.run_cons_inv ht
  cases ht
  simp only [Bool.and_eq_true,beq_iff_eq] at hsum
  have hempty := (hall.2 u hu).1 t hx hsum.1
  rw [hempty.posts] at hsum
  cases hsum.2

theorem legacyPost_wellFormed : WellFormed sample legacyPost where
  topics r hr := by cases hr
  threadIds r hr := by cases hr
  posts r hr := by
    cases List.mem_singleton.mp hr
    exact Bool.false_ne_true
  key sealed hs := by cases hs

/-- The first migration fails before it has copied the post. -/
def resumedRun : List Call := [.unlock "secret" sampleParams (some 4),.reload]

theorem migration_lossless_resumedRun : ∃ s t v,
    Machine.run sampleStep { session := { db := legacyPost } } resumedRun = some s ∧
      sampleStep s (.unlock "secret" sampleParams none) = some t ∧ t.resolved = true ∧
        t.session.vault = some v ∧ Lossless sample v legacyPost t.session.db := by
  have hrun : (Machine.run sampleStep { session := { db := legacyPost } } resumedRun).map
      (fun s => !s.session.isUnlocked && ["trip","node"].all (fun slot =>
          (JsMap.get s.session.db.identity slot).isNone) &&
        (sampleStep s (.unlock "secret" sampleParams none)).map State.resolved == some true) =
      some true := by
    decide +kernel
  obtain ⟨s,hs,hsum⟩ := Option.map_eq_some_iff.mp hrun
  simp only [Bool.and_eq_true,Bool.not_eq_true',beq_iff_eq,List.all_eq_true,
    Option.isNone_iff_eq_none] at hsum
  obtain ⟨⟨hl,hslots⟩,hstep⟩ := hsum
  obtain ⟨t,ht,hok⟩ := Option.map_eq_some_iff.mp hstep
  have hcut : ∀ copied, 0 < copied → copied ≤ (goodPosts (legacyPost.posts.getD [])).length →
      some 4 ≠ some (3+(0+1+copied)) := by
    intro copied hpos _ h
    have hsum := Option.some.inj h
    omega
  have hG : Machine.Along sampleStep (Uncut sample) { session := { db := legacyPost } }
      (resumedRun ++ [.unlock "secret" sampleParams none]) := by
    refine (Machine.along_append _ _ _).mpr ⟨⟨fun _ _ => ⟨hcut,?_⟩,fun _ _ => ?_⟩,fun u hu => ?_⟩
    · intro slot _ r sealed _ hr
      cases hr
    · exact ⟨trivial,fun _ _ => trivial⟩
    · cases hs.symm.trans hu
      refine ⟨fun _ _ => ⟨fun copied _ _ h => (by cases h),?_⟩,fun _ _ => trivial⟩
      intro slot hslot r sealed _ hr
      rw [hslots slot hslot] at hr
      cases hr
  obtain ⟨v,hv,hless⟩ := migration_lossless sample_ideal legacyPost_wellFormed hG hs hl ht hok
  exact ⟨s,t,v,hs,ht,hok,hv,hless⟩

/-- The first migration fails between the copy of the post and the clearing of the posts. -/
def cutRun : List Call := [.unlock "secret" sampleParams (some 5),.reload]

theorem migration_doubles_cutRun : WellFormed sample legacyPost ∧ ¬∀ (as : List Call)
    (passphrase : String) (params : VaultParams) (budget : Option Nat) (s t : State),
      Machine.run sampleStep { session := { db := legacyPost } } as = some s →
        s.session.isUnlocked = false →
          sampleStep s (.unlock passphrase params budget) = some t → t.resolved = true →
            ∃ v, t.session.vault = some v ∧ Lossless sample v legacyPost t.session.db := by
  refine ⟨legacyPost_wellFormed,fun h => ?_⟩
  have hrun : (Machine.run sampleStep { session := { db := legacyPost } } cutRun).map
      (fun s => !s.session.isUnlocked && (sampleStep s (.unlock "secret" sampleParams none)).map
        (fun t => t.resolved && t.session.db.eposts.length == 2) == some true) = some true := by
    decide +kernel
  obtain ⟨s,hs,hsum⟩ := Option.map_eq_some_iff.mp hrun
  simp only [Bool.and_eq_true,Bool.not_eq_true',beq_iff_eq] at hsum
  obtain ⟨t,ht,hok⟩ := Option.map_eq_some_iff.mp hsum.2
  simp only [Bool.and_eq_true,beq_iff_eq] at hok
  obtain ⟨v,-,hl⟩ := h cutRun "secret" sampleParams none s t hs hsum.1 ht hok.1
  obtain ⟨new,hnew,hall⟩ := hl.posts
  have hlen := hall.length_eq
  have hgood : (goodPosts (legacyPost.posts.getD [])).length = 1 := rfl
  have htwo := congrArg List.length hnew
  rw [List.length_append,← hlen,hgood,hok.2] at htwo
  cases htwo

end Migration

end Storage
