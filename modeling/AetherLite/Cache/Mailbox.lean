import AetherLite.Cache.SameTraffic
import AetherLite.Cache.SqliteStore
import AetherLite.Lib.Machine

/-! The mailbox of the cache node: what a PUT stores, and what it stores of the packets that
are gossiped. -/
set_option autoImplicit false

namespace Cache

def maxEntriesPerMessage : Nat := 64
def maxEntriesPerTopic : Nat := 512
def maxTopics : Nat := 100000

/-- The longest `req_id` -/
def maxReqId : Nat := 64

def isValidTopicHash (topicHash : String) : Bool :=
  ((Bytes.utf8 topicHash).length == 64 || (Bytes.utf8 topicHash).length == 128) &&
    (Bytes.utf8 topicHash).all fun b => (0x30 ≤ b && b ≤ 0x39) || (0x61 ≤ b && b ≤ 0x66)

inductive P2PMessage where
  | dhtPut (topicHash : String) (entries : List Bytes)
  | dhtGet (topicHash reqId : String)
  | gossip (packet : GossipPacket)
  | other

/-- A `DhtRes` that is sent to a peer. -/
structure DhtRes where
  peerId : String
  topicHash : String
  reqId : String
  entries : List Bytes

/-- What a node uses of other crates. -/
structure Crates where
  sha256 : Bytes → Bytes
  fromSlice : Bytes → Option GossipPacket
  toVec : GossipPacket → Option Bytes

/-- What the clock says while a message is handled, and which statements fail. -/
structure Calls where
  nowMs : UInt64
  storedAt : Nat
  getFails : Bool := false
  countFails : Bool := false
  putFailsAfter : Option Nat := none

structure Handled where
  result : Except StorageError Unit := .ok ()
  store : SqliteStore
  sent : List DhtRes := []

section
variable (crates : Crates)

/-- Of the entries with one packet id the first is accepted. -/
def siftEntries (nowMs : UInt64) : List String → List Bytes → List Bytes × List EntryReject
  | _, [] => ([],[])
  | seen, entry :: entries =>
    match checkEntry crates.sha256 crates.fromSlice entry nowMs with
    | .ok packet =>
      if seen.contains packet.packetId then siftEntries nowMs seen entries
      else
        let rest := siftEntries nowMs (packet.packetId :: seen) entries
        (entry :: rest.1,rest.2)
    | .error reason =>
      let rest := siftEntries nowMs seen entries
      (rest.1,reason :: rest.2)

def filterValidEntries (entries : List Bytes) (nowMs : UInt64) : List Bytes × List EntryReject :=
  siftEntries crates nowMs [] (entries.take maxEntriesPerMessage)

/-- The entries of a PUT that are found good. -/
def validEntries (entries : List Bytes) (nowMs : UInt64) : List Bytes :=
  (filterValidEntries crates (entries.take maxEntriesPerMessage) nowMs).1

def handlePut (calls : Calls) (store : SqliteStore) (topicHash : String) (entries : List Bytes) :
    Handled :=
  if !isValidTopicHash topicHash then { store }
  else
    let accepted := validEntries crates entries calls.nowMs
    if accepted.isEmpty then { store }
    else
      let existing := (store.get topicHash calls.getFails).toOption.getD []
      if existing.length ≥ maxEntriesPerTopic then { store }
      else if existing.isEmpty &&
          decide ((store.topicCount calls.countFails).toOption.getD 0 ≥ maxTopics) then { store }
      else
        let room := maxEntriesPerTopic-existing.length
        let stored := store.put topicHash (accepted.take room) calls.storedAt calls.putFailsAfter
        { result := stored.1, store := stored.2 }

def handleGet (calls : Calls) (store : SqliteStore) (peerId topicHash reqId : String) : Handled :=
  if !isValidTopicHash topicHash || (Bytes.utf8 reqId).length > maxReqId then { store }
  else match store.get topicHash calls.getFails with
  | .error e => { result := .error e, store }
  | .ok entries => { store, sent := [⟨peerId,topicHash,reqId,entries.take maxEntriesPerMessage⟩] }

def archiveTopic (packetId : String) : String := String.ofList (packetId.toList.take 64)

/-- The bytes under which a packet is archived. -/
def archived (packet : GossipPacket) : List Bytes :=
  match crates.toVec packet with
  | none => []
  | some bs => if bs.length ≤ maxEntryBytes then [bs] else []

/-- The result of the `put` is not looked at. -/
def archive (calls : Calls) (store : SqliteStore) (packet : GossipPacket) : Handled where
  store := (store.put (archiveTopic packet.packetId) (archived crates packet) calls.storedAt
    calls.putFailsAfter).2

def handleDhtMessage (calls : Calls) (store : SqliteStore) (peerId : String) :
    P2PMessage → Handled
  | .dhtPut topicHash entries => handlePut crates calls store topicHash entries
  | .dhtGet topicHash reqId => handleGet calls store peerId topicHash reqId
  | .gossip packet => archive crates calls store packet
  | .other => { store }

end

section
variable {crates : Crates} {store : SqliteStore} {calls : Calls} {topicHash : String}
  {entries : List Bytes}

theorem siftEntries_length_le (nowMs : UInt64) (seen : List String) (entries : List Bytes) :
    (siftEntries crates nowMs seen entries).1.length ≤ entries.length := by
  induction entries generalizing seen with
  | nil => simp [siftEntries]
  | cons entry entries ih =>
    unfold siftEntries
    split
    · next packet _ =>
      split
      · have h := ih seen
        simp only [List.length_cons]
        omega
      · have h := ih (packet.packetId :: seen)
        simp only [List.length_cons]
        omega
    · have h := ih seen
      simp only [List.length_cons]
      omega

theorem validEntries_length_le (entries : List Bytes) (nowMs : UInt64) :
    (validEntries crates entries nowMs).length ≤ maxEntriesPerMessage := by
  have h : (validEntries crates entries nowMs).length ≤ _ := siftEntries_length_le nowMs [] _
  simp only [List.length_take] at h
  omega

@[simp] theorem handleGet_store (calls : Calls) (store : SqliteStore)
    (peerId topicHash reqId : String) :
    (handleGet calls store peerId topicHash reqId).store = store := by
  unfold handleGet
  split
  · rfl
  · split
    · rfl
    · rfl

/-- How many entries of the topic a PUT sees. -/
def seenBy (calls : Calls) (store : SqliteStore) (topicHash : String) : Nat :=
  if calls.getFails then 0 else store.held topicHash

/-- The limits a PUT sees leave no room for an entry. -/
def Refused (calls : Calls) (store : SqliteStore) (topicHash : String) : Prop :=
  maxEntriesPerTopic ≤ seenBy calls store topicHash ∨
    seenBy calls store topicHash = 0 ∧ calls.countFails = false ∧ maxTopics ≤ store.topics

theorem existing_length :
    ((store.get topicHash calls.getFails).toOption.getD []).length =
      seenBy calls store topicHash := by
  cases h : calls.getFails with
  | true => simp [SqliteStore.get,seenBy,h,Except.toOption]
  | false => simp [SqliteStore.get,seenBy,h,Except.toOption,SqliteStore.held]

theorem handlePut_store (crates : Crates) (calls : Calls) (store : SqliteStore)
    (topicHash : String) (entries : List Bytes) :
    ((isValidTopicHash topicHash = false ∨ validEntries crates entries calls.nowMs = [] ∨
        Refused calls store topicHash) ∧
      (handlePut crates calls store topicHash entries).store = store) ∨
    (isValidTopicHash topicHash = true ∧ validEntries crates entries calls.nowMs ≠ [] ∧
      ¬Refused calls store topicHash ∧
      (handlePut crates calls store topicHash entries).store = (store.put topicHash
        ((validEntries crates entries calls.nowMs).take
          (maxEntriesPerTopic-seenBy calls store topicHash)) calls.storedAt
            calls.putFailsAfter).2) := by
  unfold handlePut
  dsimp only
  split
  · next h => exact .inl ⟨.inl (by simpa using h),rfl⟩
  next htopic =>
  split
  · next h => exact .inl ⟨.inr (.inl (List.isEmpty_iff.mp h)),rfl⟩
  next haccepted =>
  rw [existing_length]
  split
  · next h => exact .inl ⟨.inr (.inr (.inl h)),rfl⟩
  next hroom =>
  have hempty : ((store.get topicHash calls.getFails).toOption.getD []).isEmpty = true ↔
      seenBy calls store topicHash = 0 := by
    rw [List.isEmpty_iff_length_eq_zero,existing_length]
  have hcount : maxTopics ≤ (store.topicCount calls.countFails).toOption.getD 0 ↔
      calls.countFails = false ∧ maxTopics ≤ store.topics := by
    cases h : calls.countFails with
    | true => simp [SqliteStore.topicCount,Except.toOption,maxTopics]
    | false => simp [SqliteStore.topicCount,Except.toOption]
  split
  · next h =>
    rw [Bool.and_eq_true,hempty,decide_eq_true_iff,ge_iff_le,hcount] at h
    exact .inl ⟨.inr (.inr (.inr h)),rfl⟩
  · next h =>
    rw [Bool.and_eq_true,hempty,decide_eq_true_iff,ge_iff_le,hcount] at h
    refine .inr ⟨by simpa using htopic,?_,?_,rfl⟩
    · simpa [List.isEmpty_iff] using haccepted
    · intro hrefused
      exact hrefused.elim hroom h

/-- Calls of which none fails. -/
def working (nowMs : UInt64) (storedAt : Nat) : Calls := { nowMs, storedAt }

/-- The message is refused, each time it is handled, or its first handling fills the topic. -/
def Settles (crates : Crates) (store : SqliteStore) (topicHash : String) (entries : List Bytes)
    (now later : UInt64) : Prop :=
  isValidTopicHash topicHash = false ∨ validEntries crates entries later = [] ∨
    store.held topicHash = 0 ∧ maxTopics ≤ store.topics ∨
      maxEntriesPerTopic ≤ store.held topicHash+(validEntries crates entries now).length

theorem unchanged_iff (store : SqliteStore) (topicHash : String) (at' : Nat) (new : List Bytes) :
    (∀ t, (store ++ SqliteStore.rows topicHash at' new).get t false = store.get t false) ↔
      new = [] := by
  constructor
  · intro h
    obtain ⟨stored,hs⟩ : ∃ stored, store.get topicHash false = .ok stored := ⟨_,rfl⟩
    have hlen := SqliteStore.get_length ((h topicHash).trans hs)
    rw [SqliteStore.held_append_rows,SqliteStore.get_length hs] at hlen
    exact List.length_eq_zero_iff.mp (by omega)
  · rintro rfl
    simp [SqliteStore.rows]

/-- What a PUT appends when no statement fails. -/
theorem working_appends (crates : Crates) (nowMs : UInt64) (storedAt : Nat) (store : SqliteStore)
    (topicHash : String) (entries : List Bytes) :
    ∃ new, (handlePut crates (working nowMs storedAt) store topicHash entries).store =
        store ++ SqliteStore.rows topicHash storedAt new ∧
      ((isValidTopicHash topicHash = false ∨ validEntries crates entries nowMs = [] ∨
          Refused (working nowMs storedAt) store topicHash) ∧ new = [] ∨
        (isValidTopicHash topicHash = true ∧ validEntries crates entries nowMs ≠ [] ∧
          ¬Refused (working nowMs storedAt) store topicHash) ∧ new ≠ [] ∧
        new.length = min (maxEntriesPerTopic-store.held topicHash)
          (validEntries crates entries nowMs).length) := by
  obtain ⟨hbad,hs⟩ | ⟨htopic,hvalid,hrefused,hs⟩ :=
    handlePut_store crates (working nowMs storedAt) store topicHash entries
  · exact ⟨[],by simp [hs,SqliteStore.rows],.inl ⟨hbad,rfl⟩⟩
  · have hlt : store.held topicHash < maxEntriesPerTopic := not_le.mp fun h => hrefused (.inl h)
    have hpos : 0 < (validEntries crates entries nowMs).length := List.length_pos_iff.mpr hvalid
    have hlen : ((validEntries crates entries nowMs).take
        (maxEntriesPerTopic-store.held topicHash)).length =
          min (maxEntriesPerTopic-store.held topicHash)
            (validEntries crates entries nowMs).length := by simp
    refine ⟨_,hs,.inr ⟨⟨htopic,hvalid,hrefused⟩,List.length_pos_iff.mp ?_,hlen⟩⟩
    change 0 < ((validEntries crates entries nowMs).take
      (maxEntriesPerTopic-store.held topicHash)).length
    omega

theorem refused_working {nowMs : UInt64} {storedAt : Nat} :
    Refused (working nowMs storedAt) store topicHash ↔
      maxEntriesPerTopic ≤ store.held topicHash ∨
        store.held topicHash = 0 ∧ maxTopics ≤ store.topics := by
  simp [Refused,seenBy,working]

/-- A PUT that is handled again changes nothing just if it is refused then: what a topic
holds already is not looked at. -/
theorem put_idempotent_iff (crates : Crates) (store : SqliteStore) (peerId topicHash : String)
    (entries : List Bytes) (now later : UInt64) (storedAt storedLater : Nat) :
    (∀ t,
      (handleDhtMessage crates (working later storedLater)
        (handleDhtMessage crates (working now storedAt) store peerId
          (.dhtPut topicHash entries)).store peerId (.dhtPut topicHash entries)).store.get t false =
      (handleDhtMessage crates (working now storedAt) store peerId
        (.dhtPut topicHash entries)).store.get t false) ↔
    Settles crates store topicHash entries now later := by
  obtain ⟨first,honce,hfirst⟩ := working_appends crates now storedAt store topicHash entries
  obtain ⟨again,htwice,hagain⟩ := working_appends crates later storedLater
    (handlePut crates (working now storedAt) store topicHash entries).store topicHash entries
  have hrefused : again = [] ↔ isValidTopicHash topicHash = false ∨
      validEntries crates entries later = [] ∨ Refused (working later storedLater)
        (handlePut crates (working now storedAt) store topicHash entries).store topicHash := by
    obtain ⟨hbad,hnil⟩ | ⟨⟨htopic,hvalid,hno⟩,hne,-⟩ := hagain
    · exact iff_of_true hnil hbad
    · exact iff_of_false hne (by simp [htopic,hvalid,hno])
  simp only [handleDhtMessage]
  rw [htwice,unchanged_iff,hrefused,refused_working,honce]
  unfold Settles
  obtain ⟨hbad,rfl⟩ | ⟨⟨htopic,hvalid,hno⟩,hne,hlen⟩ := hfirst
  · rw [refused_working] at hbad
    have hsame : store ++ SqliteStore.rows topicHash storedAt [] = store := by
      simp [SqliteStore.rows]
    rw [hsame]
    obtain h | h | h := hbad
    · simp [h]
    · have hfull : (maxEntriesPerTopic ≤ store.held topicHash ∨
          store.held topicHash = 0 ∧ maxTopics ≤ store.topics) ↔
          (store.held topicHash = 0 ∧ maxTopics ≤ store.topics ∨
            maxEntriesPerTopic ≤ store.held topicHash+(validEntries crates entries now).length) := by
        rw [h,List.length_nil]
        omega
      rw [hfull]
    · have hright : store.held topicHash = 0 ∧ maxTopics ≤ store.topics ∨
          maxEntriesPerTopic ≤ store.held topicHash+(validEntries crates entries now).length := by
        omega
      exact iff_of_true (.inr (.inr h)) (.inr (.inr hright))
  · rw [refused_working] at hno
    have hpos := List.length_pos_iff.mpr hne
    rw [SqliteStore.held_append_rows]
    have hfull : (maxEntriesPerTopic ≤ store.held topicHash+first.length ∨
        store.held topicHash+first.length = 0 ∧
          maxTopics ≤ SqliteStore.topics (store ++ SqliteStore.rows topicHash storedAt first)) ↔
        (store.held topicHash = 0 ∧ maxTopics ≤ store.topics ∨
          maxEntriesPerTopic ≤ store.held topicHash+(validEntries crates entries now).length) := by
      omega
    rw [hfull]

/-! The limits. -/

def Bounded (store : SqliteStore) : Prop :=
  store.topics ≤ maxTopics ∧ ∀ t, store.held t ≤ maxEntriesPerTopic

/-- The topic, and if it is a new one the table, has room for so many entries. -/
def HasRoom (store : SqliteStore) (topicHash : String) (n : Nat) : Prop :=
  n = 0 ∨ store.held topicHash+n ≤ maxEntriesPerTopic ∧
    (store.held topicHash = 0 → store.topics < maxTopics)

theorem bounded_append_iff (h : Bounded store) (topicHash : String) (now : Nat)
    (new : List Bytes) :
    Bounded (store ++ SqliteStore.rows topicHash now new) ↔
      HasRoom store topicHash new.length := by
  cases new with
  | nil => simp [HasRoom,SqliteStore.rows,h]
  | cons e es =>
    have htopics := SqliteStore.topics_append_rows store topicHash now (List.cons_ne_nil e es)
    have hheld := SqliteStore.held_append_rows store topicHash now (e :: es)
    constructor
    · intro hb
      have ht := hb.1
      have hself := hb.2 topicHash
      rw [hheld] at hself
      refine .inr ⟨hself,fun hzero => ?_⟩
      rw [htopics,if_pos hzero] at ht
      omega
    · rintro (hzero | ⟨hroom,hnew⟩)
      · simp at hzero
      constructor
      · rw [htopics]
        split
        · next hzero => exact hnew hzero
        · exact h.1
      · intro t
        by_cases ht : t = topicHash
        · rw [ht,hheld]
          exact hroom
        · rw [SqliteStore.held_append_rows_ne store now (e :: es) ht]
          exact h.2 t

theorem Bounded.sublist {l : SqliteStore} (h : Bounded store) (hl : l.Sublist store) :
    Bounded l :=
  ⟨(SqliteStore.topics_mono hl).trans h.1,fun t => (SqliteStore.held_mono hl t).trans (h.2 t)⟩

/-- A read that failed lets a PUT store in a topic of which it knows nothing. -/
def Blind (calls : Calls) (store : SqliteStore) (topicHash : String) : Prop :=
  calls.getFails = true ∧ (calls.countFails = true ∨ store.topics < maxTopics) ∨
    calls.countFails = true ∧ store.held topicHash = 0

theorem seenBy_of_blind (h : Blind calls store topicHash) : seenBy calls store topicHash = 0 := by
  unfold seenBy
  split
  · rfl
  · next hget =>
    obtain h | h := h
    · exact absurd h.1 hget
    · exact h.2

theorem not_refused_of_blind (h : Blind calls store topicHash) :
    ¬Refused calls store topicHash := by
  have hseen := seenBy_of_blind h
  rintro (hfull | ⟨-,hcount,htopics⟩)
  · rw [hseen] at hfull
    exact absurd hfull (by decide)
  · obtain ⟨-,h | h⟩ | h := h
    · rw [h] at hcount
      cases hcount
    · omega
    · rw [h.1] at hcount
      cases hcount

theorem sees_of_not_blind (h : ¬Blind calls store topicHash)
    (hr : ¬Refused calls store topicHash) :
    seenBy calls store topicHash = store.held topicHash ∧
      store.held topicHash < maxEntriesPerTopic ∧
        (store.held topicHash = 0 → store.topics < maxTopics) := by
  simp only [Blind,not_or,not_and] at h
  simp only [Refused,not_or,not_and,not_le] at hr
  have hget : calls.getFails = false := by
    by_contra hget
    have hget : calls.getFails = true := by simpa using hget
    have hseen : seenBy calls store topicHash = 0 := by simp [seenBy,hget]
    have htopics := h.1 hget
    have hcount : calls.countFails = false := by simpa using htopics.1
    exact htopics.2 (hr.2 hseen hcount)
  have hseen : seenBy calls store topicHash = store.held topicHash := by simp [seenBy,hget]
  rw [hseen] at hr
  refine ⟨hseen,hr.1,fun hzero => hr.2 hzero ?_⟩
  simpa [hzero] using h.2

theorem bounded_handlePut_iff (crates : Crates) (calls : Calls) (h : Bounded store)
    (topicHash : String) (entries : List Bytes) :
    Bounded (handlePut crates calls store topicHash entries).store ↔
      (isValidTopicHash topicHash = true → Blind calls store topicHash →
        HasRoom store topicHash (SqliteStore.inserted calls.putFailsAfter
          (validEntries crates entries calls.nowMs).length)) := by
  have hle : (validEntries crates entries calls.nowMs).length ≤ maxEntriesPerMessage :=
    validEntries_length_le entries calls.nowMs
  have hmax : maxEntriesPerMessage ≤ maxEntriesPerTopic := by decide
  obtain ⟨hbad,hs⟩ | ⟨htopic,hvalid,hrefused,hs⟩ :=
    handlePut_store crates calls store topicHash entries
  · rw [hs]
    refine iff_of_true h fun htopic hblind => ?_
    obtain hbad | hbad | hbad := hbad
    · rw [htopic] at hbad
      cases hbad
    · have hnone := SqliteStore.inserted_le calls.putFailsAfter 0
      rw [hbad]
      exact .inl (Nat.le_zero.mp hnone)
    · exact absurd hbad (not_refused_of_blind hblind)
  · rw [hs,SqliteStore.put_eq,bounded_append_iff h]
    by_cases hblind : Blind calls store topicHash
    · have hseen := seenBy_of_blind hblind
      have htake : (validEntries crates entries calls.nowMs).take
          (maxEntriesPerTopic-seenBy calls store topicHash) =
            validEntries crates entries calls.nowMs :=
        List.take_of_length_le (by omega)
      rw [htake,List.length_take,Nat.min_eq_left (SqliteStore.inserted_le _ _)]
      simp [htopic,hblind]
    · -- what it sees is there
      obtain ⟨hsees,hlt,hnew⟩ := sees_of_not_blind hblind hrefused
      refine iff_of_true (.inr ⟨?_,hnew⟩) fun _ hyes => absurd hyes hblind
      rw [hsees]
      simp only [List.length_take]
      omega

end

inductive MailboxAction where
  | message (peerId : String) (msg : P2PMessage) (calls : Calls)
  | cleanup (now : Nat) (fails : Bool)

def mailboxStep (crates : Crates) (store : SqliteStore) : MailboxAction → Option SqliteStore
  | .message peerId msg calls => some (handleDhtMessage crates calls store peerId msg).store
  | .cleanup now fails => some (store.cleanup now fails).2

/-- There is room for what is stored without a look at the limits: for a packet that is
archived, and for the entries of a PUT whose reads fail. -/
def Roomy (crates : Crates) (store : SqliteStore) : MailboxAction → Prop
  | .message _ (.dhtPut topicHash entries) calls =>
    isValidTopicHash topicHash = true → Blind calls store topicHash →
      HasRoom store topicHash (SqliteStore.inserted calls.putFailsAfter
        (validEntries crates entries calls.nowMs).length)
  | .message _ (.gossip packet) calls =>
    HasRoom store (archiveTopic packet.packetId) (SqliteStore.inserted calls.putFailsAfter
      (archived crates packet).length)
  | _ => True

section
variable {crates : Crates} {store : SqliteStore}

theorem bounded_handleDhtMessage_iff (h : Bounded store) (peerId : String) (msg : P2PMessage)
    (calls : Calls) : Bounded (handleDhtMessage crates calls store peerId msg).store ↔
      Roomy crates store (.message peerId msg calls) := by
  cases msg with
  | dhtPut topicHash entries => exact bounded_handlePut_iff crates calls h topicHash entries
  | dhtGet topicHash reqId =>
    simp only [handleDhtMessage,Roomy,handleGet_store,h]
  | gossip packet =>
    simp only [handleDhtMessage,Roomy,archive]
    rw [SqliteStore.put_eq,bounded_append_iff h,List.length_take,
      Nat.min_eq_left (SqliteStore.inserted_le _ _)]
  | other => simp only [handleDhtMessage,Roomy,h]

theorem roomy_iff {a : MailboxAction} (h : Bounded store) : Roomy crates store a ↔
    ∀ t, mailboxStep crates store a = some t → Bounded t := by
  cases a with
  | message peerId msg calls => simp [mailboxStep,bounded_handleDhtMessage_iff h]
  | cleanup now fails =>
    have hb := h.sublist (SqliteStore.cleanup_sublist store now fails)
    simp [mailboxStep,Roomy,hb]

/-- The limits hold in a run just as long as there is room for what is stored without a look
at them. -/
theorem capacity_bounded_iff (crates : Crates) (h : Bounded store) (actions : List MailboxAction) :
    (∀ done t, done <+: actions → Machine.run (mailboxStep crates) store done = some t →
      Bounded t) ↔ Machine.Along (mailboxStep crates) (Roomy crates) store actions :=
  (Machine.along_iff_reached (fun _ _ hb => roomy_iff hb) h actions).symm

end

def sampleCrates : Crates where
  sha256 := Sha256.sha256
  fromSlice := fromBrowser
  toVec _ := some unsafeEntry

def samplePut : MailboxAction :=
  .message "" (.dhtPut unsafePacket.packetId [MailboxEntry.honestEntry]) (working 1000 1000)

/-- The table after that many. -/
def sampleRows (n : Nat) : SqliteStore :=
  SqliteStore.rows unsafePacket.packetId 1000 (List.replicate n MailboxEntry.honestEntry)

theorem sampleRows_held (n : Nat) : (sampleRows n).held unsafePacket.packetId = n := by
  simp [sampleRows,SqliteStore.held]

theorem samplePut_handled {n : Nat} (hn : n < maxEntriesPerTopic) :
    (handlePut sampleCrates (working 1000 1000) (sampleRows n) unsafePacket.packetId
      [MailboxEntry.honestEntry]).store = sampleRows (n+1) := by
  have htopic : isValidTopicHash unsafePacket.packetId = true := by decide +kernel
  obtain ⟨q,hq⟩ := honestEntry_checked
  have hvalid : validEntries sampleCrates [MailboxEntry.honestEntry] 1000 =
      [MailboxEntry.honestEntry] := by
    simp [validEntries,filterValidEntries,siftEntries,sampleCrates,maxEntriesPerMessage,hq]
  have hheld := sampleRows_held n
  obtain ⟨hbad,-⟩ | ⟨-,-,-,hs⟩ := handlePut_store sampleCrates (working 1000 1000) (sampleRows n)
    unsafePacket.packetId [MailboxEntry.honestEntry]
  · exfalso
    obtain h | h | h := hbad
    · rw [htopic] at h
      cases h
    · rw [show (working 1000 1000).nowMs = 1000 from rfl,hvalid] at h
      cases h
    · rw [refused_working,hheld] at h
      obtain h | ⟨rfl,h⟩ := h
      · omega
      · exact absurd h (by decide)
  · have hseen : seenBy (working 1000 1000) (sampleRows n) unsafePacket.packetId = n := hheld
    rw [hs,show (working 1000 1000).nowMs = 1000 from rfl,hvalid,hseen,
      List.take_of_length_le (by simp only [List.length_singleton]; omega),sampleRows,sampleRows,
      List.replicate_succ']
    simp [SqliteStore.put,SqliteStore.rows,working]

theorem samplePut_repeated {n : Nat} (hn : n ≤ maxEntriesPerTopic) :
    Machine.run (mailboxStep sampleCrates) [] (List.replicate n samplePut) =
      some (sampleRows n) := by
  induction n with
  | zero => rfl
  | succ n ih =>
    rw [List.replicate_succ']
    refine Machine.run_snoc (ih (by omega)) ?_
    simp only [samplePut,mailboxStep,handleDhtMessage]
    rw [samplePut_handled (by omega)]

/-- A PUT that is sent twice is stored twice. -/
theorem put_stores_again : ¬∀ (store : SqliteStore) (peerId topicHash : String)
    (entries : List Bytes) (now later : UInt64) (storedAt storedLater : Nat), ∀ t,
      (handleDhtMessage sampleCrates (working later storedLater)
        (handleDhtMessage sampleCrates (working now storedAt) store peerId
          (.dhtPut topicHash entries)).store peerId (.dhtPut topicHash entries)).store.get t false =
      (handleDhtMessage sampleCrates (working now storedAt) store peerId
        (.dhtPut topicHash entries)).store.get t false := by
  intro h
  have h := h (sampleRows 0) "" unsafePacket.packetId [MailboxEntry.honestEntry] 1000 1000 1000 1000
    unsafePacket.packetId
  simp only [handleDhtMessage] at h
  rw [samplePut_handled (by decide),samplePut_handled (by decide)] at h
  obtain ⟨stored,hs⟩ : ∃ stored, (sampleRows 1).get unsafePacket.packetId false = .ok stored :=
    ⟨_,rfl⟩
  have hone := SqliteStore.get_length hs
  have htwo := SqliteStore.get_length (h.trans hs)
  rw [sampleRows_held] at hone htwo
  omega

theorem sample_archived : archiveTopic unsafePacket.packetId = unsafePacket.packetId ∧
    archived sampleCrates unsafePacket = [unsafeEntry] := by
  have hlen : unsafeEntry.length ≤ maxEntryBytes := by decide +kernel
  exact ⟨by decide +kernel,by simp [archived,sampleCrates,hlen]⟩

/-- PUTs fill a topic, and a packet whose id is its name is archived in it. -/
theorem capacity_exceeded : ¬∀ (actions : List MailboxAction) (t : SqliteStore),
    Machine.run (mailboxStep sampleCrates) [] actions = some t → Bounded t := by
  intro h
  have hrun := Machine.run_snoc (samplePut_repeated (le_refl maxEntriesPerTopic))
    (a := .message "" (.gossip unsafePacket) (working 1000 1000)) rfl
  have hheld := (h _ _ hrun).2 unsafePacket.packetId
  simp only [handleDhtMessage,archive,SqliteStore.put_eq,sample_archived] at hheld
  rw [SqliteStore.held_append_rows,sampleRows_held] at hheld
  simp [working,SqliteStore.inserted] at hheld

theorem capacity_bounded_archived : ∃ t,
    Machine.run (mailboxStep sampleCrates) [] [.message "" (.gossip unsafePacket) (working 1000 1000)] =
      some t ∧ Bounded t := by
  have hb : Bounded [] := by simp [Bounded,SqliteStore.topics,SqliteStore.held,SqliteStore.rowsOf]
  have hroomy : Roomy sampleCrates [] (.message "" (.gossip unsafePacket) (working 1000 1000)) := by
    refine .inr ⟨?_,fun _ => by decide⟩
    rw [sample_archived.1,sample_archived.2]
    decide
  exact ⟨_,rfl,(capacity_bounded_iff sampleCrates hb [_]).mpr ⟨hroomy,fun _ _ => trivial⟩ _ _
    List.prefix_rfl rfl⟩

end Cache
