import Mathlib.Data.Finset.Card
import Mathlib.Data.List.Sort
import AetherLite.Lib.Bytes

/-! The table of the entries that the cache node keeps. Any statement may fail. -/
set_option autoImplicit false

namespace Cache

structure MailboxRow where
  topicHash : String
  entryBlob : Bytes
  timestamp : Nat
  deriving DecidableEq

/-- `mailbox_entries`, in the order of the ids. -/
abbrev SqliteStore := List MailboxRow

/-- A statement failed. -/
structure StorageError where
  deriving DecidableEq

namespace SqliteStore

/-- 24 hours -/
def ttl : Nat := 86400000

def rows (topicHash : String) (now : Nat) (entries : List Bytes) : SqliteStore :=
  entries.map fun entry => ⟨topicHash,entry,now⟩

/-- An `INSERT` that fails leaves the ones before it. -/
def put (store : SqliteStore) (topicHash : String) (entries : List Bytes) (now : Nat)
    (failsAfter : Option Nat) : Except StorageError Unit × SqliteStore :=
  match failsAfter with
  | none => (.ok (),store ++ rows topicHash now entries)
  | some k =>
    if k < entries.length then (.error {},store ++ rows topicHash now (entries.take k))
    else (.ok (),store ++ rows topicHash now entries)

def rowsOf (store : SqliteStore) (topicHash : String) : SqliteStore :=
  store.filter fun row => row.topicHash == topicHash

def held (store : SqliteStore) (topicHash : String) : Nat := (rowsOf store topicHash).length

def get (store : SqliteStore) (topicHash : String) (fails : Bool) :
    Except StorageError (List Bytes) :=
  if fails then .error {}
  else .ok (((rowsOf store topicHash).insertionSort fun a b => a.timestamp ≤ b.timestamp).map
    MailboxRow.entryBlob)

/-- `COUNT(DISTINCT topic_hash)` -/
def topics (store : SqliteStore) : Nat := (store.map MailboxRow.topicHash).dedup.length

def topicCount (store : SqliteStore) (fails : Bool) : Except StorageError Nat :=
  if fails then .error {} else .ok (topics store)

def isOld (now : Nat) (row : MailboxRow) : Bool := row.timestamp < now-ttl

def cleanup (store : SqliteStore) (now : Nat) (fails : Bool) :
    Except StorageError Nat × SqliteStore :=
  if fails then (.error {},store)
  else (.ok (store.countP (isOld now)),store.filter fun row => !isOld now row)

section
variable {store : SqliteStore} {topicHash t : String} {entries : List Bytes} {now : Nat}

/-- What is inserted when no more than `k` rows are. -/
def inserted (failsAfter : Option Nat) (n : Nat) : Nat := (failsAfter.map fun k => min k n).getD n

theorem put_eq (store : SqliteStore) (topicHash : String) (entries : List Bytes) (now : Nat)
    (failsAfter : Option Nat) : (put store topicHash entries now failsAfter).2 =
      store ++ rows topicHash now (entries.take (inserted failsAfter entries.length)) := by
  cases failsAfter with
  | none => simp [put,inserted]
  | some k =>
    by_cases hk : k < entries.length
    · simp [put,inserted,hk,Nat.min_eq_left (Nat.le_of_lt hk)]
    · have hmin : min k entries.length = entries.length := by omega
      simp [put,inserted,hk,hmin]

@[simp] theorem inserted_le (failsAfter : Option Nat) (n : Nat) : inserted failsAfter n ≤ n := by
  cases failsAfter with
  | none => simp [inserted]
  | some k => simp [inserted]

@[simp] theorem rows_length : (rows topicHash now entries).length = entries.length := by
  simp [rows]

theorem mem_rows {row : MailboxRow} (h : row ∈ rows topicHash now entries) :
    row.topicHash = topicHash ∧ row.timestamp = now := by
  obtain ⟨entry,-,rfl⟩ := List.mem_map.mp h
  exact ⟨rfl,rfl⟩

theorem rowsOf_append (store new : SqliteStore) (t : String) :
    rowsOf (store ++ new) t = rowsOf store t ++ rowsOf new t := by
  simp [rowsOf]

@[simp] theorem rowsOf_rows_self :
    rowsOf (rows topicHash now entries) topicHash = rows topicHash now entries := by
  simp only [rowsOf,List.filter_eq_self]
  intro row hrow
  simp [(mem_rows hrow).1]

theorem rowsOf_rows_ne (h : t ≠ topicHash) : rowsOf (rows topicHash now entries) t = [] := by
  simp only [rowsOf,List.filter_eq_nil_iff]
  intro row hrow
  simpa [(mem_rows hrow).1] using Ne.symm h

@[simp] theorem held_append_rows (store : SqliteStore) (topicHash : String) (now : Nat)
    (entries : List Bytes) :
    held (store ++ rows topicHash now entries) topicHash = held store topicHash+entries.length := by
  simp [held,rowsOf_append]

theorem held_append_rows_ne (store : SqliteStore) (now : Nat) (entries : List Bytes)
    (h : t ≠ topicHash) : held (store ++ rows topicHash now entries) t = held store t := by
  simp [held,rowsOf_append,rowsOf_rows_ne h]

theorem held_pos_iff : 0 < held store topicHash ↔ topicHash ∈ store.map MailboxRow.topicHash := by
  simp only [held,rowsOf,List.length_pos_iff,ne_eq,List.filter_eq_nil_iff,not_forall,
    Decidable.not_not,beq_iff_eq,List.mem_map]
  constructor
  · intro ⟨row,hrow,ht⟩
    exact ⟨row,hrow,ht⟩
  · intro ⟨row,hrow,ht⟩
    exact ⟨row,hrow,ht⟩

theorem get_length {stored : List Bytes} (h : get store topicHash false = .ok stored) :
    stored.length = held store topicHash := by
  cases h
  simp [held]

theorem topics_eq (store : SqliteStore) :
    topics store = (store.map MailboxRow.topicHash).toFinset.card :=
  (List.card_toFinset _).symm

/-- New rows of a topic make it one of the topics. -/
theorem topics_append_rows (store : SqliteStore) (topicHash : String) (now : Nat)
    {entries : List Bytes} (hne : entries ≠ []) :
    topics (store ++ rows topicHash now entries) =
      if held store topicHash = 0 then topics store+1 else topics store := by
  have hset : ((store ++ rows topicHash now entries).map MailboxRow.topicHash).toFinset =
      insert topicHash (store.map MailboxRow.topicHash).toFinset := by
    ext t
    obtain ⟨entry,rest,rfl⟩ := List.exists_cons_of_ne_nil hne
    simp only [List.map_append,List.toFinset_append,Finset.mem_union,List.mem_toFinset,
      Finset.mem_insert]
    constructor
    · rintro (h | h)
      · exact .inr h
      · obtain ⟨row,hrow,rfl⟩ := List.mem_map.mp h
        exact .inl (mem_rows hrow).1
    · rintro (rfl | h)
      · exact .inr (by simp [rows])
      · exact .inl h
  rw [topics_eq,hset,topics_eq]
  split
  · next h =>
    rw [Finset.card_insert_of_notMem]
    rw [List.mem_toFinset,← held_pos_iff]
    omega
  · next h =>
    rw [Finset.insert_eq_of_mem]
    rw [List.mem_toFinset,← held_pos_iff]
    omega

theorem topics_mono {l : SqliteStore} (h : l.Sublist store) : topics l ≤ topics store := by
  rw [topics_eq,topics_eq]
  refine Finset.card_le_card fun t ht => ?_
  rw [List.mem_toFinset] at ht ⊢
  exact (h.map _).subset ht

theorem held_mono {l : SqliteStore} (h : l.Sublist store) (t : String) : held l t ≤ held store t :=
  (h.filter _).length_le

theorem cleanup_sublist (store : SqliteStore) (now : Nat) (fails : Bool) :
    (cleanup store now fails).2.Sublist store := by
  unfold cleanup
  split
  · exact List.Sublist.refl store
  · exact List.filter_sublist

end

end SqliteStore

end Cache
