import AetherLite.Mailbox.DHTMailbox

/-! What a node keeps for others: the calls that store entries, one after the other, while topics
that have expired are removed. -/
set_option autoImplicit false

namespace SlotStorage

open Js

def maxEntriesPerTopic : Nat := 4
def maxTopics : Nat := 4096
def maxTotalBytes : Nat := 64*1024*1024
def maxBytesPerPeerPerHour : Nat := 8*1024*1024
def retentionMs : Nat := 30*24*60*60*1000
def hourMs : Nat := 60*60*1000
def dayMs : Nat := 24*60*60*1000

/-- A row of the store `emailbox`, as it opens. -/
structure Row where
  entries : List Bytes
  lastUpdated : Int
  deriving DecidableEq

def Row.day (r : Row) : Int := r.lastUpdated/dayMs

structure Quota where
  windowStart : Int
  bytes : Nat
  deriving DecidableEq

/-- A call of `acceptForStorage`. -/
structure Offer where
  topicHash : String
  entries : List Bytes
  source : String
  deriving DecidableEq

/-- What `acceptForStorageNow` awaits. `used` is the promise of `currentUsage`; `put` awaits its
own reading, its own writing, or nothing any more. -/
inductive Wait where
  | get
  | topics
  | usage (candidates : List Bytes)
  | used (candidates : List Bytes) (usage : Nat)
  | putRead (candidates : List Bytes) (usage : Nat)
  | putWrite (written candidates : List Bytes) (usage : Nat)
  | putSame (candidates : List Bytes) (usage : Nat)
  deriving DecidableEq

/-- What the store gave, when the call has not gone on yet. -/
inductive Answer where
  | failed
  | entries (entries : Option (List Bytes))
  | count (n : Nat)
  | done
  deriving DecidableEq

/-- The call under way. The last two fields are a record: what the topic held when the call read
it, and what the call has stored that the topic did not hold then. -/
structure Call where
  offer : Offer
  wait : Wait := .get
  answer : Option Answer := none
  existing : List Bytes := []
  stored : List Bytes := []
  deriving DecidableEq

/-- A call of `pruneExpired`, with the topics it removed once the store has answered. -/
structure Prune where
  now : Int
  topics : Option Nat := none
  deriving DecidableEq

/-- A call that is over: what it returned, if it did not throw, and what it had stored. -/
structure Result where
  offer : Offer
  returned : Option (List Bytes)
  stored : List Bytes
  deriving DecidableEq

/-- `queue` are the calls that `storageQueue` has not come to. -/
structure State where
  rows : JsMap String Row := []
  usageBytes : Option Nat := none
  peerQuota : JsMap String Quota := []
  active : Option Call := none
  queue : List Offer := []
  pruning : List Prune := []
  results : List Result := []

def byteLength (entries : List Bytes) : Nat := (entries.map List.length).sum

def entryKey (e : Bytes) : String := Bytes.toHex e

/-- The entries whose key is not there yet, each once. -/
def freshEntries : List String → List Bytes → List Bytes
  | _, [] => []
  | keys, e :: es =>
    if keys.contains (entryKey e) then freshEntries keys es
    else e :: freshEntries (entryKey e :: keys) es

/-- What of an offer is to be stored. -/
def candidatesOf (existing entries : List Bytes) : List Bytes :=
  (freshEntries (existing.map entryKey) entries).take (maxEntriesPerTopic-existing.length)

def expired (now : Int) (q : Quota) : Bool := decide (now-q.windowStart > hourMs)

/-- The quota of a peer, with the new entry and whether it has room. -/
def chargePeerQuota (peerQuota : JsMap String Quota) (peerId : String) (bytes : Nat) (now : Int) :
    JsMap String Quota × Bool :=
  let open_ := (JsMap.get peerQuota peerId).filter fun q => !expired now q
  let q := open_.getD ⟨now,0⟩
  if q.bytes+bytes > maxBytesPerPeerPerHour then (JsMap.set peerQuota peerId q,false)
  else (JsMap.set peerQuota peerId ⟨q.windowStart,q.bytes+bytes⟩,true)

/-- The cutoff of `pruneMailbox` is a time, and the index is of days. -/
def pruneMailbox (rows : JsMap String Row) (cutoff : Int) : JsMap String Row :=
  rows.filter fun e => !decide (e.2.day < cutoff/dayMs)

section
variable (me : String) (blobBytes : String → Row → Nat)

/-- What the rows take when they are encrypted. -/
def mailboxUsageBytes (rows : JsMap String Row) : Nat :=
  JsMap.total (fun e => blobBytes e.1 e.2) rows

/-- The store does what the call awaits. -/
def answerOf (rows : JsMap String Row) (topicHash : String) : Wait → Answer
  | .get | .putRead _ _ => .entries ((JsMap.get rows topicHash).map Row.entries)
  | .topics => .count rows.length
  | .usage _ => .count (mailboxUsageBytes blobBytes rows)
  | .used _ _ | .putWrite _ _ _ | .putSame _ _ => .done

def await (s : State) (c : Call) (wait : Wait) : State :=
  { s with active := some { c with wait := wait, answer := none } }

/-- The promise that is awaited is resolved already. -/
def awaitDone (s : State) (c : Call) (wait : Wait) : State :=
  { s with active := some { c with wait := wait, answer := some .done } }

def finish (s : State) (c : Call) (returned : Option (List Bytes)) : State :=
  { s with active := none, results := s.results ++ [⟨c.offer,returned,c.stored⟩] }

def currentUsage (s : State) (c : Call) (candidates : List Bytes) : State :=
  match s.usageBytes with
  | none => await s c (.usage candidates)
  | some usage => awaitDone s c (.used candidates usage)

def choose (s : State) (c : Call) : State :=
  if freshEntries (c.existing.map entryKey) c.offer.entries = [] then finish s c (some [])
  else currentUsage s c (candidatesOf c.existing c.offer.entries)

def afterGet (s : State) (c : Call) (entries : Option (List Bytes)) : State :=
  let c := { c with existing := entries.getD [] }
  if c.existing.length ≥ maxEntriesPerTopic then finish s c (some [])
  else if c.existing.length = 0 then await s c .topics
  else choose s c

def afterTopics (s : State) (c : Call) (topicCount : Nat) : State :=
  if topicCount ≥ maxTopics then finish s c (some []) else choose s c

/-- A scan that fails counts as 0. -/
def afterUsage (s : State) (c : Call) (candidates : List Bytes) (usage : Nat) : State :=
  awaitDone { s with usageBytes := some usage } c (.used candidates usage)

def afterUsed (s : State) (c : Call) (candidates : List Bytes) (usage : Nat) (now : Int) : State :=
  let bytes := byteLength candidates
  if usage+bytes > maxTotalBytes then finish s c (some [])
  else if c.offer.source = me then await s c (.putRead candidates usage)
  else
    let (peerQuota,charged) := chargePeerQuota s.peerQuota c.offer.source bytes now
    let s := { s with peerQuota := peerQuota }
    if charged then await s c (.putRead candidates usage) else finish s c (some [])

def afterPutRead (s : State) (c : Call) (candidates : List Bytes) (usage : Nat) :
    Option (List Bytes) → State
  | none => await s c (.putWrite candidates candidates usage)
  | some entries =>
    let existingHexes := entries.map entryKey
    let added := candidates.filter fun e => !existingHexes.contains (entryKey e)
    if added = [] then awaitDone s c (.putSame candidates usage)
    else await s c (.putWrite (entries ++ added) candidates usage)

def afterPut (s : State) (c : Call) (candidates : List Bytes) (usage : Nat) : State :=
  finish { s with usageBytes := some (usage+byteLength candidates) } c (some candidates)

/-- The call goes on with the answer of the store. -/
def resume (s : State) (c : Call) (answer : Answer) (now : Int) : Option State :=
  match c.wait,answer with
  | .get,.entries entries => some (afterGet s c entries)
  | .topics,.count n => some (afterTopics s c n)
  | .usage candidates,.count n => some (afterUsage s c candidates n)
  | .usage candidates,.failed => some (afterUsage s c candidates 0)
  | .used candidates usage,.done => some (afterUsed me s c candidates usage now)
  | .putRead candidates usage,.entries entries => some (afterPutRead s c candidates usage entries)
  | .putWrite _ candidates usage,.done => some (afterPut s c candidates usage)
  | .putSame candidates usage,.done => some (afterPut s c candidates usage)
  | _,.failed => some (finish s c none)
  | _,_ => none

/-- The store answers a call. A write that it does not fail is done at the same time. -/
def answer (s : State) (c : Call) (works : Bool) (now : Int) : State :=
  if !works then { s with active := some { c with answer := some .failed } }
  else match c.wait with
  | .putWrite written _ _ => {
      s with
      rows := JsMap.set s.rows c.offer.topicHash ⟨written,now⟩
      active := some { c with
        answer := some .done
        stored := written.filter fun e => !c.existing.contains e } }
  | wait => { s with active := some { c with
      answer := some (answerOf blobBytes s.rows c.offer.topicHash wait) } }

def pruneReturn (s : State) (p : Prune) (topics : Nat) : State :=
  { s with
    usageBytes := if topics > 0 then none else s.usageBytes
    peerQuota := s.peerQuota.filter fun e => !expired p.now e.2 }

inductive Action where
  | accept (offer : Offer)
  | start
  | answer (works : Bool) (now : Int)
  | resume (now : Int)
  | prune (now : Int)
  | pruned (i : Nat) (works : Bool)
  | pruneReturn (i : Nat)

def step (s : State) : Action → Option State
  | .accept offer => some { s with queue := s.queue ++ [offer] }
  | .start =>
    match s.active,s.queue with
    | none,offer :: rest => some { s with active := some { offer := offer }, queue := rest }
    | _,_ => none
  | .answer works now =>
    match s.active with
    | some c => if c.answer = none then some (answer blobBytes s c works now) else none
    | none => none
  | .resume now =>
    match s.active with
    | some c => c.answer.bind fun a => resume me s c a now
    | none => none
  | .prune now => some { s with pruning := s.pruning ++ [⟨now,none⟩] }
  | .pruned i works => (s.pruning[i]?).bind fun p =>
    if p.topics ≠ none then none
    else if !works then some { s with pruning := s.pruning.set i { p with topics := some 0 } }
    else
      let rows := pruneMailbox s.rows (p.now-retentionMs)
      some { s with
        rows := rows
        pruning := s.pruning.set i { p with topics := some (s.rows.length-rows.length) } }
  | .pruneReturn i => (Machine.takeTask s.pruning i).bind fun (p,pruning) =>
    p.topics.map fun topics => SlotStorage.pruneReturn { s with pruning := pruning } p topics

end

/-! What an offer leaves to be stored. -/

theorem freshEntries_spec (entries : List Bytes) : ∀ keys : List String,
    (freshEntries keys entries).Nodup ∧
      ∀ e ∈ freshEntries keys entries, entryKey e ∉ keys := by
  induction entries with
  | nil => simp [freshEntries]
  | cons e es ih =>
    intro keys
    unfold freshEntries
    by_cases h : keys.contains (entryKey e) = true
    · rw [if_pos h]
      exact ih keys
    · obtain ⟨hn,hnew⟩ := ih (entryKey e :: keys)
      have hkey : entryKey e ∉ keys := by simpa using h
      rw [if_neg h]
      constructor
      · exact List.nodup_cons.mpr ⟨fun he => hnew e he List.mem_cons_self,hn⟩
      · intro d hd
        obtain rfl | hd := List.mem_cons.mp hd
        · exact hkey
        · exact fun hk => hnew d hd (List.mem_cons_of_mem _ hk)

theorem not_mem_of_fresh {existing entries : List Bytes} {e : Bytes}
    (h : e ∈ freshEntries (existing.map entryKey) entries) : e ∉ existing := fun he =>
  (freshEntries_spec entries _).2 e h (List.mem_map_of_mem he)

theorem candidates_fresh {existing entries : List Bytes} {e : Bytes}
    (h : e ∈ candidatesOf existing entries) : e ∉ existing :=
  not_mem_of_fresh (List.mem_of_mem_take h)

theorem candidates_nodup {existing : List Bytes} (hn : existing.Nodup) (entries : List Bytes) :
    (existing ++ candidatesOf existing entries).Nodup := by
  have hc : (candidatesOf existing entries).Nodup :=
    (freshEntries_spec entries _).1.sublist (List.take_sublist _ _)
  apply List.nodup_append.mpr
  refine ⟨hn,hc,fun a ha b hb heq => ?_⟩
  exact candidates_fresh hb (heq ▸ ha)

theorem candidates_length {existing : List Bytes} (h : existing.length ≤ maxEntriesPerTopic)
    (entries : List Bytes) :
    (existing ++ candidatesOf existing entries).length ≤ maxEntriesPerTopic := by
  have htake := List.length_take_le (maxEntriesPerTopic-existing.length)
    (freshEntries (existing.map entryKey) entries)
  rw [List.length_append]
  unfold candidatesOf
  omega

theorem candidates_ne_nil {existing entries : List Bytes}
    (h : existing.length < maxEntriesPerTopic)
    (hf : freshEntries (existing.map entryKey) entries ≠ []) :
    candidatesOf existing entries ≠ [] := by
  unfold candidatesOf
  rw [Ne,List.take_eq_nil_iff]
  intro hnil
  obtain hzero | hnil := hnil
  · omega
  · exact hf hnil

/-- All candidates are added to what the topic held when they were chosen. -/
theorem added_eq (existing entries : List Bytes) :
    (candidatesOf existing entries).filter
      (fun e => !(existing.map entryKey).contains (entryKey e)) =
      candidatesOf existing entries := by
  apply List.filter_eq_self.mpr
  intro e he
  have hnew := (freshEntries_spec entries _).2 e (List.mem_of_mem_take he)
  simpa using hnew

@[simp] theorem byteLength_append (as bs : List Bytes) :
    byteLength (as ++ bs) = byteLength as+byteLength bs := by
  simp [byteLength]

end SlotStorage
