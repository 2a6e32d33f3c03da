import AetherLite.Cache.Mailbox

/-! The loop of the mailbox in time. It waits for a message or for its timer, which is set
anew each time round; how long it waits, and how long a message takes, is in the action. -/
set_option autoImplicit false

namespace Cache

/-- `Duration::from_secs(300)` -/
def sleepMs : Nat := 300000

/-- One hour -/
def cleanupInterval : Nat := 3600000

/-- The actor as it enters the loop at `now`. -/
structure MailboxActor where
  store : SqliteStore := []
  now : Nat
  lastCleanup : Nat

inductive LoopAction where
  /-- A message is handled after `wait`, which takes `busy`. -/
  | event (wait busy : Nat) (peerId : String) (msg : P2PMessage) (calls : Calls)
  /-- The timer fires after `wait`. -/
  | timer (wait : Nat) (fails : Bool)

namespace MailboxActor

/-- A cleanup that fails counts as one. -/
def onTimer (s : MailboxActor) (at' : Nat) (fails : Bool) : MailboxActor :=
  if at'-s.lastCleanup ≥ cleanupInterval then
    { store := (s.store.cleanup at' fails).2, now := at', lastCleanup := at' }
  else { s with now := at' }

/-- A message is handled at the time its calls say. The timer does not fire early. -/
def step (crates : Crates) (s : MailboxActor) : LoopAction → Option MailboxActor
  | .event wait busy peerId msg calls =>
    if calls.nowMs = UInt64.ofNat (s.now+wait) ∧ s.now+wait ≤ calls.storedAt ∧
        calls.storedAt ≤ s.now+wait+busy then
      some { s with
        store := (handleDhtMessage crates calls s.store peerId msg).store
        now := s.now+wait+busy }
    else none
  | .timer wait fails =>
    if sleepMs ≤ wait then some (s.onTimer (s.now+wait) fails) else none

/-- No entry is older than the retention time, one hour and one round of the timer when a
message is processed. -/
def Retained (s : MailboxActor) : LoopAction → Prop
  | .event wait _ _ _ _ =>
    ∀ row ∈ s.store, s.now+wait ≤ row.timestamp+SqliteStore.ttl+cleanupInterval+sleepMs
  | .timer _ _ => True

/-- A message comes no later than one round of the timer after a cleanup is due, and the
cleanups that are due do not fail. -/
def Prompt (s : MailboxActor) : LoopAction → Prop
  | .event wait _ _ _ _ => s.now+wait ≤ s.lastCleanup+cleanupInterval+sleepMs
  | .timer wait fails => s.lastCleanup+cleanupInterval ≤ s.now+wait → fails = false

/-- What a cleanup leaves is no older than 24 hours. -/
structure Kept (s : MailboxActor) : Prop where
  past : s.lastCleanup ≤ s.now
  young : ∀ row ∈ s.store, s.lastCleanup ≤ row.timestamp+SqliteStore.ttl

theorem mem_handleDhtMessage {crates : Crates} {calls : Calls} {store : SqliteStore}
    {peerId : String} {msg : P2PMessage} {row : MailboxRow}
    (h : row ∈ (handleDhtMessage crates calls store peerId msg).store) :
    row ∈ store ∨ row.timestamp = calls.storedAt := by
  have put (topicHash : String) (entries : List Bytes)
      (h : row ∈ (store.put topicHash entries calls.storedAt calls.putFailsAfter).2) :
      row ∈ store ∨ row.timestamp = calls.storedAt := by
    rw [SqliteStore.put_eq,List.mem_append] at h
    exact h.imp_right fun hnew => (SqliteStore.mem_rows hnew).2
  cases msg with
  | dhtPut topicHash entries =>
    obtain ⟨-,hs⟩ | ⟨-,-,-,hs⟩ := handlePut_store crates calls store topicHash entries
    · rw [handleDhtMessage,hs] at h
      exact .inl h
    · rw [handleDhtMessage,hs] at h
      exact put _ _ h
  | dhtGet topicHash reqId =>
    rw [handleDhtMessage,handleGet_store] at h
    exact .inl h
  | gossip packet => exact put _ _ h
  | other => exact .inl h

section
variable {crates : Crates} {s t : MailboxActor} {a : LoopAction}

theorem Kept.onTimer (h : Kept s) {at' : Nat} (hat : s.now ≤ at') {fails : Bool}
    (hok : s.lastCleanup+cleanupInterval ≤ at' → fails = false) : Kept (s.onTimer at' fails) := by
  have hpast := h.past
  unfold MailboxActor.onTimer
  split
  · next hdue =>
    have hfails := hok (by simp only [cleanupInterval] at hdue ⊢; omega)
    refine ⟨le_refl at',fun row hrow => ?_⟩
    simp only [SqliteStore.cleanup,hfails,Bool.false_eq_true,if_false,List.mem_filter,
      SqliteStore.isOld,Bool.not_eq_true',decide_eq_false_iff_not,not_lt] at hrow
    change at' ≤ row.timestamp+SqliteStore.ttl
    omega
  · exact ⟨hpast.trans hat,h.young⟩

theorem Kept.step (h : Kept s) (hp : Prompt s a) (ht : step crates s a = some t) : Kept t := by
  have hpast := h.past
  cases a with
  | event wait busy peerId msg calls =>
    simp only [MailboxActor.step] at ht
    split at ht
    · next hcalls =>
      cases ht
      refine ⟨by simp only; omega,fun row hrow => ?_⟩
      obtain hold | hnew := mem_handleDhtMessage hrow
      · exact h.young row hold
      · simp only
        omega
    · cases ht
  | timer wait fails =>
    simp only [MailboxActor.step] at ht
    split at ht
    · cases ht
      exact h.onTimer (by omega) hp
    · cases ht

theorem Kept.retained (h : Kept s) (hp : Prompt s a) : Retained s a := by
  cases a with
  | event wait busy peerId msg calls =>
    intro row hrow
    have hyoung := h.young row hrow
    simp only [Prompt] at hp
    omega
  | timer wait fails => trivial

end

/-- A message that comes 299 seconds after the one before it. -/
def chatter (now : Nat) : LoopAction :=
  .event 299000 0 "" .other ⟨UInt64.ofNat (now+299000),now+299000,false,false,none⟩

/-- The timer never fires. -/
theorem chatter_run (crates : Crates) (s : MailboxActor) (n : Nat) :
    Machine.run (step crates) s ((List.range n).map fun i => chatter (s.now+i*299000)) =
      some { s with now := s.now+n*299000 } := by
  induction n with
  | zero => simp
  | succ n ih =>
    rw [List.range_succ,List.map_append]
    refine Machine.run_snoc ih ?_
    simp only [chatter,step,le_refl,and_self,if_true,handleDhtMessage,Nat.add_zero]
    rw [Nat.add_mul,Nat.add_assoc]

def sampleActor : MailboxActor := { now := 0, lastCleanup := 0 }

/-- An entry that is stored at second one. -/
def storedActor : MailboxActor := { store := sampleRows 1, now := 1000, lastCleanup := 0 }

def storing : LoopAction :=
  .event 1000 0 "" (.dhtPut unsafePacket.packetId [MailboxEntry.honestEntry]) (working 1000 1000)

theorem stored_step : step sampleCrates sampleActor storing = some storedActor := by
  have hs := samplePut_handled (n := 0) (by decide)
  have hempty : sampleRows 0 = [] := rfl
  rw [hempty] at hs
  simp only [storing,step,sampleActor,working,handleDhtMessage,storedActor,Nat.zero_add] at hs ⊢
  rw [if_pos ⟨by decide,by decide,by decide⟩,hs]

/-- An entry is stored, and messages keep coming. -/
def noisyRun (n : Nat) : List LoopAction :=
  storing :: (List.range n).map fun i => chatter (storedActor.now+i*299000)

theorem noisyRun_run (n : Nat) : Machine.run (step sampleCrates) sampleActor (noisyRun n) =
    some { storedActor with now := storedActor.now+n*299000 } :=
  Machine.run_cons stored_step (chatter_run sampleCrates storedActor n)

/-- Messages with an hour of silence between them. -/
def promptRun : List LoopAction :=
  [chatter 0] ++ List.replicate 11 (.timer 300000 false) ++ [chatter 3599000,.timer 300000 false]

instance (s : MailboxActor) (a : LoopAction) : Decidable (Prompt s a) :=
  match a with
  | .event wait _ _ _ _ =>
    inferInstanceAs (Decidable (s.now+wait ≤ s.lastCleanup+cleanupInterval+sleepMs))
  | .timer wait fails =>
    inferInstanceAs (Decidable (s.lastCleanup+cleanupInterval ≤ s.now+wait → fails = false))

end MailboxActor

end Cache
