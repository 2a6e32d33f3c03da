import AetherLite.Mailbox.MailboxNode
import AetherLite.Mailbox.SlotRetention

/-! What a node stores it gives out, until its time has passed. -/
set_option autoImplicit false

namespace MailboxNode

open Js
open MailboxEntry (maxEntriesPerMessage)
open SlotStorage (HasEntry Keeps Row retentionMs)

/-- The clock does not go back, and the rows keep their limits. -/
structure Tidy (s : State) : Prop where
  keeps : Keeps s.storage
  updated : ∀ x ∈ s.storage.rows, x.2.lastUpdated ≤ s.now
  pruning : ∀ p ∈ s.storage.pruning, p.now ≤ s.now

variable {cfg : Config} {s t : State} {topicHash : String} {entry : Bytes} {since : Int}

theorem tidy_initial {rows : JsMap String Row} {now : Int} (hkeys : (JsMap.keys rows).Nodup)
    (htopic : ∀ x ∈ rows, x.2.entries.length ≤ SlotStorage.maxEntriesPerTopic ∧
      x.2.lastUpdated ≤ now) : Tidy { now := now, storage := { rows := rows } } where
  keeps := ⟨hkeys,fun x hx => (htopic x hx).1,fun c hc => by cases hc⟩
  updated x hx := (htopic x hx).2
  pruning p hp := by cases hp

/-- What happens to the storage in a step: a call is queued, or it does some work. -/
theorem storage_step {a : Action} (ht : step cfg s a = some t) : s.now ≤ t.now ∧
    (t.storage.rows = s.storage.rows ∧ t.storage.pruning = s.storage.pruning ∧
      t.storage.active = s.storage.active ∨ t.now = s.now ∧ ∃ w : Work,
        SlotStorage.step cfg.me.1 cfg.blobBytes s.storage (w.action s.now) = some t.storage) := by
  cases a with
  | tick ms =>
    cases ht
    exact ⟨by dsimp only; omega,.inl ⟨rfl,rfl,rfl⟩⟩
  | handlePut peerId msg peers =>
    rw [step] at ht
    split at ht
    · cases ht
      exact ⟨le_rfl,.inl ⟨rfl,rfl,rfl⟩⟩
    · cases ht
      exact ⟨le_rfl,.inl ⟨rfl,rfl,rfl⟩⟩
  | storeSlotAsExit topicHash hint packet peers =>
    rw [step] at ht
    split at ht
    · cases ht
      exact ⟨le_rfl,.inl ⟨rfl,rfl,rfl⟩⟩
    · cases ht
      exact ⟨le_rfl,.inl ⟨rfl,rfl,rfl⟩⟩
  | handleGet peerId msg =>
    cases ht
    exact ⟨le_rfl,.inl ⟨rfl,rfl,rfl⟩⟩
  | got i works =>
    obtain ⟨x,-,rfl⟩ := Option.map_eq_some_iff.mp ht
    dsimp only
    split
    · exact ⟨le_rfl,.inl ⟨rfl,rfl,rfl⟩⟩
    · exact ⟨le_rfl,.inl ⟨rfl,rfl,rfl⟩⟩
  | handleRes peerId msg peers =>
    cases ht
    exact ⟨le_rfl,.inl ⟨rfl,rfl,rfl⟩⟩
  | fetch topicHash peers =>
    cases ht
    exact ⟨le_rfl,.inl ⟨rfl,rfl,rfl⟩⟩
  | read i works ids =>
    obtain ⟨x,-,ht⟩ := Option.bind_eq_some_iff.mp ht
    obtain ⟨mailbox,-,rfl⟩ := Option.map_eq_some_iff.mp ht
    exact ⟨le_rfl,.inl ⟨rfl,rfl,rfl⟩⟩
  | hardTimeout i =>
    obtain ⟨mailbox,-,rfl⟩ := Option.map_eq_some_iff.mp ht
    exact ⟨le_rfl,.inl ⟨rfl,rfl,rfl⟩⟩
  | graceElapsed i =>
    obtain ⟨mailbox,-,rfl⟩ := Option.map_eq_some_iff.mp ht
    exact ⟨le_rfl,.inl ⟨rfl,rfl,rfl⟩⟩
  | work w =>
    obtain ⟨storage,hs,rfl⟩ := Option.map_eq_some_iff.mp ht
    exact ⟨le_rfl,.inr ⟨rfl,w,hs⟩⟩

end MailboxNode
