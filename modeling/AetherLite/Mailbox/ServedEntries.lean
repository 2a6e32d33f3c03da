import AetherLite.Mailbox.BodyReaders
import AetherLite.Mailbox.MailboxNode

/-! Whatever others send: what a node gives out is what a reader takes. -/
set_option autoImplicit false

namespace SlotStorage

open Js

/-- The entries that a call may still write. -/
def Wait.entries : Wait → List Bytes
  | .get | .topics => []
  | .usage candidates | .used candidates _ | .putRead candidates _ | .putSame candidates _ =>
    candidates
  | .putWrite written candidates _ => written ++ candidates

def Answer.read : Answer → List Bytes
  | .entries es => es.getD []
  | _ => []

variable (P : Bytes → Prop)

structure CallHas (c : Call) : Prop where
  offer : ∀ e ∈ c.offer.entries, P e
  wait : ∀ e ∈ c.wait.entries, P e
  answer : ∀ a, c.answer = some a → ∀ e ∈ a.read, P e

/-- All that is kept, and all that may be written, has the property. -/
structure Has (s : State) : Prop where
  rows : ∀ x ∈ s.rows, ∀ e ∈ x.2.entries, P e
  queue : ∀ o ∈ s.queue, ∀ e ∈ o.entries, P e
  call : ∀ c, s.active = some c → CallHas P c

variable {P} {Q : Bytes → Prop} {s t : State} {c : Call}

theorem CallHas.imp (h : CallHas P c) (hpq : ∀ e, P e → Q e) : CallHas Q c where
  offer e he := hpq e (h.offer e he)
  wait e he := hpq e (h.wait e he)
  answer a ha e he := hpq e (h.answer a ha e he)

theorem Has.imp (h : Has P s) (hpq : ∀ e, P e → Q e) : Has Q s where
  rows x hx e he := hpq e (h.rows x hx e he)
  queue o ho e he := hpq e (h.queue o ho e he)
  call c hc := (h.call c hc).imp hpq

theorem mem_of_fresh {keys : List String} {entries : List Bytes} {e : Bytes}
    (h : e ∈ freshEntries keys entries) : e ∈ entries := by
  induction entries generalizing keys with
  | nil => cases h
  | cons d ds ih =>
    rw [freshEntries] at h
    split at h
    · exact List.mem_cons_of_mem d (ih h)
    · rcases List.mem_cons.mp h with rfl | h
      · exact List.mem_cons_self
      · exact List.mem_cons_of_mem d (ih h)

theorem mem_of_candidates {existing entries : List Bytes} {e : Bytes}
    (h : e ∈ candidatesOf existing entries) : e ∈ entries := mem_of_fresh (List.mem_of_mem_take h)

theorem Has.get (h : Has P s) (topicHash : String) :
    ∀ e ∈ ((JsMap.get s.rows topicHash).map Row.entries).getD [], P e := by
  intro e he
  cases hg : JsMap.get s.rows topicHash with
  | none =>
    rw [hg] at he
    cases he
  | some r =>
    rw [hg] at he
    exact h.rows _ (JsMap.mem_of_get hg) e he

/-- The call goes on to wait for something else. -/
theorem Has.await (h : Has P s) (hc : CallHas P c) {wait : Wait}
    (hwait : ∀ e ∈ wait.entries, P e) : Has P (await s c wait) where
  rows := h.rows
  queue := h.queue
  call d hd := by
    cases hd
    exact ⟨hc.offer,hwait,fun a ha => by cases ha⟩

theorem Has.awaitDone (h : Has P s) (hc : CallHas P c) {wait : Wait}
    (hwait : ∀ e ∈ wait.entries, P e) : Has P (awaitDone s c wait) where
  rows := h.rows
  queue := h.queue
  call d hd := by
    cases hd
    refine ⟨hc.offer,hwait,fun a ha e he => ?_⟩
    cases ha
    cases he

theorem Has.finish (h : Has P s) (c : Call) (returned : Option (List Bytes)) :
    Has P (finish s c returned) where
  rows := h.rows
  queue := h.queue
  call d hd := by cases hd

theorem Has.choose (h : Has P s) (hc : CallHas P c) : Has P (choose s c) := by
  have hcandidates : ∀ e ∈ candidatesOf c.existing c.offer.entries, P e := fun e he =>
    hc.offer e (mem_of_candidates he)
  unfold SlotStorage.choose currentUsage
  split
  · exact h.finish _ _
  · split
    · exact h.await hc hcandidates
    · exact h.awaitDone hc hcandidates

theorem Has.afterGet (h : Has P s) (hc : CallHas P c) (entries : Option (List Bytes)) :
    Has P (afterGet s c entries) := by
  have hseen : CallHas P { c with existing := entries.getD [] } := { hc with }
  unfold SlotStorage.afterGet
  dsimp only
  split
  · exact h.finish _ _
  split
  · exact h.await hseen fun e he => by cases he
  · exact h.choose hseen

theorem Has.afterUsed (h : Has P s) (hc : CallHas P c) {candidates : List Bytes}
    (hcandidates : ∀ e ∈ candidates, P e) (me : String) (usage : Nat) (now : Int) :
    Has P (afterUsed me s c candidates usage now) := by
  have hcharged : ∀ quota, Has P { s with peerQuota := quota } := fun _ =>
    ⟨h.rows,h.queue,h.call⟩
  unfold SlotStorage.afterUsed
  dsimp only
  split
  · exact h.finish _ _
  split
  · exact h.await hc hcandidates
  split
  · exact (hcharged _).await hc hcandidates
  · exact (hcharged _).finish _ _

theorem Has.afterPutRead (h : Has P s) (hc : CallHas P c) {candidates : List Bytes}
    (hcandidates : ∀ e ∈ candidates, P e) (usage : Nat) {entries : Option (List Bytes)}
    (hentries : ∀ e ∈ entries.getD [], P e) : Has P (afterPutRead s c candidates usage entries) := by
  unfold SlotStorage.afterPutRead
  split
  · refine h.await hc fun e he => ?_
    rcases List.mem_append.mp he with he | he
    · exact hcandidates e he
    · exact hcandidates e he
  · dsimp only
    split
    · exact h.awaitDone hc hcandidates
    · refine h.await hc fun e he => ?_
      rcases List.mem_append.mp he with he | he
      · rcases List.mem_append.mp he with he | he
        · exact hentries e he
        · exact hcandidates e (List.mem_filter.mp he).1
      · exact hcandidates e he

theorem Has.resume (h : Has P s) (hc : s.active = some c) {a : Answer} (ha : c.answer = some a)
    (me : String) {now : Int} (hr : resume me s c a now = some t) : Has P t := by
  have hcall := h.call c hc
  have hwait := hcall.wait
  have hread := hcall.answer a ha
  have hcounted : ∀ usage, Has P { s with usageBytes := usage } := fun _ =>
    ⟨h.rows,h.queue,h.call⟩
  unfold SlotStorage.resume at hr
  split at hr
  · cases hr
    exact h.afterGet hcall _
  · cases hr
    unfold SlotStorage.afterTopics
    split
    · exact h.finish _ _
    · exact h.choose hcall
  · next candidates n hw =>
    cases hr
    rw [hw] at hwait
    exact (hcounted _).awaitDone hcall hwait
  · next candidates hw =>
    cases hr
    rw [hw] at hwait
    exact (hcounted _).awaitDone hcall hwait
  · next candidates usage hw =>
    cases hr
    rw [hw] at hwait
    exact h.afterUsed hcall hwait me usage now
  · next candidates usage entries hw =>
    cases hr
    rw [hw] at hwait
    exact h.afterPutRead hcall hwait usage hread
  · cases hr
    exact (hcounted _).finish _ _
  · cases hr
    exact (hcounted _).finish _ _
  · cases hr
    exact h.finish _ _
  · cases hr

theorem Has.answer (h : Has P s) (hc : s.active = some c) (blobBytes : String → Row → Nat)
    (works : Bool) (now : Int) : Has P (answer blobBytes s c works now) := by
  have hcall := h.call c hc
  unfold SlotStorage.answer
  split
  · refine ⟨h.rows,h.queue,fun d hd => ?_⟩
    cases hd
    refine ⟨hcall.offer,hcall.wait,fun a ha e he => ?_⟩
    cases ha
    cases he
  split
  · next written candidates usage hw =>
    have hwait := hcall.wait
    rw [hw] at hwait
    refine ⟨fun x hx e he => ?_,h.queue,fun d hd => ?_⟩
    · rcases JsMap.mem_set hx with rfl | hx
      · exact hwait e (List.mem_append_left _ he)
      · exact h.rows x hx e he
    · cases hd
      refine ⟨hcall.offer,hcall.wait,fun a ha e he => ?_⟩
      cases ha
      cases he
  · refine ⟨h.rows,h.queue,fun d hd => ?_⟩
    cases hd
    refine ⟨hcall.offer,hcall.wait,fun a ha e he => ?_⟩
    cases ha
    unfold answerOf at he
    split at he
    · exact h.get _ e he
    · exact h.get _ e he
    · cases he
    · cases he
    all_goals cases he

/-- Only an offer brings entries. -/
theorem Has.step (h : Has P s) {me : String} {blobBytes : String → Row → Nat} {a : Action}
    (ha : ∀ offer, a = .accept offer → ∀ e ∈ offer.entries, P e)
    (ht : step me blobBytes s a = some t) : Has P t := by
  cases a with
  | accept offer =>
    cases ht
    refine ⟨h.rows,fun o ho => ?_,h.call⟩
    rcases List.mem_append.mp ho with ho | ho
    · exact h.queue o ho
    · rw [List.mem_singleton.mp ho]
      exact ha offer rfl
  | start =>
    simp only [SlotStorage.step] at ht
    split at ht
    · next offer rest hactive hqueue =>
      cases ht
      refine ⟨h.rows,fun o ho => h.queue o (by rw [hqueue]; exact List.mem_cons_of_mem _ ho),
        fun c hc => ?_⟩
      cases hc
      have hoffer := h.queue offer (by rw [hqueue]; exact List.mem_cons_self)
      exact ⟨hoffer,fun e he => (by cases he),fun a ha => by cases ha⟩
    · cases ht
  | answer works now =>
    simp only [SlotStorage.step] at ht
    split at ht
    · next c hc =>
      split at ht
      · cases ht
        exact h.answer hc blobBytes works now
      · cases ht
    · cases ht
  | resume now =>
    simp only [SlotStorage.step] at ht
    split at ht
    · next c hc =>
      obtain ⟨a,ha,hr⟩ := Option.bind_eq_some_iff.mp ht
      exact h.resume hc ha me hr
    · cases ht
  | prune now =>
    cases ht
    exact ⟨h.rows,h.queue,h.call⟩
  | pruned i works =>
    obtain ⟨p,-,hp⟩ := Option.bind_eq_some_iff.mp ht
    split at hp
    · cases hp
    · split at hp
      · cases hp
        exact ⟨h.rows,h.queue,h.call⟩
      · cases hp
        exact ⟨fun x hx => h.rows x (List.mem_filter.mp hx).1,h.queue,h.call⟩
  | pruneReturn i =>
    obtain ⟨⟨p,rest⟩,-,hp⟩ := Option.bind_eq_some_iff.mp ht
    obtain ⟨topics,-,rfl⟩ := Option.map_eq_some_iff.mp hp
    exact ⟨h.rows,h.queue,h.call⟩

end SlotStorage

namespace DHTMailbox

open Js

variable (P : Bytes → Prop)

/-- All that a fetch has, and what it was settled with. -/
structure FetchHas (f : Fetch) : Prop where
  unique : ∀ e ∈ JsMap.values f.uniquePackets, P e
  resolved : ∀ es ∈ f.resolved, ∀ e ∈ es, P e

structure Gives (s : State) : Prop where
  fetches : ∀ f ∈ s.fetches, FetchHas P f
  returned : ∀ es ∈ s.returned, ∀ e ∈ es, P e

variable {P} {Q : Bytes → Prop} {s t : State} {f : Fetch}

theorem Gives.imp (h : Gives P s) (hpq : ∀ e, P e → Q e) : Gives Q s where
  fetches f hf := {
    unique := fun e he => hpq e ((h.fetches f hf).unique e he)
    resolved := fun es hes e he => hpq e ((h.fetches f hf).resolved es hes e he) }
  returned es hes e he := hpq e (h.returned es hes e he)

theorem mem_addPackets {m : JsMap String Bytes} {ps : List Bytes} {e : Bytes}
    (h : e ∈ JsMap.values (addPackets m ps)) : e ∈ JsMap.values m ∨ e ∈ ps := by
  induction ps generalizing m with
  | nil => exact .inl h
  | cons p ps ih =>
    rcases ih h with h | h
    · rcases JsMap.mem_values_set h with rfl | h
      · exact .inr List.mem_cons_self
      · exact .inl h
    · exact .inr (List.mem_cons_of_mem p h)

theorem Gives.append_returned (h : Gives P s) {es : List Bytes} (hes : ∀ e ∈ es, P e) :
    Gives P { s with returned := s.returned ++ [es] } where
  fetches := h.fetches
  returned ds hds := by
    rcases List.mem_append.mp hds with hds | hds
    · exact h.returned ds hds
    · rw [List.mem_singleton.mp hds]
      exact hes

theorem Gives.append_fetch (h : Gives P s) (hf : FetchHas P f)
    (pending : JsMap String PendingRequest) :
    Gives P { s with fetches := s.fetches ++ [f], pendingRequests := pending } where
  fetches g hg := by
    rcases List.mem_append.mp hg with hg | hg
    · exact h.fetches g hg
    · rw [List.mem_singleton.mp hg]
      exact hf
  returned := h.returned

theorem Gives.set (h : Gives P s) (i : Nat) (hf : FetchHas P f)
    (pending : JsMap String PendingRequest) :
    Gives P { s with fetches := s.fetches.set i f, pendingRequests := pending } where
  fetches g hg := by
    rcases List.mem_or_eq_of_mem_set hg with hg | rfl
    · exact h.fetches g hg
    · exact hf
  returned := h.returned

theorem Gives.startFetch (h : Gives P s) (topicHash : String) (nearest : List String) :
    Gives P (startFetch s topicHash nearest) := by
  unfold DHTMailbox.startFetch
  split
  · exact h.append_returned fun e he => by cases he
  · exact ⟨h.fetches,h.returned⟩

theorem Gives.continueFetch (h : Gives P s) {topicHash : String} {nearest ids : List String}
    {stored : Option (List Bytes)} (hstored : ∀ e ∈ stored.getD [], P e)
    (hc : continueFetch s topicHash nearest stored ids = some t) : Gives P t := by
  have hlocal : ∀ e ∈ JsMap.values (addPackets [] (stored.getD [])), P e := by
    intro e he
    rcases mem_addPackets he with he | he
    · cases he
    · exact hstored e he
  unfold DHTMailbox.continueFetch at hc
  dsimp only at hc
  split at hc
  · cases hc
    exact h.append_returned hlocal
  split at hc
  · cases hc
  · cases hc
    exact h.append_fetch ⟨hlocal,fun es hes => by cases hes⟩ _

theorem Gives.finalize (h : Gives P s) (i : Nat) (hf : FetchHas P f) :
    Gives P (finalize s i f) := by
  unfold DHTMailbox.finalize
  split
  · exact h
  · refine h.set i ⟨?_,fun es hes => ?_⟩ _
    · exact hf.unique
    rcases List.mem_append.mp hes with hes | hes
    · exact hf.resolved es hes
    · rw [List.mem_singleton.mp hes]
      exact hf.unique

theorem Gives.resolveRequest (h : Gives P s) (i : Nat) {packets : List Bytes}
    (hp : ∀ e ∈ packets, P e) : Gives P (resolveRequest s i packets) := by
  unfold DHTMailbox.resolveRequest
  split
  · exact h
  next f hget =>
  have hf := h.fetches f (List.mem_of_getElem? hget)
  have hunique : ∀ e ∈ JsMap.values (addPackets f.uniquePackets packets), P e := by
    intro e he
    rcases mem_addPackets he with he | he
    · exact hf.unique e he
    · exact hp e he
  have hset : ∀ timer, FetchHas P { f with
      responsesReceived := f.responsesReceived+1
      uniquePackets := addPackets f.uniquePackets packets
      graceTimer := timer } := fun _ => ⟨hunique,hf.resolved⟩
  dsimp only
  split
  · exact Gives.finalize (h.set i (hset _) s.pendingRequests) i (hset _)
  split
  · exact h.set i (hset _) s.pendingRequests
  · exact h.set i (hset _) s.pendingRequests

theorem Gives.handleRes (h : Gives P s) {sha256 : Bytes → Bytes} {r : Response}
    (hr : ∀ result, MailboxEntry.filterValidEntries sha256 (r.msg.field "entries") r.now =
      .ok result → ∀ e ∈ result.accepted, P e) : Gives P (handleRes sha256 s r) := by
  have hkept : ∀ pending, Gives P { s with
      responses := s.responses ++ [r], pendingRequests := pending } :=
    fun _ => ⟨h.fetches,h.returned⟩
  unfold DHTMailbox.handleRes
  dsimp only
  split
  · split
    · exact hkept _
    split
    · exact hkept _
    split
    · exact hkept _
    split
    · exact hkept _
    · next result hfilter => exact (hkept _).resolveRequest _ (hr result hfilter)
  · exact hkept _

theorem Gives.timer (h : Gives P s) {sha256 : Bytes → Bytes} {i : Nat} {a : Action}
    (ha : a = .hardTimeout i ∨ a = .graceElapsed i) (ht : step sha256 s a = some t) :
    Gives P t := by
  rcases ha with rfl | rfl
  · obtain ⟨f,hf,hfire⟩ := Option.bind_eq_some_iff.mp ht
    split at hfire
    · cases hfire
      exact h.finalize i (h.fetches f (List.mem_of_getElem? hf))
    · cases hfire
  · obtain ⟨f,hf,hfire⟩ := Option.bind_eq_some_iff.mp ht
    split at hfire
    · cases hfire
      exact h.finalize i (h.fetches f (List.mem_of_getElem? hf))
    · cases hfire

end DHTMailbox

namespace MailboxNode

open Js
open MailboxEntry (FilterResult checkEntry filterLoop filterValidEntries maxEntriesPerMessage)

variable {cfg : Config} {sha256 : Bytes → Bytes} {s t : State} {now : Int}

theorem Passes.later {e : Bytes} (h : Passes sha256 now e) {later : Int} (hle : now ≤ later) :
    Passes sha256 later e := by
  obtain ⟨packet,hc⟩ := h
  exact ⟨packet,DHTMailbox.checkEntry_later hle hc⟩

/-- The filter accepts nothing that does not pass on its own. -/
theorem filterLoop_passes {raws seen : List Val} {r result : FilterResult}
    (h : filterLoop sha256 now raws seen r = .ok result)
    (hr : ∀ e ∈ r.accepted, Passes sha256 now e) : ∀ e ∈ result.accepted, Passes sha256 now e := by
  induction raws generalizing seen r with
  | nil =>
    cases h
    exact hr
  | cons raw raws ih =>
    cases raw with
    | bytes entry =>
      rw [filterLoop] at h
      cases hc : checkEntry sha256 entry now with
      | error e =>
        rw [hc] at h
        cases h
      | ok checked =>
        rw [hc] at h
        cases checked with
        | rejected reason => exact ih h hr
        | ok packet =>
          dsimp only [bind,Except.bind] at h
          split at h
          · exact ih h hr
          · refine ih h fun e he => ?_
            rcases List.mem_append.mp he with he | he
            · exact hr e he
            · rw [List.mem_singleton.mp he]
              exact ⟨packet,hc⟩
    | _ => exact ih h hr

theorem filterValidEntries_passes {entries : Val} {result : FilterResult}
    (h : filterValidEntries sha256 entries now = .ok result) :
    ∀ e ∈ result.accepted, Passes sha256 now e := by
  unfold MailboxEntry.filterValidEntries at h
  split at h
  · exact filterLoop_passes h fun e he => by cases he
  · cases h
    intro e he
    cases he

def Message.entries : Message → List Bytes
  | put _ _ es => es
  | get _ _ _ => []
  | res _ _ _ es => es

/-- All that is kept or was given out passes by now. -/
structure Inv (cfg : Config) (s : State) : Prop where
  storage : SlotStorage.Has (Passes cfg.sha256 s.now) s.storage
  mailbox : DHTMailbox.Gives (Passes cfg.sha256 s.now) s.mailbox
  sent : ∀ m ∈ s.sent, ∀ e ∈ m.entries, Passes cfg.sha256 s.now e

theorem Inv.accept (h : Inv cfg s) {offer : Option SlotStorage.Offer}
    (ho : ∀ o, offer = some o → ∀ e ∈ o.entries, Passes cfg.sha256 s.now e) :
    Inv cfg (s.accept offer) where
  storage := {
    rows := h.storage.rows
    queue := fun o hmem e he => by
      rcases List.mem_append.mp hmem with hmem | hmem
      · exact h.storage.queue o hmem e he
      · exact ho o (Option.mem_toList.mp hmem) e he
    call := h.storage.call }
  mailbox := h.mailbox
  sent := h.sent

theorem Inv.append_sent (h : Inv cfg s) {ms : List Message}
    (hms : ∀ m ∈ ms, ∀ e ∈ m.entries, Passes cfg.sha256 s.now e) :
    Inv cfg { s with sent := s.sent ++ ms } where
  storage := h.storage
  mailbox := h.mailbox
  sent m hm := by
    rcases List.mem_append.mp hm with hm | hm
    · exact h.sent m hm
    · exact hms m hm

theorem handlePut_passes {v : DHTMailbox.View} {peerId : Network.PeerId} {msg : Val}
    {offer : SlotStorage.Offer}
    (h : DHTMailbox.handlePut sha256 v peerId msg now = .ok (some offer)) :
    ∀ e ∈ offer.entries, Passes sha256 now e := by
  unfold DHTMailbox.handlePut at h
  split at h
  · split at h
    · cases h
    split at h
    · cases h
    cases hf : filterValidEntries sha256 (msg.field "entries") now with
    | error e =>
      rw [hf] at h
      cases h
    | ok r =>
      rw [hf] at h
      dsimp only [bind,Except.bind] at h
      split at h
      · cases h
      · cases h
        exact filterValidEntries_passes hf
  · cases h

theorem resOffer_passes {v : DHTMailbox.View} {m : DHTMailbox.State} {r : DHTMailbox.Response}
    {offer : SlotStorage.Offer} (h : resOffer cfg v m r = some offer) :
    ∀ e ∈ offer.entries, Passes cfg.sha256 r.now e := by
  unfold resOffer at h
  split at h
  · obtain ⟨req,-,h⟩ := Option.bind_eq_some_iff.mp h
    split at h
    · cases h
    split at h
    · cases h
    split at h
    · cases h
    · next result hf =>
      split at h
      · cases h
        exact filterValidEntries_passes hf
      · cases h
  · cases h

theorem storeSlotAsExit_passes {v : DHTMailbox.View} {decimalText : Number → List Char}
    {topicHash : String} {hint : Bytes} {packet : Val} {put : DHTMailbox.Put}
    (h : DHTMailbox.storeSlotAsExit sha256 decimalText v topicHash hint packet now =
      .ok (some put)) :
    Passes sha256 now put.entry ∧ ∀ o, put.own = some o → o.entries = [put.entry] := by
  obtain ⟨-,hint',body,checked,-,-,hcheck,rfl⟩ := DHTMailbox.storeSlotAsExit_some h
  refine ⟨⟨checked,hcheck⟩,fun o ho => ?_⟩
  unfold DHTMailbox.putToKNearest at ho ⊢
  dsimp only at ho ⊢
  split at ho
  · cases ho
    rfl
  · cases ho

theorem Inv.entries (h : Inv cfg s) (topicHash : String) :
    ∀ e ∈ s.entries topicHash, Passes cfg.sha256 s.now e := h.storage.get topicHash

theorem inv_step (h : Inv cfg s) {a : Action} (ht : step cfg s a = some t) : Inv cfg t := by
  cases a with
  | tick ms =>
    cases ht
    have hle : s.now ≤ s.now+ms := by omega
    have hlater : ∀ e, Passes cfg.sha256 s.now e → Passes cfg.sha256 (s.now+ms) e :=
      fun e he => he.later hle
    exact ⟨h.storage.imp hlater,h.mailbox.imp hlater,fun m hm e he => hlater e (h.sent m hm e he)⟩
  | handlePut peerId msg peers =>
    rw [step] at ht
    split at ht
    · cases ht
      exact h
    · next offer hput =>
      cases ht
      refine h.accept fun o ho => ?_
      subst ho
      exact handlePut_passes hput
  | storeSlotAsExit topicHash hint packet peers =>
    rw [step] at ht
    split at ht
    · next put hput =>
      cases ht
      obtain ⟨hpass,hown⟩ := storeSlotAsExit_passes hput
      refine Inv.accept (h.append_sent fun m hm e he => ?_) fun o ho e he => ?_
      · obtain ⟨id,-,rfl⟩ := List.mem_map.mp hm
        rw [List.mem_singleton.mp he]
        exact hpass
      · rw [hown o ho] at he
        rw [List.mem_singleton.mp he]
        exact hpass
    · cases ht
      exact h
  | handleGet peerId msg =>
    cases ht
    exact ⟨h.storage,h.mailbox,h.sent⟩
  | got i works =>
    obtain ⟨⟨g,gets⟩,-,rfl⟩ := Option.map_eq_some_iff.mp ht
    have hgets : Inv cfg { s with gets := gets } := ⟨h.storage,h.mailbox,h.sent⟩
    dsimp only
    split
    · refine hgets.append_sent fun m hm e he => ?_
      rw [List.mem_singleton.mp hm] at he
      exact hgets.entries g.topicHash e (List.mem_of_mem_take he)
    · exact hgets
  | handleRes peerId msg peers =>
    cases ht
    have hmailbox : DHTMailbox.Gives (Passes cfg.sha256 s.now)
        (DHTMailbox.handleRes cfg.sha256 s.mailbox ⟨peerId,msg,s.now⟩) :=
      h.mailbox.handleRes fun result hf => filterValidEntries_passes hf
    have hnext : Inv cfg { s with
        mailbox := DHTMailbox.handleRes cfg.sha256 s.mailbox ⟨peerId,msg,s.now⟩ } :=
      ⟨h.storage,hmailbox,h.sent⟩
    refine hnext.accept fun o ho => ?_
    exact resOffer_passes (r := ⟨peerId,msg,s.now⟩) ho
  | fetch topicHash peers =>
    cases ht
    exact ⟨h.storage,h.mailbox.startFetch _ _,h.sent⟩
  | read i works ids =>
    obtain ⟨⟨task,fetching⟩,-,ht⟩ := Option.bind_eq_some_iff.mp ht
    obtain ⟨mailbox,hcont,rfl⟩ := Option.map_eq_some_iff.mp ht
    have hbase : DHTMailbox.Gives (Passes cfg.sha256 s.now) { s.mailbox with fetching := fetching } :=
      ⟨h.mailbox.fetches,h.mailbox.returned⟩
    have hmailbox : DHTMailbox.Gives (Passes cfg.sha256 s.now) mailbox := by
      refine hbase.continueFetch (fun e he => ?_) hcont
      split at he
      · exact h.entries _ e he
      · cases he
    have hnext : Inv cfg { s with mailbox := mailbox } := ⟨h.storage,hmailbox,h.sent⟩
    refine hnext.append_sent fun m hm e he => ?_
    obtain ⟨x,-,rfl⟩ := List.mem_map.mp hm
    cases he
  | hardTimeout i =>
    obtain ⟨mailbox,hm,rfl⟩ := Option.map_eq_some_iff.mp ht
    have hmailbox : DHTMailbox.Gives (Passes cfg.sha256 s.now) mailbox :=
      h.mailbox.timer (.inl rfl) hm
    exact ⟨h.storage,hmailbox,h.sent⟩
  | graceElapsed i =>
    obtain ⟨mailbox,hm,rfl⟩ := Option.map_eq_some_iff.mp ht
    have hmailbox : DHTMailbox.Gives (Passes cfg.sha256 s.now) mailbox :=
      h.mailbox.timer (.inr rfl) hm
    exact ⟨h.storage,hmailbox,h.sent⟩
  | work w =>
    obtain ⟨storage,hs,rfl⟩ := Option.map_eq_some_iff.mp ht
    have hstorage : SlotStorage.Has (Passes cfg.sha256 s.now) storage := by
      refine h.storage.step (fun offer ha => ?_) hs
      cases w <;> cases ha
    exact ⟨hstorage,h.mailbox,h.sent⟩

/-- The entry passes, with this packet id. -/
def HasId (sha256 : Bytes → Bytes) (now : Int) (id : String) (entry : Bytes) : Prop :=
  ∃ packet, checkEntry sha256 entry now = .ok (.ok packet) ∧ packet.field "packet_id" = .str id

theorem exists_id {e : Bytes} {packet : Val} (h : checkEntry sha256 e now = .ok (.ok packet)) :
    ∃ id, packet.field "packet_id" = .str id := by
  obtain ⟨-,-,-,hcheck⟩ := BodyReaders.checkEntry_ok h
  obtain ⟨-,id,-,-,hid,-⟩ := PacketValidator.check_iff.mp hcheck
  unfold PacketValidator.packetId? at hid
  split at hid
  · next s hs => exact ⟨s,hs⟩
  · cases hid

/-- The filter drops what has a packet id that it has seen, and no other entry that passes. -/
theorem filterLoop_of_passes {entries : List Bytes} {seen : List Val} {r : FilterResult}
    (h : ∀ e ∈ entries, Passes sha256 now e) :
    ∃ result kept, filterLoop sha256 now (entries.map .bytes) seen r = .ok result ∧
      result.rejected = r.rejected ∧ result.accepted = r.accepted ++ kept ∧
      kept.Sublist entries ∧ ∀ e ∈ entries, ∀ id, HasId sha256 now id e →
        .str id ∈ seen ∨ ∃ d ∈ kept, HasId sha256 now id d := by
  induction entries generalizing seen r with
  | nil =>
    exact ⟨r,[],rfl,rfl,(List.append_nil _).symm,List.Sublist.refl _,fun e he => by cases he⟩
  | cons e es ih =>
    obtain ⟨packet,hc⟩ := h e List.mem_cons_self
    obtain ⟨own,hown⟩ := exists_id hc
    have hself : HasId sha256 now own e := ⟨packet,hc,hown⟩
    have hunique : ∀ id, HasId sha256 now id e → id = own := by
      rintro id ⟨q,hq,hid⟩
      rw [hc] at hq
      cases hq
      rw [hown] at hid
      cases hid
      rfl
    have hrest : ∀ d ∈ es, Passes sha256 now d := fun d hd => h d (List.mem_cons_of_mem e hd)
    rw [List.map_cons,filterLoop,hc]
    dsimp only [bind,Except.bind]
    rw [hown]
    split
    · next hseen =>
      obtain ⟨x,hx,heq⟩ := List.any_eq_true.mp hseen
      obtain rfl := Val.eq_of_beq heq
      obtain ⟨result,kept,hloop,hrejected,haccepted,hsub,hall⟩ := ih hrest
      refine ⟨result,kept,hloop,hrejected,haccepted,hsub.cons e,fun d hd id hid => ?_⟩
      rcases List.mem_cons.mp hd with rfl | hd
      · rw [hunique id hid]
        exact .inl hx
      · exact hall d hd id hid
    · obtain ⟨result,kept,hloop,hrejected,haccepted,hsub,hall⟩ := ih hrest
      refine ⟨result,e :: kept,hloop,hrejected,?_,hsub.cons_cons e,fun d hd id hid => ?_⟩
      · rw [haccepted,List.append_assoc,List.singleton_append]
      rcases List.mem_cons.mp hd with rfl | hd
      · rw [hunique id hid]
        exact .inr ⟨d,List.mem_cons_self,hself⟩
      rcases hall d hd id hid with hseen | ⟨x,hx,hsame⟩
      · rcases List.mem_cons.mp hseen with heq | hseen
        · cases heq
          exact .inr ⟨e,List.mem_cons_self,hself⟩
        · exact .inl hseen
      · exact .inr ⟨x,List.mem_cons_of_mem e hx,hsame⟩

end MailboxNode
