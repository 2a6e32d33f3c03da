import AetherLite.Onion.GuardPinning
import Mathlib.Data.List.Range
import Mathlib.Data.List.Perm.Basic

/-! What becomes of the entries of the queue, tick after tick. -/
set_option autoImplicit false

namespace OnionRouter

variable {p : Primitives} {payload : ExitPayload} {guard exit : OnionHop}

/-- What the payload takes fits into a cell, and the keys of both hops are points of the
curve. -/
structure Wrappable (p : Primitives) (payload : ExitPayload) (guard exit : OnionHop) : Prop where
  fits : ∃ bs, encode p payload.toVal = some bs ∧ bs.length ≤ exitLayerSize-4
  exitKey : (p.toCurvePublicKey exit.pubkey).isSome
  guardKey : (p.toCurvePublicKey guard.pubkey).isSome

/-- Sealing adds the key and the tag. -/
def SealsTo (p : Primitives) : Prop :=
  ∀ seed plaintext xPk, (p.boxSeal seed plaintext xPk).length = plaintext.length+sealOverhead

theorem wrapCircuit_wrappable {r : Entropy} {cell : Bytes}
    (h : wrapCircuit p r payload [guard,exit] = some cell) : Wrappable p payload guard exit := by
  simp only [wrapCircuit,wrapLayers,Option.bind_eq_bind,Option.bind_eq_some_iff,
    Option.some.injEq] at h
  obtain ⟨outer,⟨inner,⟨bs,hbs,layer,hlayer,xPk,hexit,-⟩,relay,-,gPk,hguard,-⟩,-⟩ := h
  exact ⟨⟨bs,hbs,(padCell_some hlayer).1⟩,by simp [hexit],by simp [hguard]⟩

theorem Wrappable.wraps (h : Wrappable p payload guard exit) (hbox : SealsTo p)
    (hid : NodeIdentity.isPeerId exit.peerId = true) (r : Entropy) :
    ∃ cell, wrapCircuit p r payload [guard,exit] = some cell := by
  obtain ⟨bs,hbs,hfit⟩ := h.fits
  obtain ⟨xPk,hexit⟩ := Option.isSome_iff_exists.mp h.exitKey
  obtain ⟨gPk,hguard⟩ := Option.isSome_iff_exists.mp h.guardKey
  obtain ⟨layer,hlayer⟩ := padCell_of_le (r.padding 0) hfit
  have hlen : layer.length = 3400 := padCell_length (r.padding_length 0) (by decide) hlayer
  have hinner : (p.boxSeal (r.seed 0) layer xPk).length = 3448 := by rw [hbox,hlen]; rfl
  obtain ⟨relay,hrelay,hrelayLen,-⟩ := encode_relay (p := p) hid
    (show 0x100 ≤ (p.boxSeal (r.seed 0) layer xPk).length by omega) (by omega)
  have houter : (p.boxSeal (r.seed 1) relay gPk).length ≤ cellSize-4 := by
    have hover : sealOverhead = 48 := rfl
    have hcell : cellSize-4 = 3796 := rfl
    rw [hbox]
    omega
  obtain ⟨cell,hcell⟩ := padCell_of_le (r.padding 1) houter
  exact ⟨cell,by simp [wrapCircuit,wrapLayers,hbs,hlayer,hexit,hrelay,hguard,hcell]⟩

theorem wrapCircuit_length {r : Entropy} {hops : List OnionHop} {cell : Bytes}
    (h : wrapCircuit p r payload hops = some cell) : cell.length = cellSize := by
  obtain ⟨ciphertext,-,hcell⟩ := Option.bind_eq_some_iff.mp h
  exact padCell_length (r.padding_length 1) (by decide) hcell

end OnionRouter

namespace OnionCircuit

open Js OnionRouter DandelionRouter

section
variable {cfg : Config} {s t u : State} {guard : OnionHop} {d : Draws}

theorem currentGuard_cases (s : State) (draw : UInt32) : (currentGuard s draw).1 = s ∨
    ∃ id expiry, (currentGuard s draw).1 = setGuard s id expiry := by
  unfold currentGuard getPinnedGuard
  split
  · exact .inl rfl
  split
  · split
    · split
      · exact .inl rfl
      · exact .inr ⟨_,_,rfl⟩
    · exact .inl rfl
  · dsimp only
    split
    · exact .inl rfl
    · exact .inr ⟨_,_,rfl⟩

/-- What looking for the guard may change besides the guard. -/
structure Looked (s t : State) : Prop where
  queue : t.queue = s.queue
  pushed : t.pushed = s.pushed
  table : t.guardNeighbors = s.guardNeighbors ∨ t.guardNeighbors = []
  outbox : t.outbox = s.outbox ∨ ∃ id, t.outbox = s.outbox ++ [(id,.pexRequest)]

theorem looked_setGuard (s : State) (id : Option String) (expiry : Number) :
    Looked s (setGuard s id expiry) := by
  unfold setGuard guardChanged State.post
  dsimp only
  split
  · split
    · split
      · exact ⟨rfl,rfl,.inr rfl,.inr ⟨_,rfl⟩⟩
      · exact ⟨rfl,rfl,.inr rfl,.inl rfl⟩
    · exact ⟨rfl,rfl,.inr rfl,.inl rfl⟩
  · exact ⟨rfl,rfl,.inl rfl,.inl rfl⟩

theorem looked_currentGuard (s : State) (draw : UInt32) : Looked s (currentGuard s draw).1 := by
  rcases currentGuard_cases s draw with h | ⟨id,expiry,h⟩
  · rw [h]
    exact ⟨rfl,rfl,.inl rfl,.inl rfl⟩
  · rw [h]
    exact looked_setGuard s id expiry

/-- Whether there is an exit depends on the table alone. -/
theorem pickExit_eq_none (cfg : Config) (s : State) (guardId : String) (exclude : List String)
    (draw : UInt32) : (pickExit cfg s guardId exclude draw).2 = none ↔
      eligible cfg s guardId exclude = [] := by
  unfold pickExit
  dsimp only
  split
  · next h => simpa using h
  · next h =>
    have hne : eligible cfg s guardId exclude ≠ [] := by simpa using h
    simp only [hne,iff_false]
    have hpool : (if ((eligible cfg s guardId exclude).filter fun h =>
        !JsMap.has s.peers h.peerId).isEmpty then eligible cfg s guardId exclude else
          (eligible cfg s guardId exclude).filter fun h => !JsMap.has s.peers h.peerId) ≠ [] := by
      split
      · exact hne
      · next hf => simpa using hf
    have hw := secureWeightedIndex_lt draw (List.map_eq_nil_iff.not.mpr hpool
      : List.map (exitWeight { s with
          guardNeighbors := s.guardNeighbors.filter fun e => isFresh s.now e.2 }) _ ≠ [])
    rw [List.length_map] at hw
    rw [List.getElem?_eq_none_iff]
    omega

/-- The exit that an entry of the queue goes to. -/
def exitOf (cfg : Config) (s : State) (guardId : String) (draw : UInt32) (item : QueuedCell) :
    Option OnionHop :=
  if item.guardId = guardId then some item.exit else (pickExit cfg s guardId [] draw).2

/-- What is taken from the queue is one of its entries, for this guard and perhaps another
exit. -/
structure Taken (items : List QueuedCell) (s t : State) (item : Option QueuedCell) : Prop where
  pushed : t.pushed = s.pushed
  outbox : t.outbox = s.outbox
  table : ∀ e ∈ t.guardNeighbors, e ∈ s.guardNeighbors
  count : t.queue.length+item.toList.length ≤ items.length
  queue : ∀ x ∈ t.queue, x ∈ items
  empty : item = none → t.queue = []
  item : ∀ x, item = some x → ∃ y ∈ items, x.ticket = y.ticket ∧ x.payload = y.payload ∧
    (x.exit = y.exit ∨ ∃ info, (x.exit.peerId,info) ∈ s.guardNeighbors)

theorem taken_takeItem (cfg : Config) (guardId : String) (draw : UInt32) (s : State)
    (items : List QueuedCell) :
    Taken items s (takeItem cfg guardId draw s items).1 (takeItem cfg guardId draw s items).2 := by
  induction items generalizing s with
  | nil => exact ⟨rfl,rfl,fun _ he => he,by simp [takeItem],by simp [takeItem],fun _ => rfl,by simp [takeItem]⟩
  | cons head rest ih =>
    unfold takeItem
    split
    · refine ⟨rfl,rfl,fun _ he => he,by simp,by simp +contextual,fun h => (by cases h),fun x hx => ?_⟩
      cases hx
      exact ⟨head,by simp,rfl,rfl,.inl rfl⟩
    · have hstate := pickExit_state cfg s guardId [] draw
      split
      · next t exit ht =>
        obtain ⟨⟨info,hmem,-⟩,-⟩ := pickExit_some ht
        rw [ht] at hstate
        obtain rfl := hstate
        refine ⟨rfl,rfl,fun e he => (List.mem_filter.mp he).1,by simp,by simp +contextual,
          fun h => (by cases h),fun x hx => ?_⟩
        cases hx
        exact ⟨head,by simp,rfl,rfl,.inr ⟨info,(List.mem_filter.mp hmem).1⟩⟩
      · next t ht =>
        rw [ht] at hstate
        obtain rfl := hstate
        have h := ih { s with guardNeighbors := s.guardNeighbors.filter fun e => isFresh s.now e.2 }
        refine ⟨h.pushed,h.outbox,fun e he => (List.mem_filter.mp (h.table e he)).1,?_,
          fun x hx => List.mem_cons_of_mem head (h.queue x hx),h.empty,fun x hx => ?_⟩
        · have hcount := h.count
          simp only [List.length_cons]
          omega
        · obtain ⟨y,hy,htk,hpay,hexit⟩ := h.item x hx
          refine ⟨y,List.mem_cons_of_mem head hy,htk,hpay,hexit.imp_right ?_⟩
          rintro ⟨info,hinfo⟩
          exact ⟨info,(List.mem_filter.mp hinfo).1⟩

/-- The first entry is taken when there is an exit for it. -/
theorem takeItem_lead {guardId : String} {draw : UInt32} {item : QueuedCell}
    (rest : List QueuedCell) {exit : OnionHop} (h : exitOf cfg s guardId draw item = some exit) :
    ∃ table, takeItem cfg guardId draw s (item :: rest) =
      ({ s with queue := rest, guardNeighbors := table },
        some { item with exit := exit, guardId := guardId }) := by
  unfold exitOf at h
  unfold takeItem
  split at h
  · next heq =>
    cases h
    exact ⟨s.guardNeighbors,by rw [if_pos heq,← heq]⟩
  · next hne =>
    have hpick : pickExit cfg s guardId [] draw =
        ({ s with guardNeighbors := s.guardNeighbors.filter fun e => isFresh s.now e.2 },
          some exit) := Prod.ext (pickExit_state cfg s guardId [] draw) h
    exact ⟨_,by rw [if_neg hne,hpick]⟩

/-- An entry without an exit is gone. -/
theorem takeItem_skip {guardId : String} {draw : UInt32} {item : QueuedCell}
    {rest : List QueuedCell} (h : exitOf cfg s guardId draw item = none) :
    takeItem cfg guardId draw s (item :: rest) = takeItem cfg guardId draw
      { s with guardNeighbors := s.guardNeighbors.filter fun e => isFresh s.now e.2 } rest := by
  unfold exitOf at h
  split at h
  · cases h
  · next hne =>
    have hpick : pickExit cfg s guardId [] draw =
        ({ s with guardNeighbors := s.guardNeighbors.filter fun e => isFresh s.now e.2 },
          none) := Prod.ext (pickExit_state cfg s guardId [] draw) h
    conv_lhs => unfold takeItem
    rw [if_neg hne,hpick]

/-- The pushes whose payload went out in a cell. -/
def emitted (outbox : List (String × Message)) : List Nat :=
  outbox.filterMap fun m => match m.2 with
    | .cell _ ticket => ticket
    | .pexRequest => none

/-- The pushes that are queued or went out. -/
def carried (s : State) : List Nat := s.queue.map QueuedCell.ticket ++ emitted s.outbox

theorem emitted_request (outbox : List (String × Message)) (id : String) :
    emitted (outbox ++ [(id,.pexRequest)]) = emitted outbox := by
  simp [emitted]

theorem Looked.carried (h : Looked s t) : carried t = carried s := by
  unfold OnionCircuit.carried
  rw [h.queue]
  rcases h.outbox with ho | ⟨id,ho⟩
  · rw [ho]
  · rw [ho,emitted_request]

/-- The record says of every entry and every cell which payload it carries. -/
structure Recorded (cfg : Config) (s : State) : Prop where
  ids : ∀ e ∈ s.guardNeighbors, NodeIdentity.isPeerId e.1 = true
  queued : ∀ x ∈ s.queue, s.pushed[x.ticket]? = some x.payload ∧
    NodeIdentity.isPeerId x.exit.peerId = true
  sent : ∀ m ∈ s.outbox, ∀ cell ticket, m.2 = .cell cell (some ticket) →
    ∃ payload r guard exit, s.pushed[ticket]? = some payload ∧ guard.peerId = m.1 ∧
      wrapCircuit cfg.router r payload [guard,exit] = some cell

/-- Each push is queued or went out, in one cell of its payload. -/
structure Conserved (cfg : Config) (s : State) : Prop extends Recorded cfg s where
  once : (carried s).Perm (List.range s.pushed.length)

theorem Recorded.mono (h : Recorded cfg s) (hp : t.pushed = s.pushed)
    (ht : ∀ e ∈ t.guardNeighbors, e ∈ s.guardNeighbors) (hq : ∀ x ∈ t.queue, x ∈ s.queue)
    (ho : ∀ m ∈ t.outbox, m ∈ s.outbox ∨ m.2 = .pexRequest) : Recorded cfg t where
  ids e he := h.ids e (ht e he)
  queued x hx := by
    rw [hp]
    exact h.queued x (hq x hx)
  sent m hm cell ticket hcell := by
    rw [hp]
    rcases ho m hm with hm | hm
    · exact h.sent m hm cell ticket hcell
    · rw [hm] at hcell
      cases hcell

theorem Recorded.looked (h : Recorded cfg s) (hl : Looked s t) : Recorded cfg t := by
  refine h.mono hl.pushed (fun e he => ?_) (fun x hx => hl.queue ▸ hx) fun m hm => ?_
  · rcases hl.table with ht | ht
    · rwa [ht] at he
    · rw [ht] at he
      cases he
  · rcases hl.outbox with ho | ⟨id,ho⟩
    · rw [ho] at hm
      exact .inl hm
    · rw [ho,List.mem_append,List.mem_singleton] at hm
      exact hm.imp_right fun heq => by rw [heq]

theorem Recorded.emitWrapped (h : Recorded cfg s) (d : Draws) (guard exit : OnionHop)
    {payload : ExitPayload} {ticket : Option Nat}
    (ht : ∀ n, ticket = some n → s.pushed[n]? = some payload) :
    Recorded cfg (emitWrapped cfg s d guard exit payload ticket) := by
  unfold OnionCircuit.emitWrapped
  split
  · exact h
  · next cell hcell =>
    refine ⟨h.ids,h.queued,fun m hm c n hc => ?_⟩
    rcases List.mem_append.mp hm with hm | hm
    · exact h.sent m hm c n hc
    · obtain rfl := List.mem_singleton.mp hm
      cases hc
      exact ⟨payload,d.entropy,guard,exit,ht n rfl,rfl,hcell⟩

theorem carried_emitWrapped {exit : OnionHop} {payload : ExitPayload} {ticket : Option Nat}
    {cell : Bytes} (h : wrapCircuit cfg.router d.entropy payload [guard,exit] = some cell) :
    carried (emitWrapped cfg s d guard exit payload ticket) = carried s ++ ticket.toList := by
  unfold emitWrapped
  rw [h]
  cases ticket <;> simp [carried,State.post,emitted]

theorem carried_emitWrapped_le (cfg : Config) (s : State) (d : Draws) (guard exit : OnionHop)
    (payload : ExitPayload) (ticket : Option Nat) :
    (carried (emitWrapped cfg s d guard exit payload ticket)).length ≤
      (carried s).length+ticket.toList.length := by
  cases hw : wrapCircuit cfg.router d.entropy payload [guard,exit] with
  | none => simp [emitWrapped,hw]
  | some cell => rw [carried_emitWrapped hw,List.length_append]

theorem emitWrapped_queue (cfg : Config) (s : State) (d : Draws) (guard exit : OnionHop)
    (payload : ExitPayload) (ticket : Option Nat) :
    (emitWrapped cfg s d guard exit payload ticket).queue = s.queue ∧
      (emitWrapped cfg s d guard exit payload ticket).pushed = s.pushed := by
  unfold emitWrapped
  split <;> exact ⟨rfl,rfl⟩

/-- A tick with an exit for the first entry puts that entry into its cell. -/
theorem emitCell_lead {item : QueuedCell} {rest : List QueuedCell} {exit : OnionHop}
    (hg : currentGuard s d.guard = (u,some guard)) (hq : u.queue = item :: rest)
    (hx : exitOf cfg u guard.peerId d.exit item = some exit) :
    ∃ table, emitCell cfg s d = emitWrapped cfg { u with queue := rest, guardNeighbors := table } d
      guard exit item.payload (some item.ticket) := by
  obtain ⟨table,htake⟩ := takeItem_lead rest hx
  refine ⟨table,?_⟩
  unfold emitCell
  rw [hg]
  dsimp only
  rw [hq,htake]

/-- What a tick with a guard leaves, for the entry that it takes. -/
theorem emitCell_taken (hg : currentGuard s d.guard = (u,some guard)) :
    (emitCell cfg s d).queue = (takeItem cfg guard.peerId d.exit u u.queue).1.queue ∧
      (emitCell cfg s d).pushed = u.pushed ∧
        (carried (emitCell cfg s d)).length ≤ (emitted u.outbox).length +
          ((takeItem cfg guard.peerId d.exit u u.queue).1.queue.length +
            (takeItem cfg guard.peerId d.exit u u.queue).2.toList.length) := by
  have htaken := taken_takeItem cfg guard.peerId d.exit u u.queue
  unfold emitCell
  rw [hg]
  dsimp only
  split
  · next t item ht =>
    rw [ht] at htaken ⊢
    obtain ⟨hq,hp⟩ := emitWrapped_queue cfg t d guard item.exit item.payload (some item.ticket)
    have hle := carried_emitWrapped_le cfg t d guard item.exit item.payload (some item.ticket)
    refine ⟨hq,hp.trans htaken.pushed,?_⟩
    have ho := htaken.outbox
    dsimp only at ho
    simp only [carried,List.length_append,List.length_map,Option.toList_some,List.length_cons,
      List.length_nil] at hle ⊢
    rw [ho] at hle
    omega
  · next t ht =>
    rw [ht] at htaken ⊢
    have hstate := pickExit_state cfg t guard.peerId [] d.exit
    have ho := htaken.outbox
    have hpushed := htaken.pushed
    dsimp only at ho hpushed
    split
    · next v exit hv =>
      rw [hv] at hstate
      obtain rfl := hstate
      obtain ⟨hq,hp⟩ := emitWrapped_queue cfg
        { t with guardNeighbors := t.guardNeighbors.filter fun e => isFresh t.now e.2 } d guard exit
        .drop none
      have hle := carried_emitWrapped_le cfg
        { t with guardNeighbors := t.guardNeighbors.filter fun e => isFresh t.now e.2 } d guard exit
        .drop none
      refine ⟨hq,hp.trans hpushed,?_⟩
      simp only [carried,List.length_append,List.length_map,Option.toList_none,
        List.length_nil] at hle ⊢
      rw [← ho]
      omega
    · next v hv =>
      rw [hv] at hstate
      obtain rfl := hstate
      refine ⟨rfl,hpushed,?_⟩
      simp only [carried,List.length_append,List.length_map,Option.toList_none,List.length_nil]
      rw [ho]
      omega

theorem Recorded.emitCell (h : Recorded cfg s) (d : Draws) :
    Recorded cfg (emitCell cfg s d) := by
  have hlook := looked_currentGuard s d.guard
  unfold OnionCircuit.emitCell
  split
  · next u hu =>
    rw [hu] at hlook
    exact h.looked hlook
  next u guard hu =>
  rw [hu] at hlook
  have hu := h.looked hlook
  have htaken := taken_takeItem cfg guard.peerId d.exit u u.queue
  have hrec : ∀ t item, takeItem cfg guard.peerId d.exit u u.queue = (t,item) →
      Recorded cfg t := by
    intro t item ht
    rw [ht] at htaken
    exact hu.mono htaken.pushed htaken.table htaken.queue fun m hm => .inl (htaken.outbox ▸ hm)
  split
  · next t item ht =>
    refine (hrec t _ ht).emitWrapped d guard item.exit fun n hn => ?_
    cases hn
    rw [ht] at htaken
    obtain ⟨y,hy,htk,hpay,-⟩ := htaken.item item rfl
    rw [htaken.pushed,htk,hpay]
    exact (hu.queued y hy).1
  · next t ht =>
    have hstate := pickExit_state cfg t guard.peerId [] d.exit
    have hfilter : Recorded cfg
        { t with guardNeighbors := t.guardNeighbors.filter fun e => isFresh t.now e.2 } :=
      (hrec t none ht).mono rfl (fun e he => (List.mem_filter.mp he).1) (fun _ hx => hx)
        fun _ hm => .inl hm
    split
    · next v exit hv =>
      rw [hv] at hstate
      obtain rfl := hstate
      exact hfilter.emitWrapped d guard exit fun n hn => (by cases hn)
    · next v hv =>
      rw [hv] at hstate
      obtain rfl := hstate
      exact hfilter

/-- What an event other than a tick does: at most one push. -/
structure Grows (cfg : Config) (s t : State) : Prop where
  recorded : Recorded cfg s → Recorded cfg t
  carried : t.pushed = s.pushed ∧ carried t = carried s ∨
    ∃ payload, t.pushed = s.pushed ++ [payload] ∧
      (OnionCircuit.carried t).Perm (OnionCircuit.carried s ++ [s.pushed.length])

theorem Looked.grows (h : Looked s t) : Grows cfg s t :=
  ⟨fun hr => hr.looked h,.inl ⟨h.pushed,h.carried⟩⟩

theorem Grows.congr {v : State} (h : Grows cfg s t) (hq : v.queue = t.queue)
    (ho : v.outbox = t.outbox) (hp : v.pushed = t.pushed)
    (ht : ∀ e ∈ v.guardNeighbors, e ∈ t.guardNeighbors) : Grows cfg s v := by
  have hc : OnionCircuit.carried v = OnionCircuit.carried t := by
    unfold OnionCircuit.carried
    rw [hq,ho]
  refine ⟨fun hr => (h.recorded hr).mono hp ht (fun x hx => hq ▸ hx) fun m hm => .inl (ho ▸ hm),?_⟩
  rw [hc,hp]
  exact h.carried

theorem pushed_append {pushed : List ExitPayload} {n : Nat} {payload : ExitPayload}
    (h : pushed[n]? = some payload) (new : List ExitPayload) :
    (pushed ++ new)[n]? = some payload := by
  have hlt := (List.getElem?_eq_some_iff.mp h).1
  rw [List.getElem?_append_left hlt,h]

theorem Recorded.push {item : QueuedCell} (h : Recorded cfg s) (hn : item.ticket = s.pushed.length)
    (hid : NodeIdentity.isPeerId item.exit.peerId = true) :
    Recorded cfg { s with queue := s.queue ++ [item], pushed := s.pushed ++ [item.payload] } where
  ids := h.ids
  queued x hx := by
    rcases List.mem_append.mp hx with hx | hx
    · obtain ⟨hpay,hexit⟩ := h.queued x hx
      exact ⟨pushed_append hpay _,hexit⟩
    · obtain rfl := List.mem_singleton.mp hx
      exact ⟨by simp [hn],hid⟩
  sent m hm cell ticket hcell := by
    obtain ⟨payload,r,guard,exit,hpay,hrest⟩ := h.sent m hm cell ticket hcell
    exact ⟨payload,r,guard,exit,pushed_append hpay _,hrest⟩

theorem grows_requestGuardNeighbors (s : State) (draw : UInt32) :
    Grows cfg s (requestGuardNeighbors s draw) := by
  have hlook := looked_currentGuard s draw
  unfold requestGuardNeighbors
  split
  · next u guard hu =>
    rw [hu] at hlook
    refine ⟨fun hr => (hr.looked hlook).mono rfl (fun _ he => he) (fun _ hx => hx) fun m hm => ?_,
      .inl ⟨hlook.pushed,?_⟩⟩
    · rcases List.mem_append.mp hm with hm | hm
      · exact .inl hm
      · exact .inr (by rw [List.mem_singleton.mp hm])
    · rw [← hlook.carried]
      simp [carried,State.post,emitted_request]
  · next u hu =>
    rw [hu] at hlook
    exact hlook.grows

theorem grows_sendAttempt (s : State) (task : SendTask) (d : Draws) :
    Grows cfg s (sendAttempt cfg s task d).1 := by
  have hlook := looked_currentGuard s d.guard
  unfold sendAttempt
  split
  · next u hu =>
    rw [hu] at hlook
    exact hlook.grows
  next u guard hu =>
  rw [hu] at hlook
  have hstate := pickExit_state cfg u guard.peerId task.triedExits d.exit
  split
  · next v hv =>
    rw [hv] at hstate
    obtain rfl := hstate
    exact hlook.grows.congr rfl rfl rfl fun e he => (List.mem_filter.mp he).1
  next v exit hv =>
  obtain ⟨⟨info,hmem,-⟩,-⟩ := pickExit_some hv
  rw [hv] at hstate
  obtain rfl := hstate
  have hgrows : Grows cfg s
      { u with guardNeighbors := u.guardNeighbors.filter fun e => isFresh u.now e.2 } :=
    hlook.grows.congr rfl rfl rfl fun e he => (List.mem_filter.mp he).1
  dsimp only
  split
  · exact hgrows
  · refine ⟨fun hr => ?_,.inr ⟨task.payload,by rw [← hlook.pushed],?_⟩⟩
    · have hr' := hgrows.recorded hr
      have hid := hr'.ids _ hmem
      have hpush : ∀ item : QueuedCell, item = ⟨task.payload,exit,guard.peerId,u.pushed.length⟩ →
          Recorded cfg { u with
            guardNeighbors := u.guardNeighbors.filter fun e => isFresh u.now e.2
            queue := u.queue ++ [item], pushed := u.pushed ++ [item.payload] } := by
        rintro item rfl
        exact hr'.push rfl hid
      exact hpush _ rfl
    · rw [← hlook.carried,← hlook.pushed]
      simp only [carried,List.map_append,List.map_cons,List.map_nil,List.append_assoc]
      exact List.perm_append_comm.append_left _

theorem ids_pex (h : ∀ e ∈ s.guardNeighbors, NodeIdentity.isPeerId e.1 = true) (senderId : String)
    (msg : Val) : ∀ e ∈ (handleGuardPex cfg s senderId msg).guardNeighbors,
      NodeIdentity.isPeerId e.1 = true := by
  unfold handleGuardPex
  dsimp only
  split
  · exact h
  split
  · refine mem_mergeEntries (P := fun id _ => NodeIdentity.isPeerId id = true) h ?_
    intro entry _ id pubkey _ _ hverify
    simp only [NodeIdentity.verifyClaim,Bool.and_eq_true] at hverify
    simp only [NodeIdentity.isPeerId,Bool.and_eq_true]
    exact hverify.1.1
  · exact h

theorem grows_step {a : Action} (hs : step cfg s a = some t) (htick : ∀ d, a ≠ .tick d)
    (hstop : a ≠ .stop) : Grows cfg s t := by
  have hrefl : Grows cfg s s := ⟨id,.inl ⟨rfl,rfl⟩⟩
  cases a with
  | clock ms =>
    cases hs
    exact hrefl.congr rfl rfl rfl fun _ he => he
  | peer id peer =>
    cases peer <;> cases hs <;> exact hrefl.congr rfl rfl rfl fun _ he => he
  | pexResponse senderId msg =>
    cases hs
    have hsame : (handleGuardPex cfg s senderId msg).pushed = s.pushed ∧
        (handleGuardPex cfg s senderId msg).queue = s.queue ∧
          (handleGuardPex cfg s senderId msg).outbox = s.outbox := by
      unfold handleGuardPex
      dsimp only
      repeat' split
      all_goals exact ⟨rfl,rfl,rfl⟩
    obtain ⟨hp,hq,ho⟩ := hsame
    refine ⟨fun hr => ⟨ids_pex hr.ids senderId msg,?_,?_⟩,.inl ⟨hp,?_⟩⟩
    · rw [hp,hq]
      exact hr.queued
    · rw [hp,ho]
      exact hr.sent
    · unfold carried
      rw [hq,ho]
  | pexTimer draw =>
    cases hs
    exact grows_requestGuardNeighbors s draw
  | tick d => exact absurd rfl (htick d)
  | resetPinnedGuard =>
    cases hs
    exact (looked_setGuard s none (.fin 0)).grows
  | send payload d =>
    cases hs
    unfold OnionCircuit.send
    split
    · exact hrefl
    · exact (grows_sendAttempt s { payload := payload } d).congr rfl rfl rfl fun _ he => he
  | echo i seen d =>
    obtain ⟨task,-,hs⟩ := Option.bind_eq_some_iff.mp hs
    simp only [Option.ite_none_right_eq_some,Option.some.injEq] at hs
    obtain ⟨-,rfl⟩ := hs
    unfold resumeSend
    split
    · exact hrefl.congr rfl rfl rfl fun _ he => he
    · exact (grows_sendAttempt s task d).congr rfl rfl rfl fun _ he => he
  | start draw =>
    cases hs
    unfold OnionCircuit.start
    split
    · exact hrefl
    · have hgrows : Grows cfg { s with running := true } _ := grows_requestGuardNeighbors _ draw
      exact ⟨fun hr => hgrows.recorded (hr.mono rfl (fun _ he => he) (fun _ hx => hx)
        fun _ hm => .inl hm),hgrows.carried⟩
  | stop => exact absurd rfl hstop

def Stale (s : State) : Prop := ∀ e ∈ s.guardNeighbors, isFresh s.now e.2 = false

/-- A tick with a guard finds the queue empty, or a guard with a neighbour that was named of
late, an exit for the first entry, and a payload that fits. -/
def Ready (cfg : Config) (s : State) (d : Draws) : Prop :=
  ∀ u guard, currentGuard s d.guard = (u,some guard) →
    ∀ item rest, u.queue = item :: rest → ¬Stale u ∧
      ∃ exit, exitOf cfg u guard.peerId d.exit item = some exit ∧
        Wrappable cfg.router item.payload guard exit

/-- Nothing that was pushed is lost, and a tick with nothing but old neighbours leaves the
queue. -/
def Keeps (cfg : Config) (s : State) (a : Action) : Prop :=
  ∀ t, step cfg s a = some t → Conserved cfg t ∧
    ∀ d u guard, a = .tick d → currentGuard s d.guard = (u,some guard) → Stale u →
      t.queue = s.queue

theorem emitCell_cover (hg : currentGuard s d.guard = (u,some guard)) (hq : u.queue = []) :
    carried (emitCell cfg s d) = carried u := by
  unfold emitCell
  rw [hg]
  dsimp only
  rw [hq]
  simp only [takeItem]
  have hstate := pickExit_state cfg { u with queue := [] } guard.peerId [] d.exit
  split
  · next v exit hv =>
    rw [hv] at hstate
    obtain rfl := hstate
    cases hw : wrapCircuit cfg.router d.entropy .drop [guard,exit] with
    | none => simp [emitWrapped,hw,carried,hq]
    | some cell =>
      rw [carried_emitWrapped hw]
      simp [carried,hq]
  · next v hv =>
    rw [hv] at hstate
    obtain rfl := hstate
    simp [carried,hq]

theorem tick_conserved (h : Conserved cfg s) (hbox : SealsTo cfg.router) (hr : Ready cfg s d) :
    Conserved cfg (emitCell cfg s d) := by
  refine ⟨h.toRecorded.emitCell d,?_⟩
  have hlook := looked_currentGuard s d.guard
  cases hg : currentGuard s d.guard with
  | mk u found =>
  rw [hg] at hlook
  have honce : (carried u).Perm (List.range u.pushed.length) := by
    rw [hlook.carried,hlook.pushed]
    exact h.once
  cases found with
  | none =>
    have hsame : emitCell cfg s d = u := by
      unfold emitCell
      rw [hg]
    rw [hsame]
    exact honce
  | some guard =>
    cases hq : u.queue with
    | nil =>
      rw [emitCell_cover hg hq,(emitCell_taken hg).2.1]
      exact honce
    | cons item rest =>
      obtain ⟨-,exit,hx,hwrap⟩ := hr u guard hg item rest hq
      have hid : NodeIdentity.isPeerId exit.peerId = true := by
        unfold exitOf at hx
        split at hx
        · cases hx
          exact ((h.toRecorded.looked hlook).queued item (by rw [hq]; simp)).2
        · have hpick := pickExit_some (Prod.ext (pickExit_state cfg u guard.peerId [] d.exit) hx)
          obtain ⟨⟨info,hmem,-⟩,-⟩ := hpick
          exact (h.toRecorded.looked hlook).ids _ (List.mem_filter.mp hmem).1
      obtain ⟨cell,hcell⟩ := hwrap.wraps hbox hid d.entropy
      obtain ⟨table,heq⟩ := emitCell_lead hg hq hx
      rw [(emitCell_taken hg).2.1,heq,carried_emitWrapped hcell]
      have hmove : (carried { u with queue := rest, guardNeighbors := table } ++
          [item.ticket]).Perm (carried u) := by
        simp only [carried,hq,List.map_cons]
        exact List.perm_append_singleton _ _
      exact hmove.trans honce

/-- Without what makes a tick ready, it loses an entry or touches a queue that it should
leave. -/
theorem ready_of_keeps (h : Conserved cfg s) (hk : Keeps cfg s (.tick d)) : Ready cfg s d := by
  intro u guard hg item rest hq
  obtain ⟨hafter,hleave⟩ := hk _ rfl
  have hlook := looked_currentGuard s d.guard
  rw [hg] at hlook
  obtain ⟨hqueue,hpushed,hle⟩ : (emitCell cfg s d).queue = _ ∧ _ ∧ _ := emitCell_taken hg
  have htaken := taken_takeItem cfg guard.peerId d.exit u u.queue
  -- every push is somewhere before the tick, and it has to be after it
  have hall : (carried (emitCell cfg s d)).length = (emitted u.outbox).length+(rest.length+1) := by
    have hbefore := h.once.length_eq
    have hlen := hafter.once.length_eq
    rw [← hlook.carried,← hlook.pushed] at hbefore
    simp only [carried,hq,List.length_append,List.length_map,List.length_cons,
      List.length_range] at hbefore
    rw [List.length_range,hpushed] at hlen
    omega
  refine ⟨fun hstale => ?_,?_⟩
  · have hsame := hleave d u guard rfl hg hstale
    rw [hqueue,← hlook.queue] at hsame
    have hcount := htaken.count
    cases hitem : (takeItem cfg guard.peerId d.exit u u.queue).2 with
    | none =>
      rw [htaken.empty hitem,hq] at hsame
      cases hsame
    | some x =>
      rw [hsame,hitem] at hcount
      simp at hcount
  · cases hx : exitOf cfg u guard.peerId d.exit item with
    | none =>
      have hskip := (taken_takeItem cfg guard.peerId d.exit { u with
        guardNeighbors := u.guardNeighbors.filter fun e => isFresh u.now e.2 } rest).count
      rw [hq,takeItem_skip hx] at hle
      omega
    | some exit =>
      refine ⟨exit,rfl,?_⟩
      cases hw : wrapCircuit cfg.router d.entropy item.payload [guard,exit] with
      | some cell => exact wrapCircuit_wrappable hw
      | none =>
        obtain ⟨table,heq⟩ := emitCell_lead hg hq hx
        rw [heq,emitWrapped,hw] at hall
        simp [carried] at hall
        omega

theorem conserved_initial (cfg : Config) : Conserved cfg {} where
  ids _ he := by cases he
  queued _ hx := by cases hx
  sent _ hm := by cases hm
  once := List.Perm.refl []

theorem conserved_step {a : Action} (h : Conserved cfg s) (hs : step cfg s a = some t)
    (htick : ∀ d, a ≠ .tick d) (hstop : a ≠ .stop) : Conserved cfg t := by
  have hgrows := grows_step hs htick hstop
  refine ⟨hgrows.recorded h.toRecorded,?_⟩
  rcases hgrows.carried with ⟨hp,hc⟩ | ⟨payload,hp,hc⟩
  · rw [hp,hc]
    exact h.once
  · rw [hp,List.length_append,List.length_singleton,List.range_succ]
    exact hc.trans (h.once.append_right _)

end

def isWrappable (p : Primitives) (payload : ExitPayload) (guard exit : OnionHop) : Bool :=
  (encode p payload.toVal).any (fun bs => bs.length ≤ exitLayerSize-4) &&
    (p.toCurvePublicKey exit.pubkey).isSome && (p.toCurvePublicKey guard.pubkey).isSome

theorem wrappable_of_is {p : Primitives} {payload : ExitPayload} {guard exit : OnionHop}
    (h : isWrappable p payload guard exit = true) : Wrappable p payload guard exit := by
  simp only [isWrappable,Bool.and_eq_true,Option.any_eq_true,decide_eq_true_eq] at h
  exact ⟨h.1.1,h.1.2,h.2⟩

def isReady (cfg : Config) (s : State) (d : Draws) : Bool :=
  match currentGuard s d.guard with
  | (_,none) => true
  | (u,some guard) =>
    match u.queue with
    | [] => true
    | item :: _ => u.guardNeighbors.any (fun e => isFresh u.now e.2) &&
        (exitOf cfg u guard.peerId d.exit item).any fun exit =>
          isWrappable cfg.router item.payload guard exit

theorem ready_of_is {cfg : Config} {s : State} {d : Draws} (h : isReady cfg s d = true) :
    Ready cfg s d := by
  intro u guard hg item rest hq
  simp only [isReady,hg,hq,Bool.and_eq_true,List.any_eq_true,Option.any_eq_true] at h
  obtain ⟨⟨e,he,hfresh⟩,exit,hx,hwrap⟩ := h
  refine ⟨fun hstale => ?_,exit,hx,wrappable_of_is hwrap⟩
  rw [hstale e he] at hfresh
  cases hfresh

/-- A hint is sent to the guard and goes out at the next tick. -/
def emittedRun : List Action :=
  [.peer "guard" (some (samplePeer 1)),.start 0,.pexResponse "guard" (sampleResponse 2),
    .send (.exitHint [1]) sampleDraws,.tick sampleDraws,.tick sampleDraws]

/-- The guard goes before the entry for it went out. -/
def discardRun : List Action :=
  [.peer "guard" (some (samplePeer 1)),.start 0,.pexResponse "guard" (sampleResponse 2),
    .send (.exitHint [1]) sampleDraws,.peer "guard" none,.peer "other" (some (samplePeer 3)),
    .tick sampleDraws]

end OnionCircuit
