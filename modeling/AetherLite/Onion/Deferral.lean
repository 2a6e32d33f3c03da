import AetherLite.Gossip.SeenCache
import AetherLite.Lib.Tally
import AetherLite.Onion.OnionCircuit

/-! The cells a node passes on for others: each waits for its timer, and there is a limit for
all of them and one for each sender. -/
set_option autoImplicit false

namespace OnionRelay

open Js OnionRouter OnionCircuit

def maxPending : Nat := 128
def maxPendingPerPeer : Nat := 16

/-- What a callback is to do. -/
inductive Work where
  | exit (payload : ExitPayload) (senderId : String)
  | relay (nextHop : String) (padded : Bytes)

structure Job where
  senderId : String
  work : Work

/-- The timers that are set and the two records of them. What ran is kept with its timer. -/
structure Deferred where
  timers : JsMap Nat Job := []
  nextTimer : Nat := 0
  pending : List Nat := []
  pendingPerPeer : JsMap String Nat := []
  ran : List (Nat × Job) := []

namespace Deferred

def defer (d : Deferred) (job : Job) : Deferred :=
  let perPeer := (JsMap.get d.pendingPerPeer job.senderId).getD 0
  if d.pending.length ≥ maxPending || perPeer ≥ maxPendingPerPeer then d
  else
    { d with
      pendingPerPeer := JsMap.set d.pendingPerPeer job.senderId (perPeer+1)
      timers := JsMap.set d.timers d.nextTimer job
      nextTimer := d.nextTimer+1
      pending := d.pending ++ [d.nextTimer] }

/-- The callback of a timer, up to where it does its work. -/
def fire (d : Deferred) (timer : Nat) (job : Job) : Deferred :=
  let n := (JsMap.get d.pendingPerPeer job.senderId).getD 1-1
  { d with
    timers := JsMap.delete d.timers timer
    pending := d.pending.filter fun t => t != timer
    pendingPerPeer :=
      if n > 0 then JsMap.set d.pendingPerPeer job.senderId n
      else JsMap.delete d.pendingPerPeer job.senderId
    ran := d.ran ++ [(timer,job)] }

/-- `clearTimeout` for each of the set. -/
def clear (d : Deferred) : Deferred :=
  { d with
    timers := d.timers.filter fun e => !d.pending.contains e.1
    pending := []
    pendingPerPeer := [] }

end Deferred

/-- What is done at the end of the delay. -/
inductive Effect where
  | handle (handler : Nat) (payload : ExitPayload) (senderId : String)
  | send (nextHop : String) (onionBytes : Bytes)

structure Config where
  myPeerId : String
  router : OnionRouter.Primitives
  generichash : Bytes → Bytes

structure State extends Deferred where
  running : Bool := false
  seenCells : SeenCache := {}
  /-- Each handler with the type it was added for. -/
  exitHandlers : List (String × Nat) := []
  peers : JsMap String Peer := []
  effects : List Effect := []

def typeOf : ExitPayload → String
  | .exitFluff _ _ _ => "exit_fluff"
  | .exitHint _ => "exit_hint"
  | .drop => "drop"

/-- An exception of a handler is caught. What a handler calls in turn is a later action: the
records are up to date before the work begins. -/
def perform (s : State) : Work → State
  | .exit payload senderId =>
    let handlers := s.exitHandlers.filter fun h => h.1 == typeOf payload
    { s with effects := s.effects ++ handlers.map fun h => .handle h.2 payload senderId }
  | .relay nextHop padded =>
    match JsMap.get s.peers nextHop with
    | none => s
    | some peer =>
      if peer.isConnected && peer.isVerified then
        { s with effects := s.effects ++ [.send nextHop padded] }
      else s

/-- The keys are none without an identity; the delay before a timer fires is not fixed. -/
inductive Action where
  | cell (senderId : String) (msg : Val) (now : Nat) (keys : Option (Bytes × Bytes))
      (random : Nat → Bytes)
  | fire (timer : Nat)
  | start
  | stop
  | destroy
  | onExit (type : String) (handler : Nat)
  | peers (peers : JsMap String Peer)
  | cleanup (now : Nat)

def Action.isStop : Action → Bool
  | .stop | .destroy => true
  | _ => false

def State.defer (s : State) (senderId : String) (work : Work) : State :=
  { s with toDeferred := s.toDeferred.defer ⟨senderId,work⟩ }

def stop (s : State) : State := { s with toDeferred := s.toDeferred.clear, running := false }

section
variable (cfg : Config)

def relay (s : State) (senderId nextHop : String) (innerOnion : Bytes) (random : Nat → Bytes) :
    State :=
  if nextHop = senderId || nextHop = cfg.myPeerId then s
  else if innerOnion.length ≠ sealedExitLayerSize then s
  else match padCell random innerOnion cellSize with
  | none => s
  | some padded => s.defer senderId (.relay nextHop padded)

def handleCell (s : State) (senderId : String) (msg : Val) (now : Nat)
    (keys : Option (Bytes × Bytes)) (random : Nat → Bytes) : State :=
  match msg.field "onionBytes" with
  | .bytes cell =>
    if cell.length ≠ cellSize then s
    else
      let cellId := Bytes.toHex (cfg.generichash cell)
      if s.seenCells.has cellId then s
      else
        let s := { s with seenCells := s.seenCells.add cellId now }
        match keys with
        | none => s
        | some (pk,sk) =>
          match unwrapWithCurveKeys cfg.router cell pk sk with
          | none => s
          | some (.relay nextHop innerOnion) => relay cfg s senderId nextHop innerOnion random
          | some (.exit .drop) => s
          | some (.exit payload) => s.defer senderId (.exit payload senderId)
  | _ => s

/-- A timer that is not set does not fire. -/
def step (s : State) : Action → State
  | .cell senderId msg now keys random => handleCell cfg s senderId msg now keys random
  | .fire timer =>
    match JsMap.get s.timers timer with
    | none => s
    | some job => perform { s with toDeferred := s.toDeferred.fire timer job } job.work
  | .start => { s with running := true }
  | .stop => stop s
  | .destroy => { stop s with seenCells := {}, exitHandlers := [] }
  | .onExit type handler => { s with exitHandlers := s.exitHandlers ++ [(type,handler)] }
  | .peers peers => { s with peers := peers }
  | .cleanup now => { s with seenCells := s.seenCells.cleanup now }

def after (s : State) (as : List Action) : State := as.foldl (step cfg) s

end

/-! What a step does to the timers. -/

section
variable {cfg : Config} {s : State} {a : Action}

theorem perform_deferred (s : State) (w : Work) : (perform s w).toDeferred = s.toDeferred := by
  cases w with
  | exit payload senderId => rfl
  | relay nextHop padded =>
    unfold perform
    dsimp only
    split
    · rfl
    · split <;> rfl

theorem relay_deferred (s : State) (senderId nextHop : String) (innerOnion : Bytes)
    (random : Nat → Bytes) :
    (relay cfg s senderId nextHop innerOnion random).toDeferred = s.toDeferred ∨
      ∃ job, (relay cfg s senderId nextHop innerOnion random).toDeferred =
        s.toDeferred.defer job := by
  unfold relay
  split
  · exact .inl rfl
  split
  · exact .inl rfl
  split
  · exact .inl rfl
  · exact .inr ⟨_,rfl⟩

theorem handleCell_deferred (s : State) (senderId : String) (msg : Val) (now : Nat)
    (keys : Option (Bytes × Bytes)) (random : Nat → Bytes) :
    (handleCell cfg s senderId msg now keys random).toDeferred = s.toDeferred ∨
      ∃ job, (handleCell cfg s senderId msg now keys random).toDeferred =
        s.toDeferred.defer job := by
  unfold handleCell
  split
  · split
    · exact .inl rfl
    dsimp only
    split
    · exact .inl rfl
    split
    · exact .inl rfl
    split
    · exact .inl rfl
    · exact relay_deferred _ _ _ _ _
    · exact .inl rfl
    · exact .inr ⟨_,rfl⟩
  · exact .inl rfl

/-- A step that is no stop, on the timers. -/
def Move (d d' : Deferred) : Prop :=
  d' = d ∨ (∃ job, d' = d.defer job) ∨
    ∃ timer job, JsMap.get d.timers timer = some job ∧ d' = d.fire timer job

theorem step_deferred (cfg : Config) (s : State) (a : Action) :
    (a.isStop = true ∧ (step cfg s a).toDeferred = s.toDeferred.clear) ∨
      (a.isStop = false ∧ Move s.toDeferred (step cfg s a).toDeferred) := by
  cases a with
  | cell senderId msg now keys random =>
    exact .inr ⟨rfl,(handleCell_deferred s senderId msg now keys random).imp_right .inl⟩
  | fire timer =>
    refine .inr ⟨rfl,?_⟩
    unfold step
    dsimp only
    split
    · exact .inl rfl
    · next job hjob => exact .inr (.inr ⟨timer,job,hjob,perform_deferred _ _⟩)
  | stop => exact .inl ⟨rfl,rfl⟩
  | destroy => exact .inl ⟨rfl,rfl⟩
  | start => exact .inr ⟨rfl,.inl rfl⟩
  | onExit type handler => exact .inr ⟨rfl,.inl rfl⟩
  | peers peers => exact .inr ⟨rfl,.inl rfl⟩
  | cleanup now => exact .inr ⟨rfl,.inl rfl⟩

end

/-! The two records agree with the timers. -/

namespace Deferred

def senders (d : Deferred) : List String := d.timers.map fun e => e.2.senderId

structure Accounted (d : Deferred) : Prop where
  timers_eq : JsMap.keys d.timers = d.pending
  nodup : d.pending.Nodup
  fresh : ∀ t ∈ d.pending, t < d.nextTimer
  counts : Tally.Counts id d.pendingPerPeer d.senders
  length_le : d.pending.length ≤ 128
  perPeer_le : ∀ peer, d.senders.count peer ≤ 16
  ran_old : ∀ e ∈ d.ran, e.1 < d.nextTimer ∧ e.1 ∉ d.pending
  ran_once : (d.ran.map Prod.fst).Nodup

section
variable {d : Deferred} {timer : Nat} {job : Job}

theorem accounted_nil : Accounted {} where
  timers_eq := rfl
  nodup := List.nodup_nil
  fresh t ht := by cases ht
  counts := Tally.counts_nil id
  length_le := by decide
  perPeer_le peer := by simp [senders]
  ran_old e he := by cases he
  ran_once := List.nodup_nil

theorem perPeer_eq (h : Accounted d) (peer : String) :
    (JsMap.get d.pendingPerPeer peer).getD 0 = d.senders.count peer := by
  cases hg : JsMap.get d.pendingPerPeer peer with
  | none =>
    have hzero := h.counts.get_none hg
    simpa using hzero.symm
  | some n =>
    have hn := (h.counts.get_some hg).1
    simpa using hn

theorem Accounted.next_new (h : Accounted d) : JsMap.get d.timers d.nextTimer = none := by
  rw [JsMap.get_eq_none_iff,h.timers_eq]
  intro hmem
  exact Nat.lt_irrefl _ (h.fresh _ hmem)

/-- A job that is over a limit is dropped; any other gets a timer of its own. -/
theorem defer_cases (h : Accounted d) (job : Job) :
    d.defer job = d ∨ d.pending.length < 128 ∧ d.senders.count job.senderId < 16 ∧
      d.defer job =
        { d with
          pendingPerPeer := JsMap.set d.pendingPerPeer job.senderId (d.senders.count job.senderId+1)
          timers := JsMap.set d.timers d.nextTimer job
          nextTimer := d.nextTimer+1
          pending := d.pending ++ [d.nextTimer] } := by
  unfold defer
  simp only [perPeer_eq h]
  split
  · exact .inl rfl
  · next hroom =>
    simp only [maxPending,maxPendingPerPeer,ge_iff_le,Bool.or_eq_true,decide_eq_true_eq,not_or,
      not_le] at hroom
    exact .inr ⟨hroom.1,hroom.2,rfl⟩

theorem Accounted.defer (h : Accounted d) (job : Job) : Accounted (d.defer job) := by
  obtain heq | ⟨hlen,hpeer,heq⟩ := defer_cases h job
  · rw [heq]
    exact h
  have hsenders : (d.defer job).senders = d.senders ++ [job.senderId] := by
    rw [heq]
    simp [senders,JsMap.set_of_get_none job h.next_new]
  rw [heq] at hsenders ⊢
  constructor
  · simp [← h.timers_eq,JsMap.keys,JsMap.set_of_get_none job h.next_new]
  · have hnew : d.nextTimer ∉ d.pending := fun hmem => Nat.lt_irrefl _ (h.fresh _ hmem)
    exact h.nodup.append (List.nodup_singleton _) (List.disjoint_singleton.mpr hnew)
  · intro t ht
    obtain ht | ht := List.mem_append.mp ht
    · have hlt := h.fresh t ht
      dsimp only
      omega
    · simp only [List.mem_singleton] at ht
      dsimp only
      omega
  · rw [hsenders]
    apply h.counts.set
    · exact Nat.succ_pos _
    · simp [List.count_append]
    · intro peer hne
      simp [List.count_append,Ne.symm hne]
  · simp only [List.length_append,List.length_singleton]
    omega
  · intro peer
    have hle := h.perPeer_le peer
    rw [hsenders,List.count_append,List.count_singleton]
    split
    · next hpeer' =>
      have hpeer' : job.senderId = peer := by simpa using hpeer'
      rw [hpeer'] at hpeer
      omega
    · omega
  · intro e he
    obtain ⟨hlt,hnot⟩ := h.ran_old e he
    simp only [List.mem_append,List.mem_singleton,not_or]
    exact ⟨by omega,hnot,by omega⟩
  · exact h.ran_once

theorem Accounted.timer_mem (h : Accounted d) (hget : JsMap.get d.timers timer = some job) :
    timer ∈ d.pending := by
  rw [← h.timers_eq]
  exact List.mem_map_of_mem (JsMap.mem_of_get hget)

/-- The timer that fires is no longer counted for its sender. -/
theorem Accounted.senders_fire (h : Accounted d) (hget : JsMap.get d.timers timer = some job)
    (peer : String) : (d.fire timer job).senders.count peer =
      d.senders.count peer-(if peer = job.senderId then 1 else 0) := by
  have hn : (JsMap.keys d.timers).Nodup := h.timers_eq ▸ h.nodup
  obtain ⟨l,r,hsplit,hdelete⟩ := JsMap.delete_of_get_some hn hget
  unfold senders fire
  rw [hdelete,hsplit]
  simp only [List.map_append,List.map_cons,List.count_append,List.count_cons]
  by_cases hp : peer = job.senderId
  · simp [hp]
  · simp [hp,Ne.symm hp]

theorem Accounted.fire (h : Accounted d) (hget : JsMap.get d.timers timer = some job) :
    Accounted (d.fire timer job) := by
  have hmem := h.timer_mem hget
  have hcount := h.senders_fire hget
  constructor
  · simp only [Deferred.fire,JsMap.keys_delete,h.timers_eq]
  · exact h.nodup.filter _
  · intro t ht
    exact h.fresh t (List.mem_of_mem_filter ht)
  · -- the sender has a count, because the timer is one of its own
    have hsender : 0 < d.senders.count job.senderId := by
      rw [List.count_pos_iff]
      exact List.mem_map_of_mem (JsMap.mem_of_get hget)
    have hother : ∀ peer, peer ≠ job.senderId →
        (d.fire timer job).senders.count peer = d.senders.count peer := by
      intro peer hne
      simp [hcount,hne]
    have hown := hcount job.senderId
    rw [if_pos rfl] at hown
    have hperPeer := perPeer_eq h job.senderId
    have hn : (JsMap.get d.pendingPerPeer job.senderId).getD 1-1 =
        d.senders.count job.senderId-1 := by
      cases hg : JsMap.get d.pendingPerPeer job.senderId with
      | none =>
        rw [hg,Option.getD_none] at hperPeer
        omega
      | some n =>
        rw [hg,Option.getD_some] at hperPeer
        rw [Option.getD_some,hperPeer]
    generalize hsenders : (d.fire timer job).senders = left at *
    unfold Deferred.fire
    dsimp only
    rw [hn]
    split
    · next hpos => exact h.counts.set hpos hown.symm hother
    · exact h.counts.delete (by omega) hother
  · exact (List.length_filter_le _ _).trans h.length_le
  · intro peer
    have hle := h.perPeer_le peer
    rw [hcount]
    omega
  · intro e he
    obtain he | he := List.mem_append.mp he
    · obtain ⟨hlt,hnot⟩ := h.ran_old e he
      exact ⟨hlt,fun hin => hnot (List.mem_of_mem_filter hin)⟩
    · obtain rfl := List.mem_singleton.mp he
      exact ⟨h.fresh _ hmem,by simp [Deferred.fire]⟩
  · have hnew : timer ∉ d.ran.map Prod.fst := by
      intro hran
      obtain ⟨e,he,rfl⟩ := List.mem_map.mp hran
      exact (h.ran_old e he).2 hmem
    rw [Deferred.fire,List.map_append]
    exact h.ran_once.append (List.nodup_singleton _) (List.disjoint_singleton.mpr hnew)

theorem Accounted.clear_eq (h : Accounted d) :
    d.clear = { d with timers := [], pending := [], pendingPerPeer := [] } := by
  have hnone : d.timers.filter (fun e => !d.pending.contains e.1) = [] := by
    rw [List.filter_eq_nil_iff]
    intro e he
    have hin : e.1 ∈ d.pending := h.timers_eq ▸ List.mem_map_of_mem he
    simp [hin]
  rw [Deferred.clear,hnone]

theorem Accounted.clear (h : Accounted d) : Accounted d.clear := by
  rw [h.clear_eq]
  exact {
    timers_eq := rfl
    nodup := List.nodup_nil
    fresh := fun t ht => by cases ht
    counts := Tally.counts_nil id
    length_le := Nat.zero_le _
    perPeer_le := fun peer => Nat.zero_le _
    ran_old := fun e he => ⟨(h.ran_old e he).1,List.not_mem_nil⟩
    ran_once := h.ran_once }

/-! What becomes of one job. -/

def Waiting (timer : Nat) (job : Job) (d : Deferred) : Prop :=
  JsMap.get d.timers timer = some job ∧ timer ∈ d.pending ∧ timer ∉ d.ran.map Prod.fst

def Ran (timer : Nat) (job : Job) (d : Deferred) : Prop :=
  (timer,job) ∈ d.ran ∧ (d.ran.map Prod.fst).count timer = 1 ∧ timer ∉ d.pending

/-- The number of the timer is used up, and the job did not run. -/
def Cancelled (timer : Nat) (d : Deferred) : Prop :=
  timer < d.nextTimer ∧ timer ∉ d.pending ∧ timer ∉ d.ran.map Prod.fst

theorem Accounted.waiting (h : Accounted d) (hget : JsMap.get d.timers timer = some job) :
    Waiting timer job d := by
  have hmem := h.timer_mem hget
  refine ⟨hget,hmem,?_⟩
  intro hran
  obtain ⟨e,he,rfl⟩ := List.mem_map.mp hran
  exact (h.ran_old e he).2 hmem

theorem Accounted.ran (h : Accounted d) (hran : (timer,job) ∈ d.ran) : Ran timer job d :=
  ⟨hran,List.count_eq_one_of_mem h.ran_once (List.mem_map_of_mem hran),(h.ran_old _ hran).2⟩

end

end Deferred

section
variable {d d' : Deferred} {timer : Nat} {job : Job}

open Deferred

theorem Move.accounted (hm : Move d d') (h : Accounted d) : Accounted d' := by
  obtain rfl | ⟨other,rfl⟩ | ⟨t,other,hget,rfl⟩ := hm
  · exact h
  · exact h.defer other
  · exact h.fire hget

theorem Move.ran_kept (hm : Move d d') (h : Accounted d) : d.ran <+: d'.ran := by
  obtain rfl | ⟨other,rfl⟩ | ⟨t,other,hget,rfl⟩ := hm
  · exact List.prefix_rfl
  · obtain heq | ⟨-,-,heq⟩ := defer_cases h other
    · rw [heq]
    · rw [heq]
  · exact List.prefix_append _ _

/-- A job that waits goes on waiting until its own timer fires. -/
theorem Move.waiting (hm : Move d d') (h : Accounted d) (hw : Waiting timer job d) :
    Waiting timer job d' ∨ Ran timer job d' := by
  have hd' := hm.accounted h
  obtain rfl | ⟨other,rfl⟩ | ⟨t,other,hget,rfl⟩ := hm
  · exact .inl hw
  · left
    apply hd'.waiting
    obtain heq | ⟨-,-,heq⟩ := defer_cases h other
    · rw [heq]
      exact hw.1
    · have hne : timer ≠ d.nextTimer := fun he => Nat.lt_irrefl _ (he ▸ h.fresh _ hw.2.1)
      rw [heq]
      dsimp only
      rw [JsMap.get_set_ne _ hne]
      exact hw.1
  · by_cases ht : timer = t
    · subst ht
      obtain rfl : job = other := Option.some.inj (hw.1.symm.trans hget)
      exact .inr (hd'.ran (by simp [fire]))
    · left
      apply hd'.waiting
      rw [fire]
      dsimp only
      rw [JsMap.get_delete_ne ht]
      exact hw.1

theorem Move.cancelled (hm : Move d d') (h : Accounted d) (hc : Cancelled timer d) :
    Cancelled timer d' := by
  obtain ⟨hlt,hpending,hran⟩ := hc
  obtain rfl | ⟨other,rfl⟩ | ⟨t,other,hget,rfl⟩ := hm
  · exact ⟨hlt,hpending,hran⟩
  · obtain heq | ⟨-,-,heq⟩ := defer_cases h other
    · rw [heq]
      exact ⟨hlt,hpending,hran⟩
    · rw [heq]
      have hne : timer ≠ d.nextTimer := by omega
      exact ⟨by dsimp only; omega,by simp [hpending,hne],hran⟩
  · have hne : timer ≠ t := by
      intro he
      exact hpending (he ▸ h.timer_mem hget)
    exact ⟨hlt,by simp [fire,hpending],by simpa [fire,hne] using hran⟩

theorem clear_cancelled (h : Accounted d) (hw : Waiting timer job d) : Cancelled timer d.clear := by
  rw [h.clear_eq]
  exact ⟨h.fresh _ hw.2.1,List.not_mem_nil,hw.2.2⟩

theorem cancelled_clear (h : Accounted d) (hc : Cancelled timer d) : Cancelled timer d.clear := by
  rw [h.clear_eq]
  exact ⟨hc.1,List.not_mem_nil,hc.2.2⟩

theorem Move.ran_cases (hm : Move d d') (h : Accounted d) {e : Nat × Job} (he : e ∈ d'.ran) :
    e ∈ d.ran ∨ JsMap.get d.timers e.1 = some e.2 := by
  obtain rfl | ⟨other,rfl⟩ | ⟨t,other,hget,rfl⟩ := hm
  · exact .inl he
  · obtain heq | ⟨-,-,heq⟩ := defer_cases h other
    · exact .inl (heq ▸ he)
    · rw [heq] at he
      exact .inl he
  · obtain he | he := List.mem_append.mp he
    · exact .inl he
    · obtain rfl := List.mem_singleton.mp he
      exact .inr hget

end

/-! Whole runs. -/

section
variable {cfg : Config} {s : State} {timer : Nat} {job : Job}

open Deferred

theorem accounted_step (cfg : Config) (h : Accounted s.toDeferred) (a : Action) :
    Accounted (step cfg s a).toDeferred := by
  obtain ⟨-,heq⟩ | ⟨-,hm⟩ := step_deferred cfg s a
  · rw [heq]
    exact h.clear
  · exact hm.accounted h

theorem accounted_after (cfg : Config) (h : Accounted s.toDeferred) (as : List Action) :
    Accounted (after cfg s as).toDeferred := by
  induction as generalizing s with
  | nil => exact h
  | cons a as ih => exact ih (accounted_step cfg h a)

theorem ran_after (h : Accounted s.toDeferred) (hr : (timer,job) ∈ s.ran) (as : List Action) :
    (timer,job) ∈ (after cfg s as).ran := by
  induction as generalizing s with
  | nil => exact hr
  | cons a as ih =>
    apply ih (accounted_step cfg h a)
    obtain ⟨-,heq⟩ | ⟨-,hm⟩ := step_deferred cfg s a
    · rw [heq]
      exact hr
    · exact (hm.ran_kept h).subset hr

theorem cancelled_after (h : Accounted s.toDeferred) (hc : Cancelled timer s.toDeferred)
    (as : List Action) : Cancelled timer (after cfg s as).toDeferred := by
  induction as generalizing s with
  | nil => exact hc
  | cons a as ih =>
    apply ih (accounted_step cfg h a)
    obtain ⟨-,heq⟩ | ⟨-,hm⟩ := step_deferred cfg s a
    · rw [heq]
      exact cancelled_clear h hc
    · exact hm.cancelled h hc

theorem waiting_after (h : Accounted s.toDeferred) (hw : Waiting timer job s.toDeferred)
    {as : List Action} (hstop : ∀ a ∈ as, a.isStop = false) :
    Waiting timer job (after cfg s as).toDeferred ∨ Ran timer job (after cfg s as).toDeferred := by
  induction as generalizing s with
  | nil => exact .inl hw
  | cons a as ih =>
    have hnext := accounted_step cfg h a
    have hrest : ∀ b ∈ as, b.isStop = false := fun b hb => hstop b (List.mem_cons_of_mem _ hb)
    obtain ⟨ha,-⟩ | ⟨-,hm⟩ := step_deferred cfg s a
    · rw [hstop a List.mem_cons_self] at ha
      cases ha
    · obtain hwait | hran := hm.waiting h hw
      · exact ih hnext hwait hrest
      · have hlast := accounted_after cfg hnext as
        exact .inr (hlast.ran (ran_after hnext hran.1 as))

theorem stopped_after (h : Accounted s.toDeferred) (hw : Waiting timer job s.toDeferred)
    {a : Action} (ha : a.isStop = true) (as : List Action) :
    Cancelled timer (after cfg s (a :: as)).toDeferred := by
  apply cancelled_after (accounted_step cfg h a)
  obtain ⟨-,heq⟩ | ⟨hnot,-⟩ := step_deferred cfg s a
  · rw [heq]
    exact clear_cancelled h hw
  · rw [ha] at hnot
    cases hnot

theorem ran_deferred (h : Accounted s.toDeferred) {as : List Action} {e : Nat × Job}
    (he : e ∈ (after cfg s as).ran) : e ∈ s.ran ∨ ∃ before rest, as = before ++ rest ∧
      JsMap.get (after cfg s before).timers e.1 = some e.2 := by
  induction as generalizing s with
  | nil => exact .inl he
  | cons a as ih =>
    obtain hran | ⟨before,rest,hsplit,hget⟩ := ih (accounted_step cfg h a) he
    · obtain ⟨-,heq⟩ | ⟨-,hm⟩ := step_deferred cfg s a
      · rw [heq] at hran
        exact .inl hran
      · obtain hold | hget := hm.ran_cases h hran
        · exact .inl hold
        · exact .inr ⟨[],a :: as,rfl,hget⟩
    · exact .inr ⟨a :: before,rest,by rw [hsplit]; rfl,hget⟩

end

/-- The records of what is pending add up. -/
structure Balanced (d : Deferred) : Prop where
  total : d.pending.length = (JsMap.values d.pendingPerPeer).sum
  length_le : d.pending.length ≤ 128
  each : ∀ e ∈ d.pendingPerPeer, 1 ≤ e.2 ∧ e.2 ≤ 16 ∧ e.2 = d.senders.count e.1
  once : (d.ran.map Prod.fst).Nodup

theorem Deferred.Accounted.balanced {d : Deferred} (h : d.Accounted) : Balanced d where
  total := by
    have hsum := h.counts.sum
    rw [List.map_id,Deferred.senders,List.length_map] at hsum
    rw [hsum,← h.timers_eq,JsMap.keys,List.length_map]
  length_le := h.length_le
  each e he := by
    obtain ⟨hcount,hpos⟩ := h.counts.get_some (JsMap.get_of_mem h.counts.nodup he)
    have hle := h.perPeer_le e.1
    simp only [id_eq] at hcount hpos
    exact ⟨hpos,hcount ▸ hle,hcount⟩
  once := h.ran_once

end OnionRelay
