import AetherLite.Lib.JsMap
import Mathlib.Data.List.Nodup

/-! Who waits for the echo of what was sent, each until it comes or until its own time is over. -/
set_option autoImplicit false

namespace EchoWaiters

/-- A waiter is the number of its call. What was resolved is kept in its order. -/
structure State where
  waiters : List String := []
  listeners : JsMap String (List Nat) := []
  timers : List Nat := []
  results : List (Nat × Bool) := []

def echoKey (id : String) : String := "echo:" ++ id

/-- The callback of a waiter. -/
def echoed (s : State) (w : Nat) : State :=
  { s with timers := s.timers.filter fun t => t != w
           results := s.results ++ [(w,true)] }

def notifyEcho (s : State) (id : String) : State :=
  match JsMap.get s.listeners (echoKey id) with
  | none => s
  | some callbacks =>
    callbacks.foldl echoed { s with listeners := JsMap.delete s.listeners (echoKey id) }

def awaitEcho (s : State) (id : String) : State :=
  let w := s.waiters.length
  let list := (JsMap.get s.listeners (echoKey id)).getD []
  { s with
    waiters := s.waiters ++ [id]
    timers := s.timers ++ [w]
    listeners := JsMap.set s.listeners (echoKey id) (list ++ [w]) }

/-- The callback of a timer. -/
def timedOut (s : State) (w : Nat) (id : String) : State :=
  let remaining := ((JsMap.get s.listeners (echoKey id)).getD []).filter fun cb => cb != w
  { s with
    timers := s.timers.filter fun t => t != w
    listeners :=
      if remaining.length > 0 then JsMap.set s.listeners (echoKey id) remaining
      else JsMap.delete s.listeners (echoKey id)
    results := s.results ++ [(w,false)] }

/-- The time of a waiter is not fixed: its timer may fire at any moment while it is set. -/
inductive Action where
  | awaitEcho (id : String)
  | notifyEcho (id : String)
  | timeout (w : Nat)

def step (s : State) : Action → State
  | .awaitEcho id => awaitEcho s id
  | .notifyEcho id => notifyEcho s id
  | .timeout w =>
    match s.waiters[w]? with
    | some id => if w ∈ s.timers then timedOut s w id else s
    | none => s

def after (s : State) (as : List Action) : State := as.foldl step s

/-- The answer of a waiter that an action is for. -/
def verdict (w : Nat) (id : String) : Action → Option Bool
  | .awaitEcho _ => none
  | .notifyEcho id' => if id' = id then some true else none
  | .timeout w' => if w' = w then some false else none

/-- The first echo or the own timeout, whichever comes first. -/
def outcome (w : Nat) (id : String) (as : List Action) : Option Bool :=
  as.findSome? (verdict w id)

theorem echoKey_inj {a b : String} (h : echoKey a = echoKey b) : a = b := by
  have hl := congrArg String.toList h
  simp only [echoKey,String.toList_append] at hl
  exact String.toList_injective (List.append_cancel_left hl)

/-- Who waits is in the table under its id, and nobody else is. -/
structure Kept (s : State) : Prop where
  keys : (JsMap.keys s.listeners).Nodup
  listed : ∀ key w, w ∈ (JsMap.get s.listeners key).getD [] ↔
    w ∈ s.timers ∧ ∃ id, s.waiters[w]? = some id ∧ key = echoKey id
  nodup : ∀ key ws, JsMap.get s.listeners key = some ws → ws ≠ [] ∧ ws.Nodup
  timers : ∀ w ∈ s.timers, w < s.waiters.length
  results : ∀ e ∈ s.results, e.1 < s.waiters.length ∧ e.1 ∉ s.timers
  once : (s.results.map Prod.fst).Nodup

section
variable {s : State} {a : Action} {w : Nat} {id : String}

theorem kept_nil : Kept {} where
  keys := List.nodup_nil
  listed key w := by simp [JsMap.get]
  nodup key ws h := by cases h
  timers w hw := by cases hw
  results e he := by cases he
  once := List.nodup_nil

theorem foldl_echoed (ws : List Nat) (s : State) : ws.foldl echoed s =
    { s with timers := s.timers.filter fun t => !ws.contains t
             results := s.results ++ ws.map fun w => (w,true) } := by
  induction ws generalizing s with
  | nil => simp
  | cons w ws ih =>
    rw [List.foldl_cons,ih]
    simp only [echoed,List.filter_filter,List.map_cons,List.append_assoc,List.cons_append,
      List.nil_append,State.mk.injEq,and_true,true_and]
    apply List.filter_congr
    intro t ht
    rw [List.contains_cons,Bool.not_or,bne,Bool.and_comm]

/-- The waiters of an id. -/
def waitingFor (s : State) (id : String) : List Nat := (JsMap.get s.listeners (echoKey id)).getD []

/-- Some of the waiters of an id are settled. -/
def settle (s : State) (id : String) (gone : List Nat) (result : Bool) : State :=
  let remaining := (waitingFor s id).filter fun cb => !gone.contains cb
  { s with
    timers := s.timers.filter fun t => !gone.contains t
    listeners :=
      if remaining.length > 0 then JsMap.set s.listeners (echoKey id) remaining
      else JsMap.delete s.listeners (echoKey id)
    results := s.results ++ gone.map fun w => (w,result) }

theorem notifyEcho_eq (s : State) (id : String) :
    notifyEcho s id = settle s id (waitingFor s id) true := by
  have hnone : (waitingFor s id).filter (fun cb => !(waitingFor s id).contains cb) = [] := by
    rw [List.filter_eq_nil_iff]
    intro w hw
    simp [hw]
  unfold notifyEcho settle
  rw [hnone]
  cases hget : JsMap.get s.listeners (echoKey id) with
  | none =>
    have hdelete := JsMap.delete_eq_self ((JsMap.get_eq_none_iff _ _).mp hget)
    simp [waitingFor,hget,hdelete]
  | some ws => simp [waitingFor,hget,foldl_echoed]

theorem timedOut_eq (s : State) (w : Nat) (id : String) : timedOut s w id = settle s id [w] false := by
  have hne : ∀ t : Nat, (t != w) = !([w].contains t) := by
    intro t
    simp only [List.contains_cons,List.contains_nil,Bool.or_false,bne]
  simp only [timedOut,settle,waitingFor,hne]
  rfl

theorem Kept.mem_waitingFor (h : Kept s) (id : String) (w : Nat) :
    w ∈ waitingFor s id ↔ w ∈ s.timers ∧ s.waiters[w]? = some id := by
  rw [waitingFor,h.listed]
  constructor
  · intro hw
    obtain ⟨ht,id',hid,hkey⟩ := hw
    exact ⟨ht,(echoKey_inj hkey) ▸ hid⟩
  · intro hw
    exact ⟨hw.1,id,hw.2,rfl⟩

theorem Kept.nodup_waitingFor (h : Kept s) (id : String) : (waitingFor s id).Nodup := by
  unfold waitingFor
  cases hget : JsMap.get s.listeners (echoKey id) with
  | none => exact List.nodup_nil
  | some ws => exact (h.nodup _ _ hget).2

theorem Kept.awaitEcho (h : Kept s) (id : String) : Kept (awaitEcho s id) := by
  have hnew : s.waiters.length ∉ waitingFor s id := by
    intro hmem
    exact Nat.lt_irrefl _ (h.timers _ ((h.mem_waitingFor id _).mp hmem).1)
  have hlist : JsMap.get (EchoWaiters.awaitEcho s id).listeners (echoKey id) =
      some (waitingFor s id ++ [s.waiters.length]) := JsMap.get_set_self _ _ _
  have hother : ∀ key, key ≠ echoKey id →
      JsMap.get (EchoWaiters.awaitEcho s id).listeners key = JsMap.get s.listeners key :=
    fun key hkey => JsMap.get_set_ne _ hkey _
  have hold : ∀ w ∈ s.timers, (s.waiters ++ [id])[w]? = s.waiters[w]? :=
    fun w hw => List.getElem?_append_left (h.timers w hw)
  have hlast : (s.waiters ++ [id])[s.waiters.length]? = some id := by simp
  constructor
  · exact JsMap.nodup_keys_set h.keys _ _
  · intro key w
    simp only [EchoWaiters.awaitEcho,List.mem_append,List.mem_singleton] at hlist hother ⊢
    by_cases hkey : key = echoKey id
    · rw [hkey,hlist,Option.getD_some,List.mem_append,List.mem_singleton,h.mem_waitingFor]
      constructor
      · intro hw
        obtain ⟨ht,hid⟩ | rfl := hw
        · exact ⟨.inl ht,id,by rw [hold w ht,hid],rfl⟩
        · exact ⟨.inr rfl,id,hlast,rfl⟩
      · intro hw
        obtain ⟨ht | rfl,id',hid,hsame⟩ := hw
        · rw [hold w ht,← echoKey_inj hsame] at hid
          exact .inl ⟨ht,hid⟩
        · exact .inr rfl
    · rw [hother key hkey,h.listed]
      constructor
      · intro hw
        obtain ⟨ht,id',hid,hsame⟩ := hw
        exact ⟨.inl ht,id',by rw [hold w ht,hid],hsame⟩
      · intro hw
        obtain ⟨ht | rfl,id',hid,hsame⟩ := hw
        · rw [hold w ht] at hid
          exact ⟨ht,id',hid,hsame⟩
        · rw [hlast] at hid
          exact absurd (Option.some.inj hid ▸ hsame) hkey
  · intro key ws hget
    by_cases hkey : key = echoKey id
    · rw [hkey,hlist] at hget
      cases hget
      exact ⟨by simp,(h.nodup_waitingFor id).append (List.nodup_singleton _)
        (List.disjoint_singleton.mpr hnew)⟩
    · rw [hother key hkey] at hget
      exact h.nodup key ws hget
  · intro w hw
    simp only [EchoWaiters.awaitEcho,List.length_append,List.length_singleton]
    obtain hw | hw := List.mem_append.mp hw
    · have hlt := h.timers w hw
      omega
    · have heq := List.mem_singleton.mp hw
      omega
  · intro e he
    obtain ⟨hlt,hnot⟩ := h.results e he
    simp only [EchoWaiters.awaitEcho,List.length_append,List.length_singleton,List.mem_append,
      List.mem_singleton,not_or]
    exact ⟨by omega,hnot,by omega⟩
  · exact h.once

/-- The entry of the id goes with its last waiter. -/
theorem get_settle (s : State) (id : String) (gone : List Nat) (result : Bool) (key : String) :
    JsMap.get (settle s id gone result).listeners key =
      if key = echoKey id then
        (if ((waitingFor s id).filter fun cb => !gone.contains cb) = [] then none
        else some ((waitingFor s id).filter fun cb => !gone.contains cb))
      else JsMap.get s.listeners key := by
  unfold settle
  generalize (waitingFor s id).filter (fun cb => !gone.contains cb) = remaining
  dsimp only
  by_cases hkey : key = echoKey id
  · subst hkey
    cases remaining with
    | nil => simp [JsMap.get_delete_self]
    | cons w ws => simp
  · rw [if_neg hkey]
    split
    · exact JsMap.get_set_ne _ hkey _
    · exact JsMap.get_delete_ne hkey

theorem getD_ite_nil (ws : List Nat) : (if ws = [] then none else some ws).getD [] = ws := by
  cases ws <;> simp

theorem Kept.settle (h : Kept s) {gone : List Nat} (hsub : ∀ w ∈ gone, w ∈ waitingFor s id)
    (hnodup : gone.Nodup) (result : Bool) : Kept (settle s id gone result) := by
  have hmine : ∀ w ∈ gone, w ∈ s.timers ∧ s.waiters[w]? = some id :=
    fun w hw => (h.mem_waitingFor id w).mp (hsub w hw)
  have hleft : ∀ w, w ∈ s.timers.filter (fun t => !gone.contains t) ↔ w ∈ s.timers ∧ w ∉ gone := by
    simp [List.mem_filter]
  constructor
  · unfold EchoWaiters.settle
    dsimp only
    split
    · exact JsMap.nodup_keys_set h.keys _ _
    · exact JsMap.nodup_keys_delete h.keys _
  · intro key w
    rw [get_settle]
    simp only [EchoWaiters.settle,hleft]
    by_cases hkey : key = echoKey id
    · have hlist : w ∈ (waitingFor s id).filter (fun cb => !gone.contains cb) ↔
          (w ∈ s.timers ∧ s.waiters[w]? = some id) ∧ w ∉ gone := by
        simp [List.mem_filter,h.mem_waitingFor]
      rw [if_pos hkey,getD_ite_nil,hlist]
      constructor
      · intro hw
        exact ⟨⟨hw.1.1,hw.2⟩,id,hw.1.2,hkey⟩
      · intro hw
        obtain ⟨⟨ht,hnot⟩,id',hid,hsame⟩ := hw
        have hid' : id' = id := echoKey_inj (hsame.symm.trans hkey)
        exact ⟨⟨ht,hid' ▸ hid⟩,hnot⟩
    · rw [if_neg hkey,h.listed]
      constructor
      · intro hw
        obtain ⟨ht,id',hid,hsame⟩ := hw
        refine ⟨⟨ht,?_⟩,id',hid,hsame⟩
        intro hin
        have hid' := (hmine w hin).2
        rw [hid] at hid'
        exact hkey (Option.some.inj hid' ▸ hsame)
      · intro hw
        exact ⟨hw.1.1,hw.2⟩
  · intro key ws hget
    rw [get_settle] at hget
    split at hget
    · split at hget
      · cases hget
      · next hne =>
        cases hget
        exact ⟨hne,(h.nodup_waitingFor id).filter _⟩
    · exact h.nodup key ws hget
  · intro w hw
    exact h.timers w (List.mem_of_mem_filter hw)
  · intro e he
    simp only [EchoWaiters.settle,hleft,not_and,not_not]
    obtain he | he := List.mem_append.mp he
    · obtain ⟨hlt,hnot⟩ := h.results e he
      exact ⟨hlt,fun ht => absurd ht hnot⟩
    · obtain ⟨w,hw,rfl⟩ := List.mem_map.mp he
      exact ⟨h.timers w (hmine w hw).1,fun _ => hw⟩
  · simp only [EchoWaiters.settle,List.map_append,List.map_map]
    have hgone : gone.map (Prod.fst ∘ fun w => (w,result)) = gone := List.map_id gone
    rw [hgone]
    apply h.once.append hnodup
    intro w hold hw
    obtain ⟨e,he,rfl⟩ := List.mem_map.mp hold
    exact (h.results e he).2 (hmine _ hw).1

theorem kept_step (h : Kept s) (a : Action) : Kept (step s a) := by
  cases a with
  | awaitEcho id => exact h.awaitEcho id
  | notifyEcho id =>
    simp only [step,notifyEcho_eq]
    exact h.settle (fun w hw => hw) (h.nodup_waitingFor id) true
  | timeout w =>
    unfold step
    dsimp only
    split
    · next id hid =>
      split
      · next hw =>
        rw [timedOut_eq]
        apply h.settle _ (List.nodup_singleton w)
        intro t ht
        rw [List.mem_singleton.mp ht]
        exact (h.mem_waitingFor id w).mpr ⟨hw,hid⟩
      · exact h
    · exact h

theorem kept_after (h : Kept s) (as : List Action) : Kept (after s as) := by
  induction as generalizing s with
  | nil => exact h
  | cons a as ih => exact ih (kept_step h a)

/-! One waiter. -/

def Awaits (s : State) (w : Nat) (id : String) : Prop := w ∈ s.timers ∧ s.waiters[w]? = some id

theorem Kept.unresolved (h : Kept s) (hw : Awaits s w id) : w ∉ JsMap.keys s.results := by
  intro hin
  obtain ⟨e,he,rfl⟩ := List.mem_map.mp hin
  exact (h.results e he).2 hw.1

theorem awaits_settle (hw : Awaits s w id) {id' : String} {gone : List Nat} (hnot : w ∉ gone)
    (result : Bool) : Awaits (settle s id' gone result) w id := by
  refine ⟨?_,hw.2⟩
  simp [settle,List.mem_filter,hw.1,hnot]

/-- Nothing but an echo of its own id and its own timeout settles a waiter. -/
theorem awaits_step (h : Kept s) (hw : Awaits s w id) (hv : verdict w id a = none) :
    Awaits (step s a) w id := by
  cases a with
  | awaitEcho id' =>
    refine ⟨List.mem_append_left _ hw.1,?_⟩
    have hlt := h.timers w hw.1
    simp only [step,awaitEcho]
    rw [List.getElem?_append_left hlt,hw.2]
  | notifyEcho id' =>
    have hne : id' ≠ id := by simpa [verdict] using hv
    simp only [step,notifyEcho_eq]
    apply awaits_settle hw
    intro hin
    have hid := ((h.mem_waitingFor id' w).mp hin).2
    rw [hw.2] at hid
    exact hne (Option.some.inj hid).symm
  | timeout w' =>
    have hne : w' ≠ w := by simpa [verdict] using hv
    unfold step
    dsimp only
    split
    · split
      · rw [timedOut_eq]
        exact awaits_settle hw (by simp [Ne.symm hne]) false
      · exact hw
    · exact hw

theorem settled_step (h : Kept s) (hw : Awaits s w id) {result : Bool}
    (hv : verdict w id a = some result) : (w,result) ∈ (step s a).results := by
  cases a with
  | awaitEcho id' => cases hv
  | notifyEcho id' =>
    simp only [verdict,Option.ite_none_right_eq_some,Option.some.injEq] at hv
    obtain ⟨rfl,rfl⟩ := hv
    have hin := (h.mem_waitingFor id' w).mpr hw
    simp [step,notifyEcho_eq,settle,hin]
  | timeout w' =>
    simp only [verdict,Option.ite_none_right_eq_some,Option.some.injEq] at hv
    obtain ⟨rfl,rfl⟩ := hv
    simp [step,hw.2,hw.1,timedOut]

/-- What is resolved stays as it is. -/
theorem results_step (s : State) (a : Action) : s.results <+: (step s a).results := by
  cases a with
  | awaitEcho id => exact List.prefix_rfl
  | notifyEcho id =>
    simp only [step,notifyEcho_eq]
    exact List.prefix_append _ _
  | timeout w =>
    unfold step
    dsimp only
    split
    · split
      · exact List.prefix_append _ _
      · exact List.prefix_rfl
    · exact List.prefix_rfl

theorem results_after (s : State) (as : List Action) : s.results <+: (after s as).results := by
  induction as generalizing s with
  | nil => exact List.prefix_rfl
  | cons a as ih => exact (results_step s a).trans (ih (step s a))

theorem awaits_after (h : Kept s) (hw : Awaits s w id) {as : List Action}
    (hv : outcome w id as = none) : Awaits (after s as) w id := by
  induction as generalizing s with
  | nil => exact hw
  | cons a as ih =>
    simp only [outcome,List.findSome?_cons] at hv
    split at hv
    · cases hv
    · next hnone => exact ih (kept_step h a) (awaits_step h hw hnone) hv

theorem settled_after (h : Kept s) (hw : Awaits s w id) {as : List Action} {result : Bool}
    (hv : outcome w id as = some result) : (w,result) ∈ (after s as).results := by
  induction as generalizing s with
  | nil => cases hv
  | cons a as ih =>
    simp only [outcome,List.findSome?_cons] at hv
    split at hv
    · next hsome =>
      cases hv
      exact (results_after _ as).subset (settled_step h hw hsome)
    · next hnone => exact ih (kept_step h a) (awaits_step h hw hnone) hv

end

/-- In every run no entry of the table is empty, and a waiter that is added to it is resolved by
the first echo of its id or its own timeout, once, and waits in the table until then. -/
theorem echo_settles (pre post : List Action) (id : String) :
    (∀ e ∈ (after {} pre).listeners, e.2 ≠ []) ∧
    (((after {} (pre ++ .awaitEcho id :: post)).results.map Prod.fst).count
        (after {} pre).waiters.length =
      if (outcome (after {} pre).waiters.length id post).isSome then 1 else 0) ∧
    JsMap.get (after {} (pre ++ .awaitEcho id :: post)).results (after {} pre).waiters.length =
      outcome (after {} pre).waiters.length id post ∧
    (outcome (after {} pre).waiters.length id post = none →
      (after {} pre).waiters.length ∈ (after {} (pre ++ .awaitEcho id :: post)).timers ∧
      (after {} pre).waiters.length ∈ waitingFor (after {} (pre ++ .awaitEcho id :: post)) id) := by
  have hpre := kept_after kept_nil pre
  have hrun : after {} (pre ++ .awaitEcho id :: post) =
      after (awaitEcho (after {} pre) id) post := List.foldl_append
  rw [hrun]
  generalize after {} pre = s at *
  have hstart := hpre.awaitEcho id
  have hawaits : Awaits (awaitEcho s id) s.waiters.length id := by
    simp [Awaits,awaitEcho]
  have hlast := kept_after hstart post
  refine ⟨?_,?_,?_,?_⟩
  · intro e he
    exact (hpre.nodup e.1 e.2 (JsMap.get_of_mem hpre.keys he)).1
  · cases hv : outcome s.waiters.length id post with
    | none =>
      exact List.count_eq_zero.mpr (hlast.unresolved (awaits_after hstart hawaits hv))
    | some result =>
      have hin := settled_after hstart hawaits hv
      exact List.count_eq_one_of_mem hlast.once (List.mem_map_of_mem hin)
  · cases hv : outcome s.waiters.length id post with
    | none =>
      rw [JsMap.get_eq_none_iff]
      exact hlast.unresolved (awaits_after hstart hawaits hv)
    | some result => exact JsMap.get_of_mem hlast.once (settled_after hstart hawaits hv)
  · intro hv
    have hw := awaits_after hstart hawaits hv
    exact ⟨hw.1,(hlast.mem_waitingFor id _).mpr hw⟩

end EchoWaiters
