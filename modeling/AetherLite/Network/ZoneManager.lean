import AetherLite.Lib.JsOps
import AetherLite.Lib.Machine
import Mathlib.Data.List.Nodup

/-! The depth of the zones and the zones a node subscribes to. -/
set_option autoImplicit false

namespace ZoneManager

open Js

def maxDepth : Nat := 12
def targetZonePop : Nat := 500
def subscribeCount : Nat := 16
def decreaseDelayMs : Nat := 5*60*1000

structure State where
  clock : Nat := 0
  depth : Nat := 0
  /-- In the order they were added in. -/
  zones : List Nat := []
  /-- When the timer that lowers the depth was set. -/
  depthDecreaseTimer : Option Nat := none
  deriving DecidableEq

inductive Action where
  /-- A recomputation: the size it estimates, none with too few peers, and what
  `randomBelow` gives it. -/
  | recompute (now : Nat) (size : Option Number) (random : List Nat)
  /-- The timer fires, at its time or later. -/
  | lower (now : Nat) (random : List Nat)
  | destroy (now : Nat)

def Action.time : Action → Nat
  | .recompute now _ _ | .lower now _ | .destroy now => now

/-- The depth for a size; none is NaN. -/
def calculateTargetDepth (log2 : Number → Number) (size : Number) : Option Nat :=
  if size ≠ .nan ∧ !(Number.ofNat targetZonePop).lt size then some 0
  else match log2 (size.divBy targetZonePop) with
  | .nan => none
  | .inf negative => some (if negative then 0 else maxDepth)
  | .fin q => some (min maxDepth q.ceil.toNat)

/-- `Set.add` -/
def insertZone (zones : List Nat) (zone : Nat) : List Nat :=
  if zones.contains zone then zones else zones ++ [zone]

/-- The loop that fills up with random zones; there is no result as long as it runs. -/
def fillUp (totalZones : Nat) (zones : List Nat) : List Nat → Option (List Nat)
  | [] => if zones.length < subscribeCount then none else some zones
  | r :: random =>
    if zones.length < subscribeCount then
      if r < totalZones then fillUp totalZones (insertZone zones r) random else none
    else some zones

def initSubscribedZones (depth : Nat) (random : List Nat) : Option (List Nat) :=
  let totalZones := 1 <<< depth
  if totalZones ≤ subscribeCount then some (List.range totalZones)
  else fillUp totalZones [] random

/-- The loop over the old zones: a child of each, and what is left of the random numbers. -/
def children (shift : Nat) : List Nat → List Nat → List Nat → Option (List Nat × List Nat)
  | [], zones, random => some (zones,random)
  | old :: olds, zones, random =>
    if subscribeCount ≤ zones.length then some (zones,random)
    else match random with
    | [] => none
    | r :: random =>
      if r < 1 <<< shift then children shift olds (insertZone zones (old <<< shift ||| r)) random
      else none

def updateSubscriptionAfterScaleUp (zones : List Nat) (oldDepth depth : Nat) (random : List Nat) :
    Option (List Nat) :=
  let totalZones := 1 <<< depth
  if totalZones ≤ subscribeCount then initSubscribedZones depth random
  else (children (depth-oldDepth) zones [] random).bind fun r => fillUp totalZones r.1 r.2

def recomputeDepth (s : State) (now : Nat) (target : Option Nat) (random : List Nat) : Option State :=
  match target with
  | none => some { s with depthDecreaseTimer := none }
  | some target =>
    if s.depth < target then
      (updateSubscriptionAfterScaleUp s.zones s.depth target random).map fun zones =>
        { s with depth := target, zones := zones, depthDecreaseTimer := none }
    else if target < s.depth then
      if s.depthDecreaseTimer = none then some { s with depthDecreaseTimer := some now } else some s
    else some { s with depthDecreaseTimer := none }

def start : Option State := (initSubscribedZones 0 []).map fun zones => { zones := zones }

section
variable (log2 : Number → Number)

def step (s : State) (a : Action) : Option State :=
  if a.time < s.clock then none
  else match a with
  | .recompute now none _ => some { s with clock := now }
  | .recompute now (some size) random =>
    recomputeDepth { s with clock := now } now (calculateTargetDepth log2 size) random
  | .lower now random =>
    match s.depthDecreaseTimer with
    | none => none
    | some set =>
      if now < set+decreaseDelayMs then none
      else (initSubscribedZones (s.depth-1) random).map fun zones =>
        { clock := now, depth := s.depth-1, zones := zones, depthDecreaseTimer := none }
  | .destroy now => some { s with clock := now, depthDecreaseTimer := none }

/-- A recomputation since a time that had an estimate asked for a lower depth. -/
def AskedLower (since : Nat) (s : State) : Action → Prop
  | .recompute now (some size) _ =>
    since < now → ∃ target, calculateTargetDepth log2 size = some target ∧ target < s.depth
  | _ => True

end

/-- The zones are as many as there should be, and zones of the depth. -/
structure Subscribed (s : State) : Prop where
  depth_le : s.depth ≤ maxDepth
  nodup : s.zones.Nodup
  length : s.zones.length = min subscribeCount (2^s.depth)
  lt : ∀ zone ∈ s.zones, zone < 2^s.depth

theorem mem_insertZone {zones : List Nat} {zone z : Nat} :
    z ∈ insertZone zones zone ↔ z ∈ zones ∨ z = zone := by
  unfold insertZone
  by_cases h : zone ∈ zones
  · have hself : z = zone → z ∈ zones := by
      rintro rfl
      exact h
    simp only [List.contains_iff_mem.mpr h,if_true]
    exact ⟨.inl,fun hz => hz.elim id hself⟩
  · simp [h]

theorem nodup_insertZone {zones : List Nat} (h : zones.Nodup) (zone : Nat) :
    (insertZone zones zone).Nodup := by
  unfold insertZone
  by_cases hz : zone ∈ zones
  · simpa [hz] using h
  · have hne : ∀ a ∈ zones, a ≠ zone := by
      rintro a ha rfl
      exact hz ha
    simpa [hz,List.nodup_append,h] using hne

theorem insertZone_new {zones : List Nat} {zone : Nat} (h : zone ∉ zones) :
    insertZone zones zone = zones ++ [zone] := by simp [insertZone,h]

theorem length_insertZone (zones : List Nat) (zone : Nat) :
    (insertZone zones zone).length ≤ zones.length+1 := by
  unfold insertZone
  split
  · omega
  · simp

/-- The loop ends with as many zones as it should, and keeps those it began with. -/
theorem fillUp_spec {totalZones : Nat} {random zones result : List Nat}
    (h : fillUp totalZones zones random = some result) (hn : zones.Nodup)
    (hl : zones.length ≤ subscribeCount) (ht : ∀ z ∈ zones, z < totalZones) :
    result.Nodup ∧ result.length = subscribeCount ∧ (∀ z ∈ result, z < totalZones) ∧
      ∀ z ∈ zones, z ∈ result := by
  induction random generalizing zones with
  | nil =>
    simp only [fillUp,Option.ite_none_left_eq_some,Option.some.injEq] at h
    obtain ⟨hfull,rfl⟩ := h
    exact ⟨hn,by omega,ht,fun z hz => hz⟩
  | cons r random ih =>
    unfold fillUp at h
    split at h
    · next hroom =>
      rw [Option.ite_none_right_eq_some] at h
      obtain ⟨hr,h⟩ := h
      have hlen := length_insertZone zones r
      have hlt : ∀ z ∈ insertZone zones r, z < totalZones := by
        intro z hz
        rcases mem_insertZone.mp hz with hz | rfl
        · exact ht z hz
        · exact hr
      obtain ⟨hn',hl',ht',hk'⟩ := ih h (nodup_insertZone hn r) (by omega) hlt
      exact ⟨hn',hl',ht',fun z hz => hk' z (mem_insertZone.mpr (.inl hz))⟩
    · next hfull =>
      cases h
      exact ⟨hn,by omega,ht,fun z hz => hz⟩

theorem one_shiftLeft (n : Nat) : 1 <<< n = 2^n := by rw [Nat.shiftLeft_eq,Nat.one_mul]

theorem initSubscribedZones_spec {depth : Nat} {random zones : List Nat}
    (h : initSubscribedZones depth random = some zones) :
    zones.Nodup ∧ zones.length = min subscribeCount (2^depth) ∧ ∀ z ∈ zones, z < 2^depth := by
  unfold initSubscribedZones at h
  dsimp only at h
  rw [one_shiftLeft] at h
  split at h
  · next hfew =>
    cases h
    simp only [List.length_range,List.mem_range]
    exact ⟨List.nodup_range,by omega,fun z hz => hz⟩
  · next hmany =>
    obtain ⟨hn,hl,ht,-⟩ := fillUp_spec h List.nodup_nil (Nat.zero_le _) (by simp)
    exact ⟨hn,by omega,ht⟩

/-- With few zones all are subscribed to. -/
theorem mem_initSubscribedZones {depth : Nat} {random zones : List Nat}
    (h : initSubscribedZones depth random = some zones) (hfew : 1 <<< depth ≤ subscribeCount) {z : Nat}
    (hz : z < 2^depth) : z ∈ zones := by
  unfold initSubscribedZones at h
  dsimp only at h
  rw [if_pos hfew] at h
  cases h
  rw [one_shiftLeft]
  exact List.mem_range.mpr hz

/-- The child of a zone that a random number picks lies below it. -/
theorem child_shiftRight {shift r : Nat} (old : Nat) (hr : r < 2^shift) :
    (old <<< shift ||| r) >>> shift = old := by
  rw [← Nat.shiftLeft_add_eq_or_of_lt hr,Nat.shiftLeft_eq,Nat.shiftRight_eq_div_pow]
  rw [Nat.add_comm,Nat.add_mul_div_right _ _ (Nat.two_pow_pos shift),Nat.div_eq_of_lt hr,Nat.zero_add]

/-- Each old zone gets a child while there are no more than the limit. -/
theorem children_spec {shift : Nat} {olds zones random result rest : List Nat}
    (h : children shift olds zones random = some (result,rest)) (ho : olds.Nodup) (hn : zones.Nodup)
    (hl : zones.length+olds.length ≤ subscribeCount) (hnew : ∀ z ∈ zones, z >>> shift ∉ olds) :
    result.Nodup ∧ result.length = zones.length+olds.length ∧ (∀ z ∈ zones, z ∈ result) ∧
      (∀ old ∈ olds, ∃ z ∈ result, z >>> shift = old) ∧
      ∀ z ∈ result, z ∈ zones ∨ z >>> shift ∈ olds := by
  induction olds generalizing zones random with
  | nil =>
    cases h
    exact ⟨hn,rfl,fun z hz => hz,by simp,fun z hz => .inl hz⟩
  | cons old olds ih =>
    rw [List.length_cons] at hl ⊢
    unfold children at h
    rw [if_neg (by omega)] at h
    cases random with
    | nil => cases h
    | cons r random =>
      rw [List.nodup_cons] at ho
      dsimp only at h
      rw [Option.ite_none_right_eq_some,one_shiftLeft] at h
      obtain ⟨hr,h⟩ := h
      have hchild := child_shiftRight old hr
      have hfresh : old <<< shift ||| r ∉ zones := fun hm => hnew _ hm (by simp [hchild])
      have hins := insertZone_new hfresh
      obtain ⟨hn',hl',hk',hc',hall'⟩ := ih h ho.2 (nodup_insertZone hn _)
        (by rw [hins,List.length_append,List.length_singleton]; omega)
        (fun z hz hm => by
          rcases mem_insertZone.mp hz with hz | rfl
          · exact hnew z hz (List.mem_cons_of_mem old hm)
          · rw [hchild] at hm
            exact ho.1 hm)
      refine ⟨hn',?_,fun z hz => hk' z (mem_insertZone.mpr (.inl hz)),fun o hm => ?_,fun z hz => ?_⟩
      · rw [hl',hins,List.length_append,List.length_singleton]
        omega
      · rcases List.mem_cons.mp hm with rfl | hm
        · exact ⟨_,hk' _ (mem_insertZone.mpr (.inr rfl)),hchild⟩
        · exact hc' o hm
      · rcases hall' z hz with hz | hz
        · rcases mem_insertZone.mp hz with hz | rfl
          · exact .inl hz
          · exact .inr (by simp [hchild])
        · exact .inr (List.mem_cons_of_mem old hz)

/-- After a rise the zones are as many as there should be, and below each old one is a new one. -/
theorem updateSubscriptionAfterScaleUp_spec {zones random result : List Nat} {oldDepth depth : Nat}
    (h : updateSubscriptionAfterScaleUp zones oldDepth depth random = some result)
    (hrise : oldDepth < depth) (hn : zones.Nodup) (hl : zones.length ≤ subscribeCount)
    (ht : ∀ z ∈ zones, z < 2^oldDepth) :
    (result.Nodup ∧ result.length = min subscribeCount (2^depth) ∧ ∀ z ∈ result, z < 2^depth) ∧
      ∀ z ∈ zones, ∃ z' ∈ result, z' >>> (depth-oldDepth) = z := by
  have hpow : 2^depth = 2^oldDepth*2^(depth-oldDepth) := by
    rw [← pow_add,Nat.add_sub_cancel' hrise.le]
  have hpos : 0 < 2^(depth-oldDepth) := Nat.two_pow_pos _
  unfold updateSubscriptionAfterScaleUp at h
  dsimp only at h
  split at h
  · next hfew =>
    refine ⟨initSubscribedZones_spec h,fun z hz => ⟨z <<< (depth-oldDepth),?_,?_⟩⟩
    · apply mem_initSubscribedZones h hfew
      rw [Nat.shiftLeft_eq,hpow]
      exact Nat.mul_lt_mul_of_pos_right (ht z hz) hpos
    · rw [Nat.shiftLeft_shiftRight]
  · next hmany =>
    obtain ⟨⟨first,rest⟩,hc,h⟩ := Option.bind_eq_some_iff.mp h
    obtain ⟨hn',hl',-,hchild,hfrom⟩ := children_spec hc hn List.nodup_nil (by simpa using hl) (by simp)
    have hlt : ∀ z ∈ first, z < 1 <<< depth := by
      intro z hz
      rcases hfrom z hz with hz | hz
      · cases hz
      · have hold := ht _ hz
        rw [Nat.shiftRight_eq_div_pow,Nat.div_lt_iff_lt_mul hpos] at hold
        rw [one_shiftLeft,hpow]
        exact hold
    rw [List.length_nil,Nat.zero_add] at hl'
    obtain ⟨hnodup,hlen,htotal,hkeep⟩ := fillUp_spec h hn' (hl'.le.trans hl) hlt
    rw [one_shiftLeft] at hmany htotal
    refine ⟨⟨hnodup,by omega,htotal⟩,fun z hz => ?_⟩
    obtain ⟨z',hz',he⟩ := hchild z hz
    exact ⟨z',hkeep z' hz',he⟩

theorem calculateTargetDepth_le {log2 : Number → Number} {size : Number} {target : Nat}
    (h : calculateTargetDepth log2 size = some target) : target ≤ maxDepth := by
  unfold calculateTargetDepth at h
  split at h
  · cases h
    exact Nat.zero_le _
  split at h
  · cases h
  · next negative _ =>
    cases h
    cases negative
    · exact le_refl _
    · exact Nat.zero_le _
  · cases h
    exact Nat.min_le_left _ _

section
variable {log2 : Number → Number} {s t : State}

/-- A pending timer was pending before the step, or was set in it; nothing has called for
it to be cancelled. -/
def Pends (log2 : Number → Number) (s : State) (a : Action) (t : State) : Prop :=
  ∀ set, t.depthDecreaseTimer = some set → 0 < t.depth ∧ AskedLower log2 set s a ∧
    (s.depthDecreaseTimer = some set ∨ set = a.time)

/-- What a step can do: it leaves depth and zones as they are, raises the depth to what was
asked for, or lowers it by one, when the timer was set five minutes before. -/
inductive Moves (log2 : Number → Number) (s : State) (a : Action) (t : State) : Prop where
  | stays (depth : t.depth = s.depth) (zones : t.zones = s.zones)
      (timer : (∀ set, s.depthDecreaseTimer = some set → 0 < s.depth) → Pends log2 s a t)
  | rises (depth : s.depth < t.depth) (timer : t.depthDecreaseTimer = none)
      (target : t.depth ≤ maxDepth)
      (zones : ∃ random, updateSubscriptionAfterScaleUp s.zones s.depth t.depth random = some t.zones)
  | falls (set : Nat) (timer : s.depthDecreaseTimer = some set) (late : set+decreaseDelayMs ≤ a.time)
      (depth : t.depth = s.depth-1) (gone : t.depthDecreaseTimer = none)
      (zones : ∃ random, initSubscribedZones t.depth random = some t.zones)

theorem step_clock {a : Action} (h : step log2 s a = some t) : s.clock ≤ a.time ∧ t.clock = a.time := by
  unfold step at h
  split at h
  · cases h
  · next hclock =>
    refine ⟨by omega,?_⟩
    split at h
    · cases h
      rfl
    · unfold recomputeDepth at h
      split at h
      · cases h
        rfl
      split at h
      · obtain ⟨zones,-,rfl⟩ := Option.map_eq_some_iff.mp h
        rfl
      split at h
      · split at h
        · cases h
          rfl
        · cases h
          rfl
      · cases h
        rfl
    · split at h
      · cases h
      split at h
      · cases h
      · obtain ⟨zones,-,rfl⟩ := Option.map_eq_some_iff.mp h
        rfl
    · cases h
      rfl

theorem step_moves {a : Action} (h : step log2 s a = some t) : Moves log2 s a t := by
  unfold step at h
  split at h
  · cases h
  split at h
  · cases h
    exact .stays rfl rfl fun hp set hset => ⟨hp set hset,trivial,.inl hset⟩
  · next now size random _ =>
    unfold recomputeDepth at h
    split at h
    · cases h
      exact .stays rfl rfl fun _ set hset => nomatch hset
    · next target htarget =>
      split at h
      · next hrise =>
        obtain ⟨zones,hz,rfl⟩ := Option.map_eq_some_iff.mp h
        exact .rises hrise rfl (calculateTargetDepth_le htarget) ⟨random,hz⟩
      split at h
      · next hlow =>
        have hasked : ∀ set, AskedLower log2 set s (.recompute now (some size) random) :=
          fun set _ => ⟨target,htarget,hlow⟩
        have hpos : 0 < s.depth := Nat.zero_lt_of_lt hlow
        split at h
        · cases h
          refine .stays rfl rfl fun _ set hset => ⟨hpos,hasked set,.inr ?_⟩
          cases hset
          rfl
        · cases h
          exact .stays rfl rfl fun _ set hset => ⟨hpos,hasked set,.inl hset⟩
      · cases h
        exact .stays rfl rfl fun _ set hset => nomatch hset
  · split at h
    · cases h
    next set htimer =>
    split at h
    · cases h
    · next hlate =>
      obtain ⟨zones,hz,rfl⟩ := Option.map_eq_some_iff.mp h
      exact .falls set htimer (by simpa [Action.time] using hlate) rfl rfl ⟨_,hz⟩
  · cases h
    exact .stays rfl rfl fun _ set hset => nomatch hset

/-- After a run the subscription is as it should be; since a pending timer was set nothing but
lower depths has been asked for. -/
structure Inv (log2 : Number → Number) (init : State) (as : List Action) (s : State) : Prop where
  subscribed : Subscribed s
  past : ∀ a ∈ as, a.time ≤ s.clock
  positive : ∀ set, s.depthDecreaseTimer = some set → 0 < s.depth
  pending : ∀ set, s.depthDecreaseTimer = some set →
    Machine.Along (step log2) (AskedLower log2 set) init as

variable {init : State} {as : List Action}

theorem askedLower_of_le {since : Nat} {a : Action} (h : a.time ≤ since) (s : State) :
    AskedLower log2 since s a := by
  unfold AskedLower
  split
  · next now size _ =>
    intro hlt
    have hle : now ≤ since := h
    omega
  · trivial

theorem AskedLower.later {since since' : Nat} {a : Action} (h : AskedLower log2 since s a)
    (hle : since ≤ since') : AskedLower log2 since' s a := by
  unfold AskedLower at *
  split at h
  · exact fun hlt => h (hle.trans_lt hlt)
  · trivial

theorem Inv.moves (h : Inv log2 init as s) {a : Action} (hm : Moves log2 s a t) : Subscribed t := by
  have hs := h.subscribed
  cases hm with
  | stays depth zones _ =>
    exact ⟨by rw [depth]; exact hs.depth_le,by rw [zones]; exact hs.nodup,
      by rw [zones,depth]; exact hs.length,by rw [zones,depth]; exact hs.lt⟩
  | rises depth _ target zones =>
    obtain ⟨random,hz⟩ := zones
    have hl : s.zones.length ≤ subscribeCount := hs.length.le.trans (Nat.min_le_left _ _)
    obtain ⟨⟨hn,hlen,hlt⟩,-⟩ := updateSubscriptionAfterScaleUp_spec hz depth hs.nodup hl hs.lt
    exact ⟨target,hn,hlen,hlt⟩
  | falls set _ _ depth _ zones =>
    obtain ⟨random,hz⟩ := zones
    obtain ⟨hn,hlen,hlt⟩ := initSubscribedZones_spec hz
    exact ⟨by rw [depth]; exact (Nat.sub_le _ _).trans hs.depth_le,hn,hlen,hlt⟩

theorem Inv.step (h : Inv log2 init as s) (hr : Machine.run (step log2) init as = some s) {a : Action}
    (ht : ZoneManager.step log2 s a = some t) : Inv log2 init (as ++ [a]) t := by
  obtain ⟨hle,hclock⟩ := step_clock ht
  have hm := step_moves ht
  have hpends : Pends log2 s a t := by
    cases hm with
    | stays _ _ timer => exact timer h.positive
    | rises _ timer _ _ =>
      intro set hset
      rw [timer] at hset
      cases hset
    | falls _ _ _ _ gone _ =>
      intro set hset
      rw [gone] at hset
      cases hset
  refine ⟨h.moves hm,fun b hb => ?_,fun set hset => (hpends set hset).1,fun set hset => ?_⟩
  · rw [hclock]
    rcases List.mem_append.mp hb with hb | hb
    · exact (h.past b hb).trans hle
    · rw [List.mem_singleton.mp hb]
  · obtain ⟨-,hasked,hold⟩ := hpends set hset
    rw [Machine.along_append]
    refine ⟨?_,fun u hu => ?_⟩
    · rcases hold with hold | rfl
      · exact h.pending set hold
      · -- all that came before the timer was set is too long ago
        have hbefore : ∀ b ∈ as, b.time ≤ a.time := fun b hb => (h.past b hb).trans hle
        exact (Machine.along_of_forall init hbefore).imp fun u b hb => askedLower_of_le hb u
    · rw [hr] at hu
      cases hu
      exact ⟨hasked,fun _ _ => trivial⟩

theorem inv_run (hi : start = some init) (hr : Machine.run (step log2) init as = some s) :
    Inv log2 init as s := by
  refine Machine.run_induction ?_ (fun as u a t hu h ht => h.step hu ht) hr
  obtain ⟨zones,hz,rfl⟩ := Option.map_eq_some_iff.mp hi
  obtain ⟨hn,hl,hlt⟩ := initSubscribedZones_spec hz
  exact ⟨⟨Nat.zero_le _,hn,hl,hlt⟩,by simp,by simp,by simp⟩

/-- In every run the zones are as many as there should be and lie below the depth. A rise leaves
below each zone one of the new ones. The depth falls by one, and only if each estimate of the
last five minutes asked for a lower one. -/
theorem subscriptions (hi : start = some init) (hr : Machine.run (step log2) init as = some s) :
    Subscribed s ∧ ∀ a t, step log2 s a = some t →
      (s.depth < t.depth →
        ∀ z ∈ s.zones, ∃ z' ∈ t.zones, z' >>> (t.depth-s.depth) = z) ∧
      (t.depth < s.depth → t.depth+1 = s.depth ∧
        Machine.Along (step log2) (AskedLower log2 (a.time-decreaseDelayMs)) init as) := by
  have h := inv_run hi hr
  refine ⟨h.subscribed,fun a t ht => ?_⟩
  have hs := h.subscribed
  cases step_moves ht with
  | stays depth _ _ => exact ⟨fun hlt => by omega,fun hlt => by omega⟩
  | rises depth _ _ zones =>
    obtain ⟨random,hz⟩ := zones
    have hl : s.zones.length ≤ subscribeCount := hs.length.le.trans (Nat.min_le_left _ _)
    exact ⟨fun _ => (updateSubscriptionAfterScaleUp_spec hz depth hs.nodup hl hs.lt).2,
      fun hlt => by omega⟩
  | falls set timer late depth _ _ =>
    refine ⟨fun hlt => by omega,fun hlt => ⟨by omega,?_⟩⟩
    exact (h.pending set timer).imp fun u b hb => hb.later (by omega)

end

/-- `Math.log2` on the powers of two. -/
def log2OfPower : Number → Number
  | .fin q => Number.ofNat q.floor.toNat.log2
  | n => n

def sampleRun : List Action :=
  [.recompute 0 (some (Number.ofNat 32000)) (List.range 16),
    .recompute 60000 (some (Number.ofNat 500)) []]

/-- The depth has risen to 6, a lower one was asked for, and five minutes later it falls. -/
theorem subscriptions_sample :
    Subscribed ⟨60000,6,List.range 16,some 60000⟩ ∧ 5+1 = 6 ∧
      Machine.Along (step log2OfPower) (AskedLower log2OfPower 60000) ⟨0,0,[0],none⟩ sampleRun := by
  have hr : Machine.run (step log2OfPower) ⟨0,0,[0],none⟩ sampleRun =
      some ⟨60000,6,List.range 16,some 60000⟩ := by decide +kernel
  have ht : step log2OfPower ⟨60000,6,List.range 16,some 60000⟩ (.lower 360000 (List.range 16)) =
      some ⟨360000,5,List.range 16,none⟩ := by decide +kernel
  obtain ⟨hs,hsteps⟩ := subscriptions rfl hr
  obtain ⟨hdepth,hasked⟩ := (hsteps _ _ ht).2 (by decide)
  exact ⟨hs,hdepth,hasked⟩

end ZoneManager
