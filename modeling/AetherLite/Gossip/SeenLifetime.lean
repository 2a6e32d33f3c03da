import AetherLite.Gossip.SeenCache
import AetherLite.Lib.Machine
import Mathlib.Tactic.Ring

/-! How long a cache keeps an id: until a timer finds it too old, or until too many others
have come after it. -/
set_option autoImplicit false

namespace SeenCache

inductive Op where
  | add (id : String) (now : Nat)
  | cleanup (now : Nat)

def Op.time : Op → Nat
  | .add _ now => now
  | .cleanup now => now

def apply (c : SeenCache) : Op → SeenCache
  | .add id now => c.add id now
  | .cleanup now => c.cleanup now

def run (c : SeenCache) (ops : List Op) : SeenCache := ops.foldl apply c

/-- The ids that were not there when they were added. -/
def newcomers (c : SeenCache) : List Op → Nat
  | [] => 0
  | .add id now :: ops => (if c.has id then 0 else 1)+newcomers (c.add id now) ops
  | .cleanup now :: ops => newcomers (c.cleanup now) ops

/-- An id is added only where it still is. -/
def Unrenewed (id : String) (c : SeenCache) : List Op → Prop
  | [] => True
  | op :: ops => (∀ now, op = .add id now → c.has id = true) ∧ Unrenewed id (c.apply op) ops

/-- The last time an id is added where it is not, with the cache after it and what follows. -/
def taken (id : String) (c : SeenCache) : List Op → Option (Nat × SeenCache × List Op)
  | [] => none
  | op :: ops =>
    match taken id (c.apply op) ops,op with
    | some r,_ => some r
    | none,.add other now =>
      if other = id ∧ c.has id = false then some (now,c.apply op,ops) else none
    | none,.cleanup _ => none

/-- Since it was last taken up an id has become too old at a timer, or was pushed out. -/
def Outlived (id : String) (c : SeenCache) (ops : List Op) : Prop :=
  ∀ t c' rest, taken id c ops = some (t,c',rest) →
    (∃ now, .cleanup now ∈ rest ∧ t+ttlMs < now) ∨ maxSize ≤ newcomers c' rest

/-- The entries are in the order of their times, and none is without a name. -/
structure Timed (c : SeenCache) (clock : Nat) : Prop where
  nodup : c.ids.Nodup
  sorted : c.cache.Pairwise fun e f => e.2 ≤ f.2
  le : ∀ e ∈ c.cache, e.2 ≤ clock
  length : c.cache.length ≤ maxSize
  named : "" ∉ c.ids

/-- An id with its time and the number of ids behind it. -/
def Behind (c : SeenCache) (id : String) (t n : Nat) : Prop :=
  ∃ before later, c.cache = before ++ (id,t) :: later ∧ later.length = n

variable {c : SeenCache} {clock now t n : Nat} {id : String} {ops : List Op}

theorem timed_empty (clock : Nat) : Timed {} clock :=
  ⟨List.nodup_nil,.nil,by simp,by simp,by simp [ids,JsMap.keys]⟩

theorem Timed.later (h : Timed c clock) (hc : clock ≤ now) : Timed c now :=
  ⟨h.nodup,h.sorted,fun e he => (h.le e he).trans hc,h.length,h.named⟩

theorem add_old (now : Nat) (h : c.has id = true) : c.add id now = c := by simp [add,h]

/-- A new id goes behind the others; the first of them goes when there are too many. -/
theorem Timed.add_cache (h : Timed c clock) (hid : c.has id = false) (now : Nat) :
    (c.add id now).cache =
      if c.cache.length < maxSize then c.cache ++ [(id,now)] else c.cache.tail ++ [(id,now)] := by
  have hn : id ∉ JsMap.keys c.cache := fun hm => by
    rw [(has_iff c id).mpr hm] at hid
    cases hid
  have hlen := h.length
  simp only [add,hid,Bool.false_eq_true,if_false,set_new now hn,List.length_append,List.length_singleton]
  by_cases hfull : c.cache.length < maxSize
  · rw [if_pos hfull,if_neg (by omega)]
  · rw [if_neg hfull,if_pos (by omega)]
    cases hc : c.cache with
    | nil =>
      rw [hc] at hfull
      exact absurd (by decide) hfull
    | cons e m =>
      have hne : e.1 ≠ "" := by
        intro he
        exact h.named (by simp [ids,JsMap.keys,hc,he])
      simp [dropOldest,hne]

theorem Timed.add (h : Timed c clock) (hc : clock ≤ now) (hid : id ≠ "") :
    Timed (c.add id now) now := by
  by_cases hold : c.has id = true
  · rw [add_old now hold]
    exact h.later hc
  · have hnew : c.has id = false := by simpa using hold
    have hmem : id ∉ c.ids := fun hm => hold ((has_iff c id).mpr hm)
    obtain ⟨m,hm,hsub,hroom⟩ : ∃ m, (c.add id now).cache = m ++ [(id,now)] ∧ m.Sublist c.cache ∧
        m.length < maxSize := by
      rw [h.add_cache hnew now]
      have hlen := h.length
      by_cases hfull : c.cache.length < maxSize
      · exact ⟨c.cache,by rw [if_pos hfull],.refl _,hfull⟩
      · refine ⟨c.cache.tail,by rw [if_neg hfull],List.tail_sublist _,?_⟩
        have hpos : 0 < maxSize := by decide
        rw [List.length_tail]
        omega
    have hkeys : (JsMap.keys m).Sublist c.ids := hsub.map Prod.fst
    have hids : (c.add id now).ids = JsMap.keys m ++ [id] := by simp [ids,JsMap.keys,hm]
    have hle : ∀ e ∈ m, e.2 ≤ now := fun e he => (h.le e (hsub.subset he)).trans hc
    refine ⟨?_,?_,?_,?_,?_⟩
    · rw [hids,List.nodup_append]
      exact ⟨h.nodup.sublist hkeys,by simp,fun a ha b hb hab =>
        hmem (List.mem_singleton.mp hb ▸ hab ▸ hkeys.subset ha)⟩
    · rw [hm,List.pairwise_append]
      exact ⟨h.sorted.sublist hsub,by simp,fun e he f hf => by
        rw [List.mem_singleton.mp hf]
        exact hle e he⟩
    · rw [hm]
      intro e he
      rcases List.mem_append.mp he with he | he
      · exact hle e he
      · rw [List.mem_singleton.mp he]
    · rw [hm,List.length_append,List.length_singleton]
      exact hroom
    · rw [hids]
      simpa [Ne.symm hid] using fun hn => h.named (hkeys.subset hn)

theorem Timed.cleanup (h : Timed c clock) (hc : clock ≤ now) : Timed (c.cleanup now) now := by
  have hsub : (c.cleanup now).cache.Sublist c.cache := List.dropWhile_sublist _
  have hkeys := cleanup_sublist c now
  exact ⟨h.nodup.sublist hkeys,h.sorted.sublist hsub,
    fun e he => (h.le e (hsub.subset he)).trans hc,hsub.length_le.trans h.length,
    fun hn => h.named (hkeys.subset hn)⟩

theorem Timed.apply {op : Op} (h : Timed c clock) (hc : clock ≤ op.time)
    (hid : ∀ id now, op = .add id now → id ≠ "") : Timed (c.apply op) op.time := by
  cases op with
  | add id now => exact h.add hc (hid id now rfl)
  | cleanup now => exact h.cleanup hc

theorem Behind.has (h : Behind c id t n) : c.has id = true := by
  obtain ⟨before,later,hcache,-⟩ := h
  rw [has_iff,ids,JsMap.keys,hcache]
  simp

/-- An id that was not there is the last one. -/
theorem Timed.behind_add (h : Timed c clock) (hid : c.has id = false) (now : Nat) :
    Behind (c.add id now) id now 0 := by
  rw [Behind,h.add_cache hid now]
  split
  · exact ⟨c.cache,[],rfl,rfl⟩
  · exact ⟨c.cache.tail,[],rfl,rfl⟩

theorem Behind.length_lt (h : Behind c id t n) (hT : Timed c clock) : n < maxSize := by
  obtain ⟨before,later,hcache,rfl⟩ := h
  have hlen := hT.length
  rw [hcache,List.length_append,List.length_cons] at hlen
  omega

/-- Another id comes behind, or pushes the first one out. -/
theorem Behind.add {other : String} (h : Behind c id t n) (hT : Timed c clock)
    (hnew : c.has other = false) (now : Nat) :
    if n+1 < maxSize then Behind (c.add other now) id t (n+1) else id ∉ (c.add other now).ids := by
  have hne : id ≠ other := fun he => by
    rw [he] at h
    rw [h.has] at hnew
    cases hnew
  have hn := hT.nodup
  obtain ⟨before,later,hcache,rfl⟩ := h
  rw [Behind,ids,JsMap.keys,hT.add_cache hnew now]
  rw [ids,JsMap.keys,hcache,List.map_append,List.map_cons,List.nodup_append,List.nodup_cons] at hn
  have hlen := hT.length
  rw [hcache,List.length_append,List.length_cons] at hlen
  have htotal : c.cache.length = before.length+(later.length+1) := by simp [hcache]
  cases before with
  | nil =>
    simp only [List.length_nil] at htotal hlen
    by_cases hfull : later.length+1 < maxSize
    · rw [if_pos hfull,if_pos (by omega)]
      exact ⟨[],later ++ [(other,now)],by simp [hcache],by simp⟩
    · rw [if_neg hfull,if_neg (by omega),hcache]
      simpa [hne] using hn.2.1.1
  | cons first before =>
    simp only [List.length_cons] at htotal hlen
    rw [if_pos (by omega)]
    split
    · exact ⟨first :: before,later ++ [(other,now)],by simp [hcache],by simp⟩
    · exact ⟨before,later ++ [(other,now)],by simp [hcache],by simp⟩

/-- A timer forgets an id once it is too old; those before it are no younger. -/
theorem Behind.cleanup (h : Behind c id t n) (hT : Timed c clock) (now : Nat) :
    if now ≤ t+ttlMs then Behind (c.cleanup now) id t n else id ∉ (c.cleanup now).ids := by
  have hn := hT.nodup
  have hs := hT.sorted
  obtain ⟨before,later,hcache,rfl⟩ := h
  rw [ids,JsMap.keys,hcache,List.map_append,List.map_cons,List.nodup_append,List.nodup_cons] at hn
  rw [hcache,List.pairwise_append] at hs
  by_cases hold : now ≤ t+ttlMs
  · rw [if_pos hold]
    have hkeep : ¬now-t > ttlMs := by omega
    have hdrop : ∀ m : JsMap String Nat, ∃ m', (m ++ (id,t) :: later).dropWhile
        (fun e => now-e.2 > ttlMs) = m' ++ (id,t) :: later := by
      intro m
      induction m with
      | nil => exact ⟨[],by simp [hkeep]⟩
      | cons e m ih =>
        rw [List.cons_append,List.dropWhile_cons]
        split
        · exact ih
        · exact ⟨e :: m,rfl⟩
    obtain ⟨m',hm'⟩ := hdrop before
    exact ⟨m',later,by rw [SeenCache.cleanup,hcache]; exact hm',rfl⟩
  · rw [if_neg hold]
    have hall : ∀ e ∈ before ++ [(id,t)], now-e.2 > ttlMs := by
      intro e he
      have hle : e.2 ≤ t := by
        rcases List.mem_append.mp he with he | he
        · exact hs.2.2 e he (id,t) List.mem_cons_self
        · rw [List.mem_singleton.mp he]
      omega
    have hdrop : ((before ++ [(id,t)]) ++ later).dropWhile (fun e => now-e.2 > ttlMs) =
        later.dropWhile (fun e => now-e.2 > ttlMs) :=
      List.dropWhile_append_of_pos fun e he => by simpa using hall e he
    have hcache' : c.cache = (before ++ [(id,t)]) ++ later := by simp [hcache]
    rw [ids,SeenCache.cleanup,hcache',hdrop]
    intro hm
    exact hn.2.1.1 (((List.dropWhile_sublist _).map Prod.fst).subset hm)

/-- What is gone and not added again stays away. -/
theorem has_run_gone (h : id ∉ c.ids) (hu : Unrenewed id c ops) : (c.run ops).has id = false := by
  induction ops generalizing c with
  | nil =>
    rw [← Bool.not_eq_true,has_iff]
    exact h
  | cons op ops ih =>
    refine ih ?_ hu.2
    cases op with
    | add other now =>
      intro hm
      rcases mem_ids_add hm with hm | rfl
      · exact h hm
      · exact h ((has_iff c id).mp (hu.1 now rfl))
    | cleanup now => exact fun hm => h ((cleanup_sublist c now).subset hm)

/-- An id is kept over a run exactly if no timer finds it too old and not too many others
come behind it. -/
theorem has_run (h : Behind c id t n) (hT : Timed c clock)
    (hclock : (clock :: ops.map Op.time).Pairwise (· ≤ ·))
    (hnamed : ∀ other now, .add other now ∈ ops → other ≠ "") (hu : Unrenewed id c ops) :
    (c.run ops).has id = true ↔
      (∀ now, .cleanup now ∈ ops → now ≤ t+ttlMs) ∧ n+newcomers c ops < maxSize := by
  induction ops generalizing c clock n with
  | nil => simp [run,newcomers,h.has,h.length_lt hT]
  | cons op ops ih =>
    rw [List.map_cons,List.pairwise_cons,List.pairwise_cons] at hclock
    have hle : clock ≤ op.time := hclock.1 _ List.mem_cons_self
    have hT' : Timed (c.apply op) op.time :=
      hT.apply hle fun other now he => hnamed other now (he ▸ List.mem_cons_self)
    have hnamed' : ∀ other now, .add other now ∈ ops → other ≠ "" :=
      fun other now hm => hnamed other now (List.mem_cons_of_mem op hm)
    have hclock' : (op.time :: ops.map Op.time).Pairwise (· ≤ ·) := List.pairwise_cons.mpr hclock.2
    cases op with
    | add other now =>
      have hsplit : (∀ now', .cleanup now' ∈ Op.add other now :: ops → now' ≤ t+ttlMs) ↔
          ∀ now', .cleanup now' ∈ ops → now' ≤ t+ttlMs := by simp
      rw [hsplit,newcomers]
      by_cases hold : c.has other = true
      · have hsame : c.apply (.add other now) = c := add_old now hold
        have hi := ih (c := c) (n := n) h (hT.later hle) hclock' hnamed' (hsame ▸ hu.2)
        rw [if_pos hold,add_old now hold,Nat.zero_add]
        show ((c.apply (.add other now)).run ops).has id = true ↔ _
        rw [hsame]
        exact hi
      · have hnew : c.has other = false := by simpa using hold
        have hadd := h.add hT hnew now
        rw [if_neg hold]
        by_cases hroom : n+1 < maxSize
        · rw [if_pos hroom] at hadd
          have hi := ih hadd hT' hclock' hnamed' hu.2
          rw [← Nat.add_assoc]
          exact hi
        · rw [if_neg hroom] at hadd
          have hgone : ((c.apply (.add other now)).run ops).has id = false := has_run_gone hadd hu.2
          constructor
          · intro hh
            exact absurd (hgone.symm.trans hh) (by simp)
          · rintro ⟨-,hlt⟩
            omega
    | cleanup now =>
      have hsplit : (∀ now', .cleanup now' ∈ Op.cleanup now :: ops → now' ≤ t+ttlMs) ↔
          now ≤ t+ttlMs ∧ ∀ now', .cleanup now' ∈ ops → now' ≤ t+ttlMs := by simp
      rw [hsplit,newcomers]
      have hclean := h.cleanup hT now
      by_cases hold : now ≤ t+ttlMs
      · rw [if_pos hold] at hclean
        have hi := ih hclean hT' hclock' hnamed' hu.2
        simp only [hold,true_and]
        exact hi
      · rw [if_neg hold] at hclean
        have hgone : ((c.apply (.cleanup now)).run ops).has id = false := has_run_gone hclean hu.2
        constructor
        · intro hh
          exact absurd (hgone.symm.trans hh) (by simp)
        · rintro ⟨⟨hle',-⟩,-⟩
          exact absurd hle' hold

/-- Without being taken up an id is added only where it still is. -/
theorem unrenewed_of_taken (h : taken id c ops = none) : Unrenewed id c ops := by
  induction ops generalizing c with
  | nil => trivial
  | cons op ops ih =>
    unfold taken at h
    split at h
    · cases h
    · next hrest =>
      refine ⟨fun now he => ?_,ih hrest⟩
      cases he
      simp only [true_and,ite_eq_right_iff,reduceCtorEq,imp_false] at h
      simpa using h
    · next _ hrest => exact ⟨by simp,ih hrest⟩

theorem not_has_of_taken (hid : c.has id = false) (h : taken id c ops = none) :
    (c.run ops).has id = false :=
  has_run_gone (fun hm => by rw [(has_iff c id).mpr hm] at hid; cases hid) (unrenewed_of_taken h)

/-- An id is there at the end of a run if it has not become too old since it was last taken
up, and was not pushed out. -/
theorem has_run_taken {c' : SeenCache} {rest : List Op} (hT : Timed c clock)
    (hclock : (clock :: ops.map Op.time).Pairwise (· ≤ ·))
    (hnamed : ∀ other now, .add other now ∈ ops → other ≠ "")
    (h : taken id c ops = some (t,c',rest)) :
    (c.run ops).has id = true ↔
      (∀ now, .cleanup now ∈ rest → now ≤ t+ttlMs) ∧ newcomers c' rest < maxSize := by
  induction ops generalizing c clock with
  | nil => cases h
  | cons op ops ih =>
    rw [List.map_cons,List.pairwise_cons] at hclock
    have hle : clock ≤ op.time := hclock.1 _ List.mem_cons_self
    have hT' : Timed (c.apply op) op.time :=
      hT.apply hle fun other now he => hnamed other now (he ▸ List.mem_cons_self)
    have hnamed' : ∀ other now, .add other now ∈ ops → other ≠ "" :=
      fun other now hm => hnamed other now (List.mem_cons_of_mem op hm)
    unfold taken at h
    split at h
    · next hrest =>
      rw [h] at hrest
      exact ih hT' hclock.2 hnamed' hrest
    · next other now hrest =>
      rw [Option.ite_none_right_eq_some] at h
      obtain ⟨⟨rfl,hnew⟩,h⟩ := h
      cases h
      have hrun := has_run (hT.behind_add hnew t) hT' hclock.2 hnamed' (unrenewed_of_taken hrest)
      rw [Nat.zero_add] at hrun
      exact hrun
    · cases h

/-- Whether an id is gone at the end of a run from a cache without it. -/
theorem has_run_iff (hT : Timed c clock) (hid : c.has id = false)
    (hclock : (clock :: ops.map Op.time).Pairwise (· ≤ ·))
    (hnamed : ∀ other now, .add other now ∈ ops → other ≠ "") :
    (c.run ops).has id = false ↔ Outlived id c ops := by
  cases h : taken id c ops with
  | none => simp [Outlived,h,not_has_of_taken hid h]
  | some r =>
    obtain ⟨t,c',rest⟩ := r
    have hrun := has_run_taken hT hclock hnamed h
    rw [← Bool.not_eq_true,hrun,not_and_or,Nat.not_lt]
    constructor
    · rintro hout t' c'' rest' he
      rw [h] at he
      cases he
      rcases hout with hout | hout
      · push Not at hout
        exact .inl hout
      · exact .inr hout
    · intro hout
      rcases hout t c' rest h with ⟨now,hm,hlt⟩ | hfull
      · exact .inl fun hall => absurd (hall now hm) (by omega)
      · exact .inr hfull

end SeenCache
