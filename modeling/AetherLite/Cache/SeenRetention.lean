import Mathlib.Data.List.Dedup
import Mathlib.Data.List.Perm.Subperm
import AetherLite.Cache.HintRelay
import AetherLite.Lib.Machine

/-! How long the cache node remembers an id. A lookup that finds an id out of date takes it out
of the map alone, and its place in the order is found again later. -/
set_option autoImplicit false

namespace Cache.SeenCache

inductive Call where
  | has (id : String)
  | add (id : String)

/-- A cache and the time of its last call. -/
structure Timed where
  cache : SeenCache
  now : Nat := 0

def step (s : Timed) (a : Nat × Call) : Option Timed :=
  if a.1 < s.now then none
  else match a.2 with
  | .has id => some ⟨(s.cache.has id a.1).2,a.1⟩
  | .add id => some ⟨s.cache.add id a.1,a.1⟩

/-- `SeenCache::new` -/
def new (maxSize ttl : Nat) : Timed := ⟨{ maxSize := maxSize, ttl := ttl },0⟩

def added (calls : List (Nat × Call)) : List String :=
  calls.filterMap fun a =>
    match a.2 with
    | .add id => some id
    | .has _ => none

/-- After a run of calls: an id that was added less than a time to live ago, and fewer than
`maxSize` ids since, is reported, and there is no more than room for. -/
def Retains (maxSize ttl : Nat) (calls : List (Nat × Call)) : Prop :=
  ∀ s, Machine.run step (new maxSize ttl) calls = some s →
    (∀ as t id bs, calls = as ++ (t,.add id) :: bs → (added bs).dedup.length < maxSize →
      ∀ now, s.now ≤ now → now < t+ttl → (s.cache.has id now).1 = true) ∧
    s.cache.cache.length ≤ maxSize

/-- No place in the order is left of an id that is added, or it was the last to be added, at
this very time. -/
def Renewed (s : Timed) (a : Nat × Call) : Prop :=
  ∀ id, a.2 = .add id → id ∉ s.cache.order ∨
    JsMap.get s.cache.cache id = some a.1 ∧ s.cache.order.getLast? = some id

/-- What every cache that was made with this size and time to live keeps -/
structure Ordered (maxSize ttl : Nat) (c : SeenCache) : Prop where
  size : c.maxSize = maxSize
  life : c.ttl = ttl
  room : c.order.length ≤ maxSize
  distinct : (JsMap.keys c.cache).Nodup
  placed : ∀ id ∈ JsMap.keys c.cache, id ∈ c.order

/-- The id is held since `t`, and behind its place in the order are only some of the ids added
since. -/
def Tracked (id : String) (t : Nat) (since : List String) (c : SeenCache) : Prop :=
  JsMap.get c.cache id = some t ∧ ∃ before after,
    c.order = before ++ id :: after ∧ ∀ k ∈ after, k ∈ since

section
variable {c : SeenCache} {maxSize ttl : Nat} {id k : String} {t now : Nat} {since : List String}

theorem has_cases (c : SeenCache) (id : String) (now : Nat) : (c.has id now).2 = c ∨
    ∃ timestamp, JsMap.get c.cache id = some timestamp ∧ c.ttl ≤ now-timestamp ∧
      (c.has id now).2 = { c with cache := JsMap.delete c.cache id } := by
  unfold has
  split
  · next timestamp hget =>
    split
    · exact .inl rfl
    · exact .inr ⟨timestamp,hget,by omega,rfl⟩
  · exact .inl rfl

/-- An id that is held already is let be; another takes the last place, and the first goes when
there is no room. -/
theorem add_cases (c : SeenCache) (id : String) (now : Nat) :
    (∃ timestamp, JsMap.get c.cache id = some timestamp) ∧ c.add id now = c ∨
    JsMap.get c.cache id = none ∧ ∃ oldest rest, c.order ++ [id] = oldest :: rest ∧
      (c.maxSize ≤ rest.length ∧ c.add id now = { c with
          cache := JsMap.delete (JsMap.set c.cache id now) oldest, order := rest } ∨
        rest.length < c.maxSize ∧ c.add id now = { c with
          cache := JsMap.set c.cache id now, order := c.order ++ [id] }) := by
  unfold add
  split
  · next hhas => exact .inl ⟨Option.isSome_iff_exists.mp hhas,rfl⟩
  next hhas =>
  refine .inr ⟨by simpa [JsMap.has] using hhas,?_⟩
  dsimp only
  split
  · next hnil => simp at hnil
  · next oldest rest horder =>
    refine ⟨oldest,rest,horder,?_⟩
    split
    · next hfull => exact .inl ⟨by omega,rfl⟩
    · next hroom => exact .inr ⟨by omega,by rw [horder]⟩

theorem Ordered.has (h : Ordered maxSize ttl c) (id : String) (now : Nat) :
    Ordered maxSize ttl (c.has id now).2 := by
  obtain hc | ⟨-,-,-,hc⟩ := has_cases c id now
  · rwa [hc]
  · rw [hc]
    refine ⟨h.size,h.life,h.room,JsMap.nodup_keys_delete h.distinct id,fun k hk => h.placed k ?_⟩
    exact ((JsMap.delete_sublist _ _).map _).subset hk

theorem Ordered.add (h : Ordered maxSize ttl c) (id : String) (now : Nat) :
    Ordered maxSize ttl (c.add id now) := by
  obtain ⟨-,hc⟩ | ⟨hget,oldest,rest,horder,hc⟩ := add_cases c id now
  · rwa [hc]
  have hset : (JsMap.keys (JsMap.set c.cache id now)).Nodup := JsMap.nodup_keys_set h.distinct id now
  have hplaced (k : String) (hk : k ∈ JsMap.keys (JsMap.set c.cache id now)) :
      k ∈ c.order ++ [id] := by
    rw [JsMap.set_of_get_none now hget,JsMap.keys,List.map_append,List.mem_append] at hk
    rcases hk with hk | hk
    · exact List.mem_append_left _ (h.placed k hk)
    · exact List.mem_append_right _ (by simpa using hk)
  have hroom := h.room
  have hlen := congrArg List.length horder
  simp only [List.length_append,List.length_cons,List.length_nil] at hlen
  obtain ⟨-,hc⟩ | ⟨hfit,hc⟩ := hc
  · rw [hc]
    refine ⟨h.size,h.life,by dsimp only; omega,JsMap.nodup_keys_delete hset oldest,fun k hk => ?_⟩
    rw [JsMap.keys_delete,List.mem_filter] at hk
    have hk' := hplaced k hk.1
    rw [horder] at hk'
    exact (List.mem_cons.mp hk').resolve_left (by simpa using hk.2)
  · rw [hc]
    have hfit := h.size ▸ hfit
    refine ⟨h.size,h.life,?_,hset,hplaced⟩
    simp only [List.length_append,List.length_cons,List.length_nil]
    omega

theorem Ordered.length_le (h : Ordered maxSize ttl c) : c.cache.length ≤ maxSize := by
  have hle := (List.subperm_of_subset h.distinct h.placed).length_le
  rw [JsMap.keys,List.length_map] at hle
  exact hle.trans h.room

theorem Tracked.mono {since' : List String} (h : Tracked id t since c)
    (hs : ∀ k ∈ since, k ∈ since') : Tracked id t since' c := by
  obtain ⟨hget,before,after,horder,hafter⟩ := h
  exact ⟨hget,before,after,horder,fun k hk => hs k (hafter k hk)⟩

/-- What is held and in its time is reported. -/
theorem Tracked.seen (h : Tracked id t since c) (ht : t ≤ now) (hlive : now < t+c.ttl) :
    (c.has id now).1 = true := by
  have hpos : now-t < c.ttl := by omega
  simp [SeenCache.has,h.1,hpos]

theorem Tracked.has (h : Tracked id t since c) (ht : t ≤ now) (hlive : now < t+c.ttl)
    (k : String) :
    Tracked id t since (c.has k now).2 := by
  obtain hc | ⟨timestamp,hget,hold,hc⟩ := has_cases c k now
  · rwa [hc]
  rw [hc]
  refine ⟨?_,h.2⟩
  have hne : id ≠ k := by
    rintro rfl
    cases h.1.symm.trans hget
    omega
  rw [JsMap.get_delete_ne hne]
  exact h.1

theorem renewed_fresh
    (hren : id ∉ c.order ∨ JsMap.get c.cache id = some now ∧ c.order.getLast? = some id)
    (hget : JsMap.get c.cache id = none) : id ∉ c.order := by
  obtain hren | ⟨hsome,-⟩ := hren
  · exact hren
  · cases hget.symm.trans hsome

theorem nodup_add (hn : c.order.Nodup)
    (hren : id ∉ c.order ∨ JsMap.get c.cache id = some now ∧ c.order.getLast? = some id) :
    (c.add id now).order.Nodup := by
  obtain ⟨-,hc⟩ | ⟨hget,oldest,rest,horder,hc⟩ := add_cases c id now
  · rwa [hc]
  have hnew : (c.order ++ [id]).Nodup := by
    rw [List.nodup_append_comm]
    exact List.nodup_cons.mpr ⟨renewed_fresh hren hget,hn⟩
  obtain ⟨-,hc⟩ | ⟨-,hc⟩ := hc
  · rw [hc]
    rw [horder] at hnew
    exact (List.nodup_cons.mp hnew).2
  · rwa [hc]

/-- An id that is added is tracked from then on. -/
theorem tracked_add (h : Ordered maxSize ttl c) (hpos : 0 < maxSize)
    (hren : id ∉ c.order ∨ JsMap.get c.cache id = some now ∧ c.order.getLast? = some id) :
    Tracked id now [] (c.add id now) := by
  obtain ⟨⟨timestamp,hget⟩,hc⟩ | ⟨hget,oldest,rest,horder,hc⟩ := add_cases c id now
  · rw [hc]
    obtain hout | ⟨hnow,hlast⟩ := hren
    · exact absurd (h.placed id ((JsMap.has_iff _ _).mp (by simp [JsMap.has,hget]))) hout
    · obtain ⟨before,horder⟩ := List.getLast?_eq_some_iff.mp hlast
      exact ⟨hnow,before,[],horder,by simp⟩
  have hout := renewed_fresh hren hget
  obtain ⟨hfull,hc⟩ | ⟨-,hc⟩ := hc
  · rw [hc]
    rw [h.size] at hfull
    cases hord : c.order with
    | nil =>
      rw [hord] at horder
      cases horder
      simp at hfull
      omega
    | cons first others =>
      rw [hord] at horder hout
      cases horder
      refine ⟨?_,others,[],rfl,by simp⟩
      have hne : id ≠ oldest := by
        rintro rfl
        exact hout List.mem_cons_self
      rw [JsMap.get_delete_ne hne,JsMap.get_set_self]
  · rw [hc]
    exact ⟨JsMap.get_set_self _ _ _,c.order,[],rfl,by simp⟩

/-- It takes as many other ids as there is room for to push it out. -/
theorem Tracked.add (h : Tracked id t since c) (ho : Ordered maxSize ttl c) (hn : c.order.Nodup)
    (hren : k ∉ c.order ∨ JsMap.get c.cache k = some now ∧ c.order.getLast? = some k)
    (hfew : (since ++ [k]).dedup.length < maxSize) : Tracked id t (since ++ [k]) (c.add k now) := by
  obtain ⟨-,hc⟩ | ⟨hget,oldest,rest,hord,hc⟩ := add_cases c k now
  · rw [hc]
    exact h.mono fun k hk => List.mem_append_left _ hk
  have hout := renewed_fresh hren hget
  obtain ⟨hid,before,after,horder,hafter⟩ := h
  have hne : id ≠ k := by
    rintro rfl
    cases hget.symm.trans hid
  have hbehind (j : String) (hj : j ∈ after ++ [k]) : j ∈ since ++ [k] := by
    rcases List.mem_append.mp hj with hj | hj
    · exact List.mem_append_left _ (hafter j hj)
    · exact List.mem_append_right _ hj
  obtain ⟨hfull,hc⟩ | ⟨-,hc⟩ := hc
  · rw [hc]
    rw [ho.size] at hfull
    rw [horder] at hord hn hout
    cases before with
    | nil =>
      -- The id itself would go: behind it are distinct ids, all of them added since.
      simp only [List.nil_append,List.cons_append,List.cons.injEq] at hord hn hout
      obtain ⟨rfl,rfl⟩ := hord
      have hdistinct : (after ++ [k]).Nodup := by
        rw [List.nodup_append_comm]
        exact List.nodup_cons.mpr ⟨fun hk => hout (List.mem_cons_of_mem _ hk),
          (List.nodup_cons.mp hn).2⟩
      have hle := (List.subperm_of_subset hdistinct fun j hj =>
        List.mem_dedup.mpr (hbehind j hj)).length_le
      omega
    | cons first before =>
      cases hord
      refine ⟨?_,before,after ++ [k],by simp,hbehind⟩
      have hfirst : id ≠ oldest := by
        rintro rfl
        exact (List.nodup_cons.mp hn).1 (by simp)
      rw [JsMap.get_delete_ne hfirst,JsMap.get_set_ne _ hne]
      exact hid
  · rw [hc]
    refine ⟨by rw [JsMap.get_set_ne _ hne]; exact hid,before,after ++ [k],by simp [horder],hbehind⟩

end

section
variable {s u : Timed} {maxSize ttl : Nat} {id : String} {t now : Nat} {since : List String}
  {a : Nat × Call} {as bs calls : List (Nat × Call)}

theorem step_now (hs : step s a = some u) : u.now = a.1 ∧ s.now ≤ u.now := by
  unfold step at hs
  split at hs
  · cases hs
  next hle =>
  split at hs
  · cases hs
    exact ⟨rfl,by dsimp only; omega⟩
  · cases hs
    exact ⟨rfl,by dsimp only; omega⟩

theorem run_now (hr : Machine.run step s as = some u) : s.now ≤ u.now :=
  Machine.invariant_run' (I := fun v => s.now ≤ v.now)
    (fun _ _ _ h hs => h.trans (step_now hs).2) (Nat.le_refl _) hr

theorem ordered_step (h : Ordered maxSize ttl s.cache) (hs : step s a = some u) :
    Ordered maxSize ttl u.cache := by
  unfold step at hs
  split at hs
  · cases hs
  split at hs
  · cases hs
    exact h.has _ _
  · cases hs
    exact h.add _ _

/-- What a run whose ids are all renewed keeps -/
def Fresh (maxSize ttl : Nat) (s : Timed) : Prop :=
  Ordered maxSize ttl s.cache ∧ s.cache.order.Nodup

theorem fresh_step (h : Fresh maxSize ttl s) (hG : Renewed s a) (hs : step s a = some u) :
    Fresh maxSize ttl u := by
  refine ⟨ordered_step h.1 hs,?_⟩
  obtain ⟨now,call⟩ := a
  unfold step at hs
  split at hs
  · cases hs
  cases call with
  | has k =>
    cases hs
    obtain hc | ⟨-,-,-,hc⟩ := has_cases s.cache k now
    · rw [hc]
      exact h.2
    · rw [hc]
      exact h.2
  | add k =>
    cases hs
    exact nodup_add h.2 (hG k rfl)

theorem tracked_step (h : Fresh maxSize ttl s) (hG : Renewed s a) (hs : step s a = some u)
    (hid : Tracked id t since s.cache) (ht : t ≤ s.now) (hlive : u.now < t+ttl)
    (hfew : (since ++ added [a]).dedup.length < maxSize) :
    Tracked id t (since ++ added [a]) u.cache := by
  obtain ⟨hnow,hle⟩ := step_now hs
  obtain ⟨now,call⟩ := a
  unfold step at hs
  split at hs
  · cases hs
  cases call with
  | has k =>
    cases hs
    have hlive : now < t+s.cache.ttl := by rw [h.1.life]; exact hlive
    exact (hid.has (ht.trans hle) hlive k).mono fun k hk => List.mem_append_left _ hk
  | add k =>
    cases hs
    exact hid.add h.1 h.2 (hG k rfl) hfew

theorem dedup_length_le {xs ys : List String} (h : ∀ k ∈ xs, k ∈ ys) :
    xs.dedup.length ≤ ys.dedup.length :=
  (List.subperm_of_subset xs.nodup_dedup fun k hk =>
    List.mem_dedup.mpr (h k (List.mem_dedup.mp hk))).length_le

/-- Along a run an id stays tracked while it is in its time and few are added. -/
theorem tracked_run (h : Fresh maxSize ttl s) (hG : Machine.Along step Renewed s bs)
    (hr : Machine.run step s bs = some u) (hid : Tracked id t since s.cache) (ht : t ≤ s.now)
    (hlive : u.now < t+ttl) (hfew : (since ++ added bs).dedup.length < maxSize) :
    Tracked id t (since ++ added bs) u.cache := by
  induction bs generalizing s since with
  | nil =>
    cases hr
    simpa [added] using hid
  | cons b bs ih =>
    obtain ⟨v,hv,hr⟩ := Machine.run_cons_inv hr
    have hsplit : since ++ added (b :: bs) = (since ++ added [b]) ++ added bs := by
      rw [List.append_assoc,added,added,added,← List.filterMap_append]
      rfl
    rw [hsplit] at hfew ⊢
    have hfew' := Nat.lt_of_le_of_lt (dedup_length_le fun k hk => List.mem_append_left _ hk) hfew
    have hstep := tracked_step h hG.1 hv hid ht (Nat.lt_of_le_of_lt (run_now hr) hlive) hfew'
    exact ih (fresh_step h hG.1 hv) (hG.2 v hv) hr hstep (ht.trans (step_now hv).2) hfew

theorem fresh_new (maxSize ttl : Nat) : Fresh maxSize ttl (new maxSize ttl) := by
  refine ⟨⟨rfl,rfl,Nat.zero_le _,.nil,?_⟩,.nil⟩
  simp [new,JsMap.keys]

/-- As long as no id is added while the order still has a place of it, every id that is added
is reported for its time to live, unless as many others are added as there is room for. -/
theorem retains_of_renewed (hG : Machine.Along step Renewed (new maxSize ttl) calls) :
    Retains maxSize ttl calls := by
  intro s hr
  constructor
  · rintro as t id bs rfl hfew now hnow hlive
    obtain ⟨hGas,hGadd⟩ := (Machine.along_append _ _ _).mp hG
    rw [Machine.run_append] at hr
    obtain ⟨v,hv,hr⟩ := Option.bind_eq_some_iff.mp hr
    obtain ⟨u,hu,hr⟩ := Machine.run_cons_inv hr
    have hfresh : Fresh maxSize ttl v :=
      Machine.invariant_run (fun _ _ _ h hG hs => fresh_step h hG hs) (fresh_new _ _) hGas hv
    obtain ⟨hren,hGbs⟩ := hGadd v hv
    have hcache : u.cache = v.cache.add id t := by
      unfold step at hu
      split at hu
      · cases hu
      · cases hu
        rfl
    have hid : Tracked id t [] u.cache :=
      hcache ▸ tracked_add hfresh.1 (Nat.lt_of_le_of_lt (Nat.zero_le _) hfew) (hren id rfl)
    have ht : t ≤ u.now := Nat.le_of_eq (step_now hu).1.symm
    have hfinal := tracked_run (fresh_step hfresh hren hu) (hGbs u hu) hr hid ht
      (Nat.lt_of_le_of_lt hnow hlive) hfew
    have hkept : Ordered maxSize ttl s.cache :=
      Machine.invariant_run' (fun _ _ _ h hs => ordered_step h hs)
        (fresh_step hfresh hren hu).1 hr
    exact hfinal.seen (ht.trans ((run_now hr).trans hnow)) (hkept.life.symm ▸ hlive)
  · have hkept : Ordered maxSize ttl s.cache :=
      Machine.invariant_run' (fun _ _ _ h hs => ordered_step h hs) (fresh_new _ _).1 hr
    exact hkept.length_le

/-- The id is out of date, is looked up and added again, and goes with its old place. -/
def staleRun : List (Nat × Call) :=
  [(0,.add "a"),(10,.has "a"),(10,.add "a"),(11,.add "b")]

theorem retains_not_staleRun : ¬∀ maxSize ttl calls, Retains maxSize ttl calls := by
  intro h
  have hrun : (Machine.run step (new 2 10) staleRun).any (fun s =>
      s.now == 11 && (s.cache.has "a" 12).1 == false) = true := by decide
  obtain ⟨s,hr,hs⟩ := (Option.any_eq_true _ _).mp hrun
  simp only [Bool.and_eq_true,beq_iff_eq] at hs
  have hseen := (h 2 10 staleRun s hr).1 [(0,.add "a"),(10,.has "a")] 10 "a" [(11,.add "b")] rfl
    (by decide) 12 (by omega) (by omega)
  rw [hs.2] at hseen
  cases hseen

/-- An id that is added again once it has left the order is renewed. -/
def renewedRun : List (Nat × Call) := [(0,.add "a"),(1,.has "a"),(2,.add "b"),(3,.add "c"),(4,.add "a")]

theorem retains_renewedRun : Retains 2 10 renewedRun := by
  have hcheck : Machine.check step (fun s a =>
      match a.2 with
      | .add id => !s.cache.order.contains id
      | .has _ => true) (new 2 10) renewedRun = true := by decide
  refine retains_of_renewed (Machine.along_of_check (fun s a ha id hadd => ?_) hcheck)
  rw [hadd] at ha
  exact .inl (by simpa using ha)

end

end Cache.SeenCache
