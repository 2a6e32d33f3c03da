import AetherLite.Lib.JsMap
import Mathlib.Data.List.Nodup
import Mathlib.Data.Finset.Card

/-! The cache of ids seen lately. -/
set_option autoImplicit false

def SeenCache.maxSize : Nat := 50000
def SeenCache.ttlMs : Nat := 15*60*1000

/-- The ids with the times they were added, oldest first. -/
structure SeenCache where
  cache : JsMap String Nat := []

namespace SeenCache

def has (c : SeenCache) (id : String) : Bool := JsMap.has c.cache id

/-- The oldest entry goes, unless its key is the empty string. -/
def dropOldest (m : JsMap String Nat) : JsMap String Nat :=
  match m with
  | [] => []
  | e :: m => if e.1 = "" then e :: m else m

def add (c : SeenCache) (id : String) (now : Nat) : SeenCache :=
  if c.has id then c
  else
    let m := JsMap.set c.cache id now
    ⟨if m.length > maxSize then dropOldest m else m⟩

/-- The entries are in order of insertion, so the scan stops at the first fresh one. -/
def cleanup (c : SeenCache) (now : Nat) : SeenCache :=
  ⟨c.cache.dropWhile fun e => now-e.2 > ttlMs⟩

def ids (c : SeenCache) : List String := JsMap.keys c.cache

theorem has_iff (c : SeenCache) (id : String) : c.has id = true ↔ id ∈ c.ids :=
  JsMap.has_iff c.cache id

theorem set_new {m : JsMap String Nat} {id : String} (now : Nat) (h : id ∉ JsMap.keys m) :
    JsMap.set m id now = m ++ [(id,now)] :=
  JsMap.set_of_get_none now ((JsMap.get_eq_none_iff m id).mpr h)

theorem add_new {c : SeenCache} {id : String} (now : Nat) (h : id ∉ c.ids)
    (hs : c.ids.length < maxSize) : (c.add id now).cache = c.cache ++ [(id,now)] := by
  have hh : c.has id = false := by
    rw [← Bool.not_eq_true,has_iff]
    exact h
  have hl : ¬(c.cache ++ [(id,now)]).length > maxSize := by
    simp only [ids,JsMap.keys,List.length_map] at hs
    simp only [List.length_append,List.length_singleton]
    omega
  simp only [add,hh,set_new now h,Bool.false_eq_true,if_false,if_neg hl]

theorem dropOldest_sublist (m : JsMap String Nat) : (dropOldest m).Sublist m := by
  cases m with
  | nil => exact .slnil
  | cons e m =>
    by_cases he : e.1 = ""
    · simp [dropOldest,he]
    · simp [dropOldest,he]

/-- Adding an id brings in no other. -/
theorem mem_ids_add {c : SeenCache} {id i : String} {now : Nat} (h : i ∈ (c.add id now).ids) :
    i ∈ c.ids ∨ i = id := by
  by_cases hc : c.has id = true
  · simp only [add,hc,if_true] at h
    exact .inl h
  · have hn : id ∉ JsMap.keys c.cache := fun hm => hc ((has_iff c id).mpr hm)
    simp only [add,hc,Bool.false_eq_true,if_false,set_new now hn] at h
    have hm : i ∈ JsMap.keys (c.cache ++ [(id,now)]) := by
      split at h
      · exact ((dropOldest_sublist _).map _).subset h
      · exact h
    simpa [JsMap.keys,ids] using hm

theorem cleanup_sublist (c : SeenCache) (now : Nat) : (c.cleanup now).ids.Sublist c.ids :=
  (List.dropWhile_sublist _).map _

/-- Only what is older than the time to live is forgotten. -/
theorem mem_cleanup_or {c : SeenCache} {e : String × Nat} (now : Nat) (h : e ∈ c.cache) :
    e ∈ (c.cleanup now).cache ∨ now-e.2 > ttlMs := by
  unfold cleanup
  generalize c.cache = m at h
  induction m with
  | nil => cases h
  | cons f m ih =>
    rw [List.dropWhile_cons]
    split
    · next hf =>
      rcases List.mem_cons.mp h with rfl | h
      · exact .inr (by simpa using hf)
      · exact ih h
    · exact .inl h

/-- While nothing is too old the timer does nothing. -/
theorem cleanup_fresh {c : SeenCache} {now : Nat} (h : ∀ e ∈ c.cache, now-e.2 ≤ ttlMs) :
    c.cleanup now = c := by
  obtain ⟨m⟩ := c
  cases m with
  | nil => rfl
  | cons e m =>
    have he := h e List.mem_cons_self
    rw [cleanup,List.dropWhile_cons_of_neg (by simpa using he)]

/-- Distinct ids from a known set are no more than the set has. -/
theorem ids_length_le {c : SeenCache} (known : Finset String) (hn : c.ids.Nodup)
    (hk : ∀ id ∈ c.ids, id ∈ known) : c.ids.length ≤ known.card := by
  rw [← List.toFinset_card_of_nodup hn]
  apply Finset.card_le_card
  intro id hid
  exact hk id (List.mem_toFinset.mp hid)

end SeenCache
