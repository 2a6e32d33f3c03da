import AetherLite.Lib.JsMap
import Mathlib.Algebra.BigOperators.Group.List.Lemmas
import Mathlib.Algebra.Order.Ring.Nat
import Mathlib.Data.List.Dedup

/-! A map that counts: under each key how often it is in a list, and no entry for what is not. -/
set_option autoImplicit false

namespace Tally

variable {κ ν : Type*} [DecidableEq κ]

/-- `count` is the part of a value that counts. -/
structure Counts (count : ν → Nat) (m : JsMap κ ν) (xs : List κ) : Prop where
  nodup : (JsMap.keys m).Nodup
  get_eq : ∀ k, (JsMap.get m k).map count = if xs.count k = 0 then none else some (xs.count k)

variable {count : ν → Nat} {m : JsMap κ ν} {xs ys : List κ} {k : κ} {v : ν}

theorem counts_nil (count : ν → Nat) : Counts count ([] : JsMap κ ν) [] where
  nodup := List.nodup_nil
  get_eq _ := rfl

/-- One key is counted anew. -/
theorem Counts.set (h : Counts count m xs) (hpos : 0 < count v) (hv : count v = ys.count k)
    (hother : ∀ k', k' ≠ k → ys.count k' = xs.count k') : Counts count (JsMap.set m k v) ys where
  nodup := JsMap.nodup_keys_set h.nodup k v
  get_eq k' := by
    by_cases hk : k' = k
    · subst hk
      rw [JsMap.get_set_self,if_neg (by omega),hv.symm]
      rfl
    · rw [JsMap.get_set_ne m hk,h.get_eq,hother k' hk]

theorem Counts.delete (h : Counts count m xs) (hk : ys.count k = 0)
    (hother : ∀ k', k' ≠ k → ys.count k' = xs.count k') : Counts count (JsMap.delete m k) ys where
  nodup := JsMap.nodup_keys_delete h.nodup k
  get_eq k' := by
    by_cases he : k' = k
    · subst he
      rw [JsMap.get_delete_self,if_pos hk]
      rfl
    · rw [JsMap.get_delete_ne he,h.get_eq,hother k' he]

theorem Counts.get_none (h : Counts count m xs) (hg : JsMap.get m k = none) : xs.count k = 0 := by
  have hk := h.get_eq k
  rw [hg] at hk
  by_contra hne
  rw [if_neg hne] at hk
  cases hk

theorem Counts.get_some (h : Counts count m xs) (hg : JsMap.get m k = some v) :
    count v = xs.count k ∧ 0 < count v := by
  have hk := h.get_eq k
  rw [hg] at hk
  split at hk
  · cases hk
  · have hv : count v = xs.count k := Option.some.inj hk
    omega

theorem Counts.mem_keys_iff (h : Counts count m xs) (k : κ) : k ∈ JsMap.keys m ↔ k ∈ xs := by
  cases hg : JsMap.get m k with
  | none =>
    have hnot := (JsMap.get_eq_none_iff m k).mp hg
    have hzero := List.count_eq_zero.mp (h.get_none hg)
    simp [hnot,hzero]
  | some v =>
    have hmem : k ∈ JsMap.keys m := List.mem_map_of_mem (JsMap.mem_of_get hg)
    obtain ⟨hv,hpos⟩ := h.get_some hg
    have hin : k ∈ xs := List.count_pos_iff.mp (hv ▸ hpos)
    simp [hmem,hin]

/-- All that is counted. -/
theorem Counts.sum (h : Counts count m xs) : ((JsMap.values m).map count).sum = xs.length := by
  have hperm : (JsMap.keys m).Perm xs.dedup :=
    (List.perm_ext_iff_of_nodup h.nodup (List.nodup_dedup xs)).mpr fun k => by
      rw [h.mem_keys_iff,List.mem_dedup]
  have hcount : (JsMap.values m).map count = (JsMap.keys m).map fun k => xs.count k := by
    rw [JsMap.values,JsMap.keys,List.map_map,List.map_map]
    apply List.map_congr_left
    intro e he
    exact (h.get_some (JsMap.get_of_mem h.nodup he)).1
  rw [hcount,(hperm.map _).sum_eq]
  exact List.sum_map_count_dedup_eq_length xs

end Tally
