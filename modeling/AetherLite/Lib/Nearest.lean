import AetherLite.Lib.JsOps

/-! The first elements of a sorted list: who is among them, and when the first elements of two
lists have one in common. -/
set_option autoImplicit false

namespace Js

section
variable {α : Type} {cmp : α → α → Number} {key : α → Rat} {as bs : List α} {a b : α} {n : Nat}

theorem mem_take_iff_getElem {l : List α} :
    a ∈ l.take n ↔ ∃ (i : Nat) (h : i < l.length), i < n ∧ l[i] = a := by
  rw [List.mem_iff_getElem]
  constructor
  · rintro ⟨i,hi,rfl⟩
    rw [List.length_take] at hi
    exact ⟨i,by omega,by omega,by rw [List.getElem_take]⟩
  · rintro ⟨i,hi,hin,rfl⟩
    exact ⟨i,by rw [List.length_take]; omega,by rw [List.getElem_take]⟩

theorem countP_le_add (p q : α → Bool) (l : List α) :
    l.countP p ≤ l.countP (fun a => p a && !q a)+l.countP q := by
  induction l with
  | nil => exact Nat.zero_le _
  | cons a l ih =>
    simp only [List.countP_cons]
    cases p a <;> cases q a <;> simp <;> omega

/-- Whatever has a smaller key than one of the first is one of them. -/
theorem mem_take_of_lt (h : ComparesBy cmp key as) (ha : a ∈ (sortBy cmp as).take n) (hb : b ∈ as)
    (hlt : key b < key a) : b ∈ (sortBy cmp as).take n := by
  obtain ⟨i,hi,hin,rfl⟩ := mem_take_iff_getElem.mp ha
  obtain ⟨j,hj,rfl⟩ := List.mem_iff_getElem.mp ((sortBy_perm cmp as).symm.subset hb)
  refine mem_take_iff_getElem.mpr ⟨j,hj,?_,rfl⟩
  by_contra hjn
  have hle := List.pairwise_iff_getElem.mp (sortBy_sorted h) i j hi hj (by omega)
  exact absurd hlt (not_lt.mpr hle)

/-- One of the first has few with smaller keys. -/
theorem countP_lt_of_mem_take (h : ComparesBy cmp key as) (ha : a ∈ (sortBy cmp as).take n) :
    as.countP (fun b => decide (key b < key a)) < n := by
  obtain ⟨i,hi,hin,rfl⟩ := mem_take_iff_getElem.mp ha
  rw [← (sortBy_perm cmp as).countP_eq]
  have hsplit := List.take_append_drop i (sortBy cmp as)
  have hrest : ((sortBy cmp as).drop i).countP
      (fun b => decide (key b < key (sortBy cmp as)[i])) = 0 := by
    rw [List.countP_eq_zero]
    intro b hb
    obtain ⟨j,hj,rfl⟩ := List.mem_iff_getElem.mp hb
    rw [List.length_drop] at hj
    rw [List.getElem_drop,decide_eq_true_eq,not_lt]
    rcases Nat.eq_zero_or_pos j with rfl | hpos
    · exact le_rfl
    · exact List.pairwise_iff_getElem.mp (sortBy_sorted h) i (i+j) hi (by omega) (by omega)
  calc (sortBy cmp as).countP (fun b => decide (key b < key (sortBy cmp as)[i]))
      = ((sortBy cmp as).take i).countP (fun b => decide (key b < key (sortBy cmp as)[i])) +
          ((sortBy cmp as).drop i).countP (fun b => decide (key b < key (sortBy cmp as)[i])) := by
        rw [← List.countP_append,hsplit]
    _ ≤ ((sortBy cmp as).take i).length := by
        rw [hrest,Nat.add_zero]
        exact List.countP_le_length
    _ < n := by
        rw [List.length_take]
        omega

/-- Who has few with keys that are not larger, itself among them, is one of the first. -/
theorem mem_take_of_countP_le (h : ComparesBy cmp key as) (ha : a ∈ as)
    (hfew : as.countP (fun b => decide (key b ≤ key a)) ≤ n) : a ∈ (sortBy cmp as).take n := by
  obtain ⟨i,hi,rfl⟩ := List.mem_iff_getElem.mp ((sortBy_perm cmp as).symm.subset ha)
  refine mem_take_iff_getElem.mpr ⟨i,hi,?_,rfl⟩
  rw [← (sortBy_perm cmp as).countP_eq] at hfew
  have hall : ((sortBy cmp as).take (i+1)).countP
      (fun b => decide (key b ≤ key (sortBy cmp as)[i])) = ((sortBy cmp as).take (i+1)).length := by
    rw [List.countP_eq_length]
    intro b hb
    obtain ⟨j,hj,hji,rfl⟩ := mem_take_iff_getElem.mp hb
    rw [decide_eq_true_eq]
    rcases Nat.lt_or_eq_of_le (Nat.le_of_lt_succ hji) with hlt | rfl
    · exact List.pairwise_iff_getElem.mp (sortBy_sorted h) j i hj hi hlt
    · exact le_rfl
  have hsub := (List.take_sublist (i+1) (sortBy cmp as)).countP_le
    (p := fun b => decide (key b ≤ key (sortBy cmp as)[i]))
  rw [hall,List.length_take] at hsub
  omega

/-- Two lists that each hold one of the first of the other have one of the first in common. -/
theorem take_sortBy_meet (has : ComparesBy cmp key as) (hbs : ComparesBy cmp key bs)
    (hkey : ∀ x ∈ as, ∀ y ∈ bs, key x = key y → x = y) (ha : a ∈ (sortBy cmp as).take n)
    (hab : a ∈ bs) (hb : b ∈ (sortBy cmp bs).take n) (hba : b ∈ as) :
    ∃ x, x ∈ (sortBy cmp as).take n ∧ x ∈ (sortBy cmp bs).take n := by
  have hmem : a ∈ as := (sortBy_perm cmp as).subset (List.mem_of_mem_take ha)
  have hmem' : b ∈ bs := (sortBy_perm cmp bs).subset (List.mem_of_mem_take hb)
  rcases lt_trichotomy (key a) (key b) with hlt | heq | hlt
  · exact ⟨a,ha,mem_take_of_lt hbs hb hab hlt⟩
  · obtain rfl := hkey a hmem b hmem' heq
    exact ⟨a,ha,hb⟩
  · exact ⟨b,mem_take_of_lt has ha hba hlt,hb⟩

end

end Js
