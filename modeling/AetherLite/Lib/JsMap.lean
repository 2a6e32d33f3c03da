import Mathlib.Algebra.GroupWithZero.Nat
import Mathlib.Data.List.Basic

/-! The insertion-ordered Map of ECMAScript, as an association list. Keys are
compared with `==`, which need not be reflexive (two objects that look alike are
different keys), so only the lemmas that say so ask for lawful keys. -/
set_option autoImplicit false

abbrev JsMap (κ ν : Type*) := List (κ × ν)

namespace JsMap

variable {κ ν : Type*} [BEq κ]

def get : JsMap κ ν → κ → Option ν
  | [], _ => none
  | e :: m, k => if e.1 == k then some e.2 else get m k

def has (m : JsMap κ ν) (k : κ) : Bool := (get m k).isSome

/-- An existing key keeps its place, a new one goes to the end. -/
def set : JsMap κ ν → κ → ν → JsMap κ ν
  | [], k, v => [(k,v)]
  | e :: m, k, v => if e.1 == k then (e.1,v) :: m else e :: set m k v

def delete (m : JsMap κ ν) (k : κ) : JsMap κ ν := m.filter fun e => !(e.1 == k)

def keys (m : JsMap κ ν) : List κ := m.map Prod.fst
def values (m : JsMap κ ν) : List ν := m.map Prod.snd

theorem get_mem_values {m : JsMap κ ν} {k : κ} {v : ν} (h : get m k = some v) :
    v ∈ values m := by
  induction m with
  | nil => simp [get] at h
  | cons e m ih =>
    unfold get at h
    split at h
    · cases h
      simp [values]
    · exact List.mem_cons_of_mem _ (ih h)

theorem get_mem {m : JsMap κ ν} {k : κ} {v : ν} (h : get m k = some v) :
    ∃ k', (k',v) ∈ m ∧ (k' == k) = true := by
  induction m with
  | nil => simp [get] at h
  | cons e m ih =>
    unfold get at h
    split at h
    · next he =>
      cases h
      exact ⟨e.1,List.mem_cons_self,he⟩
    · obtain ⟨k',hm,hk⟩ := ih h
      exact ⟨k',List.mem_cons_of_mem _ hm,hk⟩

theorem get_none {m : JsMap κ ν} {k : κ} (h : get m k = none) : ∀ e ∈ m, (e.1 == k) = false := by
  induction m with
  | nil => simp
  | cons e m ih =>
    unfold get at h
    split at h
    · cases h
    · next he =>
      intro f hf
      rcases List.mem_cons.mp hf with rfl | hf
      · simpa using he
      · exact ih h f hf

theorem set_of_get_none {m : JsMap κ ν} {k : κ} (v : ν) (h : get m k = none) :
    set m k v = m ++ [(k,v)] := by
  induction m with
  | nil => rfl
  | cons e m ih =>
    unfold get at h
    split at h
    · cases h
    · next he => simp [set,he,ih h]

/-- A new value under a key that is there changes no other entry. -/
theorem map_values_set {ρ : Type*} {f : ν → ρ} {m : JsMap κ ν} {k : κ} {v w : ν}
    (hg : get m k = some v) (hf : f w = f v) :
    (values (set m k w)).map f = (values m).map f := by
  induction m with
  | nil => simp [get] at hg
  | cons e m ih =>
    unfold get at hg
    split at hg
    · next he =>
      cases hg
      simp [set,he,values,hf]
    · next he =>
      have hm := ih hg
      simp only [values,List.map_map] at hm
      simp [set,he,values,hm]

theorem values_set_of_get_none {m : JsMap κ ν} {k : κ} (v : ν) (h : get m k = none) :
    values (set m k v) = values m ++ [v] := by
  simp [values,set_of_get_none v h]

theorem mem_values_set {m : JsMap κ ν} {k : κ} {v w : ν} (h : w ∈ values (set m k v)) :
    w = v ∨ w ∈ values m := by
  induction m with
  | nil => exact .inl (by simpa [values,set] using h)
  | cons e m ih =>
    unfold set at h
    split at h
    · rcases List.mem_cons.mp h with rfl | h
      · exact .inl rfl
      · exact .inr (List.mem_cons_of_mem _ h)
    · rcases List.mem_cons.mp h with rfl | h
      · exact .inr List.mem_cons_self
      · exact (ih h).imp_right (List.mem_cons_of_mem _)

theorem mem_set_or {m : JsMap κ ν} {k : κ} {w : ν} {e : κ × ν} (h : e ∈ set m k w) :
    e ∈ m ∨ e.2 = w ∧ (e.1 = k ∨ (e.1 == k) = true) := by
  induction m with
  | nil =>
    have he : e = (k,w) := by simpa [set] using h
    exact .inr ⟨by rw [he],.inl (by rw [he])⟩
  | cons f m ih =>
    unfold set at h
    split at h
    · next hf =>
      rcases List.mem_cons.mp h with rfl | h
      · exact .inr ⟨rfl,.inr hf⟩
      · exact .inl (List.mem_cons_of_mem _ h)
    · rcases List.mem_cons.mp h with rfl | h
      · exact .inl List.mem_cons_self
      · exact (ih h).imp_left (List.mem_cons_of_mem _)

theorem nodup_keys_delete {m : JsMap κ ν} (h : (keys m).Nodup) (k : κ) :
    (keys (delete m k)).Nodup := h.sublist (List.filter_sublist.map _)

theorem delete_sublist (m : JsMap κ ν) (k : κ) : (delete m k).Sublist m := List.filter_sublist

theorem length_set (m : JsMap κ ν) (k : κ) (v : ν) :
    (set m k v).length = if has m k then m.length else m.length+1 := by
  induction m with
  | nil => simp [set,has,get]
  | cons e m ih =>
    by_cases he : (e.1 == k) = true
    · simp [set,has,get,he]
    · simp only [set,has,get,he,Bool.false_eq_true,if_false,List.length_cons]
      have hi := ih
      unfold has at hi
      split at hi <;> simp_all

section PartialEquiv
variable [PartialEquivBEq κ]

theorem get_congr (m : JsMap κ ν) {k k' : κ} (h : k == k') : get m k = get m k' := by
  induction m with
  | nil => rfl
  | cons e m ih => simp only [get,BEq.congr_right h,ih]

theorem get_set (m : JsMap κ ν) (k k' : κ) (v : ν) :
    get (set m k v) k' = if k == k' then some v else get m k' := by
  induction m with
  | nil => rfl
  | cons e m ih =>
    by_cases he : (e.1 == k) = true
    · simp only [set,he,if_true,get,BEq.congr_left he]
      split
      · rfl
      · rfl
    · simp only [set,he,Bool.false_eq_true,if_false,get,ih]
      by_cases hk : (e.1 == k') = true
      · have hne : ¬(k == k') = true := fun h => he (BEq.trans hk (BEq.symm h))
        simp [hk,hne]
      · simp [hk]

end PartialEquiv

section Lawful
variable [LawfulBEq κ]

@[simp] theorem get_set_self (m : JsMap κ ν) (k : κ) (v : ν) : get (set m k v) k = some v := by
  induction m with
  | nil => simp [get,set]
  | cons e m ih =>
    by_cases h : e.1 = k
    · simp [get,set,h]
    · simp [get,set,h,ih]

theorem get_set_ne (m : JsMap κ ν) {k k' : κ} (hk : k' ≠ k) (v : ν) :
    get (set m k v) k' = get m k' := by
  induction m with
  | nil => simp [get,set,Ne.symm hk]
  | cons e m ih =>
    by_cases h : e.1 = k
    · simp [get,set,h,Ne.symm hk]
    · simp [get,set,h,ih]

theorem get_eq_none_iff (m : JsMap κ ν) (k : κ) : get m k = none ↔ k ∉ keys m := by
  induction m with
  | nil => simp [get,keys]
  | cons e m ih =>
    by_cases h : e.1 = k
    · simp [get,keys,h]
    · simpa [get,keys,h,Ne.symm h] using ih

theorem has_iff (m : JsMap κ ν) (k : κ) : has m k = true ↔ k ∈ keys m := by
  rw [has,Option.isSome_iff_ne_none,ne_eq,get_eq_none_iff,not_not]

theorem nodup_keys_set {m : JsMap κ ν} (h : (keys m).Nodup) (k : κ) (v : ν) :
    (keys (set m k v)).Nodup := by
  induction m with
  | nil => simp [keys,set]
  | cons e m ih =>
    simp only [keys,List.map_cons,List.nodup_cons] at h
    by_cases he : e.1 = k
    · rw [set,if_pos (by simpa using he)]
      exact List.nodup_cons.mpr h
    · have hne : (e.1 == k) = false := by simpa using he
      have hk : e.1 ∉ keys (set m k v) := by
        rw [← get_eq_none_iff,get_set_ne m he,get_eq_none_iff]
        exact h.1
      rw [set,hne]
      exact List.nodup_cons.mpr ⟨hk,ih h.2⟩

theorem get_filter (m : JsMap κ ν) (f : κ → Bool) (k : κ) :
    get (m.filter fun e => f e.1) k = if f k then get m k else none := by
  induction m with
  | nil => simp [get]
  | cons e m ih =>
    by_cases hk : e.1 = k
    · cases hf : f k <;> simp [get,hk,hf,ih]
    · cases hf : f e.1 <;> simp [get,hk,hf,ih]

theorem get_delete_self (m : JsMap κ ν) (k : κ) : get (delete m k) k = none := by
  rw [get_eq_none_iff]
  simp [keys,delete]

theorem mem_of_get {m : JsMap κ ν} {k : κ} {v : ν} (h : get m k = some v) : (k,v) ∈ m := by
  induction m with
  | nil => simp [get] at h
  | cons e m ih =>
    by_cases he : e.1 = k
    · simp only [get,he,beq_self_eq_true,if_true,Option.some.injEq] at h
      rw [← he,← h]
      exact List.mem_cons_self
    · have hne : (e.1 == k) = false := by simpa using he
      simp only [get,hne,Bool.false_eq_true,if_false] at h
      exact List.mem_cons_of_mem _ (ih h)

theorem get_of_mem {m : JsMap κ ν} (hn : (keys m).Nodup) {k : κ} {v : ν} (h : (k,v) ∈ m) :
    get m k = some v := by
  induction m with
  | nil => cases h
  | cons e m ih =>
    simp only [keys,List.map_cons,List.nodup_cons] at hn
    rcases List.mem_cons.mp h with rfl | h
    · simp [get]
    · have hne : e.1 ≠ k := fun he => hn.1 (he ▸ List.mem_map_of_mem h)
      simpa [get,hne] using ih hn.2 h

/-- A value that is there is replaced in its place. -/
theorem set_of_get_some {m : JsMap κ ν} {k : κ} {v : ν} (h : get m k = some v) :
    ∃ l r, m = l ++ (k,v) :: r ∧ ∀ w, set m k w = l ++ (k,w) :: r := by
  induction m with
  | nil => cases h
  | cons e m ih =>
    obtain ⟨k',v'⟩ := e
    by_cases hk : k' = k
    · subst hk
      have hv : v' = v := by simpa [get] using h
      exact ⟨[],m,by simp [hv],fun w => by simp [set]⟩
    · obtain ⟨l,r,hm,hset⟩ := ih (by simpa [get,hk] using h)
      exact ⟨(k',v') :: l,r,by simp [hm],fun w => by simp [set,hk,hset w]⟩

theorem set_self {m : JsMap κ ν} {k : κ} {v : ν} (h : get m k = some v) : set m k v = m := by
  obtain ⟨l,r,hm,hset⟩ := set_of_get_some h
  rw [hset,hm]

theorem set_set (m : JsMap κ ν) (k : κ) (v w : ν) : set (set m k v) k w = set m k w := by
  induction m with
  | nil => simp [set]
  | cons e m ih =>
    by_cases he : e.1 = k
    · simp [set,he]
    · simp [set,he,ih]

theorem mem_set {m : JsMap κ ν} {k : κ} {w : ν} {e : κ × ν} (h : e ∈ set m k w) :
    e = (k,w) ∨ e ∈ m := by
  rcases mem_set_or h with h | ⟨hw,hk | hk⟩
  · exact .inr h
  · exact .inl (Prod.ext hk hw)
  · exact .inl (Prod.ext (beq_iff_eq.mp hk) hw)

theorem get_delete_ne {m : JsMap κ ν} {k k' : κ} (hk : k' ≠ k) :
    get (delete m k) k' = get m k' := by
  induction m with
  | nil => rfl
  | cons e m ih =>
    by_cases he : e.1 = k
    · have hd : delete (e :: m) k = delete m k := by simp [delete,he]
      rw [hd,ih]
      simp [get,he,Ne.symm hk]
    · have hd : delete (e :: m) k = e :: delete m k := by simp [delete,he]
      rw [hd]
      simp [get,ih]

theorem get_of_get_delete {m : JsMap κ ν} {k k' : κ} {v : ν} (h : get (delete m k) k' = some v) :
    get m k' = some v := by
  by_cases hk : k' = k
  · rw [hk,get_delete_self] at h
    cases h
  · rwa [get_delete_ne hk] at h

/-! The entries of a map, each with a weight. -/

def total (w : κ × ν → Nat) (m : JsMap κ ν) : Nat := (m.map w).sum

omit [BEq κ] [LawfulBEq κ] in
theorem total_sublist (w : κ × ν → Nat) {m m' : JsMap κ ν} (h : m'.Sublist m) :
    total w m' ≤ total w m := by
  induction h with
  | slnil => exact Nat.le_refl _
  | cons e _ ih =>
    simp only [total,List.map_cons,List.sum_cons] at ih ⊢
    omega
  | cons_cons e _ ih =>
    simp only [total,List.map_cons,List.sum_cons] at ih ⊢
    omega

omit [BEq κ] [LawfulBEq κ] in
theorem total_mono {w w' : κ × ν → Nat} (h : ∀ e, w e ≤ w' e) (m : JsMap κ ν) :
    total w m ≤ total w' m := by
  induction m with
  | nil => exact Nat.le_refl _
  | cons e m ih =>
    have he := h e
    simp only [total,List.map_cons,List.sum_cons] at ih ⊢
    omega

theorem delete_eq_self {m : JsMap κ ν} {k : κ} (h : k ∉ keys m) : delete m k = m := by
  apply List.filter_eq_self.mpr
  intro e he
  have hne : e.1 ≠ k := fun heq => h (heq ▸ List.mem_map_of_mem he)
  simpa using hne

/-- A key that is there is taken out of its place. -/
theorem delete_of_get_some {m : JsMap κ ν} (hn : (keys m).Nodup) {k : κ} {v : ν}
    (h : get m k = some v) : ∃ l r, m = l ++ (k,v) :: r ∧ delete m k = l ++ r := by
  obtain ⟨l,r,rfl,-⟩ := set_of_get_some h
  simp only [keys,List.map_append,List.map_cons] at hn
  obtain ⟨hnew,-⟩ := List.nodup_cons.mp (List.perm_middle.nodup_iff.mp hn)
  rw [List.mem_append,not_or] at hnew
  have hl : delete l k = l := delete_eq_self hnew.1
  have hr : delete r k = r := delete_eq_self hnew.2
  unfold delete at hl hr ⊢
  exact ⟨l,r,rfl,by simp [hl,hr]⟩

omit [LawfulBEq κ] in
theorem keys_delete (m : JsMap κ ν) (k : κ) : keys (delete m k) = (keys m).filter (· != k) := by
  rw [keys,keys,delete,List.filter_map]
  rfl

theorem total_set {m : JsMap κ ν} (hn : (keys m).Nodup) (w : κ × ν → Nat) (k : κ) (v : ν) :
    total w (set m k v) = total w (delete m k)+w (k,v) := by
  induction m with
  | nil => simp [total,set,delete]
  | cons e m ih =>
    obtain ⟨hnew,hn⟩ := List.nodup_cons.mp hn
    by_cases he : e.1 = k
    · have hd : delete (e :: m) k = m := by
        have h := delete_eq_self (he ▸ hnew)
        unfold delete at h ⊢
        simp [he,h]
      rw [hd]
      simp [set,he,total]
      omega
    · have hd : delete (e :: m) k = e :: delete m k := by simp [delete,he]
      have hs : set (e :: m) k v = e :: set m k v := by simp [set,he]
      have ih := ih hn
      rw [hd,hs]
      simp only [total,List.map_cons,List.sum_cons] at ih ⊢
      omega

theorem total_of_get {m : JsMap κ ν} (hn : (keys m).Nodup) (w : κ × ν → Nat) {k : κ} {v : ν}
    (h : get m k = some v) : total w m = total w (delete m k)+w (k,v) := by
  have hs := total_set hn w k v
  rw [set_self h] at hs
  exact hs

/-- What a part of a map still has is what the map had. -/
theorem get_sublist {m m' : JsMap κ ν} (hn : (keys m).Nodup) (h : m'.Sublist m) {k : κ} {v : ν}
    (hg : get m' k = some v) : get m k = some v :=
  get_of_mem hn (h.mem (mem_of_get hg))

omit [LawfulBEq κ] in
/-- A part of a map that lacks one of its keys is smaller. -/
theorem length_lt_of_sublist {m m' : JsMap κ ν} (h : m'.Sublist m) {k : κ}
    (hk : has m k = true) (hk' : has m' k = false) : m'.length < m.length := by
  have hne : m' ≠ m := fun heq => by rw [heq,hk] at hk'; cases hk'
  have hle := h.length_le
  have hlen : m'.length ≠ m.length := fun heq => hne (h.eq_of_length heq)
  omega

end Lawful

/-! Rows that are put into a map, each under its key and one after the other. -/

section Overlay
variable {ρ : Type*} {key : ρ → Option κ} {holds : κ → ρ → ν → Prop} {rows : List ρ}
  {m m' m'' : JsMap κ ν} {k : κ} {x : ν} {r : ρ}

/-- Every entry is one of the first map, or one of the rows. -/
def Overlaid (key : ρ → Option κ) (holds : κ → ρ → ν → Prop) (rows : List ρ)
    (m m' : JsMap κ ν) : Prop :=
  ∀ k, get m' k = get m k ∨ ∃ r ∈ rows, ∃ x, key r = some k ∧ get m' k = some x ∧ holds k r x

/-- The row is in the map. -/
def Covered (key : ρ → Option κ) (holds : κ → ρ → ν → Prop) (m : JsMap κ ν) (r : ρ) : Prop :=
  ∀ k, key r = some k → ∃ x, get m k = some x ∧ holds k r x

theorem Overlaid.refl (m : JsMap κ ν) : Overlaid key holds rows m m := fun _ => .inl rfl

theorem Overlaid.trans (h : Overlaid key holds rows m m') (h' : Overlaid key holds rows m' m'') :
    Overlaid key holds rows m m'' := by
  intro k
  rcases h' k with hk | hk
  · rw [hk]
    exact h k
  · exact .inr hk

theorem Overlaid.mono {rows' : List ρ} (h : Overlaid key holds rows m m')
    (hr : ∀ r ∈ rows, r ∈ rows') : Overlaid key holds rows' m m' := by
  intro k
  refine (h k).imp_right ?_
  rintro ⟨r,hmem,h⟩
  exact ⟨r,hr r hmem,h⟩

theorem Overlaid.get_eq (h : Overlaid key holds [] m m') (k : κ) : get m' k = get m k := by
  refine (h k).resolve_right ?_
  rintro ⟨r,hr,-⟩
  cases hr

theorem Covered.congr (h : Covered key holds m r) (hm : ∀ k, get m' k = get m k) :
    Covered key holds m' r := by
  intro k hk
  rw [hm k]
  exact h k hk

variable [LawfulBEq κ]

theorem Overlaid.set (h : Overlaid key holds rows m m') (hr : r ∈ rows) (hk : key r = some k)
    (hx : holds k r x) : Overlaid key holds rows m (set m' k x) := by
  intro k'
  by_cases he : k' = k
  · subst he
    exact .inr ⟨r,hr,x,hk,get_set_self _ _ _,hx⟩
  · rw [get_set_ne m' he]
    exact h k'

theorem covered_set_self (hk : key r = some k) (hx : holds k r x) :
    Covered key holds (set m k x) r := by
  intro k' hk'
  rw [hk] at hk'
  cases hk'
  exact ⟨x,get_set_self _ _ _,hx⟩

theorem Covered.set_ne (h : Covered key holds m r) (hk : key r ≠ some k) :
    Covered key holds (set m k x) r := by
  intro k' hk'
  have hne : k' ≠ k := by
    rintro rfl
    exact hk hk'
  rw [get_set_ne m hne]
  exact h k' hk'

end Overlay

end JsMap
