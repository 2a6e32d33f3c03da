import Mathlib.Data.List.Permutation
import Mathlib.Data.List.GetD
import Mathlib.Data.Fintype.BigOperators
import Mathlib.Combinatorics.Enumerative.DoubleCounting
import Mathlib.Algebra.BigOperators.Fin
import Mathlib.Data.Fintype.Pi
import Mathlib.Data.Nat.Factorial.BigOperators
import Mathlib.Logic.Equiv.Basic

/-! The shuffle that swaps from the end: each order of the elements comes from one choice of
indices, so that no element has a better place than another. -/
set_option autoImplicit false

namespace Shuffle

open List

section
variable {α : Type*} [Inhabited α]

def swapAt (l : List α) (i j : Nat) : List α :=
  (l.set i (l.getD j default)).set j (l.getD i default)

/-- From place `i` down to the second, each place is swapped with one that is not after it. -/
def shuffle (draw : Nat → Nat) : Nat → List α → List α
  | 0, l => l
  | i+1, l => shuffle draw i (swapAt l (i+1) (draw (i+1)))

@[simp] theorem length_swapAt (l : List α) (i j : Nat) : (swapAt l i j).length = l.length := by
  simp [swapAt]

@[simp] theorem length_shuffle (draw : Nat → Nat) (i : Nat) (l : List α) :
    (shuffle draw i l).length = l.length := by
  induction i generalizing l with
  | zero => rfl
  | succ i ih => rw [shuffle,ih,length_swapAt]

theorem getD_swapAt_left {l : List α} {i j : Nat} (hi : i < l.length) (hj : j < l.length) :
    (swapAt l i j)[i]? = l[j]? := by
  unfold swapAt
  by_cases hij : j = i
  · subst hij
    simp [hj]
  · rw [getElem?_set_ne hij,getElem?_set_self hi]
    simp [hj]

theorem getElem?_swapAt_of_ne {l : List α} {i j k : Nat} (hi : k ≠ i) (hj : k ≠ j) :
    (swapAt l i j)[k]? = l[k]? := by
  unfold swapAt
  rw [getElem?_set_ne (Ne.symm hj),getElem?_set_ne (Ne.symm hi)]

theorem swapAt_perm {l : List α} {i j : Nat} (hi : i < l.length) (hj : j < l.length) :
    (swapAt l i j).Perm l := by
  unfold swapAt
  rw [getD_eq_getElem _ _ hj,getD_eq_getElem _ _ hi]
  exact set_set_perm hi hj

/-- The places after the one that the shuffle starts from stay as they are. -/
theorem getElem?_shuffle_of_lt {draw : Nat → Nat} (hdraw : ∀ i, draw i ≤ i) {i k : Nat}
    (h : i < k) (l : List α) : (shuffle draw i l)[k]? = l[k]? := by
  induction i generalizing l with
  | zero => rfl
  | succ i ih =>
    have hd := hdraw (i+1)
    rw [shuffle,ih (by omega),getElem?_swapAt_of_ne (by omega) (by omega)]

theorem shuffle_perm {draw : Nat → Nat} (hdraw : ∀ i, draw i ≤ i) {i : Nat} {l : List α}
    (hi : i < l.length ∨ i = 0) : (shuffle draw i l).Perm l := by
  induction i generalizing l with
  | zero => exact Perm.refl l
  | succ i ih =>
    have hi : i+1 < l.length := by omega
    have hd := hdraw (i+1)
    rw [shuffle]
    exact (ih (.inl (by simp; omega))).trans (swapAt_perm hi (by omega))

theorem shuffle_congr {draw draw' : Nat → Nat} {i : Nat}
    (h : ∀ k, 0 < k → k ≤ i → draw k = draw' k) (l : List α) :
    shuffle draw i l = shuffle draw' i l := by
  induction i generalizing l with
  | zero => rfl
  | succ i ih =>
    rw [shuffle,shuffle,h (i+1) (Nat.succ_pos i) (le_refl _)]
    exact ih (fun k h0 hk => h k h0 (by omega)) _

/-- The order tells which indices were drawn. -/
theorem draw_of_shuffle {draw draw' : Nat → Nat} (hdraw : ∀ i, draw i ≤ i)
    (hdraw' : ∀ i, draw' i ≤ i) {i : Nat} {l : List α} (hl : l.Nodup)
    (hi : i < l.length ∨ i = 0) (h : shuffle draw i l = shuffle draw' i l) :
    ∀ k, 0 < k → k ≤ i → draw k = draw' k := by
  induction i generalizing l with
  | zero => intro k h0 hk; omega
  | succ i ih =>
    have hi : i+1 < l.length := by omega
    have hd := hdraw (i+1)
    have hd' := hdraw' (i+1)
    rw [shuffle,shuffle] at h
    have htop : draw (i+1) = draw' (i+1) := by
      have hat := congrArg (fun m => m[i+1]?) h
      rw [getElem?_shuffle_of_lt hdraw (Nat.lt_succ_self i),
        getElem?_shuffle_of_lt hdraw' (Nat.lt_succ_self i),getD_swapAt_left hi (by omega),
        getD_swapAt_left hi (by omega)] at hat
      exact (getElem?_inj (by omega) hl).mp hat
    rw [← htop] at h
    intro k h0 hk
    by_cases hk' : k ≤ i
    · exact ih ((swapAt_perm hi (by omega)).nodup_iff.mpr hl) (.inl (by simp; omega)) h k h0 hk'
    · rw [show k = i+1 by omega]
      exact htop

end

/-- The indices of one shuffle of `n` elements: one for each place, not after it. -/
abbrev Draws (n : Nat) := (i : Fin n) → Fin (i.1+1)

def Draws.at {n : Nat} (d : Draws n) (k : Nat) : Nat := if h : k < n then (d ⟨k,h⟩).1 else 0

theorem Draws.at_le {n : Nat} (d : Draws n) (k : Nat) : d.at k ≤ k := by
  unfold Draws.at
  split
  · next h => exact Nat.lt_succ_iff.mp (d ⟨k,h⟩).2
  · exact Nat.zero_le k

theorem Draws.ext_at {n : Nat} {d d' : Draws n} (h : ∀ k, 0 < k → k < n → d.at k = d'.at k) :
    d = d' := by
  funext i
  apply Fin.ext
  by_cases h0 : i.1 = 0
  · have h1 := (d i).2
    have h2 := (d' i).2
    omega
  · have hi := h i.1 (by omega) i.2
    simpa [Draws.at] using hi

theorem card_draws (n : Nat) : Fintype.card (Draws n) = n.factorial := by
  rw [Fintype.card_pi]
  simp only [Fintype.card_fin]
  rw [Fin.prod_univ_eq_prod_range (fun i => i+1) n,Finset.prod_range_add_one_eq_factorial]

section
variable {α : Type*} [Inhabited α]

def shuffled (l : List α) (d : Draws l.length) : List α := shuffle d.at (l.length-1) l

theorem shuffled_perm (l : List α) (d : Draws l.length) : (shuffled l d).Perm l :=
  shuffle_perm d.at_le (by omega)

theorem shuffled_injective {l : List α} (hl : l.Nodup) : Function.Injective (shuffled l) := by
  intro d d' h
  exact Draws.ext_at fun k h0 hk =>
    draw_of_shuffle d.at_le d'.at_le hl (by omega) h k h0 (by omega)

variable [DecidableEq α]

/-- Every order comes from exactly one choice of indices. -/
theorem image_shuffled {l : List α} (hl : l.Nodup) :
    Finset.univ.image (shuffled l) = l.permutations.toFinset := by
  apply Finset.eq_of_subset_of_card_le
  · intro p hp
    obtain ⟨d,-,rfl⟩ := Finset.mem_image.mp hp
    exact mem_toFinset.mpr (mem_permutations.mpr (shuffled_perm l d))
  · rw [toFinset_card_of_nodup (nodup_permutations l hl),length_permutations,
      Finset.card_image_of_injective _ (shuffled_injective hl),Finset.card_univ,card_draws]

end

section
variable {α : Type*} [DecidableEq α] {l : List α}

theorem swap_mem_iff {a b : α} (ha : a ∈ l) (hb : b ∈ l) (x : α) :
    Equiv.swap a b x ∈ l ↔ x ∈ l := by
  rw [Equiv.swap_apply_def]
  split
  · next h => simp [h,ha,hb]
  split
  · next h => simp [h,ha,hb]
  · rfl

theorem map_swap_perm (hl : l.Nodup) {a b : α} (ha : a ∈ l) (hb : b ∈ l) {p : List α}
    (hp : p.Perm l) : (p.map (Equiv.swap a b)).Perm l := by
  refine (hp.map _).trans ?_
  rw [perm_ext_iff_of_nodup (hl.map (Equiv.injective _)) hl]
  intro x
  rw [mem_map]
  constructor
  · rintro ⟨y,hy,rfl⟩
    exact (swap_mem_iff ha hb y).mpr hy
  · intro hx
    exact ⟨Equiv.swap a b x,(swap_mem_iff ha hb x).mpr hx,Equiv.swap_apply_self a b x⟩

/-- To exchange two elements everywhere is to go through the orders in another order. -/
theorem card_take_le (hl : l.Nodup) {a b : α} (ha : a ∈ l) (hb : b ∈ l) (m : Nat) :
    (l.permutations.toFinset.filter fun p => a ∈ p.take m).card ≤
      (l.permutations.toFinset.filter fun p => b ∈ p.take m).card := by
  refine Finset.card_le_card_of_injOn (fun p => p.map (Equiv.swap a b)) ?_
    (fun p _ q _ h => map_injective_iff.mpr (Equiv.injective _) h)
  intro p hp
  obtain ⟨hp,ham⟩ := Finset.mem_filter.mp hp
  have hperm := map_swap_perm hl ha hb (mem_permutations.mp (mem_toFinset.mp hp))
  refine Finset.mem_filter.mpr ⟨mem_toFinset.mpr (mem_permutations.mpr hperm),?_⟩
  rw [← map_take]
  exact mem_map.mpr ⟨a,ham,Equiv.swap_apply_left a b⟩

/-- Each element is among the first `m` in its share of the orders. -/
theorem length_mul_card_take (hl : l.Nodup) {a : α} (ha : a ∈ l) (m : Nat) :
    l.length*(l.permutations.toFinset.filter fun p => a ∈ p.take m).card =
      min m l.length*l.length.factorial := by
  have hcount := Finset.sum_card_bipartiteAbove_eq_sum_card_bipartiteBelow
    (s := l.toFinset) (t := l.permutations.toFinset) fun x p => x ∈ p.take m
  have habove : ∀ x ∈ l.toFinset,
      (Finset.bipartiteAbove (fun x (p : List α) => x ∈ p.take m) l.permutations.toFinset x).card =
        (l.permutations.toFinset.filter fun p => a ∈ p.take m).card := by
    intro x hx
    have hx := mem_toFinset.mp hx
    exact le_antisymm (card_take_le hl hx ha m) (card_take_le hl ha hx m)
  have hbelow : ∀ p ∈ l.permutations.toFinset,
      (Finset.bipartiteBelow (fun x (p : List α) => x ∈ p.take m) l.toFinset p).card =
        min m l.length := by
    intro p hp
    have hperm := mem_permutations.mp (mem_toFinset.mp hp)
    have hset : Finset.bipartiteBelow (fun x (p : List α) => x ∈ p.take m) l.toFinset p =
        (p.take m).toFinset := by
      ext x
      rw [Finset.mem_bipartiteBelow,mem_toFinset,mem_toFinset]
      exact ⟨fun h => h.2,fun h => ⟨hperm.subset (mem_of_mem_take h),h⟩⟩
    rw [hset,toFinset_card_of_nodup ((hperm.nodup_iff.mpr hl).sublist (take_sublist m p)),
      length_take,hperm.length_eq]
  rw [Finset.sum_congr rfl habove,Finset.sum_congr rfl hbelow,Finset.sum_const,Finset.sum_const,
    toFinset_card_of_nodup hl,toFinset_card_of_nodup (nodup_permutations l hl),
    length_permutations,smul_eq_mul,smul_eq_mul,mul_comm l.length.factorial] at hcount
  exact hcount

end

section
variable {α : Type*} [Inhabited α] [DecidableEq α] {l : List α}

/-- The same of the choices of indices: the shuffle favours no element. -/
theorem length_mul_card_draws (hl : l.Nodup) {a : α} (ha : a ∈ l) (m : Nat) :
    l.length*(Finset.univ.filter fun d => a ∈ (shuffled l d).take m).card =
      min m l.length*l.length.factorial := by
  rw [← length_mul_card_take hl ha m,← image_shuffled hl,Finset.filter_image,
    Finset.card_image_of_injective _ (shuffled_injective hl)]

end

/-- The words below the largest multiple of `n` are kept, so that no remainder is favoured. -/
def limit (size n : Nat) : Nat := size/n*n

theorem card_residue {size n j : Nat} (hj : j < n) :
    (Finset.univ.filter fun w : Fin size => w.1 < limit size n ∧ w.1 % n = j).card = size/n := by
  have hn : 0 < n := by omega
  have hle : size/n*n ≤ size := Nat.div_mul_le_self size n
  have hlt : ∀ k, k < size/n → k*n+j < size/n*n := by
    intro k hk
    have hmul : (k+1)*n ≤ size/n*n := Nat.mul_le_mul_right n hk
    rw [Nat.succ_mul] at hmul
    omega
  rw [← Fintype.card_fin (size/n),← Finset.card_univ]
  symm
  refine Finset.card_bij (fun k _ => ⟨k.1*n+j,(hlt k.1 k.2).trans_le hle⟩) ?_ ?_ ?_
  · intro k _
    refine Finset.mem_filter.mpr ⟨Finset.mem_univ _,hlt k.1 k.2,?_⟩
    simp [Nat.mod_eq_of_lt hj]
  · intro k _ k' _ h
    have h := congrArg Fin.val h
    simp only at h
    exact Fin.ext (Nat.eq_of_mul_eq_mul_right hn (by omega))
  · intro w hw
    obtain ⟨-,hw,hmod⟩ := Finset.mem_filter.mp hw
    refine ⟨⟨w.1/n,?_⟩,Finset.mem_univ _,?_⟩
    · exact (Nat.div_lt_iff_lt_mul hn).mpr hw
    · apply Fin.ext
      show w.1/n*n+j = w.1
      rw [← hmod]
      exact Nat.div_add_mod' w.1 n

abbrev Words (size n : Nat) := (i : Fin n) → Fin size

def accepted (size n : Nat) : Finset (Words size n) :=
  Finset.univ.filter fun w => ∀ i, (w i).1 < limit size (i.1+1)

def Words.draws {size n : Nat} (w : Words size n) : Draws n :=
  fun i => ⟨(w i).1 % (i.1+1),Nat.mod_lt _ (Nat.succ_pos _)⟩

theorem Words.at_draws {size n : Nat} (w : Words size n) {k : Nat} (h : k < n) :
    w.draws.at k = (w ⟨k,h⟩).1 % (k+1) := by
  rw [Draws.at,dif_pos h]
  rfl

/-- As many words are accepted for one choice of indices as for another. -/
theorem card_words (size : Nat) {n : Nat} (d : Draws n) :
    ((accepted size n).filter fun w => w.draws = d).card = ∏ i : Fin n, size/(i.1+1) := by
  have hpi : (accepted size n).filter (fun w => w.draws = d) =
      Fintype.piFinset fun i : Fin n => Finset.univ.filter fun w : Fin size =>
        w.1 < limit size (i.1+1) ∧ w.1 % (i.1+1) = (d i).1 := by
    ext w
    simp only [accepted,Finset.mem_filter,Finset.mem_univ,true_and,Fintype.mem_piFinset]
    constructor
    · rintro ⟨hw,rfl⟩ i
      exact ⟨hw i,rfl⟩
    · intro h
      exact ⟨fun i => (h i).1,funext fun i => Fin.ext (h i).2⟩
  rw [hpi,Fintype.card_piFinset]
  exact Finset.prod_congr rfl fun i _ => card_residue (d i).2

theorem card_accepted (size n : Nat) (P : Draws n → Prop) [DecidablePred P] :
    ((accepted size n).filter fun w => P w.draws).card =
      (Finset.univ.filter P).card*∏ i : Fin n, size/(i.1+1) := by
  rw [Finset.card_eq_sum_card_fiberwise (f := Words.draws) (t := Finset.univ.filter P)]
  · rw [Finset.sum_congr rfl fun d hd => ?_,Finset.sum_const,smul_eq_mul]
    rw [← card_words size d,Finset.filter_filter]
    congr 1
    refine Finset.filter_congr fun w _ => ?_
    constructor
    · exact fun h => h.2
    · rintro rfl
      exact ⟨(Finset.mem_filter.mp hd).2,rfl⟩
  · intro w hw
    exact Finset.mem_filter.mpr ⟨Finset.mem_univ _,(Finset.mem_filter.mp hw).2⟩

section
variable {α : Type*} [Inhabited α] [DecidableEq α] {l : List α}

/-- Among the words that are accepted each element gets its share too. -/
theorem length_mul_card_words (size : Nat) (hl : l.Nodup) {a : α} (ha : a ∈ l) (m : Nat) :
    l.length*((accepted size l.length).filter fun w => a ∈ (shuffled l w.draws).take m).card =
      min m l.length*(accepted size l.length).card := by
  have hall : (accepted size l.length).card =
      l.length.factorial*∏ i : Fin l.length, size/(i.1+1) := by
    have h := card_accepted size l.length fun _ => True
    simp only [Finset.filter_true] at h
    rw [h,Finset.card_univ,card_draws]
  rw [card_accepted size l.length fun d => a ∈ (shuffled l d).take m,hall,← mul_assoc,
    length_mul_card_draws hl ha m,mul_assoc]

end

end Shuffle
