import Mathlib.Algebra.BigOperators.Group.List.Basic
import Mathlib.Algebra.Order.BigOperators.Group.List
import Mathlib.Data.List.Perm.Subperm
import Mathlib.Data.List.Range
import Mathlib.Algebra.Order.Monoid.NatCast
import Mathlib.Algebra.Order.Ring.Nat

/-! A list cut into pieces of one length, the last one shorter, and put together again. -/
set_option autoImplicit false

namespace Pieces

variable {α : Type*} {k : Nat} {xs : List α}

/-- The piece with a number. -/
def piece (k : Nat) (xs : List α) (i : Nat) : List α := (xs.drop (i*k)).take k

/-- How many pieces there are. -/
def count (k n : Nat) : Nat := (n+k-1)/k

theorem le_count_mul (hk : 0 < k) (n : Nat) : n ≤ count k n*k := by
  have hdiv := Nat.div_add_mod (n+k-1) k
  have hmod := Nat.mod_lt (n+k-1) hk
  rw [Nat.mul_comm] at hdiv
  unfold count
  omega

theorem count_le (hk : 0 < k) {n m : Nat} (h : n ≤ m*k) : count k n ≤ m := by
  refine Nat.le_of_lt_succ ((Nat.div_lt_iff_lt_mul hk).mpr ?_)
  rw [Nat.succ_mul]
  omega

theorem one_lt_count (hk : 0 < k) {n : Nat} (h : k < n) : 1 < count k n := by
  by_contra hle
  have hmul := le_count_mul hk n
  have hone : count k n*k ≤ 1*k := Nat.mul_le_mul_right k (not_lt.mp hle)
  omega

theorem length_piece_le (i : Nat) : (piece k xs i).length ≤ k := by
  rw [piece,List.length_take]
  exact Nat.min_le_left _ _

/-- The first pieces are the beginning of the list. -/
theorem flatMap_range (n : Nat) : (List.range n).flatMap (piece k xs) = xs.take (n*k) := by
  induction n with
  | zero => simp
  | succ n ih =>
    rw [List.range_succ,List.flatMap_append,ih,Nat.succ_mul,List.take_add]
    simp [piece]

theorem join (hk : 0 < k) : (List.range (count k xs.length)).flatMap (piece k xs) = xs := by
  rw [flatMap_range,List.take_of_length_le (le_count_mul hk xs.length)]

/-- As many different numbers below a bound as there are. -/
theorem perm_range {is : List Nat} {n : Nat} (hn : is.Nodup) (hlt : ∀ i ∈ is, i < n)
    (hlen : is.length = n) : is.Perm (List.range n) := by
  have hsub : is.Subperm (List.range n) :=
    List.subperm_of_subset hn fun i hi => List.mem_range.mpr (hlt i hi)
  exact hsub.perm_of_length_le (by simp [hlen])

/-- Different pieces are together no longer than the list. -/
theorem sum_length_le (hk : 0 < k) {is : List Nat} (hn : is.Nodup)
    (hlt : ∀ i ∈ is, i < count k xs.length) :
    (is.map fun i => (piece k xs i).length).sum ≤ xs.length := by
  have hsub : is.Subperm (List.range (count k xs.length)) :=
    List.subperm_of_subset hn fun i hi => List.mem_range.mpr (hlt i hi)
  obtain ⟨is',hperm,hsl⟩ := hsub
  have hmap := hsl.map fun i => (piece k xs i).length
  calc (is.map fun i => (piece k xs i).length).sum
      = (is'.map fun i => (piece k xs i).length).sum := (hperm.map _).sum_eq.symm
    _ ≤ ((List.range (count k xs.length)).map fun i => (piece k xs i).length).sum :=
        hmap.sum_le_sum fun _ _ => Nat.zero_le _
    _ = xs.length := by rw [← List.length_flatMap,join hk]

end Pieces
