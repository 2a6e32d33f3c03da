import Mathlib.Order.WithBot
import Mathlib.Algebra.Order.Ring.Rat
import AetherLite.Lib.JsValue

/-! The Numbers other than NaN in their order: a chain, in which `Math.max` is the larger. -/
set_option autoImplicit false

namespace Js

namespace Number

/-- The place of a Number. NaN has none, and is put with the smallest. -/
def rank : Number → WithBot (WithTop Rat)
  | .fin q => ((q : WithTop Rat) : WithBot (WithTop Rat))
  | .inf false => ((⊤ : WithTop Rat) : WithBot (WithTop Rat))
  | .inf true => ⊥
  | .nan => ⊥

@[simp] theorem rank_fin (q : Rat) : rank (.fin q) = ((q : WithTop Rat) : WithBot (WithTop Rat)) :=
  rfl

@[simp] theorem rank_inf_true : rank (.inf true) = ⊥ := rfl

@[simp] theorem rank_inf_false : rank (.inf false) = ((⊤ : WithTop Rat) : WithBot (WithTop Rat)) :=
  rfl

theorem rank_inj {m n : Number} (hm : m ≠ .nan) (hn : n ≠ .nan) (h : m.rank = n.rank) : m = n := by
  obtain q | (_ | _) | _ := m <;> obtain r | (_ | _) | _ := n <;> simp_all

theorem lt_iff_rank {m n : Number} (hm : m ≠ .nan) (hn : n ≠ .nan) :
    m.lt n = true ↔ m.rank < n.rank := by
  obtain q | (_ | _) | _ := m <;> obtain r | (_ | _) | _ := n <;> simp_all [lt]
  exact WithBot.coe_lt_coe.mpr (WithTop.coe_lt_top q)

theorem max_ne_nan {m n : Number} (hm : m ≠ .nan) (hn : n ≠ .nan) : m.max n ≠ .nan := by
  obtain q | b | _ := m <;> obtain r | c | _ := n <;> simp_all [Number.max] <;> split <;> simp

theorem max_eq {m n : Number} (hm : m ≠ .nan) (hn : n ≠ .nan) :
    m.max n = if m.lt n then n else m := by
  obtain q | b | _ := m <;> obtain r | c | _ := n <;> simp_all [Number.max]

theorem rank_max {m n : Number} (hm : m ≠ .nan) (hn : n ≠ .nan) :
    (m.max n).rank = Max.max m.rank n.rank := by
  rw [max_eq hm hn]
  by_cases h : m.lt n = true
  · rw [if_pos h,max_eq_right ((lt_iff_rank hm hn).mp h).le]
  · rw [if_neg h,max_eq_left (not_lt.mp (mt (lt_iff_rank hm hn).mpr h))]

@[simp] theorem max_nan (m : Number) : m.max .nan = .nan := by
  cases m <;> rfl

@[simp] theorem nan_max (m : Number) : Number.max .nan m = .nan := rfl

theorem max_comm (m n : Number) : m.max n = n.max m := by
  by_cases hm : m = .nan
  · rw [hm,max_nan,nan_max]
  by_cases hn : n = .nan
  · rw [hn,max_nan,nan_max]
  refine rank_inj (max_ne_nan hm hn) (max_ne_nan hn hm) ?_
  rw [rank_max hm hn,rank_max hn hm,sup_comm]

theorem orZero_ne_nan (n : Number) : n.orZero ≠ .nan := by
  cases n <;> simp [orZero,truthy]
  split <;> simp

theorem orZero_eq {n : Number} (h : n ≠ .nan) : n.orZero = n := by
  cases n with
  | fin q =>
    by_cases hq : q = 0
    · simp [orZero,truthy,hq]
    · simp [orZero,truthy,hq]
  | inf b => rfl
  | nan => exact absurd rfl h

end Number

end Js
