import Mathlib.Algebra.Order.Field.Power
import Mathlib.Tactic.Linarith
import Mathlib.Tactic.Positivity
import AetherLite.Lib.JsOps

/-! The finite doubles lie on a grid; the difference of two of them has the sign of the
exact difference. -/
set_option autoImplicit false

namespace Js

namespace Number

/-- The step of the smallest doubles. -/
def gridStep : Rat := 2^(-1074 : Int)

theorem gridStep_pos : 0 < gridStep := by
  exact zpow_pos (by norm_num) _

/-- A finite Number on the grid of all doubles. -/
def OnGrid (n : Number) : Prop := ∃ k : Int, n = .fin (k*gridStep)

theorem binaryExponent_le {a b : Nat} (ha : 0 < a) (hb : 0 < b) :
    (2 : Rat)^(binaryExponent a b) ≤ (a : Rat)/b := by
  unfold binaryExponent
  dsimp only
  split
  · assumption
  have hal : (2 : Rat)^a.log2 ≤ a := by exact_mod_cast Nat.log2_self_le (Nat.ne_of_gt ha)
  have hbl : (b : Rat) ≤ 2^(b.log2+1) := by exact_mod_cast Nat.lt_log2_self.le
  have hbpos : (0 : Rat) < b := by exact_mod_cast hb
  rw [le_div_iff₀ hbpos]
  have hpow : (0 : Rat) ≤ 2^((a.log2 : Int)-b.log2-1) := (zpow_pos (by norm_num) _).le
  calc (2 : Rat)^((a.log2 : Int)-b.log2-1)*b
      ≤ 2^((a.log2 : Int)-b.log2-1)*2^(b.log2+1) := by gcongr
    _ = 2^a.log2 := by
      rw [← zpow_natCast,← zpow_natCast,← zpow_add₀ (by norm_num)]
      congr 1
      push_cast
      ring
    _ ≤ a := hal

theorem binaryExponent_nat {n : Nat} (hn : 0 < n) : binaryExponent n 1 = n.log2 := by
  have hone : Nat.log2 1 = 0 := by decide
  have hle : (2 : Rat)^n.log2 ≤ n := by exact_mod_cast Nat.log2_self_le (Nat.ne_of_gt hn)
  simp [binaryExponent,hone,hle]

theorem floor_le_roundHalfEven (q : Rat) : q.floor ≤ roundHalfEven q := by
  unfold roundHalfEven
  dsimp only
  split
  · exact Int.le_refl _
  split
  · omega
  split
  · exact Int.le_refl _
  · omega

theorem roundHalfEven_le (q : Rat) : roundHalfEven q ≤ q.floor+1 := by
  unfold roundHalfEven
  dsimp only
  split
  · omega
  split
  · exact Int.le_refl _
  split
  · omega
  · exact Int.le_refl _

/-- A whole number is not passed. -/
theorem roundHalfEven_le_of_le {q : Rat} {n : Int} (h : q ≤ n) : roundHalfEven q ≤ n := by
  rcases eq_or_lt_of_le h with rfl | hlt
  · simp [roundHalfEven]
  · have hfloor := Rat.floor_lt_iff.mpr hlt
    have := roundHalfEven_le q
    omega

/-- The unit in the last place that a rational is rounded to. -/
def ulp (q : Rat) : Rat := 2^(Max.max (binaryExponent q.num.natAbs q.den-52) (-1074))

theorem ulp_pos (q : Rat) : 0 < ulp q := zpow_pos (by norm_num) _

/-- Every unit is a whole number of grid steps. -/
theorem ulp_onGrid (q : Rat) : ∃ k : Nat, ulp q = k*gridStep := by
  have hle : -1074 ≤ Max.max (binaryExponent q.num.natAbs q.den-52) (-1074) := le_max_right _ _
  obtain ⟨k,hk⟩ := Int.le.dest hle
  refine ⟨2^k,?_⟩
  unfold ulp gridStep
  rw [← hk,zpow_add₀ (by norm_num),zpow_natCast,mul_comm,Nat.cast_pow,Nat.cast_ofNat]

theorem two_pow_binaryExponent_le {q : Rat} (hq : q ≠ 0) :
    (2 : Rat)^(binaryExponent q.num.natAbs q.den) ≤ |q| := by
  refine (binaryExponent_le (Int.natAbs_pos.mpr (Rat.num_ne_zero.mpr hq)) q.den_pos).trans_eq ?_
  rw [Rat.abs_def,Rat.divInt_eq_div,Int.cast_natCast,Int.cast_natCast]

/-- A rational on the grid is at least one unit from zero. -/
theorem ulp_le_abs {q : Rat} (hq : q ≠ 0) (hk : ∃ k : Int, q = k*gridStep) : ulp q ≤ |q| := by
  unfold ulp
  rcases max_cases (binaryExponent q.num.natAbs q.den-52) (-1074) with ⟨h,-⟩ | ⟨h,-⟩
  · rw [h]
    refine le_trans ?_ (two_pow_binaryExponent_le hq)
    exact zpow_le_zpow_right₀ (by norm_num) (by omega)
  · rw [h]
    obtain ⟨k,rfl⟩ := hk
    have hk0 : k ≠ 0 := by
      rintro rfl
      simp at hq
    have hone : (1 : Rat) ≤ |(k : Rat)| := by exact_mod_cast Int.one_le_abs hk0
    rw [abs_mul,abs_of_pos gridStep_pos]
    calc (2 : Rat)^(-1074 : Int) = 1*gridStep := by rw [one_mul]; rfl
      _ ≤ |(k : Rat)| * gridStep := by
        have := gridStep_pos
        gcongr

theorem ofRat_eq (q : Rat) :
    ofRat q = if q.den = 1 ∧ q.num.natAbs ≤ 2^53 then .fin q
      else if 2^1024 ≤ |roundHalfEven (q/ulp q)*ulp q| then .inf (decide (q < 0))
      else .fin (roundHalfEven (q/ulp q)*ulp q) := by
  unfold ofRat ulp
  rfl

/-- Rounding to a double keeps the sign of what is on the grid. -/
theorem lt_ofRat {q : Rat} (hk : ∃ k : Int, q = k*gridStep) :
    (fin 0).lt (ofRat q) = decide (0 < q) := by
  have hu := ulp_pos q
  rw [ofRat_eq]
  split
  · rfl
  have hsign : (0 : Rat) < roundHalfEven (q/ulp q)*ulp q ↔ 0 < q := by
    rw [mul_pos_iff_of_pos_right hu,Int.cast_pos]
    constructor
    · intro hr
      by_contra hq
      have hfloor : (q/ulp q).floor < 0 ∨ q = 0 := by
        rcases eq_or_lt_of_le (not_lt.mp hq) with h | h
        · exact .inr h
        · left
          rw [Rat.floor_lt_iff]
          exact_mod_cast div_neg_of_neg_of_pos h hu
      rcases hfloor with h | h
      · have := roundHalfEven_le (q/ulp q)
        omega
      · rw [h,zero_div] at hr
        exact absurd hr (by decide +kernel)
    · intro hq
      have hle := ulp_le_abs (ne_of_gt hq) hk
      rw [abs_of_pos hq] at hle
      have hfloor : 1 ≤ (q/ulp q).floor := by
        rw [Rat.le_floor_iff,le_div_iff₀ hu]
        simpa using hle
      exact lt_of_lt_of_le (by omega) (floor_le_roundHalfEven _)
  split
  · by_cases hq : q < 0
    · simp [lt,hq,not_lt.mpr hq.le]
    · have hne : q ≠ 0 := by
        rintro rfl
        simp_all
      simp [lt,hq,lt_of_le_of_ne (not_lt.mp hq) (Ne.symm hne)]
  · simp only [lt,hsign]

/-- A rational of at most one rounds to the grid, and by less than one. -/
theorem ofRat_small {q : Rat} (hq : |q| ≤ 1) :
    ∃ d : Rat, ofRat q = .fin d ∧ (∃ k : Int, d = k*gridStep) ∧ |d| ≤ 2 := by
  rw [ofRat_eq]
  split
  · next h =>
    refine ⟨q,rfl,⟨q.num*2^1074,?_⟩,hq.trans (by norm_num)⟩
    have hint : q = q.num := (Rat.coe_int_num_of_den_eq_one h.1).symm
    have hcancel : (2 : Rat)^1074*gridStep = 1 := by
      unfold gridStep
      rw [← zpow_natCast,← zpow_add₀ (by norm_num)]
      rfl
    rw [Int.cast_mul,Int.cast_pow,Int.cast_ofNat,mul_assoc,hcancel,mul_one,← hint]
  have hu := ulp_pos q
  have hu1 : ulp q ≤ 1 := by
    unfold ulp
    refine zpow_le_one_of_nonpos₀ (by norm_num) (max_le ?_ (by norm_num))
    by_contra hpos
    by_cases h0 : q = 0
    · subst h0
      exact hpos (by decide +kernel)
    have h2 := (two_pow_binaryExponent_le h0).trans hq
    have h1 : (1 : Rat) < 2^binaryExponent q.num.natAbs q.den :=
      one_lt_zpow₀ (by norm_num) (by omega)
    linarith
  have hround : |(roundHalfEven (q/ulp q) : Rat)| ≤ |q/ulp q|+1 := by
    have h1 : ((q/ulp q).floor : Rat) ≤ q/ulp q := Rat.floor_le _
    have h2 : q/ulp q < (q/ulp q).floor+1 := by
      exact_mod_cast Rat.lt_floor_add_one _
    have h3 : ((q/ulp q).floor : Rat) ≤ roundHalfEven (q/ulp q) := by
      exact_mod_cast floor_le_roundHalfEven _
    have h4 : (roundHalfEven (q/ulp q) : Rat) ≤ (q/ulp q).floor+1 := by
      exact_mod_cast roundHalfEven_le _
    rw [abs_le]
    have h5 := neg_abs_le (q/ulp q)
    have h6 := le_abs_self (q/ulp q)
    constructor <;> linarith
  have hd : |(roundHalfEven (q/ulp q) : Rat)*ulp q| ≤ 2 := by
    rw [abs_mul,abs_of_pos hu]
    calc |(roundHalfEven (q/ulp q) : Rat)| * ulp q ≤ (|q/ulp q|+1)*ulp q := by gcongr
      _ = |q|+ulp q := by
        rw [abs_div,abs_of_pos hu]
        field_simp
      _ ≤ 2 := by linarith
  have hbig : (2 : Rat) < 2^1024 := lt_self_pow₀ (by norm_num) (by norm_num)
  rw [if_neg (not_le.mpr (hd.trans_lt hbig))]
  obtain ⟨k,hk⟩ := ulp_onGrid q
  refine ⟨_,rfl,⟨roundHalfEven (q/ulp q)*k,?_⟩,hd⟩
  rw [hk]
  push_cast
  ring

/-- Rounding does not fall below the power of two under a whole number. -/
theorem two_pow_le_ofRat {n e : Nat} (h : 2^e ≤ n) :
    ∀ d, ofRat (n : Rat) = .fin d → (2 : Rat)^e ≤ d := by
  intro d hd
  rw [ofRat_eq] at hd
  split at hd
  · cases hd
    exact_mod_cast h
  split at hd
  · cases hd
  cases hd
  have hpos : 0 < n := lt_of_lt_of_le (pow_pos (by decide) e) h
  have hq : (0 : Rat) < n := by exact_mod_cast hpos
  have hu := ulp_pos (n : Rat)
  have hexp : binaryExponent (n : Rat).num.natAbs (n : Rat).den = n.log2 := by
    simpa using binaryExponent_nat hpos
  have hlog : e ≤ n.log2 := (Nat.le_log2 (Nat.ne_of_gt hpos)).mpr h
  have hulp : ((2^52 : Int) : Rat)*ulp (n : Rat) = 2^n.log2 := by
    have hcast : ((2^52 : Int) : Rat) = (2 : Rat)^(52 : Int) := by norm_num
    rw [ulp,hexp,max_eq_left (by omega),hcast,← zpow_natCast,← zpow_add₀ (by norm_num)]
    congr 1
    ring
  have hle : (2 : Rat)^n.log2 ≤ n := by exact_mod_cast Nat.log2_self_le (Nat.ne_of_gt hpos)
  have hfloor : (2^52 : Int) ≤ ((n : Rat)/ulp n).floor := by
    rw [Rat.le_floor_iff,le_div_iff₀ hu,hulp]
    exact hle
  have hround : ((2^52 : Int) : Rat) ≤ roundHalfEven ((n : Rat)/ulp n) := by
    exact_mod_cast hfloor.trans (floor_le_roundHalfEven _)
  calc (2 : Rat)^e ≤ 2^n.log2 := pow_le_pow_right₀ (by norm_num) hlog
    _ = ((2^52 : Int) : Rat)*ulp (n : Rat) := hulp.symm
    _ ≤ roundHalfEven ((n : Rat)/ulp n)*ulp n := by gcongr

/-- What a reader makes of a whole number is a safe integer only where it is that number. -/
theorem toSafeInt?_ofRat (n : Nat) : (ofRat (n : Rat)).toSafeInt? =
    if n ≤ 9007199254740991 then some (n : Int) else none := by
  by_cases hn : n ≤ 2^53
  · have heq : ofRat (n : Rat) = ofNat n := by
      rw [ofRat_eq,if_pos ⟨Rat.den_natCast n,by simpa using hn⟩]
      rfl
    rw [heq,toSafeInt?_ofNat]
  · have hbig : ¬n ≤ 9007199254740991 := by omega
    rw [if_neg hbig]
    cases ho : ofRat (n : Rat) with
    | fin d =>
      have hd := two_pow_le_ofRat (show 2^53 ≤ n by omega) d ho
      simp only [toSafeInt?,toInt?]
      split
      · next hden =>
        have hint : (d.num : Rat) = d := Rat.coe_int_num_of_den_eq_one hden
        rw [← hint] at hd
        have hnum : (2^53 : Int) ≤ d.num := by exact_mod_cast hd
        have hnot : ¬|d.num| ≤ maxSafeInteger := by
          rw [abs_of_nonneg (by omega),maxSafeInteger]
          omega
        simp [hnot]
      · rfl
    | inf b => rfl
    | nan => rfl

/-- A Number from 0 to 1. -/
def InUnit (n : Number) : Prop := ∃ q : Rat, n = .fin q ∧ 0 ≤ q ∧ q ≤ 1

/-- Rounding does not pass a whole number of units. -/
theorem ofRat_le_of_units {q b : Rat} (h0 : 0 ≤ q) (h1 : q ≤ b) (hb : b < 2^1024)
    (hunits : q ≠ 0 → ∃ k : Int, k*ulp q = b) : ∃ d : Rat, ofRat q = .fin d ∧ 0 ≤ d ∧ d ≤ b := by
  rw [ofRat_eq]
  split
  · exact ⟨q,rfl,h0,h1⟩
  next hden =>
  have hq0 : 0 < q := by
    refine lt_of_le_of_ne h0 ?_
    rintro rfl
    exact hden (by decide)
  have hu := ulp_pos q
  have hfloor : 0 ≤ (q/ulp q).floor := by
    rw [Rat.le_floor_iff]
    exact_mod_cast (div_pos hq0 hu).le
  have hround : 0 ≤ roundHalfEven (q/ulp q) := hfloor.trans (floor_le_roundHalfEven _)
  obtain ⟨n,hn⟩ := hunits (ne_of_gt hq0)
  have hle : roundHalfEven (q/ulp q) ≤ n := by
    refine roundHalfEven_le_of_le ?_
    rwa [div_le_iff₀ hu,hn]
  have hd : (roundHalfEven (q/ulp q) : Rat)*ulp q ≤ b := by
    rw [← hn]
    have : (roundHalfEven (q/ulp q) : Rat) ≤ n := by exact_mod_cast hle
    gcongr
  have hd0 : 0 ≤ (roundHalfEven (q/ulp q) : Rat)*ulp q :=
    mul_nonneg (by exact_mod_cast hround) hu.le
  rw [abs_of_nonneg hd0,if_neg (not_le.mpr (hd.trans_lt hb))]
  exact ⟨_,rfl,hd0,hd⟩

/-- The exponent of a number that is at most a power of two. -/
theorem binaryExponent_le_of_le {q : Rat} (hq : 0 < q) {e : Nat} (h : q ≤ 2^e) :
    binaryExponent q.num.natAbs q.den ≤ e := by
  have h2 := two_pow_binaryExponent_le (ne_of_gt hq)
  rw [abs_of_pos hq] at h2
  have h3 := h2.trans h
  rw [← zpow_natCast] at h3
  exact (zpow_le_zpow_iff_right₀ (by norm_num)).mp h3

/-- Rounding does not pass a power of two. -/
theorem ofRat_le_two_pow {q : Rat} {e : Nat} (he : e < 1024) (h0 : 0 ≤ q) (h1 : q ≤ 2^e) :
    ∃ d : Rat, ofRat q = .fin d ∧ 0 ≤ d ∧ d ≤ 2^e := by
  refine ofRat_le_of_units h0 h1 (pow_lt_pow_right₀ (by norm_num) he) fun hq => ?_
  have hexp := binaryExponent_le_of_le (lt_of_le_of_ne h0 (Ne.symm hq)) h1
  have hmax : Max.max (binaryExponent q.num.natAbs q.den-52) (-1074) ≤ (e : Int) :=
    max_le (by omega) (by omega)
  obtain ⟨k,hk⟩ := Int.le.dest hmax
  refine ⟨2^k,?_⟩
  unfold ulp
  rw [← zpow_natCast 2 e,← hk,zpow_add₀ (by norm_num),zpow_natCast]
  push_cast
  ring

/-- Rounding does not pass an integer up to 2^53. -/
theorem ofRat_le_nat {q : Rat} {n : Nat} (hn : n ≤ 2^53) (h0 : 0 ≤ q) (h1 : q ≤ n) :
    ∃ d : Rat, ofRat q = .fin d ∧ 0 ≤ d ∧ d ≤ n := by
  rcases eq_or_lt_of_le h1 with rfl | hlt
  · refine ⟨n,?_,h0,h1⟩
    rw [ofRat_eq,if_pos]
    simpa using hn
  have hbound : (n : Rat) ≤ 2^53 := by exact_mod_cast hn
  refine ofRat_le_of_units h0 h1 ?_ fun hq => ?_
  · exact hbound.trans_lt (pow_lt_pow_right₀ (by norm_num) (by norm_num))
  -- below 2^53 the unit is at most one, and so divides every integer
  have hq0 : 0 < q := lt_of_le_of_ne h0 (Ne.symm hq)
  have hexp : binaryExponent q.num.natAbs q.den < (53 : Nat) := by
    have h2 := two_pow_binaryExponent_le hq
    rw [abs_of_pos hq0] at h2
    have h3 := h2.trans_lt (hlt.trans_le hbound)
    rw [← zpow_natCast] at h3
    exact (zpow_lt_zpow_iff_right₀ (by norm_num)).mp h3
  have hmax : Max.max (binaryExponent q.num.natAbs q.den-52) (-1074) ≤ 0 :=
    max_le (by omega) (by omega)
  obtain ⟨k,hk⟩ := Int.le.dest hmax
  refine ⟨n*2^k,?_⟩
  have hone : (2 : Rat)^k*ulp q = 1 := by
    unfold ulp
    rw [← zpow_natCast,← zpow_add₀ (by norm_num),add_comm,hk,zpow_zero]
  push_cast
  rw [mul_assoc,hone,mul_one]

theorem ofRat_unit {q : Rat} (h0 : 0 ≤ q) (h1 : q ≤ 1) : (ofRat q).InUnit := by
  have h := ofRat_le_two_pow (e := 0) (by norm_num) h0 (by simpa using h1)
  simpa [InUnit] using h

theorem onGrid_abs {n : Number} (h : n.OnGrid) : n.abs.OnGrid := by
  obtain ⟨k,rfl⟩ := h
  refine ⟨|k|,?_⟩
  rw [abs,abs_mul,abs_of_pos gridStep_pos,Int.cast_abs]

theorem onGrid_min {m n : Number} (hm : m.OnGrid) (hn : n.OnGrid) : (Number.min m n).OnGrid := by
  have h : Number.min m n = m ∨ Number.min m n = n := by
    obtain ⟨j,rfl⟩ := hm
    obtain ⟨k,rfl⟩ := hn
    simp only [Number.min]
    split
    · exact .inr rfl
    · exact .inl rfl
  rcases h with h | h
  · rw [h]
    exact hm
  · rw [h]
    exact hn

/-- The value of a finite Number. -/
def toRat : Number → Rat
  | .fin q => q
  | _ => 0

theorem lt_sub {m n : Number} (hm : m.OnGrid) (hn : n.OnGrid) :
    (fin 0).lt (m.sub n) = true ↔ n.toRat < m.toRat := by
  obtain ⟨j,rfl⟩ := hm
  obtain ⟨k,rfl⟩ := hn
  have he : (j*gridStep : Rat)+-(k*gridStep) = ((j-k : Int) : Rat)*gridStep := by
    push_cast
    ring
  simp only [sub,neg,add,toRat]
  rw [he,lt_ofRat ⟨_,rfl⟩,decide_eq_true_iff,← he]
  constructor
  · intro h
    linarith
  · intro h
    linarith

end Number

end Js
