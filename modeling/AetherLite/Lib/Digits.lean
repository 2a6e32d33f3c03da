import AetherLite.Lib.JsValue
import Mathlib.Data.List.Induction

/-! Numbers written out in digits, and read again. -/
set_option autoImplicit false

namespace Js

theorem digitsValue_snoc (base : Nat) (cs : List Char) (c : Char) :
    digitsValue base (cs ++ [c]) = (digitsValue base cs).bind fun n => (digitValue c).bind fun d =>
      if d < base then some (n*base+d) else none := by
  rw [digitsValue,List.foldl_append]
  rfl

theorem digitValue_digitChar {n : Nat} (h : n < 16) : digitValue n.digitChar = some n := by
  have hall : ∀ i : Fin 16, digitValue (Nat.digitChar i.1) = some i.1 := by decide
  exact hall ⟨n,h⟩

/-- A number is read back from its digits. -/
theorem digitsValue_toDigits {base : Nat} (hb : 1 < base) (hle : base ≤ 16) (n : Nat) :
    digitsValue base (Nat.toDigits base n) = some n := by
  induction n using Nat.strongRecOn with
  | ind n ih =>
    rw [Nat.toDigits_eq_if hb]
    split
    · next hlt => simp [digitsValue,digitValue_digitChar (hlt.trans_le hle),hlt]
    · next hge =>
      have hpos : 0 < n := by omega
      have hmod : n % base < base := Nat.mod_lt n (by omega)
      rw [digitsValue_snoc,ih (n/base) (Nat.div_lt_self hpos hb),
        digitValue_digitChar (hmod.trans_le hle)]
      simp [hmod,Nat.div_add_mod']

theorem graphic_of_digitValue {c : Char} {d : Nat} (h : digitValue c = some d) :
    0x21 ≤ c.toNat ∧ c.toNat < 0x7f := by
  have hc : c.val.toNat = c.toNat := rfl
  unfold digitValue at h
  simp only [Char.le_def,UInt32.le_iff_toNat_le,hc] at h
  split at h
  · next hr => exact ⟨Nat.le_trans (by decide) hr.1,Nat.lt_of_le_of_lt hr.2 (by decide)⟩
  split at h
  · next hr => exact ⟨Nat.le_trans (by decide) hr.1,Nat.lt_of_le_of_lt hr.2 (by decide)⟩
  split at h
  · next hr => exact ⟨Nat.le_trans (by decide) hr.1,Nat.lt_of_le_of_lt hr.2 (by decide)⟩
  · cases h

/-- A digit is an ASCII character. -/
theorem lt_of_digitValue {c : Char} {d : Nat} (h : digitValue c = some d) : c.toNat < 128 :=
  (graphic_of_digitValue h).2.trans (by decide)

/-- What can be tried on every ASCII character. -/
theorem of_ascii {P : Char → Prop} (hall : ∀ n : Fin 128, P (Char.ofNat n.1)) {c : Char}
    (h : c.toNat < 128) : P c := by
  have hc := hall ⟨c.toNat,h⟩
  rwa [Char.ofNat_toNat] at hc

theorem digitValue_toLower {c : Char} {d : Nat} (h : digitValue c = some d) :
    digitValue c.toLower = some d := by
  have hall : ∀ n : Fin 128, digitValue (Char.ofNat n.1).toLower = digitValue (Char.ofNat n.1) := by
    decide +kernel
  have hsame : digitValue c.toLower = digitValue c :=
    of_ascii (P := fun c => digitValue c.toLower = digitValue c) hall (lt_of_digitValue h)
  rw [hsame,h]

theorem digit_of_digitsValue {base n : Nat} {cs : List Char} (h : digitsValue base cs = some n)
    {c : Char} (hc : c ∈ cs) : ∃ d, digitValue c = some d := by
  induction cs using List.reverseRecOn generalizing n with
  | nil => cases hc
  | append_singleton cs last ih =>
    rw [digitsValue_snoc] at h
    obtain ⟨m,hm,h⟩ := Option.bind_eq_some_iff.mp h
    obtain ⟨d,hd,-⟩ := Option.bind_eq_some_iff.mp h
    rcases List.mem_append.mp hc with hc | hc
    · exact ih hm hc
    · cases List.mem_singleton.mp hc
      exact ⟨d,hd⟩

/-- The case of the letters does not matter. -/
theorem digitsValue_map_toLower {base n : Nat} {cs : List Char} (h : digitsValue base cs = some n) :
    digitsValue base (cs.map Char.toLower) = some n := by
  induction cs using List.reverseRecOn generalizing n with
  | nil => exact h
  | append_singleton cs c ih =>
    rw [digitsValue_snoc] at h
    obtain ⟨m,hm,h⟩ := Option.bind_eq_some_iff.mp h
    obtain ⟨d,hd,h⟩ := Option.bind_eq_some_iff.mp h
    rw [List.map_append,List.map_singleton,digitsValue_snoc,ih hm,Option.bind_some,
      digitValue_toLower hd,Option.bind_some]
    exact h

end Js
