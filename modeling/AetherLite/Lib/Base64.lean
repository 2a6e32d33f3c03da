import Mathlib.Tactic.IntervalCases
import AetherLite.Lib.Bytes

/-! The URL-safe base64 without padding. A decoder takes nothing but what the encoder writes. -/
set_option autoImplicit false

namespace Base64

/-- The letter of six bits. -/
def letter (n : Nat) : Char :=
  if n < 26 then Char.ofNat (65+n)
  else if n < 52 then Char.ofNat (71+n)
  else if n < 62 then Char.ofNat (n-4)
  else if n = 62 then '-' else '_'

def value (c : Char) : Option Nat :=
  if 65 ≤ c.toNat ∧ c.toNat ≤ 90 then some (c.toNat-65)
  else if 97 ≤ c.toNat ∧ c.toNat ≤ 122 then some (c.toNat-71)
  else if 48 ≤ c.toNat ∧ c.toNat ≤ 57 then some (c.toNat+4)
  else if c = '-' then some 62
  else if c = '_' then some 63
  else none

def encode : Bytes → List Char
  | [] => []
  | [a] => [letter (a.toNat/4),letter (a.toNat % 4*16)]
  | [a,b] => [letter (a.toNat/4),letter (a.toNat % 4*16+b.toNat/16),letter (b.toNat % 16*4)]
  | a :: b :: c :: bs => letter (a.toNat/4) :: letter (a.toNat % 4*16+b.toNat/16) ::
      letter (b.toNat % 16*4+c.toNat/64) :: letter (c.toNat % 64) :: encode bs

/-- The bits that are left over must be zero. -/
def decode : List Char → Option Bytes
  | [] => some []
  | [_] => none
  | [w,x] => do
    let m ← value w
    let n ← value x
    if n % 16 = 0 then some [UInt8.ofNat (m*4+n/16)] else none
  | [w,x,y] => do
    let m ← value w
    let n ← value x
    let o ← value y
    if o % 4 = 0 then some [UInt8.ofNat (m*4+n/16),UInt8.ofNat (n % 16*16+o/4)] else none
  | w :: x :: y :: z :: cs => do
    let m ← value w
    let n ← value x
    let o ← value y
    let p ← value z
    let bs ← decode cs
    some (UInt8.ofNat (m*4+n/16) :: UInt8.ofNat (n % 16*16+o/4) :: UInt8.ofNat (o % 4*64+p) :: bs)

theorem value_letter {n : Nat} (h : n < 64) : value (letter n) = some n := by
  interval_cases n <;> rfl

theorem ofNat_eq {n : Nat} {b : UInt8} (h : n = b.toNat) : UInt8.ofNat n = b := by
  rw [h,UInt8.ofNat_toNat]

theorem decode_encode (bs : Bytes) : decode (encode bs) = some bs := by
  induction bs using encode.induct with
  | case1 => rfl
  | case2 a =>
    have ha := a.toNat_lt
    rw [encode,decode,value_letter (by omega),value_letter (by omega)]
    have hb : UInt8.ofNat (a.toNat/4*4+a.toNat % 4*16/16) = a := ofNat_eq (by omega)
    have hbits : a.toNat % 4*16 % 16 = 0 := by omega
    simp only [Option.bind_eq_bind,Option.bind_some,hbits,if_true,hb]
  | case3 a b =>
    have ha := a.toNat_lt
    have hb := b.toNat_lt
    rw [encode,decode,value_letter (by omega),value_letter (by omega),value_letter (by omega)]
    have h1 : UInt8.ofNat (a.toNat/4*4+(a.toNat % 4*16+b.toNat/16)/16) = a := ofNat_eq (by omega)
    have h2 : UInt8.ofNat ((a.toNat % 4*16+b.toNat/16) % 16*16+b.toNat % 16*4/4) = b :=
      ofNat_eq (by omega)
    have hbits : b.toNat % 16*4 % 4 = 0 := by omega
    simp only [Option.bind_eq_bind,Option.bind_some,hbits,if_true,h1,h2]
  | case4 a b c bs ih =>
    have ha := a.toNat_lt
    have hb := b.toNat_lt
    have hc := c.toNat_lt
    rw [encode,decode,value_letter (by omega),value_letter (by omega),value_letter (by omega),
      value_letter (by omega),ih]
    have h1 : UInt8.ofNat (a.toNat/4*4+(a.toNat % 4*16+b.toNat/16)/16) = a := ofNat_eq (by omega)
    have h2 : UInt8.ofNat ((a.toNat % 4*16+b.toNat/16) % 16*16+(b.toNat % 16*4+c.toNat/64)/4) = b :=
      ofNat_eq (by omega)
    have h3 : UInt8.ofNat ((b.toNat % 16*4+c.toNat/64) % 4*64+c.toNat % 64) = c := ofNat_eq (by omega)
    simp only [Option.bind_eq_bind,Option.bind_some,h1,h2,h3]

theorem length_encode (bs : Bytes) : (encode bs).length = (4*bs.length+2)/3 := by
  induction bs using encode.induct with
  | case1 => rfl
  | case2 a => simp [encode]
  | case3 a b => simp [encode]
  | case4 a b c bs ih =>
    simp only [encode,List.length_cons,ih]
    omega

/-- The letters are graphic ASCII characters. -/
theorem encode_graphic (bs : Bytes) : ∀ c ∈ encode bs, 0x21 ≤ c.toNat ∧ c.toNat < 0x7f := by
  have hletter : ∀ n < 64, 0x21 ≤ (letter n).toNat ∧ (letter n).toNat < 0x7f := by
    intro n hn
    interval_cases n <;> decide
  induction bs using encode.induct with
  | case1 => simp [encode]
  | case2 a =>
    have ha := a.toNat_lt
    simp only [encode,List.mem_cons,List.not_mem_nil,or_false,forall_eq_or_imp,forall_eq]
    exact ⟨hletter _ (by omega),hletter _ (by omega)⟩
  | case3 a b =>
    have ha := a.toNat_lt
    have hb := b.toNat_lt
    simp only [encode,List.mem_cons,List.not_mem_nil,or_false,forall_eq_or_imp,forall_eq]
    exact ⟨hletter _ (by omega),hletter _ (by omega),hletter _ (by omega)⟩
  | case4 a b c bs ih =>
    have ha := a.toNat_lt
    have hb := b.toNat_lt
    have hc := c.toNat_lt
    simp only [encode,List.mem_cons,forall_eq_or_imp]
    exact ⟨hletter _ (by omega),hletter _ (by omega),hletter _ (by omega),hletter _ (by omega),ih⟩

end Base64
