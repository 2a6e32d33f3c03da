import Mathlib.Tactic.Ring

/-! Byte strings: big-endian numbers, length prefixes and hexadecimal text, each
with the cancellation law a reader of the encoding relies on. -/
set_option autoImplicit false

abbrev Bytes := List UInt8

namespace Bytes

/-- The low `w` bytes of `n`, most significant first. -/
def bigEndian : Nat → Nat → Bytes
  | 0, _ => []
  | w+1, n => bigEndian w (n/256) ++ [UInt8.ofNat n]

def toNat (bs : Bytes) : Nat := bs.foldl (fun acc b => acc*256+b.toNat) 0

@[simp] theorem bigEndian_length (w n : Nat) : (bigEndian w n).length = w := by
  induction w generalizing n with
  | zero => rfl
  | succ w ih => simp [bigEndian,ih]

theorem toNat_snoc (bs : Bytes) (b : UInt8) : toNat (bs ++ [b]) = toNat bs*256+b.toNat := by
  simp [toNat]

theorem toNat_bigEndian {w n : Nat} (h : n < 256^w) : toNat (bigEndian w n) = n := by
  induction w generalizing n with
  | zero =>
    have hn : n = 0 := by simpa using h
    simp [hn,bigEndian,toNat]
  | succ w ih =>
    have hq : n/256 < 256^w := by
      rw [pow_succ] at h
      exact Nat.div_lt_of_lt_mul (by omega)
    have hb : (UInt8.ofNat n).toNat = n % 256 := by simp
    rw [bigEndian,toNat_snoc,ih hq,hb]
    omega

theorem toNat_lt (bs : Bytes) : toNat bs < 256^bs.length := by
  generalize hn : bs.length = n
  induction n generalizing bs with
  | zero =>
    rw [List.length_eq_zero_iff.mp hn]
    decide
  | succ n ih =>
    obtain rfl | ⟨bs,b,rfl⟩ := bs.eq_nil_or_concat
    · cases hn
    have hi := ih bs (by simpa using hn)
    have hb := b.toNat_lt
    rw [List.concat_eq_append,toNat_snoc,pow_succ]
    omega

theorem bigEndian_toNat {w : Nat} {bs : Bytes} (h : bs.length = w) : bigEndian w (toNat bs) = bs := by
  induction w generalizing bs with
  | zero => rw [List.length_eq_zero_iff.mp h]; rfl
  | succ w ih =>
    obtain rfl | ⟨bs,b,rfl⟩ := bs.eq_nil_or_concat
    · cases h
    have hb := b.toNat_lt
    have hlow : UInt8.ofNat (toNat bs*256+b.toNat) = b := by
      apply UInt8.toNat_inj.mp
      rw [UInt8.toNat_ofNat']
      omega
    have hq : (toNat bs*256+b.toNat)/256 = toNat bs := by omega
    rw [List.concat_eq_append,toNat_snoc,bigEndian,hq,hlow,ih (by simpa using h)]

theorem bigEndian_inj {w m n : Nat} (hm : m < 256^w) (hn : n < 256^w)
    (h : bigEndian w m = bigEndian w n) : m = n := by
  rw [← toNat_bigEndian hm,h,toNat_bigEndian hn]

/-- The length in `w` bytes, then the bytes. -/
def lengthPrefixed (w : Nat) (bs : Bytes) : Bytes := bigEndian w bs.length ++ bs

@[simp] theorem lengthPrefixed_length (w : Nat) (bs : Bytes) :
    (lengthPrefixed w bs).length = w+bs.length := by
  simp [lengthPrefixed]

/-- A length-prefixed string ends where its prefix says, whatever follows it. -/
theorem lengthPrefixed_append_inj {w : Nat} {a b c d : Bytes} (ha : a.length < 256^w)
    (hb : b.length < 256^w) (h : lengthPrefixed w a ++ c = lengthPrefixed w b ++ d) :
    a = b ∧ c = d := by
  rw [lengthPrefixed,lengthPrefixed,List.append_assoc,List.append_assoc] at h
  obtain ⟨hl,hr⟩ := List.append_inj h (by simp)
  exact List.append_inj hr (bigEndian_inj ha hb hl)

def hexDigit (n : Nat) : Char := Char.ofNat (if n < 10 then 48+n else 87+n)

def hexChars : Bytes → List Char
  | [] => []
  | b :: bs => hexDigit (b.toNat/16) :: hexDigit (b.toNat % 16) :: hexChars bs

/-- Lower-case hexadecimal, two digits a byte. -/
def toHex (bs : Bytes) : String := String.ofList (hexChars bs)

theorem hexDigit_inj {m n : Nat} (hm : m < 16) (hn : n < 16) (h : hexDigit m = hexDigit n) :
    m = n := by
  have key : ∀ i j : Fin 16, hexDigit i.1 = hexDigit j.1 → i = j := by decide
  have hmn := key ⟨m,hm⟩ ⟨n,hn⟩ h
  simpa using hmn

theorem hexChars_inj {as bs : Bytes} (h : hexChars as = hexChars bs) : as = bs := by
  induction as generalizing bs with
  | nil =>
    cases bs with
    | nil => rfl
    | cons b bs => simp [hexChars] at h
  | cons a as ih =>
    cases bs with
    | nil => simp [hexChars] at h
    | cons b bs =>
      simp only [hexChars,List.cons.injEq] at h
      obtain ⟨hhi,hlo,hrest⟩ := h
      have ha := a.toNat_lt
      have hb := b.toNat_lt
      have hd := hexDigit_inj (by omega) (by omega) hhi
      have hm := hexDigit_inj (by omega) (by omega) hlo
      have hab : a.toNat = b.toNat := by omega
      rw [UInt8.toNat_inj.mp hab,ih hrest]

theorem toHex_inj {as bs : Bytes} (h : toHex as = toHex bs) : as = bs := by
  apply hexChars_inj
  have ht := congrArg String.toList h
  simpa [toHex] using ht

theorem hexChars_length (bs : Bytes) : (hexChars bs).length = 2*bs.length := by
  induction bs with
  | nil => rfl
  | cons b bs ih =>
    simp only [hexChars,List.length_cons,ih]
    omega

/-- What TextEncoder makes of a string. -/
def utf8 (s : String) : Bytes := s.toUTF8.data.toList

theorem utf8_inj {s t : String} (h : utf8 s = utf8 t) : s = t :=
  String.toByteArray_inj.mp (ByteArray.ext (Array.toList_inj.mp h))

theorem utf8_eq_flatMap (s : String) : utf8 s = s.toList.flatMap String.utf8EncodeChar := by
  have h : s.toList.utf8Encode = s.toUTF8 := String.utf8Encode_toList
  rw [utf8,← h,List.utf8Encode,List.data_toByteArray]

/-- ASCII is one byte a character. -/
theorem utf8_length_of_ascii {s : String} (h : ∀ c ∈ s.toList, c.val ≤ 0x7f) :
    (utf8 s).length = s.toList.length := by
  rw [utf8_eq_flatMap]
  generalize s.toList = cs at h
  induction cs with
  | nil => rfl
  | cons c cs ih =>
    have hle := h c List.mem_cons_self
    have hc : c.utf8Size = 1 := by simp [Char.utf8Size,hle]
    rw [List.flatMap_cons,List.length_append,ih fun d hd => h d (List.mem_cons_of_mem c hd),
      String.length_utf8EncodeChar,hc,List.length_cons,Nat.add_comm]

theorem mem_hexChars {bs : Bytes} {c : Char} (h : c ∈ hexChars bs) :
    ∃ n < 16, c = hexDigit n := by
  induction bs with
  | nil => cases h
  | cons b bs ih =>
    have hb := b.toNat_lt
    simp only [hexChars,List.mem_cons] at h
    obtain rfl | rfl | h := h
    · exact ⟨_,by omega,rfl⟩
    · exact ⟨_,by omega,rfl⟩
    · exact ih h

theorem toHex_ascii (bs : Bytes) : ∀ c ∈ (toHex bs).toList, c.val ≤ 0x7f := by
  have key : ∀ n : Fin 16, (hexDigit n.1).val ≤ 0x7f := by decide
  rw [toHex,String.toList_ofList]
  intro c hc
  obtain ⟨n,hn,rfl⟩ := mem_hexChars hc
  exact key ⟨n,hn⟩

theorem toHex_length (bs : Bytes) : (toHex bs).toList.length = 2*bs.length := by
  simp [toHex,hexChars_length]

theorem utf8_toHex_length (bs : Bytes) : (utf8 (toHex bs)).length = 2*bs.length := by
  rw [utf8_length_of_ascii (toHex_ascii bs),toHex_length]

end Bytes
