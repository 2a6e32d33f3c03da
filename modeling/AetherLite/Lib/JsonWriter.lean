import AetherLite.Lib.Bytes
import AetherLite.Lib.Digits
import AetherLite.Lib.JsonText
import Mathlib.Data.List.TakeWhile

/-! `JSON.stringify`, and that what it writes is parsed as it was. -/
set_option autoImplicit false

namespace Utf8

section
variable {p : Pending} {n : Nat}

theorem ofNat_toNat (h : n < 256) : (UInt8.ofNat n).toNat = n := by
  simp
  omega

theorem decodeFrom_lead (h : n < 256) (hl : lead n = ([],some p)) (bs : Bytes) :
    decodeFrom none (UInt8.ofNat n :: bs) = decodeFrom (some p) bs := by
  rw [decodeFrom,ofNat_toNat h,hl]
  rfl

theorem decodeFrom_more (h : n < 256) (hr : p.lower ≤ n ∧ n ≤ p.upper) (hp : p.needed ≠ 1)
    (bs : Bytes) : decodeFrom (some p) (UInt8.ofNat n :: bs) =
      decodeFrom (some ⟨p.needed-1,0x80,0xbf,p.bits*64+n % 64⟩) bs := by
  rw [decodeFrom,ofNat_toNat h,if_pos hr]
  dsimp only
  rw [if_neg hp]

theorem decodeFrom_last (h : n < 256) (hr : p.lower ≤ n ∧ n ≤ p.upper) (hp : p.needed = 1)
    (bs : Bytes) : decodeFrom (some p) (UInt8.ofNat n :: bs) =
      Char.ofNat (p.bits*64+n % 64) :: decodeFrom none bs := by
  rw [decodeFrom,ofNat_toNat h,if_pos hr]
  dsimp only
  rw [if_pos hp]

end

/-- The bytes of a character are read as the character, whatever follows them. -/
theorem decodeFrom_char (c : Char) (bs : Bytes) :
    decodeFrom none (String.utf8EncodeChar c ++ bs) = c :: decodeFrom none bs := by
  have hc : Char.ofNat c.val.toNat = c := Char.ofNat_toNat c
  have hv : c.val.toNat < 0xd800 ∨ 0xdfff < c.val.toNat ∧ c.val.toNat < 0x110000 := c.valid
  unfold String.utf8EncodeChar
  generalize c.val.toNat = v at *
  dsimp only
  split
  · next h =>
    have hl : lead v = ([Char.ofNat v],none) := if_pos (by omega)
    rw [List.cons_append,decodeFrom,ofNat_toNat (by omega),hl,hc]
    rfl
  split
  · next h =>
    have hl : lead (v/64 % 0x20+0xc0) = ([],some ⟨1,0x80,0xbf,v/64 % 0x20+0xc0-0xc0⟩) := by
      rw [lead,if_neg (by omega),if_pos (by omega)]
    have hbits : (v/64 % 0x20+0xc0-0xc0)*64+(v % 0x40+0x80) % 64 = v := by omega
    rw [List.cons_append,decodeFrom_lead (by omega) hl,List.cons_append,
      decodeFrom_last (by omega) (by constructor <;> dsimp only <;> omega) rfl]
    dsimp only
    rw [hbits,hc]
    rfl
  split
  · next h =>
    have hl : lead (v/4096 % 0x10+0xe0) = ([],some ⟨2,
        if v/4096 % 0x10+0xe0 = 0xe0 then 0xa0 else 0x80,
        if v/4096 % 0x10+0xe0 = 0xed then 0x9f else 0xbf,v/4096 % 0x10+0xe0-0xe0⟩) := by
      rw [lead,if_neg (by omega),if_neg (by omega),if_pos (by omega)]
    have hbits : ((v/4096 % 0x10+0xe0-0xe0)*64+(v/64 % 0x40+0x80) % 64)*64+
        (v % 0x40+0x80) % 64 = v := by omega
    rw [List.cons_append,decodeFrom_lead (by omega) hl,List.cons_append,
      decodeFrom_more (by omega) (by constructor <;> dsimp only <;> split <;> omega) (by simp),
      List.cons_append,decodeFrom_last (by omega) (by constructor <;> dsimp only <;> omega) rfl]
    dsimp only
    rw [hbits,hc]
    rfl
  · next h =>
    have hl : lead (v/262144 % 0x8+0xf0) = ([],some ⟨3,
        if v/262144 % 0x8+0xf0 = 0xf0 then 0x90 else 0x80,
        if v/262144 % 0x8+0xf0 = 0xf4 then 0x8f else 0xbf,v/262144 % 0x8+0xf0-0xf0⟩) := by
      rw [lead,if_neg (by omega),if_neg (by omega),if_neg (by omega),if_pos (by omega)]
    have hbits : (((v/262144 % 0x8+0xf0-0xf0)*64+(v/4096 % 0x40+0x80) % 64)*64+
        (v/64 % 0x40+0x80) % 64)*64+(v % 0x40+0x80) % 64 = v := by omega
    rw [List.cons_append,decodeFrom_lead (by omega) hl,List.cons_append,
      decodeFrom_more (by omega) (by constructor <;> dsimp only <;> split <;> omega) (by simp),
      List.cons_append,
      decodeFrom_more (by omega) (by constructor <;> dsimp only <;> omega) (by simp),
      List.cons_append,decodeFrom_last (by omega) (by constructor <;> dsimp only <;> omega) rfl]
    dsimp only
    rw [hbits,hc]
    rfl

theorem decodeFrom_flatMap (cs : List Char) (bs : Bytes) :
    decodeFrom none (cs.flatMap String.utf8EncodeChar ++ bs) = cs ++ decodeFrom none bs := by
  induction cs with
  | nil => rfl
  | cons c cs ih => rw [List.flatMap_cons,List.append_assoc,decodeFrom_char,ih,List.cons_append]

/-- A text that begins with an ASCII character has no byte order mark. -/
theorem decode_utf8 {s : String} {c : Char} {cs : List Char} (hs : s.toList = c :: cs)
    (hc : c.toNat < 128) : decode (Bytes.utf8 s) = c :: cs := by
  have hv : c.val.toNat ≤ 0x7f := by
    have hlt : c.val.toNat < 128 := hc
    omega
  have henc : String.utf8EncodeChar c = [UInt8.ofNat c.val.toNat] := by
    rw [String.utf8EncodeChar]
    exact if_pos hv
  have hne : UInt8.ofNat c.val.toNat ≠ 0xef := by
    intro h
    have hn := congrArg UInt8.toNat h
    rw [ofNat_toNat (by omega)] at hn
    have hef : (0xef : UInt8).toNat = 239 := rfl
    omega
  have hall := decodeFrom_flatMap (c :: cs) []
  rw [List.append_nil] at hall
  rw [Bytes.utf8_eq_flatMap,hs]
  rw [List.flatMap_cons,henc] at hall ⊢
  unfold decode
  split
  · next h => exact absurd (List.cons.inj h).1 hne
  · rw [hall,decodeFrom,List.append_nil]

end Utf8

namespace JsonText

open Js

/-- How a character stands in a string. -/
def escaped (c : Char) : List Char :=
  let n := c.toNat
  if n = 8 then ['\\','b']
  else if n = 9 then ['\\','t']
  else if n = 10 then ['\\','n']
  else if n = 12 then ['\\','f']
  else if n = 13 then ['\\','r']
  else if n = 34 then ['\\','"']
  else if n = 92 then ['\\','\\']
  else if n < 32 then ['\\','u','0','0',Nat.digitChar (n/16),Nat.digitChar (n % 16)]
  else [c]

def quote (s : String) : List Char := '"' :: (s.toList.flatMap escaped ++ ['"'])

def intText (i : Int) : List Char := (if i < 0 then ['-'] else []) ++ Nat.toDigits 10 i.natAbs

mutual
/-- What is left of a value in a JSON text: no undefined member, and null for an undefined
element and for a Number that is not finite. -/
def clean : Val → Val
  | .undefined => .null
  | .num n => if n.isFinite then .num n else .null
  | .arr xs => .arr (cleanAll xs)
  | .obj fs => .obj (cleanFields fs)
  | v => v

def cleanAll : List Val → List Val
  | [] => []
  | x :: xs => clean x :: cleanAll xs

def cleanFields : List (String × Val) → List (String × Val)
  | [] => []
  | (_,.undefined) :: fs => cleanFields fs
  | (k,x) :: fs => (k,clean x) :: cleanFields fs
end

section
-- how a finite Number is written that is no integer of 53 bits
variable (decimalText : Number → List Char)

def numberText (n : Number) : List Char :=
  match n.toSafeInt? with
  | some i => intText i
  | none => decimalText n

mutual
/-- The text of a clean value. -/
def print : Val → List Char
  | .null => "null".toList
  | .bool b => if b then "true".toList else "false".toList
  | .num n => numberText decimalText n
  | .str s => quote s
  | .arr xs => '[' :: (printAll xs ++ [']'])
  | .obj fs => '\x7b' :: (printFields fs ++ ['\x7d'])
  | .undefined | .bigint _ | .bytes _ | .date _ => []

def printAll : List Val → List Char
  | [] => []
  | [x] => print x
  | x :: y :: ys => print x ++ ',' :: printAll (y :: ys)

def printFields : List (String × Val) → List Char
  | [] => []
  | [(k,x)] => quote k ++ ':' :: print x
  | (k,x) :: f :: fs => quote k ++ ':' :: (print x ++ ',' :: printFields (f :: fs))
end

/-- `JSON.stringify(v)`, for a value without BigInts, byte strings and dates. -/
def stringify (v : Val) : Option String :=
  match v with
  | .undefined => none
  | v => some (String.ofList (print decimalText (clean v)))

/-- What may follow a number. -/
def Ends (rest : List Char) : Prop :=
  ∀ c cs, rest = c :: cs → c.isDigit = false ∧ c ≠ '.' ∧ c ≠ 'e' ∧ c ≠ 'E'

mutual
/-- A value that a JSON text can hold, with every Number as it is written read as it was. -/
def Writable : Val → Prop
  | .undefined | .null | .bool _ | .str _ => True
  | .num n => n.toSafeInt? = none → n.isFinite = true →
      ∀ rest, Ends rest → number (decimalText n ++ rest) = some (.num n,rest)
  | .arr xs => WritableAll xs
  | .obj fs => (JsMap.keys fs).Nodup ∧ WritableFields fs
  | .bigint _ | .bytes _ | .date _ => False

def WritableAll : List Val → Prop
  | [] => True
  | x :: xs => Writable x ∧ WritableAll xs

def WritableFields : List (String × Val) → Prop
  | [] => True
  | (_,x) :: fs => Writable x ∧ WritableFields fs
end

end

/-! A string is read back. -/

theorem codeUnits_escaped (c : Char) (cs : List Char) :
    codeUnits (escaped c ++ cs) = (codeUnits cs).map fun p => (c.toNat :: p.1,p.2) := by
  unfold escaped
  dsimp only
  split
  · next h => simp [codeUnits,escape,h]
  split
  · next h => simp [codeUnits,escape,h]
  split
  · next h => simp [codeUnits,escape,h]
  split
  · next h => simp [codeUnits,escape,h]
  split
  · next h => simp [codeUnits,escape,h]
  split
  · next h => simp [codeUnits,escape,h]
  split
  · next h => simp [codeUnits,escape,h]
  split
  · next h =>
    have h1 := digitValue_digitChar (n := c.toNat/16) (by omega)
    have h2 := digitValue_digitChar (n := c.toNat % 16) (by omega)
    have h0 : digitValue '0' = some 0 := rfl
    have hmod : c.toNat % 16 < 16 := Nat.mod_lt _ (by omega)
    have hdiv : c.toNat/16 < 16 := by omega
    have hex : hex4 '0' '0' (Nat.digitChar (c.toNat/16)) (Nat.digitChar (c.toNat % 16)) =
        some c.toNat := by
      simp [hex4,digitsValue,h0,h1,h2,hmod,hdiv]
      omega
    simp [codeUnits,hex]
  · next hquote hslash hspace =>
    have hq : c ≠ '"' := by
      rintro rfl
      exact hquote rfl
    have hs : c ≠ '\\' := by
      rintro rfl
      exact hslash rfl
    rw [List.cons_append,List.nil_append,codeUnits.eq_def]
    split
    all_goals simp_all

theorem codeUnits_quoted (cs rest : List Char) :
    codeUnits (cs.flatMap escaped ++ '"' :: rest) = some (cs.map Char.toNat,rest) := by
  induction cs with
  | nil => simp [codeUnits]
  | cons c cs ih =>
    rw [List.flatMap_cons,List.append_assoc,codeUnits_escaped,ih]
    rfl

theorem not_surrogate (c : Char) : ¬(0xd800 ≤ c.toNat ∧ c.toNat < 0xe000) := by
  have hv : c.toNat < 0xd800 ∨ 0xdfff < c.toNat ∧ c.toNat < 0x110000 := c.valid
  omega

theorem joinSurrogates_toNat (cs : List Char) : joinSurrogates (cs.map Char.toNat) = cs := by
  induction cs with
  | nil => rfl
  | cons c cs ih =>
    have hc := not_surrogate c
    cases cs with
    | nil => simp [joinSurrogates,hc]
    | cons d cs =>
      have hpair : ¬(0xd800 ≤ c.toNat ∧ c.toNat < 0xdc00 ∧ 0xdc00 ≤ d.toNat ∧ d.toNat < 0xe000) := by
        omega
      rw [List.map_cons] at ih
      rw [List.map_cons,List.map_cons,joinSurrogates,if_neg hpair,if_neg hc,ih,Char.ofNat_toNat]

theorem stringBody_quoted (s : String) (rest : List Char) :
    stringBody (s.toList.flatMap escaped ++ '"' :: rest) = some (s,rest) := by
  rw [stringBody,codeUnits_quoted,Option.map_some,joinSurrogates_toNat,String.ofList_toList]

/-! A number is read back. -/

theorem isDigit_toDigits (n : Nat) : ∀ c ∈ Nat.toDigits 10 n, c.isDigit = true := by
  intro c hc
  exact Nat.isDigit_of_mem_toDigits (by decide) (by decide) hc

theorem Ends.takeDigits {rest : List Char} (h : Ends rest) {ds : List Char}
    (hd : ∀ c ∈ ds, c.isDigit = true) : Js.takeDigits (ds ++ rest) = (ds,rest) := by
  rw [Js.takeDigits,List.span_eq_takeWhile_dropWhile,List.takeWhile_append_of_pos hd,
    List.dropWhile_append_of_pos hd]
  cases rest with
  | nil => simp
  | cons c cs =>
    obtain ⟨hc,-⟩ := h c cs rfl
    simp [hc]

theorem head?_toDigits {n : Nat} (hn : 0 < n) : (Nat.toDigits 10 n).head? ≠ some '0' := by
  induction n using Nat.strongRecOn with
  | ind n ih =>
    rw [Nat.toDigits_eq_if (by decide)]
    split
    · next hlt =>
      have hall : ∀ i : Fin 10, 0 < i.1 → Nat.digitChar i.1 ≠ '0' := by decide
      simpa using hall ⟨n,hlt⟩ hn
    · next hge =>
      have hrest := ih (n/10) (by omega) (by omega)
      cases hd : Nat.toDigits 10 (n/10) with
      | nil => exact absurd hd Nat.toDigits_ne_nil
      | cons c cs =>
        rw [hd] at hrest
        simpa using hrest

/-- No number but zero begins with a zero. -/
theorem toDigits_leading {n : Nat} (h : (Nat.toDigits 10 n).head? = some '0') :
    (Nat.toDigits 10 n).length = 1 := by
  rcases Nat.eq_zero_or_pos n with rfl | hn
  · rfl
  · exact absurd h (head?_toDigits hn)

theorem Ends.fraction {rest : List Char} (h : Ends rest) :
    JsonText.fraction rest = some ([],rest) := by
  cases rest with
  | nil => rfl
  | cons c cs =>
    obtain ⟨-,hp,-⟩ := h c cs rfl
    unfold JsonText.fraction
    split
    · next heq => exact absurd (List.cons.inj heq).1 hp
    · rfl

theorem Ends.exponentPart {rest : List Char} (h : Ends rest) :
    Js.exponentPart rest = some (0,rest) := by
  cases rest with
  | nil => rfl
  | cons c cs =>
    obtain ⟨-,-,he,hE⟩ := h c cs rfl
    rw [Js.exponentPart,if_neg (by simp [he,hE])]

/-- The digits of an integer, after its sign. -/
theorem number_digits {cs rest : List Char} {negative : Bool} {n : Nat}
    (hm : takeMinus cs = (negative,Nat.toDigits 10 n ++ rest)) (h : Ends rest) :
    number cs = some (.num (Number.ofRat (if negative then -(n : Rat) else n)),rest) := by
  have hspan := h.takeDigits (isDigit_toDigits n)
  have hne : ¬((Nat.toDigits 10 n).isEmpty = true ∨
      ((Nat.toDigits 10 n).head? = some '0' ∧ (Nat.toDigits 10 n).length ≠ 1)) := by
    rintro (h | ⟨h0,h1⟩)
    · exact Nat.toDigits_ne_nil (List.isEmpty_iff.mp h)
    · exact h1 (toDigits_leading h0)
  have hvalue : decimal (Nat.toDigits 10 n) [] 0 = some (n : Rat) := by
    simp [decimal,digitsValue_toDigits]
  unfold number
  simp only [hm,hspan,if_neg hne,h.fraction,h.exponentPart,Option.bind_eq_bind,Option.bind_some,
    hvalue]

theorem takeMinus_toDigits (n : Nat) (rest : List Char) :
    takeMinus (Nat.toDigits 10 n ++ rest) = (false,Nat.toDigits 10 n ++ rest) := by
  cases hd : Nat.toDigits 10 n with
  | nil => exact absurd hd Nat.toDigits_ne_nil
  | cons c cs =>
    have hc := isDigit_toDigits n c (hd ▸ List.mem_cons_self)
    unfold takeMinus
    split
    · next heq =>
      rw [List.cons_append,List.cons.injEq] at heq
      rw [heq.1] at hc
      cases hc
    · rfl

theorem ofRat_safe {i : Int} (h : |i| ≤ Number.maxSafeInteger) :
    Number.ofRat i = Number.ofInt i := by
  have hi : |i| ≤ 9007199254740991 := h
  rw [abs_le] at hi
  rw [Number.ofRat,if_pos ⟨rfl,by rw [Rat.num_intCast]; omega⟩,Number.ofInt]

theorem number_intText {i : Int} (hi : |i| ≤ Number.maxSafeInteger) {rest : List Char}
    (h : Ends rest) : number (intText i ++ rest) = some (.num (Number.ofInt i),rest) := by
  rw [← ofRat_safe hi]
  unfold intText
  split
  · next hneg =>
    have hcast : -((i.natAbs : Nat) : Rat) = i := by
      have hz : ((i.natAbs : Nat) : Int) = -i := by omega
      have hq : ((i.natAbs : Nat) : Rat) = ((-i : Int) : Rat) := by
        rw [← hz,Int.cast_natCast]
      rw [hq,Int.cast_neg,neg_neg]
    have hm : takeMinus (['-'] ++ Nat.toDigits 10 i.natAbs ++ rest) =
        (true,Nat.toDigits 10 i.natAbs ++ rest) := rfl
    rw [number_digits hm h,if_pos rfl,hcast]
  · next hpos =>
    have hcast : ((i.natAbs : Nat) : Rat) = i := by
      have hz : ((i.natAbs : Nat) : Int) = i := by omega
      rw [← Int.cast_natCast,hz]
    have hm : takeMinus ([] ++ Nat.toDigits 10 i.natAbs ++ rest) =
        (false,Nat.toDigits 10 i.natAbs ++ rest) := takeMinus_toDigits _ _
    rw [number_digits hm h,if_neg (by decide),hcast]

/-! A value is read back. -/

theorem skip_cons {c : Char} (h : isSpace c = false) (cs : List Char) : skip (c :: cs) = c :: cs := by
  rw [skip,List.dropWhile_cons,h]
  rfl

/-- The characters that a value can begin with. -/
def Begins (c : Char) : Prop := isSpace c = false ∧ c ≠ ']' ∧ c.toNat < 128

theorem begins_digit {c : Char} (h : c.isDigit = true) : Begins c ∧ c ∉ ['"','[','\x7b','t','f','n'] := by
  have hr : 48 ≤ c.toNat ∧ c.toNat ≤ 57 := by
    simp only [Char.isDigit,Bool.and_eq_true,decide_eq_true_eq,ge_iff_le,UInt32.le_iff_toNat_le] at h
    exact h
  have hne (d : Char) (hd : d.toNat < 48 ∨ 57 < d.toNat) : c ≠ d := by
    rintro rfl
    omega
  refine ⟨⟨?_,hne ']' (by decide),by omega⟩,?_⟩
  · simp [isSpace,hne ' ' (by decide),hne '\t' (by decide),hne '\n' (by decide),hne '\r' (by decide)]
  · simp [hne '"' (by decide),hne '[' (by decide),hne '\x7b' (by decide),hne 't' (by decide),
      hne 'f' (by decide),hne 'n' (by decide)]

theorem mem_takeDigits {cs : List Char} {c : Char} (h : c ∈ (takeDigits cs).1) :
    c.isDigit = true := by
  rw [takeDigits,List.span_eq_takeWhile_dropWhile] at h
  exact List.mem_takeWhile_imp h

/-- A number begins with its sign or a digit. -/
theorem number_begins {cs : List Char} {r : Val × List Char} (h : number cs = some r) :
    ∃ c ds, cs = c :: ds ∧ Begins c ∧ c ∉ ['"','[','\x7b','t','f','n'] := by
  cases cs with
  | nil => cases h
  | cons c ds =>
    refine ⟨c,ds,rfl,?_⟩
    by_cases hc : c = '-'
    · subst hc
      exact ⟨⟨by decide,by decide,by decide⟩,by decide⟩
    have hm : takeMinus (c :: ds) = (false,c :: ds) := by
      unfold takeMinus
      split
      · next heq => exact absurd (List.cons.inj heq).1 hc
      · rfl
    have hdigit : c.isDigit = true := by
      by_contra hd
      have hnil : (takeDigits (c :: ds)).1 = [] := by
        rw [takeDigits,List.span_eq_takeWhile_dropWhile,List.takeWhile_cons,if_neg hd]
      simp [number,hm,hnil] at h
    exact begins_digit hdigit

theorem value_number {n : Nat} {cs : List Char} {r : Val × List Char} (h : number cs = some r) :
    value (n+1) cs = some r := by
  obtain ⟨c,ds,rfl,⟨hspace,-,-⟩,hc⟩ := number_begins h
  simp only [List.mem_cons,List.not_mem_nil,or_false,not_or] at hc
  obtain ⟨h1,h2,h3,h4,h5,h6⟩ := hc
  rw [value,skip_cons hspace]
  split
  · next heq => exact absurd (List.cons.inj heq).1 h1
  · next heq => exact absurd (List.cons.inj heq).1 h2
  · next heq => exact absurd (List.cons.inj heq).1 h3
  · next heq => exact absurd (List.cons.inj heq).1 h4
  · next heq => exact absurd (List.cons.inj heq).1 h5
  · next heq => exact absurd (List.cons.inj heq).1 h6
  · exact h

theorem foldl_set {fs gs : List (String × Val)} (h : (JsMap.keys (gs ++ fs)).Nodup) :
    fs.foldl (fun m e => JsMap.set m e.1 e.2) gs = gs ++ fs := by
  induction fs generalizing gs with
  | nil => simp
  | cons e fs ih =>
    have hnew : JsMap.get gs e.1 = none := by
      rw [JsMap.get_eq_none_iff]
      intro hmem
      rw [JsMap.keys,List.map_append,List.nodup_append] at h
      exact h.2.2 e.1 hmem e.1 (List.mem_map_of_mem List.mem_cons_self) rfl
    rw [List.foldl_cons,JsMap.set_of_get_none _ hnew,ih (by simpa using h)]
    simp

section
variable {decimalText : Number → List Char}

theorem printAll_cons (x : Val) (xs : List Val) : printAll decimalText (x :: xs) =
    print decimalText x ++ if xs = [] then [] else ',' :: printAll decimalText xs := by
  cases xs with
  | nil => simp [printAll]
  | cons y ys => simp [printAll]

theorem printFields_cons (k : String) (x : Val) (fs : List (String × Val)) :
    printFields decimalText ((k,x) :: fs) = quote k ++ ':' :: (print decimalText x ++
      if fs = [] then [] else ',' :: printFields decimalText fs) := by
  cases fs with
  | nil => simp [printFields]
  | cons f fs => simp [printFields]

theorem cleanFields_sublist (fs : List (String × Val)) :
    (JsMap.keys (cleanFields fs)).Sublist (JsMap.keys fs) := by
  induction fs with
  | nil => exact .refl _
  | cons f fs ih =>
    obtain ⟨k,x⟩ := f
    cases x with
    | undefined =>
      simp only [cleanFields]
      exact ih.cons k
    | _ =>
      simp only [cleanFields]
      exact ih.cons_cons k

theorem ends_cons {c : Char} (h : c.isDigit = false ∧ c ≠ '.' ∧ c ≠ 'e' ∧ c ≠ 'E') (cs : List Char) :
    Ends (c :: cs) := by
  rintro d ds heq
  cases heq
  exact h

theorem ends_nil : Ends [] := by
  rintro c cs heq
  cases heq

/-- A Number is read back from the text of it. -/
theorem number_numberText {n : Number} (h : Writable decimalText (.num n)) (hf : n.isFinite = true)
    {rest : List Char} (he : Ends rest) :
    number (numberText decimalText n ++ rest) = some (.num n,rest) := by
  unfold numberText
  cases hn : n.toSafeInt? with
  | some i =>
    obtain ⟨rfl,hi⟩ := Number.toSafeInt?_eq_some hn
    exact number_intText hi he
  | none =>
    simp only [Writable] at h
    exact h hn hf rest he

/-- A text begins with a character that says what it is of. -/
theorem print_begins {v : Val} (h : Writable decimalText v) :
    ∃ c cs, print decimalText (clean v) = c :: cs ∧ Begins c := by
  cases v with
  | undefined | null => exact ⟨'n',"ull".toList,by simp [clean,print],by decide,by decide,by decide⟩
  | bool b =>
    cases b with
    | false => exact ⟨'f',"alse".toList,by simp [clean,print],by decide,by decide,by decide⟩
    | true => exact ⟨'t',"rue".toList,by simp [clean,print],by decide,by decide,by decide⟩
  | num n =>
    cases hf : n.isFinite with
    | false =>
      exact ⟨'n',"ull".toList,by simp [clean,print,hf],by decide,by decide,by decide⟩
    | true =>
      have hread := number_numberText h hf ends_nil
      rw [List.append_nil] at hread
      obtain ⟨c,cs,hcs,hc,-⟩ := number_begins hread
      exact ⟨c,cs,by simp [clean,print,hf,hcs],hc⟩
  | str s =>
    exact ⟨'"',s.toList.flatMap escaped ++ ['"'],by simp [clean,print,quote],by decide,by decide,
      by decide⟩
  | arr xs => exact ⟨'[',_,by rw [clean,print],by decide,by decide,by decide⟩
  | obj fs => exact ⟨'\x7b',_,by rw [clean,print],by decide,by decide,by decide⟩
  | bigint | bytes | date =>
    simp only [Writable] at h

theorem ends_comma (cs : List Char) : Ends (',' :: cs) := ends_cons (by decide) cs
theorem ends_bracket (cs : List Char) : Ends (']' :: cs) := ends_cons (by decide) cs
theorem ends_brace (cs : List Char) : Ends ('\x7d' :: cs) := ends_cons (by decide) cs

theorem value_bracket (n : Nat) (cs : List Char) : value (n+1) ('[' :: cs) =
    match skip cs with
    | ']' :: cs => some (.arr [],cs)
    | cs => (elements n cs).map fun p => (.arr p.1,p.2) := by
  rw [value,skip_cons (by decide)]
  rfl

theorem value_brace (n : Nat) (cs : List Char) : value (n+1) ('\x7b' :: cs) =
    match skip cs with
    | '\x7d' :: cs => some (.obj [],cs)
    | cs => (members n cs).map fun p =>
        (.obj (p.1.foldl (fun fs e => JsMap.set fs e.1 e.2) []),p.2) := by
  rw [value,skip_cons (by decide)]
  rfl

theorem members_quote (n : Nat) (k : String) (cs : List Char) :
    members (n+1) (quote k ++ ':' :: cs) = (value n cs).bind fun p =>
      match skip p.2 with
      | ',' :: cs => (members n cs).map fun q => ((k,p.1) :: q.1,q.2)
      | '\x7d' :: cs => some ([(k,p.1)],cs)
      | _ => none := by
  rw [quote,List.cons_append,List.append_assoc,members,skip_cons (by decide)]
  change (stringBody (k.toList.flatMap escaped ++ (['"'] ++ ':' :: cs))).bind _ = _
  rw [List.singleton_append,stringBody_quoted]
  rfl

mutual
theorem value_print {n : Nat} (v : Val) (h : Writable decimalText v)
    (hn : 2*(print decimalText (clean v)).length ≤ n) {rest : List Char} (he : Ends rest) :
    value n (print decimalText (clean v) ++ rest) = some (clean v,rest) := by
  obtain ⟨c,cs,hcs,-⟩ := print_begins h
  have hpos : 0 < (print decimalText (clean v)).length := by
    rw [hcs]
    exact Nat.succ_pos _
  obtain ⟨n,rfl⟩ : ∃ m, n = m+1 := ⟨n-1,by omega⟩
  match v with
  | .undefined | .null => simp [clean,print,value,skip,isSpace,literal]
  | .bool b => cases b <;> simp [clean,print,value,skip,isSpace,literal]
  | .num m =>
    cases hf : m.isFinite with
    | false => simp [clean,hf,print,value,skip,isSpace,literal]
    | true =>
      have hread := number_numberText h hf he
      simp only [clean,hf,if_true,print]
      exact value_number hread
  | .str s =>
    have hread := stringBody_quoted s rest
    simp [clean,print,quote,value,skip,isSpace,hread]
  | .arr xs =>
    simp only [Writable] at h
    cases xs with
    | nil => simp [clean,cleanAll,print,printAll,value,skip,isSpace]
    | cons x xs =>
      simp only [clean,print,List.length_cons,List.length_append,List.length_nil] at hn ⊢
      have hread := elements_printAll x xs h (n := n) (by omega) rest
      obtain ⟨d,ds,hds,hd,hne,-⟩ := print_begins h.1
      rw [List.cons_append,List.append_assoc,List.singleton_append,value_bracket]
      rw [cleanAll,printAll_cons,hds] at hread ⊢
      simp only [List.cons_append] at hread ⊢
      rw [skip_cons hd]
      split
      · next heq => exact absurd (List.cons.inj heq).1 hne
      · rw [hread]
        rfl
  | .obj fs =>
    simp only [Writable] at h
    simp only [clean,print,List.length_cons,List.length_append,List.length_nil] at hn ⊢
    rw [List.cons_append,List.append_assoc,List.singleton_append,value_brace]
    have hkeys : (JsMap.keys ([] ++ cleanFields fs)).Nodup := h.1.sublist (cleanFields_sublist fs)
    have hset := foldl_set hkeys
    cases hfs : cleanFields fs with
    | nil =>
      rw [printFields,List.nil_append,skip_cons (by decide)]
      rfl
    | cons f gs =>
      have hread := members_printFields fs h.2 (n := n) (by omega) (by simp [hfs]) rest
      rw [hfs] at hread hset
      obtain ⟨k,x⟩ := f
      rw [printFields_cons,quote] at hread ⊢
      simp only [List.cons_append] at hread ⊢
      rw [skip_cons (by decide)]
      split
      · next heq => exact absurd (List.cons.inj heq).1 (by decide)
      · rw [hread,Option.map_some,hset,List.nil_append]
  | .bigint _ | .bytes _ | .date _ => simp only [Writable] at h

theorem elements_printAll {n : Nat} (x : Val) (xs : List Val) (h : WritableAll decimalText (x :: xs))
    (hn : 2*(printAll decimalText (cleanAll (x :: xs))).length+1 ≤ n) (rest : List Char) :
    elements n (printAll decimalText (cleanAll (x :: xs)) ++ ']' :: rest) =
      some (cleanAll (x :: xs),rest) := by
  obtain ⟨n,rfl⟩ : ∃ m, n = m+1 := ⟨n-1,by omega⟩
  simp only [WritableAll] at h
  rw [cleanAll,printAll_cons] at hn ⊢
  rw [List.length_append] at hn
  match xs with
  | [] =>
    have hx := value_print x h.1 (n := n) (by omega) (ends_bracket rest)
    simp [cleanAll,elements,hx,skip,isSpace]
  | y :: ys =>
    rw [if_neg (by simp [cleanAll]),List.length_cons] at hn
    have hx := value_print x h.1 (n := n) (by omega)
      (ends_comma (printAll decimalText (cleanAll (y :: ys)) ++ ']' :: rest))
    have hys := elements_printAll y ys h.2 (n := n) (by omega) rest
    rw [if_neg (by simp [cleanAll]),List.append_assoc,List.cons_append,elements,hx]
    simp [skip,isSpace,hys]

theorem members_printFields {n : Nat} (fs : List (String × Val)) (h : WritableFields decimalText fs)
    (hn : 2*(printFields decimalText (cleanFields fs)).length+1 ≤ n) (hne : cleanFields fs ≠ [])
    (rest : List Char) :
    members n (printFields decimalText (cleanFields fs) ++ '\x7d' :: rest) =
      some (cleanFields fs,rest) := by
  match fs with
  | [] => exact absurd rfl hne
  | (k,x) :: fs =>
    simp only [WritableFields] at h
    by_cases hx : x = .undefined
    · subst hx
      simp only [cleanFields] at hn hne ⊢
      exact members_printFields fs h.2 hn hne rest
    obtain ⟨n,rfl⟩ : ∃ m, n = m+1 := ⟨n-1,by omega⟩
    have hclean : cleanFields ((k,x) :: fs) = (k,clean x) :: cleanFields fs := by
      rw [cleanFields]
      exact hx
    rw [hclean,printFields_cons] at hn ⊢
    simp only [quote,List.length_append,List.length_cons,List.length_nil] at hn
    rw [List.append_assoc,List.cons_append,List.append_assoc,members_quote]
    by_cases hfs : cleanFields fs = []
    · have hread := value_print x h.1 (n := n) (by omega) (ends_brace rest)
      rw [if_pos hfs,List.nil_append,hread,hfs]
      simp [skip,isSpace]
    · rw [if_neg hfs,List.length_cons] at hn
      have hread := value_print x h.1 (n := n) (by omega)
        (ends_comma (printFields decimalText (cleanFields fs) ++ '\x7d' :: rest))
      have hrest := members_printFields fs h.2 (n := n) (by omega) hfs rest
      rw [if_neg hfs,List.cons_append,hread]
      simp [skip,isSpace,hrest]
end

theorem toList_of_stringify {v : Val} {s : String} (hs : stringify decimalText v = some s) :
    s.toList = print decimalText (clean v) := by
  unfold stringify at hs
  split at hs
  · cases hs
  · cases hs
    exact String.toList_ofList

/-- What is written is read as it was, apart from what a JSON text does not hold. -/
theorem parse_stringify {v : Val} (h : Writable decimalText v) {s : String}
    (hs : stringify decimalText v = some s) : parse s.toList = .ok (clean v) := by
  have hread := value_print v h (n := fuelFor (print decimalText (clean v)))
    (by unfold fuelFor; omega) ends_nil
  rw [List.append_nil] at hread
  rw [toList_of_stringify hs,parse,hread]
  rfl

/-- So it is from the bytes of the text. -/
theorem decode_stringify {v : Val} (h : Writable decimalText v) {s : String}
    (hs : stringify decimalText v = some s) : Utf8.decode (Bytes.utf8 s) = s.toList := by
  obtain ⟨c,cs,hcs,-,-,hc⟩ := print_begins h
  rw [← toList_of_stringify hs] at hcs
  rw [Utf8.decode_utf8 hcs hc,hcs]

end

end JsonText
