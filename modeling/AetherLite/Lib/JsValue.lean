import Mathlib.Data.Rat.Floor
import AetherLite.Lib.Bytes
import AetherLite.Lib.JsMap

/-! The values a decoder of JSON or msgpack can hand to a program written in
ECMAScript, and the conversions of the language on them. -/
set_option autoImplicit false

namespace Js

/-- What a `throw` carries. -/
inductive Thrown where
  | typeError : String → Thrown
  | rangeError : String → Thrown
  | syntaxError : String → Thrown
  | error : String → Thrown
  deriving DecidableEq, Repr

section Throws
variable {α β : Type}

def throws : Except Thrown α → Bool
  | .error _ => true
  | .ok _ => false

theorem toOption_eq_some {ε α : Type*} {e : Except ε α} {a : α} :
    e.toOption = some a ↔ e = .ok a := by
  cases e <;> simp [Except.toOption]

@[simp] theorem throws_ok (a : α) : throws (.ok a) = false := rfl
@[simp] theorem throws_error (e : Thrown) : throws (.error e : Except Thrown α) = true := rfl

theorem throws_eq_false {x : Except Thrown α} (h : throws x = false) : ∃ a, x = .ok a := by
  cases x with
  | error e => cases h
  | ok a => exact ⟨a,rfl⟩

theorem bind_ok {x : Except Thrown α} {f : α → Except Thrown β} {b : β}
    (h : (x >>= f) = .ok b) : ∃ a, x = .ok a ∧ f a = .ok b := by
  cases x with
  | error e => cases h
  | ok a => exact ⟨a,rfl,h⟩

theorem map_of_mapM {f : α → Except Thrown β} {g : β → α} (hf : ∀ x y, f x = .ok y → g y = x)
    {xs : List α} {ys : List β} (h : xs.mapM f = .ok ys) : ys.map g = xs := by
  induction xs generalizing ys with
  | nil =>
    cases h
    rfl
  | cons x xs ih =>
    rw [List.mapM_cons] at h
    obtain ⟨y,hy,h⟩ := bind_ok h
    obtain ⟨zs,hzs,h⟩ := bind_ok h
    cases h
    rw [List.map_cons,hf x y hy,ih hzs]

theorem mapM_ok {f : α → Except Thrown β} {P : β → Prop} {xs : List α}
    (h : ∀ x ∈ xs, ∃ y, f x = .ok y ∧ P y) : ∃ ys, xs.mapM f = .ok ys ∧ ∀ y ∈ ys, P y := by
  induction xs with
  | nil => exact ⟨[],rfl,fun y hy => by cases hy⟩
  | cons x xs ih =>
    obtain ⟨hx,hrest⟩ := List.forall_mem_cons.mp h
    obtain ⟨y,hy,hpy⟩ := hx
    obtain ⟨ys,hys,hall⟩ := ih hrest
    refine ⟨y :: ys,?_,List.forall_mem_cons.mpr ⟨hpy,hall⟩⟩
    rw [List.mapM_cons,hy,hys]
    rfl

theorem mapM_eq_map {f : α → Except Thrown β} {g : α → β} {xs : List α}
    (h : ∀ x ∈ xs, f x = .ok (g x)) : xs.mapM f = .ok (xs.map g) := by
  induction xs with
  | nil => rfl
  | cons x xs ih =>
    obtain ⟨hx,hrest⟩ := List.forall_mem_cons.mp h
    rw [List.mapM_cons,hx,ih hrest]
    rfl

theorem throws_mapM (f : α → Except Thrown β) (xs : List α) :
    throws (xs.mapM f) = xs.any fun x => throws (f x) := by
  induction xs with
  | nil => rfl
  | cons x xs ih =>
    rw [List.mapM_cons,List.any_cons]
    cases hx : f x with
    | error e => rfl
    | ok y =>
      cases ht : xs.mapM f with
      | error e =>
        rw [ht] at ih
        simpa [bind,Except.bind] using ih
      | ok ys =>
        rw [ht] at ih
        simpa [bind,Except.bind,pure,Except.pure] using ih

end Throws

/-- A Number. The finite doubles are rationals; -0 is identified with 0, which no
operation below can tell apart. -/
inductive Number where
  | fin : Rat → Number
  | inf (negative : Bool) : Number
  | nan : Number
  deriving DecidableEq, Repr

namespace Number

/-- The exponent `e` with `2^e ≤ a/b < 2^(e+1)`, for positive `a` and `b`. -/
def binaryExponent (a b : Nat) : Int :=
  let e : Int := (a.log2 : Int)-b.log2
  if (2 : Rat)^e ≤ (a : Rat)/b then e else e-1

def roundHalfEven (q : Rat) : Int :=
  let r := q-q.floor
  if r < 1/2 then q.floor
  else if 1/2 < r then q.floor+1
  else if q.floor % 2 = 0 then q.floor else q.floor+1

/-- The double nearest to a rational, ties to even; beyond the range, an infinity.
An integer of 53 bits is a double. -/
def ofRat (q : Rat) : Number :=
  if q.den = 1 ∧ q.num.natAbs ≤ 2^53 then .fin q else
    let ulp : Rat := 2^(max (binaryExponent q.num.natAbs q.den-52) (-1074))
    let d := roundHalfEven (q/ulp)*ulp
    if 2^1024 ≤ |d| then .inf (decide (q < 0)) else .fin d

def ofInt (i : Int) : Number := .fin i
def ofNat (n : Nat) : Number := .fin n

def isFinite : Number → Bool
  | .fin _ => true
  | _ => false

def lt : Number → Number → Bool
  | .nan,_ | _,.nan => false
  | .inf a,.inf b => a && !b
  | .inf a,.fin _ => a
  | .fin _,.inf b => !b
  | .fin p,.fin q => decide (p < q)

/-- `===` on Numbers: NaN equals nothing. -/
def strictEq : Number → Number → Bool
  | .nan,_ | _,.nan => false
  | m,n => decide (m = n)

/-- `Math.max` of two Numbers. -/
def max : Number → Number → Number
  | .nan,_ | _,.nan => .nan
  | m,n => if lt m n then n else m

def truthy : Number → Bool
  | .fin q => decide (q ≠ 0)
  | .inf _ => true
  | .nan => false

/-- `n || 0` -/
def orZero (n : Number) : Number := if n.truthy then n else .fin 0

/-- `isFinite(n) && n > 0` -/
def finitePositive : Number → Bool
  | .fin q => decide (0 < q)
  | _ => false

/-- The integer a Number is, when `Number.isInteger` holds of it. -/
def toInt? : Number → Option Int
  | .fin q => if q.den = 1 then some q.num else none
  | _ => none

/-- 2^53-1 -/
def maxSafeInteger : Int := 9007199254740991

/-- The integer a Number is, when `Number.isSafeInteger` holds of it. -/
def toSafeInt? (n : Number) : Option Int :=
  n.toInt?.bind fun i => if |i| ≤ maxSafeInteger then some i else none

/-- The conversion a store into a Uint8Array makes. -/
def toUint8 : Number → UInt8
  | .fin q =>
    let i : Int := if q < 0 then -(-q).floor else q.floor
    UInt8.ofNat (i % 256).toNat
  | _ => 0

theorem toInt?_ofInt (i : Int) : (ofInt i).toInt? = some i := by simp [toInt?,ofInt]

theorem toInt?_eq_some {n : Number} {i : Int} (h : n.toInt? = some i) : n = ofInt i := by
  cases n with
  | fin q =>
    simp only [toInt?,Option.ite_none_right_eq_some,Option.some.injEq] at h
    obtain ⟨hd,rfl⟩ := h
    rw [ofInt,Rat.coe_int_num_of_den_eq_one hd]
  | inf b => simp [toInt?] at h
  | nan => simp [toInt?] at h

theorem toSafeInt?_eq_some {n : Number} {i : Int} (h : n.toSafeInt? = some i) :
    n = ofInt i ∧ |i| ≤ maxSafeInteger := by
  obtain ⟨j,hj,hji⟩ := Option.bind_eq_some_iff.mp h
  simp only [Option.ite_none_right_eq_some,Option.some.injEq] at hji
  obtain ⟨hb,rfl⟩ := hji
  exact ⟨toInt?_eq_some hj,hb⟩

theorem toInt?_ofNat (n : Nat) : (ofNat n).toInt? = some (n : Int) := by simp [toInt?,ofNat]

theorem toSafeInt?_ofNat (n : Nat) :
    (ofNat n).toSafeInt? = if n ≤ 9007199254740991 then some (n : Int) else none := by
  have hle : (n : Int) ≤ maxSafeInteger ↔ n ≤ 9007199254740991 := by
    rw [maxSafeInteger]
    omega
  simp [toSafeInt?,toInt?_ofNat,hle]

end Number

/-- A value without functions or prototypes of its own: what JSON and msgpack
decode to. `bytes` is a Uint8Array, `date` the time value of a Date. -/
inductive Val where
  | undefined : Val
  | null : Val
  | bool : Bool → Val
  | num : Number → Val
  | bigint : Int → Val
  | str : String → Val
  | bytes : Bytes → Val
  | date : Number → Val
  | arr : List Val → Val
  | obj : List (String × Val) → Val

/-- The length of a string in UTF-16 code units. -/
def utf16Length (s : String) : Nat := (s.toList.map fun c => if c.val < 0x10000 then 1 else 2).sum

theorem utf16Length_of_ascii {s : String} (h : ∀ c ∈ s.toList, c.val ≤ 0x7f) :
    utf16Length s = s.toList.length := by
  unfold utf16Length
  generalize s.toList = cs at h
  induction cs with
  | nil => rfl
  | cons c cs ih =>
    have hle : c.val ≤ 0x7f := h c List.mem_cons_self
    have hc : c.val < 0x10000 := UInt32.lt_of_le_of_lt hle (by decide)
    rw [List.map_cons,List.sum_cons,ih fun d hd => h d (List.mem_cons_of_mem c hd),if_pos hc,
      List.length_cons,Nat.add_comm]

def isSpace (c : Char) : Bool :=
  let n := c.val
  (9 ≤ n && n ≤ 13) || n = 0x20 || n = 0xa0 || n = 0x1680 || (0x2000 ≤ n && n ≤ 0x200a) ||
    n = 0x2028 || n = 0x2029 || n = 0x202f || n = 0x205f || n = 0x3000 || n = 0xfeff

def digitValue (c : Char) : Option Nat :=
  if '0' ≤ c ∧ c ≤ '9' then some (c.toNat-48)
  else if 'a' ≤ c ∧ c ≤ 'f' then some (c.toNat-87)
  else if 'A' ≤ c ∧ c ≤ 'F' then some (c.toNat-55)
  else none

/-- The value of digits in a base up to 16; none when one is not a digit. -/
def digitsValue (base : Nat) (cs : List Char) : Option Nat :=
  cs.foldl (fun acc c => do
    let n ← acc
    let d ← digitValue c
    if d < base then some (n*base+d) else none) (some 0)

def takeDigits (cs : List Char) : List Char × List Char := cs.span Char.isDigit

def takeSign : List Char → Bool × List Char
  | '-' :: cs => (true,cs)
  | '+' :: cs => (false,cs)
  | cs => (false,cs)

def exponentPart : List Char → Option (Int × List Char)
  | c :: cs =>
    if c = 'e' ∨ c = 'E' then
      let (negative,cs) := takeSign cs
      let (ds,rest) := takeDigits cs
      if ds.isEmpty then none else
        (digitsValue 10 ds).map fun n => (if negative then -(n : Int) else n,rest)
    else some (0,c :: cs)
  | [] => some (0,[])

def decimal (intDigits fracDigits : List Char) (e : Int) : Option Rat :=
  (digitsValue 10 (intDigits ++ fracDigits)).map fun n => n*(10 : Rat)^(e-fracDigits.length)

/-- An unsigned decimal literal that uses up its input. -/
def unsignedDecimal (cs : List Char) : Option Rat := do
  let (intDigits,rest) := takeDigits cs
  let (fracDigits,rest) := match rest with
    | '.' :: rest => takeDigits rest
    | rest => ([],rest)
  if intDigits.isEmpty && fracDigits.isEmpty then none else
    let (e,rest) ← exponentPart rest
    if rest.isEmpty then decimal intDigits fracDigits e else none

/-- `Number(s)` on a string. -/
def stringToNumber (s : String) : Number :=
  let trimmed := ((s.toList.dropWhile isSpace).reverse.dropWhile isSpace).reverse
  let radix (base : Nat) (ds : List Char) : Number :=
    if ds.isEmpty then .nan else ((digitsValue base ds).map fun n => Number.ofRat n).getD .nan
  let signed (negative : Bool) (cs : List Char) : Number :=
    if cs = "Infinity".toList then .inf negative
    else ((unsignedDecimal cs).map fun q => Number.ofRat (if negative then -q else q)).getD .nan
  match trimmed with
  | [] => .fin 0
  | '0' :: 'x' :: ds | '0' :: 'X' :: ds => radix 16 ds
  | '0' :: 'o' :: ds | '0' :: 'O' :: ds => radix 8 ds
  | '0' :: 'b' :: ds | '0' :: 'B' :: ds => radix 2 ds
  | '-' :: cs => signed true cs
  | '+' :: cs => signed false cs
  | cs => signed false cs

namespace Val

/-- Property access on anything but undefined and null. -/
def field (v : Val) (key : String) : Val :=
  match v with
  | .obj fs => (JsMap.get fs key).getD .undefined
  | _ => .undefined

def isNullish : Val → Bool
  | .undefined | .null => true
  | _ => false

def truthy : Val → Bool
  | .undefined | .null => false
  | .bool b => b
  | .num n => n.truthy
  | .bigint i => decide (i ≠ 0)
  | .str s => decide (s ≠ "")
  | .bytes _ | .date _ | .arr _ | .obj _ => true

/-- `typeof v === 'object'`, null aside. -/
def isObject : Val → Bool
  | .bytes _ | .date _ | .arr _ | .obj _ => true
  | _ => false

/-- `v === w` for values decoded apart: two objects are never the same object. -/
def strictEq : Val → Val → Bool
  | .undefined,.undefined | .null,.null => true
  | .bool a,.bool b => a == b
  | .num m,.num n => m.strictEq n
  | .bigint i,.bigint j => i == j
  | .str s,.str t => s == t
  | _,_ => false

/-- The key comparison of a Map: `===`, except that NaN is one key. -/
def sameValueZero : Val → Val → Bool
  | .num .nan,.num .nan => true
  | v,w => strictEq v w

instance : BEq Val := ⟨sameValueZero⟩

theorem Number.strictEq_iff {m n : Number} : m.strictEq n = true ↔ m = n ∧ m ≠ .nan := by
  cases m with
  | nan => simp [Number.strictEq]
  | _ =>
    cases n with
    | _ => simp [Number.strictEq]

/-- Strictly equal values are the same value, and are no objects. -/
theorem eq_of_strictEq {v w : Val} (h : v.strictEq w = true) : v = w := by
  unfold strictEq at h
  split at h
  · rfl
  · rfl
  · rw [beq_iff_eq.mp h]
  · rw [(Number.strictEq_iff.mp h).1]
  · rw [beq_iff_eq.mp h]
  · rw [beq_iff_eq.mp h]
  · cases h

theorem eq_of_beq {v w : Val} (h : (v == w) = true) : v = w := by
  change sameValueZero v w = true at h
  unfold sameValueZero at h
  split at h
  · rfl
  · exact eq_of_strictEq h

instance : PartialEquivBEq Val where
  symm h := by
    cases eq_of_beq h
    exact h
  trans h h' := by
    cases eq_of_beq h
    exact h'

mutual
/-- Whether ToString throws. The only way it can on a decoded value: an object
with a property of its own named `toString`, which is then not callable and hides
the inherited method. -/
def toStringThrows : Val → Bool
  | .obj fs => JsMap.has fs "toString"
  | .arr xs => anyToStringThrows xs
  | _ => false

/-- `Array.prototype.join` converts every element. -/
def anyToStringThrows : List Val → Bool
  | [] => false
  | x :: xs => toStringThrows x || anyToStringThrows xs
end

def joinedBytes : Bytes → Number
  | [] => .fin 0
  | [b] => .fin b.toNat
  | _ => .nan

/-- `Number(String(v))` where that does not throw. The string of an array of two
or more elements holds a comma, so it is no number. -/
def numberOfString : Val → Number
  | .undefined | .null | .arr [] => .fin 0
  | .bool _ | .date _ | .obj _ => .nan
  | .num n => n
  | .bigint i => Number.ofRat i
  | .str s => stringToNumber s
  | .bytes bs => joinedBytes bs
  | .arr [x] => numberOfString x
  | .arr _ => .nan

def noPrimitive : Thrown := .typeError "Cannot convert object to primitive value"

/-- ToNumber, the conversion of arithmetic and of typed arrays. -/
def toNumber : Val → Except Thrown Number
  | .undefined => .ok .nan
  | .null => .ok (.fin 0)
  | .bool b => .ok (.fin (if b then 1 else 0))
  | .num n => .ok n
  | .bigint _ => .error (.typeError "Cannot convert a BigInt value to a number")
  | .str s => .ok (stringToNumber s)
  | .bytes bs => .ok (joinedBytes bs)
  | .date n => .ok n
  | v => if v.toStringThrows then .error noPrimitive else .ok v.numberOfString

/-- Whether a value has no Number. -/
def toNumberThrows : Val → Bool
  | .bigint _ => true
  | v => v.toStringThrows

/-- `Number(v)`, which unlike ToNumber accepts a BigInt. -/
def number : Val → Except Thrown Number
  | .bigint i => .ok (Number.ofRat i)
  | v => v.toNumber

/-- `Uint8Array.from(values)` -/
def uint8ArrayFrom (xs : List Val) : Except Thrown Bytes :=
  xs.mapM fun x => do .ok (← x.toNumber).toUint8

/-- ToIndex, the conversion of a length; none for a RangeError. -/
def toIndex? : Number → Option Nat
  | .nan => some 0
  | .inf _ => none
  | .fin q =>
    let i : Int := if q < 0 then -(-q).floor else q.floor
    if 0 ≤ i ∧ i ≤ Number.maxSafeInteger then some i.toNat else none

/-- `new Uint8Array(v)`: a copy of what can be iterated or indexed, else zeros. -/
def newUint8Array (v : Val) : Except Thrown Bytes :=
  match v with
  | .undefined | .date _ => .ok []
  | .bytes bs => .ok bs
  | .arr xs => uint8ArrayFrom xs
  | .obj fs => do
    let length ← ((Val.obj fs).field "length").toNumber
    uint8ArrayFrom ((List.range ((toIndex? length).getD 0)).map fun i =>
      (Val.obj fs).field (toString i))
  | v => do
    match toIndex? (← v.toNumber) with
    | some n => .ok (List.replicate n 0)
    | none => .error (.rangeError "Invalid typed array length")

mutual
/-- What is left of a value once it is encoded, for an encoder that writes undefined
as it writes null. -/
def nullify : Val → Val
  | .undefined => .null
  | .arr xs => .arr (nullifyAll xs)
  | .obj fs => .obj (nullifyFields fs)
  | v => v

def nullifyAll : List Val → List Val
  | [] => []
  | x :: xs => nullify x :: nullifyAll xs

def nullifyFields : List (String × Val) → List (String × Val)
  | [] => []
  | (k,x) :: fs => (k,nullify x) :: nullifyFields fs
end

/-- The values are the same up to undefined and null. -/
def Same (v w : Val) : Prop := v.nullify = w.nullify

theorem get_nullifyFields (fs : List (String × Val)) (k : String) :
    JsMap.get (nullifyFields fs) k = (JsMap.get fs k).map nullify := by
  induction fs with
  | nil => rfl
  | cons e fs ih =>
    obtain ⟨k',x⟩ := e
    by_cases hk : k' = k
    · simp [nullifyFields,JsMap.get,hk]
    · simp [nullifyFields,JsMap.get,hk,ih]

theorem nullify_field_obj (fs : List (String × Val)) (k : String) :
    ((Val.obj fs).field k).nullify =
      ((JsMap.get (nullifyFields fs) k).getD .null) := by
  rw [get_nullifyFields]
  cases h : JsMap.get fs k with
  | none => simp [field,h,nullify]
  | some v => simp [field,h]

theorem Same.field {v w : Val} (h : v.Same w) (k : String) : (v.field k).Same (w.field k) := by
  unfold Same at h ⊢
  cases v with
  | obj fs =>
    cases w with
    | obj gs =>
      have hf : nullifyFields fs = nullifyFields gs := by simpa [nullify] using h
      rw [nullify_field_obj,nullify_field_obj,hf]
    | _ => simp [nullify] at h
  | _ =>
    cases w with
    | obj gs => simp [nullify] at h
    | _ => rfl

theorem truthy_nullify (v : Val) : v.nullify.truthy = v.truthy := by
  cases v with
  | _ => rfl

mutual
theorem toStringThrows_nullify : (v : Val) → v.nullify.toStringThrows = v.toStringThrows
  | .obj fs => by
    simp only [nullify,toStringThrows,JsMap.has,get_nullifyFields]
    cases JsMap.get fs "toString" <;> rfl
  | .arr xs => by simpa [nullify,toStringThrows] using anyToStringThrows_nullifyAll xs
  | .undefined | .null | .bool _ | .num _ | .bigint _ | .str _ | .bytes _ | .date _ => rfl

theorem anyToStringThrows_nullifyAll :
    (xs : List Val) → anyToStringThrows (nullifyAll xs) = anyToStringThrows xs
  | [] => rfl
  | x :: xs => by
    simp [nullifyAll,anyToStringThrows,toStringThrows_nullify x,anyToStringThrows_nullifyAll xs]
end

/-- What is written as null has a Number as undefined has. -/
theorem Same.eq_num {v : Val} {n : Number} (h : v.Same (.num n)) : v = .num n := by
  cases v with
  | num m => exact h
  | _ => cases h

theorem Same.toNumberThrows {v w : Val} (h : v.Same w) : v.toNumberThrows = w.toNumberThrows := by
  have hnullify : ∀ u : Val, u.nullify.toNumberThrows = u.toNumberThrows := by
    intro u
    cases u with
    | obj fs => exact toStringThrows_nullify (.obj fs)
    | arr xs => exact toStringThrows_nullify (.arr xs)
    | _ => rfl
  rw [← hnullify v,← hnullify w,h]

theorem throws_toNumber (v : Val) : throws v.toNumber = v.toNumberThrows := by
  cases v with
  | arr xs => cases h : anyToStringThrows xs <;> simp [toNumber,toNumberThrows,toStringThrows,h]
  | obj fs => cases h : JsMap.has fs "toString" <;> simp [toNumber,toNumberThrows,toStringThrows,h]
  | _ => rfl

end Val

end Js
