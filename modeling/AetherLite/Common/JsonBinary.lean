import AetherLite.Lib.JsonText

/-! The JSON encoding of byte strings and BigInts. -/
set_option autoImplicit false

namespace JsonBinary

open Js

/-- The upper bound on one Uint8Array. -/
def maxBytes : Nat := 2^20

/-- `/^-?\d{1,80}$/` -/
def isBigIntText (cs : List Char) : Bool :=
  let ds := (JsonText.takeMinus cs).2
  1 ≤ ds.length && ds.length ≤ 80 && ds.all Char.isDigit

/-- `BigInt(s)` on a text that `isBigIntText` accepts. -/
def bigIntOf (cs : List Char) : Int :=
  let n : Int := (digitsValue 10 (JsonText.takeMinus cs).2).getD 0
  if (JsonText.takeMinus cs).1 then -n else n

/-- An integral Number from 0 to 255. -/
def byteOf : Val → Option UInt8
  | .num n => n.toInt?.bind fun i => if 0 ≤ i ∧ i ≤ 255 then some (UInt8.ofNat i.toNat) else none
  | _ => none

/-- What the reviver does with a value tagged as bytes. -/
def reviveBytes (data : Val) : Except Thrown Val :=
  match data with
  | .arr xs =>
    if xs.length > maxBytes then .error (.typeError "JsonBinary: invalid Uint8Array")
    else match xs.mapM byteOf with
      | some bs => .ok (.bytes bs)
      | none => .error (.typeError "JsonBinary: invalid byte")
  | _ => .error (.typeError "JsonBinary: invalid Uint8Array")

def reviveBigInt (value : Val) : Except Thrown Val :=
  match value with
  | .str s =>
    if isBigIntText s.toList then .ok (.bigint (bigIntOf s.toList))
    else .error (.typeError "JsonBinary: invalid BigInt")
  | _ => .error (.typeError "JsonBinary: invalid BigInt")

def reviver (value : Val) : Except Thrown Val :=
  if (value.field "_type").strictEq (.str "BigInt") then reviveBigInt (value.field "value")
  else if (value.field "_type").strictEq (.str "Uint8Array") then reviveBytes (value.field "data")
  else .ok value

/-- `JsonBinary.parse(new TextDecoder().decode(bytes))` -/
def parse (bs : Bytes) : Except Thrown Val := JsonText.parseBytes reviver bs

end JsonBinary
