import AetherLite.Lib.JsValue

/-! The MessagePack format: what a value is written as, how long that is, and that it can
be read back. -/
set_option autoImplicit false

namespace MsgPack

open Js

/-- The first byte of a value, with the number that may follow it. -/
inductive Head where
  | nil
  | bool (b : Bool)
  | int (i : Int)
  | float
  | str (n : Nat)
  | bin (n : Nat)
  | arr (n : Nat)
  | map (n : Nat)

def packInt (i : Int) : Bytes :=
  let n := i.toNat
  if 0 ≤ i then
    if n < 0x80 then [UInt8.ofNat n]
    else if n < 0x100 then 0xcc :: Bytes.bigEndian 1 n
    else if n < 0x10000 then 0xcd :: Bytes.bigEndian 2 n
    else if n < 0x100000000 then 0xce :: Bytes.bigEndian 4 n
    else 0xcf :: Bytes.bigEndian 8 n
  else if -0x20 ≤ i then [UInt8.ofNat (0x100+i).toNat]
  else if -0x80 ≤ i then 0xd0 :: Bytes.bigEndian 1 (0x100+i).toNat
  else if -0x8000 ≤ i then 0xd1 :: Bytes.bigEndian 2 (0x10000+i).toNat
  else if -0x80000000 ≤ i then 0xd2 :: Bytes.bigEndian 4 (0x100000000+i).toNat
  else 0xd3 :: Bytes.bigEndian 8 (0x10000000000000000+i).toNat

def packHead : Head → Bytes
  | .nil => [0xc0]
  | .bool b => [if b then 0xc3 else 0xc2]
  | .int i => packInt i
  | .float => [0xcb]
  | .str n =>
    if n < 0x20 then [UInt8.ofNat (0xa0+n)]
    else if n < 0x100 then 0xd9 :: Bytes.bigEndian 1 n
    else if n < 0x10000 then 0xda :: Bytes.bigEndian 2 n
    else 0xdb :: Bytes.bigEndian 4 n
  | .bin n =>
    if n < 0x100 then 0xc4 :: Bytes.bigEndian 1 n
    else if n < 0x10000 then 0xc5 :: Bytes.bigEndian 2 n
    else 0xc6 :: Bytes.bigEndian 4 n
  | .arr n =>
    if n < 0x10 then [UInt8.ofNat (0x90+n)]
    else if n < 0x10000 then 0xdc :: Bytes.bigEndian 2 n
    else 0xdd :: Bytes.bigEndian 4 n
  | .map n =>
    if n < 0x10 then [UInt8.ofNat (0x80+n)]
    else if n < 0x10000 then 0xde :: Bytes.bigEndian 2 n
    else 0xdf :: Bytes.bigEndian 4 n

/-- The heads there are bytes for. -/
def Head.Fits : Head → Prop
  | .int i => -0x8000000000000000 ≤ i ∧ i < 0x10000000000000000
  | .str n | .bin n | .arr n | .map n => n < 0x100000000
  | _ => True

/-- A number of `w` bytes. -/
def takeNat (w : Nat) (bs : Bytes) : Option (Nat × Bytes) :=
  if bs.length < w then none else some (Bytes.toNat (bs.take w),bs.drop w)

/-- A number of `w` bytes in two's complement. -/
def takeInt (w : Nat) (bs : Bytes) : Option (Int × Bytes) :=
  (takeNat w bs).map fun r => (if r.1 < 256^w/2 then (r.1 : Int) else r.1-256^w,r.2)

def unpackHead : Bytes → Option (Head × Bytes)
  | [] => none
  | b :: bs =>
    let t := b.toNat
    if t < 0x80 then some (.int t,bs)
    else if t < 0x90 then some (.map (t-0x80),bs)
    else if t < 0xa0 then some (.arr (t-0x90),bs)
    else if t < 0xc0 then some (.str (t-0xa0),bs)
    else if t < 0xe0 then
      match t-0xc0 with
      | 0x00 => some (.nil,bs)
      | 0x02 => some (.bool false,bs)
      | 0x03 => some (.bool true,bs)
      | 0x04 => (takeNat 1 bs).map fun r => (.bin r.1,r.2)
      | 0x05 => (takeNat 2 bs).map fun r => (.bin r.1,r.2)
      | 0x06 => (takeNat 4 bs).map fun r => (.bin r.1,r.2)
      | 0x0b => some (.float,bs)
      | 0x0c => (takeNat 1 bs).map fun r => (.int r.1,r.2)
      | 0x0d => (takeNat 2 bs).map fun r => (.int r.1,r.2)
      | 0x0e => (takeNat 4 bs).map fun r => (.int r.1,r.2)
      | 0x0f => (takeNat 8 bs).map fun r => (.int r.1,r.2)
      | 0x10 => (takeInt 1 bs).map fun r => (.int r.1,r.2)
      | 0x11 => (takeInt 2 bs).map fun r => (.int r.1,r.2)
      | 0x12 => (takeInt 4 bs).map fun r => (.int r.1,r.2)
      | 0x13 => (takeInt 8 bs).map fun r => (.int r.1,r.2)
      | 0x19 => (takeNat 1 bs).map fun r => (.str r.1,r.2)
      | 0x1a => (takeNat 2 bs).map fun r => (.str r.1,r.2)
      | 0x1b => (takeNat 4 bs).map fun r => (.str r.1,r.2)
      | 0x1c => (takeNat 2 bs).map fun r => (.arr r.1,r.2)
      | 0x1d => (takeNat 4 bs).map fun r => (.arr r.1,r.2)
      | 0x1e => (takeNat 2 bs).map fun r => (.map r.1,r.2)
      | 0x1f => (takeNat 4 bs).map fun r => (.map r.1,r.2)
      | _ => none
    else some (.int ((t : Int)-0x100),bs)

theorem takeNat_bigEndian {w n : Nat} (h : n < 256^w) (bs : Bytes) :
    takeNat w (Bytes.bigEndian w n ++ bs) = some (n,bs) := by
  have hlen : ¬(Bytes.bigEndian w n ++ bs).length < w := by simp
  rw [takeNat,if_neg hlen,List.take_left' (by simp),List.drop_left' (by simp),
    Bytes.toNat_bigEndian h]

/-- A negative number is its complement. -/
theorem takeInt_bigEndian {w : Nat} {i : Int} (h0 : i < 0) (h : -(256^w : Int) ≤ 2*i)
    (bs : Bytes) : takeInt w (Bytes.bigEndian w ((256 : Int)^w+i).toNat ++ bs) = some (i,bs) := by
  have hn : ((((256 : Int)^w+i).toNat : Nat) : Int) = 256^w+i := Int.toNat_of_nonneg (by omega)
  have hpow : ((256^w : Nat) : Int) = 256^w := by norm_num
  have hlt : ((256 : Int)^w+i).toNat < 256^w := by omega
  have hhalf : ¬((256 : Int)^w+i).toNat < 256^w/2 := by omega
  rw [takeInt,takeNat_bigEndian hlt,Option.map_some,if_neg hhalf,hn]
  simp

theorem toNat_ofNat {n : Nat} (h : n < 256) : (UInt8.ofNat n).toNat = n := by
  simp
  omega

theorem unpackHead_packInt {i : Int} (h : (Head.int i).Fits) (bs : Bytes) :
    unpackHead (packInt i ++ bs) = some (.int i,bs) := by
  obtain ⟨hlo,hhi⟩ := h
  unfold packInt
  dsimp only
  by_cases h0 : 0 ≤ i
  · have hi : ((i.toNat : Nat) : Int) = i := Int.toNat_of_nonneg h0
    rw [if_pos h0]
    split
    · next hn =>
      have hb := toNat_ofNat (n := i.toNat) (by omega)
      simp only [List.cons_append,List.nil_append,unpackHead,hb,if_pos hn,hi]
    split
    · next hn => simp [unpackHead,takeNat_bigEndian (show i.toNat < 256^1 by omega),hi]
    split
    · next hn => simp [unpackHead,takeNat_bigEndian (show i.toNat < 256^2 by omega),hi]
    split
    · next hn => simp [unpackHead,takeNat_bigEndian (show i.toNat < 256^4 by omega),hi]
    · simp [unpackHead,takeNat_bigEndian (show i.toNat < 256^8 by omega),hi]
  · rw [if_neg h0]
    split
    · next hn =>
      have hb := toNat_ofNat (n := (0x100+i).toNat) (by omega)
      have hc : (((0x100+i).toNat : Nat) : Int)-0x100 = i := by omega
      simp only [List.cons_append,List.nil_append,unpackHead,hb]
      rw [if_neg (by omega),if_neg (by omega),if_neg (by omega),if_neg (by omega),
        if_neg (by omega),hc]
    split
    · next hn =>
      have hr : takeInt 1 (Bytes.bigEndian 1 (256+i).toNat ++ bs) = some (i,bs) := by
        simpa using takeInt_bigEndian (w := 1) (i := i) (by omega) (by omega) bs
      simp [unpackHead,hr]
    split
    · next hn =>
      have hr : takeInt 2 (Bytes.bigEndian 2 (65536+i).toNat ++ bs) = some (i,bs) := by
        simpa using takeInt_bigEndian (w := 2) (i := i) (by omega) (by omega) bs
      simp [unpackHead,hr]
    split
    · next hn =>
      have hr : takeInt 4 (Bytes.bigEndian 4 (4294967296+i).toNat ++ bs) = some (i,bs) := by
        simpa using takeInt_bigEndian (w := 4) (i := i) (by omega) (by omega) bs
      simp [unpackHead,hr]
    · have hr : takeInt 8 (Bytes.bigEndian 8 (18446744073709551616+i).toNat ++ bs) =
          some (i,bs) := by
        simpa using takeInt_bigEndian (w := 8) (i := i) (by omega) (by omega) bs
      simp [unpackHead,hr]

/-- A head is read back, whatever follows it. -/
theorem unpackHead_packHead {h : Head} (hf : h.Fits) (bs : Bytes) :
    unpackHead (packHead h ++ bs) = some (h,bs) := by
  cases h with
  | nil => simp [packHead,unpackHead]
  | bool b => cases b <;> simp [packHead,unpackHead]
  | int i => exact unpackHead_packInt hf bs
  | float => simp [packHead,unpackHead]
  | str n =>
    have hn : n < 0x100000000 := hf
    simp only [packHead]
    split
    · next hs =>
      simp only [List.cons_append,List.nil_append,unpackHead,toNat_ofNat
        (show 0xa0+n < 256 by omega)]
      rw [if_neg (by omega),if_neg (by omega),if_neg (by omega),if_pos (by omega),
        Nat.add_sub_cancel_left]
    split
    · next hs => simp [unpackHead,takeNat_bigEndian (show n < 256^1 by omega)]
    split
    · next hs => simp [unpackHead,takeNat_bigEndian (show n < 256^2 by omega)]
    · simp [unpackHead,takeNat_bigEndian (show n < 256^4 by omega)]
  | bin n =>
    have hn : n < 0x100000000 := hf
    simp only [packHead]
    split
    · next hs => simp [unpackHead,takeNat_bigEndian (show n < 256^1 by omega)]
    split
    · next hs => simp [unpackHead,takeNat_bigEndian (show n < 256^2 by omega)]
    · simp [unpackHead,takeNat_bigEndian (show n < 256^4 by omega)]
  | arr n =>
    have hn : n < 0x100000000 := hf
    simp only [packHead]
    split
    · next hs =>
      simp only [List.cons_append,List.nil_append,unpackHead,toNat_ofNat
        (show 0x90+n < 256 by omega)]
      rw [if_neg (by omega),if_neg (by omega),if_pos (by omega),Nat.add_sub_cancel_left]
    split
    · next hs => simp [unpackHead,takeNat_bigEndian (show n < 256^2 by omega)]
    · simp [unpackHead,takeNat_bigEndian (show n < 256^4 by omega)]
  | map n =>
    have hn : n < 0x100000000 := hf
    simp only [packHead]
    split
    · next hs =>
      simp only [List.cons_append,List.nil_append,unpackHead,toNat_ofNat
        (show 0x80+n < 256 by omega)]
      rw [if_neg (by omega),if_pos (by omega),Nat.add_sub_cancel_left]
    split
    · next hs => simp [unpackHead,takeNat_bigEndian (show n < 256^2 by omega)]
    · simp [unpackHead,takeNat_bigEndian (show n < 256^4 by omega)]

theorem packHead_ne_nil (h : Head) : packHead h ≠ [] := by
  cases h with
  | int i =>
    simp only [packHead,packInt]
    split_ifs <;> simp
  | nil | bool | float => simp [packHead]
  | str | bin | arr | map =>
    simp only [packHead]
    split_ifs <;> simp

/-- The binary format of a Number that is no integer of 53 bits. -/
structure Float64 where
  bytes : Number → Bytes
  value : Bytes → Number
  length : ∀ n, (bytes n).length = 8

theorem zeros_length (_ : Number) : (List.replicate 8 (0 : UInt8)).length = 8 := rfl

section Values
variable (f : Float64)

mutual
/-- What a value is written as; undefined as null. A BigInt and a Date are not written. -/
def pack : Val → Bytes
  | .undefined | .null => packHead .nil
  | .bool b => packHead (.bool b)
  | .num n =>
    match n.toSafeInt? with
    | some i => packHead (.int i)
    | none => packHead .float ++ f.bytes n
  | .str s => packHead (.str (Bytes.utf8 s).length) ++ Bytes.utf8 s
  | .bytes bs => packHead (.bin bs.length) ++ bs
  | .arr xs => packHead (.arr xs.length) ++ packAll xs
  | .obj fs => packHead (.map fs.length) ++ packFields fs
  | .bigint _ | .date _ => []

def packAll : List Val → Bytes
  | [] => []
  | x :: xs => pack x ++ packAll xs

def packFields : List (String × Val) → Bytes
  | [] => []
  | (k,x) :: fs => pack (.str k) ++ pack x ++ packFields fs
end

mutual
/-- Whether a value can be written, at a depth of at most `d` values in one another. -/
def packable (d : Nat) : Val → Bool
  | .str s => 0 < d && decide ((Bytes.utf8 s).length < 0x100000000)
  | .bytes bs => 0 < d && decide (bs.length < 0x100000000)
  | .arr xs => 0 < d && decide (xs.length < 0x100000000) && packableAll (d-1) xs
  | .obj fs => 0 < d && decide (fs.length < 0x100000000) && packableFields (d-1) fs
  | .bigint _ | .date _ => false
  | _ => 0 < d

def packableAll (d : Nat) : List Val → Bool
  | [] => true
  | x :: xs => packable d x && packableAll d xs

def packableFields (d : Nat) : List (String × Val) → Bool
  | [] => true
  | (k,x) :: fs => decide ((Bytes.utf8 k).length < 0x100000000) && packable d x &&
      packableFields d fs
end

def maxDepth : Nat := 100

/-- `encode`; none when it throws. -/
def encode (v : Val) : Option Bytes := if packable maxDepth v then some (pack f v) else none

mutual
/-- Reads what `pack` writes. -/
def unpackValue : Nat → Bytes → Option (Val × Bytes)
  | 0, _ => none
  | fuel+1, bs => do
    let (head,bs) ← unpackHead bs
    match head with
    | .nil => some (.null,bs)
    | .bool b => some (.bool b,bs)
    | .int i => some (.num (Number.ofInt i),bs)
    | .float => if bs.length < 8 then none else some (.num (f.value (bs.take 8)),bs.drop 8)
    | .str n =>
      if bs.length < n then none
      else (String.fromUTF8? ⟨(bs.take n).toArray⟩).map fun s => (.str s,bs.drop n)
    | .bin n => if bs.length < n then none else some (.bytes (bs.take n),bs.drop n)
    | .arr n => (unpackItems fuel n bs).map fun r => (.arr r.1,r.2)
    | .map n => (unpackFields fuel n bs).map fun r => (.obj r.1,r.2)

def unpackItems : Nat → Nat → Bytes → Option (List Val × Bytes)
  | _, 0, bs => some ([],bs)
  | 0, _+1, _ => none
  | fuel+1, n+1, bs => do
    let (x,bs) ← unpackValue fuel bs
    let (xs,bs) ← unpackItems fuel n bs
    some (x :: xs,bs)

def unpackFields : Nat → Nat → Bytes → Option (List (String × Val) × Bytes)
  | _, 0, bs => some ([],bs)
  | 0, _+1, _ => none
  | fuel+1, n+1, bs => do
    let (k,bs) ← unpackValue fuel bs
    match k with
    | .str key =>
      let (x,bs) ← unpackValue fuel bs
      let (fs,bs) ← unpackFields fuel n bs
      some ((key,x) :: fs,bs)
    | _ => none
end

/-- `decode`, which refuses what follows the value. -/
def decode (bs : Bytes) : Option Val :=
  match unpackValue f (2*bs.length) bs with
  | some (v,[]) => some v
  | _ => none

mutual
/-- What is read back as it was: no key twice, none that a decoder refuses, and every
Number in the format. -/
def Portable : Val → Prop
  | .num n => n.toSafeInt? = none → f.value (f.bytes n) = n
  | .arr xs => PortableAll xs
  | .obj fs => (JsMap.keys fs).Nodup ∧ "__proto__" ∉ JsMap.keys fs ∧ PortableFields fs
  | _ => True

def PortableAll : List Val → Prop
  | [] => True
  | x :: xs => Portable x ∧ PortableAll xs

def PortableFields : List (String × Val) → Prop
  | [] => True
  | (_,x) :: fs => Portable x ∧ PortableFields fs
end

variable {f}

theorem packHead_length_pos (h : Head) : 0 < (packHead h).length :=
  List.length_pos_iff.mpr (packHead_ne_nil h)

theorem safeInt_fits {n : Number} {i : Int} (h : n.toSafeInt? = some i) : (Head.int i).Fits := by
  have hi := (Number.toSafeInt?_eq_some h).2
  have habs : |i| ≤ 9007199254740991 := hi
  rw [abs_le] at habs
  constructor <;> omega

theorem unpackValue_head (h : Head) (fuel : Nat) (bs : Bytes) :
    h.Fits → unpackValue f (fuel+1) (packHead h ++ bs) =
      match h with
      | .nil => some (.null,bs)
      | .bool b => some (.bool b,bs)
      | .int i => some (.num (Number.ofInt i),bs)
      | .float => if bs.length < 8 then none else some (.num (f.value (bs.take 8)),bs.drop 8)
      | .str n =>
        if bs.length < n then none
        else (String.fromUTF8? ⟨(bs.take n).toArray⟩).map fun s => (.str s,bs.drop n)
      | .bin n => if bs.length < n then none else some (.bytes (bs.take n),bs.drop n)
      | .arr n => (unpackItems f fuel n bs).map fun r => (.arr r.1,r.2)
      | .map n => (unpackFields f fuel n bs).map fun r => (.obj r.1,r.2) := by
  intro hf
  rw [unpackValue,unpackHead_packHead hf]
  cases h <;> rfl

theorem fromUTF8_utf8 (s : String) : String.fromUTF8? ⟨(Bytes.utf8 s).toArray⟩ = some s := by
  have harr : (⟨(Bytes.utf8 s).toArray⟩ : ByteArray) = s.toUTF8 := by simp [Bytes.utf8]
  have hvalid : (String.toUTF8 s).IsValidUTF8 := s.isValidUTF8
  rw [harr,String.fromUTF8?,dif_pos hvalid]
  rfl

theorem unpackValue_str {s : String} (hs : (Bytes.utf8 s).length < 0x100000000) (fuel : Nat)
    (bs : Bytes) : unpackValue f (fuel+1) (pack f (.str s) ++ bs) = some (.str s,bs) := by
  rw [pack,List.append_assoc,unpackValue_head (.str _) _ _ hs]
  simp [fromUTF8_utf8]

theorem pack_length_pos {d : Nat} {v : Val} (hp : packable d v = true) :
    0 < (pack f v).length := by
  cases v with
  | bigint | date => simp [packable] at hp
  | num n =>
    unfold pack
    split <;> simp [packHead_length_pos]
  | undefined | null | bool => simp [pack,packHead_length_pos]
  | str | bytes | arr | obj => simp [pack,packHead_length_pos]

mutual
theorem unpackValue_pack {d fuel : Nat} (v : Val) (hp : packable d v = true) (hv : Portable f v)
    (hfuel : 2*(pack f v).length ≤ fuel) (bs : Bytes) :
    unpackValue f fuel (pack f v ++ bs) = some (v.nullify,bs) := by
  have hpos := pack_length_pos (f := f) hp
  obtain ⟨fuel,rfl⟩ : ∃ n, fuel = n+1 := ⟨fuel-1,by omega⟩
  match v with
  | .bigint _ | .date _ => simp [packable] at hp
  | .undefined | .null =>
    rw [pack,unpackValue_head .nil fuel bs trivial]
    simp [Val.nullify]
  | .bool b =>
    rw [pack,unpackValue_head (.bool b) fuel bs trivial]
    simp [Val.nullify]
  | .num n =>
    cases hn : n.toSafeInt? with
    | some i =>
      rw [pack,hn]
      dsimp only
      rw [unpackValue_head (.int i) fuel bs (safeInt_fits hn)]
      simp [Val.nullify,(Number.toSafeInt?_eq_some hn).1]
    | none =>
      have hcarried : f.value (f.bytes n) = n := by
        simp only [Portable] at hv
        exact hv hn
      rw [pack,hn]
      dsimp only
      rw [List.append_assoc,unpackValue_head .float _ _ trivial]
      simp [f.length,hcarried,Val.nullify]
  | .str s =>
    simp only [packable,Bool.and_eq_true,decide_eq_true_eq] at hp
    exact unpackValue_str hp.2 fuel bs
  | .bytes b =>
    simp only [packable,Bool.and_eq_true,decide_eq_true_eq] at hp
    rw [pack,List.append_assoc,unpackValue_head (.bin b.length) _ _ hp.2]
    simp [Val.nullify]
  | .arr xs =>
    simp only [packable,Bool.and_eq_true,decide_eq_true_eq] at hp
    simp only [Portable] at hv
    have hlen := packHead_length_pos (.arr xs.length)
    rw [pack,List.length_append] at hfuel
    have hxs := unpackItems_packAll xs hp.2 hv
      (show 2*(packAll f xs).length+1 ≤ fuel by omega) bs
    rw [pack,List.append_assoc,unpackValue_head (.arr xs.length) _ _ hp.1.2]
    simp [hxs,Val.nullify]
  | .obj fs =>
    simp only [packable,Bool.and_eq_true,decide_eq_true_eq] at hp
    simp only [Portable] at hv
    have hlen := packHead_length_pos (.map fs.length)
    rw [pack,List.length_append] at hfuel
    have hfs := unpackFields_packFields fs hp.2 hv.2.2
      (show 2*(packFields f fs).length+1 ≤ fuel by omega) bs
    rw [pack,List.append_assoc,unpackValue_head (.map fs.length) _ _ hp.1.2]
    simp [hfs,Val.nullify]

theorem unpackItems_packAll {d fuel : Nat} (xs : List Val) (hp : packableAll d xs = true)
    (hv : PortableAll f xs) (hfuel : 2*(packAll f xs).length+1 ≤ fuel) (bs : Bytes) :
    unpackItems f fuel xs.length (packAll f xs ++ bs) = some (Val.nullifyAll xs,bs) := by
  match xs with
  | [] => simp [unpackItems,packAll,Val.nullifyAll]
  | x :: xs =>
    simp only [packableAll,Bool.and_eq_true] at hp
    simp only [PortableAll] at hv
    obtain ⟨fuel,rfl⟩ : ∃ n, fuel = n+1 := ⟨fuel-1,by omega⟩
    have hpos := pack_length_pos (f := f) hp.1
    simp only [packAll,List.length_append] at hfuel
    have hx := unpackValue_pack x hp.1 hv.1 (show 2*(pack f x).length ≤ fuel by omega)
      (packAll f xs ++ bs)
    have hxs := unpackItems_packAll xs hp.2 hv.2
      (show 2*(packAll f xs).length+1 ≤ fuel by omega) bs
    rw [packAll,List.append_assoc,List.length_cons,unpackItems,hx]
    simp [hxs,Val.nullifyAll]

theorem unpackFields_packFields {d fuel : Nat} (fs : List (String × Val))
    (hp : packableFields d fs = true) (hv : PortableFields f fs)
    (hfuel : 2*(packFields f fs).length+1 ≤ fuel) (bs : Bytes) :
    unpackFields f fuel fs.length (packFields f fs ++ bs) = some (Val.nullifyFields fs,bs) := by
  match fs with
  | [] => simp [unpackFields,packFields,Val.nullifyFields]
  | (k,x) :: fs =>
    simp only [packableFields,Bool.and_eq_true,decide_eq_true_eq] at hp
    simp only [PortableFields] at hv
    obtain ⟨⟨hk,hpx⟩,hpfs⟩ := hp
    obtain ⟨fuel,rfl⟩ : ∃ n, fuel = n+1 := ⟨fuel-1,by omega⟩
    have hpos := pack_length_pos (f := f) hpx
    simp only [packFields,List.length_append] at hfuel
    obtain ⟨fuel,rfl⟩ : ∃ n, fuel = n+1 := ⟨fuel-1,by omega⟩
    have hx := unpackValue_pack x hpx hv.1 (show 2*(pack f x).length ≤ fuel+1 by omega)
      (packFields f fs ++ bs)
    have hfs := unpackFields_packFields fs hpfs hv.2
      (show 2*(packFields f fs).length+1 ≤ fuel+1 by omega) bs
    rw [packFields,List.append_assoc,List.append_assoc,List.length_cons,unpackFields,
      unpackValue_str hk]
    simp [hx,hfs,Val.nullifyFields]
end

/-- What is written is read back, undefined as null. -/
theorem decode_encode {v : Val} {bs : Bytes} (h : encode f v = some bs) (hv : Portable f v) :
    decode f bs = some v.nullify := by
  simp only [encode,Option.ite_none_right_eq_some,Option.some.injEq] at h
  obtain ⟨hp,rfl⟩ := h
  have hread := unpackValue_pack v hp hv le_rfl []
  rw [List.append_nil] at hread
  rw [decode,hread]

def headSize (h : Head) : Nat := (packHead h).length

/-- A Date is written as a timestamp of four, eight or twelve bytes. -/
def dateSize : Number → Nat
  | .fin q =>
    let sec := q.floor/1000
    if 0 ≤ sec ∧ sec < 0x100000000 ∧ q.floor % 1000 = 0 then 6
    else if 0 ≤ sec ∧ sec < 0x400000000 then 10
    else 15
  | _ => 15

mutual
/-- How many bytes a value is written as. -/
def size : Val → Nat
  | .undefined | .null | .bool _ => 1
  | .num n =>
    match n.toSafeInt? with
    | some i => headSize (.int i)
    | none => 9
  | .str s => headSize (.str (Bytes.utf8 s).length)+(Bytes.utf8 s).length
  | .bytes bs => headSize (.bin bs.length)+bs.length
  | .arr xs => headSize (.arr xs.length)+sizeAll xs
  | .obj fs => headSize (.map fs.length)+sizeFields fs
  | .date n => dateSize n
  | .bigint _ => 0

def sizeAll : List Val → Nat
  | [] => 0
  | x :: xs => size x+sizeAll xs

def sizeFields : List (String × Val) → Nat
  | [] => 0
  | (k,x) :: fs => size (.str k)+size x+sizeFields fs
end

theorem size_str (s : String) :
    size (.str s) = headSize (.str (Bytes.utf8 s).length)+(Bytes.utf8 s).length := by
  simp only [size]

mutual
theorem length_pack {d : Nat} (v : Val) (hp : packable d v = true) :
    (pack f v).length = size v := by
  match v with
  | .undefined | .null | .bool _ => simp [pack,packHead,size]
  | .num n =>
    simp only [pack,size]
    cases n.toSafeInt? with
    | some i => rfl
    | none => simp [packHead,f.length]
  | .str s => simp [pack,size,headSize]
  | .bytes bs => simp [pack,size,headSize]
  | .bigint _ | .date _ => simp [packable] at hp
  | .arr xs =>
    simp only [packable,Bool.and_eq_true] at hp
    have hxs := length_packAll xs hp.2
    simp [pack,size,headSize,hxs]
  | .obj fs =>
    simp only [packable,Bool.and_eq_true] at hp
    have hfs := length_packFields fs hp.2
    simp [pack,size,headSize,hfs]

theorem length_packAll {d : Nat} (xs : List Val) (hp : packableAll d xs = true) :
    (packAll f xs).length = sizeAll xs := by
  match xs with
  | [] => simp [packAll,sizeAll]
  | x :: xs =>
    simp only [packableAll,Bool.and_eq_true] at hp
    have hx := length_pack x hp.1
    have hxs := length_packAll xs hp.2
    simp [packAll,sizeAll,hx,hxs]

theorem length_packFields {d : Nat} (fs : List (String × Val))
    (hp : packableFields d fs = true) : (packFields f fs).length = sizeFields fs := by
  match fs with
  | [] => simp [packFields,sizeFields]
  | (k,x) :: fs =>
    simp only [packableFields,Bool.and_eq_true] at hp
    have hx := length_pack x hp.1.2
    have hfs := length_packFields fs hp.2
    simp [packFields,sizeFields,pack,size_str,headSize,hx,hfs]
    omega
end

theorem length_encode {v : Val} {bs : Bytes} (h : encode f v = some bs) : bs.length = size v := by
  simp only [encode,Option.ite_none_right_eq_some,Option.some.injEq] at h
  obtain ⟨hp,rfl⟩ := h
  exact length_pack v hp

theorem headSize_int_le (i : Int) : headSize (.int i) ≤ 9 := by
  unfold headSize packHead packInt
  dsimp only
  split_ifs <;> simp

theorem size_num_le (n : Number) : size (.num n) ≤ 9 := by
  simp only [size]
  cases n.toSafeInt? with
  | some i => exact headSize_int_le i
  | none => exact le_rfl

theorem sizeFields_append (fs gs : List (String × Val)) :
    sizeFields (fs ++ gs) = sizeFields fs+sizeFields gs := by
  induction fs with
  | nil => simp [sizeFields]
  | cons e fs ih =>
    obtain ⟨k,x⟩ := e
    simp only [List.cons_append,sizeFields,ih]
    omega

theorem sizeFields_eq (fs : List (String × Val)) : sizeFields fs =
    ((fs.map Prod.fst).map fun k => size (.str k)).sum+((fs.map Prod.snd).map size).sum := by
  induction fs with
  | nil => simp [sizeFields]
  | cons e fs ih =>
    obtain ⟨k,x⟩ := e
    simp only [sizeFields,ih,List.map_cons,List.sum_cons]
    omega

/-- The keys of an object apart from its values. -/
theorem size_obj {keys : List String} {n : Nat}
    (hn : (keys.map fun k => size (.str k)).sum = n) {fs : List (String × Val)}
    (hk : fs.map Prod.fst = keys) :
    size (.obj fs) = headSize (.map fs.length)+n+((fs.map Prod.snd).map size).sum := by
  rw [size,sizeFields_eq,hk,hn,Nat.add_assoc]

theorem headSize_str_le (n : Nat) : headSize (.str n) ≤ 5 := by
  simp only [headSize,packHead]
  split_ifs <;> simp

theorem headSize_bin_le (n : Nat) : headSize (.bin n) ≤ 5 := by
  simp only [headSize,packHead]
  split_ifs <;> simp

theorem size_bytes (bs : Bytes) : size (.bytes bs) = headSize (.bin bs.length)+bs.length := by
  simp only [size]

theorem sizeAll_append (xs ys : List Val) : sizeAll (xs ++ ys) = sizeAll xs+sizeAll ys := by
  induction xs with
  | nil => simp [sizeAll]
  | cons x xs ih =>
    simp only [List.cons_append,sizeAll,ih]
    omega

theorem headSize_pos (h : Head) : 0 < headSize h := packHead_length_pos h

/-- Values that are small enough can be packed, if their parts can. -/
theorem packableAll_of_size {d : Nat} {xs : List Val}
    (hx : ∀ x ∈ xs, 0 < size x ∧ (size x < 0x100000000 → packable d x = true))
    (h : sizeAll xs < 0x100000000) : packableAll d xs = true ∧ xs.length ≤ sizeAll xs := by
  induction xs with
  | nil => simp [packableAll]
  | cons x xs ih =>
    obtain ⟨hpos,hpack⟩ := hx x List.mem_cons_self
    simp only [sizeAll] at h
    obtain ⟨hall,hlen⟩ := ih (fun y hy => hx y (List.mem_cons_of_mem x hy)) (by omega)
    simp only [packableAll,hpack (by omega),hall,sizeAll,List.length_cons]
    exact ⟨rfl,by omega⟩

theorem packable_arr {d : Nat} {xs : List Val}
    (hx : ∀ x ∈ xs, 0 < size x ∧ (size x < 0x100000000 → packable d x = true)) :
    0 < size (.arr xs) ∧ (size (.arr xs) < 0x100000000 → packable (d+1) (.arr xs) = true) := by
  have hhead := headSize_pos (.arr xs.length)
  simp only [size]
  refine ⟨by omega,?_⟩
  intro h
  obtain ⟨hall,hlen⟩ := packableAll_of_size hx (by omega)
  have hcount : xs.length < 0x100000000 := by omega
  simp [packable,hcount,hall]

theorem packable_str {d : Nat} (s : String) :
    0 < size (.str s) ∧ (size (.str s) < 0x100000000 → packable (d+1) (.str s) = true) := by
  have hhead := headSize_pos (.str (Bytes.utf8 s).length)
  rw [size_str]
  refine ⟨by omega,?_⟩
  intro h
  have hlen : (Bytes.utf8 s).length < 0x100000000 := by omega
  simp [packable,hlen]

theorem packable_bytes {d : Nat} (bs : Bytes) :
    0 < size (.bytes bs) ∧ (size (.bytes bs) < 0x100000000 → packable (d+1) (.bytes bs) = true) := by
  have hhead := headSize_pos (.bin bs.length)
  rw [size_bytes]
  refine ⟨by omega,?_⟩
  intro h
  have hlen : bs.length < 0x100000000 := by omega
  simp [packable,hlen]

theorem packable_num {d : Nat} (n : Number) :
    0 < size (.num n) ∧ (size (.num n) < 0x100000000 → packable (d+1) (.num n) = true) := by
  refine ⟨?_,by simp [packable]⟩
  simp only [size]
  split
  · exact headSize_pos _
  · omega

end Values

end MsgPack
