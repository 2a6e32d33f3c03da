import AetherLite.Common.JsonBinary
import AetherLite.Lib.JsonWriter

/-! What the JSON encoding of byte strings and BigInts writes is parsed as it was. -/
set_option autoImplicit false

namespace JsonBinary

open Js JsonText

def replacer : Val → Val
  | .bigint i => .obj [("_type",.str "BigInt"),("value",.str (String.ofList (intText i)))]
  | .bytes bs => .obj [("_type",.str "Uint8Array"),
      ("data",.arr (bs.map fun b => .num (Number.ofNat b.toNat)))]
  | v => v

mutual
/-- The replacer is called on a value and then on its parts. What it puts in place of a value has
no part that it replaces. -/
def replace : Val → Val
  | .arr xs => .arr (replaceAll xs)
  | .obj fs => .obj (replaceFields fs)
  | v => replacer v

def replaceAll : List Val → List Val
  | [] => []
  | x :: xs => replace x :: replaceAll xs

def replaceFields : List (String × Val) → List (String × Val)
  | [] => []
  | (k,x) :: fs => (k,replace x) :: replaceFields fs
end

section
variable (decimalText : Number → List Char)

/-- `JsonBinary.stringify`, for a value without dates. -/
def stringify (v : Val) : Option String := JsonText.stringify decimalText (replace v)

mutual
/-- What comes back: byte strings and BigInts of the sizes that the reviver takes, and no object
that it would take for one of them. -/
def Portable : Val → Prop
  | .num n => Writable decimalText (.num n)
  | .bigint i => i.natAbs < 10^80
  | .bytes bs => bs.length ≤ maxBytes
  | .arr xs => PortableAll xs
  | .obj fs => (JsMap.keys fs).Nodup ∧ ("_type",.str "BigInt") ∉ fs ∧
      ("_type",.str "Uint8Array") ∉ fs ∧ PortableFields fs
  | .date _ => False
  | _ => True

def PortableAll : List Val → Prop
  | [] => True
  | x :: xs => Portable x ∧ PortableAll xs

def PortableFields : List (String × Val) → Prop
  | [] => True
  | (_,x) :: fs => Portable x ∧ PortableFields fs
end

end

section
variable {decimalText : Number → List Char}

theorem keys_replaceFields (fs : List (String × Val)) :
    JsMap.keys (replaceFields fs) = JsMap.keys fs := by
  induction fs with
  | nil => rfl
  | cons f fs ih =>
    obtain ⟨k,x⟩ := f
    simp only [replaceFields,JsMap.keys,List.map_cons] at ih ⊢
    rw [ih]

theorem writable_byte (b : UInt8) : Writable decimalText (.num (Number.ofNat b.toNat)) := by
  simp only [Writable]
  intro h
  have hb := b.toNat_lt
  rw [Number.toSafeInt?_ofNat,if_pos (by omega)] at h
  cases h

theorem writableAll_bytes (bs : Bytes) :
    WritableAll decimalText (bs.map fun b => .num (Number.ofNat b.toNat)) := by
  induction bs with
  | nil => trivial
  | cons b bs ih => exact ⟨writable_byte b,ih⟩

theorem cleanAll_bytes (bs : Bytes) :
    cleanAll (bs.map fun b => .num (Number.ofNat b.toNat)) =
      bs.map fun b => .num (Number.ofNat b.toNat) := by
  induction bs with
  | nil => rfl
  | cons b bs ih =>
    rw [List.map_cons,cleanAll,ih]
    rfl

mutual
theorem writable_replace (v : Val) (h : Portable decimalText v) :
    Writable decimalText (replace v) := by
  match v with
  | .undefined | .null | .bool _ | .str _ => trivial
  | .num n => exact h
  | .bigint i => simp [replace,replacer,Writable,WritableFields,JsMap.keys]
  | .bytes bs =>
    simp [replace,replacer,Writable,WritableFields,JsMap.keys,writableAll_bytes]
  | .date _ => simp only [Portable] at h
  | .arr xs =>
    simp only [Portable] at h
    exact writableAll_replaceAll xs h
  | .obj fs =>
    simp only [Portable] at h
    simp only [replace,Writable]
    rw [keys_replaceFields]
    exact ⟨h.1,writableFields_replaceFields fs h.2.2.2⟩

theorem writableAll_replaceAll (xs : List Val) (h : PortableAll decimalText xs) :
    WritableAll decimalText (replaceAll xs) := by
  match xs with
  | [] => trivial
  | x :: xs => exact ⟨writable_replace x h.1,writableAll_replaceAll xs h.2⟩

theorem writableFields_replaceFields (fs : List (String × Val))
    (h : PortableFields decimalText fs) : WritableFields decimalText (replaceFields fs) := by
  match fs with
  | [] => trivial
  | (_,x) :: fs => exact ⟨writable_replace x h.1,writableFields_replaceFields fs h.2⟩
end

/-- The reviver leaves alone what is not tagged. -/
theorem reviver_untagged {v : Val} (h1 : v.field "_type" ≠ .str "BigInt")
    (h2 : v.field "_type" ≠ .str "Uint8Array") : reviver v = .ok v := by
  rw [reviver,if_neg fun h => h1 (Val.eq_of_strictEq h),if_neg fun h => h2 (Val.eq_of_strictEq h)]

theorem reviver_plain {v : Val} (h : v.field "_type" = .undefined) : reviver v = .ok v :=
  reviver_untagged (by simp [h]) (by simp [h])

theorem reviveAll_bytes (bs : Bytes) :
    reviveAll reviver (bs.map fun b => .num (Number.ofNat b.toNat)) =
      .ok (bs.map fun b => .num (Number.ofNat b.toNat)) := by
  induction bs with
  | nil => rfl
  | cons b bs ih =>
    rw [List.map_cons,reviveAll,ih]
    rfl

theorem mapM_byteOf (bs : Bytes) :
    (bs.map fun b => Val.num (Number.ofNat b.toNat)).mapM byteOf = some bs := by
  induction bs with
  | nil => rfl
  | cons b bs ih =>
    have hlt := b.toNat_lt
    have hb : byteOf (.num (Number.ofNat b.toNat)) = some b := by
      simp [byteOf,Number.toInt?_ofNat]
      omega
    rw [List.map_cons,List.mapM_cons,hb,ih]
    rfl

theorem takeMinus_intText (i : Int) :
    takeMinus (intText i) = (decide (i < 0),Nat.toDigits 10 i.natAbs) := by
  have h := takeMinus_toDigits i.natAbs []
  rw [List.append_nil] at h
  unfold intText
  split
  · next hneg => simp [takeMinus,hneg]
  · next hpos => rw [List.nil_append,h,decide_eq_false hpos]

/-- A BigInt is read back from its digits. -/
theorem reviveBigInt_intText {i : Int} (h : i.natAbs < 10^80) :
    reviveBigInt (.str (String.ofList (intText i))) = .ok (.bigint i) := by
  have hlen : (Nat.toDigits 10 i.natAbs).length ≤ 80 :=
    (Nat.length_toDigits_le_iff (by decide) (by decide)).mpr h
  have hpos : 1 ≤ (Nat.toDigits 10 i.natAbs).length := Nat.length_toDigits_pos
  have hall : (Nat.toDigits 10 i.natAbs).all Char.isDigit = true :=
    List.all_eq_true.mpr (isDigit_toDigits _)
  have htext : isBigIntText (intText i) = true := by
    simp [isBigIntText,takeMinus_intText,hlen,hpos,hall]
  have hvalue : bigIntOf (intText i) = i := by
    simp only [bigIntOf,takeMinus_intText,digitsValue_toDigits (by decide : 1 < 10) (by decide),
      Option.getD_some,decide_eq_true_eq]
    split <;> omega
  rw [reviveBigInt,String.toList_ofList,if_pos htext,hvalue]

theorem cleanFields_cons {x : Val} (hx : x ≠ .undefined) (k : String) (fs : List (String × Val)) :
    cleanFields ((k,x) :: fs) = (k,clean x) :: cleanFields fs := by
  rw [cleanFields]
  exact hx

theorem eq_of_clean_str {v : Val} {s : String} (h : clean v = .str s) : v = .str s := by
  cases v with
  | str t => exact h
  | num n =>
    rw [clean] at h
    split at h
    · cases h
    · cases h
  | _ => cases h

theorem mem_cleanFields {fs : List (String × Val)} {k s : String}
    (h : (k,Val.str s) ∈ cleanFields fs) : (k,Val.str s) ∈ fs := by
  induction fs with
  | nil => exact h
  | cons f fs ih =>
    obtain ⟨k',x⟩ := f
    by_cases hx : x = .undefined
    · subst hx
      exact List.mem_cons_of_mem _ (ih h)
    rw [cleanFields_cons hx] at h
    rcases List.mem_cons.mp h with h | h
    · rw [Prod.mk.injEq] at h
      rw [h.1,eq_of_clean_str h.2.symm]
      exact List.mem_cons_self
    · exact List.mem_cons_of_mem _ (ih h)

/-- A tag that is read back was there. -/
theorem field_cleanFields {fs : List (String × Val)} {s : String} (h : ("_type",.str s) ∉ fs) :
    (Val.obj (cleanFields fs)).field "_type" ≠ .str s := by
  intro hfield
  unfold Val.field at hfield
  dsimp only at hfield
  cases hg : JsMap.get (cleanFields fs) "_type" with
  | none =>
    rw [hg] at hfield
    cases hfield
  | some x =>
    rw [hg,Option.getD_some] at hfield
    subst hfield
    obtain ⟨k,hmem,hk⟩ := JsMap.get_mem hg
    rw [beq_iff_eq.mp hk] at hmem
    exact h (mem_cleanFields hmem)

theorem replace_undefined {v : Val} (h : replace v = .undefined) : v = .undefined := by
  cases v with
  | undefined => rfl
  | _ => cases h

mutual
theorem revive_replace (v : Val) (h : Portable decimalText v) :
    revive reviver (clean (replace v)) = .ok (clean v) := by
  match v with
  | .undefined | .null | .bool _ | .str _ => rfl
  | .num n =>
    simp only [replace,replacer,clean]
    split
    · rfl
    · rfl
  | .bigint i =>
    simp only [Portable] at h
    have hi := reviveBigInt_intText h
    simp [replace,replacer,clean,cleanFields,revive,reviveFields,bind,Except.bind,
      reviver,Val.field,JsMap.get,Val.strictEq,hi]
  | .bytes bs =>
    simp only [Portable] at h
    have hbytes : reviveBytes (.arr (bs.map fun b => .num (Number.ofNat b.toNat))) =
        .ok (.bytes bs) := by
      have hlen : ¬(bs.map fun b => Val.num (Number.ofNat b.toNat)).length > maxBytes := by
        rw [List.length_map]
        omega
      rw [reviveBytes,if_neg hlen,mapM_byteOf]
    simp [replace,replacer,clean,cleanFields,cleanAll_bytes,revive,reviveFields,
      reviveAll_bytes,bind,Except.bind,reviver,Val.field,JsMap.get,Val.strictEq,hbytes]
  | .date _ => simp only [Portable] at h
  | .arr xs =>
    simp only [Portable] at h
    have hxs := reviveAll_replaceAll xs h
    simp only [replace,clean,revive,hxs]
    rfl
  | .obj fs =>
    simp only [Portable] at h
    have hfs := reviveFields_replaceFields fs h.2.2.2
    simp only [replace,clean,revive,hfs]
    exact reviver_untagged (field_cleanFields h.2.1) (field_cleanFields h.2.2.1)

theorem reviveAll_replaceAll (xs : List Val) (h : PortableAll decimalText xs) :
    reviveAll reviver (cleanAll (replaceAll xs)) = .ok (cleanAll xs) := by
  match xs with
  | [] => rfl
  | x :: xs =>
    have hx := revive_replace x h.1
    have hxs := reviveAll_replaceAll xs h.2
    simp only [replaceAll,cleanAll,reviveAll,hx,hxs]
    rfl

theorem reviveFields_replaceFields (fs : List (String × Val)) (h : PortableFields decimalText fs) :
    reviveFields reviver (cleanFields (replaceFields fs)) = .ok (cleanFields fs) := by
  match fs with
  | [] => rfl
  | (k,x) :: fs =>
    have hfs := reviveFields_replaceFields fs h.2
    by_cases hx : x = .undefined
    · subst hx
      exact hfs
    have hv := revive_replace x h.1
    rw [replaceFields,cleanFields_cons (fun hr => hx (replace_undefined hr)),cleanFields_cons hx,
      reviveFields,hv,hfs]
    rfl
end

/-- What is stored or sent as JSON is the same value when it is parsed. -/
theorem stringify_round_trip {v : Val} (h : Portable decimalText v) {s : String}
    (hs : stringify decimalText v = some s) : parse (Bytes.utf8 s) = .ok (clean v) := by
  have hw := writable_replace v h
  rw [parse,parseBytes,decode_stringify hw hs,JsonText.parse_stringify hw hs]
  exact revive_replace v h

/-- Something of every kind, under the names that a packet uses. -/
def samplePacket : Val :=
  .obj [("packet_id",.str "a\n\"b"),("timestamp",.num (Number.ofInt (-5))),("pow_nonce",.bigint (-12)),
    ("payload",.bytes [0,255]),("zone_id",.undefined),("hop_count",.arr [.null,.obj []])]

theorem stringify_round_trip_samplePacket : ∃ s, stringify (fun _ => []) samplePacket = some s ∧
    parse (Bytes.utf8 s) = .ok (clean samplePacket) := by
  have hnum : Writable (fun _ => []) (.num (Number.ofInt (-5))) := by
    simp [Writable,Number.toSafeInt?,Number.toInt?_ofInt,Number.maxSafeInteger]
  have h : Portable (fun _ => []) samplePacket := by
    simp [samplePacket,Portable,PortableFields,PortableAll,JsMap.keys,maxBytes,hnum]
  exact ⟨_,rfl,stringify_round_trip h rfl⟩

end

end JsonBinary
