import AetherLite.Crypto.PacketBuilder
import AetherLite.Mailbox.MailboxEntry

/-! The two readers of a stored body. To the one of the orchestrators a BigInt that is tagged is an
object like any other. -/
set_option autoImplicit false

namespace BodyReaders

open Js JsonText PowPolicy PacketValidator MailboxEntry PacketBuilder

def isTagged (v : Val) : Bool := (v.field "_type").strictEq (.str "BigInt")

mutual
/-- A tagged BigInt with a property `toString` of its own, which no other object is around. -/
def hides : Val → Bool
  | .obj fs => isTagged (.obj fs) && JsMap.has fs "toString"
  | .arr xs => hidesAny xs
  | _ => false

def hidesAny : List Val → Bool
  | [] => false
  | x :: xs => hides x || hidesAny xs
end

def taggedValue (v : Val) : Option Int :=
  match v.field "value" with
  | .str s => some (JsonBinary.bigIntOf s.toList)
  | _ => none

/-- The tagged BigInt inside arrays of one element. -/
def buried : Val → Option Int
  | .arr [x] => buried x
  | .obj fs => if isTagged (.obj fs) then taggedValue (.obj fs) else none
  | _ => none

/-- An element gives both readers one byte. -/
def readsAlike (x : Val) : Bool :=
  !hides x && (buried x).all fun i => (Number.ofRat i).toUint8 == 0

/-- What `toBytes` looks at in a value is read alike. -/
def bytesAlike (v : Val) : Bool :=
  match v with
  | .arr xs => xs.all readsAlike
  | .obj fs =>
    match (Val.obj fs).field "data" with
    | .arr xs => xs.all readsAlike
    | _ => true
  | _ => true

/-! What a reviver does that makes only byte strings and BigInts of objects. -/

structure Reader (f : Val → Except Thrown Val) : Prop where
  plain : ∀ v, (∀ fs, v ≠ .obj fs) → f v = .ok v
  object : ∀ fs v, f (.obj fs) = .ok v →
    v = .obj fs ∨ (∃ bs, v = .bytes bs) ∨ ∃ i, v = .bigint i

section
variable {f : Val → Except Thrown Val} (hf : Reader f)
include hf

theorem Reader.arr {xs : List Val} {v : Val} (h : revive f (.arr xs) = .ok v) :
    ∃ ys, reviveAll f xs = .ok ys ∧ v = .arr ys := by
  unfold revive at h
  obtain ⟨ys,hys,hv⟩ := bind_ok h
  rw [hf.plain (.arr ys) (fun fs => by simp)] at hv
  cases hv
  exact ⟨ys,hys,rfl⟩

omit hf in
theorem revive_obj {fs : List (String × Val)} {v : Val} (h : revive f (.obj fs) = .ok v) :
    ∃ gs, reviveFields f fs = .ok gs ∧ f (.obj gs) = .ok v := by
  unfold revive at h
  exact bind_ok h

theorem Reader.leaf {v : Val} (harr : ∀ xs, v ≠ .arr xs) (hobj : ∀ fs, v ≠ .obj fs) :
    revive f v = .ok v := by
  unfold revive
  split
  · next xs => exact absurd rfl (harr xs)
  · next fs => exact absurd rfl (hobj fs)
  · exact hf.plain v hobj

/-- Only a string is read as a string. -/
theorem Reader.str_iff {x v : Val} (h : revive f x = .ok v) (t : String) :
    v = .str t ↔ x = .str t := by
  cases x with
  | arr xs =>
    obtain ⟨ys,-,rfl⟩ := hf.arr h
    simp
  | obj fs =>
    obtain ⟨gs,-,hv⟩ := revive_obj h
    obtain rfl | ⟨bs,rfl⟩ | ⟨i,rfl⟩ := hf.object gs v hv <;> simp
  | _ =>
    rw [hf.leaf (by simp) (by simp)] at h
    cases h
    rfl

theorem Reader.num_iff {x v : Val} (h : revive f x = .ok v) (n : Number) :
    v = .num n ↔ x = .num n := by
  cases x with
  | arr xs =>
    obtain ⟨ys,-,rfl⟩ := hf.arr h
    simp
  | obj fs =>
    obtain ⟨gs,-,hv⟩ := revive_obj h
    obtain rfl | ⟨bs,rfl⟩ | ⟨i,rfl⟩ := hf.object gs v hv <;> simp
  | _ =>
    rw [hf.leaf (by simp) (by simp)] at h
    cases h
    rfl

/-- Only an array is read as an array. -/
theorem Reader.of_arr {x : Val} {ys : List Val} (h : revive f x = .ok (.arr ys)) :
    ∃ xs, x = .arr xs ∧ reviveAll f xs = .ok ys := by
  cases x with
  | arr xs =>
    obtain ⟨zs,hzs,he⟩ := hf.arr h
    cases he
    exact ⟨xs,rfl,hzs⟩
  | obj fs =>
    obtain ⟨gs,-,hv⟩ := revive_obj h
    obtain he | ⟨bs,he⟩ | ⟨i,he⟩ := hf.object gs _ hv <;> cases he
  | _ =>
    rw [hf.leaf (by simp) (by simp)] at h
    cases h

theorem Reader.fields {fs gs : List (String × Val)} (h : reviveFields f fs = .ok gs) (k : String) :
    revive f ((Val.obj fs).field k) = .ok ((Val.obj gs).field k) ∧
      JsMap.has gs k = JsMap.has fs k := by
  induction fs generalizing gs with
  | nil =>
    cases h
    exact ⟨hf.leaf (by simp [Val.field,JsMap.get]) (by simp [Val.field,JsMap.get]),rfl⟩
  | cons e fs ih =>
    obtain ⟨k',v⟩ := e
    unfold reviveFields at h
    obtain ⟨w,hw,h⟩ := bind_ok h
    obtain ⟨rest,hrest,h⟩ := bind_ok h
    cases h
    obtain ⟨hfield,hhas⟩ := ih hrest
    by_cases hk : k' = k
    · simp [Val.field,JsMap.get,JsMap.has,hk,hw]
    · simpa [Val.field,JsMap.get,JsMap.has,hk] using ⟨hfield,hhas⟩

theorem Reader.tag {fs gs : List (String × Val)} (h : reviveFields f fs = .ok gs) (t : String) :
    ((Val.obj gs).field "_type").strictEq (.str t) = ((Val.obj fs).field "_type").strictEq (.str t) := by
  have hstr := hf.str_iff (hf.fields h "_type").1 t
  have hiff : ∀ v : Val, v.strictEq (.str t) = true ↔ v = .str t := by
    intro v
    constructor
    · exact Val.eq_of_strictEq
    · rintro rfl
      simp [Val.strictEq]
  rw [Bool.eq_iff_iff,hiff,hiff]
  exact hstr

/-- Numbers are read as they are. -/
theorem Reader.nums {xs ys : List Val} (h : reviveAll f xs = .ok ys)
    (hnums : ∀ y ∈ ys, ∃ n, y = .num n) : xs = ys := by
  induction xs generalizing ys with
  | nil =>
    cases h
    rfl
  | cons x xs ih =>
    unfold reviveAll at h
    obtain ⟨y,hy,h⟩ := bind_ok h
    obtain ⟨rest,hrest,h⟩ := bind_ok h
    cases h
    obtain ⟨n,rfl⟩ := hnums y List.mem_cons_self
    rw [(hf.num_iff hy n).mp rfl,ih hrest fun z hz => hnums z (List.mem_cons_of_mem _ hz)]

theorem Reader.of_nums {xs : List Val} (hnums : ∀ x ∈ xs, ∃ n, x = .num n) :
    reviveAll f xs = .ok xs := by
  induction xs with
  | nil => rfl
  | cons x xs ih =>
    obtain ⟨n,rfl⟩ := hnums x List.mem_cons_self
    unfold reviveAll
    rw [hf.leaf (by simp) (by simp),ih fun z hz => hnums z (List.mem_cons_of_mem _ hz)]
    rfl

end

theorem strict_reader : Reader JsonBinary.reviver where
  plain v hobj := by
    have hfield : v.field "_type" = .undefined := by
      cases v with
      | obj fs => exact absurd rfl (hobj fs)
      | _ => rfl
    unfold JsonBinary.reviver
    rw [hfield]
    rfl
  object fs v h := by
    unfold JsonBinary.reviver at h
    split at h
    · unfold JsonBinary.reviveBigInt at h
      split at h
      · split at h
        · cases h
          exact .inr (.inr ⟨_,rfl⟩)
        · cases h
      · cases h
    · split at h
      · unfold JsonBinary.reviveBytes at h
        split at h
        · split at h
          · cases h
          · split at h
            · cases h
              exact .inr (.inl ⟨_,rfl⟩)
            · cases h
        · cases h
      · cases h
        exact .inl rfl

theorem lax_reader : Reader packetReviver where
  plain v hobj := by
    have hfield : v.field "_type" = .undefined := by
      cases v with
      | obj fs => exact absurd rfl (hobj fs)
      | _ => rfl
    unfold packetReviver
    rw [hfield]
    rfl
  object fs v h := by
    unfold packetReviver at h
    split at h
    · obtain ⟨bs,-,h⟩ := bind_ok h
      cases h
      exact .inr (.inl ⟨bs,rfl⟩)
    · cases h
      exact .inl rfl

/-! Both readers of one text. -/

section
variable {x s l : Val} {fs gs gs' : List (String × Val)}

/-- An object under the two readers: a tagged BigInt, a tagged byte string or neither. -/
inductive Both (fs gs gs' : List (String × Val)) : Val → Val → Prop
  | bigint {i : Int} (tagged : isTagged (.obj fs) = true) (value : taggedValue (.obj fs) = some i) :
    Both fs gs gs' (.bigint i) (.obj gs')
  | bytes {bs : Bytes} {xs : List Val} (untagged : isTagged (.obj fs) = false)
    (data : (Val.obj fs).field "data" = .arr xs) (nums : ∀ x ∈ xs, ∃ n, x = .num n) :
    Both fs gs gs' (.bytes bs) (.bytes bs)
  | object (untagged : isTagged (.obj fs) = false) : Both fs gs gs' (.obj gs) (.obj gs')

theorem byteOf_some {v : Val} {b : UInt8} (h : JsonBinary.byteOf v = some b) :
    (∃ n, v = .num n) ∧ (do .ok (← v.toNumber).toUint8 : Except Thrown UInt8) = .ok b := by
  cases v with
  | num n =>
    refine ⟨⟨n,rfl⟩,?_⟩
    unfold JsonBinary.byteOf at h
    obtain ⟨i,hi,h⟩ := Option.bind_eq_some_iff.mp h
    split at h
    · next hrange =>
      cases h
      rw [Number.toInt?_eq_some hi]
      have hmod : i % 256 = i := Int.emod_eq_of_lt hrange.1 (by omega)
      have hneg : ¬((i : Rat) < 0) := by
        rw [not_lt]
        exact_mod_cast hrange.1
      simp [Val.toNumber,bind,Except.bind,Number.ofInt,Number.toUint8,hneg,hmod]
    · cases h
  | _ => cases h

theorem bytesOf_some {xs : List Val} {bs : Bytes} (h : xs.mapM JsonBinary.byteOf = some bs) :
    (∀ x ∈ xs, ∃ n, x = .num n) ∧ Val.uint8ArrayFrom xs = .ok bs := by
  unfold Val.uint8ArrayFrom
  induction xs generalizing bs with
  | nil =>
    cases h
    exact ⟨by simp,rfl⟩
  | cons x xs ih =>
    rw [List.mapM_cons] at h
    obtain ⟨b,hb,h⟩ := Option.bind_eq_some_iff.mp h
    obtain ⟨rest,hrest,h⟩ := Option.bind_eq_some_iff.mp h
    cases h
    obtain ⟨hnum,hx⟩ := byteOf_some hb
    obtain ⟨hnums,hxs⟩ := ih hrest
    rw [List.mapM_cons,hx,hxs]
    exact ⟨List.forall_mem_cons.mpr ⟨hnum,hnums⟩,rfl⟩

theorem both_obj (hg : reviveFields JsonBinary.reviver fs = .ok gs)
    (hg' : reviveFields packetReviver fs = .ok gs') (hs : JsonBinary.reviver (.obj gs) = .ok s) :
    ∃ l, packetReviver (.obj gs') = .ok l ∧ Both fs gs gs' s l := by
  have htag : isTagged (.obj gs) = isTagged (.obj fs) := strict_reader.tag hg "BigInt"
  have hbytes := strict_reader.tag hg "Uint8Array"
  have hbytes' := lax_reader.tag hg' "Uint8Array"
  unfold JsonBinary.reviver at hs
  unfold packetReviver
  by_cases hbig : isTagged (.obj fs) = true
  · have hnot : ((Val.obj fs).field "_type").strictEq (.str "Uint8Array") = false := by
      rw [Val.eq_of_strictEq hbig]
      decide
    have hbig' := hbig
    rw [← htag] at hbig'
    unfold isTagged at hbig'
    rw [if_pos hbig'] at hs
    rw [hbytes',hnot]
    refine ⟨_,rfl,?_⟩
    unfold JsonBinary.reviveBigInt at hs
    split at hs
    · next t ht =>
      split at hs
      · cases hs
        have hraw := (strict_reader.str_iff (strict_reader.fields hg "value").1 t).mp ht
        exact .bigint hbig (by simp [taggedValue,hraw])
      · cases hs
    · cases hs
  · have hbig' : isTagged (.obj fs) = false := by simpa using hbig
    rw [← htag] at hbig
    unfold isTagged at hbig
    rw [if_neg hbig,hbytes] at hs
    rw [hbytes']
    split at hs
    · next hyes =>
      rw [if_pos hyes]
      unfold JsonBinary.reviveBytes at hs
      split at hs
      · next ys hys =>
        split at hs
        · cases hs
        · split at hs
          · next bs hbs =>
            cases hs
            obtain ⟨hnums,hfrom⟩ := bytesOf_some hbs
            have hdata := (strict_reader.fields hg "data").1
            rw [hys] at hdata
            obtain ⟨xs,hraw,hxs⟩ := strict_reader.of_arr hdata
            obtain rfl := strict_reader.nums hxs hnums
            have hdata' := (lax_reader.fields hg' "data").1
            rw [hraw] at hdata'
            obtain ⟨zs,hzs,hfield⟩ := lax_reader.arr hdata'
            rw [lax_reader.of_nums hnums] at hzs
            cases hzs
            rw [hfield]
            exact ⟨_,by simp [Val.newUint8Array,hfrom,bind,Except.bind],.bytes hbig' hraw hnums⟩
          · cases hs
      · cases hs
    · next hno =>
      cases hs
      rw [if_neg hno]
      exact ⟨_,rfl,.object hbig'⟩

mutual
/-- What the first reader reads, the second reads too. -/
theorem lax_ok : (x s : Val) → revive JsonBinary.reviver x = .ok s →
    ∃ l, revive packetReviver x = .ok l
  | .arr xs, s, h => by
    obtain ⟨ys,hys,-⟩ := strict_reader.arr h
    obtain ⟨zs,hzs⟩ := laxAll_ok xs ys hys
    unfold revive
    rw [hzs]
    exact ⟨_,lax_reader.plain (.arr zs) (by simp)⟩
  | .obj fs, s, h => by
    obtain ⟨gs,hgs,hs⟩ := revive_obj h
    obtain ⟨gs',hgs'⟩ := laxFields_ok fs gs hgs
    obtain ⟨l,hl,-⟩ := both_obj hgs hgs' hs
    unfold revive
    rw [hgs']
    exact ⟨l,hl⟩
  | .undefined, _, _ | .null, _, _ | .bool _, _, _ | .num _, _, _ | .bigint _, _, _ | .str _, _, _
  | .bytes _, _, _ | .date _, _, _ => ⟨_,lax_reader.leaf (by simp) (by simp)⟩

theorem laxAll_ok : (xs ys : List Val) → reviveAll JsonBinary.reviver xs = .ok ys →
    ∃ zs, reviveAll packetReviver xs = .ok zs
  | [], _, _ => ⟨[],rfl⟩
  | x :: xs, ys, h => by
    unfold reviveAll at h
    obtain ⟨y,hy,h⟩ := bind_ok h
    obtain ⟨rest,hrest,-⟩ := bind_ok h
    obtain ⟨z,hz⟩ := lax_ok x y hy
    obtain ⟨zs,hzs⟩ := laxAll_ok xs rest hrest
    unfold reviveAll
    rw [hz]
    exact ⟨z :: zs,by simp [bind,Except.bind,hzs]⟩

theorem laxFields_ok : (fs gs : List (String × Val)) →
    reviveFields JsonBinary.reviver fs = .ok gs → ∃ gs', reviveFields packetReviver fs = .ok gs'
  | [], _, _ => ⟨[],rfl⟩
  | (k,x) :: fs, gs, h => by
    unfold reviveFields at h
    obtain ⟨y,hy,h⟩ := bind_ok h
    obtain ⟨rest,hrest,-⟩ := bind_ok h
    obtain ⟨z,hz⟩ := lax_ok x y hy
    obtain ⟨zs,hzs⟩ := laxFields_ok fs rest hrest
    unfold reviveFields
    rw [hz]
    exact ⟨(k,z) :: zs,by simp [bind,Except.bind,hzs]⟩
end

theorem obj_both (hs : revive JsonBinary.reviver (.obj fs) = .ok s)
    (hl : revive packetReviver (.obj fs) = .ok l) :
    ∃ gs gs', reviveFields JsonBinary.reviver fs = .ok gs ∧
      reviveFields packetReviver fs = .ok gs' ∧ Both fs gs gs' s l := by
  obtain ⟨gs,hgs,hs⟩ := revive_obj hs
  obtain ⟨gs',hgs',hl⟩ := revive_obj hl
  obtain ⟨l',hl',hboth⟩ := both_obj hgs hgs' hs
  rw [hl] at hl'
  cases hl'
  exact ⟨gs,gs',hgs,hgs',hboth⟩

/-- What is no array and no object is read alike. -/
theorem leaf_same (harr : ∀ xs, x ≠ .arr xs) (hobj : ∀ fs, x ≠ .obj fs)
    (hs : revive JsonBinary.reviver x = .ok s) (hl : revive packetReviver x = .ok l) :
    s = x ∧ l = x := by
  rw [strict_reader.leaf harr hobj] at hs
  rw [lax_reader.leaf harr hobj] at hl
  cases hs
  cases hl
  exact ⟨rfl,rfl⟩

mutual
/-- Where the first reader's value has a string, the second's has none just if it hides one. -/
theorem hides_eq : (x s l : Val) → revive JsonBinary.reviver x = .ok s →
    revive packetReviver x = .ok l → s.toStringThrows = false → l.toStringThrows = hides x
  | .arr xs, s, l, hs, hl, ht => by
    obtain ⟨ys,hys,rfl⟩ := strict_reader.arr hs
    obtain ⟨zs,hzs,rfl⟩ := lax_reader.arr hl
    exact hidesAny_eq xs ys zs hys hzs ht
  | .obj fs, s, l, hs, hl, ht => by
    obtain ⟨gs,gs',hgs,hgs',hboth⟩ := obj_both hs hl
    have hhas := (strict_reader.fields hgs "toString").2
    have hhas' := (lax_reader.fields hgs' "toString").2
    cases hboth with
    | bigint htag hvalue => simp [Val.toStringThrows,hides,htag,hhas']
    | bytes htag hdata hnums => simp [Val.toStringThrows,hides,htag]
    | object htag =>
      simp only [Val.toStringThrows,hhas] at ht
      simp [Val.toStringThrows,hides,htag,hhas',ht]
  | .undefined, s, l, hs, hl, _ | .null, s, l, hs, hl, _ | .bool _, s, l, hs, hl, _
  | .num _, s, l, hs, hl, _ | .bigint _, s, l, hs, hl, _ | .str _, s, l, hs, hl, _
  | .bytes _, s, l, hs, hl, _ | .date _, s, l, hs, hl, _ => by
    obtain ⟨rfl,rfl⟩ := leaf_same (by simp) (by simp) hs hl
    rfl

theorem hidesAny_eq : (xs ys zs : List Val) → reviveAll JsonBinary.reviver xs = .ok ys →
    reviveAll packetReviver xs = .ok zs → Val.anyToStringThrows ys = false →
      Val.anyToStringThrows zs = hidesAny xs
  | [], ys, zs, hys, hzs, _ => by
    cases hys
    cases hzs
    rfl
  | x :: xs, ys, zs, hys, hzs, ht => by
    unfold reviveAll at hys hzs
    obtain ⟨y,hy,hys⟩ := bind_ok hys
    obtain ⟨ys,hys',hys⟩ := bind_ok hys
    obtain ⟨z,hz,hzs⟩ := bind_ok hzs
    obtain ⟨zs,hzs',hzs⟩ := bind_ok hzs
    cases hys
    cases hzs
    simp only [Val.anyToStringThrows,Bool.or_eq_false_iff] at ht
    simp only [Val.anyToStringThrows,hidesAny]
    rw [hides_eq x y z hy hz ht.1,hidesAny_eq xs ys zs hys' hzs' ht.2]
end

/-- The Number of the first reader's string is that of the second's, but for a buried BigInt,
which gives the second none. -/
theorem number_eq : (x s l : Val) → revive JsonBinary.reviver x = .ok s →
    revive packetReviver x = .ok l →
      s.numberOfString = ((buried x).map fun (i : Int) => Number.ofRat i).getD l.numberOfString ∧
        ∀ i, buried x = some i → l.numberOfString = .nan
  | .arr [], s, l, hs, hl => by
    cases hs
    cases hl
    exact ⟨rfl,fun i hi => by cases hi⟩
  | .arr [x], s, l, hs, hl => by
    obtain ⟨ys,hys,rfl⟩ := strict_reader.arr hs
    obtain ⟨zs,hzs,rfl⟩ := lax_reader.arr hl
    unfold reviveAll at hys hzs
    obtain ⟨y,hy,hys⟩ := bind_ok hys
    obtain ⟨z,hz,hzs⟩ := bind_ok hzs
    cases hys
    cases hzs
    exact number_eq x y z hy hz
  | .arr (x :: x' :: xs), s, l, hs, hl => by
    obtain ⟨ys,hys,rfl⟩ := strict_reader.arr hs
    obtain ⟨zs,hzs,rfl⟩ := lax_reader.arr hl
    unfold reviveAll at hys hzs
    obtain ⟨y,hy,hys⟩ := bind_ok hys
    obtain ⟨ys,hys',hys⟩ := bind_ok hys
    obtain ⟨z,hz,hzs⟩ := bind_ok hzs
    obtain ⟨zs,hzs',hzs⟩ := bind_ok hzs
    cases hys
    cases hzs
    unfold reviveAll at hys' hzs'
    obtain ⟨y',hy',hys⟩ := bind_ok hys'
    obtain ⟨ys,-,hys⟩ := bind_ok hys
    obtain ⟨z',hz',hzs⟩ := bind_ok hzs'
    obtain ⟨zs,-,hzs⟩ := bind_ok hzs
    cases hys
    cases hzs
    exact ⟨rfl,fun i hi => by cases hi⟩
  | .obj fs, s, l, hs, hl => by
    obtain ⟨gs,gs',hgs,hgs',hboth⟩ := obj_both hs hl
    cases hboth with
    | bigint htag hvalue =>
      simp [buried,htag,hvalue,Val.numberOfString]
    | bytes htag hdata hnums => simp [buried,htag]
    | object htag => simp [buried,htag,Val.numberOfString]
  | .undefined, s, l, hs, hl | .null, s, l, hs, hl | .bool _, s, l, hs, hl | .num _, s, l, hs, hl
  | .bigint _, s, l, hs, hl | .str _, s, l, hs, hl | .bytes _, s, l, hs, hl
  | .date _, s, l, hs, hl => by
    obtain ⟨rfl,rfl⟩ := leaf_same (by simp) (by simp) hs hl
    exact ⟨rfl,fun i hi => by cases hi⟩

def toByte (v : Val) : Except Thrown UInt8 := do .ok (← v.toNumber).toUint8

theorem toByte_arr (xs : List Val) : toByte (.arr xs) =
    if (Val.arr xs).toStringThrows then .error Val.noPrimitive
    else .ok (Val.arr xs).numberOfString.toUint8 := by
  have hnumber : (Val.arr xs).toNumber = if (Val.arr xs).toStringThrows then
      .error Val.noPrimitive else .ok (Val.arr xs).numberOfString := rfl
  unfold toByte
  rw [hnumber]
  split <;> rfl

/-- An element of which the first reader makes a byte. -/
theorem byte_alike {b : UInt8} (hs : revive JsonBinary.reviver x = .ok s)
    (hl : revive packetReviver x = .ok l) (hb : toByte s = .ok b) :
    toByte l = .ok b ↔ readsAlike x = true := by
  cases x with
  | obj fs =>
    obtain ⟨gs,gs',hgs,hgs',hboth⟩ := obj_both hs hl
    cases hboth with
    | bigint htag hvalue => cases hb
    | bytes htag hdata hnums => simp [hb,readsAlike,hides,buried,htag]
    | object htag =>
      have hhas := (strict_reader.fields hgs "toString").2
      have hhas' := (lax_reader.fields hgs' "toString").2
      have hsame : toByte (.obj gs') = toByte (.obj gs) := by
        simp only [toByte,Val.toNumber,Val.toStringThrows,hhas,hhas',Val.numberOfString]
      simp [hsame,hb,readsAlike,hides,buried,htag]
  | arr xs =>
    obtain ⟨ys,hys,rfl⟩ := strict_reader.arr hs
    obtain ⟨zs,hzs,rfl⟩ := lax_reader.arr hl
    rw [toByte_arr] at hb ⊢
    cases ht : (Val.arr ys).toStringThrows with
    | true =>
      rw [ht] at hb
      cases hb
    | false =>
      have hhides := hides_eq (.arr xs) _ _ hs hl ht
      obtain ⟨hnumber,hnan⟩ := number_eq (.arr xs) _ _ hs hl
      rw [ht,hnumber] at hb
      rw [hhides]
      unfold readsAlike
      cases hh : hides (.arr xs) with
      | true => simp
      | false =>
        cases hi : buried (.arr xs) with
        | none =>
          rw [hi] at hb
          simpa using hb
        | some i =>
          rw [hi] at hb
          rw [hnan i hi]
          have hbyte : (Number.ofRat i).toUint8 = b := by simpa using hb
          have hzero : Number.nan.toUint8 = 0 := rfl
          have hflip : (0 : UInt8) = b ↔ b = 0 := eq_comm
          simp [hzero,hbyte,hflip]
  | _ =>
    obtain ⟨rfl,rfl⟩ := leaf_same (by simp) (by simp) hs hl
    simp [hb,readsAlike,hides,buried]

theorem array_alike {xs ys zs : List Val} {bs : Bytes}
    (hys : reviveAll JsonBinary.reviver xs = .ok ys) (hzs : reviveAll packetReviver xs = .ok zs)
    (hb : Val.uint8ArrayFrom ys = .ok bs) :
    Val.uint8ArrayFrom zs = .ok bs ↔ xs.all readsAlike = true := by
  change ys.mapM toByte = .ok bs at hb
  change zs.mapM toByte = .ok bs ↔ _
  induction xs generalizing ys zs bs with
  | nil =>
    cases hys
    cases hzs
    simp [hb]
  | cons x xs ih =>
    unfold reviveAll at hys hzs
    obtain ⟨y,hy,hys⟩ := bind_ok hys
    obtain ⟨ys,hys',hys⟩ := bind_ok hys
    obtain ⟨z,hz,hzs⟩ := bind_ok hzs
    obtain ⟨zs,hzs',hzs⟩ := bind_ok hzs
    cases hys
    cases hzs
    rw [List.mapM_cons] at hb ⊢
    obtain ⟨b,hb₁,hb⟩ := bind_ok hb
    obtain ⟨rest,hrest,hb⟩ := bind_ok hb
    cases hb
    have hfirst := byte_alike hy hz hb₁
    have hothers := ih hys' hzs' hrest
    rw [List.all_cons,Bool.and_eq_true,← hfirst,← hothers]
    constructor
    · intro h
      obtain ⟨b',hb',h⟩ := bind_ok h
      obtain ⟨rest',hrest',h⟩ := bind_ok h
      cases h
      exact ⟨hb',hrest'⟩
    · intro h
      obtain ⟨hz₁,hzs₁⟩ := h
      rw [hz₁,hzs₁]
      rfl

/-- The bytes of a field, of which the first reader makes some. -/
theorem bytes_alike {bs : Bytes} (hs : revive JsonBinary.reviver x = .ok s)
    (hl : revive packetReviver x = .ok l) (hb : toBytes s = .ok bs) (hne : bs ≠ []) :
    toBytes l = .ok bs ↔ bytesAlike x = true := by
  cases x with
  | arr xs =>
    obtain ⟨ys,hys,rfl⟩ := strict_reader.arr hs
    obtain ⟨zs,hzs,rfl⟩ := lax_reader.arr hl
    exact array_alike hys hzs hb
  | obj fs =>
    obtain ⟨gs,gs',hgs,hgs',hboth⟩ := obj_both hs hl
    cases hboth with
    | bigint htag hvalue =>
      cases hb
      exact absurd rfl hne
    | bytes htag hdata hnums =>
      have hsame : bytesAlike (.obj fs) = true := by
        unfold bytesAlike
        simp only [hdata]
        rw [List.all_eq_true]
        intro y hy
        obtain ⟨n,rfl⟩ := hnums y hy
        rfl
      simp [hb,hsame]
    | object htag =>
      have hdata := (strict_reader.fields hgs "data").1
      have hdata' := (lax_reader.fields hgs' "data").1
      unfold toBytes at hb ⊢
      unfold bytesAlike
      simp only at hb ⊢
      split at hb
      · next ys hys =>
        rw [hys] at hdata
        obtain ⟨xs,hraw,hxs⟩ := strict_reader.of_arr hdata
        rw [hraw] at hdata' ⊢
        obtain ⟨zs,hzs,hfield⟩ := lax_reader.arr hdata'
        rw [hfield]
        exact array_alike hxs hzs hb
      · cases hb
        exact absurd rfl hne
  | _ =>
    obtain ⟨rfl,rfl⟩ := leaf_same (by simp) (by simp) hs hl
    simp [hb,bytesAlike]

end

/-! The packet of an entry. -/

/-- The reader of the orchestrators finds in an entry the packet that was checked. -/
def ProcessedAsValidated (sha256 : Bytes → Bytes) (entry : Bytes) (packet : Val) : Prop :=
  ∃ body processed header, packetBytes sha256 entry = some body ∧
    parsePacket body = .ok processed ∧
    processed.field "packet_id" = packet.field "packet_id" ∧
    committedHeaderOf packet = .ok header ∧ committedHeaderOf processed = .ok header

/-- The byte fields in the JSON of an entry are read alike. -/
def entryAlike (sha256 : Bytes → Bytes) (entry : Bytes) : Bool :=
  match packetBytes sha256 entry with
  | none => false
  | some body =>
    match JsonText.parse (Utf8.decode body) with
    | .ok json => bytesAlike (json.field "nonce") && bytesAlike (json.field "payload")
    | .error _ => false

section
variable {sha256 : Bytes → Bytes} {entry body : Bytes} {now : Int} {packet processed json : Val}

theorem checkEntry_ok (h : checkEntry sha256 entry now = .ok (.ok packet)) :
    ∃ body, packetBytes sha256 entry = some body ∧ JsonBinary.parse body = .ok packet ∧
      check sha256 packet ⟨now,true⟩ = .ok .ok := by
  have hpacket : ∀ bs, checkPacketBytes sha256 bs now = .ok (.ok packet) →
      JsonBinary.parse bs = .ok packet ∧ check sha256 packet ⟨now,true⟩ = .ok .ok := by
    intro bs hbs
    unfold checkPacketBytes at hbs
    split at hbs
    · cases hbs
    next parsed hparsed =>
    split at hbs
    · cases hbs
    obtain ⟨result,hresult,hbs⟩ := bind_ok hbs
    cases result with
    | fail reason => cases hbs
    | ok =>
      cases hbs
      exact ⟨hparsed,hresult⟩
  unfold checkEntry at h
  unfold packetBytes
  split at h
  · cases h
  next hsize =>
  rw [if_neg hsize]
  split at h
  · next slot hslot =>
    split at h
    · next hpow => exact ⟨slot.body,by simp [hpow],hpacket slot.body h⟩
    · cases h
  · exact ⟨entry,rfl,hpacket entry h⟩

/-- A packet that is checked was an object without a tag. -/
theorem untagged_of_id {t : String} (h : revive JsonBinary.reviver json = .ok packet)
    (hid : packet.field "packet_id" = .str t) :
    ∃ fs gs gs', json = .obj fs ∧ reviveFields JsonBinary.reviver fs = .ok gs ∧
      reviveFields packetReviver fs = .ok gs' ∧ packet = .obj gs ∧
      revive packetReviver json = .ok (.obj gs') := by
  obtain ⟨l,hl⟩ := lax_ok json packet h
  cases json with
  | obj fs =>
    obtain ⟨gs,gs',hgs,hgs',hboth⟩ := obj_both h hl
    cases hboth with
    | bigint htag hvalue => cases hid
    | bytes htag hdata hnums => cases hid
    | object htag => exact ⟨fs,gs,gs',rfl,hgs,hgs',rfl,hl⟩
  | arr xs =>
    obtain ⟨ys,-,rfl⟩ := strict_reader.arr h
    cases hid
  | _ =>
    obtain ⟨rfl,rfl⟩ := leaf_same (by simp) (by simp) h hl
    cases hid

theorem committedHeaderOf_ok {header : PowCommittedHeader}
    (h : committedHeaderOf packet = .ok header) :
    toBytes (packet.field "nonce") = .ok header.nonce ∧
      toBytes (packet.field "payload") = .ok header.payload ∧
      header.timestamp = packet.field "timestamp" ∧ header.zoneId = packet.field "zone_id" ∧
      header.powDifficulty = packet.field "pow_difficulty" := by
  unfold committedHeaderOf at h
  obtain ⟨nonce,hnonce,h⟩ := bind_ok h
  obtain ⟨payload,hpayload,h⟩ := bind_ok h
  cases h
  exact ⟨hnonce,hpayload,rfl,rfl,rfl⟩

/-- The header of the packet that is processed is the one that was checked, up to the bytes. -/
theorem committedHeaderOf_eq_iff {header : PowCommittedHeader}
    (h : committedHeaderOf packet = .ok header)
    (htimestamp : processed.field "timestamp" = packet.field "timestamp")
    (hzone : processed.field "zone_id" = packet.field "zone_id")
    (hdifficulty : processed.field "pow_difficulty" = packet.field "pow_difficulty") :
    committedHeaderOf processed = .ok header ↔
      toBytes (processed.field "nonce") = .ok header.nonce ∧
        toBytes (processed.field "payload") = .ok header.payload := by
  obtain ⟨-,-,ht,hz,hd⟩ := committedHeaderOf_ok h
  constructor
  · intro hp
    obtain ⟨hnonce,hpayload,-⟩ := committedHeaderOf_ok hp
    exact ⟨hnonce,hpayload⟩
  · intro h
    obtain ⟨hnonce,hpayload⟩ := h
    unfold committedHeaderOf
    rw [hnonce,hpayload,htimestamp,hzone,hdifficulty,← ht,← hz,← hd]
    rfl

theorem processed_as_validated_iff (h : checkEntry sha256 entry now = .ok (.ok packet)) :
    ProcessedAsValidated sha256 entry packet ↔ entryAlike sha256 entry = true := by
  obtain ⟨body,hbody,hparse,hcheck⟩ := checkEntry_ok h
  obtain ⟨json,hjson,hrevive⟩ := bind_ok hparse
  obtain ⟨-,id,timestamp,header,hid,htimestamp,hheader,hpassed⟩ := check_iff.mp hcheck
  obtain ⟨⟨hpayload,-⟩,hnonce,-,n,-,-,-,hderive,-⟩ := checkHeader_iff.mp hpassed
  obtain ⟨preimage,hpreimage,-⟩ := derivePacketId_ok hderive
  obtain ⟨t,z,d,hcommitted,-⟩ := powPreimage_ok hpreimage
  obtain ⟨hnonceBytes,hpayloadBytes,ht,hz,hd⟩ := committedHeaderOf_ok hheader
  have hstr : ∃ u, packet.field "packet_id" = .str u := by
    unfold packetId? at hid
    split at hid
    · next u hu => exact ⟨u,hu⟩
    · cases hid
  obtain ⟨u,hu⟩ := hstr
  obtain ⟨fs,gs,gs',rfl,hgs,hgs',rfl,hlax⟩ := untagged_of_id hrevive hu
  have hprocessed : parsePacket body = .ok (.obj gs') := by
    unfold parsePacket parseBytes
    rw [hjson]
    exact hlax
  have hstrict := strict_reader.fields hgs
  have hlaxField := lax_reader.fields hgs'
  -- A field that was a string or a Number was one in the text, which the second reader keeps.
  have hid' : (Val.obj gs').field "packet_id" = (Val.obj gs).field "packet_id" := by
    rw [hu,lax_reader.str_iff (hlaxField "packet_id").1]
    exact (strict_reader.str_iff (hstrict "packet_id").1 u).mp hu
  have hnum : ∀ k n, (Val.obj gs).field k = .num n →
      (Val.obj gs').field k = (Val.obj gs).field k := by
    intro k n hk
    rw [hk,lax_reader.num_iff (hlaxField k).1]
    exact (strict_reader.num_iff (hstrict k).1 n).mp hk
  have heq := committedHeaderOf_eq_iff hheader
    (hnum "timestamp" _ (ht ▸ hcommitted.timestamp_eq))
    (hnum "zone_id" _ (hz ▸ hcommitted.zoneId_eq))
    (hnum "pow_difficulty" _ (hd ▸ hcommitted.difficulty_eq))
  have hnonceAlike := bytes_alike (hstrict "nonce").1 (hlaxField "nonce").1 hnonceBytes (by
    intro hnil
    simp [hnil,nonceSize] at hnonce)
  have hpayloadAlike := bytes_alike (hstrict "payload").1 (hlaxField "payload").1 hpayloadBytes (by
    intro hnil
    simp [hnil] at hpayload)
  rw [hnonceAlike,hpayloadAlike] at heq
  have halike : entryAlike sha256 entry = true ↔
      bytesAlike ((Val.obj fs).field "nonce") = true ∧
        bytesAlike ((Val.obj fs).field "payload") = true := by
    simp [entryAlike,hbody,hjson]
  rw [halike,← heq]
  constructor
  · intro h
    obtain ⟨body',processed,header',hbody',hprocessed',-,hheader',hsame⟩ := h
    cases hbody.symm.trans hbody'
    cases hprocessed.symm.trans hprocessed'
    cases hheader.symm.trans hheader'
    exact hsame
  · intro hsame
    exact ⟨body,.obj gs',header,hbody,hprocessed,hid',hheader,hsame⟩

end

theorem processed_as_validated_honest : ∃ packet,
    checkEntry Sha256.sha256 honestEntry 0 = .ok (.ok packet) ∧
      ProcessedAsValidated Sha256.sha256 honestEntry packet := by
  have hvalid : (passing Sha256.sha256 0 honestEntry).isSome = true := by decide +kernel
  obtain ⟨packet,h⟩ := passing_isSome.mp hvalid
  exact ⟨packet,h,(processed_as_validated_iff h).mpr (by decide +kernel)⟩

def payloadOf (parsed : Except Thrown Val) : Option Bytes :=
  parsed.toOption.bind fun packet => (toBytes (packet.field "payload")).toOption

theorem payloadOf_ok {parsed : Except Thrown Val} {packet : Val} {header : PowCommittedHeader}
    (h : parsed = .ok packet) (hheader : committedHeaderOf packet = .ok header) :
    payloadOf parsed = some header.payload := by
  rw [h]
  exact toOption_eq_some.mpr (committedHeaderOf_ok hheader).2.1

/-- A packet whose payload is `[[{"_type":"BigInt","value":"5"}]]`, which is checked as the
byte 5. -/
def nestedEntry : Bytes :=
  Bytes.bigEndian 40 0x7b227061636b65745f6964223a223834326632633037616537333936343634636338646363346232 ++
  Bytes.bigEndian 40 0x6461336365303231653366393439626263313062373138313836313536663061363335643236222c ++
  Bytes.bigEndian 40 0x22686f705f636f756e74223a302c22706f775f6e6f6e6365223a32362c22706f775f646966666963 ++
  Bytes.bigEndian 40 0x756c7479223a382c2274696d657374616d70223a302c227a6f6e655f6964223a302c226e6f6e6365 ++
  Bytes.bigEndian 40 0x223a5b302c302c302c302c302c302c302c302c302c302c302c305d2c227061796c6f6164223a5b5b ++
  Bytes.bigEndian 33 0x7b225f74797065223a22426967496e74222c2276616c7565223a2235227d5d5d7d

theorem processed_not_as_validated : ∃ packet,
    checkEntry Sha256.sha256 nestedEntry 0 = .ok (.ok packet) ∧
      ¬ProcessedAsValidated Sha256.sha256 nestedEntry packet := by
  have hvalid : (passing Sha256.sha256 0 nestedEntry).isSome = true := by decide +kernel
  have hbody : packetBytes Sha256.sha256 nestedEntry = some nestedEntry := by decide +kernel
  have hchecked : payloadOf (JsonBinary.parse nestedEntry) = some [5] := by decide +kernel
  have hfound : payloadOf (parsePacket nestedEntry) = some [0] := by decide +kernel
  obtain ⟨packet,hcheck⟩ := passing_isSome.mp hvalid
  obtain ⟨body,hbody',hparse,-⟩ := checkEntry_ok hcheck
  cases hbody.symm.trans hbody'
  refine ⟨packet,hcheck,fun hprocessed => ?_⟩
  obtain ⟨body,processed,header,hbody',hparse',-,hheader,hheader'⟩ := hprocessed
  cases hbody.symm.trans hbody'
  rw [payloadOf_ok hparse hheader] at hchecked
  rw [payloadOf_ok hparse' hheader',hchecked] at hfound
  cases hfound

end BodyReaders
