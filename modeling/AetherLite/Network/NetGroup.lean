import AetherLite.Lib.Digits
import AetherLite.Lib.JsOps
import AetherLite.Lib.SplitDouble
import Mathlib.Data.List.Forall2
import Mathlib.Data.List.TakeWhile

/-! The group of the network an address is in. However an IPv6 address is written, it is put into
the group of its first three groups of bits. -/
set_option autoImplicit false

namespace NetGroup

open Js SplitDouble

/-- `replace(/^\[|\]$/g, '')` -/
def stripBrackets (cs : List Char) : List Char :=
  let cs := match cs with
    | '[' :: rest => rest
    | cs => cs
  if cs.getLast? = some ']' then cs.dropLast else cs

/-- `/^\d{1,3}$/` -/
def isOctet (cs : List Char) : Bool := 1 ≤ cs.length && cs.length ≤ 3 && cs.all Char.isDigit

/-- The first two numbers of a dotted address. -/
def v4Start (addr : List Char) : Option (Nat × Nat) :=
  match addr.splitOn '.' with
  | [a,b,c,d] =>
    if [a,b,c,d].all isOctet then
      some ((digitsValue 10 a).getD 0,(digitsValue 10 b).getD 0)
    else none
  | _ => none

def isPrivateV4 (a b : Nat) : Bool :=
  a = 10 || a = 127 || (a = 172 && 16 ≤ b && b ≤ 31) || (a = 192 && b = 168) ||
    (a = 169 && b = 254) || (a = 100 && 64 ≤ b && b ≤ 127)

/-- `/^[0-9a-f]$/` -/
def isLowerHex (c : Char) : Bool := ('0' ≤ c && c ≤ '9') || ('a' ≤ c && c ≤ 'f')

/-- `/^[0-9a-f]{1,4}$/` -/
def isHextet (cs : List Char) : Bool := 1 ≤ cs.length && cs.length ≤ 4 && cs.all isLowerHex

/-- `parseInt(h, 16)` of hexadecimal digits. -/
def parseHex (cs : List Char) : Nat := (digitsValue 16 cs).getD 0

/-- `toString(16)` -/
def toHex (n : Nat) : String := String.ofList (Nat.toDigits 16 n)

/-- `part ? part.split(':') : []` -/
def hextetsOf (part : List Char) : List (List Char) := if part = [] then [] else part.splitOn ':'

def expandV6 (addr : List Char) : Option (List String) :=
  let zoneless := addr.takeWhile (· ≠ '%')
  let parts := splitDouble ':' zoneless
  if 2 < parts.length then none
  else
    let head := hextetsOf (parts.getD 0 [])
    let tail := if parts.length = 2 then hextetsOf (parts.getD 1 []) else []
    if (head ++ tail).any fun h => !isHextet h then none
    else
      let missing : Int := 8-head.length-tail.length
      if parts.length = 1 ∧ missing ≠ 0 then none
      else if missing < 0 then none
      else some ((head ++ List.replicate missing.toNat ['0'] ++ tail).map fun h => toHex (parseHex h))

/-- `join(':')` -/
def joined (hextets : List String) : String := ":".intercalate hextets

/-- The group of an IPv6 address that was expanded. -/
def groupOfHextets (candidateType : Option String) (hextets : List String) : String :=
  if candidateType = some "relay" then "relay:" ++ joined (hextets.take 3)
  else
    let first := parseHex (hextets.headD "").toList
    if first &&& 0xfe00 = 0xfc00 ∨ first &&& 0xffc0 = 0xfe80 ∨
        joined hextets = "0:0:0:0:0:0:0:1" then "lan"
    else "v6:" ++ joined (hextets.take 3)

/-- `toLowerCase` is given by `lower`. -/
def netGroupOf (lower : String → String) (address candidateType : Option String) : String :=
  match address with
  | none => "unknown"
  | some address =>
    if address = "" then "unknown" else
    let addr := stripBrackets (lower (String.ofList (trim address.toList))).toList
    if ".local".toList.isSuffixOf addr then "lan"
    else match v4Start addr with
    | some (a,b) =>
      if 255 < a ∨ 255 < b then "unknown"
      else
        let group := toString a ++ "." ++ toString b
        if candidateType = some "relay" then "relay:" ++ group
        else if isPrivateV4 a b then "lan"
        else "v4:" ++ group
    | none =>
      if addr.contains ':' then
        match expandV6 addr with
        | none => "unknown"
        | some hextets => groupOfHextets candidateType hextets
      else "unknown"

/-- An IPv6 address: eight groups of sixteen bits. -/
structure Address where
  groups : List Nat
  length_eq : groups.length = 8
  lt : ∀ g ∈ groups, g < 65536

/-- The 128 bits of an address. -/
def Address.bits (a : Address) : Nat := a.groups.foldl (fun n g => n*65536+g) 0

/-- What is left of the bits of an address without the last eighty. -/
def Address.first48 (a : Address) : Nat := a.bits/2^80

/-- A group of an address in digits, in either case and with leading zeros or without. -/
def Spells (digits : List Char) (g : Nat) : Prop :=
  1 ≤ digits.length ∧ digits.length ≤ 4 ∧ digitsValue 16 digits = some g

/-- The texts of an address: all eight groups, or two colons for some that are zero. -/
inductive Spelling (a : Address) : List Char → Prop
  | full (pieces : List (List Char)) (h : List.Forall₂ Spells pieces a.groups) :
    Spelling a ([':'].intercalate pieces)
  | compressed (before after : List (List Char)) (left right : List Nat) (zeros : Nat)
      (hb : List.Forall₂ Spells before left) (ha : List.Forall₂ Spells after right)
      (hzeros : 0 < zeros) (hg : a.groups = left ++ List.replicate zeros 0 ++ right) :
    Spelling a ([':'].intercalate before ++ ':' :: ':' :: [':'].intercalate after)

/-- What `toLowerCase` does to ASCII text. -/
def LowersAscii (lower : String → String) : Prop :=
  ∀ cs : List Char, (∀ c ∈ cs, c.toNat < 128) →
    lower (String.ofList cs) = String.ofList (cs.map Char.toLower)

section
variable {digits text : List Char} {g : Nat} {pieces before after : List (List Char)}
  {groups left right : List Nat} {a b : Address}

/-- Digits that the expansion takes for a group -/
structure Low (digits : List Char) (g : Nat) : Prop where
  hextet : isHextet digits = true
  value : digitsValue 16 digits = some g

theorem Spells.digit (h : Spells digits g) {c : Char} (hc : c ∈ digits) :
    ∃ d, digitValue c = some d := digit_of_digitsValue h.2.2 hc

theorem isLowerHex_toLower {c : Char} {d : Nat} (h : digitValue c = some d) :
    isLowerHex c.toLower = true := by
  have hall : ∀ n : Fin 128, (digitValue (Char.ofNat n.1)).isSome = true →
      isLowerHex (Char.ofNat n.1).toLower = true := by decide +kernel
  exact of_ascii (P := fun c => (digitValue c).isSome = true → isLowerHex c.toLower = true) hall
    (lt_of_digitValue h) (by rw [h]; rfl)

theorem Spells.low (h : Spells digits g) : Low (digits.map Char.toLower) g := by
  obtain ⟨hpos,hle,hvalue⟩ := h
  refine ⟨?_,digitsValue_map_toLower hvalue⟩
  simp only [isHextet,List.length_map,Bool.and_eq_true,decide_eq_true_eq,List.all_eq_true]
  refine ⟨⟨hpos,hle⟩,fun c hc => ?_⟩
  obtain ⟨c,hmem,rfl⟩ := List.mem_map.mp hc
  obtain ⟨d,hd⟩ := digit_of_digitsValue hvalue hmem
  exact isLowerHex_toLower hd

/-- No mark of the text is a digit. -/
theorem isLowerHex_ne {c : Char} (h : isLowerHex c = true) :
    c ≠ ':' ∧ c ≠ '%' ∧ c ≠ '.' ∧ c ≠ '[' ∧ c ≠ ']' := by
  refine ⟨?_,?_,?_,?_,?_⟩ <;>
  · rintro rfl
    revert h
    decide

theorem hextet_of_mem (h : List.Forall₂ Low pieces groups) :
    ∀ piece ∈ pieces, isHextet piece = true :=
  ((List.forall₂_and_left _ _).mp (h.imp fun _ _ h => ⟨h.hextet,h⟩)).1

theorem lowerHex_of_isHextet (h : isHextet digits = true) :
    digits ≠ [] ∧ ∀ c ∈ digits, isLowerHex c = true := by
  simp only [isHextet,Bool.and_eq_true,decide_eq_true_eq,List.all_eq_true] at h
  exact ⟨List.ne_nil_of_length_pos h.1.1,h.2⟩

theorem plain_of_low (h : List.Forall₂ Low pieces groups) : Plain ':' pieces := by
  intro piece hp
  obtain ⟨hne,hhex⟩ := lowerHex_of_isHextet (hextet_of_mem h piece hp)
  exact ⟨hne,fun hc => (isLowerHex_ne (hhex _ hc)).1 rfl⟩

theorem hextetsOf_intercalate (h : Plain ':' pieces) :
    hextetsOf ([':'].intercalate pieces) = pieces := by
  unfold hextetsOf
  split
  · next hnil =>
    by_contra hne
    exact intercalate_ne_nil h (Ne.symm hne) hnil
  · next hne =>
    refine List.splitOn_intercalate ':' (fun piece hp => (h piece hp).2) ?_
    rintro rfl
    exact hne rfl

theorem map_toHex_parseHex (h : List.Forall₂ Low pieces groups) :
    pieces.map (fun h => toHex (parseHex h)) = groups.map toHex := by
  induction h with
  | nil => rfl
  | cons hlow _ ih => rw [List.map_cons,List.map_cons,ih,parseHex,hlow.value,Option.getD_some]

theorem not_any_hextet (h : List.Forall₂ Low pieces groups) :
    (pieces.any fun h => !isHextet h) = false := by
  rw [List.any_eq_false]
  intro piece hp
  simp [hextet_of_mem h piece hp]

theorem zone_free (h : List.Forall₂ Low pieces groups) : '%' ∉ [':'].intercalate pieces := by
  intro hc
  obtain hc | ⟨piece,hp,hc⟩ := mem_intercalate hc
  · revert hc
    decide
  · exact (isLowerHex_ne ((lowerHex_of_isHextet (hextet_of_mem h piece hp)).2 _ hc)).2.1 rfl

theorem zoneless (h : '%' ∉ text) : text.takeWhile (· ≠ '%') = text := by
  refine List.takeWhile_eq_self_iff.mpr fun c hc => decide_eq_true ?_
  rintro rfl
  exact h hc

theorem expandV6_full (h : List.Forall₂ Low pieces groups) (hlen : groups.length = 8) :
    expandV6 ([':'].intercalate pieces) = some (groups.map toHex) := by
  have hplain := plain_of_low h
  have hpieces : pieces.length = 8 := h.length_eq.trans hlen
  simp only [expandV6]
  rw [zoneless (zone_free h),splitDouble_intercalate hplain]
  simp [hextetsOf_intercalate hplain,not_any_hextet h,hpieces,map_toHex_parseHex h]

theorem expandV6_compressed (hb : List.Forall₂ Low before left) (ha : List.Forall₂ Low after right)
    {zeros : Nat} (hlen : left.length+zeros+right.length = 8) :
    expandV6 ([':'].intercalate before ++ ':' :: ':' :: [':'].intercalate after) =
      some ((left ++ List.replicate zeros 0 ++ right).map toHex) := by
  have hbefore := plain_of_low hb
  have hafter := plain_of_low ha
  have hzone : '%' ∉ [':'].intercalate before ++ ':' :: ':' :: [':'].intercalate after := by
    simp [zone_free hb,zone_free ha]
  have hmissing : (8 : Int)-before.length-after.length = zeros := by
    rw [hb.length_eq,ha.length_eq]
    omega
  simp only [expandV6]
  rw [zoneless hzone,splitDouble_between hbefore hafter]
  simp only [List.length_cons,List.length_nil,Nat.reduceAdd,if_true,List.getD_cons_zero,
    List.getD_cons_succ,hextetsOf_intercalate hbefore,hextetsOf_intercalate hafter,
    List.any_append,not_any_hextet hb,not_any_hextet ha,hmissing]
  simp only [List.map_append,map_toHex_parseHex hb,map_toHex_parseHex ha,List.map_replicate]
  have hzero : toHex (parseHex ['0']) = toHex 0 := rfl
  rw [hzero]
  simp

theorem low_map (h : List.Forall₂ Spells pieces groups) :
    List.Forall₂ Low (pieces.map (List.map Char.toLower)) groups :=
  List.forall₂_map_left_iff.mpr (h.imp fun _ _ h => h.low)

/-- Every spelling of an address is expanded to the same hextets. -/
theorem expandV6_spelling (h : Spelling a text) :
    expandV6 (text.map Char.toLower) = some (a.groups.map toHex) := by
  have hcolon : Char.toLower ':' = ':' := by decide
  cases h with
  | full pieces h =>
    rw [map_intercalate,hcolon]
    exact expandV6_full (low_map h) a.length_eq
  | compressed before after left right zeros hb ha hzeros hg =>
    have hlen := a.length_eq
    rw [hg,List.length_append,List.length_append,List.length_replicate] at hlen
    rw [List.map_append,List.map_cons,List.map_cons,map_intercalate,map_intercalate,hcolon,hg]
    exact expandV6_compressed (low_map hb) (low_map ha) hlen

/-- A character of a spelling: a colon or a digit. -/
def IsMark (c : Char) : Prop := c = ':' ∨ ∃ d, digitValue c = some d

theorem mark_of_mem (h : List.Forall₂ Spells pieces groups) {c : Char}
    (hc : c ∈ [':'].intercalate pieces) : IsMark c := by
  have hdigits := ((List.forall₂_and_left _ _).mp
    (h.imp fun digits _ h => ⟨fun c (hc : c ∈ digits) => h.digit hc,h⟩)).1
  obtain hc | ⟨piece,hp,hc⟩ := mem_intercalate hc
  · exact .inl hc
  · exact .inr (hdigits piece hp c hc)

theorem Spelling.mark (h : Spelling a text) {c : Char} (hc : c ∈ text) : IsMark c := by
  cases h with
  | full pieces h => exact mark_of_mem h hc
  | compressed before after left right zeros hb ha hzeros hg =>
    rcases List.mem_append.mp hc with hc | hc
    · exact mark_of_mem hb hc
    rcases List.mem_cons.mp hc with hc | hc
    · exact .inl hc
    rcases List.mem_cons.mp hc with hc | hc
    · exact .inl hc
    · exact mark_of_mem ha hc

theorem Spelling.colon (h : Spelling a text) : ':' ∈ text := by
  cases h with
  | full pieces h =>
    have hlen := h.length_eq.trans a.length_eq
    match pieces,hlen with
    | first :: second :: others,_ => simp [List.intercalate_cons_cons]
  | compressed => simp

/-- What the marks are not, in lower case or as they are. -/
theorem IsMark.plain {c : Char} (h : IsMark c) : c.toNat < 128 ∧ isSpace c = false ∧
    c.toLower ≠ '.' ∧ c.toLower ≠ '[' ∧ c.toLower ≠ ']' := by
  obtain rfl | ⟨d,hd⟩ := h
  · decide
  · obtain ⟨-,-,hplain⟩ := isLowerHex_ne (isLowerHex_toLower hd)
    exact ⟨lt_of_digitValue hd,isSpace_graphic (graphic_of_digitValue hd),hplain⟩

theorem stripBrackets_eq (h : ∀ c ∈ text, c ≠ '[' ∧ c ≠ ']') : stripBrackets text = text := by
  unfold stripBrackets
  dsimp only
  split
  · exact absurd rfl (h '[' List.mem_cons_self).1
  · exact if_neg fun hlast => (h _ (List.mem_of_getLast? hlast)).2 rfl

theorem v4Start_eq_none (h : '.' ∉ text) : v4Start text = none := by
  have hsplit : text.splitOn '.' = [text] := by
    have hfree : ∀ piece ∈ [text], '.' ∉ piece := by simpa using h
    simpa using List.splitOn_intercalate '.' hfree (by simp)
  rw [v4Start,hsplit]

theorem netGroupOf_spelling {lower : String → String} (hl : LowersAscii lower)
    (h : Spelling a text) (candidateType : Option String) :
    netGroupOf lower (some (String.ofList text)) candidateType =
      groupOfHextets candidateType (a.groups.map toHex) := by
  have hmarks : ∀ c ∈ text.map Char.toLower, c ≠ '.' ∧ c ≠ '[' ∧ c ≠ ']' := by
    intro c hc
    obtain ⟨c,hmem,rfl⟩ := List.mem_map.mp hc
    exact (h.mark hmem).plain.2.2
  have hdot : '.' ∉ text.map Char.toLower := fun hc => (hmarks _ hc).1 rfl
  have hcolon : ':' ∈ text.map Char.toLower := List.mem_map.mpr ⟨':',h.colon,by decide⟩
  have haddr : stripBrackets (lower (String.ofList (trim (String.ofList text).toList))).toList =
      text.map Char.toLower := by
    rw [String.toList_ofList,trim_eq_self fun c hc => (h.mark hc).plain.2.1,
      hl text fun c hc => (h.mark hc).plain.1,String.toList_ofList]
    exact stripBrackets_eq fun c hc => (hmarks c hc).2
  have hne : String.ofList text ≠ "" := by
    intro hempty
    have htext : text = [] := by simpa using congrArg String.toList hempty
    exact List.not_mem_nil (htext ▸ h.colon)
  have hlocal : ¬".local".toList.isSuffixOf (text.map Char.toLower) = true := by
    intro hsuffix
    exact hdot ((List.isSuffixOf_iff_suffix.mp hsuffix).subset (by decide))
  unfold netGroupOf
  dsimp only
  rw [if_neg hne,haddr,if_neg hlocal,v4Start_eq_none hdot]
  dsimp only
  rw [if_pos (by simpa using hcolon),expandV6_spelling h]

end

section
variable {g g' : Nat} {xs ys : List Nat} {a b : Address} {candidateType : Option String}

theorem parseHex_toHex (g : Nat) : digitsValue 16 (toHex g).toList = some g := by
  rw [toHex,String.toList_ofList]
  exact digitsValue_toDigits (by decide) (by decide) g

theorem colon_not_mem_toHex (g : Nat) : ':' ∉ (toHex g).toList := by
  intro hc
  obtain ⟨d,hd⟩ := digit_of_digitsValue (parseHex_toHex g) hc
  have hnone : digitValue ':' = none := by decide
  cases hnone.symm.trans hd

theorem toHex_injective : Function.Injective toHex := by
  intro g g' h
  have hvalue := parseHex_toHex g
  rw [h,parseHex_toHex g'] at hvalue
  exact (Option.some.inj hvalue).symm

theorem splitOn_joined (hne : xs ≠ []) :
    (joined (xs.map toHex)).toList.splitOn ':' = (xs.map toHex).map String.toList := by
  have hcolon : ":".toList = [':'] := rfl
  rw [joined,String.toList_intercalate,hcolon]
  refine List.splitOn_intercalate ':' ?_ (by simpa using hne)
  intro piece hp
  simp only [List.map_map,List.mem_map,Function.comp_apply] at hp
  obtain ⟨g,-,rfl⟩ := hp
  exact colon_not_mem_toHex g

/-- No two lists of groups are written the same. -/
theorem joined_inj (hx : xs ≠ []) (hy : ys ≠ [])
    (h : joined (xs.map toHex) = joined (ys.map toHex)) : xs = ys := by
  have hsplit := splitOn_joined hx
  rw [h,splitOn_joined hy] at hsplit
  have hhex := List.map_injective_iff.mpr (fun s t => String.toList_inj.mp) hsplit
  exact (List.map_injective_iff.mpr toHex_injective hhex).symm

theorem groupOfHextets_eq (hrelay : candidateType ≠ some "relay") {hextets : List String}
    (hlan : groupOfHextets candidateType hextets ≠ "lan") :
    groupOfHextets candidateType hextets = "v6:" ++ joined (hextets.take 3) := by
  unfold groupOfHextets at hlan ⊢
  rw [if_neg hrelay] at hlan ⊢
  dsimp only at hlan ⊢
  split at hlan
  · exact absurd rfl hlan
  · next hpublic => rw [if_neg hpublic]

theorem take_eq_iff_first48 : a.groups.take 3 = b.groups.take 3 ↔ a.first48 = b.first48 := by
  obtain ⟨as,ha,hasmall⟩ := a
  obtain ⟨bs,hb,hbsmall⟩ := b
  match as,ha,bs,hb with
  | [a0,a1,a2,a3,a4,a5,a6,a7],_,[b0,b1,b2,b3,b4,b5,b6,b7],_ =>
    simp only [List.mem_cons,List.not_mem_nil,or_false,forall_eq_or_imp,forall_eq] at hasmall hbsmall
    simp only [Address.first48,Address.bits,List.foldl_cons,List.foldl_nil,List.take_succ_cons,
      List.take_zero,List.cons.injEq,and_true]
    omega

/-- Every spelling of an address gives the same group; and outside of local networks and relays
two addresses are in the same group just when their first 48 bits are the same. -/
theorem netGroupOf_canonical (lower : String → String) (hl : LowersAscii lower) :
    (∀ a x y candidateType, Spelling a x → Spelling a y →
      netGroupOf lower (some (String.ofList x)) candidateType =
        netGroupOf lower (some (String.ofList y)) candidateType) ∧
    (∀ a b x y candidateType candidateType', Spelling a x → Spelling b y →
      candidateType ≠ some "relay" → candidateType' ≠ some "relay" →
      netGroupOf lower (some (String.ofList x)) candidateType ≠ "lan" →
      netGroupOf lower (some (String.ofList y)) candidateType' ≠ "lan" →
      (netGroupOf lower (some (String.ofList x)) candidateType =
        netGroupOf lower (some (String.ofList y)) candidateType' ↔ a.first48 = b.first48)) := by
  constructor
  · intro a x y candidateType hx hy
    rw [netGroupOf_spelling hl hx,netGroupOf_spelling hl hy]
  · intro a b x y candidateType candidateType' hx hy hr hr' hlan hlan'
    rw [netGroupOf_spelling hl hx] at hlan ⊢
    rw [netGroupOf_spelling hl hy] at hlan' ⊢
    rw [groupOfHextets_eq hr hlan,groupOfHextets_eq hr' hlan',String.append_right_inj,
      ← List.map_take,← List.map_take,← take_eq_iff_first48]
    refine ⟨joined_inj ?_ ?_,fun h => by rw [h]⟩
    · intro hnil
      have hlen := congrArg List.length hnil
      simp [a.length_eq] at hlen
    · intro hnil
      have hlen := congrArg List.length hnil
      simp [b.length_eq] at hlen

end

section Samples

def asciiLower (s : String) : String := String.ofList (s.toList.map Char.toLower)

theorem asciiLower_lowers : LowersAscii asciiLower := by
  intro cs _
  rw [asciiLower,String.toList_ofList]

def sampleAddress : Address := ⟨[0x2001,0xdb8,0xabcd,0,0,0,0,5],rfl,by decide⟩

def otherAddress : Address := ⟨[0x2001,0xdb8,0xabce,0,0,0,0,5],rfl,by decide⟩

instance (digits : List Char) (g : Nat) : Decidable (Spells digits g) :=
  inferInstanceAs (Decidable (_ ∧ _))

def shortText (third : String) : List Char :=
  [':'].intercalate ["2001".toList,"0DB8".toList,third.toList] ++ ':' :: ':' ::
    [':'].intercalate ["5".toList]

def fullText : List Char :=
  [':'].intercalate (["2001","db8","abcd","0","0","0","000","0005"].map String.toList)

theorem shortText_spelling {a : Address} {third : String} {g : Nat} (hg : Spells third.toList g)
    (ha : a.groups = [0x2001,0xdb8,g,0,0,0,0,5]) : Spelling a (shortText third) :=
  .compressed _ _ [0x2001,0xdb8,g] [5] 4
    (.cons (by decide +kernel) (.cons (by decide +kernel) (.cons hg .nil)))
    (.cons (by decide +kernel) .nil) (by decide) ha

theorem fullText_spelling : Spelling sampleAddress fullText := by
  refine .full _ ?_
  simp only [List.map_cons,List.map_nil,sampleAddress]
  repeat refine .cons (by decide +kernel) ?_
  exact .nil

theorem netGroupOf_canonical_sample :
    netGroupOf asciiLower (some (String.ofList (shortText "ABCD"))) none =
      netGroupOf asciiLower (some (String.ofList fullText)) none ∧
    (netGroupOf asciiLower (some (String.ofList (shortText "ABCD"))) none =
      netGroupOf asciiLower (some (String.ofList (shortText "ABCE"))) none ↔
        sampleAddress.first48 = otherAddress.first48) := by
  have hthis : Spelling sampleAddress (shortText "ABCD") :=
    shortText_spelling (by decide +kernel) rfl
  have hother : Spelling otherAddress (shortText "ABCE") :=
    shortText_spelling (by decide +kernel) rfl
  obtain ⟨hsame,hiff⟩ := netGroupOf_canonical asciiLower asciiLower_lowers
  exact ⟨hsame _ _ _ none hthis fullText_spelling,hiff _ _ _ _ none none hthis hother (by decide)
    (by decide) (by decide +kernel) (by decide +kernel)⟩

end Samples

end NetGroup
