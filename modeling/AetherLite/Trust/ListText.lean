import Mathlib.Algebra.Order.BigOperators.Group.List
import AetherLite.Trust.TrustedGuards

/-! What a list is signed as and written as: no two contents are signed as the same bytes, and
a written list is read back. -/
set_option autoImplicit false

namespace TrustedGuards

open Js NodeIdentity

section Message
variable {cfg : Config}

@[simp] theorem packed_eq_ok {v : Val} {bs : Bytes} :
    packed cfg v = .ok bs ↔ MsgPack.encode cfg.f v = some bs := by
  unfold packed
  cases MsgPack.encode cfg.f v <;> simp

theorem listMessage_ok {c : GuardListContent} {message : Bytes} :
    listMessage cfg c = .ok message ↔ ∃ body,
      MsgPack.encode cfg.f (.arr (listFields c)) = some body ∧ message = guardListDomain ++ body := by
  constructor
  · intro h
    obtain ⟨body,hbody,h⟩ := bind_ok h
    cases h
    exact ⟨body,packed_eq_ok.mp hbody,rfl⟩
  · rintro ⟨body,hbody,rfl⟩
    simp [listMessage,packed_eq_ok.mpr hbody,bind,Except.bind]

theorem nullifyAll_append (xs ys : List Val) :
    Val.nullifyAll (xs ++ ys) = Val.nullifyAll xs ++ Val.nullifyAll ys := by
  induction xs with
  | nil => rfl
  | cons x xs ih => simp [Val.nullifyAll,ih]

theorem nullifyAll_map {α : Type} {g : α → Val} (hg : ∀ a, (g a).nullify = g a) (as : List α) :
    Val.nullifyAll (as.map g) = as.map g := by
  induction as with
  | nil => rfl
  | cons a as ih => simp [Val.nullifyAll,hg,ih]

theorem portableAll_append {f : MsgPack.Float64} {xs ys : List Val} :
    MsgPack.PortableAll f (xs ++ ys) ↔ MsgPack.PortableAll f xs ∧ MsgPack.PortableAll f ys := by
  induction xs with
  | nil => simp [MsgPack.PortableAll]
  | cons x xs ih => simp [MsgPack.PortableAll,ih,and_assoc]

theorem portableAll_map {α : Type} {f : MsgPack.Float64} {g : α → Val}
    (hg : ∀ a, MsgPack.Portable f (g a)) (as : List α) : MsgPack.PortableAll f (as.map g) := by
  induction as with
  | nil => simp [MsgPack.PortableAll]
  | cons a as ih => simp [MsgPack.PortableAll,hg,ih]

theorem portable_ofNat {f : MsgPack.Float64} {n : Nat} (h : n ≤ maxSafeNat) :
    MsgPack.Portable f (.num (Number.ofNat n)) := by
  have hsafe : n ≤ 9007199254740991 := h
  simp [MsgPack.Portable,Number.toSafeInt?_ofNat,hsafe]

/-- The fields of a list are read back as they were. -/
theorem portable_listFields (f : MsgPack.Float64) (c : GuardListContent) :
    MsgPack.PortableAll f (listFields c) := by
  have hstrs : ∀ ss : List String, MsgPack.Portable f (.arr (ss.map .str)) := by
    intro ss
    simp only [MsgPack.Portable]
    exact portableAll_map (by simp [MsgPack.Portable]) ss
  simp [listFields,MsgPack.PortableAll,hstrs,portable_ofNat c.version_range.2,
    portable_ofNat c.issuedAt_range.2,portable_ofNat c.expiresAt_range.2,
    portable_ofNat (show 1 ≤ maxSafeNat by decide)]

theorem nullifyAll_listFields (c : GuardListContent) :
    Val.nullifyAll (listFields c) = listFields c := by
  have hstrs : ∀ ss : List String, Val.nullifyAll (ss.map .str) = ss.map .str := by
    intro ss
    exact nullifyAll_map (by simp [Val.nullify]) ss
  simp [listFields,Val.nullifyAll,Val.nullify,hstrs]

theorem ofNat_inj {m n : Nat} (h : Number.ofNat m = Number.ofNat n) : m = n := by
  simpa [Number.ofNat] using h

theorem listFields_inj {c c' : GuardListContent} (h : listFields c = listFields c') : c = c' := by
  have hstrs : Function.Injective (List.map Val.str) :=
    List.map_injective_iff.mpr fun _ _ hs => Val.str.inj hs
  simp only [listFields,List.cons.injEq,Val.num.injEq,Val.arr.injEq,and_true,true_and] at h
  obtain ⟨hv,hi,he,hg,hr⟩ := h
  have hv := ofNat_inj hv
  have hi := ofNat_inj hi
  have he := ofNat_inj he
  have hg := hstrs hg
  have hr := hstrs hr
  cases c
  cases c'
  simp_all

/-- No two contents are signed as the same bytes. -/
theorem listMessage_inj {c c' : GuardListContent} {message : Bytes}
    (h : listMessage cfg c = .ok message) (h' : listMessage cfg c' = .ok message) : c' = c := by
  obtain ⟨body,hbody,hm⟩ := listMessage_ok.mp h
  obtain ⟨body',hbody',hm'⟩ := listMessage_ok.mp h'
  have hsame : body = body' := List.append_cancel_left (hm.symm.trans hm')
  have hread := MsgPack.decode_encode hbody (by
    simpa only [MsgPack.Portable] using portable_listFields cfg.f c)
  have hread' := MsgPack.decode_encode hbody' (by
    simpa only [MsgPack.Portable] using portable_listFields cfg.f c')
  rw [← hsame,hread] at hread'
  simp only [Val.nullify,nullifyAll_listFields,Option.some.injEq,Val.arr.injEq] at hread'
  exact (listFields_inj hread').symm

end Message

section Text
variable {cfg : Config}

theorem safeNat?_ofNat {least n : Nat} (h : least ≤ n ∧ n ≤ maxSafeNat) :
    safeNat? least (.num (Number.ofNat n)) = some ⟨n,h⟩ := by
  have hsafe : n ≤ 9007199254740991 := h.2
  simp [safeNat?,PowPolicy.safeInteger?,Number.toSafeInt?_ofNat,hsafe,h]

theorem mapM_strOf? (ss : List String) : (ss.map Val.str).mapM strOf? = some ss := by
  induction ss with
  | nil => rfl
  | cons s ss ih => simp [List.mapM_cons,strOf?,ih]

theorem parseSigs_map (sigs : List (String × Bytes)) :
    parseSigs (sigs.map sigVal) = .ok (some sigs) := by
  induction sigs with
  | nil => rfl
  | cons e sigs ih => simp [parseSigs,sigVal,PowPolicy.toBytes,ih,bind,Except.bind]

theorem parseContent_listFields (c : GuardListContent) :
    parseContent (.num (Number.ofNat 1)) (.num (Number.ofNat c.version))
      (.num (Number.ofNat c.issuedAt)) (.num (Number.ofNat c.expiresAt)) (c.guards.map .str)
      (c.revoked.map .str) = some c := by
  have hone : (Val.num (Number.ofNat 1)).strictEq (.num (Number.ofNat 1)) = true := by decide
  simp only [parseContent,hone,safeNat?_ofNat c.version_range,safeNat?_ofNat c.issuedAt_range,
    safeNat?_ofNat c.expiresAt_range,mapM_strOf?,Option.bind_eq_bind,Option.bind_some]
  simp

theorem listText_ok {c : GuardListContent} {sigs : List (String × Bytes)} {text : String} :
    listText cfg c sigs = .ok text ↔ ∃ body,
      MsgPack.encode cfg.f (.arr (listFields c ++ [.arr (sigs.map sigVal)])) = some body ∧
      text = guardListPrefix ++ String.ofList (Base64.encode body) := by
  constructor
  · intro h
    obtain ⟨body,hbody,h⟩ := bind_ok h
    cases h
    exact ⟨body,packed_eq_ok.mp hbody,rfl⟩
  · rintro ⟨body,hbody,rfl⟩
    simp [listText,packed_eq_ok.mpr hbody,bind,Except.bind]

theorem guardListPrefix_graphic :
    ∀ c ∈ guardListPrefix.toList, 0x21 ≤ c.toNat ∧ c.toNat < 0x7f := by simp [guardListPrefix]

/-- A written list is graphic, so that nothing is trimmed and its length counts its letters. -/
theorem listText_graphic {c : GuardListContent} {sigs : List (String × Bytes)} {text : String}
    (h : listText cfg c sigs = .ok text) :
    ∀ ch ∈ text.toList, 0x21 ≤ ch.toNat ∧ ch.toNat < 0x7f := by
  obtain ⟨body,-,rfl⟩ := listText_ok.mp h
  intro ch hch
  rw [String.toList_append,String.toList_ofList,List.mem_append] at hch
  cases hch with
  | inl hch => exact guardListPrefix_graphic ch hch
  | inr hch => exact Base64.encode_graphic body ch hch

theorem trim_listText {c : GuardListContent} {sigs : List (String × Bytes)} {text : String}
    (h : listText cfg c sigs = .ok text) : String.ofList (trim text.toList) = text := by
  have hspace : ∀ ch ∈ text.toList, isSpace ch = false := by
    intro ch hch
    exact isSpace_graphic (listText_graphic h ch hch)
  rw [trim_eq_self hspace,String.ofList_toList]

/-- What a list with its signatures is written from. -/
def listVal (c : GuardListContent) (sigs : List (String × Bytes)) : Val :=
  .arr (listFields c ++ [.arr (sigs.map sigVal)])

theorem utf16Length_listText {c : GuardListContent} {sigs : List (String × Bytes)} {text : String}
    (h : listText cfg c sigs = .ok text) :
    utf16Length text = 14+(4*MsgPack.size (listVal c sigs)+2)/3 := by
  have hascii : ∀ ch ∈ text.toList, ch.val ≤ 0x7f := by
    intro ch hch
    have hlt : ch.toNat < 0x7f := (listText_graphic h ch hch).2
    rw [UInt32.le_iff_toNat_le]
    exact Nat.le_of_lt hlt
  rw [utf16Length_of_ascii hascii]
  obtain ⟨body,hbody,rfl⟩ := listText_ok.mp h
  have hhead : guardListPrefix.toList.length = 14 := by decide
  rw [String.toList_append,String.toList_ofList,List.length_append,hhead,Base64.length_encode,
    MsgPack.length_encode hbody,listVal]

/-- A list may be trimmed before it is read. -/
theorem decodeListString_trim {text : String} {r : GuardListContent × List (String × Bytes)}
    (h : decodeListString cfg text = .ok (some r)) :
    utf16Length text ≤ maxStringLength ∧
      decodeListString cfg (String.ofList (trim text.toList)) = .ok (some r) := by
  unfold decodeListString at h
  split at h
  · simp at h
  next rest hrest =>
  split at h
  · simp at h
  next hlen =>
  have htext := afterPrefix?_eq_some.mp hrest
  obtain ⟨c,cs,hhead⟩ : ∃ c cs, guardListPrefix.toList = c :: cs := ⟨_,_,rfl⟩
  have hspace : ∀ d ∈ c :: cs, isSpace d = false := by
    intro d hd
    rw [← hhead] at hd
    exact isSpace_graphic (guardListPrefix_graphic d hd)
  have htrim : trim text.toList = guardListPrefix.toList ++ trimEnd rest := by
    rw [htext,hhead,List.cons_append,trim_cons (hspace c List.mem_cons_self),
      trimEnd_append fun d hd => hspace d (List.mem_cons_of_mem c hd),List.cons_append]
  have hshort : utf16Length (String.ofList (trim text.toList)) ≤ utf16Length text := by
    simp only [utf16Length,String.toList_ofList,htrim]
    rw [htext]
    exact (((trimEnd_sublist rest).append_left _).map _).sum_le_sum (by simp)
  refine ⟨by omega,?_⟩
  unfold decodeListString
  rw [afterPrefix?_eq_some.mpr (by rw [String.toList_ofList,htrim])]
  dsimp only
  rw [if_neg (by omega),trim_trimEnd]
  exact h

/-- The decoder of msgpack reads back what is written. -/
def Unpacks (cfg : Config) : Prop :=
  ∀ v bs, MsgPack.encode cfg.f v = some bs → MsgPack.Portable cfg.f v → cfg.unpack bs = some v.nullify

/-- A list is read back as it was written, unless it is too long or has too many signatures. -/
theorem decodeListString_listText (hu : Unpacks cfg) {c : GuardListContent}
    {sigs : List (String × Bytes)} {text : String} (h : listText cfg c sigs = .ok text) :
    decodeListString cfg text = .ok (if utf16Length text ≤ maxStringLength ∧
      sigs.length ≤ maxSignatures then some (c,sigs) else none) := by
  obtain ⟨body,hbody,rfl⟩ := listText_ok.mp h
  have hportable : MsgPack.Portable cfg.f (.arr (listFields c ++ [.arr (sigs.map sigVal)])) := by
    simp only [MsgPack.Portable,portableAll_append]
    refine ⟨portable_listFields cfg.f c,?_⟩
    simp only [MsgPack.PortableAll,MsgPack.Portable,and_true]
    exact portableAll_map (by simp [sigVal,MsgPack.Portable,MsgPack.PortableAll]) sigs
  have hsigs : Val.nullifyAll (sigs.map sigVal) = sigs.map sigVal :=
    nullifyAll_map (by simp [sigVal,Val.nullify,Val.nullifyAll]) sigs
  have hread := hu _ _ hbody hportable
  have htrim : trim (Base64.encode body) = Base64.encode body :=
    trim_eq_self fun ch hch => isSpace_graphic (Base64.encode_graphic body ch hch)
  simp only [Val.nullify,nullifyAll_append,nullifyAll_listFields,Val.nullifyAll,hsigs] at hread
  simp only [listFields,List.cons_append,List.nil_append] at hread
  unfold decodeListString
  rw [afterPrefix?_append]
  dsimp only
  rw [htrim,Base64.decode_encode,Option.bind_some,hread]
  simp only [parseContent_listFields,List.length_map,parseSigs_map]
  by_cases hlen : utf16Length (guardListPrefix ++ String.ofList (Base64.encode body)) ≤ maxStringLength
  · by_cases hcount : sigs.length ≤ maxSignatures
    · simp [hlen,hcount,bind,Except.bind,Nat.not_lt.mpr]
    · simp [hlen,hcount,Nat.not_lt.mpr,Nat.not_le.mp hcount]
  · simp [hlen,Nat.not_le.mp hlen]

end Text

end TrustedGuards
