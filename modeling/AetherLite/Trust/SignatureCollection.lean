import Mathlib.Data.List.Dedup
import Mathlib.Data.List.Induction
import Mathlib.Data.List.Perm.Subperm
import AetherLite.Trust.ListVerification

/-! Signatures are collected on a list: what one maintainer after another makes of it, and
whether it then verifies. -/
set_option autoImplicit false

namespace TrustedGuards

open Js NodeIdentity MsgPack

def GuardListContent.raw (c : GuardListContent) : RawContent :=
  ⟨Number.ofNat c.version,Number.ofNat c.issuedAt,Number.ofNat c.expiresAt,c.guards,c.revoked⟩

section
variable (cfg : Config)

/-- The maintainers sign one after another. -/
def collect (content : RawContent) (text : String) : List Bytes → Except Thrown String
  | [] => .ok text
  | secretKey :: rest => do
    let text ← signGuardList cfg content secretKey (some text)
    collect content text rest

def Verifies (text : String) (keyset : MaintainerKeySet) (opts : VerifyOptions) : Prop :=
  ∃ version issuedAt expiresAt guards revoked, verifyGuardList cfg text keyset opts =
    .ok (.ok version issuedAt expiresAt guards revoked)

def signerId (secretKey : Bytes) : String := maintainerKeyId cfg (cfg.publicKeyOf secretKey)

/-- The signatures that are still there once these maintainers have signed. -/
def kept (sigs : List (String × Bytes)) (signed : List Bytes) : List (String × Bytes) :=
  sigs.filter fun e => e.1 ∉ signed.map (signerId cfg)

def signedCount (signed : List Bytes) : Nat := (signed.map (signerId cfg)).dedup.length

/-- The signatures of these maintainers have room on the list, a signature taking 84 bytes. -/
structure Room (c : GuardListContent) (sigs : List (String × Bytes)) (signed : List Bytes) :
    Prop where
  count : (kept cfg sigs signed).length+signedCount cfg signed ≤ maxSignatures
  length : 14+(4*(headSize (.arr 7)+sizeAll (listFields c)+
    headSize (.arr ((kept cfg sigs signed).length+signedCount cfg signed))+
    sizeAll ((kept cfg sigs signed).map sigVal)+84*signedCount cfg signed)+2)/3 ≤ maxStringLength

/-- There is room whenever a maintainer has signed. -/
def Fits (c : GuardListContent) (sigs : List (String × Bytes)) (secretKeys : List Bytes) : Prop :=
  ∀ signed, signed ≠ [] → signed <+: secretKeys → Room cfg c sigs signed

/-- A key signs now, or has signed the list before. -/
def Signer (c : GuardListContent) (sigs : List (String × Bytes)) (secretKeys : List Bytes)
    (key : Bytes) : Prop :=
  (∃ secretKey ∈ secretKeys, cfg.publicKeyOf secretKey = key) ∨
    ∃ message sig, listMessage cfg c = .ok message ∧ (maintainerKeyId cfg key,sig) ∈ sigs ∧
      sig.length = signatureBytes ∧ cfg.sodium.verifyDetached sig message key = true

/-- As many distinct keys of the keyset are signers as its threshold asks for. -/
def Enough (c : GuardListContent) (sigs : List (String × Bytes)) (secretKeys : List Bytes)
    (keyset : MaintainerKeySet) : Prop :=
  ∃ signers : List Bytes, signers.Nodup ∧ signers ⊆ keyset.keys ∧
    (∀ key ∈ signers, Signer cfg c sigs secretKeys key) ∧
    (Number.ofNat signers.length).lt keyset.threshold = false

/-- Beside its signatures, nothing stands against the list. -/
def Acceptable (c : GuardListContent) (keyset : MaintainerKeySet) (opts : VerifyOptions) : Prop :=
  (threshold? keyset).isSome = true ∧
    ∃ version issuedAt expiresAt guards revoked,
      checkContent cfg c opts = .ok (.ok version issuedAt expiresAt guards revoked)

/-- The packages do what they are for, and no two of these keys have the same id. -/
structure Reliable (keys secretKeys : List Bytes) : Prop where
  unpacks : Unpacks cfg
  signs : ∀ secretKey ∈ secretKeys, ∀ message, cfg.sodium.verifyDetached
    (cfg.sodium.signDetached message secretKey) message (cfg.publicKeyOf secretKey) = true
  signature_length : ∀ secretKey ∈ secretKeys, ∀ message,
    (cfg.sodium.signDetached message secretKey).length = signatureBytes
  hash_length : ∀ bs, (cfg.sodium.sha256 bs).length = 32
  ids : ∀ k ∈ keys ++ secretKeys.map cfg.publicKeyOf,
    ∀ k' ∈ keys ++ secretKeys.map cfg.publicKeyOf,
      maintainerKeyId cfg k = maintainerKeyId cfg k' → k = k'

end

section Sizes

theorem packable_fields {d : Nat} (c : GuardListContent) (x : Val) (h : x ∈ listFields c) :
    0 < size x ∧ (size x < 0x100000000 → packable (d+2) x = true) := by
  have hstrs : ∀ (ss : List String) (y : Val), y ∈ ss.map .str →
      0 < size y ∧ (size y < 0x100000000 → packable (d+1) y = true) := by
    intro ss y hy
    obtain ⟨s,-,rfl⟩ := List.mem_map.mp hy
    exact packable_str s
  simp only [listFields,List.mem_cons,List.not_mem_nil,or_false] at h
  rcases h with rfl | rfl | rfl | rfl | rfl | rfl
  · exact packable_num _
  · exact packable_num _
  · exact packable_num _
  · exact packable_num _
  · exact packable_arr (hstrs c.guards)
  · exact packable_arr (hstrs c.revoked)

theorem packable_sigVal {d : Nat} (e : String × Bytes) :
    0 < size (sigVal e) ∧ (size (sigVal e) < 0x100000000 → packable (d+2) (sigVal e) = true) := by
  refine packable_arr ?_
  intro x hx
  simp only [List.mem_cons,List.not_mem_nil,or_false] at hx
  rcases hx with rfl | rfl
  · exact packable_str e.1
  · exact packable_bytes e.2

theorem packable_listVal (c : GuardListContent) (sigs : List (String × Bytes))
    (h : size (listVal c sigs) < 0x100000000) : packable maxDepth (listVal c sigs) = true := by
  refine (packable_arr ?_).2 h
  intro x hx
  rcases List.mem_append.mp hx with hx | hx
  · exact packable_fields c x hx
  · obtain rfl := List.mem_singleton.mp hx
    refine packable_arr ?_
    intro y hy
    obtain ⟨e,-,rfl⟩ := List.mem_map.mp hy
    exact packable_sigVal e

theorem size_listVal (c : GuardListContent) (sigs : List (String × Bytes)) :
    size (listVal c sigs) = headSize (.arr 7)+sizeAll (listFields c)+
      headSize (.arr sigs.length)+sizeAll (sigs.map sigVal) := by
  have hseven : (listFields c ++ [Val.arr (sigs.map sigVal)]).length = 7 := rfl
  rw [listVal,size,hseven,sizeAll_append]
  simp only [sizeAll,size,List.length_map]
  omega

end Sizes

section Texts
variable {cfg : Config} {c : GuardListContent} {sigs : List (String × Bytes)} {text : String}

/-- The signatures with which a list is still read. -/
structure Small (c : GuardListContent) (sigs : List (String × Bytes)) : Prop where
  count : sigs.length ≤ maxSignatures
  length : 14+(4*size (listVal c sigs)+2)/3 ≤ maxStringLength

structure Reads (cfg : Config) (text : String) (c : GuardListContent)
    (sigs : List (String × Bytes)) : Prop where
  short : utf16Length text ≤ maxStringLength
  decoded : decodeListString cfg text = .ok (some (c,sigs))
  trimmed : decodeListString cfg (String.ofList (trim text.toList)) = .ok (some (c,sigs))

theorem reads_of_decoded (h : decodeListString cfg text = .ok (some (c,sigs))) :
    Reads cfg text c sigs := by
  obtain ⟨hshort,htrimmed⟩ := decodeListString_trim h
  exact ⟨hshort,h,htrimmed⟩

theorem listText_of_size (h : size (listVal c sigs) < 0x100000000) :
    ∃ text, listText cfg c sigs = .ok text := by
  have hencode : MsgPack.encode cfg.f (listVal c sigs) = some (pack cfg.f (listVal c sigs)) := by
    rw [MsgPack.encode,if_pos (packable_listVal c sigs h)]
  exact ⟨_,listText_ok.mpr ⟨_,hencode,rfl⟩⟩

theorem listText_of_small (h : Small c sigs) : ∃ text, listText cfg c sigs = .ok text := by
  have hlen := h.length
  simp only [maxStringLength] at hlen
  exact listText_of_size (by omega)

/-- What is signed is shorter than what is written. -/
theorem listMessage_of_small (h : Small c sigs) : ∃ message, listMessage cfg c = .ok message := by
  have hlen := h.length
  simp only [maxStringLength] at hlen
  have hsize := size_listVal c sigs
  have hhead : headSize (.arr (listFields c).length) = headSize (.arr 7) := rfl
  have hfields : size (.arr (listFields c)) < 0x100000000 := by
    rw [size,hhead]
    omega
  have hpack : packable maxDepth (.arr (listFields c)) = true :=
    (packable_arr (packable_fields c)).2 hfields
  have hencode : MsgPack.encode cfg.f (.arr (listFields c)) = some (pack cfg.f (.arr (listFields c))) := by
    rw [MsgPack.encode,if_pos hpack]
  exact ⟨_,listMessage_ok.mpr ⟨_,hencode,rfl⟩⟩

theorem decoded_of_listText (hu : Unpacks cfg) (h : listText cfg c sigs = .ok text) :
    (Small c sigs → Reads cfg text c sigs) ∧
      (¬Small c sigs → decodeListString cfg text = .ok none ∧
        decodeListString cfg (String.ofList (trim text.toList)) = .ok none) := by
  have hlength := utf16Length_listText h
  have hdecode := decodeListString_listText hu h
  rw [trim_listText h,hdecode,hlength]
  constructor
  · intro hs
    rw [if_pos ⟨by rw [hlength]; exact hs.length,hs.count⟩] at hdecode
    exact reads_of_decoded hdecode
  · intro hs
    rw [if_neg fun hboth => hs ⟨hboth.2,hboth.1⟩]
    exact ⟨rfl,rfl⟩

theorem not_verifies_of_decoded {keyset : MaintainerKeySet} {opts : VerifyOptions}
    (h : decodeListString cfg (String.ofList (trim text.toList)) = .ok none) :
    ¬Verifies cfg text keyset opts := by
  rintro ⟨version,issuedAt,expiresAt,guards,revoked,hv⟩
  obtain ⟨content,sigs,-,-,hdecoded,-⟩ := verifyGuardList_ok hv
  rw [h] at hdecoded
  cases hdecoded

/-- The signatures are enough for this keyset, and nothing else stands against the list. -/
def Sufficient (cfg : Config) (c : GuardListContent) (sigs : List (String × Bytes))
    (keyset : MaintainerKeySet) (opts : VerifyOptions) : Prop :=
  ∃ threshold message version issuedAt expiresAt guards revoked,
    threshold? keyset = some threshold ∧ listMessage cfg c = .ok message ∧
    threshold ≤ (validSigners cfg (keysById cfg keyset.keys) message sigs []).length ∧
    checkContent cfg c opts = .ok (.ok version issuedAt expiresAt guards revoked)

theorem verifies_iff {keyset : MaintainerKeySet} {opts : VerifyOptions}
    (h : Reads cfg text c sigs) :
    Verifies cfg text keyset opts ↔ Sufficient cfg c sigs keyset opts := by
  constructor
  · rintro ⟨version,issuedAt,expiresAt,guards,revoked,hv⟩
    obtain ⟨content,sigs',threshold,message,hdecoded,hthreshold,hmessage,henough,hcontent⟩ :=
      verifyGuardList_ok hv
    rw [h.trimmed] at hdecoded
    cases hdecoded
    exact ⟨threshold,message,version,issuedAt,expiresAt,guards,revoked,hthreshold,hmessage,henough,
      hcontent⟩
  · rintro ⟨threshold,message,version,issuedAt,expiresAt,guards,revoked,hthreshold,hmessage,henough,
      hcontent⟩
    refine ⟨version,issuedAt,expiresAt,guards,revoked,?_⟩
    rw [verifyGuardList,if_neg (Nat.not_lt.mpr h.short),h.trimmed]
    simp [hthreshold,hmessage,Nat.not_lt.mpr henough,hcontent,bind,Except.bind]

theorem ne_empty_of_decoded {r : GuardListContent × List (String × Bytes)}
    (h : decodeListString cfg text = .ok (some r)) : text ≠ "" := by
  rintro rfl
  have hnone : decodeListString cfg "" = .ok none := by
    simp [decodeListString,afterPrefix?,guardListPrefix]
  rw [hnone] at h
  cases h

theorem ne_empty_of_listText (h : listText cfg c sigs = .ok text) : text ≠ "" := by
  rintro rfl
  have hlength := utf16Length_listText h
  have hzero : utf16Length "" = 0 := by simp [utf16Length]
  omega

/-- On a list of this content the next signature is put. -/
theorem signGuardList_eq {message : Bytes} (h : Reads cfg text c sigs)
    (hmessage : listMessage cfg c = .ok message) (hshape : validateContentShape c.raw = .ok c)
    (secretKey : Bytes) : signGuardList cfg c.raw secretKey (some text) =
      listText cfg c (addSignature cfg message secretKey sigs) := by
  have hexisting : existingSigs cfg message (some text) = .ok sigs := by
    unfold existingSigs
    split
    · next heq => cases heq
    · next heq =>
      cases heq
      exact absurd rfl (ne_empty_of_decoded h.decoded)
    · next text' _ heq =>
      cases heq
      simp [h.decoded,hmessage,bind,Except.bind]
  simp [signGuardList,hshape,hmessage,hexisting,bind,Except.bind]

theorem signGuardList_unread (hne : text ≠ "") (h : decodeListString cfg text = .ok none)
    (content : RawContent) (secretKey : Bytes) (signed : String) :
    signGuardList cfg content secretKey (some text) ≠ .ok signed := by
  intro hsigned
  obtain ⟨c',-,hsigned⟩ := bind_ok hsigned
  obtain ⟨message,-,hsigned⟩ := bind_ok hsigned
  obtain ⟨sigs',hexisting,-⟩ := bind_ok hsigned
  unfold existingSigs at hexisting
  split at hexisting
  · next heq => cases heq
  · next heq =>
    cases heq
    exact hne rfl
  · next text' _ heq =>
    cases heq
    simp [h,bind,Except.bind] at hexisting

/-- A content that is accepted has the shape that may be signed. -/
theorem shape_of_checkContent {opts : VerifyOptions} {version issuedAt expiresAt : Nat}
    {guards : List TrustedGuard} {revoked : List String}
    (h : checkContent cfg c opts = .ok (.ok version issuedAt expiresAt guards revoked)) :
    validateContentShape c.raw = .ok c := by
  have hcounts : ¬(maxGuards < c.guards.length ∨ maxRevoked < c.revoked.length) := by
    intro hmany
    unfold checkContent at h
    split_ifs at h <;> simp at h
  obtain ⟨rfl,rfl,rfl,-,-,-,-,hlt,hvalidity,-⟩ := checkContent_ok h
  rw [validateContentShape,GuardListContent.raw]
  simp only [safeNat?_ofNat c.version_range,safeNat?_ofNat c.issuedAt_range,
    safeNat?_ofNat c.expiresAt_range]
  rw [if_neg (by omega),if_neg (by omega),if_neg (by omega),if_neg (by omega)]

end Texts

section Run
variable {cfg : Config} {c : GuardListContent} {message : Bytes}

def sigsAfter (cfg : Config) (message : Bytes) (sigs : List (String × Bytes))
    (secretKeys : List Bytes) : List (String × Bytes) :=
  secretKeys.foldl (fun sigs secretKey => addSignature cfg message secretKey sigs) sigs

theorem shape_eq {c' : GuardListContent} (h : validateContentShape c.raw = .ok c') : c = c' := by
  rw [validateContentShape,GuardListContent.raw] at h
  simp only [safeNat?_ofNat c.version_range,safeNat?_ofNat c.issuedAt_range,
    safeNat?_ofNat c.expiresAt_range] at h
  split_ifs at h
  exact Except.ok.inj h

theorem not_collect_of_shape (h : validateContentShape c.raw ≠ .ok c) {text result : String}
    {secretKey : Bytes} {rest : List Bytes} :
    collect cfg c.raw text (secretKey :: rest) ≠ .ok result := by
  intro hcollect
  obtain ⟨next,hnext,-⟩ := bind_ok hcollect
  obtain ⟨c',hc',-⟩ := bind_ok hnext
  obtain rfl := shape_eq hc'
  exact h hc'

/-- A list that cannot be read any more neither verifies nor is signed again. -/
theorem not_verifies_of_unread (hu : Unpacks cfg) {keyset : MaintainerKeySet}
    {opts : VerifyOptions} {sigs : List (String × Bytes)} (hsmall : ¬Small c sigs) {text : String}
    (h : listText cfg c sigs = .ok text) (secretKeys : List Bytes) {result : String}
    (hcollect : collect cfg c.raw text secretKeys = .ok result) :
    ¬Verifies cfg result keyset opts := by
  obtain ⟨hdecoded,htrimmed⟩ := (decoded_of_listText hu h).2 hsmall
  cases secretKeys with
  | nil =>
    obtain rfl := Except.ok.inj hcollect
    exact not_verifies_of_decoded htrimmed
  | cons secretKey rest =>
    obtain ⟨next,hnext,-⟩ := bind_ok hcollect
    exact absurd hnext (signGuardList_unread (ne_empty_of_listText h) hdecoded c.raw secretKey next)

/-- The prefixes of the maintainers, the first one taken off. -/
theorem small_cons {sigs : List (String × Bytes)} {secretKey : Bytes} {rest : List Bytes}
    (hsmall : Small c (addSignature cfg message secretKey sigs)) :
    (∀ signed, signed ≠ [] → signed <+: secretKey :: rest →
        Small c (sigsAfter cfg message sigs signed)) ↔
      ∀ signed, signed ≠ [] → signed <+: rest →
        Small c (sigsAfter cfg message (addSignature cfg message secretKey sigs) signed) := by
  constructor
  · intro h signed _ hpre
    exact h (secretKey :: signed) (by simp) (List.prefix_cons_inj secretKey |>.mpr hpre)
  · intro h signed hne hpre
    rcases List.prefix_cons_iff.mp hpre with rfl | ⟨tail,rfl,htail⟩
    · exact absurd rfl hne
    · by_cases hnil : tail = []
      · subst hnil
        exact hsmall
      · exact h tail hnil htail

theorem collect_verifies_of_sigs (hu : Unpacks cfg) {keyset : MaintainerKeySet}
    {opts : VerifyOptions} (hmessage : listMessage cfg c = .ok message) (secretKeys : List Bytes)
    {text : String} {sigs : List (String × Bytes)} (h : Reads cfg text c sigs) :
    (∃ result, collect cfg c.raw text secretKeys = .ok result ∧ Verifies cfg result keyset opts) ↔
      (∀ signed, signed ≠ [] → signed <+: secretKeys → Small c (sigsAfter cfg message sigs signed)) ∧
        Sufficient cfg c (sigsAfter cfg message sigs secretKeys) keyset opts := by
  induction secretKeys generalizing text sigs with
  | nil =>
    have hnil : ∀ signed : List Bytes, signed ≠ [] → signed <+: [] →
        Small c (sigsAfter cfg message sigs signed) :=
      fun signed hne hpre => absurd (List.prefix_nil.mp hpre) hne
    have hself : (∃ result, collect cfg c.raw text [] = .ok result ∧ Verifies cfg result keyset opts) ↔
        Verifies cfg text keyset opts := by simp [collect]
    rw [hself,verifies_iff h]
    exact ⟨fun hs => ⟨hnil,hs⟩,fun hs => hs.2⟩
  | cons secretKey rest ih =>
    by_cases hshape : validateContentShape c.raw = .ok c
    · by_cases hsmall : Small c (addSignature cfg message secretKey sigs)
      · obtain ⟨next,hnext⟩ : ∃ next, listText cfg c (addSignature cfg message secretKey sigs) =
            .ok next := listText_of_small hsmall
        have hreads := (decoded_of_listText hu hnext).1 hsmall
        have hstep : collect cfg c.raw text (secretKey :: rest) = collect cfg c.raw next rest := by
          rw [collect,signGuardList_eq h hmessage hshape,hnext]
          rfl
        rw [hstep,ih hreads,small_cons hsmall]
        rfl
      · constructor
        · rintro ⟨result,hcollect,hv⟩
          rw [collect,signGuardList_eq h hmessage hshape] at hcollect
          obtain ⟨next,hnext,hcollect⟩ := bind_ok hcollect
          exact absurd hv (not_verifies_of_unread hu hsmall hnext rest hcollect)
        · rintro ⟨hall,-⟩
          exact absurd (hall [secretKey] (by simp) (by simp)) hsmall
    · constructor
      · rintro ⟨result,hcollect,-⟩
        exact absurd hcollect (not_collect_of_shape hshape)
      · rintro ⟨-,threshold,message,version,issuedAt,expiresAt,guards,revoked,-,-,-,hcontent⟩
        exact absurd (shape_of_checkContent hcontent) hshape

end Run

section Merging
variable {cfg : Config} {message : Bytes}

/-- What signing has made of the signatures: those that stay, and one of each maintainer. -/
structure Merged (cfg : Config) (message : Bytes) (sigs : List (String × Bytes))
    (signed : List Bytes) (news : List (String × Bytes)) : Prop where
  eq : sigsAfter cfg message sigs signed = kept cfg sigs signed ++ news
  nodup : (news.map Prod.fst).Nodup
  ids : ∀ id, id ∈ news.map Prod.fst ↔ id ∈ signed.map (signerId cfg)
  signatures : ∀ e ∈ news, ∃ secretKey ∈ signed,
    e = (signerId cfg secretKey,cfg.sodium.signDetached message secretKey)

theorem kept_append (sigs : List (String × Bytes)) (signed : List Bytes) (secretKey : Bytes) :
    kept cfg sigs (signed ++ [secretKey]) =
      (kept cfg sigs signed).filter fun e => e.1 ≠ signerId cfg secretKey := by
  simp only [kept,List.filter_filter]
  refine List.filter_congr ?_
  intro e _
  simp [and_comm]

theorem merged (sigs : List (String × Bytes)) (signed : List Bytes) :
    ∃ news, Merged cfg message sigs signed news := by
  induction signed using List.reverseRecOn with
  | nil => exact ⟨[],by simp [sigsAfter,kept],by simp,by simp,by simp⟩
  | append_singleton signed secretKey ih =>
    obtain ⟨news,hm⟩ := ih
    have hsplit : sigsAfter cfg message sigs (signed ++ [secretKey]) =
        addSignature cfg message secretKey (sigsAfter cfg message sigs signed) := by
      simp [sigsAfter]
    refine ⟨news.filter (fun e => e.1 ≠ signerId cfg secretKey) ++
      [(signerId cfg secretKey,cfg.sodium.signDetached message secretKey)],?_,?_,?_,?_⟩
    · rw [hsplit,addSignature,hm.eq,List.filter_append,kept_append,List.append_assoc]
      rfl
    · have hfilter : ((news.filter fun e => e.1 ≠ signerId cfg secretKey).map Prod.fst).Nodup :=
        hm.nodup.sublist (List.Sublist.map _ List.filter_sublist)
      rw [List.map_append,List.nodup_append]
      refine ⟨hfilter,by simp,?_⟩
      simp
    · intro id
      have hid := hm.ids id
      simp only [List.map_append,List.mem_append,← hid]
      by_cases heq : id = signerId cfg secretKey
      · simp [heq]
      · simp only [List.mem_map,List.mem_filter]
        constructor
        · intro hmem
          obtain ⟨e,⟨he,-⟩,hfst⟩ | hlast := hmem
          · exact .inl ⟨e,he,hfst⟩
          · exact absurd (by simpa using hlast) (Ne.symm heq)
        · intro hmem
          obtain ⟨e,he,hfst⟩ | hlast := hmem
          · exact .inl ⟨e,⟨he,by simpa [hfst] using heq⟩,hfst⟩
          · exact absurd (by simpa using hlast) (Ne.symm heq)
    · intro e he
      rcases List.mem_append.mp he with he | he
      · obtain ⟨sk,hsk,rfl⟩ := hm.signatures e (List.mem_filter.mp he).1
        exact ⟨sk,List.mem_append_left _ hsk,rfl⟩
      · exact ⟨secretKey,by simp,by simpa using he⟩

theorem Merged.length {sigs news : List (String × Bytes)} {signed : List Bytes}
    (hm : Merged cfg message sigs signed news) : news.length = signedCount cfg signed := by
  have hperm : (news.map Prod.fst).Perm (signed.map (signerId cfg)).dedup :=
    (List.perm_ext_iff_of_nodup hm.nodup (List.nodup_dedup _)).mpr (by simpa using hm.ids)
  simpa [signedCount] using hperm.length_eq

theorem utf8_id_length {keys secretKeys : List Bytes} (hr : Reliable cfg keys secretKeys)
    (key : Bytes) : (Bytes.utf8 (maintainerKeyId cfg key)).length = 16 := by
  rw [maintainerKeyId,Bytes.utf8_toHex_length,List.length_take,hr.hash_length]
  rfl

theorem Merged.size {keys secretKeys : List Bytes} (hr : Reliable cfg keys secretKeys)
    {sigs news : List (String × Bytes)} {signed : List Bytes}
    (hm : Merged cfg message sigs signed news) (hsub : signed ⊆ secretKeys) :
    sizeAll (news.map sigVal) = 84*signedCount cfg signed := by
  rw [← hm.length]
  have hone : ∀ e ∈ news, MsgPack.size (sigVal e) = 84 := by
    intro e he
    obtain ⟨secretKey,hsk,rfl⟩ := hm.signatures e he
    have hid : (Bytes.utf8 (signerId cfg secretKey)).length = 16 := utf8_id_length hr _
    have hsig := hr.signature_length secretKey (hsub hsk) message
    simp only [sigVal,MsgPack.size,sizeAll,hid,hsig,signatureBytes]
    rfl
  clear hm
  induction news with
  | nil => simp [sizeAll]
  | cons e news ih =>
    simp only [List.map_cons,sizeAll,List.length_cons,hone e List.mem_cons_self,
      ih fun d hd => hone d (List.mem_cons_of_mem e hd)]
    omega

theorem small_sigsAfter {keys secretKeys : List Bytes} (hr : Reliable cfg keys secretKeys)
    {c : GuardListContent} {sigs : List (String × Bytes)} {signed : List Bytes}
    (hsub : signed ⊆ secretKeys) :
    Small c (sigsAfter cfg message sigs signed) ↔ Room cfg c sigs signed := by
  obtain ⟨news,hm⟩ : ∃ news, Merged cfg message sigs signed news := merged sigs signed
  have hlen : (sigsAfter cfg message sigs signed).length =
      (kept cfg sigs signed).length+signedCount cfg signed := by
    rw [hm.eq,List.length_append,hm.length]
  have hsize : MsgPack.size (listVal c (sigsAfter cfg message sigs signed)) =
      headSize (.arr 7)+sizeAll (listFields c)+
        headSize (.arr ((kept cfg sigs signed).length+signedCount cfg signed))+
        sizeAll ((kept cfg sigs signed).map sigVal)+84*signedCount cfg signed := by
    rw [size_listVal,hlen,hm.eq,List.map_append,sizeAll_append,hm.size hr hsub]
    omega
  constructor
  · intro hs
    exact ⟨by rw [← hlen]; exact hs.count,by rw [← hsize]; exact hs.length⟩
  · intro hroom
    exact ⟨by rw [hlen]; exact hroom.count,by rw [hsize]; exact hroom.length⟩

theorem Reliable.get_keysById {keys secretKeys : List Bytes} (hr : Reliable cfg keys secretKeys)
    {key : Bytes} (h : key ∈ keys) :
    JsMap.get (keysById cfg keys) (maintainerKeyId cfg key) = some key := by
  have hsome : (JsMap.get (keysById cfg keys) (maintainerKeyId cfg key)).isSome = true :=
    keysById_isSome h
  obtain ⟨found,hfound⟩ := Option.isSome_iff_exists.mp hsome
  obtain ⟨hmem,hid⟩ := keysById_get hfound
  rw [hfound,hr.ids found (List.mem_append_left _ hmem) key (List.mem_append_left _ h) hid]

/-- Who signs under the id of a key of the keyset has that key. -/
theorem Reliable.publicKeyOf_eq {keys secretKeys : List Bytes} (hr : Reliable cfg keys secretKeys)
    {key secretKey : Bytes} (hkey : key ∈ keys) (hsk : secretKey ∈ secretKeys)
    (hid : signerId cfg secretKey = maintainerKeyId cfg key) : cfg.publicKeyOf secretKey = key :=
  hr.ids _ (List.mem_append_right _ (List.mem_map_of_mem hsk)) key (List.mem_append_left _ hkey) hid

/-- Signing takes no signer away and adds those who sign. -/
theorem counts_sigsAfter {keys secretKeys : List Bytes} (hr : Reliable cfg keys secretKeys)
    {c : GuardListContent} (hmessage : listMessage cfg c = .ok message)
    {sigs : List (String × Bytes)} {key : Bytes} (hkey : key ∈ keys) :
    Counts cfg (keysById cfg keys) message (sigsAfter cfg message sigs secretKeys)
        (maintainerKeyId cfg key) ↔ Signer cfg c sigs secretKeys key := by
  obtain ⟨news,hm⟩ : ∃ news, Merged cfg message sigs secretKeys news := merged sigs secretKeys
  have hget := hr.get_keysById hkey
  have hnew : ∀ secretKey ∈ secretKeys, signerId cfg secretKey = maintainerKeyId cfg key →
      Counts cfg (keysById cfg keys) message (sigsAfter cfg message sigs secretKeys)
        (maintainerKeyId cfg key) := by
    intro secretKey hsk hid
    have hmem : maintainerKeyId cfg key ∈ news.map Prod.fst :=
      (hm.ids _).mpr (List.mem_map.mpr ⟨secretKey,hsk,hid⟩)
    obtain ⟨⟨id,sig⟩,he,hsame⟩ := List.mem_map.mp hmem
    obtain ⟨signer,hsigner,hentry⟩ := hm.signatures _ he
    obtain ⟨rfl,rfl⟩ := Prod.mk.inj hentry
    have hpk := hr.publicKeyOf_eq hkey hsigner hsame
    refine ⟨key,_,hget,?_,hr.signature_length signer hsigner message,?_⟩
    · rw [hm.eq,← hsame]
      exact List.mem_append_right _ he
    · rw [← hpk]
      exact hr.signs signer hsigner message
  constructor
  · rintro ⟨found,sig,hfound,hmem,hlen,hv⟩
    rw [hget] at hfound
    obtain rfl := Option.some.inj hfound
    rw [hm.eq,List.mem_append] at hmem
    cases hmem with
    | inl hkept => exact .inr ⟨message,sig,hmessage,(List.mem_filter.mp hkept).1,hlen,hv⟩
    | inr hnews =>
      obtain ⟨signer,hsigner,hentry⟩ := hm.signatures _ hnews
      exact .inl ⟨signer,hsigner,hr.publicKeyOf_eq hkey hsigner (Prod.mk.inj hentry).1.symm⟩
  · rintro (⟨signer,hsigner,rfl⟩ | ⟨message',sig,hmessage',hmem,hlen,hv⟩)
    · exact hnew signer hsigner rfl
    · obtain rfl : message = message' := Except.ok.inj (hmessage.symm.trans hmessage')
      by_cases hid : maintainerKeyId cfg key ∈ secretKeys.map (signerId cfg)
      · obtain ⟨signer,hsigner,hid⟩ := List.mem_map.mp hid
        exact hnew signer hsigner hid
      · refine ⟨key,sig,hget,?_,hlen,hv⟩
        rw [hm.eq]
        exact List.mem_append_left _ (List.mem_filter.mpr ⟨hmem,by simpa using hid⟩)

/-- The signers the code counts are as many as there are keys that have signed. -/
theorem enough_iff {secretKeys : List Bytes} {keyset : MaintainerKeySet}
    (hr : Reliable cfg keyset.keys secretKeys) {c : GuardListContent}
    (hmessage : listMessage cfg c = .ok message) {sigs : List (String × Bytes)} {threshold : Nat}
    (hthreshold : threshold? keyset = some threshold) :
    threshold ≤ (validSigners cfg (keysById cfg keyset.keys) message
      (sigsAfter cfg message sigs secretKeys) []).length ↔ Enough cfg c sigs secretKeys keyset := by
  have hle : ∀ n : Nat, (Number.ofNat n).lt keyset.threshold = false ↔ threshold ≤ n := by
    intro n
    rw [(threshold?_eq_some hthreshold).1]
    simp [Number.ofNat,Number.lt]
  have hmem : ∀ id, id ∈ validSigners cfg (keysById cfg keyset.keys) message
      (sigsAfter cfg message sigs secretKeys) [] ↔ Counts cfg (keysById cfg keyset.keys) message
        (sigsAfter cfg message sigs secretKeys) id := by
    intro id
    rw [mem_validSigners]
    simp
  constructor
  · intro h
    obtain ⟨signers,hids,hn,hsub,-⟩ := signers_are_keys
      (validSigners_nodup (sigsAfter cfg message sigs secretKeys) List.nodup_nil)
      fun id hid => (hmem id).mp hid
    rw [← hids,List.length_map] at h
    refine ⟨signers,hn,hsub,?_,(hle _).mpr h⟩
    intro key hkey
    refine (counts_sigsAfter hr hmessage (hsub hkey)).mp ((hmem _).mp ?_)
    rw [← hids]
    exact List.mem_map_of_mem hkey
  · rintro ⟨signers,hn,hsub,hsigners,hcount⟩
    have hids : (signers.map (maintainerKeyId cfg)).Nodup := by
      refine hn.map_on ?_
      intro k hk k' hk' heq
      exact hr.ids k (List.mem_append_left _ (hsub hk)) k' (List.mem_append_left _ (hsub hk')) heq
    have hcounted : signers.map (maintainerKeyId cfg) ⊆ validSigners cfg
        (keysById cfg keyset.keys) message (sigsAfter cfg message sigs secretKeys) [] := by
      intro id hid
      obtain ⟨key,hkey,rfl⟩ := List.mem_map.mp hid
      exact (hmem _).mpr ((counts_sigsAfter hr hmessage (hsub hkey)).mpr (hsigners key hkey))
    have hlen := (List.subperm_of_subset hids hcounted).length_le
    rw [List.length_map] at hlen
    exact ((hle _).mp hcount).trans hlen

end Merging

section Collection
variable {cfg : Config} {c : GuardListContent} {sigs : List (String × Bytes)}

theorem sufficient_iff {secretKeys : List Bytes} {keyset : MaintainerKeySet} {opts : VerifyOptions}
    {message : Bytes} (hr : Reliable cfg keyset.keys secretKeys)
    (hmessage : listMessage cfg c = .ok message) :
    Sufficient cfg c (sigsAfter cfg message sigs secretKeys) keyset opts ↔
      Acceptable cfg c keyset opts ∧ Enough cfg c sigs secretKeys keyset := by
  constructor
  · rintro ⟨threshold,message',version,issuedAt,expiresAt,guards,revoked,hthreshold,hmessage',henough,
      hcontent⟩
    obtain rfl : message = message' := Except.ok.inj (hmessage.symm.trans hmessage')
    exact ⟨⟨by simp [hthreshold],version,issuedAt,expiresAt,guards,revoked,hcontent⟩,
      (enough_iff hr hmessage hthreshold).mp henough⟩
  · rintro ⟨⟨hsome,version,issuedAt,expiresAt,guards,revoked,hcontent⟩,henough⟩
    obtain ⟨threshold,hthreshold⟩ := Option.isSome_iff_exists.mp hsome
    exact ⟨threshold,message,version,issuedAt,expiresAt,guards,revoked,hthreshold,hmessage,
      (enough_iff hr hmessage hthreshold).mpr henough,hcontent⟩

/-- Without bytes to sign, a list verifies for nobody. -/
theorem not_enough_of_unsignable {keyset : MaintainerKeySet} {opts : VerifyOptions} {e : Thrown}
    (hmessage : listMessage cfg c = .error e) (hacceptable : Acceptable cfg c keyset opts) :
    ¬Enough cfg c sigs [] keyset := by
  rintro ⟨signers,-,-,hsigners,hcount⟩
  obtain ⟨threshold,hthreshold⟩ := Option.isSome_iff_exists.mp hacceptable.1
  obtain ⟨hnumber,hpos,-⟩ := threshold?_eq_some hthreshold
  cases signers with
  | nil =>
    rw [hnumber] at hcount
    simp [Number.ofNat,Number.lt] at hcount
    omega
  | cons key signers =>
    rcases hsigners key List.mem_cons_self with ⟨secretKey,hsk,-⟩ | ⟨message,sig,hm,-⟩
    · cases hsk
    · rw [hmessage] at hm
      cases hm

theorem collect_verifies {secretKeys : List Bytes} {keyset : MaintainerKeySet}
    {opts : VerifyOptions} (hr : Reliable cfg keyset.keys secretKeys) {text : String}
    (h : decodeListString cfg text = .ok (some (c,sigs))) :
    (∃ result, collect cfg c.raw text secretKeys = .ok result ∧ Verifies cfg result keyset opts) ↔
      Fits cfg c sigs secretKeys ∧ Acceptable cfg c keyset opts ∧
        Enough cfg c sigs secretKeys keyset := by
  cases hmessage : listMessage cfg c with
  | ok message =>
    rw [collect_verifies_of_sigs hr.unpacks hmessage secretKeys (reads_of_decoded h),
      sufficient_iff hr hmessage]
    have hfits : (∀ signed, signed ≠ [] → signed <+: secretKeys →
        Small c (sigsAfter cfg message sigs signed)) ↔ Fits cfg c sigs secretKeys := by
      refine forall_congr' fun signed => forall_congr' fun _ => forall_congr' fun hpre => ?_
      exact small_sigsAfter hr hpre.subset
    rw [hfits]
  | error e =>
    constructor
    · rintro ⟨result,hcollect,version,issuedAt,expiresAt,guards,revoked,hv⟩
      cases secretKeys with
      | nil =>
        obtain rfl := Except.ok.inj hcollect
        obtain ⟨content,sigs',threshold,message,hdecoded,-,hm,-⟩ := verifyGuardList_ok hv
        rw [(reads_of_decoded h).trimmed] at hdecoded
        cases hdecoded
        rw [hmessage] at hm
        cases hm
      | cons secretKey rest =>
        obtain ⟨next,hnext,-⟩ := bind_ok hcollect
        obtain ⟨c',hshape,hnext⟩ := bind_ok hnext
        obtain ⟨message,hm,-⟩ := bind_ok hnext
        rw [← shape_eq hshape,hmessage] at hm
        cases hm
    · rintro ⟨hfits,hacceptable,henough⟩
      cases secretKeys with
      | nil => exact absurd henough (not_enough_of_unsignable hmessage hacceptable)
      | cons secretKey rest =>
        have hroom := hfits [secretKey] (by simp) (by simp)
        have hsmall : Small c (sigsAfter cfg [] sigs [secretKey]) :=
          (small_sigsAfter hr (by simp)).mpr hroom
        obtain ⟨message,hm⟩ : ∃ message, listMessage cfg c = .ok message :=
          listMessage_of_small hsmall
        rw [hmessage] at hm
        cases hm

end Collection

/-! A maintainer signs lists that carry one signature, and sixteen of somebody else. -/

def sampleSecretKey : Bytes := List.replicate 32 1

def oneOfOne : MaintainerKeySet := ⟨Number.ofNat 1,[List.replicate 32 1]⟩

theorem lastBytes_length (bs : Bytes) : (lastBytes bs).length = 32 := by
  simp only [lastBytes,List.length_drop,List.length_append,List.length_replicate]
  omega

theorem sample_reliable : Reliable sampleConfig oneOfOne.keys [sampleSecretKey] where
  unpacks := sampleConfig_unpacks
  signs := by simp [sampleConfig]
  signature_length := by simp [sampleConfig,sampleSecretKey,lastBytes_length,signatureBytes]
  hash_length := lastBytes_length
  ids := by
    have hsame : sampleConfig.publicKeyOf sampleSecretKey = List.replicate 32 1 := by decide
    simp [oneOfOne,hsame]

def strangeSigs : List (String × Bytes) :=
  (List.range 16).map fun n => (String.ofList [Char.ofNat (97+n)],[])

end TrustedGuards
