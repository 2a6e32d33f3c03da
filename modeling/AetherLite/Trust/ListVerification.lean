import Mathlib.Data.List.Nodup
import AetherLite.Trust.ListText

/-! A list that verifies: who signed it, what exactly they signed, and which guards are left. -/
set_option autoImplicit false

namespace TrustedGuards

open Js NodeIdentity

section Signers
variable {cfg : Config} {keys : JsMap String Bytes} {message : Bytes}

/-- A key under this id has signed. -/
def Counts (cfg : Config) (keys : JsMap String Bytes) (message : Bytes)
    (sigs : List (String × Bytes)) (id : String) : Prop :=
  ∃ key sig, JsMap.get keys id = some key ∧ (id,sig) ∈ sigs ∧ sig.length = signatureBytes ∧
    cfg.sodium.verifyDetached sig message key = true

theorem counts_cons {e : String × Bytes} {sigs : List (String × Bytes)} {id : String} :
    Counts cfg keys message (e :: sigs) id ↔
      Counts cfg keys message [e] id ∨ Counts cfg keys message sigs id := by
  constructor
  · rintro ⟨key,sig,hget,hmem,hlen,hv⟩
    rcases List.mem_cons.mp hmem with rfl | hmem
    · exact .inl ⟨key,sig,hget,List.mem_singleton_self _,hlen,hv⟩
    · exact .inr ⟨key,sig,hget,hmem,hlen,hv⟩
  · rintro (⟨key,sig,hget,hmem,hlen,hv⟩ | ⟨key,sig,hget,hmem,hlen,hv⟩)
    · exact ⟨key,sig,hget,by simp_all,hlen,hv⟩
    · exact ⟨key,sig,hget,List.mem_cons_of_mem _ hmem,hlen,hv⟩

theorem counts_singleton {k id : String} {sig : Bytes} :
    Counts cfg keys message [(k,sig)] id ↔ id = k ∧ sig.length = signatureBytes ∧
      ∃ key, JsMap.get keys k = some key ∧ cfg.sodium.verifyDetached sig message key = true := by
  constructor
  · rintro ⟨key,s,hget,hmem,hlen,hv⟩
    obtain ⟨rfl,rfl⟩ : id = k ∧ s = sig := by simpa using hmem
    exact ⟨rfl,hlen,key,hget,hv⟩
  · rintro ⟨rfl,hlen,key,hget,hv⟩
    exact ⟨key,sig,hget,by simp,hlen,hv⟩

/-- Each signer is counted once, whatever the list repeats. -/
theorem validSigners_nodup (sigs : List (String × Bytes)) {signers : List String}
    (h : signers.Nodup) : (validSigners cfg keys message sigs signers).Nodup := by
  induction sigs generalizing signers with
  | nil => simpa [validSigners] using h
  | cons e sigs ih =>
    obtain ⟨k,sig⟩ := e
    unfold validSigners
    split
    · exact ih h
    · split
      · exact ih h
      · next hnew =>
        have hk : k ∉ signers := by simp_all
        split
        · exact ih (by
            rw [List.nodup_append]
            refine ⟨h,by simp,?_⟩
            intro a ha b hb
            rw [List.mem_singleton.mp hb]
            exact ne_of_mem_of_not_mem ha hk)
        · exact ih h

theorem mem_validSigners (sigs : List (String × Bytes)) {signers : List String} {id : String} :
    id ∈ validSigners cfg keys message sigs signers ↔
      id ∈ signers ∨ Counts cfg keys message sigs id := by
  induction sigs generalizing signers with
  | nil => simp [validSigners,Counts]
  | cons e sigs ih =>
    obtain ⟨k,sig⟩ := e
    rw [counts_cons,counts_singleton,← or_assoc]
    unfold validSigners
    split
    · next hget => simp [ih,hget]
    · next key hget =>
      split
      · next hskip =>
        rw [ih]
        have hmem : id ∈ signers ∨ (id = k ∧ sig.length = signatureBytes ∧
            ∃ key, JsMap.get keys k = some key ∧ cfg.sodium.verifyDetached sig message key = true) ↔
            id ∈ signers := by
          simp at hskip
          constructor
          · rintro (h | ⟨rfl,hlen,-⟩)
            · exact h
            · exact hskip.resolve_right (by simp [hlen])
          · exact .inl
        rw [hmem]
      · next hskip =>
        simp at hskip
        split
        · next hv => simp [ih,hget,hv,hskip,or_assoc]
        · next hv => simp [ih,hget,hv]

theorem keysById_get {keys : List Bytes} {id : String} {key : Bytes}
    (h : JsMap.get (keysById cfg keys) id = some key) :
    key ∈ keys ∧ maintainerKeyId cfg key = id := by
  have hfold : ∀ (ks : List Bytes) (m : JsMap String Bytes),
      JsMap.get (ks.foldl (fun m k => JsMap.set m (maintainerKeyId cfg k) k) m) id = some key →
      JsMap.get m id = some key ∨ key ∈ ks ∧ maintainerKeyId cfg key = id := by
    intro ks
    induction ks with
    | nil => simp
    | cons k ks ih =>
      intro m hm
      rcases ih _ hm with hset | ⟨hmem,hid⟩
      · by_cases hk : id = maintainerKeyId cfg k
        · rw [JsMap.get_set] at hset
          simp_all
        · rw [JsMap.get_set_ne _ hk] at hset
          exact .inl hset
      · exact .inr ⟨List.mem_cons_of_mem k hmem,hid⟩
  simpa [JsMap.get] using hfold keys [] h

theorem keysById_isSome {keys : List Bytes} {key : Bytes} (h : key ∈ keys) :
    (JsMap.get (keysById cfg keys) (maintainerKeyId cfg key)).isSome = true := by
  have hfold : ∀ (ks : List Bytes) (m : JsMap String Bytes),
      (JsMap.get m (maintainerKeyId cfg key)).isSome = true ∨ key ∈ ks →
      (JsMap.get (ks.foldl (fun m k => JsMap.set m (maintainerKeyId cfg k) k) m)
        (maintainerKeyId cfg key)).isSome = true := by
    intro ks
    induction ks with
    | nil => simp
    | cons k ks ih =>
      intro m hm
      refine ih _ ?_
      by_cases hk : maintainerKeyId cfg key = maintainerKeyId cfg k
      · simp [hk]
      · rw [JsMap.get_set_ne _ hk]
        rcases hm with hm | hm
        · exact .inl hm
        · rcases List.mem_cons.mp hm with rfl | hm
          · exact absurd rfl hk
          · exact .inr hm
  exact hfold keys [] (.inr h)

/-- The keys behind the ids that are counted: distinct, of the keyset, each with a signature. -/
theorem signers_are_keys {keys : List Bytes} {sigs : List (String × Bytes)} {ids : List String}
    (hn : ids.Nodup) (hids : ∀ id ∈ ids, Counts cfg (keysById cfg keys) message sigs id) :
    ∃ signers : List Bytes, signers.map (maintainerKeyId cfg) = ids ∧ signers.Nodup ∧
      signers ⊆ keys ∧
      ∀ k ∈ signers, ∃ sig, (maintainerKeyId cfg k,sig) ∈ sigs ∧
        cfg.sodium.verifyDetached sig message k = true := by
  obtain ⟨signers,rfl,hsigners⟩ : ∃ signers : List Bytes,
      signers.map (maintainerKeyId cfg) = ids ∧ ∀ k ∈ signers, k ∈ keys ∧
        ∃ sig, (maintainerKeyId cfg k,sig) ∈ sigs ∧
          cfg.sodium.verifyDetached sig message k = true := by
    clear hn
    induction ids with
    | nil => exact ⟨[],rfl,by simp⟩
    | cons id ids ih =>
      obtain ⟨key,sig,hget,hmem,-,hv⟩ := hids id List.mem_cons_self
      obtain ⟨ks,rfl,hks⟩ := ih fun i hi => hids i (List.mem_cons_of_mem id hi)
      obtain ⟨hkey,rfl⟩ := keysById_get hget
      exact ⟨key :: ks,rfl,by simpa using ⟨⟨hkey,sig,hmem,hv⟩,hks⟩⟩
  exact ⟨signers,rfl,List.Nodup.of_map _ hn,fun k hk => (hsigners k hk).1,
    fun k hk => (hsigners k hk).2⟩

end Signers

section Guards
variable {cfg : Config}

/-- A guard whose operator signed its declaration, bound to its id by key and work. -/
def ValidGuard (cfg : Config) (powParams : PowParams) (g : TrustedGuard) : Prop :=
  verifyClaim cfg.sodium ⟨g.peerId,g.pubkey,g.powCounter⟩ powParams = true ∧
    ∃ issuedAt message sig,
      declarationMessage cfg g.peerId g.pubkey g.powCounter issuedAt = .ok message ∧
      cfg.sodium.verifyDetached sig message g.pubkey = true

/-- What is checked of a guard string that is taken. -/
theorem parseGuardString_ok {text : String} {powParams : PowParams} {g : TrustedGuard}
    (h : parseGuardString cfg text powParams = .ok (some g)) :
    verifyClaim cfg.sodium ⟨g.peerId,g.pubkey,g.powCounter⟩ powParams = true ∧
      g.pubkey.length = publicKeyBytes ∧ (safeNat? 0 (.num g.powCounter)).isSome = true ∧
        ∃ issuedAt message sig, (safeNat? 0 (.num issuedAt)).isSome = true ∧
          declarationMessage cfg g.peerId g.pubkey g.powCounter issuedAt = .ok message ∧
          cfg.sodium.verifyDetached sig message g.pubkey = true := by
  unfold parseGuardString at h
  split at h
  · simp at h
  split at h
  · simp at h
  split at h
  · split at h
    · simp at h
    next hsafe =>
    obtain ⟨pubkey,-,h⟩ := bind_ok h
    obtain ⟨sig,-,h⟩ := bind_ok h
    split at h
    · simp at h
    next hlen =>
    split at h
    · simp at h
    · next issuedAt _ _ _ _ message hmessage =>
      split at h
      · next hv =>
        simp only [Except.ok.injEq,Option.some.injEq] at h
        subst h
        obtain ⟨hsig,hclaim⟩ := Bool.and_eq_true_iff.mp hv
        simp only [Bool.or_eq_true,not_or,Bool.not_eq_true,Option.isNone_eq_false_iff] at hsafe
        simp only [not_or,not_not] at hlen
        exact ⟨hclaim,hlen.1,hsafe.2,_,message,sig,hsafe.1.2,hmessage,hsig⟩
      · simp at h
  · simp at h

theorem parseGuardString_valid {text : String} {powParams : PowParams} {g : TrustedGuard}
    (h : parseGuardString cfg text powParams = .ok (some g)) : ValidGuard cfg powParams g := by
  obtain ⟨hclaim,-,-,issuedAt,message,sig,-,hmessage,hsig⟩ := parseGuardString_ok h
  exact ⟨hclaim,issuedAt,message,sig,hmessage,hsig⟩

/-- The loop takes every guard of the list, none twice, and leaves out the revoked ones. -/
theorem guardLoop_ok {powParams : PowParams} {revoked texts seen : List String}
    {guards out : List TrustedGuard}
    (h : guardLoop cfg powParams revoked texts seen guards = .ok (.ok out)) :
    ∃ parsed, List.Forall₂ (fun text g => parseGuardString cfg text powParams = .ok (some g))
        texts parsed ∧
      (parsed.map TrustedGuard.peerId).Nodup ∧ (∀ g ∈ parsed, g.peerId ∉ seen) ∧
      out = guards ++ parsed.filter fun g => !revoked.contains g.peerId := by
  induction texts generalizing seen guards with
  | nil =>
    cases h
    exact ⟨[],.nil,by simp⟩
  | cons text texts ih =>
    unfold guardLoop at h
    split at h
    · cases h
    · cases h
    · next g hg =>
      split at h
      · cases h
      · next hnew =>
        obtain ⟨parsed,hall,hn,hseen,rfl⟩ := ih h
        have hfirst : ∀ a ∈ parsed, a.peerId ≠ g.peerId := by
          intro a ha heq
          exact hseen a ha (by simp [heq])
        refine ⟨g :: parsed,.cons hg hall,?_,?_,?_⟩
        · simp only [List.map_cons,List.nodup_cons,List.mem_map,not_exists,not_and]
          exact ⟨hfirst,hn⟩
        · intro a ha
          rcases List.mem_cons.mp ha with rfl | ha
          · simpa using hnew
          · exact fun hmem => hseen a ha (List.mem_cons_of_mem _ hmem)
        · by_cases hr : revoked.contains g.peerId = true
          · simp_all
          · simp_all

end Guards

section Verification
variable {cfg : Config} {opts : VerifyOptions}

theorem checkContent_ok {content : GuardListContent} {version issuedAt expiresAt : Nat}
    {guards : List TrustedGuard} {revoked : List String}
    (h : checkContent cfg content opts = .ok (.ok version issuedAt expiresAt guards revoked)) :
    content.version = version ∧ content.issuedAt = issuedAt ∧ content.expiresAt = expiresAt ∧
      content.revoked = revoked ∧ (∀ least, opts.minVersion = some least → least ≤ version) ∧
      (issuedAt : Int) ≤ opts.now+clockSkewMs ∧ opts.now < expiresAt ∧
      issuedAt < expiresAt ∧ expiresAt-issuedAt ≤ maxValidityMs ∧
      guardLoop cfg opts.powParams revoked content.guards [] [] = .ok (.ok guards) := by
  unfold checkContent at h
  split at h
  · simp at h
  next hmin =>
  split at h
  · simp at h
  next hvalidity =>
  split at h
  · simp at h
  next hissued =>
  split at h
  · simp at h
  next hexpires =>
  split at h
  · simp at h
  split at h
  · simp at h
  · simp at h
  · next out hloop =>
    simp only [Except.ok.injEq,GuardListResult.ok.injEq] at h
    obtain ⟨rfl,rfl,rfl,rfl,rfl⟩ := h
    refine ⟨rfl,rfl,rfl,rfl,?_,by omega,by omega,by omega,by omega,hloop⟩
    intro least hleast
    simpa [hleast] using hmin

theorem verifyGuardList_ok {text : String} {keyset : MaintainerKeySet}
    {version issuedAt expiresAt : Nat} {guards : List TrustedGuard} {revoked : List String}
    (h : verifyGuardList cfg text keyset opts =
      .ok (.ok version issuedAt expiresAt guards revoked)) :
    ∃ content sigs threshold message,
      decodeListString cfg (String.ofList (trim text.toList)) = .ok (some (content,sigs)) ∧
      threshold? keyset = some threshold ∧ listMessage cfg content = .ok message ∧
      threshold ≤ (validSigners cfg (keysById cfg keyset.keys) message sigs []).length ∧
      checkContent cfg content opts = .ok (.ok version issuedAt expiresAt guards revoked) := by
  unfold verifyGuardList at h
  split at h
  · simp at h
  obtain ⟨decoded,hdecoded,h⟩ := bind_ok h
  split at h
  · simp at h
  next content sigs =>
  split at h
  · simp at h
  next threshold hthreshold =>
  obtain ⟨message,hmessage,h⟩ := bind_ok h
  dsimp only at h
  split at h
  · simp at h
  · next henough => exact ⟨content,sigs,threshold,message,hdecoded,hthreshold,hmessage,by omega,h⟩

theorem threshold?_eq_some {keyset : MaintainerKeySet} {threshold : Nat}
    (h : threshold? keyset = some threshold) :
    keyset.threshold = Number.ofNat threshold ∧ 1 ≤ threshold ∧
      threshold ≤ keyset.keys.length := by
  obtain ⟨k,hk,h⟩ := Option.bind_eq_some_iff.mp h
  simp only [Option.ite_none_right_eq_some,Option.some.injEq] at h
  obtain ⟨⟨-,hlo,hhi⟩,rfl⟩ := h
  refine ⟨?_,by omega,by omega⟩
  rw [Number.toInt?_eq_some hk,Number.ofInt,Number.ofNat]
  congr 1
  exact_mod_cast (Int.toNat_of_nonneg (by omega)).symm

/-- What stands behind a list that is accepted, where `Signs` are the signatures made. -/
structure Certified (cfg : Config) (Signs : Bytes → Bytes → Prop) (keyset : MaintainerKeySet)
    (opts : VerifyOptions) (content : GuardListContent) (guards : List TrustedGuard) : Prop where
  signed : ∃ message signers threshold, listMessage cfg content = .ok message ∧
    (∀ other, listMessage cfg other = .ok message → other = content) ∧
    keyset.threshold = Number.ofNat threshold ∧ threshold ≤ signers.length ∧ signers.Nodup ∧
    signers ⊆ keyset.keys ∧ ∀ key ∈ signers, Signs key message
  recent : ∀ least, opts.minVersion = some least → least ≤ content.version
  issued : (content.issuedAt : Int) ≤ opts.now+clockSkewMs
  unexpired : opts.now < content.expiresAt
  declared : ∃ parsed,
    List.Forall₂ (fun text g => parseGuardString cfg text opts.powParams = .ok (some g))
      content.guards parsed ∧
    (parsed.map TrustedGuard.peerId).Nodup ∧
    guards = parsed.filter fun g => !content.revoked.contains g.peerId
  valid : ∀ g ∈ guards, ValidGuard cfg opts.powParams g
  distinct : (guards.map TrustedGuard.peerId).Nodup
  notRevoked : ∀ g ∈ guards, g.peerId ∉ content.revoked

end Verification

/-! Two maintainers and a list that both of them sign. -/

def sampleFloat64 : MsgPack.Float64 where
  bytes _ := List.replicate 8 0
  value _ := .nan
  length := MsgPack.zeros_length

def lastBytes (bs : Bytes) : Bytes := (List.replicate 32 0 ++ bs).drop bs.length

def sampleConfig : Config where
  sodium :=
    { sha256 := lastBytes
      pwhash := fun _ _ _ _ => []
      signDetached := fun message privateKey => privateKey.take 32 ++ lastBytes message
      verifyDetached := fun signature message publicKey =>
        signature == publicKey ++ lastBytes message }
  publicKeyOf privateKey := privateKey.take 32
  f := sampleFloat64
  unpack := MsgPack.decode sampleFloat64

def sampleKeyset : MaintainerKeySet :=
  ⟨Number.ofNat 2,[List.replicate 32 1,List.replicate 32 2]⟩

def sampleContent : GuardListContent where
  version := 3
  issuedAt := 1000
  expiresAt := 100000
  guards := []
  revoked := []
  version_range := by decide
  issuedAt_range := by decide
  expiresAt_range := by decide

def sampleMessage : Bytes := guardListDomain ++ [150,1,3,205,3,232,206,0,1,134,160,144,144]

def sampleSigs : List (String × Bytes) :=
  sampleKeyset.keys.map fun key =>
    (maintainerKeyId sampleConfig key,key ++ lastBytes sampleMessage)

def sampleText : String :=
  guardListPrefix ++ String.ofList (Base64.encode (MsgPack.pack sampleFloat64
    (.arr (listFields sampleContent ++ [.arr (sampleSigs.map sigVal)]))))

theorem sampleConfig_unpacks : Unpacks sampleConfig := fun _ _ h hv => MsgPack.decode_encode h hv

theorem sampleText_eq : listText sampleConfig sampleContent sampleSigs = .ok sampleText := by
  rw [listText_ok]
  exact ⟨_,by rw [MsgPack.encode,if_pos (by decide +kernel)]; rfl,rfl⟩

theorem sampleText_decoded :
    decodeListString sampleConfig sampleText = .ok (some (sampleContent,sampleSigs)) := by
  have hlen : utf16Length sampleText ≤ maxStringLength := by
    rw [utf16Length_listText sampleText_eq]
    decide +kernel
  have hcount : sampleSigs.length ≤ maxSignatures := by decide
  rw [decodeListString_listText sampleConfig_unpacks sampleText_eq,if_pos ⟨hlen,hcount⟩]

theorem sampleText_verifies {now : Int}
    (h : checkContent sampleConfig sampleContent ⟨now,none,nodeIdPow⟩ =
      .ok (.ok 3 1000 100000 [] [])) :
    verifyGuardList sampleConfig sampleText sampleKeyset ⟨now,none,nodeIdPow⟩ =
      .ok (.ok 3 1000 100000 [] []) := by
  have hlen : ¬maxStringLength < utf16Length sampleText := by
    rw [utf16Length_listText sampleText_eq]
    decide +kernel
  have hmessage : listMessage sampleConfig sampleContent = .ok sampleMessage := by decide +kernel
  have hthreshold : threshold? sampleKeyset = some 2 := by decide +kernel
  have hsigners : ¬(validSigners sampleConfig (keysById sampleConfig sampleKeyset.keys)
      sampleMessage sampleSigs []).length < 2 := by decide +kernel
  rw [verifyGuardList,if_neg hlen,trim_listText sampleText_eq,sampleText_decoded]
  simp [hthreshold,hmessage,hsigners,h,bind,Except.bind]

end TrustedGuards
