import AetherLite.Cache.Validator
import AetherLite.Gossip.PacketValidator
import AetherLite.Hint.HintPacket

/-! What a hash commits to, on both implementations: no hashed text is the beginning of
another, so each belongs to one header. -/
set_option autoImplicit false

open Js PowPolicy

/-- The committed fields of a packet or of a hint. -/
inductive Commitment where
  | packet (timestamp zoneId difficulty : Nat) (nonce payload : Bytes)
  | hint (version : Nat) (blindTag nonce ciphertext : Bytes)
  deriving DecidableEq

namespace Commitment

def Fits : Commitment → Prop
  | packet t z d n p => t < 256^8 ∧ z < 256^4 ∧ d < 256^1 ∧ n.length < 256^2 ∧ p.length < 256^4
  | hint v tag n c => v < 256^1 ∧ tag.length = 4 ∧ n.length = 12 ∧ c.length < 256^4

def bytes : Commitment → Bytes
  | packet t z d n p => preimageBytes t z d n p
  | hint v tag n c => Hint.hintDomain ++ Bytes.bigEndian 1 v ++ tag ++ n ++ Bytes.lengthPrefixed 4 c

theorem packet_append_inj {t z d t' z' d' : Nat} {n p n' p' x y : Bytes}
    (hf : Fits (packet t z d n p)) (hf' : Fits (packet t' z' d' n' p'))
    (h : bytes (packet t z d n p) ++ x = bytes (packet t' z' d' n' p') ++ y) :
    packet t z d n p = packet t' z' d' n' p' ∧ x = y := by
  obtain ⟨ht,hz,hd,hn,hp⟩ := hf
  obtain ⟨ht',hz',hd',hn',hp'⟩ := hf'
  simp only [bytes,preimageBytes,List.append_assoc] at h
  have h := List.append_cancel_left h
  obtain ⟨htt,h⟩ := List.append_inj h (by simp)
  obtain ⟨hzz,h⟩ := List.append_inj h (by simp)
  obtain ⟨hdd,h⟩ := List.append_inj h (by simp)
  obtain ⟨hnn,h⟩ := Bytes.lengthPrefixed_append_inj hn hn' h
  obtain ⟨hpp,h⟩ := Bytes.lengthPrefixed_append_inj hp hp' h
  rw [Bytes.bigEndian_inj ht ht' htt,Bytes.bigEndian_inj hz hz' hzz,
    Bytes.bigEndian_inj hd hd' hdd,hnn,hpp]
  exact ⟨rfl,h⟩

theorem hint_append_inj {v v' : Nat} {tag n c tag' n' c' x y : Bytes}
    (hf : Fits (hint v tag n c)) (hf' : Fits (hint v' tag' n' c'))
    (h : bytes (hint v tag n c) ++ x = bytes (hint v' tag' n' c') ++ y) :
    hint v tag n c = hint v' tag' n' c' ∧ x = y := by
  obtain ⟨hv,ht,hn,hc⟩ := hf
  obtain ⟨hv',ht',hn',hc'⟩ := hf'
  simp only [bytes,List.append_assoc] at h
  have h := List.append_cancel_left h
  obtain ⟨hvv,h⟩ := List.append_inj h (by simp)
  obtain ⟨htt,h⟩ := List.append_inj h (by omega)
  obtain ⟨hnn,h⟩ := List.append_inj h (by omega)
  obtain ⟨hcc,h⟩ := Bytes.lengthPrefixed_append_inj hc hc' h
  rw [Bytes.bigEndian_inj hv hv' hvv,htt,hnn,hcc]
  exact ⟨rfl,h⟩

/-- The two labels differ in their twelfth byte. -/
theorem packet_ne_hint {t z d v : Nat} {n p tag n' c x y : Bytes} :
    bytes (packet t z d n p) ++ x ≠ bytes (hint v tag n' c) ++ y := by
  intro h
  simp only [bytes,preimageBytes,List.append_assoc] at h
  obtain ⟨hlabel,-⟩ := List.append_inj h (by decide)
  revert hlabel
  decide

theorem bytes_append_inj {c c' : Commitment} {x y : Bytes} (hf : c.Fits) (hf' : c'.Fits)
    (h : c.bytes ++ x = c'.bytes ++ y) : c = c' ∧ x = y := by
  cases c with
  | packet t z d n p =>
    cases c' with
    | packet t' z' d' n' p' => exact packet_append_inj hf hf' h
    | hint => exact absurd h packet_ne_hint
  | hint v tag n ct =>
    cases c' with
    | packet => exact absurd h.symm packet_ne_hint
    | hint v' tag' n' ct' => exact hint_append_inj hf hf' h

theorem bytes_inj {c c' : Commitment} (hf : c.Fits) (hf' : c'.Fits) (h : c.bytes = c'.bytes) :
    c = c' := by
  have happ : c.bytes ++ [] = c'.bytes ++ [] := by simpa using h
  exact (bytes_append_inj hf hf' happ).1

/-- What is hashed for an id, or for a proof of work with the nonce. -/
def hashed (c : Commitment) : Option Nat → Bytes
  | none => c.bytes
  | some powNonce => c.bytes ++ Bytes.bigEndian 8 powNonce

theorem hashed_inj {c c' : Commitment} {n n' : Option Nat} (hf : c.Fits) (hf' : c'.Fits)
    (hn : ∀ k ∈ n, k < 256^8) (hn' : ∀ k ∈ n', k < 256^8) (h : hashed c n = hashed c' n') :
    c = c' ∧ n = n' := by
  have happ : ∀ (c : Commitment) n,
      hashed c n = c.bytes ++ (n.map (Bytes.bigEndian 8)).getD [] := by
    intro c n
    cases n <;> simp [hashed]
  rw [happ,happ] at h
  obtain ⟨hc,hnonce⟩ := bytes_append_inj hf hf' h
  refine ⟨hc,?_⟩
  cases n with
  | none =>
    cases n' with
    | none => rfl
    | some k' => simpa using congrArg List.length hnonce
  | some k =>
    cases n' with
    | none => simpa using congrArg List.length hnonce
    | some k' => rw [Bytes.bigEndian_inj (hn k rfl) (hn' k' rfl) hnonce]

end Commitment

/-- What a proof of work and an id are made for, in the browser. -/
inductive Item where
  | packet (header : PowCommittedHeader)
  | hint (h : Hint.HintPacket)

namespace Item

def preimage : Item → Except Thrown Bytes
  | packet header => powPreimage header
  | hint h => .ok (Hint.hintPreimage h)

/-- The header of a packet that passes, or a hint that does. -/
def Accepted (sha256 : Bytes → Bytes) : Item → Prop
  | packet header => ∃ packet opts, PacketValidator.committedHeaderOf packet = .ok header ∧
      PacketValidator.check sha256 packet opts = .ok .ok
  | hint h => Hint.verifyHintPow sha256 h = true

/-- The header of a hint is all but its ttl and its nonce. -/
def SameHeader : Item → Item → Prop
  | packet header, packet header' => header = header'
  | hint h, hint h' => h.blindTag = h'.blindTag ∧ h.nonce = h'.nonce ∧ h.ciphertext = h'.ciphertext
  | _, _ => False

/-- The item says what the commitment says. -/
def Commits : Item → Commitment → Prop
  | packet header, .packet t z d n p =>
    Committed header t z d ∧ n = header.nonce ∧ p = header.payload
  | hint h, .hint v tag n c =>
    v = Hint.hintVersion ∧ tag = h.blindTag ∧ n = h.nonce ∧ c = h.ciphertext
  | _, _ => False

theorem sameHeader_of_commits {i j : Item} {c : Commitment} (hi : i.Commits c) (hj : j.Commits c) :
    SameHeader i j := by
  cases c with
  | packet t z d n p =>
    cases i with
    | hint => cases hi
    | packet header =>
      cases j with
      | hint => cases hj
      | packet header' =>
        obtain ⟨hc,hn,hp⟩ := hi
        obtain ⟨hc',hn',hp'⟩ := hj
        obtain ⟨ts,zid,diff,nonce,payload⟩ := header
        obtain ⟨ts',zid',diff',nonce',payload'⟩ := header'
        have ht : ts = ts' := hc.timestamp_eq.trans hc'.timestamp_eq.symm
        have hz : zid = zid' := hc.zoneId_eq.trans hc'.zoneId_eq.symm
        have hd : diff = diff' := hc.difficulty_eq.trans hc'.difficulty_eq.symm
        have hnn : nonce = nonce' := hn.symm.trans hn'
        have hpp : payload = payload' := hp.symm.trans hp'
        rw [ht,hz,hd,hnn,hpp]
        rfl
  | hint v tag n ct =>
    cases i with
    | packet => cases hi
    | hint h =>
      cases j with
      | packet => cases hj
      | hint h' =>
        obtain ⟨-,htag,hn,hc⟩ := hi
        obtain ⟨-,htag',hn',hc'⟩ := hj
        exact ⟨htag.symm.trans htag',hn.symm.trans hn',hc.symm.trans hc'⟩

theorem commits_of_preimage {i : Item} {bs : Bytes} (h : i.preimage = .ok bs) :
    ∃ c : Commitment, i.Commits c ∧ c.Fits ∧ c.bytes = bs := by
  cases i with
  | packet header =>
    obtain ⟨t,z,d,hc,rfl⟩ := powPreimage_ok h
    exact ⟨.packet t z d header.nonce header.payload,⟨hc,rfl,rfl⟩,
      ⟨hc.timestamp_lt,hc.zoneId_lt,hc.difficulty_lt,hc.nonce_lt,hc.payload_lt⟩,rfl⟩
  | hint h' =>
    refine ⟨.hint Hint.hintVersion h'.blindTag h'.nonce h'.ciphertext,⟨rfl,rfl,rfl,rfl⟩,?_,?_⟩
    · refine ⟨by decide,h'.blindTag_length,h'.nonce_length,?_⟩
      rw [h'.ciphertext_length]
      decide
    · exact Except.ok.inj h

theorem preimage_of_accepted {sha256 : Bytes → Bytes} {i : Item} (h : i.Accepted sha256) :
    ∃ bs, i.preimage = .ok bs := by
  cases i with
  | packet header =>
    obtain ⟨packet,opts,hheader,hcheck⟩ := h
    obtain ⟨id,timestamp,bs,hvalid⟩ := PacketValidator.check_ok hcheck
    have hpre := hvalid.preimage_eq
    simp only [PacketValidator.preimage?,hheader] at hpre
    cases hp : powPreimage header with
    | error e => simp [hp,Except.toOption] at hpre
    | ok bs' => exact ⟨bs',hp⟩
  | hint h' => exact ⟨_,rfl⟩

end Item

namespace Cache

/-- What a proof of work and an id are made for, on the cache node. -/
inductive Item where
  | packet (header : PowCommittedHeader)
  | hint (h : HintView)

namespace Item

def preimage : Item → Option Bytes
  | packet header => Cache.preimage header
  | hint h => h.preimage

def Accepted (sha256 : Bytes → Bytes) : Item → Prop
  | packet header => ∃ (packet : GossipPacket) (opts : ValidateOptions),
      packet.committedHeader = header ∧ checkPacket sha256 packet opts = .ok ()
  | hint h => h.check sha256 hintPowDifficulty = .ok ()

def SameHeader : Item → Item → Prop
  | packet header, packet header' => header = header'
  | hint h, hint h' => h.version = h'.version ∧ h.blindTag = h'.blindTag ∧ h.nonce = h'.nonce ∧
      h.ciphertext = h'.ciphertext
  | _, _ => False

/-- The commitment of an item; its numbers are all in range. -/
def commitment : Item → Commitment
  | packet h => .packet h.timestamp.toNat h.zoneId.toNat h.powDifficulty.toNat h.nonce h.payload
  | hint h => .hint h.version.toNat h.blindTag h.nonce h.ciphertext

theorem bigEndian_one (b : UInt8) : Bytes.bigEndian 1 b.toNat = [b] := by
  simp [Bytes.bigEndian]

theorem commitment_of_preimage {i : Item} {bs : Bytes} (h : i.preimage = some bs) :
    i.commitment.Fits ∧ i.commitment.bytes = bs := by
  cases i with
  | packet header =>
    change Cache.preimage header = some bs at h
    unfold Cache.preimage at h
    split at h
    · cases h
    next hd =>
    split at h
    · cases h
    next hn =>
    split at h
    · cases h
    next hp =>
    have hdiff : header.powDifficulty.toNat < 256 := by
      have hle := UInt32.not_lt.mp hd
      exact Nat.lt_succ_of_le (UInt32.le_iff_toNat_le.mp hle)
    have hbyte : [header.powDifficulty.toUInt8] = Bytes.bigEndian 1 header.powDifficulty.toNat := by
      rw [← bigEndian_one]
      congr 1
      simp [Nat.mod_eq_of_lt hdiff]
    refine ⟨⟨header.timestamp.toNat_lt,header.zoneId.toNat_lt,hdiff,?_,?_⟩,?_⟩
    · omega
    · omega
    · rw [← Option.some.inj h,hbyte]
      simp only [commitment,Commitment.bytes,preimageBytes,Bytes.lengthPrefixed,
        List.append_assoc]
      rfl
  | hint v =>
    change v.preimage = some bs at h
    unfold HintView.preimage at h
    split at h
    · cases h
    next ht =>
    split at h
    · cases h
    next hn =>
    split at h
    · cases h
    next hc =>
    refine ⟨⟨v.version.toNat_lt,not_not.mp ht,not_not.mp hn,?_⟩,?_⟩
    · omega
    · rw [← Option.some.inj h]
      simp only [commitment,Commitment.bytes,bigEndian_one,Bytes.lengthPrefixed,List.append_assoc]
      rfl

theorem sameHeader_of_commitment {i j : Item} (h : i.commitment = j.commitment) :
    SameHeader i j := by
  cases i with
  | packet header =>
    cases j with
    | hint => cases h
    | packet header' =>
      simp only [commitment,Commitment.packet.injEq] at h
      obtain ⟨ht,hz,hd,hn,hp⟩ := h
      obtain ⟨ts,zid,diff,nonce,payload⟩ := header
      obtain ⟨ts',zid',diff',nonce',payload'⟩ := header'
      have hts : ts = ts' := UInt64.toNat_inj.mp ht
      have hzid : zid = zid' := UInt32.toNat_inj.mp hz
      have hdiff : diff = diff' := UInt32.toNat_inj.mp hd
      have hnonce : nonce = nonce' := hn
      have hpayload : payload = payload' := hp
      rw [hts,hzid,hdiff,hnonce,hpayload]
      rfl
  | hint v =>
    cases j with
    | packet => cases h
    | hint v' =>
      simp only [commitment,Commitment.hint.injEq] at h
      exact ⟨UInt8.toNat_inj.mp h.1,h.2⟩

theorem preimage_of_accepted {sha256 : Bytes → Bytes} {i : Item} (h : i.Accepted sha256) :
    ∃ bs, i.preimage = some bs := by
  cases i with
  | packet header =>
    obtain ⟨packet,opts,rfl,hcheck⟩ := h
    obtain ⟨bs,hbs,-⟩ := packetId_some (checkPacket_ok.mp hcheck).1.id_hash
    exact ⟨bs,hbs⟩
  | hint v =>
    obtain ⟨-,-,-,-,bs,hbs,-⟩ := (HintView.check_ok (by decide)).mp h
    exact ⟨bs,hbs⟩

end Item

end Cache

namespace Commitment

/-- The text that is hashed for the id of an item, or for its proof of work. -/
def stamped (preimage : Bytes) : Option Nat → Bytes
  | none => preimage
  | some powNonce => preimage ++ Bytes.bigEndian 8 powNonce

/-- The header of the browser and the header of the cache node have the same fields. -/
def Mirrors : Item → Cache.Item → Prop
  | .packet h, .packet r =>
    h.timestamp = .num (Number.ofNat r.timestamp.toNat) ∧
      h.zoneId = .num (Number.ofNat r.zoneId.toNat) ∧
      h.powDifficulty = .num (Number.ofNat r.powDifficulty.toNat) ∧ h.nonce = r.nonce ∧
      h.payload = r.payload
  | .hint h, .hint v =>
    v.version.toNat = Hint.hintVersion ∧ v.blindTag = h.blindTag ∧ v.nonce = h.nonce ∧
      v.ciphertext = h.ciphertext
  | _, _ => False

theorem ofNat_inj {m n : Nat} (h : Val.num (Number.ofInt m) = .num (Number.ofNat n)) : m = n := by
  simpa [Number.ofInt,Number.ofNat] using h

theorem commitment_of_mirrors {i : Item} {r : Cache.Item} {c : Commitment} (hm : Mirrors i r)
    (hc : i.Commits c) : r.commitment = c := by
  cases i with
  | packet h =>
    cases r with
    | hint => cases hm
    | packet r =>
      cases c with
      | hint => cases hc
      | packet t z d n p =>
        obtain ⟨ht,hz,hd,hn,hp⟩ := hm
        obtain ⟨hc,rfl,rfl⟩ := hc
        rw [ofNat_inj (hc.timestamp_eq.symm.trans ht),ofNat_inj (hc.zoneId_eq.symm.trans hz),
          ofNat_inj (hc.difficulty_eq.symm.trans hd),hn,hp]
        rfl
  | hint h =>
    cases r with
    | packet => cases hm
    | hint v =>
      cases c with
      | packet => cases hc
      | hint v' tag n ct =>
        obtain ⟨hv,ht,hn,hct⟩ := hm
        obtain ⟨rfl,rfl,rfl,rfl⟩ := hc
        rw [← hv,← ht,← hn,← hct]
        rfl

theorem preimage_of_fits {r : Cache.Item} {c : Commitment} (hc : r.commitment = c) (hf : c.Fits) :
    r.preimage = some c.bytes := by
  have hsome : ∃ bs, r.preimage = some bs := by
    cases r with
    | packet h =>
      subst hc
      obtain ⟨-,-,hd,hn,hp⟩ := hf
      have hdiff : ¬h.powDifficulty > 0xff := by
        refine UInt32.not_lt.mpr (UInt32.le_iff_toNat_le.mpr ?_)
        exact Nat.le_of_lt_succ hd
      have hnonce : ¬h.nonce.length > 0xffff := by omega
      have hpayload : ¬h.payload.length > 0xffffffff := by omega
      have hpre : (Cache.preimage h).isSome := by simp [Cache.preimage,hdiff,hnonce,hpayload]
      exact Option.isSome_iff_exists.mp hpre
    | hint v =>
      subst hc
      obtain ⟨-,ht,hn,hct⟩ := hf
      have hpre : v.preimage.isSome := by
        simp [Cache.HintView.preimage,Cache.blindTagSize,Cache.hintNonceSize,ht,hn]
        omega
      exact Option.isSome_iff_exists.mp hpre
  obtain ⟨bs,hbs⟩ := hsome
  rw [hbs,← (Cache.Item.commitment_of_preimage hbs).2,hc]

/-- Every item that commits to something has a mirror. -/
theorem mirrored {i : Item} {c : Commitment} (hc : i.Commits c) (hf : c.Fits) :
    ∃ r, Mirrors i r := by
  cases i with
  | packet h =>
    cases c with
    | hint => cases hc
    | packet t z d n p =>
      obtain ⟨hc,-,-⟩ := hc
      obtain ⟨ht,hz,hd,-,-⟩ := hf
      refine ⟨.packet ⟨.ofNat t,.ofNat z,.ofNat d,h.nonce,h.payload⟩,?_,?_,?_,rfl,rfl⟩
      · rw [hc.timestamp_eq,UInt64.toNat_ofNat_of_lt' ht]
        rfl
      · rw [hc.zoneId_eq,UInt32.toNat_ofNat_of_lt' hz]
        rfl
      · have hsize : d < UInt32.size := lt_of_lt_of_le hd (by decide)
        rw [hc.difficulty_eq,UInt32.toNat_ofNat_of_lt' hsize]
        rfl
  | hint h => exact ⟨.hint ⟨1,h.blindTag,h.nonce,0,h.ciphertext⟩,rfl,rfl,rfl,rfl⟩

theorem preimage_of_mirrors {i : Item} {r : Cache.Item} {bs : Bytes} (hm : Mirrors i r)
    (h : i.preimage = .ok bs) : r.preimage = some bs := by
  obtain ⟨c,hc,hf,hbs⟩ := Item.commits_of_preimage h
  rw [preimage_of_fits (commitment_of_mirrors hm hc) hf,hbs]

/-- The browser can hold the numbers of the header. -/
def Encodable : Cache.Item → Prop
  | .packet h => h.timestamp.toNat < 2^53
  | .hint _ => True

theorem inRange_ofNat {n : Nat} {limit : Int} {e : Thrown} (h : (n : Int) ≤ limit) :
    inRange (some (n : Int)) limit e = .ok n := by
  simp [inRange,h]

/-- A header of whole numbers in range has a preimage. -/
theorem powPreimage_of_fits {t z d : Nat} {n p : Bytes} (hsafe : t ≤ 9007199254740991)
    (hf : Fits (packet t z d n p)) :
    powPreimage ⟨.num (Number.ofInt t),.num (Number.ofInt z),.num (Number.ofInt d),n,p⟩ =
      .ok (preimageBytes t z d n p) := by
  obtain ⟨-,hz,hd,hn,hp⟩ := hf
  have hle : |(t : Int)| ≤ Number.maxSafeInteger := by
    rw [Nat.abs_cast]
    change (t : Int) ≤ 9007199254740991
    omega
  have ht : safeInteger? (.num (Number.ofInt t)) = some (t : Int) := by
    simp only [safeInteger?,Number.toSafeInt?,Number.toInt?_ofInt,Option.bind_some,if_pos hle]
  have hint : ∀ n : Nat, integer? (.num (Number.ofInt n)) = some (n : Int) := fun n =>
    Number.toInt?_ofInt n
  have hn' : ¬n.length > 0xffff := by omega
  have hp' : ¬p.length > 0xffffffff := by omega
  unfold powPreimage
  rw [ht,hint,hint,inRange_ofNat ((le_abs_self _).trans hle),inRange_ofNat (by omega),
    inRange_ofNat (by omega)]
  simp [bind,Except.bind,hn',hp']

theorem mirror_of_accepted {sha256 : Bytes → Bytes} {r : Cache.Item} (h : r.Accepted sha256)
    (he : Encodable r) : ∃ i bs, Mirrors i r ∧ i.preimage = .ok bs := by
  obtain ⟨bs,hbs⟩ := Cache.Item.preimage_of_accepted h
  have hf := (Cache.Item.commitment_of_preimage hbs).1
  cases r with
  | packet header =>
    have hsafe : header.timestamp.toNat ≤ 9007199254740991 := Nat.le_of_lt_succ he
    exact ⟨.packet ⟨.num (Number.ofInt header.timestamp.toNat),
      .num (Number.ofInt header.zoneId.toNat),.num (Number.ofInt header.powDifficulty.toNat),
      header.nonce,header.payload⟩,_,⟨rfl,rfl,rfl,rfl,rfl⟩,powPreimage_of_fits hsafe hf⟩
  | hint v =>
    obtain ⟨hv,ht,hn,hc,-⟩ := (Cache.HintView.check_ok (by decide)).mp h
    have hversion : v.version.toNat = Hint.hintVersion := by
      rw [hv]
      rfl
    exact ⟨.hint ⟨0,v.blindTag,v.nonce,0,v.ciphertext,by decide,ht,hn,by decide,hc⟩,_,
      ⟨hversion,rfl,rfl,rfl⟩,rfl⟩

def Collides (sha256 : Bytes → Bytes) (x y : Bytes) : Prop := x ≠ y ∧ sha256 x = sha256 y

theorem same_or_collides {sha256 : Bytes → Bytes} {x y : Bytes} {P : Prop} (hxy : x = y → P)
    (h : sha256 x = sha256 y) : P ∨ Collides sha256 x y := by
  by_cases heq : x = y
  · exact .inl (hxy heq)
  · exact .inr ⟨heq,h⟩

theorem stamped_inj {c c' : Commitment} {n n' : Option Nat} (hf : c.Fits) (hf' : c'.Fits)
    (hn : ∀ k ∈ n, k < 2^64) (hn' : ∀ k ∈ n', k < 2^64)
    (h : stamped c.bytes n = stamped c'.bytes n') : c = c' ∧ n = n' := by
  refine hashed_inj hf hf' (fun k hk => hn k hk) (fun k hk => hn' k hk) ?_
  cases n <;> cases n' <;> exact h

end Commitment

open Commitment in
/-- On either side two accepted items with one preimage have one header, of one kind; what
the browser accepts the cache node encodes to the same bytes, and likewise whatever the
cache node accepts and the browser can encode. A hash of an id or a proof of work for two
headers or two nonces would be a collision of these two texts. -/
theorem preimages_unambiguous (sha256 : Bytes → Bytes) :
    ((∀ i j : Item, i.Accepted sha256 → j.Accepted sha256 → i.preimage = j.preimage →
        i.SameHeader j) ∧
      ∀ i j : Cache.Item, i.Accepted sha256 → j.Accepted sha256 → i.preimage = j.preimage →
        i.SameHeader j) ∧
    ((∀ i : Item, i.Accepted sha256 → ∃ r bs, Mirrors i r ∧ i.preimage = .ok bs ∧
        r.preimage = some bs) ∧
      (∀ r : Cache.Item, r.Accepted sha256 → Encodable r → ∃ i bs, Mirrors i r ∧
        i.preimage = .ok bs ∧ r.preimage = some bs) ∧
      ∀ (i : Item) (r : Cache.Item), Mirrors i r → ∀ bs, i.preimage = .ok bs →
        r.preimage = some bs) ∧
    ((∀ i j : Item, i.Accepted sha256 → j.Accepted sha256 → ∀ bi bj, i.preimage = .ok bi →
        j.preimage = .ok bj → ∀ m n, (∀ k ∈ m, k < 2^64) → (∀ k ∈ n, k < 2^64) →
          sha256 (stamped bi m) = sha256 (stamped bj n) →
            (i.SameHeader j ∧ m = n) ∨ Collides sha256 (stamped bi m) (stamped bj n)) ∧
      ∀ i j : Cache.Item, i.Accepted sha256 → j.Accepted sha256 → ∀ bi bj, i.preimage = some bi →
        j.preimage = some bj → ∀ m n, (∀ k ∈ m, k < 2^64) → (∀ k ∈ n, k < 2^64) →
          sha256 (stamped bi m) = sha256 (stamped bj n) →
            (i.SameHeader j ∧ m = n) ∨ Collides sha256 (stamped bi m) (stamped bj n)) := by
  refine ⟨⟨fun i j hi _ h => ?_,fun i j hi _ h => ?_⟩,⟨fun i hi => ?_,fun r hr he => ?_,
    fun i r hm bs h => preimage_of_mirrors hm h⟩,fun i j _ _ bi bj hi hj m n hm hn h => ?_,
    fun i j _ _ bi bj hi hj m n hm hn h => ?_⟩
  · obtain ⟨bs,hbs⟩ := Item.preimage_of_accepted hi
    obtain ⟨c,hc,hf,hcb⟩ := Item.commits_of_preimage hbs
    obtain ⟨c',hc',hf',hcb'⟩ := Item.commits_of_preimage (h ▸ hbs)
    obtain rfl := bytes_inj hf hf' (hcb.trans hcb'.symm)
    exact Item.sameHeader_of_commits hc hc'
  · obtain ⟨bs,hbs⟩ := Cache.Item.preimage_of_accepted hi
    obtain ⟨hf,hcb⟩ := Cache.Item.commitment_of_preimage hbs
    obtain ⟨hf',hcb'⟩ := Cache.Item.commitment_of_preimage (h ▸ hbs)
    exact Cache.Item.sameHeader_of_commitment (bytes_inj hf hf' (hcb.trans hcb'.symm))
  · obtain ⟨bs,hbs⟩ := Item.preimage_of_accepted hi
    obtain ⟨c,hc,hf,-⟩ := Item.commits_of_preimage hbs
    obtain ⟨r,hr⟩ := mirrored hc hf
    exact ⟨r,bs,hr,hbs,preimage_of_mirrors hr hbs⟩
  · obtain ⟨i,bs,hm,hbs⟩ := mirror_of_accepted hr he
    exact ⟨i,bs,hm,hbs,preimage_of_mirrors hm hbs⟩
  · obtain ⟨c,hc,hf,rfl⟩ := Item.commits_of_preimage hi
    obtain ⟨c',hc',hf',rfl⟩ := Item.commits_of_preimage hj
    refine same_or_collides (fun heq => ?_) h
    obtain ⟨rfl,hmn⟩ := stamped_inj hf hf' hm hn heq
    exact ⟨Item.sameHeader_of_commits hc hc',hmn⟩
  · obtain ⟨hf,rfl⟩ := Cache.Item.commitment_of_preimage hi
    obtain ⟨hf',rfl⟩ := Cache.Item.commitment_of_preimage hj
    refine same_or_collides (fun heq => ?_) h
    obtain ⟨hcc,hmn⟩ := stamped_inj hf hf' hm hn heq
    exact ⟨Cache.Item.sameHeader_of_commitment hcc,hmn⟩
