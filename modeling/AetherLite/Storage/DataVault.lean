import AetherLite.Storage.SecretVault

/-! The encryption of the stored records, under keys derived from one data key that is
itself sealed with the passphrase. -/
set_option autoImplicit false

namespace Storage

open Js

structure DataVault where
  encKey : Bytes
  idxKey : Bytes

namespace DataVault

def dekBytes : Nat := 32
def nonceBytes : Nat := 24

def isOpen (v : DataVault) : Bool := decide (v.encKey.length = 32)

def locked : Thrown := .error "DataVault is locked"

section
variable (p : Primitives)

def fromDek (dek : Bytes) : DataVault where
  encKey := p.kdfDeriveFromKey 1 "aethrenc" dek
  idxKey := p.kdfDeriveFromKey 2 "aethridx" dek

def requirePassphrase (passphrase : String) : Except Thrown Unit :=
  if passphrase = "" then .error (.rangeError "DataVault: a non-empty passphrase is required")
  else .ok ()

/-- The new key, the salt and the nonce are random. -/
def create (passphrase : String) (params : VaultParams) (dek salt nonce : Bytes) :
    Except Thrown (DataVault × SealedSecret) := do
  requirePassphrase passphrase
  let sealed ← SecretVault.sealSecret p dek passphrase params salt nonce
  .ok (fromDek p dek,sealed)

def unsealDek (sealed : SealedSecret) (passphrase : String) : Except Thrown Bytes :=
  match SecretVault.openSealed p sealed passphrase with
  | none => .error wrongPassphrase
  | some dek => if dek.length ≠ dekBytes then .error wrongPassphrase else .ok dek

/-- `DataVault.open`, of the sealed data key. -/
def openDek (sealed : SealedSecret) (passphrase : String) : Except Thrown DataVault := do
  requirePassphrase passphrase
  .ok (fromDek p (← unsealDek p sealed passphrase))

def rewrap (sealed : SealedSecret) (oldPassphrase newPassphrase : String) (params : VaultParams)
    (salt nonce : Bytes) : Except Thrown SealedSecret := do
  requirePassphrase newPassphrase
  SecretVault.sealSecret p (← unsealDek p sealed oldPassphrase) newPassphrase params salt nonce

/-- `seal` of a record that is put in the place `ad`. -/
def sealRecord (v : DataVault) (value : Val) (ad : String) (nonce : Bytes) :
    Except Thrown Bytes :=
  if !v.isOpen then .error locked
  else do .ok (nonce ++ p.aeadEncrypt (← p.encode value) (Bytes.utf8 ad) nonce v.encKey)

/-- `open` of a record that is in the place `ad`; none for null. -/
def openRecord (v : DataVault) (blob : Val) (ad : String) : Except Thrown (Option Val) :=
  if !v.isOpen then .error locked
  else match blob with
  | .bytes bytes =>
    if bytes.length ≤ nonceBytes then .ok none
    else .ok ((p.aeadDecrypt (bytes.drop nonceBytes) (Bytes.utf8 ad) (bytes.take nonceBytes)
      v.encKey).bind p.decode)
  | _ => .ok none

/-- The key of a row. -/
def index (v : DataVault) (label value : String) : Except Thrown String :=
  if !v.isOpen then .error locked
  else .ok (Bytes.toHex (p.generichash (Bytes.utf8 (label ++ "\x00" ++ value)) v.idxKey))

/-- The blob was sealed from the value for its place. -/
def Sealed (v : DataVault) (blob : Val) (ad : String) (value : Val) : Prop :=
  ∃ nonce bytes, nonce.length = nonceBytes ∧ sealRecord p v value ad nonce = .ok bytes ∧
    blob = .bytes bytes

/-- The blob opens in its place to the value, up to what msgpack does not tell apart. -/
def Holds (v : DataVault) (blob : Val) (ad : String) (value : Val) : Prop :=
  ∃ opened, openRecord p v blob ad = .ok (some opened) ∧ opened.Same value

end

section
variable {p : Primitives} {v : DataVault}

@[simp] theorem fromDek_isOpen (dek : Bytes) : (fromDek p dek).isOpen = true := by
  simp [isOpen,fromDek,(p.kdfDeriveFromKey 1 "aethrenc" dek).2]

theorem openDek_isOpen {sealed : SealedSecret} {passphrase : String}
    (h : openDek p sealed passphrase = .ok v) : v.isOpen = true := by
  obtain ⟨-,-,h⟩ := bind_ok h
  obtain ⟨dek,-,h⟩ := bind_ok h
  cases h
  exact fromDek_isOpen dek

theorem requirePassphrase_ok {passphrase : String} {u : Unit}
    (h : requirePassphrase passphrase = .ok u) : passphrase ≠ "" := by
  rintro rfl
  simp [requirePassphrase] at h

theorem openDek_ok {sealed : SealedSecret} {passphrase : String} {d : Bytes}
    (hne : passphrase ≠ "") (ho : SecretVault.openSealed p sealed passphrase = some d)
    (hlen : d.length = dekBytes) :
    openDek p sealed passphrase = .ok (fromDek p d) := by
  simp [openDek,requirePassphrase,hne,unsealDek,ho,hlen,bind,
    Except.bind]

theorem openDek_ne {sealed : SealedSecret} {passphrase : String}
    (h : openDek p sealed passphrase = .ok v) : passphrase ≠ "" := by
  obtain ⟨_,hpass,-⟩ := bind_ok h
  exact requirePassphrase_ok hpass

theorem index_ok (hv : v.isOpen = true) (label value : String) :
    ∃ k, index p v label value = .ok k := by
  simp [index,hv]

/-- Two values under one label have two keys. -/
theorem index_inj (hp : p.Ideal) {label a b k : String} (ha : index p v label a = .ok k)
    (hb : index p v label b = .ok k) : a = b := by
  unfold index at ha hb
  split at ha
  · cases ha
  · cases ha
    split at hb
    · cases hb
    · have hex := Bytes.toHex_inj (Except.ok.inj hb)
      have htext := Bytes.utf8_inj (hp.hash _ _ _ hex)
      exact ((String.append_right_inj _).mp htext).symm

/-- What was sealed for a place opens there. -/
theorem Sealed.holds (hp : p.Ideal) {value blob : Val} {ad : String}
    (h : Sealed p v blob ad value) : Holds p v blob ad value := by
  obtain ⟨nonce,bytes,hn,h,rfl⟩ := h
  unfold sealRecord at h
  split at h
  · cases h
  · next hv =>
    obtain ⟨text,ht,h⟩ := bind_ok h
    cases h
    obtain ⟨opened,hd,hsame⟩ := hp.encoding value text ht
    have htag := hp.tag text (Bytes.utf8 ad) nonce v.encKey
    refine ⟨opened,?_,hsame⟩
    have hlen : ¬(nonce ++ p.aeadEncrypt text (Bytes.utf8 ad) nonce v.encKey).length ≤
        nonceBytes := by
      rw [List.length_append]
      omega
    rw [openRecord,if_neg hv]
    rw [if_neg hlen,← hn,List.drop_left,List.take_left,hp.aead,Option.bind_some,hd]

end

end DataVault

end Storage
