import AetherLite.Lib.JsValue

/-! Secrets sealed with a passphrase. What libsodium and msgpack do for the vaults is a
parameter. -/
set_option autoImplicit false

namespace Storage

open Js

/-- libsodium and msgpack as the two vaults call them. -/
structure Primitives where
  pwhash : (passphrase : String) → (salt : Bytes) → (opsLimit memLimit : Nat) → Except Thrown Bytes
  secretboxEasy : (message nonce key : Bytes) → Bytes
  secretboxOpenEasy : (ciphertext nonce key : Bytes) → Option Bytes
  kdfDeriveFromKey : (subkey : Nat) → (context : String) → (key : Bytes) →
    {derived : Bytes // derived.length = 32}
  aeadEncrypt : (message ad nonce key : Bytes) → Bytes
  aeadDecrypt : (ciphertext ad nonce key : Bytes) → Option Bytes
  generichash : (input key : Bytes) → Bytes
  encode : Val → Except Thrown Bytes
  decode : Bytes → Option Val

/-- What the vaults rely on: a box opens under the key it was closed with and under no
other, a keyed hash has no collision, and a decoder takes back what was encoded. -/
structure Primitives.Ideal (p : Primitives) : Prop where
  box : ∀ m n k, p.secretboxOpenEasy (p.secretboxEasy m n k) n k = some m
  boxKey : ∀ m n k k' m', p.secretboxOpenEasy (p.secretboxEasy m n k) n k' = some m' → k' = k
  passphrase : ∀ a b salt opsLimit memLimit key, p.pwhash a salt opsLimit memLimit = .ok key →
    p.pwhash b salt opsLimit memLimit = .ok key → a = b
  limits : ∀ a b salt salt' opsLimit memLimit key, p.pwhash a salt opsLimit memLimit = .ok key →
    ∃ key', p.pwhash b salt' opsLimit memLimit = .ok key'
  aead : ∀ m ad n k, p.aeadDecrypt (p.aeadEncrypt m ad n k) ad n k = some m
  tag : ∀ m ad n k, 0 < (p.aeadEncrypt m ad n k).length
  hash : ∀ k a b, p.generichash a k = p.generichash b k → a = b
  encoding : ∀ v bs, p.encode v = .ok bs → ∃ w, p.decode bs = some w ∧ w.Same v

structure VaultParams where
  opsLimit : Nat
  memLimit : Nat

structure SealedSecret where
  v : Nat := 1
  /-- `protected` -/
  isProtected : Bool
  salt : Bytes
  nonce : Bytes
  ciphertext : Bytes
  opsLimit : Nat
  memLimit : Nat

def wrongPassphrase : Thrown := .error "Wrong passphrase (or the vault was tampered with)"

namespace SecretVault

section
variable (p : Primitives)

/-- `SecretVault.seal` with the salt and the nonce it draws. -/
def sealSecret (secret : Bytes) (passphrase : String) (params : VaultParams) (salt nonce : Bytes) :
    Except Thrown SealedSecret := do
  let key ← p.pwhash passphrase salt params.opsLimit params.memLimit
  .ok {
    isProtected := decide (passphrase ≠ "")
    salt := salt
    nonce := nonce
    ciphertext := p.secretboxEasy secret nonce key
    opsLimit := params.opsLimit
    memLimit := params.memLimit }

/-- `SecretVault.open` -/
def openSealed (sealed : SealedSecret) (passphrase : String) : Option Bytes :=
  if sealed.v ≠ 1 then none
  else match p.pwhash passphrase sealed.salt sealed.opsLimit sealed.memLimit with
  | .error _ => none
  | .ok key => p.secretboxOpenEasy sealed.ciphertext sealed.nonce key

/-- The secret was sealed with the passphrase. -/
def SealedBy (sealed : SealedSecret) (secret : Bytes) (passphrase : String) : Prop :=
  ∃ params salt nonce, sealSecret p secret passphrase params salt nonce = .ok sealed

end

section
variable {p : Primitives} {sealed : SealedSecret} {secret : Bytes} {passphrase : String}

theorem SealedBy.isProtected (h : SealedBy p sealed secret passphrase) :
    sealed.isProtected = decide (passphrase ≠ "") := by
  obtain ⟨params,salt,nonce,h⟩ := h
  obtain ⟨key,-,h⟩ := bind_ok h
  cases h
  rfl

/-- A sealed secret opens under its passphrase and under no other. -/
theorem SealedBy.openSealed_iff (hp : p.Ideal) (h : SealedBy p sealed secret passphrase)
    (other : String) (opened : Bytes) :
    openSealed p sealed other = some opened ↔ other = passphrase ∧ opened = secret := by
  obtain ⟨params,salt,nonce,h⟩ := h
  obtain ⟨key,hkey,h⟩ := bind_ok h
  cases h
  have hown : openSealed p {
      isProtected := decide (passphrase ≠ ""), salt := salt, nonce := nonce,
      ciphertext := p.secretboxEasy secret nonce key, opsLimit := params.opsLimit,
      memLimit := params.memLimit } passphrase = some secret := by
    simp [openSealed,hkey,hp.box]
  constructor
  · intro ho
    have hpass : other = passphrase := by
      simp only [openSealed,ne_eq,not_true_eq_false,if_false] at ho
      split at ho
      · cases ho
      · next key' hkey' =>
        have hk := hp.boxKey _ _ _ _ _ ho
        exact hp.passphrase _ _ _ _ _ _ hkey' (hk ▸ hkey)
    subst hpass
    rw [hown] at ho
    exact ⟨rfl,(Option.some.inj ho).symm⟩
  · rintro ⟨rfl,rfl⟩
    exact hown

end

end SecretVault

/-! A stand-in for the libraries, whose boxes show the key they were closed with. -/

namespace Sample

/-- A byte string that shows where it ends. -/
def frame (bs : Bytes) : Bytes := bs.flatMap (fun b => [1,b]) ++ [0]

def unframe : Bytes → Option (Bytes × Bytes)
  | 0 :: rest => some ([],rest)
  | 1 :: b :: rest => (unframe rest).map fun r => (b :: r.1,r.2)
  | _ => none

theorem unframe_frame (bs rest : Bytes) : unframe (frame bs ++ rest) = some (bs,rest) := by
  induction bs with
  | nil => rfl
  | cons b bs ih => simpa [frame,unframe] using ih

def close (key m : Bytes) : Bytes := frame key ++ m

def reopen (key c : Bytes) : Option Bytes :=
  (unframe c).bind fun r => if r.1 = key then some r.2 else none

theorem reopen_close (key m : Bytes) : reopen key (close key m) = some m := by
  simp [reopen,close,unframe_frame]

theorem reopen_eq_some {key key' m m' : Bytes} (h : reopen key' (close key m) = some m') :
    key' = key := by
  simp only [reopen,close,unframe_frame,Option.bind_some,Option.ite_none_right_eq_some] at h
  exact h.1.symm

/-- A stored post, and the `meta` of a node identity: the two values that have encodings. -/
def post : Val := .obj [
  ("boardId",.str "B"),("threadId",.str "T"),("payload",.bytes [1]),("timestamp",.num (.fin 1))]

def encode : Val → Except Thrown Bytes
  | .obj [("boardId",.str b),("threadId",.str t),("payload",.bytes bs),("timestamp",.num n)] =>
    if b = "B" ∧ t = "T" ∧ bs = [1] ∧ n = .fin 1 then .ok [1] else .error (.error "not encoded")
  | _ => .error (.error "not encoded")

theorem encode_eq_ok {v : Val} {bs : Bytes} (h : encode v = .ok bs) : v = post ∧ bs = [1] := by
  unfold encode at h
  split at h
  · split at h
    · next hv =>
      obtain ⟨rfl,rfl,rfl,rfl⟩ := hv
      cases h
      exact ⟨rfl,rfl⟩
    · cases h
  · cases h

end Sample

def sample : Primitives where
  pwhash passphrase salt _ _ := .ok (Bytes.utf8 passphrase ++ salt)
  secretboxEasy m _ key := Sample.close key m
  secretboxOpenEasy c _ key := Sample.reopen key c
  kdfDeriveFromKey _ _ key := ⟨(key ++ List.replicate 32 0).take 32,by simp⟩
  aeadEncrypt m _ _ key := Sample.close key m
  aeadDecrypt c _ _ key := Sample.reopen key c
  generichash input _ := input
  encode := Sample.encode
  decode bs := if bs = [1] then some Sample.post else none

theorem sample_ideal : sample.Ideal where
  box m n k := Sample.reopen_close k m
  boxKey m n k k' m' h := Sample.reopen_eq_some h
  passphrase a b salt _ _ key ha hb := by
    have h : Bytes.utf8 a ++ salt = Bytes.utf8 b ++ salt :=
      (Except.ok.inj ha).trans (Except.ok.inj hb).symm
    exact Bytes.utf8_inj (List.append_cancel_right h)
  limits a b salt salt' _ _ _ _ := ⟨_,rfl⟩
  aead m ad n k := Sample.reopen_close k m
  tag m ad n k := by simp [sample,Sample.close,Sample.frame]
  hash k a b h := h
  encoding v bs h := by
    obtain ⟨rfl,rfl⟩ := Sample.encode_eq_ok h
    exact ⟨_,rfl,rfl⟩

end Storage
