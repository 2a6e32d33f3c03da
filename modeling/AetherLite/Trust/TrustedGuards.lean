import AetherLite.Crypto.NodeIdentity
import AetherLite.Lib.Base64
import AetherLite.Lib.MsgPack

/-! The lists of trusted guards: each guard is declared by its operator, the list is signed by
the maintainers whose keys come with the app. -/
set_option autoImplicit false

namespace TrustedGuards

open Js NodeIdentity

/-- `AETHER/v1/guard-list` -/
def guardListDomain : Bytes :=
  [65,69,84,72,69,82,47,118,49,47,103,117,97,114,100,45,108,105,115,116]

def guardStringPrefix : String := "aether-guard:"
def guardListPrefix : String := "aether-guards:"

def maxGuards : Nat := 512
def maxRevoked : Nat := 4096
def maxValidityMs : Nat := 180*24*60*60*1000
def clockSkewMs : Nat := 10*60*1000
def maxSignatures : Nat := 16
def maxStringLength : Nat := 2*1024*1024
def maxGuardStringLength : Nat := 4096
def maxSafeNat : Nat := 9007199254740991

structure MaintainerKeySet where
  threshold : Number
  keys : List Bytes

structure TrustedGuard where
  peerId : String
  pubkey : Bytes
  powCounter : Number
  deriving DecidableEq

/-- The content of a list as its caller gives it. -/
structure RawContent where
  version : Number
  issuedAt : Number
  expiresAt : Number
  guards : List String
  revoked : List String

/-- The content of a list as it is read. -/
structure GuardListContent where
  version : Nat
  issuedAt : Nat
  expiresAt : Nat
  guards : List String
  revoked : List String
  version_range : 1 ≤ version ∧ version ≤ maxSafeNat
  issuedAt_range : 0 ≤ issuedAt ∧ issuedAt ≤ maxSafeNat
  expiresAt_range : 0 ≤ expiresAt ∧ expiresAt ≤ maxSafeNat
  deriving DecidableEq

inductive GuardListRejectReason where
  | malformed
  | tooLarge
  | noKeyset
  | insufficientSignatures
  | rollback
  | expired
  | notYetValid
  | validityTooLong
  | badGuard
  | tooManyGuards
  deriving DecidableEq

inductive GuardListResult where
  | ok (version issuedAt expiresAt : Nat) (guards : List TrustedGuard) (revoked : List String)
  | rejected (reason : GuardListRejectReason) (detail : Option String)
  deriving DecidableEq

structure VerifyOptions where
  now : Int
  minVersion : Option Int := none
  powParams : PowParams := nodeIdPow

/-- The packages: `decode` of msgpack is none when it throws. -/
structure Config where
  sodium : Sodium
  publicKeyOf : Bytes → Bytes
  f : MsgPack.Float64
  unpack : Bytes → Option Val

/-- A safe integer that is not below a bound. -/
def safeNat? (least : Nat) (v : Val) : Option { k : Nat // least ≤ k ∧ k ≤ maxSafeNat } :=
  (PowPolicy.safeInteger? v).bind fun i =>
    if h : least ≤ i.toNat ∧ i.toNat ≤ maxSafeNat then if 0 ≤ i then some ⟨i.toNat,h⟩ else none
    else none

def strOf? : Val → Option String
  | .str s => some s
  | _ => none

/-- The pairs of a key id and a signature; the loop returns at the first that is none, and
throws at the first whose bytes cannot be had. -/
def parseSigs : List Val → Except Thrown (Option (List (String × Bytes)))
  | [] => .ok (some [])
  | .arr [.str id,sig] :: rest => do
    let bs ← PowPolicy.toBytes sig
    let sigs ← parseSigs rest
    .ok (sigs.map ((id,bs) :: ·))
  | _ :: _ => .ok none

def parseContent (v version issuedAt expiresAt : Val) (guards revoked : List Val) :
    Option GuardListContent :=
  if !v.strictEq (.num (Number.ofNat 1)) then none
  else do
    let ⟨version,version_range⟩ ← safeNat? 1 version
    let ⟨issuedAt,issuedAt_range⟩ ← safeNat? 0 issuedAt
    let ⟨expiresAt,expiresAt_range⟩ ← safeNat? 0 expiresAt
    let guards ← guards.mapM strOf?
    let revoked ← revoked.mapM strOf?
    some { version, issuedAt, expiresAt, guards, revoked,
           version_range, issuedAt_range, expiresAt_range }

section
variable (cfg : Config)

/-- The first eight bytes of the hash of a key. -/
def maintainerKeyId (pubkey : Bytes) : String := Bytes.toHex ((cfg.sodium.sha256 pubkey).take 8)

def packed (v : Val) : Except Thrown Bytes :=
  match MsgPack.encode cfg.f v with
  | some bs => .ok bs
  | none => .error (.error "msgpack")

def declarationMessage (peerId : String) (pubkey : Bytes) (powCounter issuedAt : Number) :
    Except Thrown Bytes := do
  let body ← packed cfg (.arr [.num (Number.ofNat 1),.str peerId,.bytes pubkey,.num powCounter,.num issuedAt])
  .ok (guardDeclDomain ++ body)

/-- The declaration that a guard string holds, if it is valid. -/
def parseGuardString (text : String) (powParams : PowParams) : Except Thrown (Option TrustedGuard) :=
  match afterPrefix? guardStringPrefix text with
  | none => .ok none
  | some rest =>
    if maxGuardStringLength < utf16Length text then .ok none
    else match (Base64.decode rest).bind cfg.unpack with
    | some (.arr [v,.str peerId,pubkeyRaw,.num powCounter,.num issuedAt,sigRaw]) =>
      if !v.strictEq (.num (Number.ofNat 1)) || (safeNat? 0 (.num issuedAt)).isNone ||
          (safeNat? 0 (.num powCounter)).isNone then .ok none
      else do
        let pubkey ← PowPolicy.toBytes pubkeyRaw
        let sig ← PowPolicy.toBytes sigRaw
        if pubkey.length ≠ publicKeyBytes ∨ sig.length ≠ signatureBytes then .ok none
        else match declarationMessage cfg peerId pubkey powCounter issuedAt with
        | .error _ => .ok none
        | .ok message =>
          if cfg.sodium.verifyDetached sig message pubkey &&
              verifyClaim cfg.sodium ⟨peerId,pubkey,powCounter⟩ powParams then
            .ok (some ⟨peerId,pubkey,powCounter⟩)
          else .ok none
    | _ => .ok none

def listFields (c : GuardListContent) : List Val :=
  [.num (Number.ofNat 1),.num (Number.ofNat c.version),.num (Number.ofNat c.issuedAt),
    .num (Number.ofNat c.expiresAt),.arr (c.guards.map .str),.arr (c.revoked.map .str)]

def listMessage (c : GuardListContent) : Except Thrown Bytes := do
  let body ← packed cfg (.arr (listFields c))
  .ok (guardListDomain ++ body)

def sigVal (e : String × Bytes) : Val := .arr [.str e.1,.bytes e.2]

def listText (c : GuardListContent) (sigs : List (String × Bytes)) : Except Thrown String := do
  let body ← packed cfg (.arr (listFields c ++ [.arr (sigs.map sigVal)]))
  .ok (guardListPrefix ++ String.ofList (Base64.encode body))

def decodeListString (text : String) :
    Except Thrown (Option (GuardListContent × List (String × Bytes))) :=
  match afterPrefix? guardListPrefix text with
  | none => .ok none
  | some rest =>
    if maxStringLength < utf16Length text then .ok none
    else match (Base64.decode (trim rest)).bind cfg.unpack with
    | some (.arr [v,version,issuedAt,expiresAt,.arr guards,.arr revoked,.arr sigs]) =>
      match parseContent v version issuedAt expiresAt guards revoked with
      | none => .ok none
      | some content =>
        if maxSignatures < sigs.length then .ok none
        else do
          let sigs ← parseSigs sigs
          .ok (sigs.map (content,·))
    | _ => .ok none

def validateContentShape (c : RawContent) : Except Thrown GuardListContent :=
  match safeNat? 1 (.num c.version) with
  | none => .error (.rangeError "version must be a positive integer")
  | some version =>
    match safeNat? 0 (.num c.issuedAt),safeNat? 0 (.num c.expiresAt) with
    | some issuedAt,some expiresAt =>
      if expiresAt.1 ≤ issuedAt.1 then .error (.rangeError "issuedAt / expiresAt are invalid")
      else if maxValidityMs < expiresAt.1-issuedAt.1 then .error (.rangeError "validity is too long")
      else if maxGuards < c.guards.length then .error (.rangeError "too many guards")
      else if maxRevoked < c.revoked.length then .error (.rangeError "too many revocations")
      else .ok ⟨version.1,issuedAt.1,expiresAt.1,c.guards,c.revoked,version.2,issuedAt.2,expiresAt.2⟩
    | _,_ => .error (.rangeError "issuedAt / expiresAt are invalid")

/-- The signatures on a list that is to be signed; it has the same content. -/
def existingSigs (message : Bytes) (existing : Option String) : Except Thrown (List (String × Bytes)) :=
  match existing with
  | none | some "" => .ok []
  | some text => do
    match ← decodeListString cfg text with
    | none => .error (.error "signGuardList: existing list is malformed")
    | some (content,sigs) =>
      let previous ← listMessage cfg content
      if previous.length ≠ message.length then
        .error (.typeError "Only instances of identical length can be compared")
      else if previous ≠ message then
        .error (.error "signGuardList: existing list has different content")
      else .ok sigs

/-- The signature of a maintainer in the place of one under the same key id. -/
def addSignature (message maintainerSecretKey : Bytes) (sigs : List (String × Bytes)) :
    List (String × Bytes) :=
  let keyId := maintainerKeyId cfg (cfg.publicKeyOf maintainerSecretKey)
  sigs.filter (fun e => e.1 ≠ keyId) ++ [(keyId,cfg.sodium.signDetached message maintainerSecretKey)]

def signGuardList (content : RawContent) (maintainerSecretKey : Bytes) (existing : Option String) :
    Except Thrown String := do
  let c ← validateContentShape content
  let message ← listMessage cfg c
  let sigs ← existingSigs cfg message existing
  listText cfg c (addSignature cfg message maintainerSecretKey sigs)

/-- The keys by their ids; of two under one id the later stays. -/
def keysById (keys : List Bytes) : JsMap String Bytes :=
  keys.foldl (fun m k => JsMap.set m (maintainerKeyId cfg k) k) []

/-- The ids of the keys that have signed, each once. -/
def validSigners (keys : JsMap String Bytes) (message : Bytes) :
    List (String × Bytes) → List String → List String
  | [], signers => signers
  | (keyId,sig) :: sigs, signers =>
    match JsMap.get keys keyId with
    | none => validSigners keys message sigs signers
    | some key =>
      if signers.contains keyId || sig.length ≠ signatureBytes then
        validSigners keys message sigs signers
      else if cfg.sodium.verifyDetached sig message key then
        validSigners keys message sigs (signers ++ [keyId])
      else validSigners keys message sigs signers

/-- The loop over the guards, with the ids seen and the guards that are not revoked. -/
def guardLoop (powParams : PowParams) (revoked : List String) :
    List String → List String → List TrustedGuard → Except Thrown (Except (Option String) (List TrustedGuard))
  | [], _, guards => .ok (.ok guards)
  | g :: rest, seen, guards =>
    match parseGuardString cfg g powParams with
    | .error e => .error e
    | .ok none => .ok (.error none)
    | .ok (some parsed) =>
      if seen.contains parsed.peerId then .ok (.error (some "duplicate"))
      else guardLoop powParams revoked rest (parsed.peerId :: seen)
        (if revoked.contains parsed.peerId then guards else guards ++ [parsed])

/-- The version, the times and the guards of a list that is sufficiently signed. -/
def checkContent (content : GuardListContent) (opts : VerifyOptions) : Except Thrown GuardListResult :=
  if opts.minVersion.any fun (least : Int) => (content.version : Int) < least then
    .ok (.rejected .rollback (opts.minVersion.map fun least =>
      toString content.version ++ " < " ++ toString least))
  else if content.expiresAt ≤ content.issuedAt ∨ maxValidityMs < content.expiresAt-content.issuedAt then
    .ok (.rejected .validityTooLong none)
  else if opts.now+clockSkewMs < content.issuedAt then .ok (.rejected .notYetValid none)
  else if content.expiresAt ≤ opts.now then .ok (.rejected .expired none)
  else if maxGuards < content.guards.length ∨ maxRevoked < content.revoked.length then
    .ok (.rejected .tooManyGuards none)
  else
    match guardLoop cfg opts.powParams content.revoked content.guards [] [] with
    | .error e => .error e
    | .ok (.error detail) => .ok (.rejected .badGuard detail)
    | .ok (.ok guards) =>
      .ok (.ok content.version content.issuedAt content.expiresAt guards content.revoked)

/-- The threshold of a keyset that can be met. -/
def threshold? (keyset : MaintainerKeySet) : Option Nat :=
  keyset.threshold.toInt?.bind fun k =>
    if keyset.keys ≠ [] ∧ 1 ≤ k ∧ k ≤ keyset.keys.length then some k.toNat else none

def verifyGuardList (text : String) (keyset : MaintainerKeySet) (opts : VerifyOptions) :
    Except Thrown GuardListResult :=
  if maxStringLength < utf16Length text then .ok (.rejected .tooLarge none)
  else do
    match ← decodeListString cfg (String.ofList (trim text.toList)) with
    | none => .ok (.rejected .malformed none)
    | some (content,sigs) =>
      match threshold? keyset with
      | none => .ok (.rejected .noKeyset none)
      | some threshold =>
        let message ← listMessage cfg content
        let signers := validSigners cfg (keysById cfg keyset.keys) message sigs []
        if signers.length < threshold then
          .ok (.rejected .insufficientSignatures
            (some (toString signers.length ++ "/" ++ toString threshold)))
        else checkContent cfg content opts

end

end TrustedGuards
