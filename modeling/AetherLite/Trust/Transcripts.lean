import AetherLite.Tracker.TrackerServer
import AetherLite.Trust.ListText
import AetherLite.Trust.ListVerification

/-! The four kinds of messages that are signed. Each begins with a domain of its own, none of
which begins another. -/
set_option autoImplicit false

namespace TrustedGuards

open Js NodeIdentity

/-- What a signature is made for. -/
inductive Transcript where
  | join (challenge : Bytes) (signerId : String) (binding : JoinBinding)
  | trackerJoin (nonce : Bytes) (peerId trackerHost : String)
  | guardDecl (peerId : String) (pubkey : Bytes) (powCounter issuedAt : Number)
  | guardList (content : GuardListContent)

namespace Transcript

/-- What the callers have checked of the fields. -/
def Valid : Transcript → Prop
  | join challenge _ _ => challenge.length = challengeBytes
  | trackerJoin _ _ _ => True
  | guardDecl _ pubkey powCounter issuedAt => pubkey.length = publicKeyBytes ∧
      (safeNat? 0 (.num powCounter)).isSome = true ∧ (safeNat? 0 (.num issuedAt)).isSome = true
  | guardList _ => True

def message (cfg : Config) (lower : String → String) : Transcript → Except Thrown Bytes
  | join challenge signerId binding => joinMessage challenge signerId binding
  | trackerJoin nonce peerId trackerHost => trackerJoinMessage lower nonce peerId trackerHost
  | guardDecl peerId pubkey powCounter issuedAt =>
    declarationMessage cfg peerId pubkey powCounter issuedAt
  | guardList content => listMessage cfg content

/-- The fields, the host up to letter case. -/
def lowered (lower : String → String) : Transcript → Transcript
  | trackerJoin nonce peerId trackerHost => trackerJoin nonce peerId (lower trackerHost)
  | t => t

def domain : Transcript → Bytes
  | join _ _ _ => joinDomain
  | trackerJoin _ _ _ => trackerJoinDomain
  | guardDecl _ _ _ _ => guardDeclDomain
  | guardList _ => guardListDomain

/-- A signature is taken for the fields under a key. -/
def Accepts (cfg : Config) (lower : String → String) (signature publicKey : Bytes)
    (t : Transcript) : Prop :=
  t.Valid ∧ ∃ m, t.message cfg lower = .ok m ∧
    cfg.sodium.verifyDetached signature m publicKey = true

section
variable {cfg : Config} {lower : String → String} {t t' : Transcript} {m : Bytes}

theorem domain_unique (h : t.domain <+: t'.domain) : t.domain = t'.domain := by
  cases t <;> cases t' <;> revert h <;> simp only [domain] <;> decide

theorem domain_eq {b b' : Bytes} (h : t.domain ++ b = t'.domain ++ b') :
    t.domain = t'.domain := by
  have hp : t.domain <+: t'.domain ++ b' := ⟨b,h⟩
  obtain hle | hle := List.prefix_or_prefix_of_prefix hp (List.prefix_append _ _)
  · exact domain_unique hle
  · exact (domain_unique hle).symm

theorem trackerJoinMessage_ok {nonce : Bytes} {peerId host : String}
    (h : trackerJoinMessage lower nonce peerId host = .ok m) :
    ∃ a b, nonce.length = challengeBytes ∧ lengthPrefixed peerId = .ok a ∧
      lengthPrefixed (lower host) = .ok b ∧
        m = trackerJoinDomain ++ (nonce ++ (a ++ (b ++ []))) := by
  unfold trackerJoinMessage at h
  split at h
  · cases h
  · next hlen =>
    obtain ⟨a,ha,h⟩ := bind_ok h
    obtain ⟨b,hb,h⟩ := bind_ok h
    cases h
    exact ⟨a,b,not_not.mp hlen,ha,hb,by simp⟩

theorem trackerJoinMessage_inj {nonce nonce' : Bytes} {peerId peerId' host host' : String}
    (h : trackerJoinMessage lower nonce peerId host = .ok m)
    (h' : trackerJoinMessage lower nonce' peerId' host' = .ok m) :
    nonce = nonce' ∧ peerId = peerId' ∧ lower host = lower host' := by
  obtain ⟨a,b,hlen,ha,hb,rfl⟩ := trackerJoinMessage_ok h
  obtain ⟨a',b',hlen',ha',hb',he⟩ := trackerJoinMessage_ok h'
  have he := List.append_cancel_left he
  obtain ⟨hnonce,he⟩ := List.append_inj he (hlen.trans hlen'.symm)
  obtain ⟨hid,he⟩ := lengthPrefixed_append_inj ha ha' he
  obtain ⟨hhost,-⟩ := lengthPrefixed_append_inj hb hb' he
  exact ⟨hnonce,hid,hhost⟩

theorem declarationMessage_ok {peerId : String} {pubkey : Bytes} {powCounter issuedAt : Number}
    (h : declarationMessage cfg peerId pubkey powCounter issuedAt = .ok m) :
    ∃ body, MsgPack.encode cfg.f (.arr [.num (Number.ofNat 1),.str peerId,.bytes pubkey,
      .num powCounter,.num issuedAt]) = some body ∧ m = guardDeclDomain ++ body := by
  obtain ⟨body,hbody,h⟩ := bind_ok h
  cases h
  exact ⟨body,packed_eq_ok.mp hbody,rfl⟩

theorem portable_of_safeNat {f : MsgPack.Float64} {n : Number} {least : Nat}
    (h : (safeNat? least (.num n)).isSome = true) : MsgPack.Portable f (.num n) := by
  simp only [MsgPack.Portable]
  intro hn
  simp [safeNat?,PowPolicy.safeInteger?,hn] at h

theorem portable_declaration {peerId : String} {pubkey : Bytes} {powCounter issuedAt : Number}
    (hv : (guardDecl peerId pubkey powCounter issuedAt).Valid) : MsgPack.Portable cfg.f
      (.arr [.num (Number.ofNat 1),.str peerId,.bytes pubkey,.num powCounter,.num issuedAt]) := by
  obtain ⟨-,hcounter,hissued⟩ := hv
  have hcounter : MsgPack.Portable cfg.f (.num powCounter) := portable_of_safeNat hcounter
  have hissued : MsgPack.Portable cfg.f (.num issuedAt) := portable_of_safeNat hissued
  have hone : MsgPack.Portable cfg.f (.num (Number.ofNat 1)) := portable_ofNat (by decide)
  simp only [MsgPack.Portable,MsgPack.PortableAll] at hone hcounter hissued ⊢
  exact ⟨hone,trivial,trivial,hcounter,hissued,trivial⟩

theorem declarationMessage_inj {peerId peerId' : String} {pubkey pubkey' : Bytes}
    {powCounter powCounter' issuedAt issuedAt' : Number}
    (hv : (guardDecl peerId pubkey powCounter issuedAt).Valid)
    (hv' : (guardDecl peerId' pubkey' powCounter' issuedAt').Valid)
    (h : declarationMessage cfg peerId pubkey powCounter issuedAt = .ok m)
    (h' : declarationMessage cfg peerId' pubkey' powCounter' issuedAt' = .ok m) :
    peerId = peerId' ∧ pubkey = pubkey' ∧ powCounter = powCounter' ∧ issuedAt = issuedAt' := by
  obtain ⟨body,hbody,hm⟩ := declarationMessage_ok h
  obtain ⟨body',hbody',hm'⟩ := declarationMessage_ok h'
  obtain rfl : body = body' := List.append_cancel_left (hm.symm.trans hm')
  have hread := MsgPack.decode_encode hbody (portable_declaration hv)
  have hread' := MsgPack.decode_encode hbody' (portable_declaration hv')
  rw [hread] at hread'
  simpa [Val.nullify,Val.nullifyAll] using hread'

theorem message_domain (h : t.message cfg lower = .ok m) : ∃ body, m = t.domain ++ body := by
  cases t with
  | join challenge signerId binding =>
    obtain ⟨a,b,c,d,-,-,-,-,hm⟩ := joinMessage_ok h
    exact ⟨_,hm⟩
  | trackerJoin nonce peerId host =>
    obtain ⟨a,b,-,-,-,hm⟩ := trackerJoinMessage_ok h
    exact ⟨_,hm⟩
  | guardDecl peerId pubkey powCounter issuedAt =>
    obtain ⟨body,-,hm⟩ := declarationMessage_ok h
    exact ⟨body,hm⟩
  | guardList content =>
    obtain ⟨body,-,hm⟩ := listMessage_ok.mp h
    exact ⟨body,hm⟩

/-- The message says of which kind it is and for which fields. -/
theorem message_inj (hv : t.Valid) (hv' : t'.Valid) (h : t.message cfg lower = .ok m)
    (h' : t'.message cfg lower = .ok m) : t.lowered lower = t'.lowered lower := by
  obtain ⟨body,hm⟩ := message_domain h
  obtain ⟨body',hm'⟩ := message_domain h'
  have hdomain : t.domain = t'.domain := domain_eq (hm.symm.trans hm')
  cases t with
  | join challenge signerId binding =>
    cases t' with
    | join challenge' signerId' binding' =>
      obtain ⟨rfl,rfl,rfl⟩ := joinMessage_inj (hv.trans hv'.symm) h h'
      rfl
    | _ => cases hdomain
  | trackerJoin nonce peerId host =>
    cases t' with
    | trackerJoin nonce' peerId' host' =>
      obtain ⟨rfl,rfl,hhost⟩ := trackerJoinMessage_inj h h'
      simp only [lowered,hhost]
    | _ => cases hdomain
  | guardDecl peerId pubkey powCounter issuedAt =>
    cases t' with
    | guardDecl peerId' pubkey' powCounter' issuedAt' =>
      obtain ⟨rfl,rfl,rfl,rfl⟩ := declarationMessage_inj hv hv' h h'
      rfl
    | _ => cases hdomain
  | guardList content =>
    cases t' with
    | guardList content' =>
      obtain rfl := listMessage_inj h h'
      rfl
    | _ => cases hdomain

/-! Who verifies a signature has checked the fields. -/

theorem accepts_of_verifySignedClaim {claim : SignedNodeClaim} {challenge : Bytes}
    {binding : JoinBinding} {params : PowParams}
    (h : verifySignedClaim cfg.sodium claim challenge binding params = true) :
    Accepts cfg lower claim.signature claim.pubkey (join challenge claim.peerId binding) := by
  have hverified := verified_of_verifySignedClaim h
  exact ⟨hverified.length,hverified.signature⟩

theorem accepts_of_proves {ρ : Type} {tracker : TrackerServer.Config ρ} {nonce : Bytes}
    {msg : TrackerProtocol.TrackerJoin} (hs : tracker.sodium = cfg.sodium)
    (h : TrackerServer.proves tracker nonce msg = true) :
    Accepts cfg tracker.lower (fromHex msg.sig.toList) (fromHex msg.pubkey.toList)
      (trackerJoin nonce msg.peerId msg.host) := by
  unfold TrackerServer.proves at h
  split at h
  · cases h
  · next m hm =>
    rw [hs] at h
    exact ⟨trivial,m,hm,h⟩

theorem accepts_of_parseGuardString {text : String} {powParams : PowParams} {g : TrustedGuard}
    (h : parseGuardString cfg text powParams = .ok (some g)) :
    ∃ sig issuedAt, Accepts cfg lower sig g.pubkey
      (guardDecl g.peerId g.pubkey g.powCounter issuedAt) := by
  obtain ⟨-,hlen,hcounter,issuedAt,m,sig,hissued,hm,hsig⟩ := parseGuardString_ok h
  exact ⟨sig,issuedAt,⟨hlen,hcounter,hissued⟩,m,hm,hsig⟩

theorem accepts_of_validSigners {keys : JsMap String Bytes} {content : GuardListContent}
    {m : Bytes} {sigs : List (String × Bytes)} {id : String}
    (hm : listMessage cfg content = .ok m) (h : id ∈ validSigners cfg keys m sigs []) :
    ∃ key sig, JsMap.get keys id = some key ∧ (id,sig) ∈ sigs ∧
      Accepts cfg lower sig key (guardList content) := by
  obtain hnil | ⟨key,sig,hget,hmem,-,hsig⟩ := (mem_validSigners sigs).mp h
  · cases hnil
  · exact ⟨key,sig,hget,hmem,trivial,m,hm,hsig⟩

end

end Transcript

open Transcript

end TrustedGuards
