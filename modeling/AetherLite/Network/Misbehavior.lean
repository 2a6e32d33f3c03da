import AetherLite.Lib.JsMap
import AetherLite.Lib.Machine
import Mathlib.Algebra.Order.Floor.Semiring
import Mathlib.Algebra.Order.Ring.Rat
import Mathlib.Data.Rat.Floor
import Mathlib.Tactic.NormNum
import Mathlib.Tactic.Linarith
import Mathlib.Tactic.Positivity

/-! The record of misbehaviour. A score is halved when it is looked at, and the time of the look
becomes the time of the score. -/
set_option autoImplicit false

namespace PeerMisbehaviorManager

structure MisbehaviorOptions where
  banThreshold : Rat := 100
  banDurationMs : Rat := 60*60*1000
  decayIntervalMs : Rat := 10*60*1000
  decayIntervalMs_pos : 0 < decayIntervalMs

theorem decayIntervalMs_default_pos : (0 : Rat) < 10*60*1000 := by norm_num

def defaults : MisbehaviorOptions := { decayIntervalMs_pos := decayIntervalMs_default_pos }

structure PeerScoreRecord where
  score : Rat
  lastUpdated : Rat
  deriving DecidableEq

structure State where
  scores : JsMap String PeerScoreRecord := []
  bannedPeers : JsMap String Rat := []

variable (o : MisbehaviorOptions)

/-- A ban that is over is lifted when it is looked for. -/
def isBanned (s : State) (peerId : String) (now : Rat) : Bool × State :=
  match JsMap.get s.bannedPeers peerId with
  | none => (false,s)
  | some expiry =>
    if expiry ≤ now then
      (false,⟨JsMap.delete s.scores peerId,JsMap.delete s.bannedPeers peerId⟩)
    else (true,s)

def getScore (s : State) (peerId : String) (now : Rat) : Rat × State :=
  match JsMap.get s.scores peerId with
  | none => (0,s)
  | some record =>
    let elapsed := now-record.lastUpdated
    if elapsed < o.decayIntervalMs then (record.score,s)
    else
      let halfLifeCount := ⌊elapsed/o.decayIntervalMs⌋₊
      let decayedScore : Rat := ⌊record.score/2^halfLifeCount⌋
      if decayedScore ≤ 0 then (0,{ s with scores := JsMap.delete s.scores peerId })
      else (decayedScore,{ s with scores := JsMap.set s.scores peerId ⟨decayedScore,now⟩ })

def banPeer (s : State) (peerId : String) (durationMs now : Rat) : State :=
  ⟨JsMap.delete s.scores peerId,JsMap.set s.bannedPeers peerId (now+durationMs)⟩

def unbanPeer (s : State) (peerId : String) : State :=
  ⟨JsMap.delete s.scores peerId,JsMap.delete s.bannedPeers peerId⟩

def recordViolation (s : State) (peerId : String) (violation now : Rat) : Bool × State :=
  let (banned,s) := isBanned s peerId now
  if banned then (true,s)
  else
    let (currentScore,s) := getScore o s peerId now
    let newScore := currentScore+violation
    let s := { s with scores := JsMap.set s.scores peerId ⟨newScore,now⟩ }
    if o.banThreshold ≤ newScore then (true,banPeer s peerId o.banDurationMs now) else (false,s)

inductive Call where
  | recordViolation (peerId : String) (violation : Rat)
  | isBanned (peerId : String)
  | getScore (peerId : String)
  | banPeer (peerId : String) (durationMs : Rat)
  | unbanPeer (peerId : String)
  | clear

/-- What a call returns. -/
inductive Answer where
  | ban (banned : Bool)
  | score (value : Rat)
  | done
  deriving DecidableEq

def call (s : State) (now : Rat) : Call → Answer × State
  | .recordViolation peerId violation =>
    ((recordViolation o s peerId violation now).map .ban id)
  | .isBanned peerId => (isBanned s peerId now).map .ban id
  | .getScore peerId => (getScore o s peerId now).map .score id
  | .banPeer peerId durationMs => (.done,banPeer s peerId durationMs now)
  | .unbanPeer peerId => (.done,unbanPeer s peerId)
  | .clear => (.done,{})

/-- An entry of a timeline: a call of the program, or a read of a score that is put in. -/
inductive Entry where
  | call (c : Call)
  | read (peerId : String)

def Entry.isCall : Entry → Bool
  | .call _ => true
  | .read _ => false

/-- A record of misbehaviour, the time of its last call, and the answers so far. -/
structure Timed where
  manager : State := {}
  now : Rat
  answers : List Answer := []

/-- The clock never goes back. -/
def step (s : Timed) (a : Rat × Entry) : Option Timed :=
  if a.1 < s.now then none
  else match a.2 with
  | .call c =>
    let (answer,manager) := call o s.manager a.1 c
    some ⟨manager,a.1,s.answers ++ [answer]⟩
  | .read peerId => some { s with manager := (getScore o s.manager peerId a.1).2, now := a.1 }

/-- The timeline without the reads that were put in. -/
def withoutReads (entries : List (Rat × Entry)) : List (Rat × Entry) :=
  entries.filter fun a => a.2.isCall

/-- The reads that were put in are not seen in any answer. -/
def Unseen (start : Rat) (entries : List (Rat × Entry)) : Prop :=
  ∀ s, Machine.run (step o) { now := start } entries = some s →
    ∃ u, Machine.run (step o) { now := start } (withoutReads entries) = some u ∧
      u.answers = s.answers

/-- They are not seen after any part of the timeline, whatever is called then. -/
def NeverSeen (start : Rat) (entries : List (Rat × Entry)) : Prop :=
  ∀ as bs calls, entries = as ++ bs → withoutReads calls = calls → Unseen o start (as ++ calls)

/-- What is left of a score after the half-lives that have gone by is nothing. -/
def Spent (record : PeerScoreRecord) (now : Rat) : Prop :=
  o.decayIntervalMs ≤ now-record.lastUpdated ∧
    record.score/2^⌊(now-record.lastUpdated)/o.decayIntervalMs⌋₊ < 1

instance (record : PeerScoreRecord) (now : Rat) : Decidable (Spent o record now) :=
  inferInstanceAs (Decidable (_ ∧ _))

/-- A read comes before the first half-life is over, or when nothing is left of the score. -/
def Harmless (s : Timed) (a : Rat × Entry) : Prop :=
  ∀ peerId, a.2 = .read peerId → s.now ≤ a.1 →
    ∀ record, JsMap.get s.manager.scores peerId = some record →
      a.1-record.lastUpdated < o.decayIntervalMs ∨ Spent o record a.1

section
variable {o} {record : PeerScoreRecord} {s u : State} {p q : String} {now later : Rat}

/-- The score a read reports. -/
def worth (o : MisbehaviorOptions) (now : Rat) : Option PeerScoreRecord → Rat
  | none => 0
  | some record =>
    if now-record.lastUpdated < o.decayIntervalMs then record.score
    else
      let decayedScore : Rat := ⌊record.score/2^⌊(now-record.lastUpdated)/o.decayIntervalMs⌋₊⌋
      if decayedScore ≤ 0 then 0 else decayedScore

/-- The record a read leaves. -/
def kept (o : MisbehaviorOptions) (now : Rat) : Option PeerScoreRecord → Option PeerScoreRecord
  | none => none
  | some record =>
    if now-record.lastUpdated < o.decayIntervalMs then some record
    else
      let decayedScore : Rat := ⌊record.score/2^⌊(now-record.lastUpdated)/o.decayIntervalMs⌋₊⌋
      if decayedScore ≤ 0 then none else some ⟨decayedScore,now⟩

theorem get_delete (m : JsMap String PeerScoreRecord) (p q : String) :
    JsMap.get (JsMap.delete m p) q = if q = p then none else JsMap.get m q := by
  split
  · next h => rw [h,JsMap.get_delete_self]
  · next h => exact JsMap.get_delete_ne h

theorem get_set (m : JsMap String PeerScoreRecord) (p q : String) (record : PeerScoreRecord) :
    JsMap.get (JsMap.set m p record) q = if q = p then some record else JsMap.get m q := by
  split
  · next h => rw [h,JsMap.get_set_self]
  · next h => exact JsMap.get_set_ne _ h record

theorem getScore_worth (s : State) (p : String) (now : Rat) :
    (getScore o s p now).1 = worth o now (JsMap.get s.scores p) := by
  unfold getScore worth
  split
  · rfl
  dsimp only
  split
  · rfl
  split <;> rfl

theorem getScore_kept (s : State) (p q : String) (now : Rat) :
    JsMap.get (getScore o s p now).2.scores q =
      if q = p then kept o now (JsMap.get s.scores p) else JsMap.get s.scores q := by
  unfold getScore kept
  split
  · next hget =>
    split
    · next hq => rw [hq,hget]
    · rfl
  next record hget =>
  dsimp only
  split
  · split
    · next hq => rw [hq,hget]
    · rfl
  split
  · exact get_delete _ _ _
  · exact get_set _ _ _ _

theorem getScore_bannedPeers (s : State) (p : String) (now : Rat) :
    (getScore o s p now).2.bannedPeers = s.bannedPeers := by
  unfold getScore
  split
  · rfl
  dsimp only
  split
  · rfl
  split <;> rfl

theorem halves_nonpos_iff {x : Rat} : ((⌊x⌋ : Int) : Rat) ≤ 0 ↔ x < 1 := by
  rw [Int.cast_nonpos,← Int.lt_add_one_iff,Int.floor_lt]
  simp

/-- Nothing is left of a score later on either. -/
theorem Spent.mono (h : Spent o record now) (hle : now ≤ later) : Spent o record later := by
  obtain ⟨hold,hspent⟩ := h
  have helapsed : now-record.lastUpdated ≤ later-record.lastUpdated := by linarith
  refine ⟨hold.trans helapsed,?_⟩
  have hcount : ⌊(now-record.lastUpdated)/o.decayIntervalMs⌋₊ ≤
      ⌊(later-record.lastUpdated)/o.decayIntervalMs⌋₊ :=
    Nat.floor_le_floor (div_le_div_of_nonneg_right helapsed o.decayIntervalMs_pos.le)
  have hpow : (2 : Rat)^⌊(now-record.lastUpdated)/o.decayIntervalMs⌋₊ ≤
      2^⌊(later-record.lastUpdated)/o.decayIntervalMs⌋₊ :=
    pow_le_pow_right₀ (by norm_num) hcount
  rw [div_lt_one (by positivity)] at hspent ⊢
  exact hspent.trans_le hpow

theorem Spent.worth (h : Spent o record now) : worth o now (some record) = 0 := by
  simp only [PeerMisbehaviorManager.worth]
  rw [if_neg (not_lt.mpr h.1),if_pos (halves_nonpos_iff.mpr h.2)]

theorem Spent.kept (h : Spent o record now) : kept o now (some record) = none := by
  simp only [PeerMisbehaviorManager.kept]
  rw [if_neg (not_lt.mpr h.1),if_pos (halves_nonpos_iff.mpr h.2)]

/-- There is no record, or nothing is left of its score. -/
def Void (o : MisbehaviorOptions) (now : Rat) (entry : Option PeerScoreRecord) : Prop :=
  ∀ record, entry = some record → Spent o record now

theorem Void.worth {entry : Option PeerScoreRecord} (h : Void o now entry) :
    worth o now entry = 0 := by
  cases entry with
  | none => rfl
  | some record => exact (h record rfl).worth

theorem Void.kept {entry : Option PeerScoreRecord} (h : Void o now entry) :
    kept o now entry = none := by
  cases entry with
  | none => rfl
  | some record => exact (h record rfl).kept

/-- The records of a peer are the same, or neither is worth anything. -/
def Alike (o : MisbehaviorOptions) (now : Rat) (a b : Option PeerScoreRecord) : Prop :=
  a = b ∨ Void o now a ∧ Void o now b

/-- No answer from now on tells the two apart. -/
structure Same (o : MisbehaviorOptions) (now : Rat) (s u : State) : Prop where
  banned : s.bannedPeers = u.bannedPeers
  alike : ∀ p, Alike o now (JsMap.get s.scores p) (JsMap.get u.scores p)

theorem Void.mono {entry : Option PeerScoreRecord} (h : Void o now entry) (hle : now ≤ later) :
    Void o later entry := fun record hr => (h record hr).mono hle

section
variable {a b : Option PeerScoreRecord}

theorem Alike.mono (h : Alike o now a b) (hle : now ≤ later) : Alike o later a b := by
  obtain h | ⟨ha,hb⟩ := h
  · exact .inl h
  · exact .inr ⟨ha.mono hle,hb.mono hle⟩

theorem Alike.worth (h : Alike o now a b) : worth o now a = worth o now b := by
  obtain rfl | ⟨ha,hb⟩ := h
  · rfl
  · rw [ha.worth,hb.worth]

theorem Alike.kept (h : Alike o now a b) : kept o now a = kept o now b := by
  obtain rfl | ⟨ha,hb⟩ := h
  · rfl
  · rw [ha.kept,hb.kept]

/-- A read before the first half-life is over, or of a score that is spent. -/
theorem Alike.read (h : Alike o now a b) (hr : ∀ record, a = some record →
    now-record.lastUpdated < o.decayIntervalMs ∨ Spent o record now) :
    Alike o now (PeerMisbehaviorManager.kept o now a) b := by
  cases a with
  | none => exact h
  | some record =>
    obtain hyoung | hspent := hr record rfl
    · have hkept : PeerMisbehaviorManager.kept o now (some record) = some record := if_pos hyoung
      rwa [hkept]
    · have hnone : Void o now none := by rintro _ ⟨⟩
      rw [hspent.kept]
      obtain rfl | ⟨-,hb⟩ := h
      · refine .inr ⟨hnone,?_⟩
        rintro _ ⟨⟩
        exact hspent
      · exact .inr ⟨hnone,hb⟩

end

theorem Same.refl (o : MisbehaviorOptions) (now : Rat) (s : State) : Same o now s s :=
  ⟨rfl,fun _ => .inl rfl⟩

theorem Same.mono (h : Same o now s u) (hle : now ≤ later) : Same o later s u :=
  ⟨h.banned,fun p => (h.alike p).mono hle⟩

/-- The records of one peer become the same. -/
theorem Same.put (h : Same o now s u) (p : String) (record : PeerScoreRecord) :
    Same o now { s with scores := JsMap.set s.scores p record }
      { u with scores := JsMap.set u.scores p record } := by
  refine ⟨h.banned,fun q => ?_⟩
  dsimp only
  rw [get_set,get_set]
  split
  · exact .inl rfl
  · exact h.alike q

/-- The records of one peer go, and its ban becomes the same. -/
theorem Same.drop (h : Same o now s u) (p : String) {bans bans' : JsMap String Rat}
    (hb : bans = bans') :
    Same o now ⟨JsMap.delete s.scores p,bans⟩ ⟨JsMap.delete u.scores p,bans'⟩ := by
  refine ⟨hb,fun q => ?_⟩
  dsimp only
  rw [get_delete,get_delete]
  split
  · exact .inl rfl
  · exact h.alike q

theorem Same.isBanned (h : Same o now s u) (p : String) :
    (isBanned s p now).1 = (isBanned u p now).1 ∧
      Same o now (isBanned s p now).2 (isBanned u p now).2 := by
  unfold PeerMisbehaviorManager.isBanned
  rw [← h.banned]
  split
  · exact ⟨rfl,h⟩
  split
  · exact ⟨rfl,h.drop p rfl⟩
  · exact ⟨rfl,h⟩

theorem Same.getScore (h : Same o now s u) (p : String) :
    (getScore o s p now).1 = (getScore o u p now).1 ∧
      Same o now (getScore o s p now).2 (getScore o u p now).2 := by
  refine ⟨?_,?_,fun q => ?_⟩
  · rw [getScore_worth,getScore_worth]
    exact (h.alike p).worth
  · rw [getScore_bannedPeers,getScore_bannedPeers]
    exact h.banned
  · rw [getScore_kept,getScore_kept]
    split
    · exact .inl (h.alike p).kept
    · exact h.alike q

theorem Same.recordViolation (h : Same o now s u) (p : String) (violation : Rat) :
    (recordViolation o s p violation now).1 = (recordViolation o u p violation now).1 ∧
      Same o now (recordViolation o s p violation now).2
        (recordViolation o u p violation now).2 := by
  unfold PeerMisbehaviorManager.recordViolation
  obtain ⟨hbanned,h⟩ := h.isBanned p
  obtain ⟨hscore,hsame⟩ := h.getScore p
  dsimp only
  rw [hbanned]
  split
  · exact ⟨rfl,h⟩
  rw [hscore]
  have hput := hsame.put p ⟨(PeerMisbehaviorManager.getScore o
    (PeerMisbehaviorManager.isBanned u p now).2 p now).1+violation,now⟩
  split
  · exact ⟨rfl,hput.drop p (by dsimp only; rw [hsame.banned])⟩
  · exact ⟨rfl,hput⟩

/-- Any call answers the same, and leaves what is the same. -/
theorem Same.call (h : Same o now s u) (c : Call) :
    (call o s now c).1 = (call o u now c).1 ∧
      Same o now (call o s now c).2 (call o u now c).2 := by
  cases c with
  | recordViolation p violation =>
    obtain ⟨hban,h⟩ := h.recordViolation p violation
    exact ⟨congrArg Answer.ban hban,h⟩
  | isBanned p =>
    obtain ⟨hban,h⟩ := h.isBanned p
    exact ⟨congrArg Answer.ban hban,h⟩
  | getScore p =>
    obtain ⟨hscore,h⟩ := h.getScore p
    exact ⟨congrArg Answer.score hscore,h⟩
  | banPeer p durationMs => exact ⟨rfl,h.drop p (by rw [h.banned])⟩
  | unbanPeer p => exact ⟨rfl,h.drop p (by rw [h.banned])⟩
  | clear => exact ⟨rfl,.refl o now {}⟩

theorem Same.read (h : Same o now s u) (hr : ∀ record, JsMap.get s.scores p = some record →
    now-record.lastUpdated < o.decayIntervalMs ∨ Spent o record now) :
    Same o now (PeerMisbehaviorManager.getScore o s p now).2 u := by
  refine ⟨?_,fun q => ?_⟩
  · rw [getScore_bannedPeers]
    exact h.banned
  rw [getScore_kept]
  split
  · next hq =>
    rw [hq]
    exact (h.alike p).read hr
  · exact h.alike q

theorem worth_young (h : now-record.lastUpdated < o.decayIntervalMs) :
    worth o now (some record) = record.score := if_pos h

theorem kept_young (h : now-record.lastUpdated < o.decayIntervalMs) :
    kept o now (some record) = some record := if_pos h

section
variable {n : Nat}

theorem worth_old (hold : o.decayIntervalMs ≤ now-record.lastUpdated)
    (hn : ⌊(now-record.lastUpdated)/o.decayIntervalMs⌋₊ = n) :
    worth o now (some record) = max 0 (⌊record.score/2^n⌋ : Rat) := by
  simp only [worth]
  rw [if_neg (not_lt.mpr hold),hn]
  split
  · next hle => exact (max_eq_left hle).symm
  · next hgt => exact (max_eq_right (not_le.mp hgt).le).symm

theorem kept_old (hold : o.decayIntervalMs ≤ now-record.lastUpdated)
    (hn : ⌊(now-record.lastUpdated)/o.decayIntervalMs⌋₊ = n) (hleft : 1 ≤ record.score/2^n) :
    kept o now (some record) = some ⟨⌊record.score/2^n⌋,now⟩ := by
  simp only [kept]
  rw [if_neg (not_lt.mpr hold),hn,if_neg]
  exact fun hle => not_lt.mpr hleft (halves_nonpos_iff.mp hle)

/-- A second read at the same time reports the same. -/
theorem worth_kept (entry : Option PeerScoreRecord) :
    worth o now (kept o now entry) = worth o now entry := by
  cases entry with
  | none => rfl
  | some record =>
    simp only [kept,worth]
    by_cases hyoung : now-record.lastUpdated < o.decayIntervalMs
    · rw [if_pos hyoung,if_pos hyoung]
      exact worth_young hyoung
    rw [if_neg hyoung,if_neg hyoung]
    by_cases hspent : ((⌊record.score/2^⌊(now-record.lastUpdated)/o.decayIntervalMs⌋₊⌋ : Int) :
        Rat) ≤ 0
    · rw [if_pos hspent,if_pos hspent]
    · rw [if_neg hspent,if_neg hspent]
      exact worth_young (by rw [sub_self]; exact o.decayIntervalMs_pos)

end

theorem floor_half_lt {x : Rat} (h : 1 ≤ x) : max 0 ((⌊x/2⌋ : Int) : Rat) < (⌊x⌋ : Int) := by
  have hone : (1 : Int) ≤ ⌊x⌋ := Int.le_floor.mpr (by simpa using h)
  have hone' : (1 : Rat) ≤ (⌊x⌋ : Int) := by exact_mod_cast hone
  have hx := Int.lt_floor_add_one x
  refine max_lt (by linarith) (Int.cast_lt.mpr (Int.floor_lt.mpr ?_))
  linarith

/-- A read that starts a half-life anew is found out by two later ones. -/
theorem telltale (hold : o.decayIntervalMs ≤ now-record.lastUpdated)
    (hleft : ¬Spent o record now) :
    ∃ mid later, now ≤ mid ∧ mid ≤ later ∧
      worth o later (kept o mid (kept o now (some record))) ≠
        worth o later (kept o mid (some record)) := by
  obtain ⟨n,hn⟩ : ∃ n, ⌊(now-record.lastUpdated)/o.decayIntervalMs⌋₊ = n := ⟨_,rfl⟩
  have hI := o.decayIntervalMs_pos
  have hscore : 1 ≤ record.score/2^n := by
    rw [← hn]
    exact not_lt.mp fun hlt => hleft ⟨hold,hlt⟩
  have hnext : record.score/2^(n+1) = record.score/2^n/2 := by rw [pow_succ,div_mul_eq_div_div]
  have hkept := kept_old hold hn hscore
  have hbounds := (Nat.floor_eq_iff (div_nonneg (hI.le.trans hold) hI.le)).mp hn
  rw [le_div_iff₀ hI,div_lt_iff₀ hI] at hbounds
  obtain ⟨hlow,hhigh⟩ := hbounds
  rw [hkept]
  rcases hlow.lt_or_eq with hlow | hexact
  · -- The first half-life after the read ends before it would.
    refine ⟨record.lastUpdated+(n+1)*o.decayIntervalMs,_,by linarith,le_rfl,?_⟩
    rw [worth_kept,worth_kept,worth_young (by dsimp only; linarith)]
    have hcount : ⌊(record.lastUpdated+(n+1)*o.decayIntervalMs-record.lastUpdated)/
        o.decayIntervalMs⌋₊ = n+1 := by
      rw [add_sub_cancel_left,mul_div_cancel_right₀ _ hI.ne']
      exact_mod_cast Nat.floor_natCast (n+1)
    rw [worth_old (by linarith) hcount,hnext]
    exact (floor_half_lt hscore).ne'
  · -- The read comes at the end of a half-life: only one of the two starts at the next read.
    refine ⟨now+o.decayIntervalMs/2,now+o.decayIntervalMs,by linarith,by linarith,?_⟩
    have hcount : ⌊(now+o.decayIntervalMs/2-record.lastUpdated)/o.decayIntervalMs⌋₊ = n := by
      rw [Nat.floor_eq_iff (div_nonneg (by linarith) hI.le),le_div_iff₀ hI,div_lt_iff₀ hI]
      constructor <;> linarith
    have hwith : kept o (now+o.decayIntervalMs/2) (some ⟨⌊record.score/2^n⌋,now⟩) =
        some ⟨⌊record.score/2^n⌋,now⟩ := kept_young (by dsimp only; linarith)
    have hwithout : worth o (now+o.decayIntervalMs)
        (some ⟨⌊record.score/2^n⌋,now+o.decayIntervalMs/2⟩) = ⌊record.score/2^n⌋ :=
      worth_young (by dsimp only; linarith)
    have hwhole : ⌊(now+o.decayIntervalMs-now)/o.decayIntervalMs⌋₊ = 1 := by
      rw [add_sub_cancel_left,div_self hI.ne',Nat.floor_one]
    rw [hwith,kept_old (by linarith) hcount hscore,hwithout,
      worth_old (add_sub_cancel_left now _).ge hwhole]
    dsimp only
    have hfloor : (1 : Rat) ≤ (⌊record.score/2^n⌋ : Int) := by
      exact_mod_cast Int.le_floor.mpr (by simpa using hscore)
    have hlt := floor_half_lt hfloor
    rw [Int.floor_intCast] at hlt
    rw [pow_one]
    exact hlt.ne

end

section
variable {o} {s t u : Timed} {a : Rat × Entry} {entries : List (Rat × Entry)}

/-- The run with the reads and the run without them -/
structure Matched (o : MisbehaviorOptions) (s u : Timed) : Prop where
  clock : u.now ≤ s.now
  same : Same o s.now s.manager u.manager
  answers : u.answers = s.answers

theorem matched_call (h : Matched o s u) {now : Rat} {c : Call}
    (hs : step o s (now,.call c) = some t) :
    ∃ v, step o u (now,.call c) = some v ∧ Matched o t v := by
  unfold step at hs
  split at hs
  · cases hs
  next hle =>
  cases hs
  have hle : s.now ≤ now := not_lt.mp hle
  obtain ⟨hanswer,hsame⟩ := (h.same.mono hle).call c
  refine ⟨_,if_neg (not_lt.mpr (h.clock.trans hle)),le_rfl,hsame,?_⟩
  change u.answers ++ [(call o u.manager now c).1] = s.answers ++ [(call o s.manager now c).1]
  rw [h.answers,hanswer]

theorem matched_read (h : Matched o s u) {now : Rat} {p : String}
    (hG : Harmless o s (now,.read p)) (hs : step o s (now,.read p) = some t) : Matched o t u := by
  unfold step at hs
  split at hs
  · cases hs
  next hle =>
  cases hs
  have hle : s.now ≤ now := not_lt.mp hle
  exact ⟨h.clock.trans hle,(h.same.mono hle).read (hG p rfl hle),h.answers⟩

theorem matched_run (h : Matched o s u) (hG : Machine.Along (step o) (Harmless o) s entries)
    (hr : Machine.run (step o) s entries = some t) :
    ∃ v, Machine.run (step o) u (withoutReads entries) = some v ∧ Matched o t v := by
  induction entries generalizing s u with
  | nil =>
    cases hr
    exact ⟨u,rfl,h⟩
  | cons a entries ih =>
    obtain ⟨s',hs,hrest⟩ := Machine.run_cons_inv hr
    obtain ⟨now,entry⟩ := a
    cases entry with
    | call c =>
      obtain ⟨u',hu,h⟩ := matched_call h hs
      obtain ⟨v,hv,h⟩ := ih h (hG.2 s' hs) hrest
      exact ⟨v,Machine.run_cons hu hv,h⟩
    | read p => exact ih (matched_read h hG.1 hs) (hG.2 s' hs) hrest

theorem withoutReads_append (as bs : List (Rat × Entry)) :
    withoutReads (as ++ bs) = withoutReads as ++ withoutReads bs :=
  List.filter_append _ _

theorem step_getScore {p : String} {now : Rat} (hle : s.now ≤ now) :
    step o s (now,.call (.getScore p)) = some ⟨(getScore o s.manager p now).2,now,
      s.answers ++ [.score (worth o now (JsMap.get s.manager.scores p))]⟩ := by
  rw [← getScore_worth]
  exact if_neg (not_lt.mpr hle)

theorem run_reads {p : String} {mid later : Rat} (h₁ : s.now ≤ mid) (h₂ : mid ≤ later) :
    ∃ t, Machine.run (step o) s [(mid,.call (.getScore p)),(later,.call (.getScore p))] = some t ∧
      t.answers = s.answers ++ [.score (worth o mid (JsMap.get s.manager.scores p))] ++
        [.score (worth o later (kept o mid (JsMap.get s.manager.scores p)))] := by
  refine ⟨_,Machine.run_cons (step_getScore h₁) (Machine.run_cons (step_getScore h₂) rfl),?_⟩
  dsimp only
  rw [getScore_kept,if_pos rfl]

/-- A read that is not harmless is seen by two that follow it. -/
theorem harmless_of_unseen (h : Matched o s u) {p : String} {now : Rat} (hle : s.now ≤ now)
    (hun : ∀ calls t, withoutReads calls = calls →
      Machine.run (step o) s ((now,.read p) :: calls) = some t →
      ∃ v, Machine.run (step o) u calls = some v ∧ v.answers = t.answers)
    {record : PeerScoreRecord} (hget : JsMap.get s.manager.scores p = some record) :
    now-record.lastUpdated < o.decayIntervalMs ∨ Spent o record now := by
  by_contra hnot
  obtain ⟨hold,hleft⟩ := not_or.mp hnot
  obtain ⟨mid,later,hmid,hlater,hne⟩ := telltale (not_lt.mp hold) hleft
  have hread : step o s (now,.read p) =
      some ⟨(getScore o s.manager p now).2,now,s.answers⟩ := if_neg (not_lt.mpr hle)
  obtain ⟨t,ht,hanswers⟩ := run_reads (o := o) (p := p)
    (s := ⟨(getScore o s.manager p now).2,now,s.answers⟩) hmid hlater
  obtain ⟨v,hv,hsame⟩ := hun _ t rfl (Machine.run_cons hread ht)
  obtain ⟨v',hv',hanswers'⟩ := run_reads (o := o) (s := u) (p := p)
    ((h.clock.trans hle).trans hmid) hlater
  cases hv.symm.trans hv'
  rw [hanswers',hanswers,h.answers] at hsame
  have hscores := (List.append_inj' hsame rfl).2
  rw [List.singleton_inj,Answer.score.injEq,getScore_kept,if_pos rfl,
    ← ((h.same.mono (hle.trans hmid)).alike p).kept,hget] at hscores
  exact hne hscores.symm

theorem along_calls {calls : List (Rat × Entry)} (s : Timed) (hcalls : withoutReads calls = calls) :
    Machine.Along (step o) (Harmless o) s calls := by
  refine (Machine.along_of_forall s fun a ha => List.filter_eq_self.mp hcalls a ha).imp ?_
  intro s a hcall p hp
  rw [hp] at hcall
  cases hcall

theorem along_of_neverSeen (h : Matched o s u)
    (hun : ∀ as bs calls t, entries = as ++ bs → withoutReads calls = calls →
      Machine.run (step o) s (as ++ calls) = some t →
      ∃ v, Machine.run (step o) u (withoutReads (as ++ calls)) = some v ∧
        v.answers = t.answers) :
    Machine.Along (step o) (Harmless o) s entries := by
  induction entries generalizing s u with
  | nil => trivial
  | cons a entries ih =>
    obtain ⟨now,entry⟩ := a
    cases entry with
    | call c =>
      refine ⟨by rintro p ⟨⟩,fun t hs => ?_⟩
      obtain ⟨v,hv,hmatch⟩ := matched_call h hs
      refine ih hmatch fun as bs calls t' hsplit hcalls hr => ?_
      obtain ⟨w,hw,hanswers⟩ := hun ((now,.call c) :: as) bs calls t' (by rw [hsplit]; rfl) hcalls
        (Machine.run_cons hs hr)
      obtain ⟨v',hv',hw⟩ := Machine.run_cons_inv hw
      cases hv.symm.trans hv'
      exact ⟨w,hw,hanswers⟩
    | read p =>
      have hG : Harmless o s (now,.read p) := by
        rintro q ⟨⟩ hle record hget
        refine harmless_of_unseen h hle (fun calls t hcalls hr => ?_) hget
        have hout := hun [(now,.read p)] entries calls t rfl hcalls hr
        rwa [withoutReads_append,hcalls] at hout
      refine ⟨hG,fun t hs => ih (matched_read h hG hs) fun as bs calls t' hsplit hcalls hr => ?_⟩
      exact hun ((now,.read p) :: as) bs calls t' (by rw [hsplit]; rfl) hcalls
        (Machine.run_cons hs hr)

/-- The reads that were put in are never seen just when each comes before the first half-life
of the score is over, or when nothing is left of it. -/
theorem neverSeen_iff (start : Rat) (entries : List (Rat × Entry)) :
    NeverSeen o start entries ↔ Machine.Along (step o) (Harmless o) { now := start } entries := by
  have hstart : Matched o { now := start } { now := start } := ⟨le_rfl,.refl o start {},rfl⟩
  constructor
  · exact fun h => along_of_neverSeen hstart fun as bs calls t hsplit hcalls hr =>
      h as bs calls hsplit hcalls t hr
  · rintro hG as bs calls rfl hcalls s hr
    have hG := ((Machine.along_append _ _ _).mp hG).1
    have hall := (Machine.along_append _ _ _).mpr ⟨hG,fun t _ => along_calls t hcalls⟩
    obtain ⟨u,hu,h⟩ := matched_run hstart hall hr
    exact ⟨u,hu,h.answers⟩

/-- A score of fifty is read in the middle of its second half-life, which then starts again. -/
def halfway : List (Rat × Entry) :=
  [(0,.call (.recordViolation "peer" 25)),(0,.call (.recordViolation "peer" 25)),
    (900000,.read "peer"),(1200000,.call (.getScore "peer"))]

theorem neverSeen_not_halfway : ¬NeverSeen defaults 0 halfway := by
  intro h
  have hwith : (Machine.run (step defaults) { now := 0 } halfway).map Timed.answers =
      some [.ban false,.ban false,.score 25] := by decide +kernel
  have hwithout : (Machine.run (step defaults) { now := 0 } (withoutReads halfway)).map Timed.answers =
      some [.ban false,.ban false,.score 12] := by decide +kernel
  obtain ⟨s,hs,hanswers⟩ := Option.map_eq_some_iff.mp hwith
  obtain ⟨u,hu,hsame⟩ := h halfway [] [] (by simp) rfl s hs
  rw [List.append_nil] at hu
  rw [hu,Option.map_some,hsame,hanswers] at hwithout
  revert hwithout
  decide +kernel

end

end PeerMisbehaviorManager
