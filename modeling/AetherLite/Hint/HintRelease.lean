import Mathlib.Algebra.Order.BigOperators.Group.List
import Mathlib.Algebra.Order.Field.Basic
import Mathlib.Algebra.Order.Ring.Rat
import Mathlib.Tactic.FieldSimp
import Mathlib.Tactic.Linarith
import Mathlib.Tactic.NormNum

/-! How long a hint is held back after its payload is sent, from what is observed of others.
Every number is an exact rational. -/
set_option autoImplicit false

namespace HintRelease

inductive ReleaseMode where
  | disabled
  | adaptive
  | strict
  deriving DecidableEq

def targetAnonymitySet : Rat := 8
def minMeasurableSet : Rat := 2
def envelopeFactor : Rat := 10
def minPatienceMs : Rat := 60000
def noiseWindowSec : Rat := 8
def rateWindowMs : Rat := 5*60*1000

/-- Why it is so long, with the numbers that are shown. -/
inductive Reason where
  | disabled
  | sinks (noiseFloorBytes : Int)
  | unreachable (reachableSet : Rat)
  | capped (patienceSec : Rat)
  | window
  deriving DecidableEq

structure ReleaseStatus where
  mode : ReleaseMode
  delayMs : Int
  reason : Reason
  observedHintRate : Rat
  relayThroughputBps : Rat
  expectedAnonymitySet : Rat
  targetMet : Bool

structure State where
  mode : ReleaseMode := .adaptive
  hintTimes : List Rat := []
  /-- When, and how many bytes. -/
  relayBytes : List (Rat × Rat) := []

/-- `Math.round` -/
def round (q : Rat) : Int := (q+1/2).floor

def prune (s : State) (now : Rat) : State :=
  let cutoff := now-rateWindowMs
  { s with hintTimes := s.hintTimes.dropWhile fun t => t < cutoff
           relayBytes := s.relayBytes.dropWhile fun r => r.1 < cutoff }

def noteHintSeen (s : State) (now : Rat) : State :=
  prune { s with hintTimes := s.hintTimes ++ [now] } now

def noteRelayBytes (s : State) (bytes now : Rat) : State :=
  if bytes ≤ 0 then s else prune { s with relayBytes := s.relayBytes ++ [(now,bytes)] } now

def hintRate (s : State) (now : Rat) : Rat :=
  ((prune s now).hintTimes.length : Rat)/(rateWindowMs/1000)

def relayThroughputBps (s : State) (now : Rat) : Rat :=
  ((prune s now).relayBytes.map Prod.snd).sum/(rateWindowMs/1000)

def base (mode : ReleaseMode) (rate throughput delayMs : Rat) (reason : Reason) : ReleaseStatus where
  mode := mode
  delayMs := max 0 (round delayMs)
  reason := reason
  observedHintRate := rate
  relayThroughputBps := throughput
  expectedAnonymitySet := delayMs/1000*rate
  targetMet := delayMs/1000*rate ≥ targetAnonymitySet

def sendSec (payloadBytes throughput : Rat) : Rat :=
  if throughput > 0 then payloadBytes/throughput else 0

/-- None is infinite. -/
def fromSetSec (rate : Rat) : Option Rat := if rate > 0 then some (targetAnonymitySet/rate) else none

def fromEnvelopeSec (payloadBytes throughput : Rat) : Rat :=
  envelopeFactor*sendSec payloadBytes throughput

def patienceSec (payloadBytes throughput : Rat) : Rat :=
  max (minPatienceMs/1000) (2*sendSec payloadBytes throughput)

/-- `Number.isFinite(fromSetSec) ? fromSetSec : 0` -/
def wantedSec (payloadBytes throughput rate : Rat) : Rat :=
  max (fromEnvelopeSec payloadBytes throughput) ((fromSetSec rate).getD 0)

def windowSec (payloadBytes throughput rate : Rat) : Rat :=
  min (wantedSec payloadBytes throughput rate) (patienceSec payloadBytes throughput)

/-- What is planned; the observations that are too old are dropped first. -/
def plan (s : State) (payloadBytes now : Rat) : ReleaseStatus :=
  let rate := hintRate s now
  let throughput := relayThroughputBps s now
  if s.mode = .disabled then base s.mode rate throughput 0 .disabled
  else
    let noiseFloorBytes := throughput*noiseWindowSec
    if payloadBytes ≤ noiseFloorBytes then
      base s.mode rate throughput 0 (.sinks (round noiseFloorBytes))
    else
      let window := windowSec payloadBytes throughput rate
      let reachableSet := window*rate
      if s.mode = .adaptive ∧ reachableSet < minMeasurableSet then
        base s.mode rate throughput 0 (.unreachable reachableSet)
      else
        base s.mode rate throughput (window*1000)
          (if window < wantedSec payloadBytes throughput rate then
            .capped (patienceSec payloadBytes throughput)
          else .window)

inductive Action where
  | setMode (mode : ReleaseMode)
  | noteHintSeen (now : Rat)
  | noteRelayBytes (bytes now : Rat)
  /-- A rate is asked for, or a delay planned. -/
  | observe (now : Rat)

def step (s : State) : Action → State
  | .setMode mode => { s with mode := mode }
  | .noteHintSeen now => noteHintSeen s now
  | .noteRelayBytes bytes now => noteRelayBytes s bytes now
  | .observe now => prune s now

def after (mode : ReleaseMode) (as : List Action) : State := as.foldl step { mode := mode }

/-! The rule as it is written down. -/

/-- The wait for others to be among, which without any is without end, and the wait for the
envelope, cut at the patience. -/
def documentedSec (payloadBytes throughput rate : Rat) : Rat :=
  match fromSetSec rate with
  | none => patienceSec payloadBytes throughput
  | some w =>
    min (max w (fromEnvelopeSec payloadBytes throughput)) (patienceSec payloadBytes throughput)

def documentedMs (payloadBytes throughput rate : Rat) : Int :=
  round (1000*documentedSec payloadBytes throughput rate)

section
variable {p t r : Rat}

theorem patience_pos (p t : Rat) : 60 ≤ patienceSec p t := by
  have h := le_max_left (minPatienceMs/1000) (2*sendSec p t)
  unfold minPatienceMs at h
  exact (by norm_num : (60 : Rat) = 60000/1000) ▸ h

/-- With a payload above the noise the envelope alone is worth more than the patience. -/
theorem patience_le_envelope (ht : 0 < t) (hp : t*noiseWindowSec < p) :
    patienceSec p t ≤ fromEnvelopeSec p t := by
  have hsend : sendSec p t = p/t := if_pos ht
  have hlong : 8 < p/t := by
    rw [lt_div_iff₀ ht,mul_comm]
    exact hp
  unfold patienceSec fromEnvelopeSec minPatienceMs envelopeFactor
  rw [hsend,max_le_iff]
  constructor
  · linarith
  · linarith

theorem windowSec_relaying (ht : 0 < t) (hp : t*noiseWindowSec < p) (r : Rat) :
    windowSec p t r = patienceSec p t :=
  min_eq_right ((patience_le_envelope ht hp).trans (le_max_left _ _))

theorem documentedSec_relaying (ht : 0 < t) (hp : t*noiseWindowSec < p) (r : Rat) :
    documentedSec p t r = patienceSec p t := by
  unfold documentedSec
  split
  · rfl
  · exact min_eq_right ((patience_le_envelope ht hp).trans (le_max_right _ _))

/-- Without anything relayed only the wait for others counts. -/
theorem windowSec_observed (hr : 0 < r) (p t : Rat) : windowSec p t r = documentedSec p t r := by
  have hset : fromSetSec r = some (targetAnonymitySet/r) := if_pos hr
  simp only [windowSec,documentedSec,wantedSec,hset,Option.getD_some]
  rw [max_comm]

theorem windowSec_silent (p : Rat) : windowSec p 0 0 = 0 := by
  simp [windowSec,wantedSec,fromEnvelopeSec,fromSetSec,sendSec,patienceSec,minPatienceMs]

theorem documentedSec_silent (p : Rat) : documentedSec p 0 0 = 60 := by
  simp [documentedSec,fromSetSec,sendSec,patienceSec,minPatienceMs]
  norm_num

theorem round_mono {a b : Rat} (h : a ≤ b) : round a ≤ round b :=
  Rat.floor_monotone (by linarith)

theorem round_zero : round 0 = 0 := by decide +kernel

theorem round_nonneg {q : Rat} (h : 0 ≤ q) : 0 ≤ round q := by
  have hmono := round_mono h
  rw [round_zero] at hmono
  exact hmono

theorem round_eq_zero_iff {q : Rat} (h : 0 ≤ q) : round q = 0 ↔ q < 1/2 := by
  have hnonneg := round_nonneg h
  have hlt : round q < 1 ↔ q+1/2 < ((1 : Int) : Rat) := Rat.floor_lt_iff
  have hone : ((1 : Int) : Rat) = 1 := by norm_num
  rw [hone] at hlt
  constructor
  · intro hq
    have := hlt.mp (by omega)
    linarith
  · intro hq
    have := hlt.mpr (by linarith)
    omega

theorem fromEnvelope_nonneg (ht : 0 ≤ t) (hp : t*noiseWindowSec < p) : 0 ≤ fromEnvelopeSec p t := by
  unfold fromEnvelopeSec sendSec envelopeFactor
  split
  · next hpos =>
    have hp' : 0 ≤ p := (mul_nonneg ht (by decide)).trans hp.le
    exact mul_nonneg (by norm_num) (div_nonneg hp' ht)
  · norm_num

theorem documentedSec_nonneg (ht : 0 ≤ t) (hp : t*noiseWindowSec < p) (r : Rat) :
    0 ≤ documentedSec p t r := by
  have hpatience := patience_pos p t
  unfold documentedSec
  split
  · linarith
  · exact le_min ((fromEnvelope_nonneg ht hp).trans (le_max_right _ _)) (by linarith)

/-- The wait is the documented one, when anything is observed. -/
theorem windowSec_eq (hr : 0 ≤ r) (ht : 0 ≤ t) (hp : t*noiseWindowSec < p)
    (hsome : ¬(r = 0 ∧ t = 0)) : windowSec p t r = documentedSec p t r := by
  by_cases hpos : 0 < t
  · rw [windowSec_relaying hpos hp,documentedSec_relaying hpos hp]
  · have htzero : t = 0 := le_antisymm (not_lt.mp hpos) ht
    have hrpos : 0 < r := lt_of_le_of_ne hr fun hzero => hsome ⟨hzero.symm,htzero⟩
    exact windowSec_observed hrpos p t

theorem round_documented (ht : 0 ≤ t) (hp : t*noiseWindowSec < p) (r : Rat) :
    max 0 (round (documentedSec p t r*1000)) = documentedMs p t r := by
  have hnonneg := documentedSec_nonneg ht hp r
  rw [documentedMs,mul_comm]
  exact max_eq_right (round_nonneg (by linarith))

/-- More hints make the documented wait no longer. -/
theorem documentedSec_antitone {r' : Rat} (h : r ≤ r') :
    documentedSec p t r' ≤ documentedSec p t r := by
  unfold documentedSec fromSetSec
  by_cases hpos : 0 < r
  · have hpos' : 0 < r' := by linarith
    rw [if_pos hpos,if_pos hpos']
    have hset : targetAnonymitySet/r' ≤ targetAnonymitySet/r :=
      div_le_div_of_nonneg_left (by decide) hpos h
    exact min_le_min_right _ (max_le_max_right _ hset)
  · rw [if_neg hpos]
    split
    · exact le_refl _
    · exact min_le_right _ _

theorem documentedSec_unrelayed (hr : 0 < r) (p : Rat) : documentedSec p 0 r = min (8/r) 60 := by
  have hset : fromSetSec r = some (targetAnonymitySet/r) := if_pos hr
  have hnonneg : 0 ≤ 8/r := div_nonneg (by norm_num) hr.le
  simp only [documentedSec,hset,fromEnvelopeSec,patienceSec,sendSec,minPatienceMs,
    targetAnonymitySet,gt_iff_lt,lt_irrefl,if_false,mul_zero]
  rw [max_eq_left hnonneg]
  norm_num

/-- Without anything relayed only very many hints make the wait vanish. -/
theorem documentedMs_silent_iff (hr : 0 < r) : documentedMs p 0 r = 0 ↔ 16000 < r := by
  have hnonneg : 0 ≤ min (8/r) 60 := le_min (div_nonneg (by norm_num) hr.le) (by norm_num)
  rw [documentedMs,documentedSec_unrelayed hr,round_eq_zero_iff (by linarith)]
  have hscale : 1000*min (8/r) 60 < 1/2 ↔ 8/r < 1/2000 := by
    constructor
    · intro h
      have hmin : min (8/r) 60 < 1/2000 := by linarith
      obtain hlt | hlt := min_lt_iff.mp hmin
      · exact hlt
      · norm_num at hlt
    · intro h
      have hmin := min_le_left (8/r) 60
      linarith
  rw [hscale,div_lt_iff₀ hr]
  constructor <;> intro h <;> linarith

end

/-! What is observed. -/

structure Observed (s : State) : Prop where
  bytes : ∀ r ∈ s.relayBytes, 0 < r.2

theorem Observed.prune {s : State} (h : Observed s) (now : Rat) : Observed (prune s now) where
  bytes r hr := h.bytes r ((List.dropWhile_sublist _).subset hr)

theorem observed_step {s : State} (h : Observed s) (a : Action) : Observed (step s a) := by
  cases a with
  | setMode mode => exact ⟨h.bytes⟩
  | noteHintSeen now =>
    have hnoted : Observed { s with hintTimes := s.hintTimes ++ [now] } := ⟨h.bytes⟩
    exact hnoted.prune now
  | noteRelayBytes bytes now =>
    simp only [step,noteRelayBytes]
    split
    · exact h
    · next hpos =>
      apply Observed.prune
      constructor
      intro r hr
      obtain hr | hr := List.mem_append.mp hr
      · exact h.bytes r hr
      · obtain rfl := List.mem_singleton.mp hr
        exact not_le.mp hpos
  | observe now => exact h.prune now

theorem observed_after (mode : ReleaseMode) (as : List Action) : Observed (after mode as) := by
  have hrun : ∀ (s : State), Observed s → Observed (as.foldl step s) := by
    induction as with
    | nil => exact fun s h => h
    | cons a as ih => exact fun s h => ih _ (observed_step h a)
  exact hrun _ ⟨fun r hr => by cases hr⟩

section
variable {s : State} {p now : Rat}

theorem rateWindow_nonneg : 0 ≤ rateWindowMs/1000 := by
  unfold rateWindowMs
  norm_num

theorem hintRate_nonneg (s : State) (now : Rat) : 0 ≤ hintRate s now :=
  div_nonneg (Nat.cast_nonneg _) rateWindow_nonneg

theorem Observed.throughput_nonneg (h : Observed s) (now : Rat) : 0 ≤ relayThroughputBps s now := by
  apply div_nonneg _ rateWindow_nonneg
  apply List.sum_nonneg
  intro b hb
  obtain ⟨r,hr,rfl⟩ := List.mem_map.mp hb
  exact ((h.prune now).bytes r hr).le

/-- The payload does not sink into the noise. -/
def Above (s : State) (p now : Rat) : Prop := relayThroughputBps s now*noiseWindowSec < p

theorem plan_strict (hm : s.mode = .strict) (h : Above s p now) : (plan s p now).delayMs =
    max 0 (round (windowSec p (relayThroughputBps s now) (hintRate s now)*1000)) := by
  unfold plan
  simp only [hm,if_neg (not_le.mpr h)]
  rfl

theorem plan_adaptive (hm : s.mode = .adaptive) (h : Above s p now) : (plan s p now).delayMs =
    if windowSec p (relayThroughputBps s now) (hintRate s now)*hintRate s now < minMeasurableSet
    then 0
    else max 0 (round (windowSec p (relayThroughputBps s now) (hintRate s now)*1000)) := by
  unfold plan
  simp only [hm,if_neg (not_le.mpr h)]
  by_cases hset : windowSec p (relayThroughputBps s now) (hintRate s now)*hintRate s now <
      minMeasurableSet
  · simp [hset,base,round_zero]
  · simp only [hset,and_false,if_false]
    rfl

/-- The delay of a strict plan: the documented one, unless nothing at all is observed. -/
theorem delay_strict (ho : Observed s) (hm : s.mode = .strict) (h : Above s p now) :
    (plan s p now).delayMs =
      if hintRate s now = 0 ∧ relayThroughputBps s now = 0 then 0
      else documentedMs p (relayThroughputBps s now) (hintRate s now) := by
  have ht := ho.throughput_nonneg now
  have hr := hintRate_nonneg s now
  rw [plan_strict hm h]
  unfold Above at h
  generalize relayThroughputBps s now = t at *
  generalize hintRate s now = r at *
  split
  · next hnone =>
    obtain ⟨rfl,rfl⟩ := hnone
    rw [windowSec_silent,zero_mul,round_zero]
    decide
  · next hsome => rw [windowSec_eq hr ht h hsome,round_documented ht h]

end

/-- The documented delay, and none that is longer where more hints are seen. -/
def StrictRule (s : State) (p now : Rat) : Prop :=
  (plan s p now).delayMs = documentedMs p (relayThroughputBps s now) (hintRate s now) ∧
    ∀ (mode : ReleaseMode) (as : List Action) (now' : Rat), (after mode as).mode = .strict →
      relayThroughputBps (after mode as) now' = relayThroughputBps s now →
      hintRate s now ≤ hintRate (after mode as) now' →
        (plan (after mode as) p now').delayMs ≤ (plan s p now).delayMs

/-- No delay where too few others can be reached in the documented wait, and it elsewhere. -/
def AdaptiveRule (s : State) (p now : Rat) : Prop :=
  ((plan s p now).delayMs = 0 ↔
    documentedSec p (relayThroughputBps s now) (hintRate s now)*hintRate s now <
      minMeasurableSet) ∧
  (¬documentedSec p (relayThroughputBps s now) (hintRate s now)*hintRate s now <
      minMeasurableSet →
    (plan s p now).delayMs = documentedMs p (relayThroughputBps s now) (hintRate s now))

section
variable {s : State} {p now : Rat}

theorem strictRule_iff (ho : Observed s) (hm : s.mode = .strict) (h : Above s p now) :
    StrictRule s p now ↔ ¬(hintRate s now = 0 ∧ relayThroughputBps s now = 0) := by
  have hdelay := delay_strict ho hm h
  constructor
  · intro hrule hnone
    have hwrong := hrule.1
    rw [hdelay,if_pos hnone,hnone.1,hnone.2,documentedMs,documentedSec_silent] at hwrong
    revert hwrong
    decide +kernel
  · intro hsome
    rw [if_neg hsome] at hdelay
    refine ⟨hdelay,?_⟩
    intro mode as now' hm' ht hr
    have h' : Above (after mode as) p now' := by
      unfold Above
      rw [ht]
      exact h
    rw [hdelay,delay_strict (observed_after mode as) hm' h',ht]
    split
    · next hnone =>
      -- then nothing at all is observed here either
      have hzero := le_antisymm (hr.trans hnone.1.le) (hintRate_nonneg s now)
      exact absurd ⟨hzero,hnone.2⟩ hsome
    · apply round_mono
      have hanti : documentedSec p (relayThroughputBps s now) (hintRate (after mode as) now') ≤
          documentedSec p (relayThroughputBps s now) (hintRate s now) := documentedSec_antitone hr
      linarith

theorem documentedMs_relaying_pos {t : Rat} (ht : 0 < t) (hp : t*noiseWindowSec < p) (r : Rat) :
    documentedMs p t r ≠ 0 := by
  have hlong := patience_pos p t
  rw [documentedMs,documentedSec_relaying ht hp,ne_eq,round_eq_zero_iff (by linarith)]
  linarith

theorem adaptiveRule_iff (ho : Observed s) (hm : s.mode = .adaptive) (h : Above s p now) :
    AdaptiveRule s p now ↔ ¬(relayThroughputBps s now = 0 ∧ 16000 < hintRate s now) := by
  have ht := ho.throughput_nonneg now
  have hr := hintRate_nonneg s now
  unfold AdaptiveRule
  rw [plan_adaptive hm h]
  unfold Above at h
  generalize relayThroughputBps s now = t at *
  generalize hintRate s now = r at *
  by_cases hnone : r = 0 ∧ t = 0
  · obtain ⟨rfl,rfl⟩ := hnone
    norm_num [minMeasurableSet]
  rw [windowSec_eq hr ht h hnone,round_documented ht h]
  by_cases hset : documentedSec p t r*r < minMeasurableSet
  · -- a set that is too small is not that of very many hints
    have hfew : ¬(t = 0 ∧ 16000 < r) := by
      intro hmany
      obtain ⟨rfl,hmany⟩ := hmany
      have hrpos : 0 < r := by linarith
      have hshort : 8/r ≤ 60 := by
        rw [div_le_iff₀ hrpos]
        linarith
      rw [documentedSec_unrelayed hrpos,min_eq_left hshort,div_mul_cancel₀ _ hrpos.ne'] at hset
      norm_num [minMeasurableSet] at hset
    simp [hset,hfew]
  · simp only [hset,if_false,iff_false,not_false_eq_true,true_implies,and_true]
    by_cases hpos : 0 < t
    · have hlong := documentedMs_relaying_pos hpos h r
      simp [hlong,hpos.ne']
    · have htzero : t = 0 := le_antisymm (not_lt.mp hpos) ht
      have hrpos : 0 < r := lt_of_le_of_ne hr fun hzero => hnone ⟨hzero.symm,htzero⟩
      subst htzero
      simp [documentedMs_silent_iff hrpos]

end

/-- Strict plans follow the rule exactly when a hint or a relayed byte is observed, adaptive ones
exactly when something is relayed or the hints are not very many. -/
theorem release_rule_iff (mode : ReleaseMode) (as : List Action) {p now : Rat}
    (h : Above (after mode as) p now) :
    ((after mode as).mode = .strict → (StrictRule (after mode as) p now ↔
      ¬(hintRate (after mode as) now = 0 ∧ relayThroughputBps (after mode as) now = 0))) ∧
    ((after mode as).mode = .adaptive → (AdaptiveRule (after mode as) p now ↔
      ¬(relayThroughputBps (after mode as) now = 0 ∧ 16000 < hintRate (after mode as) now))) := by
  have ho := observed_after mode as
  constructor
  · intro hm
    exact strictRule_iff ho hm h
  · intro hm
    exact adaptiveRule_iff ho hm h

/-- Three hints in five minutes are few, and a strict plan waits for more. -/
theorem release_rule_sample :
    StrictRule (after .strict [.noteHintSeen 0,.noteHintSeen 0,.noteHintSeen 0]) 1024 0 := by
  have habove : Above (after .strict [.noteHintSeen 0,.noteHintSeen 0,.noteHintSeen 0]) 1024 0 := by
    unfold Above
    decide +kernel
  apply ((release_rule_iff .strict _ habove).1 rfl).mpr
  decide +kernel

/-- Where nothing at all was observed it does not. -/
theorem release_rule_silent : (after .strict []).mode = .strict ∧ Above (after .strict []) 1024 0 ∧
    ¬StrictRule (after .strict []) 1024 0 := by
  refine ⟨rfl,?_,?_⟩
  · unfold Above
    decide +kernel
  · intro h
    have hdelay := h.1
    revert hdelay
    decide +kernel

end HintRelease
