import Mathlib.Algebra.Order.Field.Basic
import Mathlib.Data.List.Basic
import Mathlib.Tactic.Linarith
import Mathlib.Tactic.Ring

/-! A token bucket over an ordered field, filled again only when a request comes. -/
set_option autoImplicit false

namespace TokenBucket

variable {K : Type*} [Field K] [LinearOrder K] [IsStrictOrderedRing K]

/-- The bucket holds `burst` tokens and gains `rate` a unit of time. -/
structure Limit (K : Type*) [Zero K] [LE K] where
  rate : K
  burst : K
  rate_nonneg : 0 ≤ rate
  burst_nonneg : 0 ≤ burst

structure Bucket (K : Type*) where
  tokens : K
  last : K

section
variable (limit : Limit K)

/-- The tokens at a time; a bucket that is not there is full. -/
def level : Option (Bucket K) → K → K
  | none, _ => limit.burst
  | some b, now => min limit.burst (b.tokens+max 0 (now-b.last)*limit.rate)

def isGranted (o : Option (Bucket K)) (now : K) : Bool := decide (1 ≤ level limit o now)

def spend (o : Option (Bucket K)) (now : K) : Bucket K :=
  ⟨if isGranted limit o now then level limit o now-1 else level limit o now,now⟩

/-- The times of requests, each with the answer. -/
def serve : Option (Bucket K) → List K → List (K × Bool)
  | _, [] => []
  | o, t :: ts => (t,isGranted limit o t) :: serve (some (spend limit o t)) ts

/-- The bucket as it is before requests from a time on. -/
structure Sound (o : Option (Bucket K)) (now : K) : Prop where
  nonneg : ∀ b, o = some b → 0 ≤ b.tokens
  le_burst : ∀ b, o = some b → b.tokens ≤ limit.burst
  last_le : ∀ b, o = some b → b.last ≤ now

def within (t₁ t₂ t : K) : Bool := decide (t₁ ≤ t) && decide (t ≤ t₂)

/-- The requests in every window are at most the burst and what the window gains. -/
def Conforms (ts : List K) : Prop :=
  ∀ t₁ t₂, t₁ ≤ t₂ → (ts.countP (within t₁ t₂) : K) ≤ limit.burst+limit.rate*(t₂-t₁)

end

section
variable {limit : Limit K} {o : Option (Bucket K)}

omit [IsStrictOrderedRing K] in
theorem sound_none (now : K) : Sound limit none now where
  nonneg _ h := by cases h
  le_burst _ h := by cases h
  last_le _ h := by cases h

omit [IsStrictOrderedRing K] in
theorem Sound.later {now t : K} (h : Sound limit o now) (ht : now ≤ t) : Sound limit o t :=
  { h with last_le := fun b hb => (h.last_le b hb).trans ht }

theorem Sound.level_nonneg {now : K} (h : Sound limit o now) : 0 ≤ level limit o now := by
  cases o with
  | none => exact limit.burst_nonneg
  | some b =>
    have htokens := h.nonneg b rfl
    have hgain : 0 ≤ max 0 (now-b.last)*limit.rate :=
      mul_nonneg (le_max_left 0 _) limit.rate_nonneg
    exact le_min limit.burst_nonneg (by linarith)

omit [IsStrictOrderedRing K] in
theorem level_le_burst (now : K) : level limit o now ≤ limit.burst := by
  cases o with
  | none => exact le_refl _
  | some b => exact min_le_left _ _

/-- In a time the bucket gains no more than the rate allows. -/
theorem Sound.level_le {now t : K} (h : Sound limit o now) (ht : now ≤ t) :
    level limit o t ≤ level limit o now+limit.rate*(t-now) := by
  have hgain : 0 ≤ limit.rate*(t-now) := mul_nonneg limit.rate_nonneg (by linarith)
  cases o with
  | none =>
    simp only [level]
    linarith
  | some b =>
    have hlast := h.last_le b rfl
    have hnow : max 0 (now-b.last) = now-b.last := max_eq_right (by linarith)
    have hthen : max 0 (t-b.last) = t-b.last := max_eq_right (by linarith)
    simp only [level,hnow,hthen]
    rw [min_add]
    refine le_min ((min_le_left _ _).trans (by linarith)) ((min_le_right _ _).trans (le_of_eq ?_))
    ring

theorem Sound.spend {now : K} (h : Sound limit o now) :
    Sound limit (some (spend limit o now)) now where
  nonneg b hb := by
    cases hb
    have hlevel := h.level_nonneg
    unfold TokenBucket.spend isGranted
    dsimp only
    split
    · next hone =>
      have hone := of_decide_eq_true hone
      linarith
    · exact hlevel
  le_burst b hb := by
    cases hb
    have hlevel : level limit o now ≤ limit.burst := level_le_burst now
    unfold TokenBucket.spend
    dsimp only
    split
    · linarith
    · exact hlevel
  last_le b hb := by
    cases hb
    exact le_refl _

/-- What a request leaves, and the token it took. -/
theorem Sound.level_spend {now : K} (h : Sound limit o now) :
    level limit (some (TokenBucket.spend limit o now)) now+(if isGranted limit o now then 1 else 0) =
      level limit o now := by
  have hle := h.spend.le_burst _ rfl
  have hsame : level limit (some (TokenBucket.spend limit o now)) now =
      (TokenBucket.spend limit o now).tokens := by
    simp only [level,TokenBucket.spend,sub_self,max_self,zero_mul,add_zero]
    exact min_eq_right hle
  rw [hsame]
  unfold TokenBucket.spend
  dsimp only
  split
  · ring
  · ring

omit [IsStrictOrderedRing K] in
theorem serve_times (ts : List K) : (serve limit o ts).map Prod.fst = ts := by
  induction ts generalizing o with
  | nil => rfl
  | cons t ts ih => simp [serve,ih]

omit [IsStrictOrderedRing K] in
theorem mem_serve {ts : List K} {e : K × Bool} (h : e ∈ serve limit o ts) : e.1 ∈ ts := by
  have htimes : (serve limit o ts).map Prod.fst = ts := serve_times ts
  rw [← htimes]
  exact List.mem_map_of_mem h

omit [IsStrictOrderedRing K] in
theorem granted_late {ts : List K} {t₂ : K} (h : ∀ t ∈ ts, ¬t ≤ t₂) :
    (serve limit o ts).countP (fun e => e.2 && decide (e.1 ≤ t₂)) = 0 := by
  rw [List.countP_eq_zero]
  intro e he
  simp [h e.1 (mem_serve he)]

/-- The requests that are granted up to a time take what there is and what is gained. -/
theorem Sound.granted_until {ts : List K} {now t₂ : K} (h : Sound limit o now)
    (hsorted : ts.Pairwise (· ≤ ·)) (hfrom : ∀ t ∈ ts, now ≤ t) (hnow : now ≤ t₂) :
    ((serve limit o ts).countP (fun e => e.2 && decide (e.1 ≤ t₂)) : K) ≤
      level limit o now+limit.rate*(t₂-now) := by
  induction ts generalizing o now with
  | nil =>
    have hlevel := h.level_nonneg
    have hgain : 0 ≤ limit.rate*(t₂-now) := mul_nonneg limit.rate_nonneg (by linarith)
    simp only [serve,List.countP_nil,Nat.cast_zero]
    linarith
  | cons t ts ih =>
    have ht : now ≤ t := hfrom t List.mem_cons_self
    obtain ⟨hhead,htail⟩ := List.pairwise_cons.mp hsorted
    have hthen := h.later ht
    have hgrow := h.level_le ht
    by_cases hend : t ≤ t₂
    · have hrest := ih hthen.spend htail hhead hend
      have hspend := hthen.level_spend
      have hcount : ((serve limit o (t :: ts)).countP (fun e => e.2 && decide (e.1 ≤ t₂)) : K) =
          ((serve limit (some (TokenBucket.spend limit o t)) ts).countP
            (fun e => e.2 && decide (e.1 ≤ t₂)) : K)+(if isGranted limit o t then 1 else 0) := by
        simp only [serve,List.countP_cons,hend,decide_true,Bool.and_true,Nat.cast_add]
        split <;> simp
      rw [hcount]
      have hsplit : limit.rate*(t₂-now) = limit.rate*(t-now)+limit.rate*(t₂-t) := by ring
      linarith
    · have hlate : ∀ u ∈ t :: ts, ¬u ≤ t₂ := by
        intro u hu hle
        obtain rfl | hu := List.mem_cons.mp hu
        · exact hend hle
        · exact hend ((hhead u hu).trans hle)
      have hlevel := h.level_nonneg
      have hgain : 0 ≤ limit.rate*(t₂-now) := mul_nonneg limit.rate_nonneg (by linarith)
      rw [granted_late hlate,Nat.cast_zero]
      linarith

/-- The requests that are granted in a window. -/
theorem Sound.granted_within {ts : List K} {now t₁ t₂ : K} (h : Sound limit o now)
    (hsorted : ts.Pairwise (· ≤ ·)) (hfrom : ∀ t ∈ ts, now ≤ t) (hwindow : t₁ ≤ t₂) :
    ((serve limit o ts).countP (fun e => e.2 && within t₁ t₂ e.1) : K) ≤
      limit.burst+limit.rate*(t₂-t₁) := by
  have hgain : 0 ≤ limit.rate*(t₂-t₁) := mul_nonneg limit.rate_nonneg (by linarith)
  have hburst := limit.burst_nonneg
  induction ts generalizing o now with
  | nil =>
    simp only [serve,List.countP_nil,Nat.cast_zero]
    linarith
  | cons t ts ih =>
    obtain ⟨hhead,htail⟩ := List.pairwise_cons.mp hsorted
    have hthen := h.later (hfrom t List.mem_cons_self)
    by_cases hin : t₁ ≤ t
    · -- from here on every request is late enough
      have hsame : (serve limit o (t :: ts)).countP (fun e => e.2 && within t₁ t₂ e.1) =
          (serve limit o (t :: ts)).countP (fun e => e.2 && decide (e.1 ≤ t₂)) := by
        apply List.countP_congr
        intro e he
        have hlate : t₁ ≤ e.1 := by
          obtain heq | hlater := List.mem_cons.mp (mem_serve he)
          · rw [heq]
            exact hin
          · exact hin.trans (hhead _ hlater)
        simp [within,hlate]
      rw [hsame]
      by_cases hend : t ≤ t₂
      · have hcount := hthen.granted_until hsorted (by
          intro u hu
          obtain rfl | hu := List.mem_cons.mp hu
          · exact le_refl _
          · exact hhead u hu) hend
        have hlevel : level limit o t ≤ limit.burst := level_le_burst t
        have hless : limit.rate*(t₂-t) ≤ limit.rate*(t₂-t₁) :=
          mul_le_mul_of_nonneg_left (by linarith) limit.rate_nonneg
        linarith
      · have hlate : ∀ u ∈ t :: ts, ¬u ≤ t₂ := by
          intro u hu hle
          obtain rfl | hu := List.mem_cons.mp hu
          · exact hend hle
          · exact hend ((hhead u hu).trans hle)
        rw [granted_late hlate,Nat.cast_zero]
        linarith
    · have hskip : (serve limit o (t :: ts)).countP (fun e => e.2 && within t₁ t₂ e.1) =
          (serve limit (some (TokenBucket.spend limit o t)) ts).countP
            (fun e => e.2 && within t₁ t₂ e.1) := by
        simp [serve,within,hin]
      rw [hskip]
      exact ih hthen.spend htail hhead

theorem granted_within {ts : List K} {t₁ t₂ : K} (h : ∀ t ∈ ts, Sound limit o t)
    (hsorted : ts.Pairwise (· ≤ ·)) (hwindow : t₁ ≤ t₂) :
    ((serve limit o ts).countP (fun e => e.2 && within t₁ t₂ e.1) : K) ≤
      limit.burst+limit.rate*(t₂-t₁) := by
  cases ts with
  | nil =>
    have hgain : 0 ≤ limit.rate*(t₂-t₁) := mul_nonneg limit.rate_nonneg (by linarith)
    have hburst := limit.burst_nonneg
    simp only [serve,List.countP_nil,Nat.cast_zero]
    linarith
  | cons t ts =>
    have hhead := (List.pairwise_cons.mp hsorted).1
    refine (h t List.mem_cons_self).granted_within hsorted (fun u hu => ?_) hwindow
    obtain rfl | hu := List.mem_cons.mp hu
    · exact le_refl _
    · exact hhead u hu

/-- All requests so far were granted, and since the bucket was full for the last time it lost a
token to each. -/
structure Unrefused (limit : Limit K) (o : Option (Bucket K)) (now : K) (before : List K) :
    Prop where
  times : ∀ t ∈ before, t ≤ now
  full : ∃ since recent, recent <:+ before ∧ (∀ t ∈ recent, since ≤ t) ∧ since ≤ now ∧
    limit.burst+limit.rate*(now-since) ≤ level limit o now+(recent.length : K)

omit [IsStrictOrderedRing K] in
theorem unrefused_none (now : K) : Unrefused limit none now [] where
  times t ht := by cases ht
  full := ⟨now,[],List.suffix_rfl,fun t ht => (by cases ht),le_refl _,by simp [level]⟩

theorem Unrefused.later {now t : K} {before : List K} (h : Unrefused limit o now before)
    (hs : Sound limit o now) (ht : now ≤ t) : Unrefused limit o t before where
  times u hu := (h.times u hu).trans ht
  full := by
    obtain ⟨since,recent,hrecent,hsince,hnow,hlevel⟩ := h.full
    by_cases hfull : level limit o t = limit.burst
    · exact ⟨t,[],List.nil_suffix,fun u hu => (by cases hu),le_refl _,by simp [hfull]⟩
    · -- the bucket is not full, so it has gained all that the rate allows
      refine ⟨since,recent,hrecent,hsince,hnow.trans ht,?_⟩
      cases o with
      | none => exact absurd rfl hfull
      | some b =>
        have hlast := hs.last_le b rfl
        have hgained : level limit (some b) t = b.tokens+max 0 (t-b.last)*limit.rate := by
          obtain hmin | hmin := min_choice limit.burst (b.tokens+max 0 (t-b.last)*limit.rate)
          · exact absurd hmin hfull
          · exact hmin
        have hbefore : level limit (some b) now ≤ b.tokens+max 0 (now-b.last)*limit.rate :=
          min_le_right _ _
        rw [max_eq_right (by linarith)] at hgained hbefore
        rw [hgained]
        have hsplit : limit.rate*(t-since) = limit.rate*(now-since)+(t-now)*limit.rate := by ring
        have hgain : (t-b.last)*limit.rate = (now-b.last)*limit.rate+(t-now)*limit.rate := by ring
        linarith

omit [Field K] [IsStrictOrderedRing K] in
theorem countP_within {before recent rest : List K} {since t : K} (h : recent <:+ before)
    (hsince : ∀ u ∈ recent, since ≤ u) (hbefore : ∀ u ∈ before, u ≤ t) (ht : since ≤ t) :
    recent.length+1 ≤ (before ++ t :: rest).countP (within since t) := by
  have hall : recent.countP (within since t) = recent.length := by
    rw [List.countP_eq_length]
    intro u hu
    simp [within,hsince u hu,hbefore u (h.subset hu)]
  have hpart := h.sublist.countP_le (p := within since t)
  have hlast : within since t t = true := by simp [within,ht]
  rw [List.countP_append,List.countP_cons,if_pos hlast]
  omega

theorem Unrefused.granted {before rest : List K} {t : K} (h : Unrefused limit o t before)
    (hs : Sound limit o t) (hc : Conforms limit (before ++ t :: rest)) :
    isGranted limit o t = true ∧
      Unrefused limit (some (spend limit o t)) t (before ++ [t]) := by
  obtain ⟨since,recent,hrecent,hsince,hnow,hlevel⟩ := h.full
  have hcount : ((recent.length+1 : Nat) : K) ≤ limit.burst+limit.rate*(t-since) :=
    (Nat.cast_le.mpr (countP_within hrecent hsince h.times hnow)).trans (hc since t hnow)
  rw [Nat.cast_add,Nat.cast_one] at hcount
  have hgranted : isGranted limit o t = true := decide_eq_true (by linarith)
  have hspend := hs.level_spend
  rw [hgranted,if_pos rfl] at hspend
  refine ⟨hgranted,?_,since,recent ++ [t],?_,?_,hnow,?_⟩
  · intro u hu
    obtain hu | hu := List.mem_append.mp hu
    · exact h.times u hu
    · exact (List.mem_singleton.mp hu).le
  · obtain ⟨front,rfl⟩ := hrecent
    exact ⟨front,by simp⟩
  · intro u hu
    obtain hu | hu := List.mem_append.mp hu
    · exact hsince u hu
    · exact (List.mem_singleton.mp hu) ▸ hnow
  · rw [List.length_append,List.length_singleton,Nat.cast_add,Nat.cast_one]
    linarith

theorem Unrefused.granted_all {before ts : List K} {now : K} (h : Unrefused limit o now before)
    (hs : Sound limit o now) (hsorted : ts.Pairwise (· ≤ ·)) (hfrom : ∀ t ∈ ts, now ≤ t)
    (hc : Conforms limit (before ++ ts)) : ∀ e ∈ serve limit o ts, e.2 = true := by
  induction ts generalizing o now before with
  | nil => simp [serve]
  | cons t ts ih =>
    obtain ⟨hhead,htail⟩ := List.pairwise_cons.mp hsorted
    have ht := hfrom t List.mem_cons_self
    have hthen := hs.later ht
    obtain ⟨hgranted,hnext⟩ := (h.later hs ht).granted hthen hc
    intro e he
    obtain rfl | he := List.mem_cons.mp he
    · exact hgranted
    · exact ih hnext hthen.spend htail hhead (by simpa using hc) e he

/-- A full bucket grants all of a sequence that conforms. -/
theorem granted_of_conforms {ts : List K} (hsorted : ts.Pairwise (· ≤ ·))
    (hc : Conforms limit ts) : ∀ e ∈ serve limit none ts, e.2 = true := by
  cases ts with
  | nil => simp [serve]
  | cons t ts =>
    have hhead := (List.pairwise_cons.mp hsorted).1
    refine (unrefused_none t).granted_all (sound_none t) hsorted (fun u hu => ?_) hc
    obtain rfl | hu := List.mem_cons.mp hu
    · exact le_refl _
    · exact hhead u hu

end

end TokenBucket
