import Mathlib.Data.List.Basic

/-! The sessions with one peer, of which one is current. What they report waits in a queue for
who keeps the handshake, and what that one requests waits in a queue for who keeps the current
session. -/
set_option autoImplicit false

namespace SessionQueue

inductive Report where
  | connected (session : Nat)
  | join (session : Nat)
  | lost (session : Nat)
  /-- The current session was replaced. -/
  | reset

inductive Request where
  | mark (session : Nat)
  | drop (session : Nat)
  | gone (session : Nat)

/-- The session that is current once a request is met -/
def Request.meet : Option Nat → Request → Option Nat
  | c, .mark _ => c
  | _, .drop _ => none
  | c, .gone n => if c = some n then none else c

def remaining (c : Option Nat) (l : List Request) : Option Nat := l.foldl Request.meet c

/-- A mark or a drop finds its own session. -/
def Apt : Option Nat → List Request → Prop
  | _, [] => True
  | c, r :: l => (∀ n, r = .mark n ∨ r = .drop n → c = some n) ∧ Apt (r.meet c) l

/-- The session in the handshake once a report is handled -/
def Report.next : Option Nat → Report → Option Nat
  | _, .connected n => some n
  | s, .join _ => s
  | _, .lost _ => none
  | _, .reset => none

/-- A session in the handshake has reported that it is connected, and is the current one unless a
reset is on its way. -/
def Stands (c s : Option Nat) (l : List Report) : Prop :=
  ∀ n, s = some n → .connected n ∉ l ∧ (c = some n ↔ .reset ∉ l)

/-- A report finds no session in the handshake but its own. -/
def Fits (s : Option Nat) (e : Report) (l : List Report) : Prop :=
  match e with
  | .connected _ => s = none
  | .join n => (∀ m, s = some m → m = n) ∧ .reset ∉ l
  | .lost n => (∀ m, s = some m → m = n) ∧ .connected n ∉ l
  | .reset => True

def Orderly (c : Option Nat) : Option Nat → List Report → Prop
  | s, [] => Stands c s []
  | s, e :: l => Stands c s (e :: l) ∧ Fits s e l ∧ Orderly c (e.next s) l

section
variable {c c' s : Option Nat} {k n : Nat} {e : Report} {l : List Report}

theorem stands_none : Stands c none l := nofun

theorem Orderly.stands (h : Orderly c s l) : Stands c s l := by
  cases l with
  | nil => exact h
  | cons e l => exact h.1

theorem next_ne (hs : s ≠ some n) (hmem : .connected n ∉ e :: l) : e.next s ≠ some n := by
  cases e with
  | connected m =>
    rintro ⟨rfl⟩
    exact hmem List.mem_cons_self
  | join m => exact hs
  | lost m => nofun
  | reset => nofun

/-- The handshake may be forgotten before its turn. -/
theorem Orderly.forget (h : Orderly c s l) : Orderly c none l := by
  induction l generalizing s with
  | nil => exact stands_none
  | cons e l ih =>
    obtain ⟨-,hfits,hl⟩ := h
    refine ⟨stands_none,?_,?_⟩
    · cases e with
      | connected n => rfl
      | join n => exact ⟨nofun,hfits.2⟩
      | lost n => exact ⟨nofun,hfits.2⟩
      | reset => trivial
    · cases e with
      | join n => exact ih hl
      | _ => exact hl

theorem Stands.recast (h : Stands c s l) (hc : ∀ n, c = some n ∨ c' = some n → s ≠ some n) :
    Stands c' s l := by
  intro n hn
  refine ⟨(h n hn).1,?_⟩
  rw [← (h n hn).2]
  exact ⟨fun h => absurd hn (hc n (.inr h)),fun h => absurd hn (hc n (.inl h))⟩

/-- The current session may change between two that the queue does not speak of. -/
theorem Orderly.recast (h : Orderly c s l)
    (hc : ∀ n, c = some n ∨ c' = some n → s ≠ some n ∧ .connected n ∉ l) : Orderly c' s l := by
  induction l generalizing s with
  | nil => exact Stands.recast h fun n hn => (hc n hn).1
  | cons e l ih =>
    obtain ⟨hstands,hfits,hl⟩ := h
    refine ⟨hstands.recast fun n hn => (hc n hn).1,hfits,ih hl fun n hn => ?_⟩
    obtain ⟨hs,hmem⟩ := hc n hn
    exact ⟨next_ne hs hmem,fun h => hmem (List.mem_cons_of_mem _ h)⟩

theorem Stands.snoc (h : Stands c s l) (hr : e ≠ .reset)
    (hs : ∀ n, e = .connected n → s ≠ some n) : Stands c s (l ++ [e]) := by
  intro n hn
  obtain ⟨hmem,hiff⟩ := h n hn
  refine ⟨fun h => ?_,hiff.trans ?_⟩
  · rcases List.mem_append.mp h with h | h
    · exact hmem h
    · exact hs n (List.mem_singleton.mp h).symm hn
  · simp [List.mem_append,hr.symm]

/-- A report comes to the end of the queue. -/
theorem Orderly.snoc (h : Orderly c s l) (hr : e ≠ .reset)
    (hconn : ∀ n, e = .connected n →
      c = some n ∧ s ≠ some n ∧ .connected n ∉ l ∧ .lost n ∉ l)
    (hown : ∀ n m, e = .join n ∨ e = .lost n → c = some m →
      s = some m ∨ .connected m ∈ l → m = n) : Orderly c s (l ++ [e]) := by
  induction l generalizing s with
  | nil =>
    refine ⟨Stands.snoc h hr fun n hn => (hconn n hn).2.1,?_,?_⟩
    · have hs (n : Nat) (hn : e = .join n ∨ e = .lost n) (m : Nat) (hm : s = some m) : m = n :=
        hown n m hn ((h m hm).2.mpr List.not_mem_nil) (.inl hm)
      cases e with
      | connected n =>
        cases hs' : s with
        | none => rfl
        | some m =>
          obtain ⟨hc,hne,-⟩ := hconn n rfl
          have hm : c = some m := (h m hs').2.mpr List.not_mem_nil
          rw [hs',← hm,hc] at hne
          exact absurd rfl hne
      | join n => exact ⟨hs n (.inl rfl),List.not_mem_nil⟩
      | lost n => exact ⟨hs n (.inr rfl),List.not_mem_nil⟩
      | reset => trivial
    · cases e with
      | connected n =>
        rintro m ⟨rfl⟩
        exact ⟨List.not_mem_nil,by simp [(hconn n rfl).1]⟩
      | join n => exact h
      | lost n => exact stands_none
      | reset => exact stands_none
  | cons a l ih =>
    obtain ⟨hstands,hfits,hl⟩ := h
    refine ⟨hstands.snoc hr fun n hn => (hconn n hn).2.1,?_,
      ih hl (fun n hn => ?_) fun n m hn hm hs => ?_⟩
    · cases a with
      | connected n => exact hfits
      | join n => exact ⟨hfits.1,by simp [hfits.2,hr.symm]⟩
      | lost n =>
        refine ⟨hfits.1,fun h => ?_⟩
        rcases List.mem_append.mp h with h | h
        · exact hfits.2 h
        · exact (hconn n (List.mem_singleton.mp h).symm).2.2.2 List.mem_cons_self
      | reset => trivial
    · obtain ⟨hc,hs,hmem,hlost⟩ := hconn n hn
      exact ⟨hc,next_ne hs hmem,fun h => hmem (List.mem_cons_of_mem _ h),
        fun h => hlost (List.mem_cons_of_mem _ h)⟩
    · refine hown n m hn hm ?_
      rcases hs with hs | hs
      · cases a with
        | connected m' =>
          cases hs
          exact .inr List.mem_cons_self
        | join m' => exact .inl hs
        | lost m' => cases hs
        | reset => cases hs
      · exact .inr (List.mem_cons_of_mem _ hs)

theorem Stands.replace (h : Stands c s l) (hc : ∀ n, c' = some n → s ≠ some n) :
    Stands c' s (l ++ [.reset]) := by
  intro n hn
  refine ⟨by simp [(h n hn).1],fun h => absurd hn (hc n h),fun h => ?_⟩
  exact absurd (List.mem_append_right l (List.mem_singleton_self _)) h

/-- The current session is replaced by a new one, or by none. -/
theorem Orderly.replace (h : Orderly c s l) (hj : ∀ n, .join n ∉ l)
    (hc : ∀ n, c' = some n → s ≠ some n ∧ .connected n ∉ l) : Orderly c' s (l ++ [.reset]) := by
  induction l generalizing s with
  | nil => exact ⟨Stands.replace h fun n hn => (hc n hn).1,trivial,stands_none⟩
  | cons a l ih =>
    obtain ⟨hstands,hfits,hl⟩ := h
    refine ⟨hstands.replace fun n hn => (hc n hn).1,?_,?_⟩
    · cases a with
      | connected n => exact hfits
      | join n => exact absurd List.mem_cons_self (hj n)
      | lost n => exact ⟨hfits.1,by simp [hfits.2]⟩
      | reset => trivial
    · refine ih hl (fun n h => hj n (List.mem_cons_of_mem _ h)) fun n hn => ?_
      obtain ⟨hs,hmem⟩ := hc n hn
      exact ⟨next_ne hs hmem,fun h => hmem (List.mem_cons_of_mem _ h)⟩

end

section
variable {c : Option Nat} {k n : Nat} {r : Request} {l : List Request}

@[simp] theorem remaining_nil : remaining c [] = c := rfl

@[simp] theorem remaining_cons : remaining c (r :: l) = remaining (r.meet c) l := rfl

theorem remaining_snoc : remaining c (l ++ [r]) = r.meet (remaining c l) := by
  simp [remaining,List.foldl_append]

theorem meet_eq_some (h : r.meet c = some n) : c = some n ∧ r ≠ .gone n ∧ ∀ m, r ≠ .drop m := by
  cases r with
  | mark m => exact ⟨h,by simp,by simp⟩
  | drop m => cases h
  | gone m =>
    simp only [Request.meet] at h
    split at h
    · cases h
    · next hne =>
      refine ⟨h,?_,by simp⟩
      rintro ⟨rfl⟩
      exact hne h

theorem remaining_eq_some (h : remaining c l = some n) :
    c = some n ∧ .gone n ∉ l ∧ ∀ m, .drop m ∉ l := by
  induction l generalizing c with
  | nil => exact ⟨h,by simp,by simp⟩
  | cons r l ih =>
    obtain ⟨hr,hg,hd⟩ := ih h
    obtain ⟨hc,hrg,hrd⟩ := meet_eq_some hr
    refine ⟨hc,?_,fun m hm => ?_⟩
    · intro h
      rcases List.mem_cons.mp h with h | h
      · exact hrg h.symm
      · exact hg h
    · rcases List.mem_cons.mp hm with h | h
      · exact hrd m h.symm
      · exact hd m h

theorem remaining_none : remaining none l = none := by
  cases h : remaining none l with
  | none => rfl
  | some n => cases (remaining_eq_some h).1

theorem remaining_of_mem (hg : .gone n ∉ l) (hd : ∀ m, .drop m ∉ l) :
    remaining (some n) l = some n := by
  induction l with
  | nil => rfl
  | cons r l ih =>
    have hr : r.meet (some n) = some n := by
      cases r with
      | mark m => rfl
      | drop m => exact absurd List.mem_cons_self (hd m)
      | gone m =>
        have hne : n ≠ m := by
          rintro rfl
          exact hg List.mem_cons_self
        simp [Request.meet,hne]
    rw [remaining_cons,hr]
    exact ih (fun h => hg (List.mem_cons_of_mem _ h)) fun m h => hd m (List.mem_cons_of_mem _ h)

theorem Apt.snoc (h : Apt c l) (hr : ∀ n, r = .mark n ∨ r = .drop n → remaining c l = some n) :
    Apt c (l ++ [r]) := by
  induction l generalizing c with
  | nil => exact ⟨hr,trivial⟩
  | cons a l ih => exact ⟨h.1,ih h.2 hr⟩

/-- A mark or a drop is for the session that is current now. -/
theorem Apt.of_mem (h : Apt c l) (hn : .mark n ∈ l ∨ .drop n ∈ l) : c = some n := by
  induction l generalizing c with
  | nil => simp at hn
  | cons r l ih =>
    obtain ⟨hr,hl⟩ := h
    by_cases he : r = .mark n ∨ r = .drop n
    · exact hr n he
    · have hn : .mark n ∈ l ∨ .drop n ∈ l := by
        rw [not_or] at he
        rcases hn with hn | hn
        · exact .inl ((List.mem_cons.mp hn).resolve_left fun h => he.1 h.symm)
        · exact .inr ((List.mem_cons.mp hn).resolve_left fun h => he.2 h.symm)
      exact (meet_eq_some (ih hl hn)).1

theorem apt_of_not_mem (h : ∀ n, .mark n ∉ l ∧ .drop n ∉ l) : Apt c l := by
  induction l generalizing c with
  | nil => trivial
  | cons r l ih =>
    refine ⟨fun n hn => ?_,ih fun n => ⟨fun hm => (h n).1 (List.mem_cons_of_mem _ hm),
      fun hm => (h n).2 (List.mem_cons_of_mem _ hm)⟩⟩
    rcases hn with rfl | rfl
    · exact absurd List.mem_cons_self (h n).1
    · exact absurd List.mem_cons_self (h n).2

/-- Without a current session nothing is marked or dropped. -/
theorem Apt.none_not_mem (h : Apt none l) (n : Nat) : .mark n ∉ l ∧ .drop n ∉ l := by
  constructor
  · intro hm
    cases h.of_mem (.inl hm)
  · intro hm
    cases h.of_mem (.inr hm)

end

/-- The current session and whether it is verified, the session in the handshake, and the one
whose JOIN was taken. -/
structure View where
  current : Option (Nat × Bool) := none
  requests : List Request := []
  stamp : Option Nat := none
  proved : Option Nat := none
  reports : List Report := []

def View.session (v : View) : Option Nat := v.current.map Prod.fst

/-- The session that stays when the requests have been met -/
def View.stays (v : View) : Option Nat := remaining v.session v.requests

/-- What is known of the sessions. Those from `next` on are yet to come. -/
structure Facts where
  next : Nat
  announced : Nat → Prop
  running : Nat → Prop
  joined : Nat → Prop

/-- More is known. -/
structure Grows (f f' : Facts) : Prop where
  next : f.next ≤ f'.next
  announced : ∀ n < f.next, f.announced n → f'.announced n
  running : ∀ n < f.next, f'.running n → f.running n
  joined : ∀ n, f.joined n → f'.joined n

theorem Grows.trans {f g k : Facts} (h : Grows f g) (h' : Grows g k) : Grows f k := by
  refine ⟨Nat.le_trans h.next h'.next,fun n hn ha => ?_,fun n hn hr => ?_,fun n hj => ?_⟩
  · exact h'.announced n (Nat.lt_of_lt_of_le hn h.next) (h.announced n hn ha)
  · exact h.running n hn (h'.running n (Nat.lt_of_lt_of_le hn h.next) hr)
  · exact h'.joined n (h.joined n hj)

structure Seated (f : Facts) (v : View) : Prop where
  apt : Apt v.session v.requests
  orderly : Orderly v.stays v.stamp v.reports
  proved : ∀ n, v.proved = some n → v.stamp = some n
  agreed : ∀ n, v.stays = some n →
    (v.proved = some n ↔ v.current = some (n,true) ∨ .mark n ∈ v.requests)
  joined : ∀ n, v.current = some (n,true) ∨ .mark n ∈ v.requests → f.joined n
  announced : ∀ n, v.stamp = some n ∨ .connected n ∈ v.reports ∨ .drop n ∈ v.requests →
    f.announced n
  stopped : ∀ n, .lost n ∈ v.reports ∨ .gone n ∈ v.requests → ¬f.running n
  known : ∀ n, v.session = some n ∨ v.stamp = some n ∨ .connected n ∈ v.reports ∨
    .lost n ∈ v.reports ∨ .gone n ∈ v.requests → n < f.next

namespace Seated

variable {f f' : Facts} {v : View} {n : Nat} {l : List Report} {rs : List Request}

theorem empty (f : Facts) : Seated f {} := by
  refine ⟨trivial,stands_none,nofun,nofun,?_,?_,?_,?_⟩
  all_goals simp [View.session]

/-- When nothing is on its way, the proved session is the verified one. -/
theorem agree (h : Seated f v) (hr : v.reports = []) (hq : v.requests = []) :
    v.proved = some n ↔ v.current = some (n,true) := by
  have hstays : v.stays = v.session := by simp [View.stays,hq]
  have hagreed (hn : v.session = some n) : v.proved = some n ↔ v.current = some (n,true) := by
    simpa [hq] using h.agreed n (hstays.trans hn)
  constructor
  · intro hp
    have hstands := h.orderly.stands n (h.proved n hp)
    rw [hr,hstays] at hstands
    exact (hagreed (hstands.2.mpr List.not_mem_nil)).mp hp
  · intro hc
    exact (hagreed (by simp [View.session,hc])).mpr hc

theorem mono (h : Seated f v) (hg : Grows f f') : Seated f' v := by
  refine ⟨h.apt,h.orderly,h.proved,h.agreed,fun n hn => hg.joined n (h.joined n hn),fun n hn => ?_,
    fun n hn hrun => ?_,fun n hn => Nat.lt_of_lt_of_le (h.known n hn) hg.next⟩
  · refine hg.announced n (h.known n ?_) (h.announced n hn)
    rcases hn with hn | hn | hn
    · exact .inr (.inl hn)
    · exact .inr (.inr (.inl hn))
    · exact .inl (h.apt.of_mem (.inr hn))
  · refine h.stopped n hn (hg.running n (h.known n ?_) hrun)
    rcases hn with hn | hn
    · exact .inr (.inr (.inr (.inl hn)))
    · exact .inr (.inr (.inr (.inr hn)))

/-! A report is handled. -/

/-- The reports left, and less in the handshake. -/
theorem tail {e : Report} (h : Seated f v) (hr : v.reports = e :: l) (stamp : Option Nat)
    (hs : ∀ n, stamp = some n → f.announced n ∧ n < f.next) :
    (∀ n, stamp = some n ∨ .connected n ∈ l ∨ .drop n ∈ v.requests → f.announced n) ∧
      (∀ n, .lost n ∈ l ∨ .gone n ∈ v.requests → ¬f.running n) ∧
        ∀ n, v.session = some n ∨ stamp = some n ∨ .connected n ∈ l ∨ .lost n ∈ l ∨
          .gone n ∈ v.requests → n < f.next := by
  refine ⟨fun n hn => ?_,fun n hn => h.stopped n ?_,fun n hn => ?_⟩
  · rcases hn with hn | hn | hn
    · exact (hs n hn).1
    · exact h.announced n (.inr (.inl (hr ▸ List.mem_cons_of_mem _ hn)))
    · exact h.announced n (.inr (.inr hn))
  · exact hn.imp_left fun hn => hr ▸ List.mem_cons_of_mem _ hn
  · rcases hn with hn | hn | hn | hn | hn
    · exact h.known n (.inl hn)
    · exact (hs n hn).2
    · exact h.known n (.inr (.inr (.inl (hr ▸ List.mem_cons_of_mem _ hn))))
    · exact h.known n (.inr (.inr (.inr (.inl (hr ▸ List.mem_cons_of_mem _ hn)))))
    · exact h.known n (.inr (.inr (.inr (.inr hn))))

theorem stamped (h : Seated f v) : ∀ n, v.stamp = some n → f.announced n ∧ n < f.next :=
  fun n hn => ⟨h.announced n (.inl hn),h.known n (.inr (.inl hn))⟩

theorem connected (h : Seated f v) (hr : v.reports = .connected n :: l) :
    Seated f { v with stamp := some n, reports := l } := by
  obtain ⟨-,hfits,horderly⟩ : Orderly v.stays v.stamp (.connected n :: l) := hr ▸ h.orderly
  have hnone : v.stamp = none := hfits
  have hproved (m : Nat) : v.proved ≠ some m := by
    intro hm
    have hs := h.proved m hm
    rw [hnone] at hs
    cases hs
  have hmem : .connected n ∈ v.reports := hr ▸ List.mem_cons_self
  obtain ⟨ha,hst,hk⟩ := h.tail hr (some n) fun m hm => by
    cases hm
    exact ⟨h.announced n (.inr (.inl hmem)),h.known n (.inr (.inr (.inl hmem)))⟩
  exact ⟨h.apt,horderly,fun m hm => absurd hm (hproved m),h.agreed,h.joined,ha,hst,hk⟩

/-- A JOIN that is not looked at. -/
theorem ignored (h : Seated f v) (hr : v.reports = .join n :: l) :
    Seated f { v with reports := l } := by
  obtain ⟨-,-,horderly⟩ : Orderly v.stays v.stamp (.join n :: l) := hr ▸ h.orderly
  obtain ⟨ha,hst,hk⟩ := h.tail hr v.stamp h.stamped
  exact ⟨h.apt,horderly,h.proved,h.agreed,h.joined,ha,hst,hk⟩

/-- A JOIN that is looked at comes on the session in the handshake, which is the current one. -/
theorem looked (h : Seated f v) (hr : v.reports = .join n :: l) {m : Nat} (hs : v.stamp = some m) :
    v.stamp = some n ∧ v.stays = some n ∧ .connected n ∉ l := by
  obtain ⟨hstands,hfits,-⟩ : Orderly v.stays v.stamp (.join n :: l) := hr ▸ h.orderly
  obtain rfl := hfits.1 m hs
  obtain ⟨hmem,hiff⟩ := hstands m hs
  refine ⟨hs,hiff.mpr ?_,fun h => hmem (List.mem_cons_of_mem _ h)⟩
  simpa using hfits.2

theorem accepted (h : Seated f v) (hr : v.reports = .join n :: l) {m : Nat} (hs : v.stamp = some m)
    (hj : f.joined n) :
    Seated f { v with proved := some n, requests := v.requests ++ [.mark n], reports := l } := by
  obtain ⟨hsn,hstays,-⟩ := h.looked hr hs
  obtain ⟨-,-,horderly⟩ : Orderly v.stays v.stamp (.join n :: l) := hr ▸ h.orderly
  obtain ⟨ha,hst,hk⟩ := h.tail hr v.stamp h.stamped
  have hrem : remaining v.session (v.requests ++ [.mark n]) = v.stays := remaining_snoc
  refine ⟨h.apt.snoc fun k hk => ?_,?_,fun k hk => ?_,fun k hk => ?_,fun k hk => ?_,?_,?_,?_⟩
  · obtain rfl : n = k := by simpa using hk
    exact hstays
  · change Orderly (remaining v.session _) _ _
    rw [hrem]
    exact horderly
  · cases hk
    exact hsn
  · obtain rfl : n = k := Option.some.inj (hstays.symm.trans (hrem.symm.trans hk))
    simp
  · obtain hk | hk := hk
    · exact h.joined k (.inl hk)
    · rcases List.mem_append.mp hk with hk | hk
      · exact h.joined k (.inr hk)
      · cases List.mem_singleton.mp hk
        exact hj
  · simpa using ha
  · simpa using hst
  · simpa [View.session] using hk

theorem refused (h : Seated f v) (hr : v.reports = .join n :: l) {m : Nat} (hs : v.stamp = some m)
    (hp : v.proved = none) : Seated f { v with
      stamp := none, requests := v.requests ++ [.drop n], reports := l } := by
  obtain ⟨hsn,hstays,hmem⟩ := h.looked hr hs
  obtain ⟨-,-,horderly⟩ : Orderly v.stays v.stamp (.join n :: l) := hr ▸ h.orderly
  obtain ⟨ha,hst,hk⟩ := h.tail hr none nofun
  have hrem : remaining v.session (v.requests ++ [.drop n]) = none := remaining_snoc
  refine ⟨h.apt.snoc fun k hk => ?_,?_,fun k hk => ?_,fun k hk => ?_,fun k hk => ?_,fun k hk => ?_,
    ?_,?_⟩
  · obtain rfl : n = k := by simpa using hk
    exact hstays
  · change Orderly (remaining v.session _) none l
    rw [hrem]
    refine horderly.forget.recast fun k hk => ?_
    rw [hstays] at hk
    obtain rfl : n = k := by simpa using hk
    exact ⟨nofun,hmem⟩
  · rw [hp] at hk
    cases hk
  · cases hrem.symm.trans hk
  · exact h.joined k (by simpa using hk)
  · obtain hk | hk | hk := hk
    · cases hk
    · exact ha k (.inr (.inl hk))
    · rcases List.mem_append.mp hk with hk | hk
      · exact ha k (.inr (.inr hk))
      · cases List.mem_singleton.mp hk
        exact h.announced n (.inl hsn)
  · simpa using hst
  · simpa [View.session] using hk

theorem lost (h : Seated f v) (hr : v.reports = .lost n :: l) : Seated f { v with
    stamp := none, proved := none, requests := v.requests ++ [.gone n], reports := l } := by
  obtain ⟨-,hfits,horderly⟩ : Orderly v.stays v.stamp (.lost n :: l) := hr ▸ h.orderly
  obtain ⟨ha,hst,hk'⟩ := h.tail hr none nofun
  have hmem : .lost n ∈ v.reports := hr ▸ List.mem_cons_self
  have hrem : remaining v.session (v.requests ++ [.gone n]) = Request.meet v.stays (.gone n) :=
    remaining_snoc
  refine ⟨h.apt.snoc (by simp),?_,nofun,fun k hk => ?_,fun k hk => ?_,?_,fun k hk => ?_,
    fun k hk => ?_⟩
  · change Orderly (remaining v.session _) none l
    rw [hrem]
    simp only [Request.meet]
    split
    · next hstays =>
      refine horderly.recast fun k hk => ⟨nofun,?_⟩
      obtain rfl : n = k := by simpa [hstays] using hk
      exact hfits.2
    · exact horderly
  · obtain ⟨hstays,hne,-⟩ := meet_eq_some (hrem.symm.trans hk)
    refine ⟨nofun,fun hc => ?_⟩
    have hp := (h.agreed k hstays).mpr (by simpa using hc)
    obtain rfl := hfits.1 k (h.proved k hp)
    exact absurd rfl hne
  · exact h.joined k (by simpa using hk)
  · simpa using ha
  · rcases hk with hk | hk
    · exact hst k (.inl hk)
    · rcases List.mem_append.mp hk with hk | hk
      · exact hst k (.inr hk)
      · cases List.mem_singleton.mp hk
        exact h.stopped n (.inl hmem)
  · rcases hk with hk | hk | hk | hk | hk
    · exact hk' k (.inl hk)
    · cases hk
    · exact hk' k (.inr (.inr (.inl hk)))
    · exact hk' k (.inr (.inr (.inr (.inl hk))))
    · rcases List.mem_append.mp hk with hk | hk
      · exact hk' k (.inr (.inr (.inr (.inr hk))))
      · cases List.mem_singleton.mp hk
        exact h.known n (.inr (.inr (.inr (.inl hmem))))

theorem reset (h : Seated f v) (hr : v.reports = .reset :: l) :
    Seated f { v with stamp := none, proved := none, reports := l } := by
  obtain ⟨hstands,-,horderly⟩ : Orderly v.stays v.stamp (.reset :: l) := hr ▸ h.orderly
  obtain ⟨ha,hst,hk⟩ := h.tail hr none nofun
  refine ⟨h.apt,horderly,nofun,fun k hk => ⟨nofun,fun hc => ?_⟩,h.joined,ha,hst,hk⟩
  have hs := h.proved k ((h.agreed k hk).mpr hc)
  exact absurd List.mem_cons_self ((hstands k hs).2.mp hk)

/-! A request is met. -/

/-- What is left when the first request is met, if no session is verified that was not to be. -/
theorem met (h : Seated f v) {r : Request} (hq : v.requests = r :: rs) {c : Option (Nat × Bool)}
    (hc : c.map Prod.fst = r.meet v.session)
    (hv : ∀ k, c.map Prod.fst = some k → (c = some (k,true) ∨ .mark k ∈ rs ↔
      v.current = some (k,true) ∨ .mark k ∈ v.requests)) :
    Seated f { v with current := c, requests := rs } := by
  have hapt : Apt v.session (r :: rs) := hq ▸ h.apt
  have hstays : remaining (c.map Prod.fst) rs = v.stays := by
    rw [View.stays,hq,remaining_cons,hc]
  have hkept {k : Nat} (hk : c.map Prod.fst = some k) : v.session = some k :=
    (meet_eq_some (hc.symm.trans hk)).1
  refine ⟨?_,?_,h.proved,fun k hk => ?_,fun k hk => h.joined k ?_,fun k hk => ?_,fun k hk => ?_,
    fun k hk => h.known k ?_⟩
  · change Apt (c.map Prod.fst) rs
    rw [hc]
    exact hapt.2
  · change Orderly (remaining (c.map Prod.fst) rs) v.stamp v.reports
    rw [hstays]
    exact h.orderly
  · exact (h.agreed k (hstays.symm.trans hk)).trans (hv k (remaining_eq_some hk).1).symm
  · rcases hk with hk | hk
    · have hk : c = some (k,true) := hk
      exact (hv k (by rw [hk]; rfl)).mp (.inl hk)
    · exact .inr (hq ▸ List.mem_cons_of_mem _ hk)
  · exact h.announced k (hk.imp_right (Or.imp_right fun hk => hq ▸ List.mem_cons_of_mem _ hk))
  · exact h.stopped k (hk.imp_right fun hk => hq ▸ List.mem_cons_of_mem _ hk)
  · rcases hk with hk | hk | hk | hk | hk
    · exact .inl (hkept hk)
    · exact .inr (.inl hk)
    · exact .inr (.inr (.inl hk))
    · exact .inr (.inr (.inr (.inl hk)))
    · exact .inr (.inr (.inr (.inr (hq ▸ List.mem_cons_of_mem _ hk))))

theorem marked (h : Seated f v) (hq : v.requests = .mark n :: rs) :
    Seated f { v with current := v.current.map fun e => (e.1,true), requests := rs } := by
  have hapt : Apt v.session (.mark n :: rs) := hq ▸ h.apt
  obtain ⟨⟨n',b⟩,hcur,rfl⟩ := Option.map_eq_some_iff.mp (hapt.1 n (.inl rfl))
  refine h.met hq ?_ fun k hk => ?_
  · simp [View.session,hcur,Request.meet]
  · obtain rfl : n' = k := by simpa [hcur] using hk
    simp [hcur,hq]

/-- The current session goes, whatever it is. -/
theorem dropped (h : Seated f v) (hq : v.requests = .drop n :: rs) :
    Seated f { v with current := none, requests := rs } := h.met hq rfl nofun

theorem gone (h : Seated f v) (hq : v.requests = .gone n :: rs) : Seated f { v with
    current := if v.session = some n then none else v.current, requests := rs } := by
  by_cases hn : v.session = some n
  · rw [if_pos hn]
    exact h.met hq (by simp [Request.meet,hn]) nofun
  · rw [if_neg hn]
    refine h.met hq ?_ fun k _ => by simp [hq]
    simp only [Request.meet]
    rw [if_neg hn]
    rfl

/-! A session begins, or reports. -/

/-- A session that is yet to come is not spoken of. -/
theorem unspoken (h : Seated f v) : v.stamp ≠ some f.next ∧ .connected f.next ∉ v.reports ∧
    .gone f.next ∉ v.requests :=
  ⟨fun hn => Nat.lt_irrefl _ (h.known _ (.inr (.inl hn))),
    fun hn => Nat.lt_irrefl _ (h.known _ (.inr (.inr (.inl hn)))),
    fun hn => Nat.lt_irrefl _ (h.known _ (.inr (.inr (.inr (.inr hn)))))⟩

/-- A new session takes the place, or none. Nothing is to be marked or dropped, and what is
reported is in order for the new one. -/
theorem placed (h : Seated f v) (hg : Grows f f') (hlt : f.next < f'.next)
    (hq : ∀ n, .mark n ∉ v.requests ∧ .drop n ∉ v.requests) {c : Option (Nat × Bool)}
    (hc : c = none ∨ c = some (f.next,false)) {l : List Report}
    (hl : ∀ n, (.connected n ∈ l → .connected n ∈ v.reports) ∧ (.lost n ∈ l → .lost n ∈ v.reports))
    (horderly : Orderly (c.map Prod.fst) v.stamp l) :
    Seated f' { v with current := c, reports := l } := by
  have hgrown := h.mono hg
  have hstays : remaining (c.map Prod.fst) v.requests = c.map Prod.fst := by
    rcases hc with rfl | rfl
    · exact remaining_none
    · exact remaining_of_mem h.unspoken.2.2 fun m => (hq m).2
  refine ⟨apt_of_not_mem hq,?_,h.proved,fun k hk => ?_,fun k hk => ?_,fun k hk => ?_,
    fun k hk => ?_,fun k hk => ?_⟩
  · change Orderly (remaining (c.map Prod.fst) v.requests) v.stamp l
    rw [hstays]
    exact horderly
  · have hk : c.map Prod.fst = some k := (remaining_eq_some hk).1
    rcases hc with rfl | rfl
    · cases hk
    · cases hk
      refine ⟨fun hp => absurd (h.proved _ hp) h.unspoken.1,fun hv => ?_⟩
      rcases hv with hv | hv
      · cases hv
      · exact absurd hv (hq _).1
  · rcases hk with hk | hk
    · rcases hc with rfl | rfl
      · cases hk
      · cases hk
    · exact absurd hk (hq k).1
  · exact hgrown.announced k (hk.imp_right (Or.imp_left (hl k).1))
  · exact hgrown.stopped k (hk.imp_left (hl k).2)
  · rcases hk with hk | hk | hk | hk | hk
    · rcases hc with rfl | rfl
      · cases hk
      · cases hk
        exact hlt
    · exact hgrown.known k (.inr (.inl hk))
    · exact hgrown.known k (.inr (.inr (.inl ((hl k).1 hk))))
    · exact hgrown.known k (.inr (.inr (.inr (.inl ((hl k).2 hk)))))
    · exact hgrown.known k (.inr (.inr (.inr (.inr hk))))

theorem begun (h : Seated f v) (hg : Grows f f') (hlt : f.next < f'.next)
    (hc : v.current = none) : Seated f' { v with current := some (f.next,false) } := by
  have hnone : v.session = none := by simp [View.session,hc]
  have hstays : v.stays = none := by rw [View.stays,hnone,remaining_none]
  have hapt : Apt none v.requests := hnone ▸ h.apt
  refine h.placed hg hlt hapt.none_not_mem (.inr rfl) (fun _ => ⟨id,id⟩) ?_
  refine h.orderly.recast fun n hn => ?_
  rw [hstays] at hn
  obtain rfl : f.next = n := by simpa using hn
  exact ⟨h.unspoken.1,h.unspoken.2.1⟩

/-- The current session is replaced when no JOIN is waiting and nothing is to be marked or
dropped. -/
theorem replaced (h : Seated f v) (hg : Grows f f') (hlt : f.next < f'.next)
    (hj : ∀ n, .join n ∉ v.reports) (hq : ∀ n, .mark n ∉ v.requests ∧ .drop n ∉ v.requests)
    {c : Option (Nat × Bool)} (hc : c = none ∨ c = some (f.next,false)) :
    Seated f' { v with current := c, reports := v.reports ++ [.reset] } := by
  refine h.placed hg hlt hq hc (by simp) (h.orderly.replace hj fun n hn => ?_)
  rcases hc with rfl | rfl
  · cases hn
  · cases hn
    exact ⟨h.unspoken.1,h.unspoken.2.1⟩

/-- A report comes to the end, which does not speak of a session that is not known. -/
theorem reported (h : Seated f v) (hg : Grows f f') {e : Report}
    (hconn : ∀ n, e = .connected n → f'.announced n ∧ n < f'.next)
    (hlost : ∀ n, e = .lost n → ¬f'.running n ∧ n < f'.next)
    (horderly : Orderly v.stays v.stamp (v.reports ++ [e])) :
    Seated f' { v with reports := v.reports ++ [e] } := by
  have hgrown := h.mono hg
  refine ⟨h.apt,horderly,h.proved,h.agreed,hgrown.joined,fun k hk => ?_,fun k hk => ?_,
    fun k hk => ?_⟩
  · simp only [List.mem_append,List.mem_singleton] at hk
    rcases hk with hk | (hk | hk) | hk
    · exact hgrown.announced k (.inl hk)
    · exact hgrown.announced k (.inr (.inl hk))
    · exact (hconn k hk.symm).1
    · exact hgrown.announced k (.inr (.inr hk))
  · simp only [List.mem_append,List.mem_singleton] at hk
    rcases hk with (hk | hk) | hk
    · exact hgrown.stopped k (.inl hk)
    · exact (hlost k hk.symm).1
    · exact hgrown.stopped k (.inr hk)
  · simp only [List.mem_append,List.mem_singleton] at hk
    rcases hk with hk | hk | (hk | hk) | (hk | hk) | hk
    · exact hgrown.known k (.inl hk)
    · exact hgrown.known k (.inr (.inl hk))
    · exact hgrown.known k (.inr (.inr (.inl hk)))
    · exact (hconn k hk.symm).2
    · exact hgrown.known k (.inr (.inr (.inr (.inl hk))))
    · exact (hlost k hk.symm).2
    · exact hgrown.known k (.inr (.inr (.inr (.inr hk))))

/-- The session that stays is the current one. -/
theorem session_of_stays (hs : v.stays = some n) : v.session = some n := (remaining_eq_some hs).1

/-- The current session connects. -/
theorem connects (h : Seated f v) (hg : Grows f f') (hc : v.session = some n)
    (ha : ¬f.announced n) (hr : f.running n) (ha' : f'.announced n) :
    Seated f' { v with reports := v.reports ++ [.connected n] } := by
  have hlt : n < f'.next := Nat.lt_of_lt_of_le (h.known n (.inl hc)) hg.next
  have hgone : .gone n ∉ v.requests := fun hm => h.stopped n (.inr hm) hr
  have hdrop (m : Nat) : .drop m ∉ v.requests := by
    intro hm
    obtain rfl : n = m := Option.some.inj (hc.symm.trans (h.apt.of_mem (.inr hm)))
    exact ha (h.announced n (.inr (.inr hm)))
  have hstays : v.stays = some n := by rw [View.stays,hc,remaining_of_mem hgone hdrop]
  refine h.reported hg (by rintro _ ⟨⟩; exact ⟨ha',hlt⟩) nofun
    (h.orderly.snoc nofun (fun m hm => ?_) nofun)
  cases hm
  exact ⟨hstays,fun hs => ha (h.announced n (.inl hs)),
    fun hm => ha (h.announced n (.inr (.inl hm))),fun hm => h.stopped n (.inl hm) hr⟩

/-- A JOIN arrives on the current session, or the current one has not connected. -/
theorem joins (h : Seated f v) (hc : ∀ m, v.session = some m → m = n ∨ ¬f.announced m) :
    Seated f { v with reports := v.reports ++ [.join n] } := by
  refine h.reported ⟨Nat.le_refl _,fun _ _ h => h,fun _ _ h => h,fun _ h => h⟩ nofun nofun
    (h.orderly.snoc nofun nofun fun k m hk hm hs => ?_)
  obtain rfl : n = k := by simpa using hk
  refine (hc m (session_of_stays hm)).resolve_right fun hna => hna (h.announced m ?_)
  exact hs.imp_right .inl

/-- A session is lost while it is the current one, or the current one has not connected. -/
theorem loses (h : Seated f v) (hg : Grows f f') (hlt : n < f'.next) (hr : ¬f'.running n)
    (hc : ∀ m, v.session = some m → m = n ∨ ¬f.announced m) :
    Seated f' { v with reports := v.reports ++ [.lost n] } := by
  refine h.reported hg nofun (by rintro _ ⟨⟩; exact ⟨hr,hlt⟩)
    (h.orderly.snoc nofun nofun fun k m hk hm hs => ?_)
  obtain rfl : n = k := by simpa using hk
  refine (hc m (session_of_stays hm)).resolve_right fun hna => hna (h.announced m ?_)
  exact hs.imp_right .inl

end Seated

end SessionQueue
