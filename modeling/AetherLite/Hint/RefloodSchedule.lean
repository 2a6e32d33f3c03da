import AetherLite.Hint.Reflood

/-! When a holder floods the hint of a slot anew, on a clock without end in both directions. -/
set_option autoImplicit false

namespace Reflood

open Js

def mailboxKeyBytes : Nat := 32

/-- The key of a mailbox, as it is written. -/
def keyHexOf (key : { bs : Bytes // bs.length = mailboxKeyBytes }) : String := Bytes.toHex key.1

/-- The start of a period. -/
def periodStart (offset : Nat) (k : Int) : Int := k*refloodPeriodMs+offset

def periodOf (offset : Nat) (now : Int) : Int := (now-offset)/refloodPeriodMs

/-- `isDueNow` at any time, also before the clock's zero. -/
def isDueAt (offset : Nat) (now : Int) : Prop :=
  now-periodStart offset (periodOf offset now) < refloodTickMs

/-- The ticks of a timer, one of them at `phase`. -/
def tick (phase i : Int) : Int := phase+i*refloodTickMs

/-- A time in a period at which the key is due. -/
def DueIn (offset : Nat) (k now : Int) : Prop := periodOf offset now = k ∧ isDueAt offset now

theorem digitValue_hexDigit {n : Nat} (h : n < 16) : digitValue (Bytes.hexDigit n) = some n := by
  have hall : ∀ i : Fin 16, digitValue (Bytes.hexDigit i.1) = some i.1 := by decide
  exact hall ⟨n,h⟩

/-- Digits have a value. -/
theorem digitsValue_isSome {base : Nat} {cs : List Char}
    (h : ∀ c ∈ cs, ∃ d < base, digitValue c = some d) : (digitsValue base cs).isSome = true := by
  unfold digitsValue
  generalize 0 = n
  induction cs generalizing n with
  | nil => rfl
  | cons c cs ih =>
    obtain ⟨d,hd,hc⟩ := h c List.mem_cons_self
    have hrest := ih (fun e he => h e (List.mem_cons_of_mem _ he)) (n*base+d)
    simpa [hc,hd] using hrest

theorem offset?_keyHexOf (key : { bs : Bytes // bs.length = mailboxKeyBytes }) :
    ∃ offset, offset? (keyHexOf key) = some offset ∧ offset < refloodPeriodMs := by
  have hsome : (digitsValue 16 ((keyHexOf key).toList.take 8)).isSome = true := by
    apply digitsValue_isSome
    intro c hc
    have hmem := List.mem_of_mem_take hc
    rw [keyHexOf,Bytes.toHex,String.toList_ofList] at hmem
    obtain ⟨n,hn,rfl⟩ := Bytes.mem_hexChars hmem
    exact ⟨n,hn,digitValue_hexDigit hn⟩
  obtain ⟨value,hvalue⟩ := Option.isSome_iff_exists.mp hsome
  exact ⟨value % refloodPeriodMs,by rw [offset?,hvalue]; rfl,Nat.mod_lt _ (by decide)⟩

section
variable {offset : Nat} {k now now' phase i : Int}

theorem isDueNow_iff {keyHex : String} (h : offset? keyHex = some offset) (now : Nat) :
    isDueNow keyHex now = true ↔ isDueAt offset now := by
  rw [isDueNow,h,Option.any_some,decide_eq_true_eq]
  rfl

/-- The due times of a period are its first minute. -/
theorem dueIn_iff : DueIn offset k now ↔
    periodStart offset k ≤ now ∧ now < periodStart offset k+refloodTickMs := by
  unfold DueIn isDueAt periodOf periodStart refloodPeriodMs refloodTickMs
  constructor
  · intro h
    obtain ⟨hk,hdue⟩ := h
    omega
  · intro h
    omega

/-- Of the ticks of a timer exactly one is in the first minute of a period. -/
theorem due_once (offset : Nat) (phase k : Int) : ∃! i : Int, DueIn offset k (tick phase i) := by
  simp only [dueIn_iff,tick]
  generalize periodStart offset k = start
  unfold refloodTickMs
  refine ⟨(start-phase+59999)/60000,?_,?_⟩
  · dsimp only
    omega
  · intro j hj
    omega

end

/-- Each holder of a key floods at one tick of each period, and no earlier than it started when
the whole period is after that; any two holders do it within a minute of each other. -/
theorem reflood_schedule (key : { bs : Bytes // bs.length = mailboxKeyBytes }) :
    ∃ offset, offset? (keyHexOf key) = some offset ∧
      (∀ now : Nat, isDueNow (keyHexOf key) now = true ↔ isDueAt offset now) ∧
      (∀ phase k : Int, (∃! i : Int, DueIn offset k (tick phase i)) ∧
        ∀ i, DueIn offset k (tick phase i) → phase ≤ periodStart offset k → 0 ≤ i) ∧
      ∀ phase phase' i j k : Int, DueIn offset k (tick phase i) → DueIn offset k (tick phase' j) →
        |tick phase i-tick phase' j| < refloodTickMs := by
  obtain ⟨offset,hoffset,-⟩ := offset?_keyHexOf key
  refine ⟨offset,hoffset,isDueNow_iff hoffset,?_,?_⟩
  · intro phase k
    refine ⟨due_once offset phase k,?_⟩
    intro i hdue hstart
    rw [dueIn_iff,tick] at hdue
    unfold refloodTickMs at hdue
    omega
  · intro phase phase' i j k hdue hdue'
    rw [dueIn_iff] at hdue hdue'
    rw [abs_lt]
    omega

end Reflood
