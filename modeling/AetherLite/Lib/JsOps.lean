import AetherLite.Lib.JsValue

/-! The operators of ECMAScript that look at the type of their operands. How a Number
or a Date is written out is left to the caller. -/
set_option autoImplicit false

namespace Js

structure Format where
  number : Number → String
  date : Number → String

namespace Number

def add : Number → Number → Number
  | .nan, _ | _, .nan => .nan
  | .inf a, .inf b => if a = b then .inf a else .nan
  | .inf a, .fin _ | .fin _, .inf a => .inf a
  | .fin p, .fin q => ofRat (p+q)

def neg : Number → Number
  | .nan => .nan
  | .inf a => .inf !a
  | .fin p => .fin (-p)

def sub (m n : Number) : Number := add m (neg n)

/-- The quotient by a positive number. -/
def divBy (d : Nat) : Number → Number
  | .fin q => ofRat (q/d)
  | n => n

/-- `Math.floor` -/
def floor : Number → Number
  | .fin q => .fin q.floor
  | n => n

/-- `Math.abs` -/
def abs : Number → Number
  | .fin q => .fin |q|
  | .inf _ => .inf false
  | .nan => .nan

/-- `Math.min` of two Numbers. -/
def min : Number → Number → Number
  | .nan,_ | _,.nan => .nan
  | m,n => if lt n m then n else m

end Number

/-- `String.prototype.trim` -/
def trim (cs : List Char) : List Char :=
  ((cs.dropWhile isSpace).reverse.dropWhile isSpace).reverse

/-- What follows a prefix, as `startsWith` and `slice` find it. -/
def afterPrefix? (start : String) (text : String) : Option (List Char) :=
  if start.toList.isPrefixOf text.toList then some (text.toList.drop start.toList.length) else none

theorem trim_eq_self {cs : List Char} (h : ∀ c ∈ cs, isSpace c = false) : trim cs = cs := by
  have hfirst : ∀ l : List Char, (∀ c ∈ l, isSpace c = false) → l.dropWhile isSpace = l := by
    intro l hl
    cases l with
    | nil => rfl
    | cons c l => simp [hl c List.mem_cons_self]
  have hreverse : ∀ c ∈ cs.reverse, isSpace c = false := by
    intro c hc
    exact h c (List.mem_reverse.mp hc)
  rw [trim,hfirst cs h,hfirst cs.reverse hreverse,List.reverse_reverse]

def trimEnd (cs : List Char) : List Char := (cs.reverse.dropWhile isSpace).reverse

theorem trimEnd_cons (c : Char) (cs : List Char) :
    trimEnd (c :: cs) = if isSpace c = true ∧ trimEnd cs = [] then [] else c :: trimEnd cs := by
  simp only [trimEnd,List.reverse_cons,List.dropWhile_append,List.isEmpty_iff,List.reverse_eq_nil_iff]
  by_cases hrest : cs.reverse.dropWhile isSpace = []
  · cases hc : isSpace c <;> simp [hrest,hc]
  · simp [hrest]

theorem trim_cons {c : Char} (h : isSpace c = false) (cs : List Char) :
    trim (c :: cs) = c :: trimEnd cs := by
  have hsame : trim (c :: cs) = trimEnd (c :: cs) := by simp [trim,trimEnd,h]
  rw [hsame,trimEnd_cons]
  simp [h]

theorem trimEnd_append {cs : List Char} (h : ∀ c ∈ cs, isSpace c = false) (ds : List Char) :
    trimEnd (cs ++ ds) = cs ++ trimEnd ds := by
  induction cs with
  | nil => rfl
  | cons c cs ih =>
    rw [List.cons_append,trimEnd_cons,ih fun d hd => h d (List.mem_cons_of_mem c hd)]
    simp [h c List.mem_cons_self]

theorem trimEnd_trimEnd (cs : List Char) : trimEnd (trimEnd cs) = trimEnd cs := by
  induction cs with
  | nil => rfl
  | cons c cs ih =>
    rw [trimEnd_cons]
    split
    · rfl
    · next h => rw [trimEnd_cons,ih,if_neg h]

/-- What stands at the end may be trimmed first. -/
theorem trim_trimEnd (cs : List Char) : trim (trimEnd cs) = trim cs := by
  induction cs with
  | nil => rfl
  | cons c cs ih =>
    cases hc : isSpace c with
    | false =>
      rw [trimEnd_cons,trim_cons hc]
      simp only [hc,Bool.false_eq_true,false_and,if_false]
      rw [trim_cons hc,trimEnd_trimEnd]
    | true =>
      have hskip : ∀ ds, trim (c :: ds) = trim ds := by
        intro ds
        simp [trim,hc]
      rw [hskip,← ih,trimEnd_cons]
      by_cases hend : trimEnd cs = []
      · simp [hend,hc]
      · simp [hend,hskip]

theorem trimEnd_sublist (cs : List Char) : (trimEnd cs).Sublist cs := by
  have h := (List.dropWhile_sublist isSpace (l := cs.reverse)).reverse
  rwa [List.reverse_reverse] at h

theorem isSpace_graphic {c : Char} (h : 0x21 ≤ c.toNat ∧ c.toNat < 0x7f) : isSpace c = false := by
  have hc : c.val.toNat = c.toNat := rfl
  simp only [isSpace,← UInt32.toNat_inj,UInt32.le_iff_toNat_le,Bool.or_eq_false_iff,
    Bool.and_eq_false_iff,decide_eq_false_iff_not,hc]
  simp
  omega

theorem afterPrefix?_append (start : String) (cs : List Char) :
    afterPrefix? start (start ++ String.ofList cs) = some cs := by
  simp [afterPrefix?]

theorem afterPrefix?_eq_some {start text : String} {rest : List Char} :
    afterPrefix? start text = some rest ↔ text.toList = start.toList ++ rest := by
  simp only [afterPrefix?,Option.ite_none_right_eq_some,Option.some.injEq,
    List.isPrefixOf_iff_prefix]
  constructor
  · rintro ⟨⟨ds,hds⟩,h⟩
    rw [← hds,List.drop_left] at h
    rw [← hds,h]
  · intro h
    simp [h]

section Sorting
variable {α : Type} (cmp : α → α → Number)

/-- `a` goes before the elements it is not to follow, stable as `sort` is. -/
def insertBy (a : α) : List α → List α
  | [] => [a]
  | b :: bs => if (Number.fin 0).lt (cmp a b) then b :: insertBy a bs else a :: b :: bs

/-- `Array.prototype.sort` by a comparison -/
def sortBy : List α → List α
  | [] => []
  | a :: as => insertBy cmp a (sortBy as)

theorem insertBy_perm (a : α) (bs : List α) : (insertBy cmp a bs).Perm (a :: bs) := by
  induction bs with
  | nil => exact .refl _
  | cons b bs ih =>
    unfold insertBy
    split
    · exact (ih.cons b).trans (.swap a b bs)
    · exact .refl _

theorem sortBy_perm (as : List α) : (sortBy cmp as).Perm as := by
  induction as with
  | nil => exact .refl _
  | cons a as ih => exact (insertBy_perm cmp a _).trans (ih.cons a)

section Key
variable {cmp : α → α → Number} {key : α → Rat}

/-- The comparison asks for the order of the keys. -/
def ComparesBy (cmp : α → α → Number) (key : α → Rat) (as : List α) : Prop :=
  ∀ a ∈ as, ∀ b ∈ as, (Number.fin 0).lt (cmp a b) = true ↔ key b < key a

theorem ComparesBy.sublist {as bs : List α} (h : ComparesBy cmp key as) (hs : bs ⊆ as) :
    ComparesBy cmp key bs := fun a ha b hb => h a (hs ha) b (hs hb)

theorem ComparesBy.skip {a b : α} {bs : List α} (h : ComparesBy cmp key (a :: b :: bs)) :
    ComparesBy cmp key (a :: bs) := by
  refine h.sublist fun x hx => ?_
  rcases List.mem_cons.mp hx with rfl | hx
  · exact List.mem_cons_self
  · exact List.mem_cons_of_mem _ (List.mem_cons_of_mem _ hx)

theorem insertBy_sorted {a : α} {bs : List α} (h : ComparesBy cmp key (a :: bs))
    (hs : bs.Pairwise fun x y => key x ≤ key y) :
    (insertBy cmp a bs).Pairwise fun x y => key x ≤ key y := by
  induction bs with
  | nil => exact List.pairwise_singleton _ _
  | cons b bs ih =>
    obtain ⟨hb,hs'⟩ := List.pairwise_cons.mp hs
    have hab := h a List.mem_cons_self b (List.mem_cons_of_mem a List.mem_cons_self)
    have hi := ih h.skip hs'
    unfold insertBy
    split
    · next hlt =>
      refine List.pairwise_cons.mpr ⟨fun x hx => ?_,hi⟩
      rcases List.mem_cons.mp ((insertBy_perm cmp a bs).subset hx) with rfl | hx
      · exact le_of_lt (hab.mp hlt)
      · exact hb x hx
    · next hlt =>
      have hle : key a ≤ key b := not_lt.mp fun hk => hlt (hab.mpr hk)
      refine List.pairwise_cons.mpr ⟨fun x hx => ?_,hs⟩
      rcases List.mem_cons.mp hx with rfl | hx
      · exact hle
      · exact hle.trans (hb x hx)

theorem sortBy_sorted {as : List α} (h : ComparesBy cmp key as) :
    (sortBy cmp as).Pairwise fun x y => key x ≤ key y := by
  induction as with
  | nil => exact .nil
  | cons a as ih =>
    refine insertBy_sorted (h.sublist fun x hx => ?_) (ih (h.sublist (List.subset_cons_self a as)))
    rcases List.mem_cons.mp hx with rfl | hx
    · exact List.mem_cons_self
    · exact List.mem_cons_of_mem a ((sortBy_perm cmp as).subset hx)

theorem insertBy_filter {a : α} {bs : List α} (p : α → Bool) (h : ComparesBy cmp key (a :: bs))
    (hs : bs.Pairwise fun x y => key x ≤ key y) :
    (insertBy cmp a bs).filter p =
      if p a then insertBy cmp a (bs.filter p) else bs.filter p := by
  induction bs with
  | nil => by_cases hp : p a = true <;> simp [insertBy,hp]
  | cons b bs ih =>
    obtain ⟨hb,hs'⟩ := List.pairwise_cons.mp hs
    have hab := h a List.mem_cons_self b (List.mem_cons_of_mem a List.mem_cons_self)
    have hi := ih h.skip hs'
    by_cases hlt : (Number.fin 0).lt (cmp a b) = true
    · by_cases hpb : p b = true
      · simp only [insertBy,hlt,if_true,List.filter_cons,hpb,hi]
        split <;> simp_all
      · simp only [insertBy,hlt,if_true,List.filter_cons,hpb,hi]
        rfl
    · have hle : key a ≤ key b := not_lt.mp fun hk => hlt (hab.mpr hk)
      -- Everything that is kept behind `b` stays behind `a`.
      have hfirst : insertBy cmp a (bs.filter p) = a :: bs.filter p := by
        cases hc : bs.filter p with
        | nil => rfl
        | cons c cs =>
          have hcm : c ∈ bs := (List.mem_filter.mp (hc ▸ List.mem_cons_self : c ∈ bs.filter p)).1
          have hac := h a List.mem_cons_self c (List.mem_cons_of_mem a (List.mem_cons_of_mem b hcm))
          have hnot : ¬(Number.fin 0).lt (cmp a c) = true := fun hl =>
            absurd (hac.mp hl) (not_lt.mpr (hle.trans (hb c hcm)))
          simp [insertBy,hnot]
      by_cases hpa : p a = true
      · by_cases hpb : p b = true
        · simp [insertBy,hlt,hpa,hpb]
        · simp [insertBy,hlt,hpa,hpb,hfirst]
      · simp [insertBy,hlt,List.filter_cons,hpa]

/-- Sorting and leaving out some of the elements can be exchanged. -/
theorem sortBy_filter {as : List α} (p : α → Bool) (h : ComparesBy cmp key as) :
    sortBy cmp (as.filter p) = (sortBy cmp as).filter p := by
  induction as with
  | nil => rfl
  | cons a as ih =>
    have ha := ih (h.sublist (List.subset_cons_self a as))
    have hsub : a :: sortBy cmp as ⊆ a :: as := fun x hx => by
      rcases List.mem_cons.mp hx with rfl | hx
      · exact List.mem_cons_self
      · exact List.mem_cons_of_mem a ((sortBy_perm cmp as).subset hx)
    rw [sortBy,insertBy_filter p (h.sublist hsub)
      (sortBy_sorted (h.sublist (List.subset_cons_self a as))),← ha]
    by_cases hp : p a = true
    · simp [hp,sortBy]
    · simp [hp]

/-- Who has few with smaller keys is among the first, when the keys are different. -/
theorem mem_take_sortBy {as : List α} (h : ComparesBy cmp key as) (hn : as.Nodup)
    (hkey : ∀ a ∈ as, ∀ b ∈ as, key a = key b → a = b) {a : α} (ha : a ∈ as) {n : Nat}
    (hfew : as.countP (fun b => decide (key b < key a)) < n) : a ∈ (sortBy cmp as).take n := by
  have hperm := sortBy_perm cmp as
  have hsorted := sortBy_sorted h
  obtain ⟨i,hi,hai⟩ := List.mem_iff_getElem.mp (hperm.symm.subset ha)
  by_cases hin : i < n
  · exact List.mem_iff_getElem.mpr ⟨i,by simp [hin,hi],by simp [hai]⟩
  have hsmaller : ∀ b ∈ (sortBy cmp as).take n, decide (key b < key a) = true := by
    intro b hb
    obtain ⟨j,hj,hbj⟩ := List.mem_iff_getElem.mp hb
    simp only [List.length_take,List.getElem_take] at hj hbj
    have hji : j < i := by omega
    have hle : key b ≤ key a := by
      rw [← hbj,← hai]
      exact List.pairwise_iff_getElem.mp hsorted j i (by omega) hi hji
    have hne : key b ≠ key a := by
      intro heq
      have hba := hkey b (hperm.subset (List.mem_of_mem_take hb)) a ha heq
      rw [← hbj,← hai] at hba
      have hij := (List.getElem_inj (hperm.symm.nodup hn)).mp hba
      omega
    exact decide_eq_true (lt_of_le_of_ne hle hne)
  have hcount : (sortBy cmp as).countP (fun b => decide (key b < key a)) =
      as.countP fun b => decide (key b < key a) := hperm.countP_eq _
  have htake := List.countP_eq_length.mpr hsmaller
  have hsub := (List.take_sublist n (sortBy cmp as)).countP_le (p := fun b => decide (key b < key a))
  rw [htake,List.length_take] at hsub
  omega

end Key

end Sorting

namespace Val

mutual
/-- ToString. -/
def toStr (fmt : Format) : Val → Except Thrown String
  | .undefined => .ok "undefined"
  | .null => .ok "null"
  | .bool b => .ok (if b then "true" else "false")
  | .num n => .ok (fmt.number n)
  | .bigint i => .ok (toString i)
  | .str s => .ok s
  | .bytes bs => .ok (String.intercalate "," (bs.map fun b => toString b.toNat))
  | .date n => .ok (fmt.date n)
  | .arr xs => do .ok (String.intercalate "," (← elementsToStr fmt xs))
  | .obj fs => if JsMap.has fs "toString" then .error noPrimitive else .ok "[object Object]"

/-- The parts `Array.prototype.join` puts commas between: undefined and null are empty. -/
def elementsToStr (fmt : Format) : List Val → Except Thrown (List String)
  | [] => .ok []
  | .undefined :: xs | .null :: xs => do .ok ("" :: (← elementsToStr fmt xs))
  | x :: xs => do
    let s ← toStr fmt x
    .ok (s :: (← elementsToStr fmt xs))
end

/-- `v.toString()`: the method call fails on undefined and null. -/
def callToString (fmt : Format) (v : Val) : Except Thrown String :=
  if v.isNullish then .error (.typeError "Cannot read properties of undefined")
  else v.toStr fmt

/-- ToPrimitive with hint number, where an object becomes a string or throws; a Date its
time value. -/
def toPrimitive (fmt : Format) : Val → Except Thrown Val
  | .date n => .ok (.num n)
  | .bytes bs => do .ok (.str (← toStr fmt (.bytes bs)))
  | .arr xs => do .ok (.str (← toStr fmt (.arr xs)))
  | .obj fs => do .ok (.str (← toStr fmt (.obj fs)))
  | v => .ok v

/-- `v < w`: two strings by their text, anything else by its Number. -/
def lessThan (fmt : Format) (v w : Val) : Except Thrown Bool := do
  match ← v.toPrimitive fmt,← w.toPrimitive fmt with
  | .str s,.str t => .ok (decide (s < t))
  | a,b => .ok ((← a.number).lt (← b.number))

/-- `v - w` on anything but two BigInts. -/
def minus (v w : Val) : Except Thrown Number := do .ok ((← v.toNumber).sub (← w.toNumber))

/-- `v + w`: a string on either side makes it a concatenation. -/
def plus (fmt : Format) (v w : Val) : Except Thrown Val := do
  match ← v.toPrimitive fmt,← w.toPrimitive fmt with
  | .str s,b => do .ok (.str (s ++ (← b.toStr fmt)))
  | a,.str t => do .ok (.str ((← a.toStr fmt) ++ t))
  | a,b => do .ok (.num ((← a.toNumber).add (← b.toNumber)))

end Val

end Js
