import Mathlib.Data.List.Basic

/-! Text that is split where a separator stands twice, as `split` does it: from the left, and
no separator is used for two splits. -/
set_option autoImplicit false

namespace SplitDouble

variable {α : Type*} {x : α}

/-- Pieces that are not empty, each free of the separator -/
def Plain (x : α) (pieces : List (List α)) : Prop := ∀ piece ∈ pieces, piece ≠ [] ∧ x ∉ piece

theorem intercalate_ne_nil {pieces : List (List α)} (h : Plain x pieces) (hne : pieces ≠ []) :
    [x].intercalate pieces ≠ [] := by
  cases pieces with
  | nil => exact absurd rfl hne
  | cons piece pieces =>
    obtain ⟨hpiece,-⟩ := h piece List.mem_cons_self
    cases pieces with
    | nil => simpa using hpiece
    | cons next pieces => simp [List.intercalate_cons_cons]

theorem mem_intercalate {pieces : List (List α)} {c : α} (hc : c ∈ [x].intercalate pieces) :
    c = x ∨ ∃ piece ∈ pieces, c ∈ piece := by
  induction pieces with
  | nil => cases hc
  | cons piece pieces ih =>
    cases pieces with
    | nil => exact .inr ⟨piece,List.mem_cons_self,by simpa using hc⟩
    | cons next pieces =>
      rw [List.intercalate_cons_cons] at hc
      simp only [List.mem_append,List.mem_singleton] at hc
      obtain (hc | hc) | hc := hc
      · exact .inr ⟨piece,List.mem_cons_self,hc⟩
      · exact .inl hc
      · obtain hc | ⟨q,hq,hc⟩ := ih hc
        · exact .inl hc
        · exact .inr ⟨q,List.mem_cons_of_mem piece hq,hc⟩

theorem map_intercalate {β : Type*} (f : α → β) (pieces : List (List α)) :
    ([x].intercalate pieces).map f = [f x].intercalate (pieces.map (List.map f)) := by
  induction pieces with
  | nil => rfl
  | cons piece pieces ih =>
    cases pieces with
    | nil => simp
    | cons next pieces => simpa [List.intercalate_cons_cons] using ih

section
variable [DecidableEq α] {cs : List α}

def splitDouble (x : α) : List α → List (List α)
  | [] => [[]]
  | [c] => [[c]]
  | c :: d :: cs =>
    if c = x ∧ d = x then [] :: splitDouble x cs
    else (splitDouble x (d :: cs)).modifyHead (c :: ·)

@[simp] theorem splitDouble_nil : splitDouble x [] = [[]] := rfl

@[simp] theorem splitDouble_double : splitDouble x (x :: x :: cs) = [] :: splitDouble x cs := by
  simp [splitDouble]

theorem splitDouble_cons {c : α} (h : c = x → ∀ d, cs.head? = some d → d ≠ x) :
    splitDouble x (c :: cs) = (splitDouble x cs).modifyHead (c :: ·) := by
  cases cs with
  | nil => rfl
  | cons d cs =>
    have hnot : ¬(c = x ∧ d = x) := fun ⟨hc,hd⟩ => h hc d rfl hd
    rw [splitDouble,if_neg hnot]

/-- What is free of the separator is let by. -/
theorem splitDouble_free {piece : List α} (h : x ∉ piece) :
    splitDouble x (piece ++ cs) = (splitDouble x cs).modifyHead (piece ++ ·) := by
  induction piece with
  | nil =>
    cases hs : splitDouble x cs with
    | nil => simp [hs]
    | cons first others => simp [hs]
  | cons c piece ih =>
    have hc : c ≠ x := fun hc => h (hc ▸ List.mem_cons_self)
    rw [List.cons_append,splitDouble_cons fun hx => absurd hx hc,
      ih fun hx => h (List.mem_cons_of_mem c hx)]
    rw [List.modifyHead_modifyHead]
    rfl

/-- Single separators between pieces are let by. -/
theorem splitDouble_joined {pieces : List (List α)} (h : Plain x pieces) :
    splitDouble x ([x].intercalate pieces ++ cs) =
      (splitDouble x cs).modifyHead ([x].intercalate pieces ++ ·) := by
  induction pieces with
  | nil => exact splitDouble_free List.not_mem_nil
  | cons piece pieces ih =>
    have hpieces : Plain x pieces := fun q hq => h q (List.mem_cons_of_mem piece hq)
    cases pieces with
    | nil => simpa using splitDouble_free (h piece List.mem_cons_self).2
    | cons next pieces =>
      obtain ⟨hne,hfree⟩ := h next (by simp)
      have hhead : ([x].intercalate (next :: pieces) ++ cs).head? = next.head? := by
        cases next with
        | nil => exact absurd rfl hne
        | cons d next => cases pieces <;> simp [List.intercalate_cons_cons]
      rw [List.intercalate_cons_cons,List.append_assoc,List.append_assoc,
        splitDouble_free (h piece List.mem_cons_self).2,List.singleton_append,
        splitDouble_cons fun _ d hd hx => hfree (by
          rw [hhead] at hd
          exact hx ▸ List.mem_of_head? hd),
        ih hpieces]
      simp only [List.modifyHead_modifyHead]
      congr 1
      funext t
      simp

theorem splitDouble_intercalate {pieces : List (List α)} (h : Plain x pieces) :
    splitDouble x ([x].intercalate pieces) = [[x].intercalate pieces] := by
  have hjoined : splitDouble x ([x].intercalate pieces ++ []) = _ := splitDouble_joined h
  simpa using hjoined

theorem splitDouble_between {before after : List (List α)} (hb : Plain x before)
    (ha : Plain x after) :
    splitDouble x ([x].intercalate before ++ x :: x :: [x].intercalate after) =
      [[x].intercalate before,[x].intercalate after] := by
  rw [splitDouble_joined hb,splitDouble_double,splitDouble_intercalate ha]
  simp

end

end SplitDouble
