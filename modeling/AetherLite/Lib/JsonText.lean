import AetherLite.Lib.JsValue

/-! `TextDecoder.decode` and `JSON.parse` with a reviver. -/
set_option autoImplicit false

namespace Utf8

def replacement : Char := Char.ofNat 0xfffd

/-- A character whose later bytes are awaited: how many, the range of the next one,
and the bits so far. -/
structure Pending where
  needed : Nat
  lower : Nat
  upper : Nat
  bits : Nat

/-- The first byte of a character. -/
def lead (b : Nat) : List Char × Option Pending :=
  if b < 0x80 then ([Char.ofNat b],none)
  else if 0xc2 ≤ b ∧ b ≤ 0xdf then ([],some ⟨1,0x80,0xbf,b-0xc0⟩)
  else if 0xe0 ≤ b ∧ b ≤ 0xef then
    ([],some ⟨2,if b = 0xe0 then 0xa0 else 0x80,if b = 0xed then 0x9f else 0xbf,b-0xe0⟩)
  else if 0xf0 ≤ b ∧ b ≤ 0xf4 then
    ([],some ⟨3,if b = 0xf0 then 0x90 else 0x80,if b = 0xf4 then 0x8f else 0xbf,b-0xf0⟩)
  else ([replacement],none)

/-- A byte that cannot continue the pending character ends it as a replacement
character and is read again as a first byte. -/
def decodeFrom : Option Pending → Bytes → List Char
  | none, [] => []
  | some _, [] => [replacement]
  | none, b :: bs => (lead b.toNat).1 ++ decodeFrom (lead b.toNat).2 bs
  | some p, b :: bs =>
    if p.lower ≤ b.toNat ∧ b.toNat ≤ p.upper then
      let bits := p.bits*64+b.toNat % 64
      if p.needed = 1 then Char.ofNat bits :: decodeFrom none bs
      else decodeFrom (some ⟨p.needed-1,0x80,0xbf,bits⟩) bs
    else replacement :: ((lead b.toNat).1 ++ decodeFrom (lead b.toNat).2 bs)

/-- `new TextDecoder().decode(bytes)`: malformed bytes are replaced, a leading byte
order mark is dropped. -/
def decode (bs : Bytes) : List Char :=
  match bs with
  | 0xef :: 0xbb :: 0xbf :: bs => decodeFrom none bs
  | bs => decodeFrom none bs

end Utf8

namespace JsonText

open Js

def isSpace (c : Char) : Bool := c = ' ' || c = '\t' || c = '\n' || c = '\r'
def skip (cs : List Char) : List Char := cs.dropWhile isSpace

def hex4 (a b c d : Char) : Option Nat := digitsValue 16 [a,b,c,d]

/-- The code unit a one-letter escape names. -/
def escape (c : Char) : Option Nat :=
  match c with
  | '"' => some 34
  | '\\' => some 92
  | '/' => some 47
  | 'b' => some 8
  | 'f' => some 12
  | 'n' => some 10
  | 'r' => some 13
  | 't' => some 9
  | _ => none

/-- The characters of a string after its opening quote, as code points; a `\u`
escape gives the code unit it names. -/
def codeUnits : List Char → Option (List Nat × List Char)
  | '"' :: cs => some ([],cs)
  | '\\' :: 'u' :: a :: b :: c :: d :: cs =>
    (hex4 a b c d).bind fun n => (codeUnits cs).map fun p => (n :: p.1,p.2)
  | '\\' :: c :: cs => (escape c).bind fun n => (codeUnits cs).map fun p => (n :: p.1,p.2)
  | c :: cs =>
    if c.toNat < 32 ∨ c = '\\' then none else (codeUnits cs).map fun p => (c.toNat :: p.1,p.2)
  | [] => none

/-- Surrogate pairs are joined. A lone surrogate, which no `String` holds, is read as
U+FFFD. -/
def joinSurrogates : List Nat → List Char
  | h :: l :: ns =>
    if 0xd800 ≤ h ∧ h < 0xdc00 ∧ 0xdc00 ≤ l ∧ l < 0xe000 then
      Char.ofNat (0x10000+(h-0xd800)*1024+(l-0xdc00)) :: joinSurrogates ns
    else if 0xd800 ≤ h ∧ h < 0xe000 then Utf8.replacement :: joinSurrogates (l :: ns)
    else Char.ofNat h :: joinSurrogates (l :: ns)
  | [n] => if 0xd800 ≤ n ∧ n < 0xe000 then [Utf8.replacement] else [Char.ofNat n]
  | [] => []

def stringBody (cs : List Char) : Option (String × List Char) :=
  (codeUnits cs).map fun p => (String.ofList (joinSurrogates p.1),p.2)

def fraction : List Char → Option (List Char × List Char)
  | '.' :: cs => if (takeDigits cs).1.isEmpty then none else some (takeDigits cs)
  | cs => some ([],cs)

def takeMinus : List Char → Bool × List Char
  | '-' :: cs => (true,cs)
  | cs => (false,cs)

/-- A number: no leading zero, and a digit on each side of the point. -/
def number (cs : List Char) : Option (Val × List Char) :=
  let (negative,cs) := takeMinus cs
  let (intDigits,rest) := takeDigits cs
  if intDigits.isEmpty ∨ (intDigits.head? = some '0' ∧ intDigits.length ≠ 1) then none else do
    let (fracDigits,rest) ← fraction rest
    let (e,rest) ← exponentPart rest
    let q ← decimal intDigits fracDigits e
    some (.num (Number.ofRat (if negative then -q else q)),rest)

def literal (word : List Char) (v : Val) (cs : List Char) : Option (Val × List Char) :=
  if word.isPrefixOf cs then some (v,cs.drop word.length) else none

mutual
/-- A value at the head of the text, and what follows it. -/
def value : Nat → List Char → Option (Val × List Char)
  | 0, _ => none
  | n+1, cs =>
    match skip cs with
    | '"' :: cs => (stringBody cs).map fun p => (.str p.1,p.2)
    | '[' :: cs =>
      match skip cs with
      | ']' :: cs => some (.arr [],cs)
      | cs => (elements n cs).map fun p => (.arr p.1,p.2)
    | '\x7b' :: cs =>
      match skip cs with
      | '\x7d' :: cs => some (.obj [],cs)
      | cs => (members n cs).map fun p =>
          (.obj (p.1.foldl (fun fs e => JsMap.set fs e.1 e.2) []),p.2)
    | 't' :: cs => literal "true".toList (.bool true) ('t' :: cs)
    | 'f' :: cs => literal "false".toList (.bool false) ('f' :: cs)
    | 'n' :: cs => literal "null".toList .null ('n' :: cs)
    | cs => number cs

/-- The elements of an array from a first one on, to the closing bracket. -/
def elements : Nat → List Char → Option (List Val × List Char)
  | 0, _ => none
  | n+1, cs =>
    (value n cs).bind fun p =>
      match skip p.2 with
      | ',' :: cs => (elements n cs).map fun q => (p.1 :: q.1,q.2)
      | ']' :: cs => some ([p.1],cs)
      | _ => none

/-- The members of an object from a first one on, to the closing brace. -/
def members : Nat → List Char → Option (List (String × Val) × List Char)
  | 0, _ => none
  | n+1, cs =>
    match skip cs with
    | '"' :: cs =>
      (stringBody cs).bind fun k =>
        match skip k.2 with
        | ':' :: cs =>
          (value n cs).bind fun p =>
            match skip p.2 with
            | ',' :: cs => (members n cs).map fun q => ((k.1,p.1) :: q.1,q.2)
            | '\x7d' :: cs => some ([(k.1,p.1)],cs)
            | _ => none
        | _ => none
    | _ => none
end

def fuelFor (cs : List Char) : Nat := 2*cs.length+2

/-- `JSON.parse(text)` -/
def parse (cs : List Char) : Except Thrown Val :=
  match value (fuelFor cs) cs with
  | some (v,rest) => if skip rest = [] then .ok v else .error (.syntaxError "JSON.parse")
  | none => .error (.syntaxError "JSON.parse")

mutual
/-- The reviver is called on the parts of a value first, then on the value. -/
def revive (f : Val → Except Thrown Val) : Val → Except Thrown Val
  | .arr xs => do f (.arr (← reviveAll f xs))
  | .obj fs => do f (.obj (← reviveFields f fs))
  | v => f v

def reviveAll (f : Val → Except Thrown Val) : List Val → Except Thrown (List Val)
  | [] => .ok []
  | x :: xs => do
    let y ← revive f x
    .ok (y :: (← reviveAll f xs))

def reviveFields (f : Val → Except Thrown Val) :
    List (String × Val) → Except Thrown (List (String × Val))
  | [] => .ok []
  | (k,v) :: fs => do
    let w ← revive f v
    .ok ((k,w) :: (← reviveFields f fs))
end

/-- `JSON.parse(new TextDecoder().decode(bytes), reviver)` -/
def parseBytes (reviver : Val → Except Thrown Val) (bs : Bytes) : Except Thrown Val := do
  revive reviver (← parse (Utf8.decode bs))


/-! Every reader uses up some of its text, so `parse` never runs out of fuel. -/

/-- What a reader leaves is shorter than `n`. -/
def Leaves {α : Type} (r : Option (α × List Char)) (n : Nat) : Prop :=
  ∀ p, r = some p → p.2.length < n

section Leaves
variable {α β : Type} {r : Option (α × List Char)} {m n : Nat}

theorem leaves_none : Leaves (none : Option (α × List Char)) n := by
  intro p hp
  cases hp

theorem leaves_some {v : α} {rest : List Char} (h : rest.length < n) :
    Leaves (some (v,rest)) n := by
  intro p hp
  cases hp
  exact h

theorem Leaves.mono (h : Leaves r m) (hmn : m ≤ n) : Leaves r n :=
  fun p hp => Nat.lt_of_lt_of_le (h p hp) hmn

theorem Leaves.map {f : α × List Char → β} (h : Leaves r n) :
    Leaves (r.map fun p => (f p,p.2)) n := by
  intro q hq
  obtain ⟨p,hp,rfl⟩ := Option.map_eq_some_iff.mp hq
  exact h p hp

theorem Leaves.bind {k : α × List Char → Option (β × List Char)} (h : Leaves r n)
    (hk : ∀ p, Leaves (k p) p.2.length) : Leaves (r.bind k) n := by
  intro q hq
  obtain ⟨p,hp,hkq⟩ := Option.bind_eq_some_iff.mp hq
  exact Nat.lt_trans (hk p q hkq) (h p hp)

end Leaves

theorem skip_length (cs : List Char) : (skip cs).length ≤ cs.length :=
  (List.dropWhile_suffix isSpace).length_le

theorem skip_cons_length {cs rest : List Char} {c : Char} (h : skip cs = c :: rest) :
    rest.length < cs.length := by
  have hs := skip_length cs
  rw [h,List.length_cons] at hs
  omega

theorem leaves_codeUnits (cs : List Char) : Leaves (codeUnits cs) cs.length := by
  fun_induction codeUnits cs with
  | case1 cs => exact leaves_some (by simp)
  | case2 a b c d cs ih =>
    intro q hq
    obtain ⟨n,-,hn⟩ := Option.bind_eq_some_iff.mp hq
    have hl := ih.map q hn
    simp only [List.length_cons]
    omega
  | case3 c cs hne ih =>
    intro q hq
    obtain ⟨n,-,hn⟩ := Option.bind_eq_some_iff.mp hq
    have hl := ih.map q hn
    simp only [List.length_cons]
    omega
  | case4 => exact leaves_none
  | case5 c cs h1 h2 h3 h4 ih => exact ih.map.mono (by simp)
  | case6 => exact leaves_none

theorem leaves_stringBody (cs : List Char) : Leaves (stringBody cs) cs.length :=
  (leaves_codeUnits cs).map

theorem takeDigits_length (cs : List Char) :
    (takeDigits cs).1.length+(takeDigits cs).2.length = cs.length := by
  rw [takeDigits,List.span_eq_takeWhile_dropWhile,← List.length_append,
    List.takeWhile_append_dropWhile]

theorem takeSign_length (cs : List Char) : (takeSign cs).2.length ≤ cs.length := by
  unfold takeSign
  split <;> simp

theorem takeMinus_length (cs : List Char) : (takeMinus cs).2.length ≤ cs.length := by
  unfold takeMinus
  split <;> simp

theorem leaves_fraction (cs : List Char) : Leaves (fraction cs) (cs.length+1) := by
  unfold fraction
  split
  · next cs =>
    have hl := takeDigits_length cs
    split
    · exact leaves_none
    · intro p hp
      cases hp
      simp only [List.length_cons]
      omega
  · exact leaves_some (Nat.lt_succ_self _)

theorem leaves_exponentPart (cs : List Char) : Leaves (exponentPart cs) (cs.length+1) := by
  cases cs with
  | nil => exact leaves_some (Nat.lt_succ_self _)
  | cons c cs =>
    have hs := takeSign_length cs
    have hd := takeDigits_length (takeSign cs).2
    simp only [exponentPart]
    split
    · split
      · exact leaves_none
      · intro q hq
        obtain ⟨n,-,rfl⟩ := Option.map_eq_some_iff.mp hq
        simp only [List.length_cons]
        omega
    · exact leaves_some (Nat.lt_succ_self _)

theorem leaves_number (cs : List Char) : Leaves (number cs) cs.length := by
  have hm := takeMinus_length cs
  have hd := takeDigits_length (takeMinus cs).2
  simp only [number]
  split
  · exact leaves_none
  · next hne =>
    have hpos : 0 < (takeDigits (takeMinus cs).2).1.length := by
      rw [List.length_pos_iff]
      intro hnil
      simp [hnil] at hne
    intro q hq
    obtain ⟨f,hf,hq⟩ := Option.bind_eq_some_iff.mp hq
    obtain ⟨e,he,hq⟩ := Option.bind_eq_some_iff.mp hq
    obtain ⟨x,-,hq⟩ := Option.bind_eq_some_iff.mp hq
    have hfl := leaves_fraction _ f hf
    have hel := leaves_exponentPart _ e he
    cases hq
    dsimp only
    omega

theorem leaves_literal {word cs : List Char} {v : Val} (hw : word ≠ []) :
    Leaves (literal word v cs) cs.length := by
  unfold literal
  split
  · next hp =>
    have hle := (List.isPrefixOf_iff_prefix.mp hp).length_le
    have hpos := List.length_pos_iff.mpr hw
    exact leaves_some (by rw [List.length_drop]; omega)
  · exact leaves_none

theorem leaves_readers (n : Nat) :
    (∀ cs, Leaves (value n cs) cs.length) ∧ (∀ cs, Leaves (elements n cs) cs.length) ∧
      (∀ cs, Leaves (members n cs) cs.length) := by
  induction n with
  | zero => exact ⟨fun _ => leaves_none,fun _ => leaves_none,fun _ => leaves_none⟩
  | succ n ih =>
    obtain ⟨ihv,ihe,ihm⟩ := ih
    refine ⟨fun cs => ?_,fun cs => ?_,fun cs => ?_⟩
    · have hs := skip_length cs
      simp only [value]
      split
      · next rest heq => exact (leaves_stringBody rest).map.mono (skip_cons_length heq).le
      · next rest heq =>
        have hr := skip_cons_length heq
        split
        · next heq' => exact leaves_some ((skip_cons_length heq').trans hr)
        · exact (ihe _).map.mono ((skip_length rest).trans hr.le)
      · next rest heq =>
        have hr := skip_cons_length heq
        split
        · next heq' => exact leaves_some ((skip_cons_length heq').trans hr)
        · exact (ihm _).map.mono ((skip_length rest).trans hr.le)
      · next heq => exact (leaves_literal (by decide)).mono (heq ▸ hs)
      · next heq => exact (leaves_literal (by decide)).mono (heq ▸ hs)
      · next heq => exact (leaves_literal (by decide)).mono (heq ▸ hs)
      · exact (leaves_number _).mono hs
    · simp only [elements]
      refine (ihv cs).bind fun p => ?_
      split
      · next heq => exact (ihe _).map.mono (skip_cons_length heq).le
      · next heq => exact leaves_some (skip_cons_length heq)
      · exact leaves_none
    · simp only [members]
      split
      · next rest heq =>
        refine ((leaves_stringBody rest).bind fun k => ?_).mono (skip_cons_length heq).le
        split
        · next rest' heq' =>
          refine ((ihv rest').bind fun p => ?_).mono (skip_cons_length heq').le
          split
          · next heq'' => exact (ihm _).map.mono (skip_cons_length heq'').le
          · next heq'' => exact leaves_some (skip_cons_length heq'')
          · exact leaves_none
        · exact leaves_none
      · exact leaves_none

/-- Two units of fuel a character are enough: more changes nothing. -/
theorem readers_fuel (n : Nat) :
    (∀ cs, 2*cs.length+1 ≤ n → value (n+1) cs = value n cs) ∧
    (∀ cs, 2*cs.length+2 ≤ n → elements (n+1) cs = elements n cs) ∧
    (∀ cs, 2*cs.length+2 ≤ n → members (n+1) cs = members n cs) := by
  induction n with
  | zero => exact ⟨fun _ h => by omega,fun _ h => by omega,fun _ h => by omega⟩
  | succ n ih =>
    obtain ⟨ihv,ihe,ihm⟩ := ih
    refine ⟨fun cs h => ?_,fun cs h => ?_,fun cs h => ?_⟩
    · have hs := skip_length cs
      rw [value,value]
      split
      · rfl
      · next rest heq =>
        have hr := skip_cons_length heq
        have hs' := skip_length rest
        split
        · rfl
        · rw [ihe _ (by omega)]
      · next rest heq =>
        have hr := skip_cons_length heq
        have hs' := skip_length rest
        split
        · rfl
        · rw [ihm _ (by omega)]
      all_goals rfl
    · rw [elements,elements,ihv cs (by omega)]
      refine Option.bind_congr fun p hp => ?_
      have hl := (leaves_readers n).1 cs p hp
      split
      · next heq =>
        have hr := skip_cons_length heq
        rw [ihe _ (by omega)]
      · rfl
      · rfl
    · rw [members,members]
      split
      · next rest heq =>
        have hr := skip_cons_length heq
        refine Option.bind_congr fun k hk => ?_
        have hkl := leaves_stringBody rest k hk
        split
        · next rest' heq' =>
          have hr' := skip_cons_length heq'
          rw [ihv rest' (by omega)]
          refine Option.bind_congr fun p hp => ?_
          have hl := (leaves_readers n).1 rest' p hp
          split
          · next heq'' =>
            have hr'' := skip_cons_length heq''
            rw [ihm _ (by omega)]
          · rfl
          · rfl
        · rfl
      · rfl

theorem value_fuel {n : Nat} {cs : List Char} (h : fuelFor cs ≤ n) :
    value n cs = value (fuelFor cs) cs := by
  induction n, h using Nat.le_induction with
  | base => rfl
  | succ n hn ih =>
    rw [(readers_fuel n).1 cs (by unfold fuelFor at hn; omega),ih]

/-- A zero byte begins no JSON text: it is no white space. -/
theorem parseBytes_zero (reviver : Val → Except Thrown Val) (rest : Bytes) :
    ∃ e, parseBytes reviver (0 :: rest) = .error e := by
  have hdecode : Utf8.decode (0 :: rest) = Char.ofNat 0 :: Utf8.decodeFrom none rest := rfl
  have hvalue : ∀ n cs, value n (Char.ofNat 0 :: cs) = none := by
    intro n cs
    cases n with
    | zero => rfl
    | succ n => rfl
  simp [parseBytes,hdecode,parse,hvalue,bind,Except.bind]

end JsonText
