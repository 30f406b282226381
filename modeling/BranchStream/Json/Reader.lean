import BranchStream.Json.Value

namespace BranchStream.Json

inductive Token where
  | leftBrace
  | rightBrace
  | leftBracket
  | rightBracket
  | colon
  | comma
  | text (s : String)
  | plain (j : Json)

def natOfDigits (ds : List Char) : Nat := ds.foldl (fun n c ↦ 10 * n + (c.toNat - '0'.toNat)) 0

def digits? (cs : List Char) : Option (List Char × List Char) :=
  let ds := cs.takeWhile Char.isDigit
  if ds.isEmpty then none else some (ds, cs.dropWhile Char.isDigit)

def exponent? : List Char → Option Int
  | [] => some 0
  | c :: cs =>
    if c = 'e' ∨ c = 'E' then
      let (negative, cs) :=
        match cs with
        | '-' :: rest => (true, rest)
        | '+' :: rest => (false, rest)
        | _ => (false, cs)
      match digits? cs with
      | some (ds, []) => some (if negative then -natOfDigits ds else natOfDigits ds)
      | _ => none
    else none

/-- A number without point and exponent is an integer if it fits in 64 bits; a negative zero does
not. -/
def wholeNumber (negative : Bool) (n : Nat) : Json :=
  if negative then if n = 0 ∨ 0x8000000000000000 < n then .decimal ⟨true, n, 0⟩ else .integer (-n)
  else if n < 0x10000000000000000 then .integer n else .decimal ⟨false, n, 0⟩

def number? (cs : List Char) : Option Json := do
  let (negative, cs) :=
    match cs with
    | '-' :: rest => (true, rest)
    | _ => (false, cs)
  let (whole, rest) ← digits? cs
  if whole.head? = some '0' ∧ 1 < whole.length then none
  else
    match rest with
    | [] => some (wholeNumber negative (natOfDigits whole))
    | '.' :: rest =>
      let (fraction, rest) ← digits? rest
      let e ← exponent? rest
      some (.decimal ⟨negative, natOfDigits (whole ++ fraction), e - fraction.length⟩)
    | rest => return .decimal ⟨negative, natOfDigits whole, ← exponent? rest⟩

def plain? : List Char → Option Json
  | ['n', 'u', 'l', 'l'] => some .null
  | ['t', 'r', 'u', 'e'] => some (.bool true)
  | ['f', 'a', 'l', 's', 'e'] => some (.bool false)
  | cs => number? cs

def hexDigit? (c : Char) : Option Nat :=
  if c.isDigit then some (c.toNat - '0'.toNat)
  else if 'a' ≤ c ∧ c ≤ 'f' then some (c.toNat - 'a'.toNat + 10)
  else if 'A' ≤ c ∧ c ≤ 'F' then some (c.toNat - 'A'.toNat + 10)
  else none

def codeUnit? (a b c d : Char) : Option Nat := do
  return (((← hexDigit? a) * 16 + (← hexDigit? b)) * 16 + (← hexDigit? c)) * 16 + (← hexDigit? d)

def escaped? : Char → Option Nat
  | '"' => some '"'.toNat
  | '\\' => some '\\'.toNat
  | '/' => some '/'.toNat
  | 'b' => some 8
  | 'f' => some 12
  | 'n' => some 10
  | 'r' => some 13
  | 't' => some 9
  | _ => none

def withUnit (unit : Nat) (text : Option (List Nat × List Char)) : Option (List Nat × List Char) :=
  text.map fun (units, rest) ↦ (unit :: units, rest)

def textUnits : List Char → Option (List Nat × List Char)
  | [] => none
  | '"' :: rest => some ([], rest)
  | '\\' :: 'u' :: a :: b :: c :: d :: rest =>
    (codeUnit? a b c d).bind fun unit ↦ withUnit unit (textUnits rest)
  | '\\' :: c :: rest => (escaped? c).bind fun unit ↦ withUnit unit (textUnits rest)
  | c :: rest => if c.toNat < 32 then none else withUnit c.toNat (textUnits rest)

/-- Joins the two halves of a surrogate pair; a half on its own stands for nothing. -/
def joinUnits : List Nat → Option (List Char)
  | [] => some []
  | u :: rest =>
    if 0xD800 ≤ u ∧ u < 0xDC00 then
      match rest with
      | v :: rest =>
        if 0xDC00 ≤ v ∧ v < 0xE000 then
          (joinUnits rest).map (.ofNat (0x10000 + (u - 0xD800) * 0x400 + (v - 0xDC00)) :: ·)
        else none
      | [] => none
    else if 0xDC00 ≤ u ∧ u < 0xE000 then none
    else (joinUnits rest).map (.ofNat u :: ·)

theorem exists_of_withUnit {unit : Nat} {text : Option (List Nat × List Char)} {units : List Nat}
    {rest : List Char} (h : withUnit unit text = some (units, rest)) :
    ∃ units', text = some (units', rest) := by
  simp only [withUnit, Option.map_eq_some_iff, Prod.exists, Prod.mk.injEq] at h
  obtain ⟨units', _, h, _, rfl⟩ := h
  exact ⟨units', h⟩

theorem length_textUnits {cs : List Char} {units : List Nat} {rest : List Char}
    (h : textUnits cs = some (units, rest)) : rest.length < cs.length := by
  fun_induction textUnits cs generalizing units with
  | case1 => simp at h
  | case2 => simp_all
  | case3 a b c d rest' ih =>
    obtain ⟨_, _, h⟩ := Option.bind_eq_some_iff.1 h
    obtain ⟨_, h⟩ := exists_of_withUnit h
    have := ih h
    simp only [List.length_cons]
    omega
  | case4 c rest' _ ih =>
    obtain ⟨_, _, h⟩ := Option.bind_eq_some_iff.1 h
    obtain ⟨_, h⟩ := exists_of_withUnit h
    have := ih h
    simp only [List.length_cons]
    omega
  | case5 => simp at h
  | case6 c rest' _ _ _ _ ih =>
    obtain ⟨_, h⟩ := exists_of_withUnit h
    have := ih h
    simp only [List.length_cons]
    omega

def isBlank (c : Char) : Bool := c = ' ' || c = '\t' || c = '\n' || c = '\r'

def isPlain (c : Char) : Bool := c.isAlphanum || c = '-' || c = '+' || c = '.'

def punctuation? : Char → Option Token
  | '{' => some .leftBrace
  | '\x7d' => some .rightBrace
  | '[' => some .leftBracket
  | ']' => some .rightBracket
  | ':' => some .colon
  | ',' => some .comma
  | _ => none

def tokens? : List Char → Option (List Token)
  | [] => some []
  | c :: cs =>
    if isBlank c then tokens? cs
    else if c = '"' then
      match h : textUnits cs with
      | some (units, rest) => do
        have := length_textUnits h
        let text ← joinUnits units
        return .text (.ofList text) :: (← tokens? rest)
      | none => none
    else if isPlain c then do
      have : (cs.dropWhile isPlain).length ≤ cs.length := (List.dropWhile_sublist isPlain).length_le
      let j ← plain? (c :: cs.takeWhile isPlain)
      return .plain j :: (← tokens? (cs.dropWhile isPlain))
    else do
      let t ← punctuation? c
      return t :: (← tokens? cs)
termination_by cs => cs.length

/-- An array or an object whose end has not been read, with what it holds so far, last first. -/
inductive Pending where
  | items (done : List Json)
  | fields (done : List (String × Json)) (key : String)

mutual

def readValue (pending : List Pending) : List Token → Option Json
  | .plain j :: ts => readAfter j pending ts
  | .text s :: ts => readAfter (.string s) pending ts
  | .leftBracket :: .rightBracket :: ts => readAfter (.array []) pending ts
  | .leftBracket :: ts => readValue (.items [] :: pending) ts
  | .leftBrace :: .rightBrace :: ts => readAfter (.object []) pending ts
  | .leftBrace :: .text key :: .colon :: ts => readValue (.fields [] key :: pending) ts
  | _ => none

def readAfter (j : Json) : List Pending → List Token → Option Json
  | [], [] => some j
  | .items done :: pending, .comma :: ts => readValue (.items (j :: done) :: pending) ts
  | .items done :: pending, .rightBracket :: ts =>
    readAfter (.array (j :: done).reverse) pending ts
  | .fields done key :: pending, .comma :: .text next :: .colon :: ts =>
    readValue (.fields ((key, j) :: done) next :: pending) ts
  | .fields done key :: pending, .rightBrace :: ts =>
    readAfter (.object ((key, j) :: done).reverse) pending ts
  | _, _ => none

end

def read? (text : String) : Option Json := do readValue [] (← tokens? text.toList)

end BranchStream.Json
