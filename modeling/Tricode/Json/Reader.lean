import Tricode.Json

/-!
# Reading JSON

A strict reader: no comments, no trailing commas, no blanks other than the four of the format, no
control characters in strings. It does not limit how deep values nest; whoever takes a value
apart does that.

Every step takes the text that is left and gives what it read together with what is left then.
Values nest, so the steps for values count down a bound on the number of steps; twice the length
of the text is always enough, because at most every second step reads no character.
-/

namespace Tricode

namespace Json

/-- One of the four characters that may stand between the parts of a value. -/
def isBlank (c : Char) : Bool := c == ' ' || c == '\n' || c == '\t' || c == '\r'

/-- What is left after any blanks. -/
def skipBlanks (cs : List Char) : List Char := cs.dropWhile isBlank

/-- What is left after a given word. -/
def skipWord : List Char → List Char → Option (List Char)
  | [], cs => some cs
  | w :: word, c :: cs => if w = c then skipWord word cs else none
  | _ :: _, [] => none

/-! ## Strings -/

/-- A part of a string as it is spelled. -/
inductive Piece where
  | char (c : Char)
  /-- A sixteen-bit unit, spelled by its number. -/
  | unit (n : Nat)

/-- The number of a hexadecimal digit. -/
def hexDigit? (c : Char) : Option Nat :=
  if '0' ≤ c ∧ c ≤ '9' then some (c.toNat - '0'.toNat)
  else if 'a' ≤ c ∧ c ≤ 'f' then some (c.toNat - 'a'.toNat + 10)
  else if 'A' ≤ c ∧ c ≤ 'F' then some (c.toNat - 'A'.toNat + 10)
  else none

/-- The number of four hexadecimal digits. -/
def hexUnit? (a b c d : Char) : Option Nat := do
  let a ← hexDigit? a
  let b ← hexDigit? b
  let c ← hexDigit? c
  let d ← hexDigit? d
  pure (((a * 16 + b) * 16 + c) * 16 + d)

/-- What a backslash before a single character stands for. -/
def escaped? (c : Char) : Option Char :=
  if c = '"' || c = '\\' || c = '/' then some c
  else if c = 'b' then some '\x08'
  else if c = 'f' then some '\x0c'
  else if c = 'n' then some '\n'
  else if c = 'r' then some '\r'
  else if c = 't' then some '\t'
  else none

/-- The pieces of a string up to its closing quote. -/
def pieces : List Char → Option (List Piece × List Char)
  | [] => none
  | c :: cs =>
    if c = '"' then some ([], cs)
    else if c = '\\' then
      match cs with
      | 'u' :: h₁ :: h₂ :: h₃ :: h₄ :: cs => do
        let n ← hexUnit? h₁ h₂ h₃ h₄
        let (ps, rest) ← pieces cs
        pure (.unit n :: ps, rest)
      | e :: cs => do
        let c ← escaped? e
        let (ps, rest) ← pieces cs
        pure (.char c :: ps, rest)
      | [] => none
    else if c < ' ' then none
    else do
      let (ps, rest) ← pieces cs
      pure (.char c :: ps, rest)

/-- The first unit of a pair. -/
def isLeading (n : Nat) : Bool := 0xd800 ≤ n && n < 0xdc00

/-- The second unit of a pair. -/
def isTrailing (n : Nat) : Bool := 0xdc00 ≤ n && n < 0xe000

/-- The content of a string: units pair up to characters, and one without its partner leaves the
string without content. -/
def content : List Piece → Option (List Char)
  | [] => some []
  | .char c :: ps => (content ps).map (c :: ·)
  | .unit n :: ps =>
    if isLeading n then
      match ps with
      | .unit m :: ps =>
        if isTrailing m then
          (content ps).map (Char.ofNat (0x10000 + (n - 0xd800) * 0x400 + (m - 0xdc00)) :: ·)
        else none
      | _ => none
    else if isTrailing n then none
    else (content ps).map (Char.ofNat n :: ·)

/-- A string after its opening quote. -/
def string (cs : List Char) : Option (Option String × List Char) := do
  let (ps, rest) ← pieces cs
  pure ((content ps).map String.ofList, rest)

/-- A string as a value, with content or without. -/
def ofString : Option String → Json
  | some s => str s
  | none => unpaired

/-! ## Numerals -/

/-- The digits at the front. -/
def digits (cs : List Char) : List Char × List Char :=
  (cs.takeWhile Char.isDigit, cs.dropWhile Char.isDigit)

/-- Digits that may stand before a fraction: at least one, and zero only alone. -/
def isWhole (ds : List Char) : Bool := ds == ['0'] || (!ds.isEmpty && ds.head? != some '0')

/-- A fraction, if one follows: a point and at least one digit. -/
def fraction (cs : List Char) : Option (List Char × List Char) :=
  match cs with
  | '.' :: cs =>
    let (ds, rest) := digits cs
    if ds.isEmpty then none else some ('.' :: ds, rest)
  | _ => some ([], cs)

/-- An exponent, if one follows: its mark, maybe a sign, and at least one digit. -/
def exponent (cs : List Char) : Option (List Char × List Char) :=
  match cs with
  | c :: cs' =>
    if c = 'e' || c = 'E' then
      let (sign, cs'') := match cs' with
        | s :: cs'' => if s = '+' || s = '-' then ([s], cs'') else ([], cs')
        | [] => ([], cs')
      let (ds, rest) := digits cs''
      if ds.isEmpty then none else some (c :: sign ++ ds, rest)
    else some ([], cs)
  | [] => some ([], cs)

/-- The numeral with the given parts. -/
def numeral (negative : Bool) (whole fraction exponent : List Char) : Json :=
  let n := Nat.ofDigitChars 10 whole 0
  if fraction.isEmpty && exponent.isEmpty && !(negative && n == 0) then
    int (if negative then -n else n)
  else real (String.ofList ((if negative then ['-'] else []) ++ whole ++ fraction ++ exponent))

/-- A numeral, from its sign to its exponent. -/
def number (cs : List Char) : Option (Json × List Char) := do
  let (negative, cs) := match cs with
    | '-' :: cs => (true, cs)
    | _ => (false, cs)
  let (whole, cs) := digits cs
  if isWhole whole then do
    let (fraction, cs) ← fraction cs
    let (exponent, cs) ← exponent cs
    pure (numeral negative whole fraction exponent, cs)
  else none

/-! ## Values -/

mutual

/-- One value, with any blanks before it. -/
def value : Nat → List Char → Option (Json × List Char)
  | 0, _ => none
  | bound + 1, cs =>
    match skipBlanks cs with
    | [] => none
    | c :: cs =>
      if c = '"' then (string cs).map fun (s, rest) ↦ (ofString s, rest)
      else if c = '[' then
        match skipBlanks cs with
        | ']' :: rest => some (arr [], rest)
        | cs => (items bound cs).map fun (js, rest) ↦ (arr js, rest)
      else if c = '\x7b' then
        match skipBlanks cs with
        | '\x7d' :: rest => some (obj [], rest)
        | cs => (members bound cs).map fun (ms, rest) ↦ (obj ms, rest)
      else if c = 't' then (skipWord ['r', 'u', 'e'] cs).map (bool true, ·)
      else if c = 'f' then (skipWord ['a', 'l', 's', 'e'] cs).map (bool false, ·)
      else if c = 'n' then (skipWord ['u', 'l', 'l'] cs).map (null, ·)
      else number (c :: cs)

/-- The items of an array that is not empty, up to its closing bracket. -/
def items : Nat → List Char → Option (List Json × List Char)
  | 0, _ => none
  | bound + 1, cs => do
    let (j, cs) ← value bound cs
    match skipBlanks cs with
    | ',' :: cs => (items bound cs).map fun (js, rest) ↦ (j :: js, rest)
    | ']' :: rest => some ([j], rest)
    | _ => none

/-- The members of an object that is not empty, up to its closing brace. -/
def members : Nat → List Char → Option (List (Option String × Json) × List Char)
  | 0, _ => none
  | bound + 1, cs =>
    match skipBlanks cs with
    | '"' :: cs => do
      let (name, cs) ← string cs
      match skipBlanks cs with
      | ':' :: cs =>
        let (j, cs) ← value bound cs
        match skipBlanks cs with
        | ',' :: cs => (members bound cs).map fun (ms, rest) ↦ ((name, j) :: ms, rest)
        | '\x7d' :: rest => some ([(name, j)], rest)
        | _ => none
      | _ => none
    | _ => none

end

/-- The value a text spells, if it spells exactly one. -/
def read (text : String) : Option Json := do
  let cs := text.toList
  let (j, rest) ← value (2 * cs.length + 1) cs
  if (skipBlanks rest).isEmpty then some j else none

end Json

end Tricode
