import Tricode.Json

/-!
# Writing JSON

Two layouts of the same text: `Json.render` without any blanks, and `Json.pretty` with one item
or member per line, indented by two blanks a level. In strings only quotes, backslashes and
control characters are escaped.
-/

namespace Tricode

namespace Json

/-! ## Strings and numerals -/

/-- The hexadecimal digit of a number below 16. -/
def hexDigitChar (n : Nat) : Char :=
  if n < 10 then Char.ofNat ('0'.toNat + n) else Char.ofNat ('a'.toNat + (n - 10))

/-- A character inside a string. -/
def escape (c : Char) : List Char :=
  if c = '"' then ['\\', '"']
  else if c = '\\' then ['\\', '\\']
  else if c = '\x08' then ['\\', 'b']
  else if c = '\x0c' then ['\\', 'f']
  else if c = '\n' then ['\\', 'n']
  else if c = '\r' then ['\\', 'r']
  else if c = '\t' then ['\\', 't']
  else if c < ' ' then
    ['\\', 'u', '0', '0', hexDigitChar (c.toNat / 16), hexDigitChar (c.toNat % 16)]
  else [c]

/-- A string between quotes. -/
def quote (s : String) : List Char := '"' :: s.toList.flatMap escape ++ ['"']

/-- A string without content, spelled as the shortest one there is. -/
def unpairedText : List Char := "\"\\ud800\"".toList

/-- The name of a member. -/
def nameText : Option String → List Char
  | some s => quote s
  | none => unpairedText

/-- An integer in decimal digits. -/
def intText (n : Int) : List Char :=
  if n < 0 then '-' :: Nat.toDigits 10 n.natAbs else Nat.toDigits 10 n.natAbs

/-! ## Without blanks -/

mutual

/-- The characters of a value. -/
def chars : Json → List Char
  | null => "null".toList
  | bool b => if b then "true".toList else "false".toList
  | int n => intText n
  | real text => text.toList
  | str s => quote s
  | unpaired => unpairedText
  | arr [] => "[]".toList
  | arr (j :: js) => '[' :: j.chars ++ itemsChars js
  | obj [] => "\x7b\x7d".toList
  | obj ((name, j) :: ms) => '\x7b' :: nameText name ++ ':' :: j.chars ++ membersChars ms

/-- The items after the first one, and the closing bracket. -/
def itemsChars : List Json → List Char
  | [] => [']']
  | j :: js => ',' :: j.chars ++ itemsChars js

/-- The members after the first one, and the closing brace. -/
def membersChars : List (Option String × Json) → List Char
  | [] => ['\x7d']
  | (name, j) :: ms => ',' :: nameText name ++ ':' :: j.chars ++ membersChars ms

end

/-- The text of a value without blanks. -/
def render (j : Json) : String := String.ofList j.chars

/-! ## With one item or member per line -/

/-- A new line at a level of indentation. -/
def newLine (level : Nat) : List Char := '\n' :: List.replicate (2 * level) ' '

mutual

/-- The characters of a value that stands at a level of indentation. -/
def prettyChars (level : Nat) : Json → List Char
  | null => "null".toList
  | bool b => if b then "true".toList else "false".toList
  | int n => intText n
  | real text => text.toList
  | str s => quote s
  | unpaired => unpairedText
  | arr [] => "[]".toList
  | arr (j :: js) =>
    '[' :: newLine (level + 1) ++ j.prettyChars (level + 1) ++ prettyItems level js
  | obj [] => "\x7b\x7d".toList
  | obj ((name, j) :: ms) =>
    '\x7b' :: newLine (level + 1) ++ nameText name ++ ": ".toList ++
      j.prettyChars (level + 1) ++ prettyMembers level ms

/-- The items after the first one, and the closing bracket on a line of its own. -/
def prettyItems (level : Nat) : List Json → List Char
  | [] => newLine level ++ [']']
  | j :: js => ',' :: newLine (level + 1) ++ j.prettyChars (level + 1) ++ prettyItems level js

/-- The members after the first one, and the closing brace on a line of its own. -/
def prettyMembers (level : Nat) : List (Option String × Json) → List Char
  | [] => newLine level ++ ['\x7d']
  | (name, j) :: ms =>
    ',' :: newLine (level + 1) ++ nameText name ++ ": ".toList ++ j.prettyChars (level + 1) ++
      prettyMembers level ms

end

/-- The text of a value with one item or member per line. -/
def pretty (j : Json) : String := String.ofList (j.prettyChars 0)

end Json

end Tricode
