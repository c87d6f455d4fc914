/-!
# JSON values

Class trees are handed over as JSON, and reports are written as JSON. A value keeps what a reader
of trees has to know about its text: the order and the repetitions of the members of an object,
and whether a numeral was written as an integer.

A string may spell half of a surrogate pair. Such a string is well formed but has no content, so
it is a value of its own, `Json.unpaired`, and a member name of this kind is absent. Both are
harmless where nobody looks at them.
-/

namespace Tricode

/-- A value as its text spells it. -/
inductive Json where
  | null
  | bool (b : Bool)
  /-- A numeral without fraction and exponent, other than `-0`. -/
  | int (n : Int)
  /-- Any other numeral, as written. -/
  | real (text : String)
  | str (s : String)
  | unpaired
  | arr (items : List Json)
  | obj (members : List (Option String × Json))
  deriving Repr, Inhabited

namespace Json

/-- An object whose member names all have content. -/
def ofMembers (members : List (String × Json)) : Json :=
  obj (members.map fun (name, value) ↦ (some name, value))

/-- An object with one member, which says what its value is. -/
def tagged (tag : String) (value : Json) : Json := ofMembers [(tag, value)]

def nat (n : Nat) : Json := int n

/-- The value under `f`, or `null`. -/
def option {α : Type} (f : α → Json) (a : Option α) : Json := a.elim null f

/-- The array of the values under `f`. -/
def list {α : Type} (f : α → Json) (as : List α) : Json := arr (as.map f)

/-! ## Depth -/

mutual

/-- How deep arrays and objects nest: one level for each. -/
def depth : Json → Nat
  | null | bool _ | int _ | real _ | str _ | unpaired => 0
  | arr items => depthItems items + 1
  | obj members => depthMembers members + 1

def depthItems : List Json → Nat
  | [] => 0
  | item :: items => max item.depth (depthItems items)

def depthMembers : List (Option String × Json) → Nat
  | [] => 0
  | (_, value) :: members => max value.depth (depthMembers members)

end

end Json

end Tricode
