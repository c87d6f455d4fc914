import Tricode.Json

/-!
# Taking JSON values apart

The rules by which typed data is found in a JSON value.

* A record is an object that names its fields, where a member of another name is skipped and a
  field given twice is an error, or an array of its fields in order, where fields may be left off
  at the end.
* A variant without payload is a string, or an object with that name and `null`. A variant with a
  payload is an object with one member.
* Integers are numerals without fraction and exponent.

Arrays and objects may nest only so deep. A function that takes a value apart is given the number
of levels that are left, and uses one up for each array or object it enters. What is skipped is
never entered, so it may be of any depth.
-/

namespace Tricode

/-- How deep the JSON of a tree or of options may nest. -/
def maxNesting : Nat := 127

namespace Json

/-! ## Scalars -/

/-- A truth value. -/
def bool? : Json → Option Bool
  | bool b => some b
  | _ => none

/-- A string with content. -/
def str? : Json → Option String
  | str s => some s
  | _ => none

/-- An integer that 32 bits can hold with a sign. -/
def int32? : Json → Option Int32
  | int n => if -2147483648 ≤ n ∧ n < 2147483648 then some (Int32.ofInt n) else none
  | _ => none

/-- An integer that 32 bits can hold without a sign. -/
def uint32? : Json → Option UInt32
  | int n => if 0 ≤ n ∧ n < 4294967296 then some (UInt32.ofNat n.toNat) else none
  | _ => none

/-! ## Records -/

/-- The fields of a record that are present, by name. -/
abbrev Fields := List (String × Json)

/-- The fields of a record among the given ones; as an array it has at least `least` of them. -/
def record (names : List String) (least : Nat) : Json → Option Fields
  | arr items =>
    if least ≤ items.length ∧ items.length ≤ names.length then some (names.zip items) else none
  | obj members => do
    let named ← members.mapM fun (name, j) ↦ name.map (·, j)
    let known := named.filter fun (name, _) ↦ names.contains name
    if (known.map Prod.fst).Nodup then some known else none
  | _ => none

namespace Fields

/-- A field that must be present. -/
def get {α : Type} (fields : Fields) (name : String) (decode : Json → Option α) : Option α :=
  (fields.lookup name).bind decode

/-- A field that may be absent. -/
def getD {α : Type} (fields : Fields) (name : String) (absent : α) (decode : Json → Option α) :
    Option α :=
  match fields.lookup name with
  | some j => decode j
  | none => some absent

/-- A field that may be absent or `null`. -/
def get? {α : Type} (fields : Fields) (name : String) (decode : Json → Option α) :
    Option (Option α) :=
  match fields.lookup name with
  | some null => some none
  | some j => (decode j).map some
  | none => some none

end Fields

/-! ## Lists and variants -/

/-- A list of values, one level down. -/
def listAt {α : Type} (decode : Nat → Json → Option α) : Nat → Json → Option (List α)
  | levels + 1, arr items => items.mapM (decode levels)
  | _, _ => none

/-- The name of a variant without payload. -/
def plainTag? : Nat → Json → Option String
  | _, str tag => some tag
  | _ + 1, obj [(some tag, null)] => some tag
  | _, _ => none

end Json

end Tricode
