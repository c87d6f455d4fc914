import Tricode.Json.Record
import Tricode.Ty

/-!
# Types as JSON

A resolved type is written as a record of its name and its array flag, both of which must be
present when it is read.
-/

namespace Tricode

namespace Ty

/-- A type as a record. -/
def toJson (t : Ty) : Json :=
  Json.ofMembers [("name", .str t.name), ("is_array", .bool t.isArray)]

/-- The type that a record spells. -/
def ofJson : Nat → Json → Option Ty
  | 0, _ => none
  | _ + 1, j => do
    let fields ← Json.record ["name", "is_array"] 0 j
    let name ← fields.get "name" Json.str?
    let isArray ← fields.get "is_array" Json.bool?
    pure ⟨name, isArray⟩

end Ty

end Tricode
