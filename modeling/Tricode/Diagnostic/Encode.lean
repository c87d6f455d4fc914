import Tricode.Diagnostic
import Tricode.Ty.Json

/-!
# Writing diagnostics

The JSON form of a report on one unit, for programs that read it.
-/

namespace Tricode

open Json (ofMembers tagged)

namespace Problem

/-- A problem of the given kind about one name. -/
def nameJson (tag name : String) : Json := tagged tag (ofMembers [("name", .str name)])

/-- A problem of the given kind about one type. -/
def foundJson (tag : String) (found : Ty) : Json :=
  tagged tag (ofMembers [("found", found.toJson)])

/-- A problem by its kind, with the names and types it concerns. -/
def toJson : Problem → Json
  | duplicateLocal name => nameJson "DuplicateLocal" name
  | duplicateParam name => nameJson "DuplicateParam" name
  | duplicateField name => nameJson "DuplicateField" name
  | duplicateMethod name => nameJson "DuplicateMethod" name
  | duplicateImport name => nameJson "DuplicateImport" name
  | classNamedLikeImport name => nameJson "ClassNameClashesWithImport" name
  | undeclaredVariable name => nameJson "UndeclaredVariable" name
  | undeclaredMethod name => nameJson "UndeclaredMethod" name
  | instanceMemberInStatic name => nameJson "InstanceMemberInStaticContext" name
  | conditionNotBoolean construct found =>
    tagged "ConditionNotBoolean"
      (ofMembers [("construct", .str construct), ("found", found.toJson)])
  | arrayAsCondition construct =>
    tagged "ArrayAsCondition" (ofMembers [("construct", .str construct)])
  | incompatibleAssignment target expected found =>
    tagged "IncompatibleAssignment"
      (ofMembers [("target", .str target), ("expected", expected.toJson),
        ("found", found.toJson)])
  | notAnArray name => nameJson "NotAnArray" name
  | indexedNonArray found => foundJson "IndexedNonArray" found
  | indexNotInt found => foundJson "IndexNotInt" found
  | arraySizeNotInt found => foundJson "ArraySizeNotInt" found
  | mixedArrayElements expected found =>
    tagged "MixedArrayElements"
      (ofMembers [("expected", expected.toJson), ("found", found.toJson)])
  | lengthOfNonArray found => foundJson "LengthOfNonArray" found
  | invalidNegation found => foundJson "InvalidNegation" found
  | invalidOperands op lhsForm lhs rhsForm rhs =>
    tagged "InvalidOperands"
      (ofMembers [("op", .str op.symbol), ("lhs_kind", .str lhsForm), ("lhs", lhs.toJson),
        ("rhs_kind", .str rhsForm), ("rhs", rhs.toJson)])
  | argumentCount method expected found =>
    tagged "ArgumentCount"
      (ofMembers [("method", .str method), ("expected", .nat expected), ("found", .nat found)])
  | argumentType method position expected found =>
    tagged "ArgumentType"
      (ofMembers [("method", .str method), ("position", .nat position),
        ("expected", expected.toJson), ("found", found.toJson)])
  | callOnNonObject method found =>
    tagged "CallOnNonObject" (ofMembers [("method", .str method), ("found", found.toJson)])
  | mainNotStatic => .str "MainNotStatic"
  | mainParameters => .str "MainParameters"
  | staticNonMain name => nameJson "StaticNonMain" name
  | returnType expected found =>
    tagged "ReturnType" (ofMembers [("expected", expected.toJson), ("found", found.toJson)])
  | missingReturnValue expected =>
    tagged "MissingReturnValue" (ofMembers [("expected", expected.toJson)])
  | voidReturnsValue method =>
    tagged "VoidReturnsValue" (ofMembers [("method", .str method)])
  | unreachableCode => .str "UnreachableCode"

end Problem

/-- The severity as JSON names it. -/
def Severity.tag : Severity → String
  | error => "Error"
  | warning => "Warning"

/-- A diagnostic with its wording as well as its problem. -/
def Diagnostic.toJson (d : Diagnostic) : Json :=
  ofMembers [("severity", .str d.severity.tag), ("stage", .str "Semantic"),
    ("line", .nat d.pos.line.toNat), ("column", .nat d.pos.column.toNat),
    ("message", .str d.message), ("error", d.problem.toJson)]

/-- What checking found in a class. -/
structure Report where
  className : String
  diagnostics : List Diagnostic

namespace Report

def errors (r : Report) : Nat := Diagnostic.errorCount r.diagnostics

def warnings (r : Report) : Nat := r.diagnostics.length - r.errors

/-- The report, with the two counts before the diagnostics. -/
def toJson (r : Report) : Json :=
  ofMembers [("class", .str r.className), ("errors", .nat r.errors),
    ("warnings", .nat r.warnings), ("diagnostics", Json.list Diagnostic.toJson r.diagnostics)]

end Report

end Tricode
