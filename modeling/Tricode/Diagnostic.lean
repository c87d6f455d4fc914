import Tricode.Ty

/-!
# Diagnostics

What checking has to say about a unit. A `Problem` is the cause, with the names and types it
concerns; its wording is in one place, `Problem.message`. A diagnostic adds a severity and a
position. Diagnostics are collected, never thrown: whoever asked for them decides whether they
stand in the way of lowering.
-/

namespace Tricode

/-! ## Problems -/

/-- What is wrong, with the names and types it concerns. -/
inductive Problem where
  | duplicateLocal (name : String)
  | duplicateParam (name : String)
  | duplicateField (name : String)
  | duplicateMethod (name : String)
  | duplicateImport (name : String)
  | classNamedLikeImport (name : String)
  | undeclaredVariable (name : String)
  | undeclaredMethod (name : String)
  | instanceMemberInStatic (name : String)
  | conditionNotBoolean (construct : String) (found : Ty)
  | arrayAsCondition (construct : String)
  | incompatibleAssignment (target : String) (expected found : Ty)
  | notAnArray (name : String)
  | indexedNonArray (found : Ty)
  | indexNotInt (found : Ty)
  | arraySizeNotInt (found : Ty)
  | mixedArrayElements (expected found : Ty)
  | lengthOfNonArray (found : Ty)
  | invalidNegation (found : Ty)
  | invalidOperands (op : BinOp) (lhsForm : String) (lhs : Ty) (rhsForm : String) (rhs : Ty)
  | argumentCount (method : String) (expected found : Nat)
  | argumentType (method : String) (position : Nat) (expected found : Ty)
  | callOnNonObject (method : String) (found : Ty)
  | mainNotStatic
  | mainParameters
  | staticNonMain (name : String)
  | returnType (expected found : Ty)
  | missingReturnValue (expected : Ty)
  | voidReturnsValue (method : String)
  | unreachableCode
  deriving DecidableEq, Repr

namespace Problem

/-- A name as messages set it off from the text around it. -/
def quoted (name : String) : String := "`" ++ name ++ "`"

/-- The wording of a problem. -/
def message : Problem → String
  | duplicateLocal name => "variable " ++ quoted name ++ " already declared"
  | duplicateParam name => "parameter " ++ quoted name ++ " already declared"
  | duplicateField name => "field " ++ quoted name ++ " already declared"
  | duplicateMethod name => "method " ++ quoted name ++ " already declared"
  | duplicateImport name => "import " ++ quoted name ++ " already declared"
  | classNamedLikeImport name =>
    "class " ++ quoted name ++ " has the same name as an import"
  | undeclaredVariable name => "undeclared variable " ++ quoted name
  | undeclaredMethod name => "undeclared method " ++ quoted name
  | instanceMemberInStatic name =>
    "cannot use instance member " ++ quoted name ++ " in static method"
  | conditionNotBoolean construct found =>
    construct ++ " condition must be boolean, found " ++ found.text
  | arrayAsCondition construct => "array used as condition of " ++ construct
  | incompatibleAssignment target expected found =>
    "cannot assign " ++ found.text ++ " to " ++ quoted target ++ " of type " ++ expected.text
  | notAnArray name => quoted name ++ " is not an array"
  | indexedNonArray found => "indexed expression is not an array, found " ++ found.text
  | indexNotInt found => "array index must be int, found " ++ found.text
  | arraySizeNotInt found => "array size must be int, found " ++ found.text
  | mixedArrayElements expected found =>
    "array elements must share one type: expected " ++ expected.text ++ ", found " ++ found.text
  | lengthOfNonArray found => "length requires an array, found " ++ found.text
  | invalidNegation found => "negation requires boolean, found " ++ found.text
  | invalidOperands op lhsForm lhs rhsForm rhs =>
    "operator " ++ op.symbol ++ " not valid for " ++ lhsForm ++ " (" ++ lhs.text ++ ") and " ++
      rhsForm ++ " (" ++ rhs.text ++ ")"
  | argumentCount method expected found =>
    "method " ++ quoted method ++ " expects " ++ toString expected ++ " argument(s), found " ++
      toString found
  | argumentType method position expected found =>
    "argument " ++ toString position ++ " of method " ++ quoted method ++
      " is of the wrong type: expected " ++ expected.text ++ ", found " ++ found.text
  | callOnNonObject method found =>
    "cannot call method " ++ quoted method ++ " on " ++ found.text
  | mainNotStatic => "method `main` must be static"
  | mainParameters =>
    "method `main` must take exactly one parameter `args` of type String[]"
  | staticNonMain name => "method " ++ quoted name ++ " must not be static"
  | returnType expected found =>
    "return type mismatch: expected " ++ expected.text ++ ", found " ++ found.text
  | missingReturnValue expected => "missing return value, expected " ++ expected.text
  | voidReturnsValue method =>
    "void method " ++ quoted method ++ " cannot return a value"
  | unreachableCode => "unreachable statement after return"

end Problem

/-! ## Diagnostics -/

/-- Errors always stand in the way of lowering, and warnings only if that is asked for. -/
inductive Severity where
  | error | warning
  deriving DecidableEq, Repr

namespace Severity

/-- The severity as a line shows it. -/
def text : Severity → String
  | error => "error"
  | warning => "warning"

end Severity

/-- A problem at a place of the unit. -/
structure Diagnostic where
  severity : Severity
  pos : Position
  problem : Problem
  deriving DecidableEq, Repr

namespace Diagnostic

def error (pos : Position) (problem : Problem) : Diagnostic := ⟨.error, pos, problem⟩

def warning (pos : Position) (problem : Problem) : Diagnostic := ⟨.warning, pos, problem⟩

def isError (d : Diagnostic) : Bool := d.severity == .error

def message (d : Diagnostic) : String := d.problem.message

/-- A diagnostic on one line. -/
def text (d : Diagnostic) : String :=
  d.pos.text ++ ": " ++ d.severity.text ++ ": " ++ d.message

/-- In reading order; diagnostics at one position keep the order they were found in. -/
def sort (ds : List Diagnostic) : List Diagnostic :=
  ds.mergeSort fun d e ↦ d.pos.le e.pos

/-- How many of the diagnostics are errors. -/
def errorCount (ds : List Diagnostic) : Nat := ds.countP isError

/-- Nothing if the rule holds, and otherwise the one error that says so. -/
def require (holds : Bool) (pos : Position) (problem : Problem) : List Diagnostic :=
  if holds then [] else [error pos problem]

@[simp] theorem require_true (pos : Position) (problem : Problem) :
    require true pos problem = [] := rfl

@[simp] theorem require_false (pos : Position) (problem : Problem) :
    require false pos problem = [error pos problem] := rfl

end Diagnostic

end Tricode
