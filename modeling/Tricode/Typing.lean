import Tricode.Diagnostic
import Tricode.Table

/-!
# Typing expressions

Two functions of one expression in one scope. `Scope.typeOf` gives its type and is total: what
cannot be resolved has the type `Ty.any`. `Scope.problems` gives the faults of the expression, in
the order in which evaluation meets them. Lowering needs only the first, so the two are kept
apart, and the second reads the types of subexpressions off the first.

Since every rule accepts `Ty.any`, the ancestors of a broken subexpression stay silent.
-/

namespace Tricode

open Diagnostic (error require)

/-! ## Rules on types alone -/

namespace Ty

/-- The element type of an array literal: the first element type that is known. -/
def common (types : List Ty) : Option Ty := types.find? fun t ↦ !t.isAny

/-- The type of an array literal from the types of its elements. An empty literal is an array of
integers, and one without a single element type has no type. -/
def ofElements (types : List Ty) : Ty :=
  if types.isEmpty then intArray
  else match common types with
    | some elem => if types.all fun t ↦ t.accepts elem then elem.arrayOf else any
    | none => any

/-- The type of one element of a value of type `t`. -/
def indexed (t : Ty) : Ty := if !t.isAny && t.isArray then t.element else any

end Ty

/-- Who answers a call on a value of some type. -/
inductive Responder where
  /-- The class of the unit, whose methods are known. -/
  | own
  /-- Another class, or a value of unknown type. -/
  | foreign
  /-- Nobody: the value is not an object. -/
  | nobody
  deriving DecidableEq, Repr

/-- Who answers a call on a value of type `receiver`. -/
def Table.responder (t : Table) (receiver : Ty) : Responder :=
  if receiver.isAny then .foreign
  else if !receiver.isClass then .nobody
  else if receiver.name == t.className then .own
  else .foreign

namespace Scope

/-! ## Types -/

/-- A field is out of reach in a static method. -/
def variableTy (s : Scope) (name : String) : Ty :=
  match s.lookup name with
  | .stored .field symbol => if s.method.isStatic then .any else symbol.ty
  | .stored _ symbol => symbol.ty
  | .imported => .named name
  | .unbound => .any

/-- There is no `this` in a static method. -/
def thisTy (s : Scope) : Ty := if s.method.isStatic then .any else .named s.table.className

/-- The result of a call to a method of the class itself. -/
def ownCallTy (s : Scope) (method : String) : Ty := (s.table.returnType? method).getD .any

mutual

/-- The type of an expression, whether or not it has faults. Where nothing can be said it is
`Ty.any`. -/
def typeOf (s : Scope) : Expr → Ty
  | .lit _ value => value.ty
  | .this _ => s.thisTy
  | .var _ name => s.variableTy name
  | .not _ _ => .boolean
  | .binary _ op lhs rhs =>
    if (s.typeOf lhs).accepts op.operandTy && (s.typeOf rhs).accepts op.operandTy then
      op.resultTy
    else .any
  | .index _ array _ => (s.typeOf array).indexed
  | .array _ elements => Ty.ofElements (s.typesOf elements)
  | .newArray _ elem _ => elem.resolve.arrayOf
  | .newObject _ className => .named className
  | .length _ _ => .int
  | .call _ method _ => s.ownCallTy method
  | .callOn _ receiver method _ =>
    if s.table.responder (s.typeOf receiver) = .own then s.ownCallTy method else .any

def typesOf (s : Scope) : List Expr → List Ty
  | [] => []
  | e :: es => s.typeOf e :: s.typesOf es

end

theorem typesOf_eq_map (s : Scope) (es : List Expr) : s.typesOf es = es.map s.typeOf := by
  induction es with
  | nil => rfl
  | cons e es ih => rw [typesOf, ih, List.map_cons]

/-! ## Faults -/

/-- Faults of a name whose value is used. -/
def variableProblems (s : Scope) (pos : Position) (name : String) : List Diagnostic :=
  match s.lookup name with
  | .stored .field _ => require (!s.method.isStatic) pos (.instanceMemberInStatic name)
  | .stored _ _ => []
  | .imported => []
  | .unbound => [error pos (.undeclaredVariable name)]

/-- Faults of a name that is assigned to: a class is no storage. -/
def targetProblems (s : Scope) (pos : Position) (name : String) : List Diagnostic :=
  match s.lookup name with
  | .imported => [error pos (.undeclaredVariable name)]
  | _ => s.variableProblems pos name

/-- The type of the storage an assignment to `name` writes. -/
def targetTy (s : Scope) (name : String) : Ty :=
  match s.lookup name with
  | .imported => .any
  | _ => s.variableTy name

/-! ### Arguments -/

/-- An argument of a call: where it stands and what type it has. -/
structure Argument where
  pos : Position
  ty : Ty

/-- The rule for one argument, numbered from zero. -/
def argumentProblem (sig : Signature) (number : Nat) (expected : Ty) (arg : Argument)
    (holds : Bool) : List Diagnostic :=
  require holds arg.pos (.argumentType sig.name (number + 1) expected arg.ty)

/-- The arguments that fill a parameter of their own. -/
def fixedArgumentProblems (s : Scope) (sig : Signature) (args : List Argument) :
    List Diagnostic :=
  (args.zip (sig.params.take sig.fixedArity)).zipIdx.flatMap fun ((arg, param), i) ↦
    argumentProblem sig i param.ty arg (Ty.assignable s.table.env param.ty arg.ty)

/-- The arguments past the last parameter of their own. A single one is not an element: it has
to be the whole array. -/
def trailingArgumentProblems (sig : Signature) (slot : Symbol) (args : List Argument) :
    List Diagnostic :=
  match args with
  | [arg] => argumentProblem sig sig.fixedArity slot.ty arg (arg.ty.accepts slot.ty)
  | args => args.zipIdx.flatMap fun (arg, i) ↦
    argumentProblem sig (sig.fixedArity + i) slot.ty.element arg
      (arg.ty.accepts slot.ty.element)

/-- Faults of a call to `sig`. A wrong number of arguments hides their types. -/
def argumentProblems (s : Scope) (sig : Signature) (pos : Position) (args : List Argument) :
    List Diagnostic :=
  if sig.acceptsCount args.length then
    s.fixedArgumentProblems sig args ++
      match sig.varargsSlot with
      | some slot => trailingArgumentProblems sig slot (args.drop sig.fixedArity)
      | none => []
  else [error pos (.argumentCount sig.name sig.fixedArity args.length)]

/-- The arguments of a call, as its rules look at them. -/
def arguments (s : Scope) (es : List Expr) : List Argument :=
  es.map fun e ↦ ⟨e.pos, s.typeOf e⟩

/-! ### Expressions -/

/-- Faults of a call to a method of the class itself, where `argFaults` are those of the
arguments. Any import may provide a method the class lacks, so that is a fault only in a unit
without imports. -/
def ownCallProblems (s : Scope) (pos : Position) (implicitThis : Bool) (method : String)
    (args : List Argument) (argFaults : List Diagnostic) : List Diagnostic :=
  match s.table.method? method with
  | some sig =>
    require (!(implicitThis && s.method.isStatic && !sig.isStatic)) pos
        (.instanceMemberInStatic method) ++
      argFaults ++ s.argumentProblems sig pos args
  | none => argFaults ++ require s.table.hasImports pos (.undeclaredMethod method)

/-- Faults of each element of an array literal, next to its own faults. -/
def elementProblems (s : Scope) (elements : List Expr) (faults : List (List Diagnostic)) :
    List Diagnostic :=
  let common := Ty.common (s.typesOf elements)
  let mixed (e : Expr) : List Diagnostic :=
    match common with
    | some elem =>
      require ((s.typeOf e).accepts elem) e.pos (.mixedArrayElements elem (s.typeOf e))
    | none => []
  (List.zipWith (fun own e ↦ own ++ mixed e) faults elements).flatten

mutual

/-- All faults of an expression, those of its parts included. -/
def problems (s : Scope) : Expr → List Diagnostic
  | .lit _ _ => []
  | .this pos => require (!s.method.isStatic) pos (.instanceMemberInStatic "this")
  | .var pos name => s.variableProblems pos name
  | .not pos operand =>
    s.problems operand ++
      require ((s.typeOf operand).accepts .boolean) pos (.invalidNegation (s.typeOf operand))
  | .binary pos op lhs rhs =>
    s.problems lhs ++ s.problems rhs ++
      require ((s.typeOf lhs).accepts op.operandTy && (s.typeOf rhs).accepts op.operandTy) pos
        (.invalidOperands op lhs.formName (s.typeOf lhs) rhs.formName (s.typeOf rhs))
  | .index pos array index =>
    s.problems array ++ s.problems index ++
      require ((s.typeOf index).accepts .int) index.pos (.indexNotInt (s.typeOf index)) ++
      require ((s.typeOf array).isAny || (s.typeOf array).isArray) pos
        (.indexedNonArray (s.typeOf array))
  | .array _ elements => s.elementProblems elements (s.problemsEach elements)
  | .newArray _ _ size =>
    s.problems size ++
      require ((s.typeOf size).accepts .int) size.pos (.arraySizeNotInt (s.typeOf size))
  | .newObject _ _ => []
  | .length pos array =>
    s.problems array ++
      require ((s.typeOf array).isAny || (s.typeOf array).isArray) pos
        (.lengthOfNonArray (s.typeOf array))
  | .call pos method args =>
    s.ownCallProblems pos true method (s.arguments args) (s.problemsEach args).flatten
  | .callOn pos receiver method args =>
    s.problems receiver ++
      match s.table.responder (s.typeOf receiver) with
      | .own => s.ownCallProblems pos false method (s.arguments args) (s.problemsEach args).flatten
      | .foreign => (s.problemsEach args).flatten
      | .nobody =>
        error pos (.callOnNonObject method (s.typeOf receiver)) :: (s.problemsEach args).flatten

def problemsEach (s : Scope) : List Expr → List (List Diagnostic)
  | [] => []
  | e :: es => s.problems e :: s.problemsEach es

end

theorem problemsEach_eq_map (s : Scope) (es : List Expr) :
    s.problemsEach es = es.map s.problems := by
  induction es with
  | nil => rfl
  | cons e es ih => rw [problemsEach, ih, List.map_cons]

end Scope

end Tricode
