import Tricode.Lowering.Basic
import Tricode.Typing

/-!
# Lowering expressions

An expression becomes an operand and the code that has to run before the operand is valid. What
it is lowered for may be expected to have some type; that matters only to calls into other
classes, whose result type nobody knows.

Each form has a combinator of its own, which takes the lowered parts as steps that await their
expected type. The recursion over trees, `Scope.lowerExpr`, only puts these together, so that
whatever every combinator keeps holds of every expression.
-/

namespace Tricode

/-- An operand and the code that makes it valid. -/
structure Lowered where
  operand : Operand
  code : Code
  deriving DecidableEq, Repr

/-- The lowering of an expression, awaiting the type its value is expected to have. -/
abbrev Emit := Option Ty → Lower Lowered

namespace Lower

/-- The value of `value`, once `code` has run, in a fresh temporary. -/
def intoTemp (ty : Ty) (code : Code) (value : Rvalue) : Lower Lowered := do
  let id ← freshTemp
  pure ⟨.temp id ty, code ++ [.assign (.temp id ty) ty value]⟩

/-! ## Operators -/

/-- A truth value is negated into a temporary. -/
def not (operand : Emit) : Lower Lowered := do
  let inner ← operand (some .boolean)
  intoTemp .boolean inner.code (.not inner.operand)

/-- An operation on two integers, the left one computed first. -/
def arithmetic (op : BinOp) (lhs rhs : Emit) : Lower Lowered := do
  let left ← lhs (some .int)
  let right ← rhs (some .int)
  intoTemp .int (left.code ++ right.code) (.binary op left.operand right.operand)

/-- A comparison as the condition of a jump. -/
def compare (op : BinOp) (lhs rhs : Emit) : Lower (Cond × Code) := do
  let left ← lhs (some .int)
  let right ← rhs (some .int)
  pure (.compare op left.operand right.operand, left.code ++ right.code)

/-- A write of a truth value to the temporary `id`. -/
def setBool (id : Nat) (value : Operand) : Instruction :=
  .assign (.temp id .boolean) .boolean (.use value)

/-- A comparison as a value: jump to where true is stored, or store false and skip that. -/
def comparison (op : BinOp) (lhs rhs : Emit) : Lower Lowered := do
  let (cond, code) ← compare op lhs rhs
  let n ← freshCond
  let id ← freshTemp
  pure ⟨.temp id .boolean,
    code ++
      [.branch cond (.numbered .cmpTrue n),
        setBool id (.bool false),
        .goto (.numbered .cmpEnd n),
        .label (.numbered .cmpTrue n),
        setBool id (.bool true),
        .label (.numbered .cmpEnd n)]⟩

/-- The right operand runs only when the left one is true. -/
def and (lhs rhs : Emit) : Lower Lowered := do
  let left ← lhs (some .boolean)
  let n ← freshCond
  let id ← freshTemp
  let right ← rhs (some .boolean)
  pure ⟨.temp id .boolean,
    left.code ++
      [.branch (.truthy left.operand) (.numbered .andRhs n),
        setBool id (.bool false),
        .goto (.numbered .andEnd n),
        .label (.numbered .andRhs n)] ++
      right.code ++
      [setBool id right.operand,
        .label (.numbered .andEnd n)]⟩

/-- The right operand runs only when the left one is false. -/
def or (lhs rhs : Emit) : Lower Lowered := do
  let left ← lhs (some .boolean)
  let n ← freshCond
  let id ← freshTemp
  let right ← rhs (some .boolean)
  pure ⟨.temp id .boolean,
    left.code ++
      [.branch (.truthy left.operand) (.numbered .orTrue n)] ++
      right.code ++
      [setBool id right.operand,
        .goto (.numbered .orEnd n),
        .label (.numbered .orTrue n),
        setBool id (.bool true),
        .label (.numbered .orEnd n)]⟩

/-- A binary operator, lowered as the class it belongs to asks. -/
def binary (op : BinOp) (lhs rhs : Emit) : Lower Lowered :=
  match op with
  | .and => and lhs rhs
  | .or => or lhs rhs
  | .lt | .gt => comparison op lhs rhs
  | .add | .sub | .mul | .div | .rem => arithmetic op lhs rhs

/-! ## Arrays -/

/-- An element of an array, which is computed before the index. -/
def index (array idx : Emit) : Lower Lowered := do
  let base ← array (some .intArray)
  let idx ← idx (some .int)
  intoTemp base.operand.ty.element (base.code ++ idx.code) (.element base.operand idx.operand)

/-- The length of an array. -/
def length (array : Emit) : Lower Lowered := do
  let base ← array (some .intArray)
  intoTemp .int base.code (.call ⟨.arrayLength, base.operand, none, [], .int⟩)

/-- A new array of the size that is computed first. -/
def newArray (elem : Ty) (size : Emit) : Lower Lowered := do
  let size ← size (some .int)
  intoTemp elem.arrayOf size.code (.newArray elem size.operand)

/-- Code that stores elements one after another, from the given index on. -/
def storeElements (array : Operand) (elem : Ty) : Nat → List Emit → Lower Code
  | _, [] => pure []
  | i, element :: elements => do
    let value ← element (some elem)
    let rest ← storeElements array elem (i + 1) elements
    pure (value.code ++
      .assign (.element array (.int (Int32.ofNat i)) elem) elem (.use value.operand) :: rest)

/-- A fresh array with the given elements. It is allocated before any of them runs. -/
def packArray (elem : Ty) (elements : List Emit) : Lower Lowered := do
  if 2147483648 ≤ elements.length then throw .arrayTooLong
  let id ← freshTemp
  let stores ← storeElements (.temp id elem.arrayOf) elem 0 elements
  pure ⟨.temp id elem.arrayOf,
    .assign (.temp id elem.arrayOf) elem.arrayOf
      (.newArray elem (.int (Int32.ofNat elements.length))) :: stores⟩

/-! ## Objects and calls -/

/-- Allocation of an object and the call of its constructor. -/
def construct (className : String) : Lower Lowered := do
  let id ← freshTemp
  let ty := Ty.named className
  pure ⟨.temp id ty,
    [.assign (.temp id ty) ty (.call ⟨.new, .ofClass className, none, [], ty⟩),
      .call ⟨.special, .temp id ty, some "<init>", [], .void⟩]⟩

/-- Steps one after another: their operands and all their code. -/
def inOrder : List (Lower Lowered) → Lower (List Operand × Code)
  | [] => pure ([], [])
  | step :: steps => do
    let first ← step
    let (operands, code) ← inOrder steps
    pure (first.operand :: operands, first.code ++ code)

/-- The arguments of a method of the unit, one operand per parameter. Arguments past the fixed
parameters are packed into an array, unless the call hands over the array itself: then there are
as many arguments as parameters. -/
def ownArguments (sig : Signature) (args : List Emit) : Lower (List Operand × Code) := do
  let packs := sig.hasVarargs && args.length != sig.params.length
  let fixed := if packs then min sig.fixedArity args.length else args.length
  let (operands, code) ← inOrder ((args.take fixed).zipIdx.map fun (arg, i) ↦
    arg ((sig.params[i]?).map Symbol.ty))
  match sig.varargsElement with
  | some elem =>
    if packs then do
      let packed ← packArray elem (args.drop fixed)
      pure (operands ++ [packed.operand], code ++ packed.code)
    else pure (operands, code)
  | none => pure (operands, code)

end Lower

/-- How a call is made: on what, of what kind, and, for a method of the unit, to which
signature. -/
structure Dispatch where
  kind : CallKind
  receiver : Operand
  callee : Option Signature
  code : Code

namespace Scope

/-- The class that stands for the unknown class of an object from outside the unit. -/
def opaqueClass : String := "Object"

/-- The object the method runs on. -/
def thisOperand (s : Scope) : Operand := .this s.table.className

/-- The value of a name. A field is loaded, and anything else is an operand as it stands. -/
def lowerVar (s : Scope) (pos : Position) (name : String) : Lower Lowered :=
  match s.lookup name with
  | .stored .field symbol => Lower.intoTemp symbol.ty [] (.getField name symbol.ty)
  | .stored _ symbol => pure ⟨.var name symbol.ty, []⟩
  | .imported => pure ⟨.ofClass name, []⟩
  | .unbound => throw (.undeclaredVariable name pos)

/-- A call on the class itself or on `this`. A method the class lacks is taken for an inherited
one if there is a superclass. -/
def ownDispatch (s : Scope) (method : String) : Dispatch :=
  match s.table.method? method with
  | some sig =>
    if sig.isStatic then ⟨.static, .ofClass s.table.className, some sig, []⟩
    else ⟨.virtual, s.thisOperand, some sig, []⟩
  | none =>
    if s.table.superclass.isSome then ⟨.virtual, s.thisOperand, none, []⟩
    else ⟨.static, .ofClass s.table.className, none, []⟩

/-- The class a receiver is taken to have when its own type does not say. -/
def receiverHint (s : Scope) (receiver : Expr) : Ty :=
  let ty := s.typeOf receiver
  if ty.isClass then ty else .named opaqueClass

/-- A call on the value of `receiver`. -/
def objectDispatch (s : Scope) (pos : Position) (receiver : Expr) (emit : Emit)
    (method : String) : Lower Dispatch := do
  let object ← emit (some (s.receiverHint receiver))
  let ty := object.operand.ty
  if ty.isClass then
    pure ⟨.virtual, object.operand,
      if ty.name == s.table.className then s.table.method? method else none, object.code⟩
  else throw (.unclassifiableCall method pos)

/-- A call on `receiver`, which `emit` lowers. The name of an imported class is no value, so a
call on it is static. -/
def dispatch (s : Scope) (pos : Position) (receiver : Expr) (emit : Emit) (method : String) :
    Lower Dispatch :=
  match receiver with
  | .this _ => pure (s.ownDispatch method)
  | .var _ name =>
    if s.lookup name = .imported then pure ⟨.static, .ofClass name, none, []⟩
    else s.objectDispatch pos receiver emit method
  | _ => s.objectDispatch pos receiver emit method

/-- An argument of a call into another class is lowered for its own type, if that is known. -/
def argumentHint (s : Scope) (arg : Expr) : Option Ty :=
  let ty := s.typeOf arg
  if ty.isAny then none else some ty

/-- Receiver, then arguments, then the call. `retHint` is the result type of a method from
outside the unit. -/
def lowerCall (s : Scope) (receiver : Lower Dispatch) (method : String) (args : List Expr)
    (emits : List Emit) (retHint : Ty) : Lower (Call × Code) := do
  let d ← receiver
  match d.callee with
  | some sig =>
    let (operands, code) ← Lower.ownArguments sig emits
    pure (⟨d.kind, d.receiver, some method, operands, sig.returnType⟩, d.code ++ code)
  | none =>
    let (operands, code) ← Lower.inOrder
      (List.zipWith (fun arg emit ↦ emit (s.argumentHint arg)) args emits)
    pure (⟨d.kind, d.receiver, some method, operands, retHint⟩, d.code ++ code)

/-- A call whose result is used. -/
def lowerCallValue (s : Scope) (receiver : Lower Dispatch) (method : String) (args : List Expr)
    (emits : List Emit) (expected : Option Ty) : Lower Lowered := do
  let (call, code) ← s.lowerCall receiver method args emits (expected.getD .int)
  Lower.intoTemp call.ret code (.call call)

/-- The element type an array literal is allocated with. -/
def literalElement (s : Scope) (elements : List Expr) : Ty :=
  let ty := Ty.ofElements (s.typesOf elements)
  if ty.isArray then ty.element else .int

/-! ## The recursion -/

mutual

/-- The lowering of an expression. Only calls look at the type that is expected. -/
def lowerExpr (s : Scope) : Expr → Emit
  | .lit _ value, _ => pure ⟨.ofLiteral value, []⟩
  | .this _, _ => pure ⟨s.thisOperand, []⟩
  | .var pos name, _ => s.lowerVar pos name
  | .not _ operand, _ => Lower.not (s.lowerExpr operand)
  | .binary _ op lhs rhs, _ => Lower.binary op (s.lowerExpr lhs) (s.lowerExpr rhs)
  | .index _ array idx, _ => Lower.index (s.lowerExpr array) (s.lowerExpr idx)
  | .array _ elements, _ => Lower.packArray (s.literalElement elements) (s.lowerEach elements)
  | .newArray _ elem size, _ => Lower.newArray elem.resolve (s.lowerExpr size)
  | .newObject _ className, _ => Lower.construct className
  | .length _ array, _ => Lower.length (s.lowerExpr array)
  | .call _ method args, expected =>
    s.lowerCallValue (pure (s.ownDispatch method)) method args (s.lowerEach args) expected
  | .callOn pos receiver method args, expected =>
    s.lowerCallValue (s.dispatch pos receiver (s.lowerExpr receiver) method) method args
      (s.lowerEach args) expected

def lowerEach (s : Scope) : List Expr → List Emit
  | [] => []
  | e :: es => s.lowerExpr e :: s.lowerEach es

end

theorem lowerEach_eq_map (s : Scope) (es : List Expr) :
    s.lowerEach es = es.map s.lowerExpr := by
  induction es with
  | nil => rfl
  | cons e es ih => rw [lowerEach, ih, List.map_cons]

end Scope

end Tricode
