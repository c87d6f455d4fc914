import Tricode.Lowering.Expr
import Tricode.Proofs.Memory

/-!
# The meaning of trees

What a method body does when it runs: a value or a trap for an expression, a change of state for
a statement. The receiver of a call is evaluated before its arguments and a left operand before a
right one. `&&` and `||` look at their right operand only if they have to. An array is allocated
before its elements are evaluated, and arguments past the fixed parameters of a method of the
unit go into an array that is allocated after the fixed ones.

An expression can neither change a variable nor run forever, so `Activation.eval` takes the
variables as they are and is total. Only loops may run forever. `Activation.exec` counts the
rounds of each loop and gives up after `fuel` of them, and a body ends if some amount of fuel is
enough for it.

## Calls

The static type of the receiver says whether a method of the unit answers a call, as it does
when the tree is checked. A call without a receiver, or on `this`, is made on the class if the
method is static and on the object otherwise. A method the unit lacks is taken for an inherited
one if there is a superclass, and for a function of the class if there is none.
-/

namespace Tricode

namespace Eval

/-! ## Operators -/

/-- The right operand is evaluated only when the left one is true. -/
def and (lhs rhs : Eval Value) : Eval Value := do
  let l ← lhs
  if ← test l then rhs else pure (.bool false)

/-- The right operand is evaluated only when the left one is false. -/
def or (lhs rhs : Eval Value) : Eval Value := do
  let l ← lhs
  if ← test l then pure (.bool true) else rhs

/-- An operator on operands that are not evaluated yet. -/
def binary (op : BinOp) (lhs rhs : Eval Value) : Eval Value :=
  match op with
  | .and => and lhs rhs
  | .or => or lhs rhs
  | .lt | .gt | .add | .sub | .mul | .div | .rem => do
    let l ← lhs
    let r ← rhs
    operate op l r

/-! ## Lists of expressions -/

/-- Values one after another. -/
def inOrder : List (Eval Value) → Eval (List Value)
  | [] => pure []
  | x :: xs => do
    let v ← x
    let vs ← inOrder xs
    pure (v :: vs)

/-- Each value is stored before the next is evaluated, from the given index on. -/
def fill (array : Value) : Nat → List (Eval Value) → Eval Unit
  | _, [] => pure ()
  | i, x :: xs => do
    let v ← x
    update array (.int (Int32.ofNat i)) v
    fill array (i + 1) xs

/-- A fresh array with the given elements. -/
def packed (elem : Ty) (elements : List (Eval Value)) : Eval Value := do
  let array ← allocateLength elem elements.length
  fill array 0 elements
  pure array

end Eval

namespace Signature

/-- The element type of the array that trailing arguments are packed into, if a call with `count`
arguments packs any. As many arguments as parameters hand over the array itself. -/
def packs (sig : Signature) (count : Nat) : Option Ty :=
  if count = sig.params.length then none else sig.varargsElement

variable {sig : Signature} {count : Nat} {elem : Ty}

theorem packs_eq_some :
    sig.packs count = some elem ↔ count ≠ sig.params.length ∧ sig.varargsElement = some elem := by
  unfold packs
  split <;> simp [*]

theorem packs_eq_none (hvar : sig.hasVarargs = true → ∃ elem, sig.varargsElement = some elem)
    (h : sig.packs count = none) : sig.hasVarargs = false ∨ count = sig.params.length := by
  unfold packs at h
  split at h
  · exact .inr ‹_›
  · refine .inl (Bool.eq_false_iff.mpr fun hhas ↦ ?_)
    obtain ⟨elem, helem⟩ := hvar hhas
    rw [h] at helem
    cases helem

theorem hasVarargs_of_varargsElement (h : sig.varargsElement = some elem) :
    sig.hasVarargs = true := by
  cases hhas : sig.hasVarargs with
  | true => rfl
  | false => simp [varargsElement, varargsSlot, hhas] at h

end Signature

/-- The arguments a method receives. -/
def Eval.arguments (callee : Option Signature) (args : List (Eval Value)) : Eval (List Value) :=
  match callee with
  | none => inOrder args
  | some sig =>
    match sig.packs args.length with
    | none => inOrder args
    | some elem => do
      let fixed ← inOrder (args.take sig.fixedArity)
      let rest ← packed elem (args.drop sig.fixedArity)
      pure (fixed ++ [rest])

/-- The method of the unit that answers a call on `receiver`. -/
def Scope.callee? (s : Scope) (receiver : Expr) (method : String) : Option Signature :=
  if s.table.responder (s.typeOf receiver) = .own then s.table.method? method else none

theorem Scope.method?_of_callee? {s : Scope} {receiver : Expr} {method : String}
    {sig : Signature} (h : s.callee? receiver method = some sig) :
    s.table.method? method = some sig := by
  unfold callee? at h
  split at h
  · exact h
  · cases h

/-! ## Expressions -/

/-- A method that runs: the names its body sees, who answers its calls, and the object it runs
on. -/
structure Activation where
  scope : Scope
  oracle : Oracle
  self : Value

namespace Activation

/-- The value of a name: of a field, of a variable, or a class. -/
def readVar (a : Activation) (store : Store) (name : String) : Eval Value :=
  match a.scope.lookup name with
  | .stored .field _ => Eval.getField name
  | .stored _ _ => pure (store name)
  | .imported => pure (.classRef name)
  | .unbound => throw .stuck

/-- What a call without a receiver is made on. -/
def ownReceiver (a : Activation) (method : String) : Receiver :=
  let onClass := match a.scope.table.method? method with
    | some sig => sig.isStatic
    | none => a.scope.table.superclass.isNone
  if onClass then .ofClass a.scope.table.className else .object a.self

/-- What a call on `receiver` is made on, where `value` evaluates it. -/
def receiver (a : Activation) (receiver : Expr) (value : Eval Value) (method : String) :
    Eval Receiver :=
  match receiver with
  | .this _ => pure (a.ownReceiver method)
  | .var _ name =>
    if a.scope.lookup name = .imported then pure (.ofClass name)
    else do
      let v ← value
      pure (.object v)
  | _ => do
    let v ← value
    pure (.object v)

/-- An object is allocated, and then its constructor is called on it. -/
def create (a : Activation) (className : String) : Eval Value := do
  let object ← Eval.ask a.oracle (.new className)
  let _ ← Eval.ask a.oracle (.call (.object object) "<init>" [])
  pure object

/-- A call, once it is known what answers it. -/
def call (a : Activation) (receiver : Eval Receiver) (callee : Option Signature)
    (method : String) (args : List (Eval Value)) : Eval Value := do
  let r ← receiver
  let values ← Eval.arguments callee args
  Eval.ask a.oracle (.call r method values)

mutual

/-- The meaning of an expression: its parts are evaluated from left to right, with the variables as
`store` has them. -/
def eval (a : Activation) (store : Store) : Expr → Eval Value
  | .lit _ value => pure (.ofLiteral value)
  | .this _ => pure a.self
  | .var _ name => a.readVar store name
  | .not _ operand => do
    let v ← a.eval store operand
    Eval.negate v
  | .binary _ op lhs rhs => Eval.binary op (a.eval store lhs) (a.eval store rhs)
  | .index _ array index => do
    let base ← a.eval store array
    let i ← a.eval store index
    Eval.load base i
  | .array _ elements => Eval.packed (a.scope.literalElement elements) (a.evalEach store elements)
  | .newArray _ elem size => do
    let n ← a.eval store size
    Eval.allocate elem.resolve n
  | .newObject _ className => a.create className
  | .length _ array => do
    let base ← a.eval store array
    Eval.length base
  | .call _ method args =>
    a.call (pure (a.ownReceiver method)) (a.scope.table.method? method) method
      (a.evalEach store args)
  | .callOn _ receiver method args =>
    a.call (a.receiver receiver (a.eval store receiver) method) (a.scope.callee? receiver method)
      method (a.evalEach store args)

def evalEach (a : Activation) (store : Store) : List Expr → List (Eval Value)
  | [] => []
  | e :: es => a.eval store e :: a.evalEach store es

end

theorem evalEach_eq_map (a : Activation) (store : Store) (es : List Expr) :
    a.evalEach store es = es.map (a.eval store) := by
  induction es with
  | nil => rfl
  | cons e es ih => rw [evalEach, ih, List.map_cons]

end Activation

/-! ## Statements -/

/-- Why a statement does not go on to the next one. -/
inductive Stop where
  | returned (value : Option Value)
  | trapped (trap : Trap)
  | outOfFuel
  deriving DecidableEq, Repr

/-- An action on the whole state of a method. -/
abbrev Run := Action Stop State

namespace Run

variable {α : Type}

/-- An expression leaves the variables alone. -/
def ofEval (ev : Store → Eval α) : Run α := fun st ↦
  match (ev st.store).runFrom st.world with
  | (.ok a, w) => (.ok a, { st with world := w })
  | (.error trap, w) => (.error (.trapped trap), { st with world := w })

theorem runFrom_ofEval (ev : Store → Eval α) (st : State) :
    (ofEval ev).runFrom st =
      match (ev st.store).runFrom st.world with
      | (.ok a, w) => (.ok a, { st with world := w })
      | (.error trap, w) => (.error (.trapped trap), { st with world := w }) := rfl

/-- A variable is given a value. -/
def assign (name : String) (value : Value) : Run Unit :=
  modify fun st ↦ { st with store := fun other ↦ if other = name then value else st.store other }

/-- Rounds of a loop, at most `fuel` of them. -/
def loop (test : Run Bool) (body : Run Unit) : Nat → Run Unit
  | 0 => do
    if ← test then throw .outOfFuel
  | fuel + 1 => do
    if ← test then
      body
      loop test body fuel

end Run

namespace Activation

/-- The outcome of a condition. -/
def evalTest (a : Activation) (cond : Expr) : Run Bool :=
  .ofEval fun store ↦ do
    let v ← a.eval store cond
    Eval.test v

/-- A field or a variable is given a value. Nothing else can be assigned to. -/
def writeVar (a : Activation) (name : String) (value : Value) : Run Unit :=
  match a.scope.lookup name with
  | .stored .field _ => .ofEval fun _ ↦ Eval.putField name value
  | .stored _ _ => .assign name value
  | .imported | .unbound => throw (.trapped .stuck)

/-- The array is looked up first, and written after index and value are there. -/
def writeElement (a : Activation) (name : String) (index value : Expr) : Run Unit :=
  .ofEval fun store ↦ do
    let array ← a.readVar store name
    let i ← a.eval store index
    let v ← a.eval store value
    Eval.update array i v

mutual

/-- The meaning of a statement, with at most `fuel` rounds for each run of a loop. -/
def exec (a : Activation) (fuel : Nat) : Stmt → Run Unit
  | .block _ stmts => a.execAll fuel stmts
  | .ifElse _ cond thenBranch elseBranch => do
    if ← a.evalTest cond then a.exec fuel thenBranch else a.exec fuel elseBranch
  | .whileLoop _ cond body => .loop (a.evalTest cond) (a.exec fuel body) fuel
  | .eval _ expr => do
    let _ ← Run.ofEval fun store ↦ a.eval store expr
  | .assign _ target value => do
    let v ← Run.ofEval fun store ↦ a.eval store value
    a.writeVar target v
  | .store _ target index value => a.writeElement target index value
  | .ret _ none => throw (.returned none)
  | .ret _ (some value) => do
    let v ← Run.ofEval fun store ↦ a.eval store value
    throw (.returned (some v))

/-- Statements run one after another, up to the first one that stops. -/
def execAll (a : Activation) (fuel : Nat) : List Stmt → Run Unit
  | [] => pure ()
  | stmt :: stmts => do
    a.exec fuel stmt
    a.execAll fuel stmts

end

/-! ## Bodies -/

/-- How a body ends and what it leaves behind, unless the fuel gives out. A body that runs to its
end returns no value. -/
def runBody (a : Activation) (fuel : Nat) (body : List Stmt) (st : State) :
    Option (Ending × State) :=
  match (a.execAll fuel body).runFrom st with
  | (.ok (), st') => some (.returned none, st')
  | (.error (.returned value), st') => some (.returned value, st')
  | (.error (.trapped trap), st') => some (.trapped trap, st')
  | (.error .outOfFuel, _) => none

end Activation

/-- The method at place `i` of the program, run on `self` from `st`, ends with `ending` in the
state `st'`. -/
def Program.Terminates (p : Program) (i : Nat) (oracle : Oracle) (self : Value) (st : State)
    (ending : Ending) (st' : State) : Prop :=
  ∃ m, p.decl.methods[i]? = some m ∧
    ∃ fuel, Activation.runBody ⟨⟨p.table, m.signature⟩, oracle, self⟩ fuel m.body st =
      some (ending, st')

end Tricode
