import Tricode.Ty

/-!
# Values, memory and traps

What a running method acts on, apart from its own variables: the fields of the object it runs on
and a heap of arrays. Trees and three-address code are given their meanings over the same memory,
so that the two can be compared.

Nothing is known of the methods a body calls. An `Oracle` answers for them: it sees what is
called, with which arguments, the fields and the heap, and it may change fields and heap in any
way. It never sees the variables of the caller, and its answers are recorded nowhere but in the
list of calls a `World` keeps.

## Traps

An operation that has no result stops the method with a `Trap`. What was done before the trap
stays done, so an `Action` leaves a state behind in either case.
-/

namespace Tricode

/-! ## Actions -/

/-- A computation that may stop early, and that leaves a state behind either way. -/
abbrev Action (ε σ : Type) := ExceptT ε (StateM σ)

namespace Action

variable {ε σ α β : Type}

/-- The outcome of an action from a given state, and the state after it. -/
def runFrom (x : Action ε σ α) (s : σ) : Except ε α × σ := x.run.run s

@[simp] theorem runFrom_pure (a : α) (s : σ) :
    (pure a : Action ε σ α).runFrom s = (.ok a, s) := rfl

@[simp] theorem runFrom_throw (e : ε) (s : σ) :
    (throw e : Action ε σ α).runFrom s = (.error e, s) := rfl

theorem runFrom_bind (x : Action ε σ α) (f : α → Action ε σ β) (s : σ) :
    (x >>= f).runFrom s =
      match x.runFrom s with
      | (.ok a, s') => (f a).runFrom s'
      | (.error e, s') => (.error e, s') := by
  rw [runFrom, ExceptT.run_bind, StateT.run_bind, runFrom]
  rcases h : x.run.run s with ⟨_ | a, s'⟩ <;> simp_all <;> rfl

end Action

/-! ## Values and memory -/

/-- What variables, fields and elements hold. -/
inductive Value where
  | null
  | int (n : Int32)
  | bool (b : Bool)
  /-- An array, by its place in the heap. -/
  | array (address : Nat)
  | object (id : Nat)
  /-- An imported class named where a value is asked for. -/
  | classRef (name : String)
  deriving DecidableEq, Repr

namespace Value

/-- The value of a literal. -/
def ofLiteral : Literal → Value
  | .int n => int n
  | .bool b => bool b

end Value

/-- What a fresh array of elements of type `t` holds. -/
def Ty.initial (t : Ty) : Value :=
  if t.isInt then .int 0 else if t.isBoolean then .bool false else .null

/-- The fields of the object a method runs on, and all arrays. -/
structure Memory where
  fields : String → Value
  heap : List (List Value)

/-! ## Calls -/

/-- What a call is made on. -/
inductive Receiver where
  | ofClass (name : String)
  | object (value : Value)
  deriving DecidableEq, Repr

/-- What a method asks of the world outside. -/
inductive Request where
  /-- Allocation of an object, without its constructor. -/
  | new (className : String)
  | call (receiver : Receiver) (method : String) (args : List Value)
  deriving DecidableEq, Repr

/-- Everything outside the method that runs. -/
abbrev Oracle := Request → Memory → Value × Memory

/-- The memory, and the calls made so far, oldest first. -/
structure World where
  memory : Memory
  calls : List Request

/-! ## Operations -/

/-- Why an operation has no result. -/
inductive Trap where
  | divisionByZero
  | badOperand
  | notBoolean
  | notArray
  | badIndex
  | badSize
  /-- A name without a meaning, or code without a next instruction. -/
  | stuck
  deriving DecidableEq, Repr

/-- An action on the world that may trap. -/
abbrev Eval := Action Trap World

namespace Eval

/-- The value of a condition. -/
def test : Value → Eval Bool
  | .bool b => pure b
  | _ => throw .notBoolean

/-- The negation of a truth value. -/
def negate : Value → Eval Value
  | .bool b => pure (.bool !b)
  | _ => throw .badOperand

/-- An operator on two integers. Results wrap around at 32 bits. Logical operators are control
flow and not operations. -/
def operate (op : BinOp) : Value → Value → Eval Value
  | .int l, .int r =>
    match op with
    | .add => pure (.int (l + r))
    | .sub => pure (.int (l - r))
    | .mul => pure (.int (l * r))
    | .div => if r = 0 then throw .divisionByZero else pure (.int (l / r))
    | .rem => if r = 0 then throw .divisionByZero else pure (.int (l % r))
    | .lt => pure (.bool (l < r))
    | .gt => pure (.bool (r < l))
    | .and | .or => throw .badOperand
  | _, _ => throw .badOperand

/-- The value of a field of the object the method runs on. -/
def getField (name : String) : Eval Value := do
  let w ← get
  pure (w.memory.fields name)

/-- A field of the object the method runs on is given a value. -/
def putField (name : String) (value : Value) : Eval Unit :=
  modify fun w ↦ { w with memory := { w.memory with
    fields := fun other ↦ if other = name then value else w.memory.fields other } }

/-- The address and the elements of an array. -/
def arrayAt (array : Value) : Eval (Nat × List Value) := do
  let w ← get
  match array with
  | .array address =>
    match w.memory.heap[address]? with
    | some elements => pure (address, elements)
    | none => throw .notArray
  | _ => throw .notArray

/-- An index into an array of the given length. -/
def position (length : Nat) : Value → Eval Nat
  | .int n => if 0 ≤ n.toInt ∧ n.toInt < length then pure n.toInt.toNat else throw .badIndex
  | _ => throw .badIndex

/-- One element of an array. -/
def load (array index : Value) : Eval Value := do
  let (_, elements) ← arrayAt array
  let i ← position elements.length index
  pure (elements.getD i .null)

/-- One element of an array is given a value. -/
def update (array index value : Value) : Eval Unit := do
  let (address, elements) ← arrayAt array
  let i ← position elements.length index
  modify fun w ↦ { w with memory := { w.memory with
    heap := w.memory.heap.set address (elements.set i value) } }

/-- The length of an array. -/
def length (array : Value) : Eval Value := do
  let (_, elements) ← arrayAt array
  pure (.int (Int32.ofNat elements.length))

/-- A fresh array of `n` elements. -/
def allocateLength (elem : Ty) (n : Nat) : Eval Value :=
  modifyGet fun w ↦ (.array w.memory.heap.length,
    { w with memory := { w.memory with heap := w.memory.heap ++ [List.replicate n elem.initial] } })

/-- A fresh array of as many elements as `size` says. -/
def allocate (elem : Ty) (size : Value) : Eval Value :=
  match size with
  | .int n => if 0 ≤ n.toInt then allocateLength elem n.toInt.toNat else throw .badSize
  | _ => throw .badSize

/-- The oracle's answer to a request, which is recorded. -/
def ask (oracle : Oracle) (request : Request) : Eval Value :=
  modifyGet fun w ↦ ((oracle request w.memory).1,
    ⟨(oracle request w.memory).2, w.calls ++ [request]⟩)

/-! ## Facts about operations -/

/-- A comparison of integers is a truth value, so testing it loses nothing. -/
theorem operate_test {op : BinOp} (h : op.opClass = .relational) (l r : Value) :
    (do let v ← operate op l r; let b ← test v; pure (.bool b)) = operate op l r := by
  cases op with
  | lt | gt => cases l <;> cases r <;> simp [operate, test]
  | _ => cases h

theorem allocate_ofNat (elem : Ty) {n : Nat} (h : n < 2147483648) :
    allocate elem (.int (Int32.ofNat n)) = allocateLength elem n := by
  have hn : (Int32.ofNat n).toInt = n := Int32.toInt_ofNat_of_lt h
  rw [allocate, hn, if_pos (Int.natCast_nonneg n), Int.toNat_natCast]

end Eval

/-! ## States and endings -/

/-- The values of parameters and local variables, by name. -/
abbrev Store := String → Value

/-- What the body of a method acts on: its variables, and the world outside. -/
structure State where
  store : Store
  world : World

/-- How a method ends. -/
inductive Ending where
  | returned (value : Option Value)
  | trapped (trap : Trap)
  deriving DecidableEq, Repr

end Tricode
