import Tricode.Code

/-!
# The lowering monad

Lowering draws numbers from four counters, one for temporaries and one for each family of
labels, and it may stop at a fault. The counters are shared by all methods of a unit, so that no
number is given out twice, and a number that was drawn stays drawn when a fault follows. For this
reason a step yields the new counters beside its outcome, not inside it.
-/

namespace Tricode

/-! ## Counters -/

/-- The next free number of each family. -/
structure Counters where
  temps : Nat
  ifs : Nat
  whiles : Nat
  conds : Nat
  deriving DecidableEq, Repr

namespace Counters

/-- No number is drawn yet. -/
def zero : Counters := ⟨0, 0, 0, 0⟩

instance : Inhabited Counters := ⟨zero⟩

end Counters

/-! ## Faults -/

/-- Why lowering stops: the tree uses a name or a value in a way that has no code. -/
inductive Fault where
  | undeclaredVariable (name : String) (pos : Position)
  | badTarget (name : String) (pos : Position)
  | notAnArray (name : String) (pos : Position)
  /-- An array literal with more elements than an index can count. -/
  | arrayTooLong
  /-- A call on a value that is not an object. -/
  | unclassifiableCall (method : String) (pos : Position)
  deriving DecidableEq, Repr

namespace Fault

/-- Where the fault is reported. An array literal that is too long has no place of its own. -/
def pos : Fault → Position
  | undeclaredVariable _ pos | badTarget _ pos | notAnArray _ pos
  | unclassifiableCall _ pos => pos
  | arrayTooLong => .origin

/-- The fault lies in the tree itself, not in the kind of a call. -/
def isInvalidTree : Fault → Bool
  | unclassifiableCall _ _ => false
  | _ => true

/-- The message for a fault of the tree itself. -/
def invalidTree (pos : Position) (reason : String) : String :=
  "invalid tree at " ++ pos.text ++ ": " ++ reason

/-- The fault as it is reported. -/
def message : Fault → String
  | undeclaredVariable name pos => invalidTree pos ("undeclared variable `" ++ name ++ "`")
  | badTarget name pos => invalidTree pos ("cannot assign to `" ++ name ++ "`")
  | notAnArray name pos => invalidTree pos ("`" ++ name ++ "` is not an array")
  | arrayTooLong => invalidTree .origin "array literal too long"
  | unclassifiableCall method pos =>
    "cannot classify call to `" ++ method ++ "` at " ++ pos.text

end Fault

/-! ## Steps -/

/-- A step of lowering, which may draw numbers and may stop at a fault. -/
abbrev Lower := ExceptT Fault (StateM Counters)

namespace Lower

/-- The outcome of a step from given counters, and the counters after it. -/
def runFrom {α : Type} (x : Lower α) (c : Counters) : Except Fault α × Counters := x.run.run c

@[simp] theorem runFrom_pure {α : Type} (a : α) (c : Counters) :
    (pure a : Lower α).runFrom c = (.ok a, c) := rfl

@[simp] theorem runFrom_throw {α : Type} (fault : Fault) (c : Counters) :
    (throw fault : Lower α).runFrom c = (.error fault, c) := rfl

theorem runFrom_bind {α β : Type} (x : Lower α) (f : α → Lower β) (c : Counters) :
    (x >>= f).runFrom c =
      match x.runFrom c with
      | (.ok a, c') => (f a).runFrom c'
      | (.error fault, c') => (.error fault, c') := by
  rw [runFrom, ExceptT.run_bind, StateT.run_bind, runFrom]
  rcases h : x.run.run c with ⟨_ | a, c'⟩ <;> simp_all <;> rfl

end Lower

/-- The number of a fresh temporary. -/
def freshTemp : Lower Nat :=
  modifyGet fun c ↦ (c.temps, { c with temps := c.temps + 1 })

/-- The number of a fresh conditional. -/
def freshIf : Lower Nat :=
  modifyGet fun c ↦ (c.ifs, { c with ifs := c.ifs + 1 })

/-- The number of a fresh loop. -/
def freshWhile : Lower Nat :=
  modifyGet fun c ↦ (c.whiles, { c with whiles := c.whiles + 1 })

/-- The number of a fresh comparison or logical operator. -/
def freshCond : Lower Nat :=
  modifyGet fun c ↦ (c.conds, { c with conds := c.conds + 1 })

@[simp] theorem runFrom_freshTemp (c : Counters) :
    freshTemp.runFrom c = (.ok c.temps, { c with temps := c.temps + 1 }) := rfl

@[simp] theorem runFrom_freshIf (c : Counters) :
    freshIf.runFrom c = (.ok c.ifs, { c with ifs := c.ifs + 1 }) := rfl

@[simp] theorem runFrom_freshWhile (c : Counters) :
    freshWhile.runFrom c = (.ok c.whiles, { c with whiles := c.whiles + 1 }) := rfl

@[simp] theorem runFrom_freshCond (c : Counters) :
    freshCond.runFrom c = (.ok c.conds, { c with conds := c.conds + 1 }) := rfl

end Tricode
