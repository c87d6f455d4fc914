import Tricode.Syntax

/-!
# Constant folding

A subexpression made of literals is replaced by its value, at its own position. Nothing is folded
whose value a running program would not reach: division by zero and results outside 32 bits are
left in place. A conjunction or disjunction is decided by a literal left operand alone, as it is
when it runs, and then its right operand is dropped unseen. A branch on a literal is replaced by
the branch taken, and a loop that never runs by an empty block.

Beside each pass stands the count of the nodes it replaces. Dropping an operand or a branch
replaces one node, whatever is inside.
-/

namespace Tricode

/-! ## Arithmetic on literals -/

/-- The 32-bit integer with the value `n`, if there is one. -/
def checkedInt (n : Int) : Option Int32 :=
  if -2147483648 ≤ n ∧ n < 2147483648 then some (Int32.ofInt n) else none

namespace BinOp

/-- Division that rounds toward zero. -/
def quotient? (l r : Int32) : Option Int32 :=
  if r = 0 then none else checkedInt (l.toInt.tdiv r.toInt)

/-- The value of an operator on integers, unless it is undefined or outside 32 bits. -/
def evalInt (op : BinOp) (l r : Int32) : Option Literal :=
  match op with
  | add => (checkedInt (l.toInt + r.toInt)).map .int
  | sub => (checkedInt (l.toInt - r.toInt)).map .int
  | mul => (checkedInt (l.toInt * r.toInt)).map .int
  | div => (quotient? l r).map .int
  -- A remainder is as undefined as the quotient it belongs to.
  | rem => (quotient? l r).bind fun _ ↦ (checkedInt (l.toInt.tmod r.toInt)).map .int
  | lt => some (.bool (l < r))
  | gt => some (.bool (r < l))
  | and | or => none

/-- The value of an operator on truth values, which only logical operators have. -/
def evalBool (op : BinOp) (l r : Bool) : Option Literal :=
  match op with
  | and => some (.bool (l && r))
  | or => some (.bool (l || r))
  | _ => none

/-- The value of an operator on two literals, if it has one. -/
def eval (op : BinOp) : Literal → Literal → Option Literal
  | .int l, .int r => op.evalInt l r
  | .bool l, .bool r => op.evalBool l r
  | _, _ => none

/-- The value of an operator whose left operand alone settles it. -/
def decidedBy : BinOp → Literal → Option Literal
  | and, .bool false => some (.bool false)
  | or, .bool true => some (.bool true)
  | _, _ => none

/-- The value of an operator from what is known of its operands. -/
def reduce (op : BinOp) (lhs rhs : Option Literal) : Option Literal :=
  (lhs.bind op.decidedBy).or (lhs.bind fun l ↦ rhs.bind fun r ↦ op.eval l r)

end BinOp

/-! ## Expressions -/

namespace Expr

/-- A negation whose operand is folded already. -/
def foldedNot (pos : Position) (operand : Expr) : Expr :=
  match operand.bool? with
  | some b => lit pos (.bool !b)
  | none => not pos operand

/-- An operator whose operands are folded already. -/
def foldedBinary (pos : Position) (op : BinOp) (lhs rhs : Expr) : Expr :=
  match op.reduce lhs.literal? rhs.literal? with
  | some value => lit pos value
  | none => binary pos op lhs rhs

mutual

/-- The expression with every part replaced that has a value, innermost first. -/
def fold : Expr → Expr
  | lit pos value => lit pos value
  | this pos => this pos
  | var pos name => var pos name
  | not pos operand => foldedNot pos operand.fold
  | binary pos op lhs rhs => foldedBinary pos op lhs.fold rhs.fold
  | index pos base idx => index pos base.fold idx.fold
  | array pos elements => array pos (foldAll elements)
  | newArray pos elem size => newArray pos elem size.fold
  | newObject pos className => newObject pos className
  | length pos base => length pos base.fold
  | call pos method args => call pos method (foldAll args)
  | callOn pos receiver method args => callOn pos receiver.fold method (foldAll args)

def foldAll : List Expr → List Expr
  | [] => []
  | e :: es => e.fold :: foldAll es

end

theorem foldAll_eq_map (es : List Expr) : foldAll es = es.map fold := by
  induction es with
  | nil => rfl
  | cons e es ih => rw [foldAll, ih, List.map_cons]

mutual

/-- How many nodes `fold` replaces. -/
def foldCount : Expr → Nat
  | lit _ _ | this _ | var _ _ | newObject _ _ => 0
  | not _ operand => operand.foldCount + if operand.fold.bool?.isSome then 1 else 0
  | binary _ op lhs rhs =>
    lhs.foldCount +
      if (lhs.fold.literal?.bind op.decidedBy).isSome then 1
      else rhs.foldCount +
        if (op.reduce lhs.fold.literal? rhs.fold.literal?).isSome then 1 else 0
  | index _ base idx => base.foldCount + idx.foldCount
  | array _ elements => foldCountAll elements
  | newArray _ _ size => size.foldCount
  | length _ base => base.foldCount
  | call _ _ args => foldCountAll args
  | callOn _ receiver _ args => receiver.foldCount + foldCountAll args

def foldCountAll : List Expr → Nat
  | [] => 0
  | e :: es => e.foldCount + foldCountAll es

end

end Expr

/-! ## Statements -/

namespace Stmt

mutual

/-- The statement with its expressions folded, and without what a literal condition rules out. -/
def fold : Stmt → Stmt
  | block pos stmts => block pos (foldAll stmts)
  | ifElse pos cond thenBranch elseBranch =>
    match cond.fold.bool? with
    | some true => thenBranch.fold
    | some false => elseBranch.fold
    | none => ifElse pos cond.fold thenBranch.fold elseBranch.fold
  | whileLoop pos cond body =>
    match cond.fold.bool? with
    | some false => block pos []
    | _ => whileLoop pos cond.fold body.fold
  | eval pos expr => eval pos expr.fold
  | assign pos target value => assign pos target value.fold
  | store pos target index value => store pos target index.fold value.fold
  | ret pos value => ret pos (value.map Expr.fold)

def foldAll : List Stmt → List Stmt
  | [] => []
  | stmt :: stmts => stmt.fold :: foldAll stmts

end

theorem foldAll_eq_map (stmts : List Stmt) : foldAll stmts = stmts.map fold := by
  induction stmts with
  | nil => rfl
  | cons stmt stmts ih => rw [foldAll, ih, List.map_cons]

mutual

/-- How many nodes `fold` replaces. -/
def foldCount : Stmt → Nat
  | block _ stmts => foldCountAll stmts
  | ifElse _ cond thenBranch elseBranch =>
    cond.foldCount +
      match cond.fold.bool? with
      | some true => 1 + thenBranch.foldCount
      | some false => 1 + elseBranch.foldCount
      | none => thenBranch.foldCount + elseBranch.foldCount
  | whileLoop _ cond body =>
    cond.foldCount +
      match cond.fold.bool? with
      | some false => 1
      | _ => body.foldCount
  | eval _ expr => expr.foldCount
  | assign _ _ value => value.foldCount
  | store _ _ index value => index.foldCount + value.foldCount
  | ret _ value => value.elim 0 Expr.foldCount

def foldCountAll : List Stmt → Nat
  | [] => 0
  | stmt :: stmts => stmt.foldCount + foldCountAll stmts

end

end Stmt

/-! ## Programs -/

namespace Program

/-- The program with all its bodies folded. -/
def fold (p : Program) : Program := p.mapBodies fun m ↦ Stmt.foldAll m.body

/-- How many nodes `fold` replaces. -/
def foldCount (p : Program) : Nat :=
  p.decl.methods.foldr (fun m n ↦ Stmt.foldCountAll m.body + n) 0

end Program

end Tricode
