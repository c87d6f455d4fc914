import Tricode.Fold
import Tricode.Known

/-!
# Constant propagation

A read of a local variable whose value is known is replaced by that value. What is known after a
statement is the analysis `Stmt.after`; the pass `Stmt.propagate` carries it along the body and
substitutes.

Only declared locals are ever known: a field may change behind a call, and a parameter starts out
with any value. A value assigned to a local is folded on the spot, so that one known value leads
to the next. Where two branches meet, only what both agree on stays known. Whatever a loop
assigns is unknown from its head on, since the head is reached again after each round.
-/

namespace Tricode

namespace Expr

mutual

/-- The expression with known variables replaced by their values. -/
def substitute (k : Known) : Expr → Expr
  | lit pos value => lit pos value
  | this pos => this pos
  | var pos name =>
    match k.get? name with
    | some value => lit pos value
    | none => var pos name
  | not pos operand => not pos (operand.substitute k)
  | binary pos op lhs rhs => binary pos op (lhs.substitute k) (rhs.substitute k)
  | index pos base idx => index pos (base.substitute k) (idx.substitute k)
  | array pos elements => array pos (substituteAll k elements)
  | newArray pos elem size => newArray pos elem (size.substitute k)
  | newObject pos className => newObject pos className
  | length pos base => length pos (base.substitute k)
  | call pos method args => call pos method (substituteAll k args)
  | callOn pos receiver method args =>
    callOn pos (receiver.substitute k) method (substituteAll k args)

def substituteAll (k : Known) : List Expr → List Expr
  | [] => []
  | e :: es => e.substitute k :: substituteAll k es

end

theorem substituteAll_eq_map (k : Known) (es : List Expr) :
    substituteAll k es = es.map (substitute k) := by
  induction es with
  | nil => rfl
  | cons e es ih => rw [substituteAll, ih, List.map_cons]

mutual

/-- How many reads `substitute` replaces. -/
def knownReads (k : Known) : Expr → Nat
  | lit _ _ | this _ | newObject _ _ => 0
  | var _ name => if (k.get? name).isSome then 1 else 0
  | not _ operand => operand.knownReads k
  | binary _ _ lhs rhs => lhs.knownReads k + rhs.knownReads k
  | index _ base idx => base.knownReads k + idx.knownReads k
  | array _ elements => knownReadsAll k elements
  | newArray _ _ size => size.knownReads k
  | length _ base => base.knownReads k
  | call _ _ args => knownReadsAll k args
  | callOn _ receiver _ args => receiver.knownReads k + knownReadsAll k args

def knownReadsAll (k : Known) : List Expr → Nat
  | [] => 0
  | e :: es => e.knownReads k + knownReadsAll k es

end

end Expr

namespace Stmt

/-! ## The analysis -/

mutual

/-- The variables assigned anywhere inside a statement. -/
def assigned : Stmt → List String
  | block _ stmts => assignedAll stmts
  | ifElse _ _ thenBranch elseBranch => thenBranch.assigned ++ elseBranch.assigned
  | whileLoop _ _ body => body.assigned
  | assign _ target _ => [target]
  | eval _ _ | store _ _ _ _ | ret _ _ => []

def assignedAll : List Stmt → List String
  | [] => []
  | stmt :: stmts => stmt.assigned ++ assignedAll stmts

end

mutual

/-- What is known after a statement of a method with the given locals. -/
def after (locals : List String) (k : Known) : Stmt → Known
  | block _ stmts => afterAll locals k stmts
  | ifElse _ _ thenBranch elseBranch =>
    (thenBranch.after locals k).meet (elseBranch.after locals k)
  | whileLoop _ _ body => k.forget body.assigned
  | assign _ target value =>
    if locals.contains target then k.assign target (value.substitute k).fold.literal? else k
  | eval _ _ | store _ _ _ _ | ret _ _ => k

def afterAll (locals : List String) (k : Known) : List Stmt → Known
  | [] => k
  | stmt :: stmts => afterAll locals (stmt.after locals k) stmts

end

/-! ## The pass -/

mutual

/-- The statement with known values substituted, where `k` is what is known before it. -/
def propagate (locals : List String) (k : Known) : Stmt → Stmt
  | block pos stmts => block pos (propagateAll locals k stmts)
  | ifElse pos cond thenBranch elseBranch =>
    ifElse pos (cond.substitute k) (thenBranch.propagate locals k) (elseBranch.propagate locals k)
  | whileLoop pos cond body =>
    whileLoop pos (cond.substitute (k.forget body.assigned))
      (body.propagate locals (k.forget body.assigned))
  | eval pos expr => eval pos (expr.substitute k)
  | assign pos target value =>
    if locals.contains target then assign pos target (value.substitute k).fold
    else assign pos target (value.substitute k)
  | store pos target index value => store pos target (index.substitute k) (value.substitute k)
  | ret pos value => ret pos (value.map (Expr.substitute k))

def propagateAll (locals : List String) (k : Known) : List Stmt → List Stmt
  | [] => []
  | stmt :: stmts =>
    stmt.propagate locals k :: propagateAll locals (stmt.after locals k) stmts

end

mutual

/-- How many reads `propagate` replaces. -/
def knownReads (locals : List String) (k : Known) : Stmt → Nat
  | block _ stmts => knownReadsAll locals k stmts
  | ifElse _ cond thenBranch elseBranch =>
    cond.knownReads k + thenBranch.knownReads locals k + elseBranch.knownReads locals k
  | whileLoop _ cond body =>
    cond.knownReads (k.forget body.assigned) +
      body.knownReads locals (k.forget body.assigned)
  | eval _ expr => expr.knownReads k
  | assign _ _ value => value.knownReads k
  | store _ _ index value => index.knownReads k + value.knownReads k
  | ret _ value => value.elim 0 (Expr.knownReads k)

def knownReadsAll (locals : List String) (k : Known) : List Stmt → Nat
  | [] => 0
  | stmt :: stmts =>
    stmt.knownReads locals k + knownReadsAll locals (stmt.after locals k) stmts

end

end Stmt

namespace MethodDecl

/-- The names of the local variables, which are the only ones whose values are followed. -/
def localNames (m : MethodDecl) : List String := m.locals.map VarDecl.name

end MethodDecl

namespace Program

/-- The program with known values substituted. Nothing is known where a body starts. -/
def propagate (p : Program) : Program :=
  p.mapBodies fun m ↦ Stmt.propagateAll m.localNames .none m.body

/-- How many reads `propagate` replaces. -/
def knownReads (p : Program) : Nat :=
  p.decl.methods.foldr (fun m n ↦ Stmt.knownReadsAll m.localNames .none m.body + n) 0

/-- Both passes: known values first, so that folding sees them. -/
def optimize (p : Program) : Program := p.propagate.fold

end Program

end Tricode
