import Tricode.Lowering.Expr

/-!
# Lowering statements, methods and units

Statements become code alone. A conditional puts its else branch first and its then branch behind
a label; a comparison in a condition steers the jump itself and is never stored. A body that does
not end in a return is given one.

A unit is lowered against a table: the table names the methods and their types, and the bodies
are paired with its signatures in order.
-/

namespace Tricode

namespace Scope

/-- A jump on the value of an expression. -/
def lowerTruthy (s : Scope) (cond : Expr) : Lower (Cond × Code) := do
  let value ← s.lowerExpr cond (some .boolean)
  pure (.truthy value.operand, value.code)

/-- The condition of a jump, and the code before it. -/
def lowerCond (s : Scope) (cond : Expr) : Lower (Cond × Code) :=
  match cond with
  | .binary _ op lhs rhs =>
    if op.opClass = .relational then Lower.compare op (s.lowerExpr lhs) (s.lowerExpr rhs)
    else s.lowerTruthy cond
  | _ => s.lowerTruthy cond

/-- An expression run for its effects. The result of a call is dropped and so taken to be void;
of anything else only the code is kept. -/
def lowerEval (s : Scope) (pos : Position) (expr : Expr) : Lower Code :=
  match expr with
  | .call _ method args => do
    let (call, code) ← s.lowerCall (pure (s.ownDispatch method)) method args
      (s.lowerEach args) .void
    pure (code ++ [.call call])
  | .callOn _ receiver method args => do
    let (call, code) ← s.lowerCall (s.dispatch pos receiver (s.lowerExpr receiver) method) method
      args (s.lowerEach args) .void
    pure (code ++ [.call call])
  | expr => do
    let value ← s.lowerExpr expr none
    pure value.code

/-- An assignment to a field or a variable. A bad target is found before the value is lowered. -/
def lowerAssign (s : Scope) (pos : Position) (target : String) (value : Expr) : Lower Code :=
  match s.lookup target with
  | .stored storage symbol => do
    let value ← s.lowerExpr value (some symbol.ty)
    pure (value.code ++
      [if storage = .field then .putField target symbol.ty value.operand
        else .assign (.var target symbol.ty) symbol.ty (.use value.operand)])
  | .imported | .unbound => throw (.badTarget target pos)

/-- An assignment to an element, once array, index and value are computed in this order. -/
def lowerStore (s : Scope) (pos : Position) (target : String) (index value : Expr) :
    Lower Code := do
  let array ← s.lowerVar pos target
  if !array.operand.ty.isArray then throw (.notAnArray target pos)
  let elem := array.operand.ty.element
  let index ← s.lowerExpr index (some .int)
  let value ← s.lowerExpr value (some elem)
  pure (array.code ++ index.code ++ value.code ++
    [.assign (.element array.operand index.operand elem) elem (.use value.operand)])

/-- A return. Its value is expected to have the result type of the method. -/
def lowerReturn (s : Scope) (value : Option Expr) : Lower Code :=
  match value with
  | some value => do
    let value ← s.lowerExpr value (some s.method.returnType)
    pure (value.code ++ [.ret (some value.operand) s.method.returnType])
  | none => pure [.ret none .void]

mutual

/-- The code of a statement. -/
def lowerStmt (s : Scope) : Stmt → Lower Code
  | .block _ stmts => s.lowerStmts stmts
  | .ifElse _ cond thenBranch elseBranch => do
    let n ← freshIf
    let (cond, condCode) ← s.lowerCond cond
    let elseCode ← s.lowerStmt elseBranch
    let thenCode ← s.lowerStmt thenBranch
    pure (condCode ++
      [.branch cond (.numbered .ifBody n)] ++
      elseCode ++
      [.goto (.numbered .endIf n),
        .label (.numbered .ifBody n)] ++
      thenCode ++
      [.label (.numbered .endIf n)])
  | .whileLoop _ cond body => do
    let n ← freshWhile
    let (cond, condCode) ← s.lowerCond cond
    let bodyCode ← s.lowerStmt body
    pure ([.label (.numbered .loop n)] ++
      condCode ++
      [.branch cond (.numbered .whileBody n),
        .goto (.numbered .endWhile n),
        .label (.numbered .whileBody n)] ++
      bodyCode ++
      [.goto (.numbered .loop n),
        .label (.numbered .endWhile n)])
  | .eval pos expr => s.lowerEval pos expr
  | .assign pos target value => s.lowerAssign pos target value
  | .store pos target index value => s.lowerStore pos target index value
  | .ret _ value => s.lowerReturn value

def lowerStmts (s : Scope) : List Stmt → Lower Code
  | [] => pure []
  | stmt :: stmts => do
    let first ← s.lowerStmt stmt
    let rest ← s.lowerStmts stmts
    pure (first ++ rest)

end

end Scope

/-! ## Methods and units -/

/-- The code with a return at its end. -/
def Code.closed (code : Code) : Code :=
  if (code.getLast?.map Instruction.isReturn).getD false then code else code ++ [.ret none .void]

namespace Table

/-- A body lowered as that of the method `sig`. -/
def lowerMethod (t : Table) (sig : Signature) (body : List Stmt) : Lower MethodCode := do
  let code ← Scope.lowerStmts ⟨t, sig⟩ body
  pure {
    name := sig.name
    isPublic := sig.isPublic
    isStatic := sig.isStatic
    hasVarargs := sig.hasVarargs
    params := sig.params
    locals := sig.locals
    returnType := sig.returnType
    body := code.closed }

/-- Bodies and signatures in step, up to the end of the shorter list. -/
def lowerMethods (t : Table) : List MethodDecl → List Signature → Lower (List MethodCode)
  | m :: ms, sig :: sigs => do
    let first ← t.lowerMethod sig m.body
    let rest ← t.lowerMethods ms sigs
    pure (first :: rest)
  | _, _ => pure []

/-- The methods of `p` lowered against the table. -/
def lowerProgram (t : Table) (p : Program) : Lower ClassCode := do
  let methods ← t.lowerMethods p.decl.methods t.methods
  pure {
    className := t.className
    superclass := t.superclass
    imports := t.imports
    fields := t.fields
    methods := methods }

end Table

end Tricode
