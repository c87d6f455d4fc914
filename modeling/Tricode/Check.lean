import Tricode.Typing

/-!
# Checking a unit

Every rule runs, and each adds its own diagnostics: uniqueness of declarations, the shape of
methods, and the statements of each body. The faults of the expressions in a body are listed
after those of its statements; the final sort by position keeps that order where positions
coincide.
-/

namespace Tricode

open Diagnostic (error warning require)

/-! ## Declarations -/

/-- The members of a list that come after another of the same name. -/
def repeated {α : Type} (name : α → String) (xs : List α) : List α :=
  go [] xs
where
  go (seen : List String) : List α → List α
    | [] => []
    | x :: xs => if seen.contains (name x) then x :: go seen xs else go (name x :: seen) xs

namespace Program

/-- No two imports bring in the same name, and the class is not called like one of them. -/
def importProblems (p : Program) : List Diagnostic :=
  ((repeated Import.name p.imports).map fun i ↦ error i.pos (.duplicateImport i.name)) ++
    require (!(p.imports.map Import.name).contains p.decl.name) p.decl.pos
      (.classNamedLikeImport p.decl.name)

/-- No two fields have the same name. -/
def fieldProblems (p : Program) : List Diagnostic :=
  (repeated VarDecl.name p.decl.fields).map fun f ↦ error f.pos (.duplicateField f.name)

end Program

namespace MethodDecl

/-- Only `main` is static, and it takes the arguments of the program. -/
def shapeProblems (m : MethodDecl) : List Diagnostic :=
  if m.name == "main" then
    require m.isStatic m.pos .mainNotStatic ++
      require (!m.signature.hasVarargs && m.signature.params == [⟨"args", Ty.string.arrayOf⟩])
        m.pos .mainParameters
  else require (!m.isStatic) m.pos (.staticNonMain m.name)

/-- No two parameters have the same name, and no two local variables. A local variable may be
called like a parameter. -/
def declarationProblems (m : MethodDecl) : List Diagnostic :=
  ((repeated VarDecl.name (m.params ++ m.varargs.toList)).map fun d ↦
      error d.pos (.duplicateParam d.name)) ++
    (repeated VarDecl.name m.locals).map fun d ↦ error d.pos (.duplicateLocal d.name)

end MethodDecl

/-! ## Statements -/

/-- The statement right after the first return of a list. -/
def firstUnreachable (stmts : List Stmt) : Option Stmt :=
  (stmts.dropWhile fun stmt ↦ !stmt.isReturn)[1]?

/-- One warning for a list that goes on after a return, at the first statement behind it. -/
def unreachableWarnings (stmts : List Stmt) : List Diagnostic :=
  (firstUnreachable stmts).toList.map fun stmt ↦ warning stmt.pos .unreachableCode

namespace Scope

/-- The condition of the given construct is a truth value. An array has a message of its own. -/
def conditionProblems (s : Scope) (construct : String) (cond : Expr) : List Diagnostic :=
  let ty := s.typeOf cond
  if ty.accepts .boolean then []
  else if ty.isArray then [error cond.pos (.arrayAsCondition construct)]
  else [error cond.pos (.conditionNotBoolean construct ty)]

/-- The value fits the storage it is assigned to. -/
def assignProblems (s : Scope) (target : String) (value : Expr) : List Diagnostic :=
  require (Ty.assignable s.table.env (s.targetTy target) (s.typeOf value)) value.pos
    (.incompatibleAssignment target (s.targetTy target) (s.typeOf value))

/-- The index is an integer, the target is an array, and the value fits its elements. -/
def storeProblems (s : Scope) (pos : Position) (target : String) (index value : Expr) :
    List Diagnostic :=
  let array := s.targetTy target
  require ((s.typeOf index).accepts .int) index.pos (.indexNotInt (s.typeOf index)) ++
    if array.isAny then []
    else if array.isArray then
      require (Ty.assignable s.table.env array.element (s.typeOf value)) value.pos
        (.incompatibleAssignment (target ++ "[]") array.element (s.typeOf value))
    else [error pos (.notAnArray target)]

/-- A method with a result returns values that fit it, and one without returns none. -/
def returnProblems (s : Scope) (pos : Position) (value : Option Expr) : List Diagnostic :=
  let expected := s.method.returnType
  match value with
  | some value =>
    if expected.isVoid then [error pos (.voidReturnsValue s.method.name)]
    else require (Ty.assignable s.table.env expected (s.typeOf value)) value.pos
      (.returnType expected (s.typeOf value))
  | none => require expected.isVoid pos (.missingReturnValue expected)

mutual

/-- Faults of a statement that are not faults of its expressions. -/
def stmtProblems (s : Scope) : Stmt → List Diagnostic
  | .block _ stmts => unreachableWarnings stmts ++ s.stmtsProblems stmts
  | .ifElse _ cond thenBranch elseBranch =>
    s.conditionProblems "if" cond ++ s.stmtProblems thenBranch ++ s.stmtProblems elseBranch
  | .whileLoop _ cond body => s.conditionProblems "while" cond ++ s.stmtProblems body
  | .eval _ _ => []
  | .assign _ target value => s.assignProblems target value
  | .store pos target index value => s.storeProblems pos target index value
  | .ret pos value => s.returnProblems pos value

def stmtsProblems (s : Scope) : List Stmt → List Diagnostic
  | [] => []
  | stmt :: stmts => s.stmtProblems stmt ++ s.stmtsProblems stmts

end

mutual

/-- Faults of the expressions of a statement. -/
def exprProblems (s : Scope) : Stmt → List Diagnostic
  | .block _ stmts => s.exprsProblems stmts
  | .ifElse _ cond thenBranch elseBranch =>
    s.problems cond ++ s.exprProblems thenBranch ++ s.exprProblems elseBranch
  | .whileLoop _ cond body => s.problems cond ++ s.exprProblems body
  | .eval _ expr => s.problems expr
  | .assign pos target value => s.problems value ++ s.targetProblems pos target
  | .store pos target index value =>
    s.targetProblems pos target ++ s.problems index ++ s.problems value
  | .ret _ value => value.elim [] s.problems

def exprsProblems (s : Scope) : List Stmt → List Diagnostic
  | [] => []
  | stmt :: stmts => s.exprProblems stmt ++ s.exprsProblems stmts

end

/-- All faults of a body: those of its statements, and then those of its expressions. -/
def bodyProblems (s : Scope) (body : List Stmt) : List Diagnostic :=
  unreachableWarnings body ++ s.stmtsProblems body ++ s.exprsProblems body

theorem stmtsProblems_eq_flatMap (s : Scope) (stmts : List Stmt) :
    s.stmtsProblems stmts = stmts.flatMap s.stmtProblems := by
  induction stmts with
  | nil => rfl
  | cons stmt stmts ih => rw [stmtsProblems, ih, List.flatMap_cons]

theorem exprsProblems_eq_flatMap (s : Scope) (stmts : List Stmt) :
    s.exprsProblems stmts = stmts.flatMap s.exprProblems := by
  induction stmts with
  | nil => rfl
  | cons stmt stmts ih => rw [exprsProblems, ih, List.flatMap_cons]

end Scope

/-! ## The unit -/

/-- Everything checked of one method apart from the uniqueness of its name. -/
def MethodDecl.problems (t : Table) (m : MethodDecl) : List Diagnostic :=
  m.shapeProblems ++ m.declarationProblems ++ Scope.bodyProblems ⟨t, m.signature⟩ m.body

namespace Program

/-- The faults of the methods in order; one that repeats a name is reported at its turn. -/
def methodProblems (p : Program) : List Diagnostic :=
  go [] p.decl.methods
where
  go (seen : List String) : List MethodDecl → List Diagnostic
    | [] => []
    | m :: ms =>
      require (!seen.contains m.name) m.pos (.duplicateMethod m.name) ++
        m.problems p.table ++ go (m.name :: seen) ms

/-- All diagnostics of a unit, in reading order. -/
def check (p : Program) : List Diagnostic :=
  Diagnostic.sort (p.importProblems ++ p.fieldProblems ++ p.methodProblems)

end Program

end Tricode
