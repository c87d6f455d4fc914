import Tricode.Syntax

/-!
# Building class trees

For front ends that build a tree directly: nodes start at the origin and are given their position
afterwards, and declarations start empty and are added to.
-/

namespace Tricode

namespace Expr

/-- The expression at another position. Its parts stay where they are. -/
def withPos (e : Expr) (pos : Position) : Expr :=
  match e with
  | lit _ value => lit pos value
  | this _ => this pos
  | var _ name => var pos name
  | not _ operand => not pos operand
  | binary _ op lhs rhs => binary pos op lhs rhs
  | index _ base idx => index pos base idx
  | array _ elements => array pos elements
  | newArray _ elem size => newArray pos elem size
  | newObject _ className => newObject pos className
  | length _ base => length pos base
  | call _ method args => call pos method args
  | callOn _ receiver method args => callOn pos receiver method args

@[simp] theorem pos_withPos (e : Expr) (pos : Position) : (e.withPos pos).pos = pos := by
  cases e <;> rfl

end Expr

namespace Stmt

/-- The statement at another position. Its parts stay where they are. -/
def withPos (stmt : Stmt) (pos : Position) : Stmt :=
  match stmt with
  | block _ stmts => block pos stmts
  | ifElse _ cond thenBranch elseBranch => ifElse pos cond thenBranch elseBranch
  | whileLoop _ cond body => whileLoop pos cond body
  | eval _ expr => eval pos expr
  | assign _ target value => assign pos target value
  | store _ target index value => store pos target index value
  | ret _ value => ret pos value

@[simp] theorem pos_withPos (stmt : Stmt) (pos : Position) : (stmt.withPos pos).pos = pos := by
  cases stmt <;> rfl

/-- An expression as a statement, at its own position. -/
def ofExpr (e : Expr) : Stmt := eval e.pos e

end Stmt

namespace MethodDecl

/-- A public method without parameters, locals and statements. -/
def empty (name : String) (returnType : TypeExpr) : MethodDecl where
  name := name
  isPublic := true
  isStatic := false
  returnType := returnType
  params := []
  varargs := none
  locals := []
  body := []
  pos := .origin

/-- The entry point of a program, with an empty body. -/
def main : MethodDecl :=
  { empty "main" .void with
    isStatic := true
    params := [⟨.array .string, "args", .origin⟩] }

/-- A parameter after the others. -/
def addParam (m : MethodDecl) (d : VarDecl) : MethodDecl := { m with params := m.params ++ [d] }

/-- A local variable after the others. -/
def addLocal (m : MethodDecl) (d : VarDecl) : MethodDecl := { m with locals := m.locals ++ [d] }

/-- A statement at the end of the body. -/
def addStmt (m : MethodDecl) (stmt : Stmt) : MethodDecl := { m with body := m.body ++ [stmt] }

end MethodDecl

namespace ClassDecl

/-- A class without superclass and members. -/
def empty (name : String) : ClassDecl := ⟨name, none, [], [], .origin⟩

/-- A field after the others. -/
def addField (c : ClassDecl) (d : VarDecl) : ClassDecl := { c with fields := c.fields ++ [d] }

/-- A method after the others. -/
def addMethod (c : ClassDecl) (m : MethodDecl) : ClassDecl :=
  { c with methods := c.methods ++ [m] }

end ClassDecl

namespace Program

/-- An import of a dotted path, after the others. -/
def addImport (p : Program) (path : String) (pos : Position) : Program :=
  { p with imports := p.imports ++ [⟨path.splitOn ".", pos⟩] }

end Program

end Tricode
