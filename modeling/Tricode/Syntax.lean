import Tricode.Position

/-!
# Class trees

The tree a front end hands over: imports, then exactly one class with its fields and methods.
Each node of an expression or statement carries the position it was read at.

A call without a receiver and a call on a receiver are two forms, `Expr.call` and
`Expr.callOn`: the first is always a call on the class itself, while the second depends on the
type of an expression. Lists are the only place where a tree nests through another type, so a
function on expressions comes with one companion on lists.
-/

namespace Tricode

/-! ## Operators and literals -/

/-- A binary operator. -/
inductive BinOp where
  | add | sub | mul | div | rem
  | lt | gt
  | and | or
  deriving DecidableEq, Repr

/-- What a binary operator takes and gives: integers to an integer, integers to a truth value,
or truth values to a truth value. -/
inductive OpClass where
  | arithmetic | relational | logical
  deriving DecidableEq, Repr

namespace BinOp

/-- The class an operator belongs to. -/
def opClass : BinOp → OpClass
  | add | sub | mul | div | rem => .arithmetic
  | lt | gt => .relational
  | and | or => .logical

/-- The operator as it is written. -/
def symbol : BinOp → String
  | add => "+"
  | sub => "-"
  | mul => "*"
  | div => "/"
  | rem => "%"
  | lt => "<"
  | gt => ">"
  | and => "&&"
  | or => "||"

end BinOp

/-- The value of a literal: integers are 32 bits wide. -/
inductive Literal where
  | int (value : Int32)
  | bool (value : Bool)
  deriving DecidableEq, Repr

/-! ## Expressions and statements -/

/-- A type as it is written in the tree. -/
inductive TypeExpr where
  | int
  | boolean
  | void
  | string
  | array (elem : TypeExpr)
  /-- A bare identifier, taken for the name of a class. -/
  | named (name : String)
  deriving DecidableEq, Repr

/-- An expression. Every node has the position it was read at. -/
inductive Expr where
  | lit (pos : Position) (value : Literal)
  | this (pos : Position)
  /-- A bare identifier: a variable, a field or an imported class. -/
  | var (pos : Position) (name : String)
  | not (pos : Position) (operand : Expr)
  | binary (pos : Position) (op : BinOp) (lhs rhs : Expr)
  | index (pos : Position) (array index : Expr)
  | array (pos : Position) (elements : List Expr)
  | newArray (pos : Position) (elem : TypeExpr) (size : Expr)
  | newObject (pos : Position) (className : String)
  | length (pos : Position) (array : Expr)
  /-- A call without a receiver, on the class itself. -/
  | call (pos : Position) (method : String) (args : List Expr)
  | callOn (pos : Position) (receiver : Expr) (method : String) (args : List Expr)
  deriving Repr, Inhabited

/-- A statement. Local variables are declared by the method and not by a statement. -/
inductive Stmt where
  | block (pos : Position) (stmts : List Stmt)
  | ifElse (pos : Position) (cond : Expr) (thenBranch elseBranch : Stmt)
  | whileLoop (pos : Position) (cond : Expr) (body : Stmt)
  /-- An expression run for its effects. -/
  | eval (pos : Position) (expr : Expr)
  | assign (pos : Position) (target : String) (value : Expr)
  /-- A write to one element of an array variable. -/
  | store (pos : Position) (target : String) (index value : Expr)
  | ret (pos : Position) (value : Option Expr)
  deriving Repr, Inhabited

namespace Expr

/-- The position of the outermost node. -/
def pos : Expr → Position
  | lit pos _ | this pos | var pos _ | not pos _ | binary pos _ _ _ | index pos _ _
  | array pos _ | newArray pos _ _ | newObject pos _ | length pos _ | call pos _ _
  | callOn pos _ _ _ => pos

/-- The name of the form, as diagnostics about operands give it. -/
def formName : Expr → String
  | lit _ (.int _) => "IntegerLiteral"
  | lit _ (.bool _) => "BooleanLiteral"
  | this _ => "This"
  | var _ _ => "VarRef"
  | not _ _ => "Negation"
  | binary _ _ _ _ => "BinaryOp"
  | index _ _ _ => "ArrayAccess"
  | array _ _ => "ArrayLiteral"
  | newArray _ _ _ => "NewArray"
  | newObject _ _ => "NewObject"
  | length _ _ => "Length"
  | call _ _ _ | callOn _ _ _ _ => "MethodCall"

/-- The value of a literal. -/
def literal? : Expr → Option Literal
  | lit _ value => some value
  | _ => none

/-- The truth value of a boolean literal. -/
def bool? : Expr → Option Bool
  | lit _ (.bool b) => some b
  | _ => none

end Expr

namespace Stmt

/-- The position of the statement itself. -/
def pos : Stmt → Position
  | block pos _ | ifElse pos _ _ _ | whileLoop pos _ _ | eval pos _ | assign pos _ _
  | store pos _ _ _ | ret pos _ => pos

/-- The statement is a return, and does not merely contain one. -/
def isReturn : Stmt → Bool
  | ret _ _ => true
  | _ => false

end Stmt

/-! ## Declarations -/

/-- An import by its path, outermost segment first. -/
structure Import where
  path : List String
  pos : Position
  deriving DecidableEq, Repr

namespace Import

/-- The class an import brings in: the last segment of its path. -/
def name (i : Import) : String := i.path.getLast?.getD ""

/-- The dotted path. -/
def qualified (i : Import) : String := String.intercalate "." i.path

end Import

/-- A field, local variable or parameter. -/
structure VarDecl where
  ty : TypeExpr
  name : String
  pos : Position
  deriving DecidableEq, Repr

/-- A method with its body. -/
structure MethodDecl where
  name : String
  isPublic : Bool
  isStatic : Bool
  returnType : TypeExpr
  params : List VarDecl
  /-- A trailing parameter that takes any number of arguments, with its element type. -/
  varargs : Option VarDecl
  locals : List VarDecl
  body : List Stmt
  pos : Position
  deriving Repr

/-- A class with its members. Of its superclass there is only the name. -/
structure ClassDecl where
  name : String
  superclass : Option String
  fields : List VarDecl
  methods : List MethodDecl
  pos : Position
  deriving Repr

/-- One compilation unit. -/
structure Program where
  imports : List Import
  decl : ClassDecl
  deriving Repr

namespace Program

/-- The program with every method body replaced by `f` of its method. -/
def mapBodies (f : MethodDecl → List Stmt) (p : Program) : Program :=
  { p with decl := { p.decl with methods := p.decl.methods.map fun m ↦ { m with body := f m } } }

end Program

end Tricode
