import Tricode.Json.Reader
import Tricode.Json.Record
import Tricode.Syntax

/-!
# Reading class trees

How a class tree is found in a JSON value, by the rules for records and variants. There is one
function for each kind of array or object in a tree, and each of them uses up one of the levels
of nesting that are left, so that the levels bound the recursion too.
-/

namespace Tricode

open Json (record listAt plainTag?)

/-! ## Positions, operators and types -/

/-- A position, both parts of which must be present. -/
def Position.ofJson : Nat → Json → Option Position
  | 0, _ => none
  | _ + 1, j => do
    let fields ← record ["line", "column"] 0 j
    let line ← fields.get "line" Json.uint32?
    let column ← fields.get "column" Json.uint32?
    pure ⟨line, column⟩

/-- The position of a node, which may be absent. -/
def Position.ofFields (levels : Nat) (fields : Json.Fields) : Option Position :=
  fields.getD "span" .origin (Position.ofJson levels)

/-- The operator of the given name. -/
def BinOp.ofTag? (tag : String) : Option BinOp :=
  match tag with
  | "Add" => some .add
  | "Sub" => some .sub
  | "Mul" => some .mul
  | "Div" => some .div
  | "Rem" => some .rem
  | "Lt" => some .lt
  | "Gt" => some .gt
  | "And" => some .and
  | "Or" => some .or
  | _ => none

/-- An operator, which is a variant without payload. -/
def BinOp.ofJson (levels : Nat) (j : Json) : Option BinOp :=
  (plainTag? levels j).bind BinOp.ofTag?

namespace TypeExpr

/-- The types without payload. -/
def ofTag? (tag : String) : Option TypeExpr :=
  match tag with
  | "Int" => some .int
  | "Boolean" => some .boolean
  | "Void" => some .void
  | "String" => some .string
  | _ => none

/-- A type: one without payload, an array of a type, or a class. -/
def ofJson : Nat → Json → Option TypeExpr
  | _, .str tag => ofTag? tag
  | levels + 1, .obj [(some tag, body)] =>
    match tag with
    | "Array" => (ofJson levels body).map .array
    | "Named" => body.str?.map .named
    | tag => (plainTag? 1 (.obj [(some tag, body)])).bind ofTag?
  | _, _ => none

end TypeExpr

/-! ## Expressions -/

namespace Expr

mutual

/-- An expression: its form, and its position if it is present. -/
def ofJson : Nat → Json → Option Expr
  | 0, _ => none
  | levels + 1, j => do
    let fields ← record ["kind", "span"] 0 j
    let pos ← Position.ofFields levels fields
    let form ← fields.lookup "kind"
    ofForm levels pos form

/-- The form of an expression at a known position. -/
def ofForm : Nat → Position → Json → Option Expr
  | _, pos, .str tag => if tag = "This" then some (this pos) else none
  | levels + 1, pos, .obj [(some tag, body)] =>
    match tag with
    | "IntLiteral" => body.int32?.map fun n ↦ lit pos (.int n)
    | "BoolLiteral" => body.bool?.map fun b ↦ lit pos (.bool b)
    | "This" => (plainTag? 1 (.obj [(some tag, body)])).map fun _ ↦ this pos
    | "Var" => body.str?.map (var pos)
    | "Not" => (ofJson levels body).map (not pos)
    | "Binary" => ofBinary levels pos body
    | "ArrayAccess" => ofIndex levels pos body
    | "ArrayLiteral" => (listOfJson levels body).map (array pos)
    | "NewArray" => ofNewArray levels pos body
    | "NewObject" => body.str?.map (newObject pos)
    | "Length" => (ofJson levels body).map (length pos)
    | "Call" => ofCall levels pos body
    | _ => none
  | _, _, _ => none

/-- An operator and its two operands. -/
def ofBinary : Nat → Position → Json → Option Expr
  | 0, _, _ => none
  | levels + 1, pos, j => do
    let fields ← record ["op", "lhs", "rhs"] 0 j
    let op ← fields.get "op" (BinOp.ofJson levels)
    let lhs ← fields.get "lhs" (ofJson levels)
    let rhs ← fields.get "rhs" (ofJson levels)
    pure (binary pos op lhs rhs)

/-- An array and an index into it. -/
def ofIndex : Nat → Position → Json → Option Expr
  | 0, _, _ => none
  | levels + 1, pos, j => do
    let fields ← record ["array", "index"] 0 j
    let base ← fields.get "array" (ofJson levels)
    let idx ← fields.get "index" (ofJson levels)
    pure (index pos base idx)

/-- The element type and the size of a new array. -/
def ofNewArray : Nat → Position → Json → Option Expr
  | 0, _, _ => none
  | levels + 1, pos, j => do
    let fields ← record ["elem", "size"] 0 j
    let elem ← fields.get "elem" (TypeExpr.ofJson levels)
    let size ← fields.get "size" (ofJson levels)
    pure (newArray pos elem size)

/-- A call, with a receiver or without. -/
def ofCall : Nat → Position → Json → Option Expr
  | 0, _, _ => none
  | levels + 1, pos, j => do
    let fields ← record ["receiver", "method", "args"] 3 j
    let receiver ← fields.get? "receiver" (ofJson levels)
    let method ← fields.get "method" Json.str?
    let args ← fields.get "args" (listOfJson levels)
    match receiver with
    | some receiver => pure (callOn pos receiver method args)
    | none => pure (call pos method args)

/-- Arguments or elements. -/
def listOfJson : Nat → Json → Option (List Expr)
  | levels + 1, .arr items => items.mapM (ofJson levels)
  | _, _ => none

end

end Expr

/-! ## Statements -/

namespace Stmt

/-- An expression as a statement. -/
def ofEval : Nat → Json → Option Stmt
  | 0, _ => none
  | levels + 1, j => do
    let fields ← record ["expr", "span"] 0 j
    let expr ← fields.get "expr" (Expr.ofJson levels)
    let pos ← Position.ofFields levels fields
    pure (eval pos expr)

/-- A variable and the value it is given. -/
def ofAssign : Nat → Json → Option Stmt
  | 0, _ => none
  | levels + 1, j => do
    let fields ← record ["target", "value", "span"] 0 j
    let target ← fields.get "target" Json.str?
    let value ← fields.get "value" (Expr.ofJson levels)
    let pos ← Position.ofFields levels fields
    pure (assign pos target value)

/-- An array variable, and the index and the new value of one element. -/
def ofStore : Nat → Json → Option Stmt
  | 0, _ => none
  | levels + 1, j => do
    let fields ← record ["target", "index", "value", "span"] 0 j
    let target ← fields.get "target" Json.str?
    let index ← fields.get "index" (Expr.ofJson levels)
    let value ← fields.get "value" (Expr.ofJson levels)
    let pos ← Position.ofFields levels fields
    pure (store pos target index value)

/-- A return; written as an array it has to give its value, be it `null`. -/
def ofReturn : Nat → Json → Option Stmt
  | 0, _ => none
  | levels + 1, j => do
    let fields ← record ["value", "span"] 1 j
    let value ← fields.get? "value" (Expr.ofJson levels)
    let pos ← Position.ofFields levels fields
    pure (ret pos value)

mutual

/-- A statement under the name of its form. -/
def ofJson : Nat → Json → Option Stmt
  | levels + 1, .obj [(some tag, body)] =>
    match tag with
    | "Block" => ofBlock levels body
    | "If" => ofIf levels body
    | "While" => ofWhile levels body
    | "Expr" => ofEval levels body
    | "Assign" => ofAssign levels body
    | "ArrayAssign" => ofStore levels body
    | "Return" => ofReturn levels body
    | _ => none
  | _, _ => none

/-- The statements of a block. -/
def ofBlock : Nat → Json → Option Stmt
  | 0, _ => none
  | levels + 1, j => do
    let fields ← record ["stmts", "span"] 0 j
    let stmts ← fields.get "stmts" (listOfJson levels)
    let pos ← Position.ofFields levels fields
    pure (block pos stmts)

/-- A condition and two branches, neither of which may be left out. -/
def ofIf : Nat → Json → Option Stmt
  | 0, _ => none
  | levels + 1, j => do
    let fields ← record ["cond", "then_branch", "else_branch", "span"] 0 j
    let cond ← fields.get "cond" (Expr.ofJson levels)
    let thenBranch ← fields.get "then_branch" (ofJson levels)
    let elseBranch ← fields.get "else_branch" (ofJson levels)
    let pos ← Position.ofFields levels fields
    pure (ifElse pos cond thenBranch elseBranch)

/-- A condition and a loop body. -/
def ofWhile : Nat → Json → Option Stmt
  | 0, _ => none
  | levels + 1, j => do
    let fields ← record ["cond", "body", "span"] 0 j
    let cond ← fields.get "cond" (Expr.ofJson levels)
    let body ← fields.get "body" (ofJson levels)
    let pos ← Position.ofFields levels fields
    pure (whileLoop pos cond body)

/-- Statements one after another. -/
def listOfJson : Nat → Json → Option (List Stmt)
  | levels + 1, .arr items => items.mapM (ofJson levels)
  | _, _ => none

end

end Stmt

/-! ## Declarations -/

/-- A variable with its type. -/
def VarDecl.ofJson : Nat → Json → Option VarDecl
  | 0, _ => none
  | levels + 1, j => do
    let fields ← record ["ty", "name", "span"] 0 j
    let ty ← fields.get "ty" (TypeExpr.ofJson levels)
    let name ← fields.get "name" Json.str?
    let pos ← Position.ofFields levels fields
    pure ⟨ty, name, pos⟩

/-- The segments of an import. -/
def Import.ofJson : Nat → Json → Option Import
  | 0, _ => none
  | levels + 1, j => do
    let fields ← record ["path", "span"] 0 j
    let path ← fields.get "path" (listAt (fun _ ↦ Json.str?) levels)
    let pos ← Position.ofFields levels fields
    pure ⟨path, pos⟩

/-- A method, of which only name and result type must be present. -/
def MethodDecl.ofJson : Nat → Json → Option MethodDecl
  | 0, _ => none
  | levels + 1, j => do
    let fields ← record ["name", "is_public", "is_static", "return_type", "params", "varargs",
      "locals", "body", "span"] 0 j
    let name ← fields.get "name" Json.str?
    let isPublic ← fields.getD "is_public" false Json.bool?
    let isStatic ← fields.getD "is_static" false Json.bool?
    let returnType ← fields.get "return_type" (TypeExpr.ofJson levels)
    let params ← fields.getD "params" [] (listAt VarDecl.ofJson levels)
    let varargs ← fields.get? "varargs" (VarDecl.ofJson levels)
    let locals ← fields.getD "locals" [] (listAt VarDecl.ofJson levels)
    let body ← fields.getD "body" [] (Stmt.listOfJson levels)
    let pos ← Position.ofFields levels fields
    pure ⟨name, isPublic, isStatic, returnType, params, varargs, locals, body, pos⟩

/-- A class, of which only the name must be present. -/
def ClassDecl.ofJson : Nat → Json → Option ClassDecl
  | 0, _ => none
  | levels + 1, j => do
    let fields ← record ["name", "superclass", "fields", "methods", "span"] 0 j
    let name ← fields.get "name" Json.str?
    let superclass ← fields.get? "superclass" Json.str?
    let vars ← fields.getD "fields" [] (listAt VarDecl.ofJson levels)
    let methods ← fields.getD "methods" [] (listAt MethodDecl.ofJson levels)
    let pos ← Position.ofFields levels fields
    pure ⟨name, superclass, vars, methods, pos⟩

namespace Program

/-- A unit: its imports, if there are any, and its class. -/
def ofJson : Nat → Json → Option Program
  | 0, _ => none
  | levels + 1, j => do
    let fields ← record ["imports", "class"] 0 j
    let imports ← fields.getD "imports" [] (listAt Import.ofJson levels)
    let decl ← fields.get "class" (ClassDecl.ofJson levels)
    pure ⟨imports, decl⟩

/-- The program a text spells. -/
def ofText (text : String) : Option Program := (Json.read text).bind (ofJson maxNesting)

end Program

end Tricode
