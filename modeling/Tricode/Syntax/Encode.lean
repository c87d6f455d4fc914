import Tricode.Json.Writer
import Tricode.Syntax

/-!
# Writing class trees

The JSON value of a tree: every record is an object with all its fields, and a variant without
payload is a string.
-/

namespace Tricode

open Json (ofMembers tagged)

def Position.toJson (p : Position) : Json :=
  ofMembers [("line", .nat p.line.toNat), ("column", .nat p.column.toNat)]

/-- The operator as JSON names it. -/
def BinOp.tag : BinOp → String
  | add => "Add"
  | sub => "Sub"
  | mul => "Mul"
  | div => "Div"
  | rem => "Rem"
  | lt => "Lt"
  | gt => "Gt"
  | and => "And"
  | or => "Or"

def BinOp.toJson (op : BinOp) : Json := .str op.tag

/-- A type as it is written in the tree. -/
def TypeExpr.toJson : TypeExpr → Json
  | int => .str "Int"
  | boolean => .str "Boolean"
  | void => .str "Void"
  | string => .str "String"
  | array elem => tagged "Array" elem.toJson
  | named name => tagged "Named" (.str name)

/-- A literal under the name of its kind. -/
def Literal.toJson : Literal → Json
  | int n => tagged "IntLiteral" (.int n.toInt)
  | bool b => tagged "BoolLiteral" (.bool b)

/-! ## Expressions -/

namespace Expr

/-- A form and the position it was read at. -/
def nodeJson (pos : Position) (form : Json) : Json :=
  ofMembers [("kind", form), ("span", pos.toJson)]

/-- A call; `receiver` is `null` if there is none. -/
def callJson (receiver : Json) (method : String) (args : List Json) : Json :=
  tagged "Call" (ofMembers [("receiver", receiver), ("method", .str method), ("args", .arr args)])

mutual

/-- An expression as its form and its position. -/
def toJson : Expr → Json
  | lit pos value => nodeJson pos value.toJson
  | this pos => nodeJson pos (.str "This")
  | var pos name => nodeJson pos (tagged "Var" (.str name))
  | not pos operand => nodeJson pos (tagged "Not" operand.toJson)
  | binary pos op lhs rhs =>
    nodeJson pos (tagged "Binary"
      (ofMembers [("op", op.toJson), ("lhs", lhs.toJson), ("rhs", rhs.toJson)]))
  | index pos base idx =>
    nodeJson pos (tagged "ArrayAccess" (ofMembers [("array", base.toJson), ("index", idx.toJson)]))
  | array pos elements => nodeJson pos (tagged "ArrayLiteral" (.arr (toJsonAll elements)))
  | newArray pos elem size =>
    nodeJson pos (tagged "NewArray" (ofMembers [("elem", elem.toJson), ("size", size.toJson)]))
  | newObject pos className => nodeJson pos (tagged "NewObject" (.str className))
  | length pos base => nodeJson pos (tagged "Length" base.toJson)
  | call pos method args => nodeJson pos (callJson .null method (toJsonAll args))
  | callOn pos receiver method args =>
    nodeJson pos (callJson receiver.toJson method (toJsonAll args))

def toJsonAll : List Expr → List Json
  | [] => []
  | e :: es => e.toJson :: toJsonAll es

end

end Expr

/-! ## Statements -/

namespace Stmt

/-- The record of a statement under its name, with the position last. -/
def nodeJson (tag : String) (pos : Position) (fields : List (String × Json)) : Json :=
  tagged tag (ofMembers (fields ++ [("span", pos.toJson)]))

mutual

/-- A statement under the name of its form. -/
def toJson : Stmt → Json
  | block pos stmts => nodeJson "Block" pos [("stmts", .arr (toJsonAll stmts))]
  | ifElse pos cond thenBranch elseBranch =>
    nodeJson "If" pos [("cond", cond.toJson), ("then_branch", thenBranch.toJson),
      ("else_branch", elseBranch.toJson)]
  | whileLoop pos cond body =>
    nodeJson "While" pos [("cond", cond.toJson), ("body", body.toJson)]
  | eval pos expr => nodeJson "Expr" pos [("expr", expr.toJson)]
  | assign pos target value =>
    nodeJson "Assign" pos [("target", .str target), ("value", value.toJson)]
  | store pos target index value =>
    nodeJson "ArrayAssign" pos [("target", .str target), ("index", index.toJson),
      ("value", value.toJson)]
  | ret pos value => nodeJson "Return" pos [("value", Json.option Expr.toJson value)]

def toJsonAll : List Stmt → List Json
  | [] => []
  | stmt :: stmts => stmt.toJson :: toJsonAll stmts

end

end Stmt

/-! ## Declarations -/

def VarDecl.toJson (d : VarDecl) : Json :=
  ofMembers [("ty", d.ty.toJson), ("name", .str d.name), ("span", d.pos.toJson)]

/-- An import as the segments of its path. -/
def Import.toJson (i : Import) : Json :=
  ofMembers [("path", Json.list .str i.path), ("span", i.pos.toJson)]

/-- A method, with an empty list or `null` for each part it lacks. -/
def MethodDecl.toJson (m : MethodDecl) : Json :=
  ofMembers [("name", .str m.name), ("is_public", .bool m.isPublic),
    ("is_static", .bool m.isStatic), ("return_type", m.returnType.toJson),
    ("params", Json.list VarDecl.toJson m.params),
    ("varargs", Json.option VarDecl.toJson m.varargs),
    ("locals", Json.list VarDecl.toJson m.locals), ("body", .arr (Stmt.toJsonAll m.body)),
    ("span", m.pos.toJson)]

/-- A class, with an empty list or `null` for each part it lacks. -/
def ClassDecl.toJson (c : ClassDecl) : Json :=
  ofMembers [("name", .str c.name), ("superclass", Json.option .str c.superclass),
    ("fields", Json.list VarDecl.toJson c.fields),
    ("methods", Json.list MethodDecl.toJson c.methods), ("span", c.pos.toJson)]

namespace Program

/-- A unit as its imports and its class. -/
def toJson (p : Program) : Json :=
  ofMembers [("imports", Json.list Import.toJson p.imports), ("class", p.decl.toJson)]

/-- The text of a program. -/
def toText (p : Program) : String := p.toJson.render

end Program

end Tricode
