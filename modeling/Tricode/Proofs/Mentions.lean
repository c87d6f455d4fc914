import Tricode.Proofs.Trees

/-!
# What a tree mentions

A body speaks of its surroundings by name: of variables, of classes, of methods, and of the object
it runs on. What it mentions is listed here without asking what the names stand for. That is a
matter of the scope, so the list can be compared between a tree and its rewritten form, and a
condition on the identifiers of a unit can be stated for all of them at once.

## Position matters

The same name is used in different ways. What a call is made on may be a class rather than a value,
a call on `this` is a call to the unit itself, and a statement that is nothing but a name drops its
value. So each mention says in which position it stands. A return counts as a mention as well: it
is the one thing a body does to its caller.
-/

namespace Tricode

/-- A name or a return in a body, with the position it stands in. -/
inductive Mention where
  /-- The object the method runs on, as a value. -/
  | this
  /-- A name whose value is used. -/
  | value (name : String)
  /-- A name that a call is made on. -/
  | receiver (name : String)
  /-- A name that is a whole statement, so that its value is dropped. -/
  | dropped (name : String)
  /-- A name that is assigned to. -/
  | target (name : String)
  /-- The class of a new object. -/
  | object (className : String)
  /-- The type of the elements of a new array. -/
  | elements (ty : TypeExpr)
  /-- A method called on the class itself or on `this`. -/
  | own (method : String)
  /-- A method called on anything else. -/
  | other (method : String)
  /-- A return, with a value or without. -/
  | ret (hasValue : Bool)
  deriving DecidableEq, Repr

/-! ## Expressions -/

namespace Expr

/-- The expression is nothing but a name. -/
def isName : Expr → Bool
  | this _ | var _ _ => true
  | _ => false

/-- The mentions of a call to `method` on the expression, which mentions `ms` as a value. -/
def asReceiver (method : String) (ms : List Mention) : Expr → List Mention
  | this _ => [.own method]
  | var _ name => [.receiver name, .other method]
  | _ => ms ++ [.other method]

/-- The mentions of a statement that is nothing but the expression, which mentions `ms` as a
value. -/
def asStatement (ms : List Mention) : Expr → List Mention
  | this _ => []
  | var _ name => [.dropped name]
  | _ => ms

mutual

/-- What an expression mentions, in reading order. -/
def mentions : Expr → List Mention
  | lit _ _ => []
  | this _ => [.this]
  | var _ name => [.value name]
  | not _ operand => operand.mentions
  | binary _ _ lhs rhs => lhs.mentions ++ rhs.mentions
  | index _ base idx => base.mentions ++ idx.mentions
  | array _ elements => mentionsAll elements
  | newArray _ elem size => .elements elem :: size.mentions
  | newObject _ className => [.object className]
  | length _ base => base.mentions
  | call _ method args => .own method :: mentionsAll args
  | callOn _ receiver method args =>
    receiver.asReceiver method receiver.mentions ++ mentionsAll args

def mentionsAll : List Expr → List Mention
  | [] => []
  | e :: es => e.mentions ++ mentionsAll es

end

theorem mentionsAll_eq_flatMap (es : List Expr) : mentionsAll es = es.flatMap mentions := by
  induction es with
  | nil => rfl
  | cons e es ih => rw [mentionsAll, ih, List.flatMap_cons]

end Expr

/-! ## Statements -/

namespace Stmt

mutual

/-- What a statement mentions, in reading order. -/
def mentions : Stmt → List Mention
  | block _ stmts => mentionsAll stmts
  | ifElse _ cond thenBranch elseBranch =>
    cond.mentions ++ thenBranch.mentions ++ elseBranch.mentions
  | whileLoop _ cond body => cond.mentions ++ body.mentions
  | eval _ expr => expr.asStatement expr.mentions
  | assign _ target value => .target target :: value.mentions
  | store _ target index value => .value target :: (index.mentions ++ value.mentions)
  | ret _ value => .ret value.isSome :: value.elim [] Expr.mentions

def mentionsAll : List Stmt → List Mention
  | [] => []
  | stmt :: stmts => stmt.mentions ++ mentionsAll stmts

end

theorem mentionsAll_eq_flatMap (stmts : List Stmt) :
    mentionsAll stmts = stmts.flatMap mentions := by
  induction stmts with
  | nil => rfl
  | cons stmt stmts ih => rw [mentionsAll, ih, List.flatMap_cons]

end Stmt

/-! ## Identifiers -/

/-- The class that the written type names, if it names one. -/
def TypeExpr.identifiers : TypeExpr → List String
  | int | boolean | void | string => []
  | array elem => elem.identifiers
  | named name => [name]

/-- The identifier in a mention, if there is one. -/
def Mention.identifiers : Mention → List String
  | this | ret _ => []
  | value name | receiver name | dropped name | target name | object name | own name
  | other name => [name]
  | elements ty => ty.identifiers

/-- The name of a variable, and the class that its type names. -/
def VarDecl.identifiers (d : VarDecl) : List String := d.name :: d.ty.identifiers

/-- What a method declares, and what its body mentions. -/
def MethodDecl.identifiers (m : MethodDecl) : List String :=
  m.name :: m.returnType.identifiers ++ m.varDecls.flatMap VarDecl.identifiers ++
    (Stmt.mentionsAll m.body).flatMap Mention.identifiers

/-- Every identifier of the unit: the segments of its imports, what it declares, and what its
bodies mention. -/
def Program.identifiers (p : Program) : List String :=
  p.imports.flatMap Import.path ++ p.decl.name :: p.decl.superclass.toList ++
    p.decl.fields.flatMap VarDecl.identifiers ++ p.decl.methods.flatMap MethodDecl.identifiers

end Tricode
