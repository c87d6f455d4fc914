import Tricode.Ty

/-!
# Symbol tables

What a unit declares, with every type resolved: built once from the whole class and only read
afterwards, by checking and by lowering alike. A duplicate declaration stays in the table, and
looking a name up finds the first one.

A `Scope` is the table seen from inside one method. It settles what a bare identifier means:
locals hide parameters, which hide fields, which hide imported classes.
-/

namespace Tricode

/-- A declared name with its type. -/
structure Symbol where
  name : String
  ty : Ty
  deriving DecidableEq, Repr

/-- What the callers and the body of a method see of its declaration. -/
structure Signature where
  name : String
  returnType : Ty
  /-- The parameters; one that takes any number of arguments is the last, as an array. -/
  params : List Symbol
  locals : List Symbol
  isStatic : Bool
  isPublic : Bool
  hasVarargs : Bool
  deriving DecidableEq, Repr

namespace Signature

/-- How many arguments fill a parameter of their own. -/
def fixedArity (sig : Signature) : Nat :=
  if sig.hasVarargs then sig.params.length - 1 else sig.params.length

/-- The parameter that takes any number of arguments. -/
def varargsSlot (sig : Signature) : Option Symbol :=
  if sig.hasVarargs then sig.params.getLast? else none

/-- The type of each of the arguments it takes. -/
def varargsElement (sig : Signature) : Option Ty := sig.varargsSlot.map fun p ↦ p.ty.element

/-- Whether `count` arguments fill the parameters. -/
def acceptsCount (sig : Signature) (count : Nat) : Bool :=
  if sig.hasVarargs then sig.fixedArity ≤ count else count == sig.fixedArity

/-- The first local variable of the given name. -/
def localVar? (sig : Signature) (name : String) : Option Symbol :=
  sig.locals.find? fun s ↦ s.name == name

/-- The first parameter of the given name. -/
def param? (sig : Signature) (name : String) : Option Symbol :=
  sig.params.find? fun s ↦ s.name == name

end Signature

/-- What a unit declares. -/
structure Table where
  className : String
  superclass : Option String
  /-- The imports as dotted paths. -/
  imports : List String
  fields : List Symbol
  methods : List Signature
  deriving DecidableEq, Repr

/-! ## Building -/

/-- The declared name with its type resolved. -/
def VarDecl.symbol (d : VarDecl) : Symbol := ⟨d.name, d.ty.resolve⟩

/-- The signature a method declares. What takes any number of arguments becomes an array. -/
def MethodDecl.signature (m : MethodDecl) : Signature where
  name := m.name
  returnType := m.returnType.resolve
  params := m.params.map VarDecl.symbol ++
    (m.varargs.map fun v ↦ (⟨v.name, v.ty.resolve.arrayOf⟩ : Symbol)).toList
  locals := m.locals.map VarDecl.symbol
  isStatic := m.isStatic
  isPublic := m.isPublic
  hasVarargs := m.varargs.isSome

/-- The table of a unit. -/
def Program.table (p : Program) : Table where
  className := p.decl.name
  superclass := p.decl.superclass
  imports := p.imports.map Import.qualified
  fields := p.decl.fields.map VarDecl.symbol
  methods := p.decl.methods.map MethodDecl.signature

/-! ## Looking up -/

/-- What follows the last dot of a dotted path, or all of it. -/
def lastSegment (path : String) : String :=
  String.ofList (path.toList.reverse.takeWhile fun c ↦ c != '.').reverse

namespace Table

/-- The class names the imports bring in. -/
def importNames (t : Table) : List String := t.imports.map lastSegment

def hasImports (t : Table) : Bool := !t.imports.isEmpty

/-- Some import brings in a class of that name. -/
def isImported (t : Table) (name : String) : Bool := t.importNames.contains name

/-- The first field of the given name. -/
def field? (t : Table) (name : String) : Option Symbol :=
  t.fields.find? fun s ↦ s.name == name

/-- The first method of the given name. -/
def method? (t : Table) (name : String) : Option Signature :=
  t.methods.find? fun m ↦ m.name == name

/-- The result type of a method, if it is declared. -/
def returnType? (t : Table) (method : String) : Option Ty :=
  (t.method? method).map Signature.returnType

/-- The parameters of a method, and none if it is not declared. -/
def params (t : Table) (method : String) : List Symbol :=
  (t.method? method).elim [] Signature.params

/-- The local variables of a method, and none if it is not declared. -/
def locals (t : Table) (method : String) : List Symbol :=
  (t.method? method).elim [] Signature.locals

/-- The facts that assignment between classes depends on. -/
def env (t : Table) : Ty.ClassEnv := ⟨t.className, t.superclass, t.importNames⟩

end Table

/-- Where the value of a variable is kept. -/
inductive Storage where
  | localVar | param | field
  deriving DecidableEq, Repr

/-- What a bare identifier refers to. -/
inductive Binding where
  | stored (storage : Storage) (symbol : Symbol)
  | imported
  | unbound
  deriving DecidableEq, Repr

/-- The names a method body can see. -/
structure Scope where
  table : Table
  method : Signature

namespace Scope

/-- The variable that a name stands for: a local one before a parameter before a field. -/
def findVariable (s : Scope) (name : String) : Option (Storage × Symbol) :=
  ((s.method.localVar? name).map (Storage.localVar, ·)).or
    (((s.method.param? name).map (Storage.param, ·)).or
      ((s.table.field? name).map (Storage.field, ·)))

/-- What a name refers to. A variable hides an imported class. -/
def lookup (s : Scope) (name : String) : Binding :=
  match s.findVariable name with
  | some (storage, symbol) => .stored storage symbol
  | none => if s.table.isImported name then .imported else .unbound

end Scope

end Tricode
