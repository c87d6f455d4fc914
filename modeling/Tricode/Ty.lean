import Tricode.Syntax

/-!
# Types

A resolved type is a name and a flag that says whether it is an array of that name. Arrays do
not nest: the array of an array type is the array type itself. Five names are reserved, and
every other name is that of a class.

The name `<any>` stands for a type nobody knows: that of a broken subexpression or of a call
into a class outside the unit. Every rule accepts it, in both roles, so that one fault is
reported once. There is no subtyping beyond the two exemptions of `Ty.assignable`.
-/

namespace Tricode

/-- A resolved type. -/
structure Ty where
  name : String
  isArray : Bool
  deriving DecidableEq, Repr, Inhabited

namespace Ty

/-! ## The reserved names -/

def int : Ty := ⟨"int", false⟩

def boolean : Ty := ⟨"boolean", false⟩

/-- The result type of a method that returns no value. -/
def void : Ty := ⟨"void", false⟩

def string : Ty := ⟨"String", false⟩

/-- The type of what could not be resolved. -/
def any : Ty := ⟨"<any>", false⟩

/-- The type called `name`: a class, unless the name is reserved. -/
def named (name : String) : Ty := ⟨name, false⟩

/-- The type of the elements of an array. Any other type stays as it is. -/
def element (t : Ty) : Ty := ⟨t.name, false⟩

/-- The type of arrays of `t`. An array type stays as it is. -/
def arrayOf (t : Ty) : Ty := ⟨t.name, true⟩

def intArray : Ty := int.arrayOf

/-! ## Classification -/

/-- Nothing is known of the type, or of the elements of the array. -/
def isAny (t : Ty) : Bool := t.name == "<any>"

def isInt (t : Ty) : Bool := t == int

def isBoolean (t : Ty) : Bool := t == boolean

def isVoid (t : Ty) : Bool := t == void

def isIntArray (t : Ty) : Bool := t == intArray

/-- Built-in types and all arrays. -/
def isPrimitive (t : Ty) : Bool :=
  t.isArray || ["int", "boolean", "void", "String"].contains t.name

/-- A type that names a class, whether of this unit, imported or a superclass. -/
def isClass (t : Ty) : Bool := !t.isAny && !t.isPrimitive

/-- The same known type. -/
def sameAs (t u : Ty) : Bool := !t.isAny && !u.isAny && t == u

/-- A value of type `t` passes where exactly `expected` is asked for. -/
def accepts (t expected : Ty) : Bool := t.isAny || t == expected

/-! ## Assignment -/

/-- What assignment between classes depends on. -/
structure ClassEnv where
  className : String
  superclass : Option String
  importNames : List String

namespace ClassEnv

/-- The name is that of an imported class. -/
def isImported (env : ClassEnv) (name : String) : Bool := env.importNames.contains name

/-- Two names are the class of the unit and its superclass, in this order. -/
def extendsTo (env : ClassEnv) (sub super : String) : Bool :=
  sub == env.className && env.superclass == some super

end ClassEnv

/-- A value of type `src` may be stored in a slot of type `dest`. Between different classes this
holds in two cases only: both are imported, so nothing is known of either, or one is the class
of the unit and the other its superclass. -/
def assignable (env : ClassEnv) (dest src : Ty) : Bool :=
  dest.isAny || src.isAny || dest == src ||
    (dest.isClass && src.isClass &&
      ((env.isImported dest.name && env.isImported src.name) ||
        env.extendsTo dest.name src.name || env.extendsTo src.name dest.name))

/-! ## Text -/

/-- A type as diagnostics show it. -/
def text (t : Ty) : String :=
  if t.isAny then "?" else if t.isArray then t.name ++ "[]" else t.name

/-- The name of a type in three-address code. -/
def codeName (name : String) : String :=
  if name == "int" then "i32"
  else if name == "boolean" then "bool"
  else if name == "void" then "V"
  else if name == "<any>" then "?"
  else name

/-- The tag that three-address code puts after an operand. -/
def suffix (t : Ty) : String :=
  if t.isArray then "array." ++ codeName t.name else codeName t.name

/-! ## Small facts -/

@[simp] theorem element_isArray (t : Ty) : t.element.isArray = false := rfl

@[simp] theorem arrayOf_isArray (t : Ty) : t.arrayOf.isArray = true := rfl

@[simp] theorem element_arrayOf (t : Ty) : t.arrayOf.element = t.element := rfl

@[simp] theorem arrayOf_arrayOf (t : Ty) : t.arrayOf.arrayOf = t.arrayOf := rfl

theorem accepts_iff {t expected : Ty} :
    t.accepts expected = true ↔ t.isAny = true ∨ t = expected := by
  simp [accepts]

end Ty

/-! ## Types of the parts of a tree -/

/-- The type a written type stands for. -/
def TypeExpr.resolve : TypeExpr → Ty
  | int => .int
  | boolean => .boolean
  | void => .void
  | string => .string
  | array elem => elem.resolve.arrayOf
  | named name => .named name

def Literal.ty : Literal → Ty
  | int _ => .int
  | bool _ => .boolean

namespace BinOp

/-- The type both operands must have. -/
def operandTy (op : BinOp) : Ty :=
  match op.opClass with
  | .arithmetic | .relational => .int
  | .logical => .boolean

/-- The type of the result. -/
def resultTy (op : BinOp) : Ty :=
  match op.opClass with
  | .arithmetic => .int
  | .relational | .logical => .boolean

end BinOp

end Tricode
