import Tricode.Table

/-!
# Three-address code

What lowering produces: per method one flat list of instructions that name their operands and
their result. Nested expressions become numbered temporaries, and control flow is made of labels
and jumps. Every operand carries its type, so that nobody who reads the code has to infer one.

A label is either one of the numbered labels lowering makes, of which each control structure has
its own kind, or any text. Numbers are kept as numbers: that two labels differ is then plain
from their parts.
-/

namespace Tricode

/-! ## Operands and places -/

/-- What an instruction reads, with its type. -/
inductive Operand where
  | literal (value : Literal) (ty : Ty)
  /-- A local variable or parameter, `this`, or a class named as the receiver of a static call. -/
  | var (name : String) (ty : Ty)
  | temp (id : Nat) (ty : Ty)
  deriving DecidableEq, Repr

/-- Storage an assignment writes. -/
inductive Place where
  | var (name : String) (ty : Ty)
  | temp (id : Nat) (ty : Ty)
  /-- One element of an array; `ty` is the type of the element. -/
  | element (array index : Operand) (ty : Ty)
  deriving DecidableEq, Repr

namespace Operand

/-- A literal with its own type. -/
def ofLiteral (value : Literal) : Operand := literal value value.ty

def int (n : Int32) : Operand := ofLiteral (.int n)

def bool (b : Bool) : Operand := ofLiteral (.bool b)

/-- The object a method runs on. -/
def this (className : String) : Operand := var "this" (.named className)

/-- A class as the receiver of a static call. -/
def ofClass (name : String) : Operand := var name (.named name)

/-- The type an operand carries. -/
def ty : Operand → Ty
  | literal _ ty | var _ ty | temp _ ty => ty

/-- The storage behind an operand; a literal has none. -/
def place? : Operand → Option Place
  | literal _ _ => none
  | var name ty => some (.var name ty)
  | temp id ty => some (.temp id ty)

end Operand

namespace Place

/-- The type of the values a place holds. -/
def ty : Place → Ty
  | var _ ty | temp _ ty | element _ _ ty => ty

/-- What reading a place back looks like; an element has to be loaded first. -/
def operand? : Place → Option Operand
  | var name ty => some (.var name ty)
  | temp id ty => some (.temp id ty)
  | element _ _ _ => none

theorem operand?_of_place? {o : Operand} {p : Place} (h : o.place? = some p) :
    p.operand? = some o := by
  cases o <;> simp_all [Operand.place?] <;> subst h <;> rfl

end Place

/-! ## Labels -/

/-- What a numbered label marks. -/
inductive Mark where
  | ifBody | endIf
  | loop | whileBody | endWhile
  | cmpTrue | cmpEnd | andRhs | andEnd | orTrue | orEnd
  deriving DecidableEq, Repr

/-- What jumps go to. -/
inductive Label where
  | numbered (mark : Mark) (number : Nat)
  | named (text : String)
  deriving DecidableEq, Repr

/-! ## Instructions -/

/-- What a call does. Allocations and array lengths are calls as well. -/
inductive CallKind where
  /-- Allocation of an object, which a call of its constructor follows. -/
  | new
  | virtual
  | static
  | special
  | interface
  | arrayLength
  deriving DecidableEq, Repr

/-- A call with its operands and the type of its result. -/
structure Call where
  kind : CallKind
  /-- The object, the array or the class the call is made on. -/
  receiver : Operand
  /-- The method; allocations and array lengths have none. -/
  method : Option String
  args : List Operand
  ret : Ty
  deriving DecidableEq, Repr

/-- What an assignment computes. -/
inductive Rvalue where
  | use (operand : Operand)
  | binary (op : BinOp) (left right : Operand)
  | not (operand : Operand)
  | call (call : Call)
  /-- A field of `this`. -/
  | getField (field : String) (ty : Ty)
  | element (array index : Operand)
  | newArray (elem : Ty) (size : Operand)
  deriving DecidableEq, Repr

/-- When a conditional jump is taken. -/
inductive Cond where
  | truthy (operand : Operand)
  | compare (op : BinOp) (left right : Operand)
  deriving DecidableEq, Repr

/-- One step of a method. It computes at most one value, or it says where control goes. -/
inductive Instruction where
  | assign (dest : Place) (ty : Ty) (value : Rvalue)
  /-- A call whose result is dropped. -/
  | call (call : Call)
  /-- A write to a field of `this`. -/
  | putField (field : String) (ty : Ty) (value : Operand)
  | goto (target : Label)
  | branch (cond : Cond) (target : Label)
  | label (label : Label)
  | ret (value : Option Operand) (ty : Ty)
  deriving DecidableEq, Repr

namespace Instruction

def isReturn : Instruction → Bool
  | ret _ _ => true
  | _ => false

/-- The label an instruction defines. -/
def label? : Instruction → Option Label
  | label l => some l
  | _ => none

end Instruction

/-- Instructions one after another. -/
abbrev Code := List Instruction

/-! ## Methods and classes -/

/-- A lowered method: what its signature says, and its code. -/
structure MethodCode where
  name : String
  isPublic : Bool
  isStatic : Bool
  hasVarargs : Bool
  params : List Symbol
  locals : List Symbol
  returnType : Ty
  body : Code
  deriving DecidableEq, Repr

namespace MethodCode

/-- The labels a body defines, in order. -/
def labels (m : MethodCode) : List Label := m.body.filterMap Instruction.label?

end MethodCode

/-- A lowered unit: what the class declares, and the code of its methods. -/
structure ClassCode where
  className : String
  superclass : Option String
  imports : List String
  fields : List Symbol
  methods : List MethodCode
  deriving DecidableEq, Repr

namespace ClassCode

/-- The first method of the given name. -/
def method? (c : ClassCode) (name : String) : Option MethodCode :=
  c.methods.find? fun m ↦ m.name == name

end ClassCode

end Tricode
