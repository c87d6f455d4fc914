import Tricode.Table

/-!
# Trees: induction and the names in them

Expressions and statements nest through lists, so the induction Lean generates speaks of lists
too. `Expr.memberInduct` and `Stmt.memberInduct` speak of members instead, which is what most
arguments need.

The names that a unit uses as types, and its variables, are collected so that a condition on them
can be stated in one place. A name that stands for a type is that of the
resolved type: an array of a class counts as a use of the class. In the same way the longest list
of a unit stands for the lengths of all its array literals and argument lists.
-/

namespace Tricode

/-! ## Induction -/

@[elab_as_elim]
theorem Expr.memberInduct {motive : Expr → Prop}
    (lit : ∀ pos value, motive (.lit pos value))
    (this : ∀ pos, motive (.this pos))
    (var : ∀ pos name, motive (.var pos name))
    (not : ∀ pos operand, motive operand → motive (.not pos operand))
    (binary : ∀ pos op lhs rhs, motive lhs → motive rhs → motive (.binary pos op lhs rhs))
    (index : ∀ pos base idx, motive base → motive idx → motive (.index pos base idx))
    (array : ∀ pos elements, (∀ e ∈ elements, motive e) → motive (.array pos elements))
    (newArray : ∀ pos elem size, motive size → motive (.newArray pos elem size))
    (newObject : ∀ pos className, motive (.newObject pos className))
    (length : ∀ pos base, motive base → motive (.length pos base))
    (call : ∀ pos method args, (∀ e ∈ args, motive e) → motive (.call pos method args))
    (callOn : ∀ pos receiver method args, motive receiver → (∀ e ∈ args, motive e) →
      motive (.callOn pos receiver method args))
    (e : Expr) : motive e :=
  @Expr.rec motive (fun es ↦ ∀ e ∈ es, motive e) lit this var not binary index array newArray
    newObject length call callOn (fun _ he ↦ absurd he List.not_mem_nil)
    (fun _ _ hhead htail e he ↦ (List.mem_cons.mp he).elim (fun heq ↦ heq ▸ hhead) (htail e)) e

@[elab_as_elim]
theorem Stmt.memberInduct {motive : Stmt → Prop}
    (block : ∀ pos stmts, (∀ stmt ∈ stmts, motive stmt) → motive (.block pos stmts))
    (ifElse : ∀ pos cond thenBranch elseBranch, motive thenBranch → motive elseBranch →
      motive (.ifElse pos cond thenBranch elseBranch))
    (whileLoop : ∀ pos cond body, motive body → motive (.whileLoop pos cond body))
    (eval : ∀ pos expr, motive (.eval pos expr))
    (assign : ∀ pos target value, motive (.assign pos target value))
    (store : ∀ pos target index value, motive (.store pos target index value))
    (ret : ∀ pos value, motive (.ret pos value))
    (stmt : Stmt) : motive stmt :=
  @Stmt.rec motive (fun stmts ↦ ∀ stmt ∈ stmts, motive stmt) block ifElse whileLoop eval assign
    store ret (fun _ hs ↦ absurd hs List.not_mem_nil)
    (fun _ _ hhead htail stmt hs ↦
      (List.mem_cons.mp hs).elim (fun heq ↦ heq ▸ hhead) (htail stmt)) stmt

/-! ## Names of types -/

/-- The name of the type, or of the elements of the array. -/
def TypeExpr.typeName (t : TypeExpr) : String := t.resolve.name

/-- The name of the type of a variable. -/
def VarDecl.typeName (d : VarDecl) : String := d.ty.typeName

namespace Expr

mutual

/-- The names of types in an expression: of what it creates. -/
def typeNames : Expr → List String
  | lit _ _ | this _ | var _ _ => []
  | not _ operand => operand.typeNames
  | binary _ _ lhs rhs => lhs.typeNames ++ rhs.typeNames
  | index _ base idx => base.typeNames ++ idx.typeNames
  | array _ elements => typeNamesAll elements
  | newArray _ elem size => elem.typeName :: size.typeNames
  | newObject _ className => [className]
  | length _ base => base.typeNames
  | call _ _ args => typeNamesAll args
  | callOn _ receiver _ args => receiver.typeNames ++ typeNamesAll args

def typeNamesAll : List Expr → List String
  | [] => []
  | e :: es => e.typeNames ++ typeNamesAll es

end

theorem typeNamesAll_eq_flatMap (es : List Expr) : typeNamesAll es = es.flatMap typeNames := by
  induction es with
  | nil => rfl
  | cons e es ih => rw [typeNamesAll, ih, List.flatMap_cons]

theorem not_mem_typeNamesAll {name : String} {es : List Expr} :
    name ∉ typeNamesAll es ↔ ∀ e ∈ es, name ∉ e.typeNames := by
  rw [typeNamesAll_eq_flatMap, List.mem_flatMap]
  exact ⟨fun h e he hname ↦ h ⟨e, he, hname⟩, fun h ⟨e, he, hname⟩ ↦ h e he hname⟩

end Expr

namespace Stmt

mutual

/-- The names of types in the expressions of a statement. -/
def typeNames : Stmt → List String
  | block _ stmts => typeNamesAll stmts
  | ifElse _ cond thenBranch elseBranch =>
    cond.typeNames ++ thenBranch.typeNames ++ elseBranch.typeNames
  | whileLoop _ cond body => cond.typeNames ++ body.typeNames
  | eval _ expr => expr.typeNames
  | assign _ _ value => value.typeNames
  | store _ _ index value => index.typeNames ++ value.typeNames
  | ret _ value => value.elim [] Expr.typeNames

def typeNamesAll : List Stmt → List String
  | [] => []
  | stmt :: stmts => stmt.typeNames ++ typeNamesAll stmts

end

theorem typeNamesAll_eq_flatMap (stmts : List Stmt) :
    typeNamesAll stmts = stmts.flatMap typeNames := by
  induction stmts with
  | nil => rfl
  | cons stmt stmts ih => rw [typeNamesAll, ih, List.flatMap_cons]

theorem not_mem_typeNamesAll {name : String} {stmts : List Stmt} :
    name ∉ typeNamesAll stmts ↔ ∀ stmt ∈ stmts, name ∉ stmt.typeNames := by
  rw [typeNamesAll_eq_flatMap, List.mem_flatMap]
  exact ⟨fun h stmt hs hname ↦ h ⟨stmt, hs, hname⟩, fun h ⟨stmt, hs, hname⟩ ↦ h stmt hs hname⟩

end Stmt

/-- The parameters and local variables of the method. -/
def MethodDecl.varDecls (m : MethodDecl) : List VarDecl := m.params ++ m.varargs.toList ++ m.locals

/-- The names of types in the declarations and the body of a method. -/
def MethodDecl.typeNames (m : MethodDecl) : List String :=
  m.returnType.typeName :: m.varDecls.map VarDecl.typeName ++ Stmt.typeNamesAll m.body

namespace Program

/-- Every name that stands for a type somewhere in the program. -/
def typeNames (p : Program) : List String :=
  p.decl.name :: p.decl.superclass.toList ++ p.table.importNames ++
    p.decl.fields.map VarDecl.typeName ++ p.decl.methods.flatMap MethodDecl.typeNames

/-! ## Variables and imports -/

/-- All fields, parameters and local variables. -/
def varDecls (p : Program) : List VarDecl :=
  p.decl.fields ++ p.decl.methods.flatMap MethodDecl.varDecls

/-- No segment of an import path has a dot in it, so that the dotted path has the same parts. -/
def DotFree (p : Program) : Prop :=
  ∀ i ∈ p.imports, ∀ segment ∈ i.path, '.' ∉ segment.toList

instance (p : Program) : Decidable p.DotFree :=
  inferInstanceAs (Decidable (∀ i ∈ p.imports, ∀ segment ∈ i.path, '.' ∉ segment.toList))

end Program

/-! ## Lengths of lists -/

namespace Expr

mutual

/-- The length of the longest array literal or argument list in the expression. -/
def longestList : Expr → Nat
  | lit _ _ | this _ | var _ _ | newObject _ _ => 0
  | not _ operand => operand.longestList
  | binary _ _ lhs rhs => max lhs.longestList rhs.longestList
  | index _ base idx => max base.longestList idx.longestList
  | array _ elements => max elements.length (longestListAll elements)
  | newArray _ _ size => size.longestList
  | length _ base => base.longestList
  | call _ _ args => max args.length (longestListAll args)
  | callOn _ receiver _ args => max receiver.longestList (max args.length (longestListAll args))

def longestListAll : List Expr → Nat
  | [] => 0
  | e :: es => max e.longestList (longestListAll es)

end

theorem longestListAll_le {n : Nat} {es : List Expr} :
    longestListAll es ≤ n ↔ ∀ e ∈ es, e.longestList ≤ n := by
  induction es with
  | nil => exact ⟨fun _ e he ↦ absurd he List.not_mem_nil, fun _ ↦ Nat.zero_le n⟩
  | cons e es ih => rw [longestListAll, Nat.max_le, ih, List.forall_mem_cons]

end Expr

namespace Stmt

mutual

/-- The length of the longest array literal or argument list in the statement. -/
def longestList : Stmt → Nat
  | block _ stmts => longestListAll stmts
  | ifElse _ cond thenBranch elseBranch =>
    max cond.longestList (max thenBranch.longestList elseBranch.longestList)
  | whileLoop _ cond body => max cond.longestList body.longestList
  | eval _ expr => expr.longestList
  | assign _ _ value => value.longestList
  | store _ _ index value => max index.longestList value.longestList
  | ret _ value => value.elim 0 Expr.longestList

def longestListAll : List Stmt → Nat
  | [] => 0
  | stmt :: stmts => max stmt.longestList (longestListAll stmts)

end

theorem longestListAll_le {n : Nat} {stmts : List Stmt} :
    longestListAll stmts ≤ n ↔ ∀ stmt ∈ stmts, stmt.longestList ≤ n := by
  induction stmts with
  | nil => exact ⟨fun _ stmt hs ↦ absurd hs List.not_mem_nil, fun _ ↦ Nat.zero_le n⟩
  | cons stmt stmts ih => rw [longestListAll, Nat.max_le, ih, List.forall_mem_cons]

end Stmt

namespace Program

/-- The length of the longest array literal or argument list in the program. -/
def longestList (p : Program) : Nat :=
  p.decl.methods.foldr (fun m n ↦ max (Stmt.longestListAll m.body) n) 0

theorem longestList_le {p : Program} {n : Nat} :
    p.longestList ≤ n ↔ ∀ m ∈ p.decl.methods, Stmt.longestListAll m.body ≤ n := by
  unfold longestList
  induction p.decl.methods with
  | nil => exact ⟨fun _ m hm ↦ absurd hm List.not_mem_nil, fun _ ↦ Nat.zero_le n⟩
  | cons m ms ih => rw [List.foldr_cons, Nat.max_le, ih, List.forall_mem_cons]

end Program

end Tricode
