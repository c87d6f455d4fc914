import Tricode.Check
import Tricode.Proofs.Trees

/-!
# Accepted programs

A program is accepted if checking it finds no error; warnings do not count. Checking lists
diagnostics, while arguments about accepted trees need the rules themselves. The lemmas of this
file translate: for each form of expression and statement, that its diagnostics hold no error is
the same as its parts being accepted and its own rule being met.
-/

namespace Tricode

open Diagnostic (error warning require)

namespace Diagnostic

/-- No error among the diagnostics. -/
def Clean (ds : List Diagnostic) : Prop := ∀ d ∈ ds, d.isError = false

instance (ds : List Diagnostic) : Decidable (Clean ds) :=
  inferInstanceAs (Decidable (∀ d ∈ ds, d.isError = false))

@[simp] theorem clean_nil : Clean [] := fun _ hd ↦ absurd hd List.not_mem_nil

@[simp] theorem clean_append {ds es : List Diagnostic} :
    Clean (ds ++ es) ↔ Clean ds ∧ Clean es := List.forall_mem_append

@[simp] theorem not_clean_error_cons {pos : Position} {problem : Problem}
    {ds : List Diagnostic} : ¬Clean (error pos problem :: ds) := fun h ↦
  Bool.noConfusion (h _ List.mem_cons_self)

@[simp] theorem clean_require {holds : Bool} {pos : Position} {problem : Problem} :
    Clean (require holds pos problem) ↔ holds = true := by
  cases holds with
  | false => simp
  | true => simp

theorem clean_flatten {dss : List (List Diagnostic)} :
    Clean dss.flatten ↔ ∀ ds ∈ dss, Clean ds := by
  constructor
  · intro h ds hds d hd
    exact h d (List.mem_flatten.mpr ⟨ds, hds, hd⟩)
  · intro h d hd
    obtain ⟨ds, hds, hd⟩ := List.mem_flatten.mp hd
    exact h ds hds d hd

theorem clean_flatMap {α : Type} {xs : List α} {f : α → List Diagnostic} :
    Clean (xs.flatMap f) ↔ ∀ x ∈ xs, Clean (f x) := by
  rw [List.flatMap_def, clean_flatten, List.forall_mem_map]

theorem clean_sort {ds : List Diagnostic} : Clean (sort ds) ↔ Clean ds := by
  have hperm : (sort ds).Perm ds := List.mergeSort_perm ds _
  exact ⟨fun h d hd ↦ h d (hperm.mem_iff.mpr hd), fun h d hd ↦ h d (hperm.mem_iff.mp hd)⟩

end Diagnostic

/-- Where the types of elements agree, each that is known is the common one. -/
theorem Ty.common_of_mem {types : List Ty} {t : Ty}
    (hrule : ∀ elem, common types = some elem → ∀ t ∈ types, t.accepts elem = true)
    (ht : t ∈ types) (hknown : t.isAny = false) : common types = some t := by
  obtain ⟨first, hfirst⟩ : ∃ first, common types = some first := by
    rw [← Option.isSome_iff_exists, common, List.find?_isSome]
    exact ⟨t, ht, by simp [hknown]⟩
  have haccepts := Ty.accepts_iff.mp (hrule first hfirst t ht)
  rw [hknown] at haccepts
  rw [hfirst, haccepts.resolve_left Bool.false_ne_true]

open Diagnostic (Clean clean_flatten clean_flatMap)

theorem clean_unreachableWarnings (stmts : List Stmt) : Clean (unreachableWarnings stmts) := by
  intro d hd
  obtain ⟨stmt, -, rfl⟩ := List.mem_map.mp hd
  rfl

namespace Scope

variable {s : Scope} {pos : Position}

/-! ## Expressions -/

/-- The expression has no error. -/
def Accepts (s : Scope) (e : Expr) : Prop := Clean (s.problems e)

instance (s : Scope) (e : Expr) : Decidable (s.Accepts e) :=
  inferInstanceAs (Decidable (Clean (s.problems e)))

theorem clean_problemsEach {es : List Expr} :
    Clean (s.problemsEach es).flatten ↔ ∀ e ∈ es, s.Accepts e := by
  rw [problemsEach_eq_map, clean_flatten, List.forall_mem_map]
  exact Iff.rfl

theorem accepts_this : s.Accepts (.this pos) ↔ s.method.isStatic = false := by
  show Clean (require _ pos _) ↔ _
  rw [Diagnostic.clean_require, Bool.not_eq_true']

theorem accepts_var {name : String} :
    s.Accepts (.var pos name) ↔ Clean (s.variableProblems pos name) := Iff.rfl

theorem accepts_not {operand : Expr} :
    s.Accepts (.not pos operand) ↔
      s.Accepts operand ∧ (s.typeOf operand).accepts .boolean = true := by
  show Clean (s.problems operand ++ require _ pos _) ↔ _
  rw [Diagnostic.clean_append, Diagnostic.clean_require]
  exact Iff.rfl

theorem accepts_binary {op : BinOp} {lhs rhs : Expr} :
    s.Accepts (.binary pos op lhs rhs) ↔
      s.Accepts lhs ∧ s.Accepts rhs ∧ (s.typeOf lhs).accepts op.operandTy = true ∧
        (s.typeOf rhs).accepts op.operandTy = true := by
  show Clean (s.problems lhs ++ s.problems rhs ++ require _ pos _) ↔ _
  rw [Diagnostic.clean_append, Diagnostic.clean_append, Diagnostic.clean_require,
    Bool.and_eq_true, and_assoc]
  exact Iff.rfl

theorem accepts_index {base idx : Expr} :
    s.Accepts (.index pos base idx) ↔
      s.Accepts base ∧ s.Accepts idx ∧ (s.typeOf idx).accepts .int = true ∧
        ((s.typeOf base).isAny = true ∨ (s.typeOf base).isArray = true) := by
  show Clean (s.problems base ++ s.problems idx ++ require _ idx.pos _ ++ require _ pos _) ↔ _
  rw [Diagnostic.clean_append, Diagnostic.clean_append, Diagnostic.clean_append,
    Diagnostic.clean_require, Diagnostic.clean_require, Bool.or_eq_true, and_assoc, and_assoc]
  exact Iff.rfl

theorem accepts_newArray {elem : TypeExpr} {size : Expr} :
    s.Accepts (.newArray pos elem size) ↔
      s.Accepts size ∧ (s.typeOf size).accepts .int = true := by
  show Clean (s.problems size ++ require _ size.pos _) ↔ _
  rw [Diagnostic.clean_append, Diagnostic.clean_require]
  exact Iff.rfl

theorem accepts_length {base : Expr} :
    s.Accepts (.length pos base) ↔
      s.Accepts base ∧ ((s.typeOf base).isAny = true ∨ (s.typeOf base).isArray = true) := by
  show Clean (s.problems base ++ require _ pos _) ↔ _
  rw [Diagnostic.clean_append, Diagnostic.clean_require, Bool.or_eq_true]
  exact Iff.rfl

theorem accepts_array {elements : List Expr} :
    s.Accepts (.array pos elements) ↔
      (∀ e ∈ elements, s.Accepts e) ∧
        ∀ elem, Ty.common (s.typesOf elements) = some elem →
          ∀ e ∈ elements, (s.typeOf e).accepts elem = true := by
  show Clean (s.elementProblems elements (s.problemsEach elements)) ↔ _
  rw [elementProblems, clean_flatten, problemsEach_eq_map,
    List.zipWith_map_left, List.zipWith_self, List.forall_mem_map]
  cases hcommon : Ty.common (s.typesOf elements) with
  | none => simp [Accepts]
  | some elem =>
    simp only [Diagnostic.clean_append, Diagnostic.clean_require, Option.some.injEq, forall_eq']
    exact ⟨fun h ↦ ⟨fun e he ↦ (h e he).1, fun e he ↦ (h e he).2⟩,
      fun h e he ↦ ⟨h.1 e he, h.2 e he⟩⟩

/-- The types of the elements of an accepted literal agree. -/
theorem accepts_of_common {elements : List Expr} (h : s.Accepts (.array pos elements)) :
    ∀ elem, Ty.common (s.typesOf elements) = some elem →
      ∀ t ∈ s.typesOf elements, t.accepts elem = true := by
  intro elem helem
  rw [typesOf_eq_map, List.forall_mem_map]
  exact (accepts_array.mp h).2 elem helem

/-- The rule for a call to a method of the class itself, whatever the arguments are. -/
theorem clean_ownCallProblems {implicitThis : Bool} {method : String} {args : List Argument}
    {faults : List Diagnostic} :
    Clean (s.ownCallProblems pos implicitThis method args faults) ↔
      Clean faults ∧ Clean (s.ownCallProblems pos implicitThis method args []) := by
  unfold ownCallProblems
  cases s.table.method? method with
  | none => simp
  | some sig =>
    simp only [Diagnostic.clean_append, Diagnostic.clean_nil, and_true]
    rw [and_assoc, and_left_comm]

theorem accepts_call {method : String} {args : List Expr} :
    s.Accepts (.call pos method args) ↔
      (∀ e ∈ args, s.Accepts e) ∧
        Clean (s.ownCallProblems pos true method (s.arguments args) []) := by
  show Clean (s.ownCallProblems pos true method _ (s.problemsEach args).flatten) ↔ _
  rw [clean_ownCallProblems, clean_problemsEach]

theorem accepts_callOn {receiver : Expr} {method : String} {args : List Expr} :
    s.Accepts (.callOn pos receiver method args) ↔
      s.Accepts receiver ∧ (∀ e ∈ args, s.Accepts e) ∧
        s.table.responder (s.typeOf receiver) ≠ .nobody ∧
        (s.table.responder (s.typeOf receiver) = .own →
          Clean (s.ownCallProblems pos false method (s.arguments args) [])) := by
  show Clean (s.problems receiver ++ _) ↔ _
  rw [Diagnostic.clean_append]
  refine and_congr_right fun _ ↦ ?_
  cases s.table.responder (s.typeOf receiver) with
  | own =>
    rw [clean_ownCallProblems, clean_problemsEach]
    exact and_congr_right fun _ ↦ ⟨fun h ↦ ⟨nofun, fun _ ↦ h⟩, fun h ↦ h.2 rfl⟩
  | foreign => simp [clean_problemsEach]
  | nobody => simp

/-! ## Statements -/

/-- The statement has no error, in itself or in its expressions. -/
def AcceptsStmt (s : Scope) (stmt : Stmt) : Prop :=
  Clean (s.stmtProblems stmt) ∧ Clean (s.exprProblems stmt)

theorem acceptsStmt_block {stmts : List Stmt} :
    s.AcceptsStmt (.block pos stmts) ↔ ∀ stmt ∈ stmts, s.AcceptsStmt stmt := by
  show Clean (unreachableWarnings stmts ++ s.stmtsProblems stmts) ∧
    Clean (s.exprsProblems stmts) ↔ _
  rw [Diagnostic.clean_append, stmtsProblems_eq_flatMap, exprsProblems_eq_flatMap, clean_flatMap,
    clean_flatMap]
  constructor
  · rintro ⟨⟨-, hstmt⟩, hexpr⟩ stmt hmem
    exact ⟨hstmt stmt hmem, hexpr stmt hmem⟩
  · intro h
    exact ⟨⟨clean_unreachableWarnings stmts, fun stmt hmem ↦ (h stmt hmem).1⟩,
      fun stmt hmem ↦ (h stmt hmem).2⟩

theorem clean_conditionProblems {construct : String} {cond : Expr} :
    Clean (s.conditionProblems construct cond) ↔ (s.typeOf cond).accepts .boolean = true := by
  unfold conditionProblems
  cases haccepts : (s.typeOf cond).accepts .boolean with
  | true => simp [haccepts]
  | false => cases harray : (s.typeOf cond).isArray <;> simp [haccepts, harray]

theorem acceptsStmt_ifElse {cond : Expr} {thenBranch elseBranch : Stmt} :
    s.AcceptsStmt (.ifElse pos cond thenBranch elseBranch) ↔
      s.Accepts cond ∧ (s.typeOf cond).accepts .boolean = true ∧ s.AcceptsStmt thenBranch ∧
        s.AcceptsStmt elseBranch := by
  show Clean (s.conditionProblems "if" cond ++ s.stmtProblems thenBranch ++
      s.stmtProblems elseBranch) ∧
    Clean (s.problems cond ++ s.exprProblems thenBranch ++ s.exprProblems elseBranch) ↔ _
  simp only [Diagnostic.clean_append, clean_conditionProblems]
  constructor
  · rintro ⟨⟨⟨hty, ht⟩, he⟩, ⟨hcond, ht'⟩, he'⟩
    exact ⟨hcond, hty, ⟨ht, ht'⟩, he, he'⟩
  · rintro ⟨hcond, hty, ⟨ht, ht'⟩, he, he'⟩
    exact ⟨⟨⟨hty, ht⟩, he⟩, ⟨hcond, ht'⟩, he'⟩

theorem acceptsStmt_whileLoop {cond : Expr} {body : Stmt} :
    s.AcceptsStmt (.whileLoop pos cond body) ↔
      s.Accepts cond ∧ (s.typeOf cond).accepts .boolean = true ∧ s.AcceptsStmt body := by
  show Clean (s.conditionProblems "while" cond ++ s.stmtProblems body) ∧
    Clean (s.problems cond ++ s.exprProblems body) ↔ _
  simp only [Diagnostic.clean_append, clean_conditionProblems]
  constructor
  · rintro ⟨⟨hty, hb⟩, hcond, hb'⟩
    exact ⟨hcond, hty, hb, hb'⟩
  · rintro ⟨hcond, hty, hb, hb'⟩
    exact ⟨⟨hty, hb⟩, hcond, hb'⟩

theorem acceptsStmt_eval {expr : Expr} : s.AcceptsStmt (.eval pos expr) ↔ s.Accepts expr :=
  and_iff_right Diagnostic.clean_nil

theorem acceptsStmt_assign {target : String} {value : Expr} :
    s.AcceptsStmt (.assign pos target value) ↔
      s.Accepts value ∧ Clean (s.targetProblems pos target) ∧
        Ty.assignable s.table.env (s.targetTy target) (s.typeOf value) = true := by
  show Clean (s.assignProblems target value) ∧
    Clean (s.problems value ++ s.targetProblems pos target) ↔ _
  rw [assignProblems, Diagnostic.clean_require, Diagnostic.clean_append, and_comm, and_assoc]
  exact Iff.rfl

theorem acceptsStmt_store {target : String} {index value : Expr} :
    s.AcceptsStmt (.store pos target index value) ↔
      Clean (s.targetProblems pos target) ∧ s.Accepts index ∧ s.Accepts value ∧
        (s.typeOf index).accepts .int = true ∧
        ((s.targetTy target).isAny = true ∨ (s.targetTy target).isArray = true ∧
          Ty.assignable s.table.env (s.targetTy target).element (s.typeOf value) = true) := by
  have hrule : Clean (s.storeProblems pos target index value) ↔
      (s.typeOf index).accepts .int = true ∧
        ((s.targetTy target).isAny = true ∨ (s.targetTy target).isArray = true ∧
          Ty.assignable s.table.env (s.targetTy target).element (s.typeOf value) = true) := by
    unfold storeProblems
    cases hany : (s.targetTy target).isAny <;>
      cases harray : (s.targetTy target).isArray <;> simp [hany, harray]
  show Clean (s.storeProblems pos target index value) ∧
    Clean (s.targetProblems pos target ++ s.problems index ++ s.problems value) ↔ _
  rw [hrule, Diagnostic.clean_append, Diagnostic.clean_append]
  constructor
  · rintro ⟨hrules, ⟨htarget, hindex⟩, hvalue⟩
    exact ⟨htarget, hindex, hvalue, hrules⟩
  · rintro ⟨htarget, hindex, hvalue, hrules⟩
    exact ⟨hrules, ⟨htarget, hindex⟩, hvalue⟩

theorem acceptsStmt_ret_none :
    s.AcceptsStmt (.ret pos none) ↔ s.method.returnType.isVoid = true := by
  show Clean (require s.method.returnType.isVoid pos _) ∧ Clean [] ↔ _
  rw [Diagnostic.clean_require]
  exact and_iff_left Diagnostic.clean_nil

theorem acceptsStmt_ret_some {value : Expr} :
    s.AcceptsStmt (.ret pos (some value)) ↔
      s.Accepts value ∧ s.method.returnType.isVoid = false ∧
        Ty.assignable s.table.env s.method.returnType (s.typeOf value) = true := by
  have hrule : Clean (s.returnProblems pos (some value)) ↔
      s.method.returnType.isVoid = false ∧
        Ty.assignable s.table.env s.method.returnType (s.typeOf value) = true := by
    unfold returnProblems
    cases hvoid : s.method.returnType.isVoid <;> simp [hvoid]
  show Clean (s.returnProblems pos (some value)) ∧ Clean (s.problems value) ↔ _
  rw [hrule, and_comm]
  exact Iff.rfl

end Scope

/-! ## Programs -/

/-- What checking asks of a method beside the uniqueness of its name. -/
theorem MethodDecl.clean_problems {t : Table} {m : MethodDecl} :
    Clean (m.problems t) ↔ Clean m.shapeProblems ∧ Clean m.declarationProblems ∧
      ∀ stmt ∈ m.body, Scope.AcceptsStmt ⟨t, m.signature⟩ stmt := by
  simp only [MethodDecl.problems, Scope.bodyProblems, Diagnostic.clean_append,
    Scope.stmtsProblems_eq_flatMap, Scope.exprsProblems_eq_flatMap, clean_flatMap,
    clean_unreachableWarnings, true_and, and_assoc, Scope.AcceptsStmt, forall_and]

namespace Program

/-- Checking the program finds no error. -/
def Accepted (p : Program) : Prop := Clean p.check

instance (p : Program) : Decidable p.Accepted := inferInstanceAs (Decidable (Clean p.check))

theorem accepted_iff {p : Program} :
    p.Accepted ↔ Clean p.importProblems ∧ Clean p.fieldProblems ∧ Clean p.methodProblems := by
  rw [Accepted, check, Diagnostic.clean_sort, Diagnostic.clean_append, Diagnostic.clean_append,
    and_assoc]

theorem clean_go_cons {p : Program} {seen : List String} {m : MethodDecl} {ms : List MethodDecl} :
    Clean (methodProblems.go p seen (m :: ms)) ↔ m.name ∉ seen ∧ Clean (m.problems p.table) ∧
      Clean (methodProblems.go p (m.name :: seen) ms) := by
  rw [methodProblems.go, Diagnostic.clean_append, Diagnostic.clean_append, Diagnostic.clean_require,
    and_assoc]
  simp

theorem clean_problems_of_clean_go {p : Program} {seen : List String} {ms : List MethodDecl}
    (h : Clean (methodProblems.go p seen ms)) : ∀ m ∈ ms, Clean (m.problems p.table) := by
  induction ms generalizing seen with
  | nil => exact fun m hm ↦ absurd hm List.not_mem_nil
  | cons m ms ih =>
    obtain ⟨-, hm, hms⟩ := clean_go_cons.mp h
    exact List.forall_mem_cons.mpr ⟨hm, ih hms⟩

/-- Every statement of an accepted program is accepted where it stands. -/
theorem Accepted.acceptsStmt {p : Program} (h : p.Accepted) {m : MethodDecl}
    (hm : m ∈ p.decl.methods) {stmt : Stmt} (hstmt : stmt ∈ m.body) :
    Scope.AcceptsStmt ⟨p.table, m.signature⟩ stmt :=
  (MethodDecl.clean_problems.mp
    (clean_problems_of_clean_go (accepted_iff.mp h).2.2 m hm)).2.2 stmt hstmt

theorem Accepted.name_not_mem_imports {p : Program} (h : p.Accepted) :
    p.decl.name ∉ p.imports.map Import.name := by
  have hclean := (accepted_iff.mp h).1
  rw [importProblems, Diagnostic.clean_append, Diagnostic.clean_require] at hclean
  simpa using hclean.2

end Program

end Tricode
