import Tricode.Proofs.Acceptance

/-!
# Who reports what

Checking puts the diagnostics of all its rules into one list. To say something about one kind of
diagnostic one has to know which rules report it. Two kinds come from one place each: warnings from
lists of statements that go on after a return, and repeated names from declarations. Whatever else
is reported of the body of a method is an error of another kind.

So the warnings of a unit are a matter of its trees alone. They are collected here without a scope,
and they are all that is reported of a unit that is accepted.
-/

namespace Tricode

open Diagnostic (Clean error require)

/-! ## Kinds of problems -/

namespace Problem

/-- Something is declared under a name that an earlier declaration of its kind has. -/
def isRepetition : Problem → Bool
  | duplicateLocal _ | duplicateParam _ | duplicateField _ | duplicateMethod _
  | duplicateImport _ => true
  | _ => false

/-- The class has the name of an import. -/
def isNameClash : Problem → Bool
  | classNamedLikeImport _ => true
  | _ => false

/-- The problem is with declarations of one name, not with how anything is used. -/
def isUniqueness (problem : Problem) : Bool := problem.isRepetition || problem.isNameClash

end Problem

/-! ## Warnings -/

namespace Stmt

mutual

/-- One warning for each list of statements that goes on after a return. -/
def warnings : Stmt → List Diagnostic
  | block _ stmts => unreachableWarnings stmts ++ warningsAll stmts
  | ifElse _ _ thenBranch elseBranch => thenBranch.warnings ++ elseBranch.warnings
  | whileLoop _ _ body => body.warnings
  | eval _ _ | assign _ _ _ | store _ _ _ _ | ret _ _ => []

def warningsAll : List Stmt → List Diagnostic
  | [] => []
  | stmt :: stmts => stmt.warnings ++ warningsAll stmts

end

theorem warningsAll_eq_flatMap (stmts : List Stmt) :
    warningsAll stmts = stmts.flatMap warnings := by
  induction stmts with
  | nil => rfl
  | cons stmt stmts ih => rw [warningsAll, ih, List.flatMap_cons]

end Stmt

/-- The body as one statement. -/
def MethodDecl.block (m : MethodDecl) : Stmt := .block m.pos m.body

/-- The warnings about all bodies, in order. -/
def Program.warnings (p : Program) : List Diagnostic :=
  p.decl.methods.flatMap fun m ↦ m.block.warnings

/-! ## What is reported of a body -/

namespace Diagnostic

/-- Of the diagnostics, `ws` are the warnings, in order, and none is about the uniqueness of a
name. -/
structure OfBody (ds ws : List Diagnostic) : Prop where
  warnings : ds.filter (fun d ↦ !d.isError) = ws
  problem : ∀ d ∈ ds, d.problem.isUniqueness = false

namespace OfBody

variable {ds ds' ws ws' : List Diagnostic} {pos : Position} {problem : Problem}

theorem nil : OfBody [] [] := ⟨rfl, fun _ hd ↦ absurd hd List.not_mem_nil⟩

theorem append (h : OfBody ds ws) (h' : OfBody ds' ws') : OfBody (ds ++ ds') (ws ++ ws') := by
  refine ⟨?_, List.forall_mem_append.mpr ⟨h.problem, h'.problem⟩⟩
  rw [List.filter_append, h.warnings, h'.warnings]

theorem append_errors (h : OfBody ds ws) (h' : OfBody ds' []) : OfBody (ds ++ ds') ws :=
  List.append_nil ws ▸ h.append h'

theorem error (h : problem.isUniqueness = false) : OfBody [error pos problem] [] :=
  ⟨rfl, List.forall_mem_singleton.mpr h⟩

theorem require {holds : Bool} (h : problem.isUniqueness = false) :
    OfBody (require holds pos problem) [] := by
  cases holds with
  | true => exact .nil
  | false => exact .error h

theorem flatten {dss : List (List Diagnostic)} (h : ∀ ds ∈ dss, OfBody ds []) :
    OfBody dss.flatten [] := by
  induction dss with
  | nil => exact .nil
  | cons ds dss ih =>
    obtain ⟨hhead, htail⟩ := List.forall_mem_cons.mp h
    exact hhead.append (ih htail)

theorem flatMap {α : Type} {xs : List α} {f : α → List Diagnostic}
    (h : ∀ x ∈ xs, OfBody (f x) []) : OfBody (xs.flatMap f) [] := by
  rw [List.flatMap_def]
  exact .flatten (List.forall_mem_map.mpr h)

end OfBody

end Diagnostic

open Diagnostic (OfBody)

namespace Scope

variable {s : Scope} {pos : Position}

/-! ### Expressions -/

theorem ofBody_variableProblems {name : String} : OfBody (s.variableProblems pos name) [] := by
  unfold variableProblems
  split
  · exact .require rfl
  · exact .nil
  · exact .nil
  · exact .error rfl

theorem ofBody_targetProblems {name : String} : OfBody (s.targetProblems pos name) [] := by
  unfold targetProblems
  split
  · exact .error rfl
  · exact ofBody_variableProblems

theorem ofBody_trailingArgumentProblems {sig : Signature} {slot : Symbol} {args : List Argument} :
    OfBody (trailingArgumentProblems sig slot args) [] := by
  unfold trailingArgumentProblems
  split
  · exact .require rfl
  · exact .flatMap fun _ _ ↦ .require rfl

theorem ofBody_argumentProblems {sig : Signature} {args : List Argument} :
    OfBody (s.argumentProblems sig pos args) [] := by
  have hfixed : OfBody (s.fixedArgumentProblems sig args) [] := .flatMap fun _ _ ↦ .require rfl
  unfold argumentProblems
  split
  · refine hfixed.append ?_
    split
    · exact ofBody_trailingArgumentProblems
    · exact .nil
  · exact .error rfl

theorem ofBody_ownCallProblems {implicitThis : Bool} {method : String} {args : List Argument}
    {faults : List Diagnostic} (h : OfBody faults []) :
    OfBody (s.ownCallProblems pos implicitThis method args faults) [] := by
  unfold ownCallProblems
  split
  · exact ((OfBody.require rfl).append h).append ofBody_argumentProblems
  · exact h.append (.require rfl)

theorem ofBody_elementProblems {elements : List Expr}
    (h : ∀ e ∈ elements, OfBody (s.problems e) []) :
    OfBody (s.elementProblems elements (s.problemsEach elements)) [] := by
  rw [elementProblems, problemsEach_eq_map, List.zipWith_map_left, List.zipWith_self]
  refine .flatten (List.forall_mem_map.mpr fun e he ↦ (h e he).append ?_)
  cases Ty.common (s.typesOf elements) with
  | none => exact .nil
  | some elem => exact .require rfl

theorem ofBody_problems (s : Scope) (e : Expr) : OfBody (s.problems e) [] := by
  have heach : ∀ {es : List Expr}, (∀ e ∈ es, OfBody (s.problems e) []) →
      ∀ ds ∈ s.problemsEach es, OfBody ds [] := by
    intro es h
    rw [problemsEach_eq_map]
    exact List.forall_mem_map.mpr h
  induction e using Expr.memberInduct with
  | lit | newObject => exact .nil
  | this p => exact .require rfl
  | var p name => exact ofBody_variableProblems
  | not p operand ih => exact ih.append (.require rfl)
  | binary p op lhs rhs ihl ihr => exact (ihl.append ihr).append (.require rfl)
  | index p base idx ihb ihi =>
    exact ((ihb.append ihi).append (.require rfl)).append (.require rfl)
  | array p elements ih => exact ofBody_elementProblems ih
  | newArray p elem size ih => exact ih.append (.require rfl)
  | length p base ih => exact ih.append (.require rfl)
  | call p method args ih => exact ofBody_ownCallProblems (.flatten (heach ih))
  | callOn p receiver method args ihr iha =>
    refine ihr.append ?_
    split
    · exact ofBody_ownCallProblems (.flatten (heach iha))
    · exact .flatten (heach iha)
    · exact (OfBody.error rfl).append (.flatten (heach iha))

/-! ### Statements -/

theorem ofBody_conditionProblems {construct : String} {cond : Expr} :
    OfBody (s.conditionProblems construct cond) [] := by
  dsimp only [conditionProblems]
  split
  · exact .nil
  · split
    · exact .error rfl
    · exact .error rfl

theorem ofBody_storeProblems {target : String} {index value : Expr} :
    OfBody (s.storeProblems pos target index value) [] := by
  refine (OfBody.require rfl).append ?_
  split
  · exact .nil
  · split
    · exact .require rfl
    · exact .error rfl

theorem ofBody_returnProblems {value : Option Expr} : OfBody (s.returnProblems pos value) [] := by
  cases value with
  | none => exact .require rfl
  | some value =>
    dsimp only [returnProblems]
    split
    · exact .error rfl
    · exact .require rfl

theorem ofBody_unreachableWarnings (stmts : List Stmt) :
    OfBody (unreachableWarnings stmts) (unreachableWarnings stmts) := by
  refine ⟨List.filter_eq_self.mpr fun d hd ↦ ?_, fun d hd ↦ ?_⟩
  · rw [clean_unreachableWarnings stmts d hd]
    rfl
  · obtain ⟨stmt, -, rfl⟩ := List.mem_map.mp hd
    rfl

theorem ofBody_stmtsProblems_of {stmts : List Stmt}
    (h : ∀ stmt ∈ stmts, OfBody (s.stmtProblems stmt) stmt.warnings) :
    OfBody (s.stmtsProblems stmts) (Stmt.warningsAll stmts) := by
  induction stmts with
  | nil => exact .nil
  | cons stmt stmts ih =>
    obtain ⟨hhead, htail⟩ := List.forall_mem_cons.mp h
    exact hhead.append (ih htail)

theorem ofBody_stmtProblems (s : Scope) (stmt : Stmt) :
    OfBody (s.stmtProblems stmt) stmt.warnings := by
  induction stmt using Stmt.memberInduct with
  | block p stmts ih => exact (ofBody_unreachableWarnings stmts).append (ofBody_stmtsProblems_of ih)
  | ifElse p cond thenBranch elseBranch ihThen ihElse =>
    exact (ofBody_conditionProblems.append ihThen).append ihElse
  | whileLoop p cond body ihBody => exact ofBody_conditionProblems.append ihBody
  | eval p expr => exact .nil
  | assign p target value => exact .require rfl
  | store p target index value => exact ofBody_storeProblems
  | ret p value => exact ofBody_returnProblems

theorem ofBody_exprProblems (s : Scope) (stmt : Stmt) : OfBody (s.exprProblems stmt) [] := by
  induction stmt using Stmt.memberInduct with
  | block p stmts ih =>
    rw [exprProblems, exprsProblems_eq_flatMap]
    exact .flatMap ih
  | ifElse p cond thenBranch elseBranch ihThen ihElse =>
    exact ((s.ofBody_problems cond).append ihThen).append ihElse
  | whileLoop p cond body ihBody => exact (s.ofBody_problems cond).append ihBody
  | eval p expr => exact s.ofBody_problems expr
  | assign p target value => exact (s.ofBody_problems value).append ofBody_targetProblems
  | store p target index value =>
    exact (ofBody_targetProblems.append (s.ofBody_problems index)).append (s.ofBody_problems value)
  | ret p value =>
    cases value with
    | none => exact .nil
    | some value => exact s.ofBody_problems value

theorem ofBody_bodyProblems (s : Scope) (m : MethodDecl) :
    OfBody (s.bodyProblems m.body) m.block.warnings := by
  refine ((ofBody_unreachableWarnings m.body).append
    (ofBody_stmtsProblems_of fun stmt _ ↦ s.ofBody_stmtProblems stmt)).append_errors ?_
  rw [exprsProblems_eq_flatMap]
  exact .flatMap fun stmt _ ↦ s.ofBody_exprProblems stmt

end Scope

/-! ## What is reported of a unit -/

theorem MethodDecl.ofBody_shapeProblems (m : MethodDecl) : OfBody m.shapeProblems [] := by
  unfold shapeProblems
  split
  · exact (OfBody.require rfl).append (.require rfl)
  · exact .require rfl

namespace Diagnostic

theorem filter_map_error {α : Type} (xs : List α) (pos : α → Position) (problem : α → Problem) :
    (xs.map fun x ↦ error (pos x) (problem x)).filter (fun d ↦ !d.isError) = [] :=
  List.filter_eq_nil_iff.mpr (List.forall_mem_map.mpr fun _ _ ↦ Bool.false_ne_true)

theorem filter_require (holds : Bool) (pos : Position) (problem : Problem) :
    (require holds pos problem).filter (fun d ↦ !d.isError) = [] := by
  cases holds <;> rfl

end Diagnostic

namespace Program

variable {p : Program}

/-- All warnings come from bodies. -/
theorem filter_methodProblems_go (p : Program) (seen : List String) (ms : List MethodDecl) :
    (methodProblems.go p seen ms).filter (fun d ↦ !d.isError) =
      ms.flatMap fun m ↦ m.block.warnings := by
  induction ms generalizing seen with
  | nil => rfl
  | cons m ms ih =>
    simp only [methodProblems.go, MethodDecl.problems, MethodDecl.declarationProblems,
      List.filter_append, Diagnostic.filter_require, Diagnostic.filter_map_error,
      m.ofBody_shapeProblems.warnings, (Scope.ofBody_bodyProblems _ m).warnings, ih,
      List.nil_append, List.flatMap_cons]

theorem filter_problems (p : Program) :
    (p.importProblems ++ p.fieldProblems ++ p.methodProblems).filter (fun d ↦ !d.isError) =
      p.warnings := by
  simp only [importProblems, fieldProblems, methodProblems, List.filter_append,
    Diagnostic.filter_map_error, Diagnostic.filter_require, filter_methodProblems_go,
    List.nil_append, warnings]

/-- A warning that checking gives is one of the trees, and the other way round. -/
theorem mem_warnings_iff {d : Diagnostic} :
    d ∈ p.warnings ↔ d ∈ p.check ∧ d.isError = false := by
  rw [← filter_problems, List.mem_filter, Bool.not_eq_true', check, Diagnostic.sort,
    List.mem_mergeSort]

/-- Of an accepted unit just the warnings are reported. -/
theorem Accepted.check_eq (h : p.Accepted) : p.check = Diagnostic.sort p.warnings := by
  have hclean := Diagnostic.clean_sort.mp h
  rw [check, ← filter_problems, List.filter_eq_self.mpr]
  intro d hd
  rw [hclean d hd]
  rfl

end Program

end Tricode
