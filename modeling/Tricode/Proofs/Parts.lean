import Tricode.Proofs.AcceptedFaults

/-!
# The parts of a tree

A statement about every expression in a method, however deep, is about the parts of its body. The
parts of an expression are the expression itself and those of its children. So what is handed down
from an expression to its children is true of every part, and what is handed down is said here:
that checking has nothing against the expression, that it names no type like the unknown one, and
that lowering meets no fault in it.
-/

namespace Tricode

/-! ## Parts -/

namespace Expr

/-- The expressions right under an expression. -/
def children : Expr → List Expr
  | lit _ _ | this _ | var _ _ | newObject _ _ => []
  | not _ operand => [operand]
  | binary _ _ lhs rhs => [lhs, rhs]
  | index _ base idx => [base, idx]
  | array _ elements => elements
  | newArray _ _ size => [size]
  | length _ base => [base]
  | call _ _ args => args
  | callOn _ receiver _ args => receiver :: args

/-- The expression itself, its children, theirs, and so on. -/
inductive Part (e : Expr) : Expr → Prop
  | self : Part e e
  | child {part child : Expr} : Part e part → child ∈ part.children → Part e child

theorem Part.of_children {P : Expr → Prop} (hP : ∀ e, P e → ∀ child ∈ e.children, P child)
    {e part : Expr} (h : e.Part part) (he : P e) : P part := by
  induction h with
  | self => exact he
  | child _ hchild ih => exact hP _ ih _ hchild

end Expr

namespace Stmt

mutual

/-- The expressions that stand in a statement. -/
def exprs : Stmt → List Expr
  | block _ stmts => exprsAll stmts
  | ifElse _ cond thenBranch elseBranch => cond :: (thenBranch.exprs ++ elseBranch.exprs)
  | whileLoop _ cond body => cond :: body.exprs
  | eval _ expr => [expr]
  | assign _ _ value => [value]
  | store _ _ index value => [index, value]
  | ret _ value => value.toList

def exprsAll : List Stmt → List Expr
  | [] => []
  | stmt :: stmts => stmt.exprs ++ exprsAll stmts

end

theorem exprsAll_eq_flatMap (stmts : List Stmt) : exprsAll stmts = stmts.flatMap exprs := by
  induction stmts with
  | nil => rfl
  | cons stmt stmts ih => rw [exprsAll, ih, List.flatMap_cons]

end Stmt

/-- The expression stands somewhere in the body of the method. -/
def MethodDecl.HasPart (m : MethodDecl) (e : Expr) : Prop :=
  ∃ top ∈ Stmt.exprsAll m.body, top.Part e

/-! ## What is handed down -/

namespace Lower

/-- Where the arguments of a call meet no fault, none of them does. -/
theorem eq_nil_of_argumentFaults {callee : Option Signature} {fss : List (List Fault)}
    (h : argumentFaults callee fss = []) : ∀ fs ∈ fss, fs = [] := by
  rw [← List.flatten_eq_nil_iff]
  cases callee with
  | none => exact h
  | some sig =>
    rw [argumentFaults] at h
    split at h
    · rw [List.append_eq_nil_iff, List.append_eq_nil_iff] at h
      rw [← List.take_append_drop sig.fixedArity fss, List.flatten_append, h.1, h.2.2]
      rfl
    · exact h

end Lower

namespace Scope

variable {s : Scope} {pos : Position}

/-- Nothing stands in the way of the expression, neither in checking nor in lowering. -/
structure Compiles (s : Scope) (e : Expr) : Prop where
  accepts : s.Accepts e
  typeNames : "<any>" ∉ e.typeNames
  faults : s.faults e = []

theorem compiles_of_mem {es : List Expr} (haccepts : ∀ e ∈ es, s.Accepts e)
    (hnames : "<any>" ∉ Expr.typeNamesAll es) (hfaults : ∀ fs ∈ s.faultsEach es, fs = []) :
    ∀ e ∈ es, s.Compiles e := by
  intro e he
  rw [Expr.not_mem_typeNamesAll] at hnames
  rw [faultsEach_eq_map, List.forall_mem_map] at hfaults
  exact ⟨haccepts e he, hnames e he, hfaults e he⟩

theorem Compiles.children {e : Expr} (h : s.Compiles e) :
    ∀ child ∈ e.children, s.Compiles child := by
  obtain ⟨haccepts, hnames, hfaults⟩ := h
  cases e with
  | lit | this | var | newObject => exact fun child hchild ↦ absurd hchild List.not_mem_nil
  | not p operand =>
    exact List.forall_mem_singleton.mpr ⟨(accepts_not.mp haccepts).1, hnames, hfaults⟩
  | binary p op lhs rhs =>
    obtain ⟨hl, hr, -⟩ := accepts_binary.mp haccepts
    rw [Expr.typeNames, List.mem_append, not_or] at hnames
    rw [Scope.faults, List.append_eq_nil_iff] at hfaults
    exact List.forall_mem_cons.mpr ⟨⟨hl, hnames.1, hfaults.1⟩,
      List.forall_mem_singleton.mpr ⟨hr, hnames.2, hfaults.2⟩⟩
  | index p base idx =>
    obtain ⟨hb, hi, -⟩ := accepts_index.mp haccepts
    rw [Expr.typeNames, List.mem_append, not_or] at hnames
    rw [Scope.faults, List.append_eq_nil_iff] at hfaults
    exact List.forall_mem_cons.mpr ⟨⟨hb, hnames.1, hfaults.1⟩,
      List.forall_mem_singleton.mpr ⟨hi, hnames.2, hfaults.2⟩⟩
  | array p elements =>
    rw [Scope.faults, List.append_eq_nil_iff, List.flatten_eq_nil_iff] at hfaults
    exact compiles_of_mem (accepts_array.mp haccepts).1 hnames hfaults.2
  | newArray p elem size =>
    rw [Expr.typeNames, List.mem_cons, not_or] at hnames
    exact List.forall_mem_singleton.mpr ⟨(accepts_newArray.mp haccepts).1, hnames.2, hfaults⟩
  | length p base =>
    exact List.forall_mem_singleton.mpr ⟨(accepts_length.mp haccepts).1, hnames, hfaults⟩
  | call p method args =>
    exact compiles_of_mem (accepts_call.mp haccepts).1 hnames
      (Lower.eq_nil_of_argumentFaults hfaults)
  | callOn p receiver method args =>
    obtain ⟨hr, hargs, -⟩ := accepts_callOn.mp haccepts
    rw [Expr.typeNames, List.mem_append, not_or] at hnames
    rw [Scope.faults, List.append_eq_nil_iff, List.append_eq_nil_iff] at hfaults
    exact List.forall_mem_cons.mpr ⟨⟨hr, hnames.1, hfaults.1.1⟩,
      compiles_of_mem hargs hnames.2 (Lower.eq_nil_of_argumentFaults hfaults.2)⟩

theorem Compiles.part {e part : Expr} (h : s.Compiles e) (hpart : e.Part part) : s.Compiles part :=
  hpart.of_children (fun _ ↦ Compiles.children) h

/-- Where a call is reported makes no difference to whether it has a fault. -/
theorem faults_eq_nil_of_reportedAt {e : Expr} (h : s.faults (e.reportedAt pos) = []) :
    s.faults e = [] := by
  cases e with
  | callOn p receiver method args =>
    rw [Expr.reportedAt, faults, List.append_eq_nil_iff, List.append_eq_nil_iff,
      receiverFaults_eq_nil] at h
    rw [faults, h.1.1, receiverFaults_eq_nil.mpr h.1.2, h.2]
    rfl
  | _ => exact h

theorem compiles_exprs {stmt : Stmt} : s.AcceptsStmt stmt → "<any>" ∉ stmt.typeNames →
    s.stmtFaults stmt = [] → ∀ e ∈ stmt.exprs, s.Compiles e := by
  induction stmt using Stmt.memberInduct with
  | block p stmts ih =>
    intro haccepts hnames hfaults
    rw [Stmt.typeNames, Stmt.not_mem_typeNamesAll] at hnames
    rw [stmtFaults, stmtsFaults_eq_flatMap, List.flatMap_eq_nil_iff] at hfaults
    rw [Stmt.exprs, Stmt.exprsAll_eq_flatMap, List.forall_mem_flatMap]
    exact fun stmt hstmt ↦ ih stmt hstmt (acceptsStmt_block.mp haccepts stmt hstmt)
      (hnames stmt hstmt) (hfaults stmt hstmt)
  | ifElse p cond thenBranch elseBranch ihThen ihElse =>
    intro haccepts hnames hfaults
    obtain ⟨hcond, -, hthen, helse⟩ := acceptsStmt_ifElse.mp haccepts
    simp only [Stmt.typeNames, List.mem_append, not_or] at hnames
    rw [stmtFaults, List.append_eq_nil_iff, List.append_eq_nil_iff] at hfaults
    rw [Stmt.exprs, List.forall_mem_cons, List.forall_mem_append]
    exact ⟨⟨hcond, hnames.1.1, hfaults.1⟩, ihThen hthen hnames.1.2 hfaults.2.2,
      ihElse helse hnames.2 hfaults.2.1⟩
  | whileLoop p cond body ihBody =>
    intro haccepts hnames hfaults
    obtain ⟨hcond, -, hbody⟩ := acceptsStmt_whileLoop.mp haccepts
    rw [Stmt.typeNames, List.mem_append, not_or] at hnames
    rw [stmtFaults, List.append_eq_nil_iff] at hfaults
    rw [Stmt.exprs, List.forall_mem_cons]
    exact ⟨⟨hcond, hnames.1, hfaults.1⟩, ihBody hbody hnames.2 hfaults.2⟩
  | eval p expr =>
    -- A fault of the outermost call is reported at the statement, not at the call.
    intro haccepts hnames hfaults
    exact List.forall_mem_singleton.mpr
      ⟨acceptsStmt_eval.mp haccepts, hnames, faults_eq_nil_of_reportedAt hfaults⟩
  | assign p target value =>
    intro haccepts hnames hfaults
    rw [stmtFaults, List.append_eq_nil_iff] at hfaults
    exact List.forall_mem_singleton.mpr ⟨(acceptsStmt_assign.mp haccepts).1, hnames, hfaults.2⟩
  | store p target index value =>
    intro haccepts hnames hfaults
    obtain ⟨-, hindex, hvalue, -⟩ := acceptsStmt_store.mp haccepts
    rw [Stmt.typeNames, List.mem_append, not_or] at hnames
    rw [stmtFaults, List.append_eq_nil_iff, List.append_eq_nil_iff] at hfaults
    exact List.forall_mem_cons.mpr ⟨⟨hindex, hnames.1, hfaults.2.1⟩,
      List.forall_mem_singleton.mpr ⟨hvalue, hnames.2, hfaults.2.2⟩⟩
  | ret p value =>
    intro haccepts hnames hfaults
    cases value with
    | none => exact fun e he ↦ absurd he List.not_mem_nil
    | some value =>
      exact List.forall_mem_singleton.mpr ⟨(acceptsStmt_ret_some.mp haccepts).1, hnames, hfaults⟩

end Scope

/-! ## Units -/

/-- A unit that is lowered has no faults. -/
theorem Program.faults_eq_nil_of_lower {p : Program} {o : Options} {code : ClassCode}
    (hlower : p.lower p.table o = .ok code) : (p.prepared o).faults = [] := by
  rw [← List.head?_eq_none_iff, Option.eq_none_iff_forall_not_mem]
  intro f hf
  rw [lower_eq_error_iff.mpr hf] at hlower
  cases hlower

/-- Nothing stands in the way of any part of a unit that is accepted and lowered. -/
theorem Program.Accepted.compiles_part {p : Program} (haccepted : p.Accepted)
    (hany : "<any>" ∉ p.typeNames) {o : Options} {code : ClassCode}
    (hlower : p.lower p.table o = .ok code) {m : MethodDecl}
    (hm : m ∈ (p.prepared o).decl.methods) {e : Expr} (hpart : m.HasPart e) :
    Scope.Compiles ⟨p.table, m.signature⟩ e := by
  obtain ⟨source, -, hsig, -, haccepts⟩ :=
    exists_method_of_prepared haccepted (typeName_ne_of_not_mem hany) o hm
  have hnames := not_mem_typeNames_prepared hany hm
  have hfaults := faults_eq_nil_of_lower hlower
  rw [faults, List.flatMap_eq_nil_iff] at hfaults
  have hbody := hfaults m hm
  rw [table_prepared, Scope.stmtsFaults_eq_flatMap, List.flatMap_eq_nil_iff] at hbody
  obtain ⟨top, htop, hpart⟩ := hpart
  rw [Stmt.exprsAll_eq_flatMap] at htop
  obtain ⟨stmt, hstmt, htop⟩ := List.mem_flatMap.mp htop
  rw [← hsig] at haccepts
  exact (Scope.compiles_exprs (haccepts stmt hstmt) (hnames stmt hstmt) (hbody stmt hstmt) top
    htop).part hpart

end Tricode
