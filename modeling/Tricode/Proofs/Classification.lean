import Tricode.Proofs.AcceptedFaults

/-!
# Calls that cannot be classified

A call on a value needs the class of the value. Checking lets every receiver of unknown type pass.
Lowering expects an object of it, but the expectation reaches the operand only where the receiver
is itself a call. An element of an array or an array literal of unknown type is taken to be made
of integers instead, and then the call has no code.

So an accepted unit can fail to compile, and this file says just when: the tree that is lowered
has a call on a receiver of unknown type that is not itself a call. The calls of a tree are listed
in the order in which lowering comes to them, and the faults of the tree that are not ruled out
for accepted trees are those of the listed calls.
-/

namespace Tricode

/-! ## The calls of a tree -/

/-- A call on a receiver: where it is reported, on what, and to which method. -/
structure CallSite where
  pos : Position
  receiver : Expr
  method : String

namespace Expr

mutual

/-- The calls on receivers, in the order in which lowering comes to them. -/
def callSites : Expr → List CallSite
  | lit _ _ | this _ | var _ _ | newObject _ _ => []
  | not _ operand => operand.callSites
  | binary _ _ lhs rhs => lhs.callSites ++ rhs.callSites
  | index _ base idx => base.callSites ++ idx.callSites
  | array _ elements => callSitesAll elements
  | newArray _ _ size => size.callSites
  | length _ base => base.callSites
  | call _ _ args => callSitesAll args
  | callOn pos receiver method args =>
    receiver.callSites ++ ⟨pos, receiver, method⟩ :: callSitesAll args

def callSitesAll : List Expr → List CallSite
  | [] => []
  | e :: es => e.callSites ++ callSitesAll es

end

theorem callSitesAll_eq_flatMap (es : List Expr) : callSitesAll es = es.flatMap callSites := by
  induction es with
  | nil => rfl
  | cons e es ih => rw [callSitesAll, ih, List.flatMap_cons]

end Expr

namespace Stmt

mutual

/-- The calls on receivers in the expressions of a statement. Of a conditional the second branch
comes first. -/
def callSites : Stmt → List CallSite
  | block _ stmts => callSitesAll stmts
  | ifElse _ cond thenBranch elseBranch =>
    cond.callSites ++ (elseBranch.callSites ++ thenBranch.callSites)
  | whileLoop _ cond body => cond.callSites ++ body.callSites
  | eval pos expr => (expr.reportedAt pos).callSites
  | assign _ _ value => value.callSites
  | store _ _ index value => index.callSites ++ value.callSites
  | ret _ value => value.elim [] Expr.callSites

def callSitesAll : List Stmt → List CallSite
  | [] => []
  | stmt :: stmts => stmt.callSites ++ callSitesAll stmts

end

theorem callSitesAll_eq_flatMap (stmts : List Stmt) :
    callSitesAll stmts = stmts.flatMap callSites := by
  induction stmts with
  | nil => rfl
  | cons stmt stmts ih => rw [callSitesAll, ih, List.flatMap_cons]

end Stmt

/-! ## Their faults -/

namespace Fault

/-- The faults that lie in the kind of a call. -/
def ofCalls (faults : List Fault) : List Fault := faults.filter fun f ↦ !f.isInvalidTree

@[simp] theorem ofCalls_nil : ofCalls [] = [] := rfl

@[simp] theorem ofCalls_append (fs gs : List Fault) :
    ofCalls (fs ++ gs) = ofCalls fs ++ ofCalls gs := List.filter_append ..

theorem mem_ofCalls {f : Fault} {faults : List Fault} :
    f ∈ ofCalls faults ↔ f ∈ faults ∧ f.isInvalidTree = false := by
  rw [ofCalls, List.mem_filter, Bool.not_eq_true']

end Fault

open Fault (ofCalls ofCalls_nil ofCalls_append mem_ofCalls)

namespace Lower

@[simp] theorem ofCalls_lengthFaults (n : Nat) : ofCalls (lengthFaults n) = [] := by
  unfold lengthFaults
  split <;> rfl

/-- Packing arguments does not change the order in which they are met. -/
theorem ofCalls_argumentFaults (callee : Option Signature) (fss : List (List Fault)) :
    ofCalls (argumentFaults callee fss) = ofCalls fss.flatten := by
  cases callee with
  | none => rfl
  | some sig =>
    rw [argumentFaults]
    split
    · rw [ofCalls_append, ofCalls_append, ofCalls_lengthFaults, List.nil_append,
        ← ofCalls_append, ← List.flatten_append, List.take_append_drop]
    · rfl

end Lower

namespace Scope

variable {s : Scope} {pos : Position}

/-- The fault of a call that lowering finds no way to make. -/
def siteFaults (s : Scope) (site : CallSite) : List Fault :=
  s.receiverFaults site.pos site.receiver site.method

theorem siteFaults_eq_nil {site : CallSite} :
    s.siteFaults site = [] ↔ s.classifies site.receiver = true := receiverFaults_eq_nil

@[simp] theorem ofCalls_variableFaults (s : Scope) (pos : Position) (name : String) :
    ofCalls (s.variableFaults pos name) = [] := by
  unfold variableFaults
  split <;> rfl

@[simp] theorem ofCalls_receiverFaults (s : Scope) (pos : Position) (receiver : Expr)
    (method : String) :
    ofCalls (s.receiverFaults pos receiver method) = s.receiverFaults pos receiver method := by
  unfold receiverFaults
  split <;> rfl

theorem ofCalls_faultsEach {es : List Expr}
    (h : ∀ e ∈ es, ofCalls (s.faults e) = e.callSites.flatMap s.siteFaults) :
    ofCalls (s.faultsEach es).flatten = (Expr.callSitesAll es).flatMap s.siteFaults := by
  induction es with
  | nil => rfl
  | cons e es ih =>
    obtain ⟨hhead, htail⟩ := List.forall_mem_cons.mp h
    rw [faultsEach, List.flatten_cons, ofCalls_append, hhead, ih htail, Expr.callSitesAll,
      List.flatMap_append]

/-- The faults of an expression that lie in the kind of a call are those of its calls. -/
theorem ofCalls_faults (e : Expr) :
    ofCalls (s.faults e) = e.callSites.flatMap s.siteFaults := by
  induction e using Expr.memberInduct with
  | lit | this | newObject => rfl
  | var pos name => exact s.ofCalls_variableFaults pos name
  | not pos operand ih => exact ih
  | binary pos op lhs rhs ihl ihr =>
    rw [faults, ofCalls_append, ihl, ihr, Expr.callSites, List.flatMap_append]
  | index pos base idx ihb ihi =>
    rw [faults, ofCalls_append, ihb, ihi, Expr.callSites, List.flatMap_append]
  | array pos elements ih =>
    rw [faults, ofCalls_append, Lower.ofCalls_lengthFaults, ofCalls_faultsEach ih]
    rfl
  | newArray pos elem size ih => exact ih
  | length pos base ih => exact ih
  | call pos method args ih =>
    rw [faults, Lower.ofCalls_argumentFaults, ofCalls_faultsEach ih]
    rfl
  | callOn pos receiver method args ihr iha =>
    rw [faults, ofCalls_append, ofCalls_append, Lower.ofCalls_argumentFaults,
      ofCalls_faultsEach iha, ihr, ofCalls_receiverFaults, Expr.callSites, List.flatMap_append,
      List.flatMap_cons, List.append_assoc]
    rfl

@[simp] theorem ofCalls_targetFaults (s : Scope) (pos : Position) (name : String) :
    ofCalls (s.targetFaults pos name) = [] := by
  unfold targetFaults
  split <;> rfl

@[simp] theorem ofCalls_arrayFaults (s : Scope) (pos : Position) (name : String) :
    ofCalls (s.arrayFaults pos name) = [] := by
  rw [arrayFaults, ofCalls_append, ofCalls_variableFaults]
  split <;> rfl

theorem ofCalls_stmtsFaults_of {stmts : List Stmt}
    (h : ∀ stmt ∈ stmts, ofCalls (s.stmtFaults stmt) = stmt.callSites.flatMap s.siteFaults) :
    ofCalls (s.stmtsFaults stmts) = (Stmt.callSitesAll stmts).flatMap s.siteFaults := by
  induction stmts with
  | nil => rfl
  | cons stmt stmts ih =>
    obtain ⟨hhead, htail⟩ := List.forall_mem_cons.mp h
    rw [stmtsFaults, ofCalls_append, hhead, ih htail, Stmt.callSitesAll, List.flatMap_append]

theorem ofCalls_stmtFaults (stmt : Stmt) :
    ofCalls (s.stmtFaults stmt) = stmt.callSites.flatMap s.siteFaults := by
  induction stmt using Stmt.memberInduct with
  | block pos stmts ih => exact ofCalls_stmtsFaults_of ih
  | ifElse pos cond thenBranch elseBranch ihThen ihElse =>
    rw [stmtFaults, ofCalls_append, ofCalls_append, ofCalls_faults, ihThen, ihElse,
      Stmt.callSites, List.flatMap_append, List.flatMap_append]
  | whileLoop pos cond body ihBody =>
    rw [stmtFaults, ofCalls_append, ofCalls_faults, ihBody, Stmt.callSites, List.flatMap_append]
  | eval pos expr => exact ofCalls_faults _
  | assign pos target value =>
    rw [stmtFaults, ofCalls_append, ofCalls_targetFaults, ofCalls_faults]
    rfl
  | store pos target index value =>
    rw [stmtFaults, ofCalls_append, ofCalls_append, ofCalls_arrayFaults, ofCalls_faults,
      ofCalls_faults, Stmt.callSites, List.flatMap_append]
    rfl
  | ret pos value =>
    cases value with
    | none => rfl
    | some value => exact ofCalls_faults value

/-! ## Receivers of accepted calls -/

/-- The receiver of the call is accepted, and checking finds someone to answer the call. -/
structure AcceptsSite (s : Scope) (site : CallSite) : Prop where
  accepts : s.Accepts site.receiver
  answered : s.table.responder (s.typeOf site.receiver) ≠ .nobody
  typeNames : "<any>" ∉ site.receiver.typeNames

theorem acceptsSite_of_mem_callSitesAll {es : List Expr}
    (h : ∀ e ∈ es, ∀ site ∈ e.callSites, s.AcceptsSite site) :
    ∀ site ∈ Expr.callSitesAll es, s.AcceptsSite site := by
  intro site hsite
  rw [Expr.callSitesAll_eq_flatMap] at hsite
  obtain ⟨e, he, hsite⟩ := List.mem_flatMap.mp hsite
  exact h e he site hsite

theorem acceptsSite_of_mem_callOn {receiver : Expr} {method : String} {args : List Expr}
    (hsite : s.AcceptsSite ⟨pos, receiver, method⟩)
    (hreceiver : ∀ site ∈ receiver.callSites, s.AcceptsSite site)
    (hargs : ∀ e ∈ args, ∀ site ∈ e.callSites, s.AcceptsSite site) :
    ∀ site ∈ (Expr.callOn pos receiver method args).callSites, s.AcceptsSite site := by
  rw [Expr.callSites, List.forall_mem_append, List.forall_mem_cons]
  exact ⟨hreceiver, hsite, acceptsSite_of_mem_callSitesAll hargs⟩

theorem acceptsSite_of_mem_callSites {e : Expr} : s.Accepts e → "<any>" ∉ e.typeNames →
    ∀ site ∈ e.callSites, s.AcceptsSite site := by
  induction e using Expr.memberInduct with
  | lit | this | var | newObject => exact fun _ _ site hsite ↦ absurd hsite List.not_mem_nil
  | not pos operand ih => exact fun h ↦ ih (accepts_not.mp h).1
  | binary pos op lhs rhs ihl ihr =>
    intro h hnames
    obtain ⟨hl, hr, -⟩ := accepts_binary.mp h
    rw [Expr.typeNames, List.mem_append, not_or] at hnames
    exact List.forall_mem_append.mpr ⟨ihl hl hnames.1, ihr hr hnames.2⟩
  | index pos base idx ihb ihi =>
    intro h hnames
    obtain ⟨hb, hi, -⟩ := accepts_index.mp h
    rw [Expr.typeNames, List.mem_append, not_or] at hnames
    exact List.forall_mem_append.mpr ⟨ihb hb hnames.1, ihi hi hnames.2⟩
  | array pos elements ih =>
    intro h hnames
    rw [Expr.typeNames, Expr.not_mem_typeNamesAll] at hnames
    exact acceptsSite_of_mem_callSitesAll fun e he ↦
      ih e he ((accepts_array.mp h).1 e he) (hnames e he)
  | newArray pos elem size ih =>
    intro h hnames
    rw [Expr.typeNames, List.mem_cons, not_or] at hnames
    exact ih (accepts_newArray.mp h).1 hnames.2
  | length pos base ih => exact fun h ↦ ih (accepts_length.mp h).1
  | call pos method args ih =>
    intro h hnames
    rw [Expr.typeNames, Expr.not_mem_typeNamesAll] at hnames
    exact acceptsSite_of_mem_callSitesAll fun e he ↦
      ih e he ((accepts_call.mp h).1 e he) (hnames e he)
  | callOn pos receiver method args ihr iha =>
    intro h hnames
    obtain ⟨hr, ha, hanswered, -⟩ := accepts_callOn.mp h
    rw [Expr.typeNames, List.mem_append, not_or, Expr.not_mem_typeNamesAll] at hnames
    exact acceptsSite_of_mem_callOn ⟨hr, hanswered, hnames.1⟩ (ihr hr hnames.1)
      fun e he ↦ iha e he (ha e he) (hnames.2 e he)

theorem acceptsSite_of_mem_reportedAt {e : Expr} (h : s.Accepts e)
    (hnames : "<any>" ∉ e.typeNames) :
    ∀ site ∈ (e.reportedAt pos).callSites, s.AcceptsSite site := by
  cases e with
  | callOn p receiver method args =>
    obtain ⟨hr, ha, hanswered, -⟩ := accepts_callOn.mp h
    rw [Expr.typeNames, List.mem_append, not_or, Expr.not_mem_typeNamesAll] at hnames
    exact acceptsSite_of_mem_callOn ⟨hr, hanswered, hnames.1⟩
      (acceptsSite_of_mem_callSites hr hnames.1)
      fun e he ↦ acceptsSite_of_mem_callSites (ha e he) (hnames.2 e he)
  | _ => exact acceptsSite_of_mem_callSites h hnames

theorem acceptsSite_of_mem_stmt {stmt : Stmt} : s.AcceptsStmt stmt → "<any>" ∉ stmt.typeNames →
    ∀ site ∈ stmt.callSites, s.AcceptsSite site := by
  induction stmt using Stmt.memberInduct with
  | block pos stmts ih =>
    intro h hnames site hsite
    rw [Stmt.typeNames, Stmt.not_mem_typeNamesAll] at hnames
    rw [Stmt.callSites, Stmt.callSitesAll_eq_flatMap] at hsite
    obtain ⟨stmt, hstmt, hsite⟩ := List.mem_flatMap.mp hsite
    exact ih stmt hstmt (acceptsStmt_block.mp h stmt hstmt) (hnames stmt hstmt) site hsite
  | ifElse pos cond thenBranch elseBranch ihThen ihElse =>
    intro h hnames
    obtain ⟨hcond, -, hthen, helse⟩ := acceptsStmt_ifElse.mp h
    simp only [Stmt.typeNames, List.mem_append, not_or] at hnames
    obtain ⟨⟨hc, ht⟩, he⟩ := hnames
    rw [Stmt.callSites, List.forall_mem_append, List.forall_mem_append]
    exact ⟨acceptsSite_of_mem_callSites hcond hc, ihElse helse he, ihThen hthen ht⟩
  | whileLoop pos cond body ihBody =>
    intro h hnames
    obtain ⟨hcond, -, hbody⟩ := acceptsStmt_whileLoop.mp h
    rw [Stmt.typeNames, List.mem_append, not_or] at hnames
    exact List.forall_mem_append.mpr
      ⟨acceptsSite_of_mem_callSites hcond hnames.1, ihBody hbody hnames.2⟩
  | eval pos expr =>
    exact fun h hnames ↦ acceptsSite_of_mem_reportedAt (acceptsStmt_eval.mp h) hnames
  | assign pos target value =>
    exact fun h hnames ↦ acceptsSite_of_mem_callSites (acceptsStmt_assign.mp h).1 hnames
  | store pos target index value =>
    intro h hnames
    obtain ⟨-, hindex, hvalue, -⟩ := acceptsStmt_store.mp h
    rw [Stmt.typeNames, List.mem_append, not_or] at hnames
    exact List.forall_mem_append.mpr ⟨acceptsSite_of_mem_callSites hindex hnames.1,
      acceptsSite_of_mem_callSites hvalue hnames.2⟩
  | ret pos value =>
    intro h hnames
    cases value with
    | none => exact fun site hsite ↦ absurd hsite List.not_mem_nil
    | some value => exact acceptsSite_of_mem_callSites (acceptsStmt_ret_some.mp h).1 hnames

/-- A receiver of unknown type is taken for an object just when it is itself a call. -/
theorem classifies_eq_false_iff (hknown : s.TypesKnown)
    (himport : s.table.isImported s.table.className = false)
    (hclass : s.table.className ≠ opaqueClass) {site : CallSite} (h : s.AcceptsSite site) :
    s.classifies site.receiver = false ↔
      (s.typeOf site.receiver).isAny = true ∧ site.receiver.isCall = false := by
  rw [classifies, Bool.or_eq_false_iff, Bool.not_eq_false']
  cases hany : (s.typeOf site.receiver).isAny with
  | false =>
    -- The receiver is an object for checking, or nobody would answer the call.
    have hobject : (s.typeOf site.receiver).isClass = true := by
      have hanswered := h.answered
      rw [Table.responder, hany] at hanswered
      by_contra hnot
      simp [hnot] at hanswered
    simp [receiverTy_of_known himport hany, hobject]
  | true =>
    have hisObject : s.isObject site.receiver = true := by
      have haccepts := h.accepts
      rcases s.receiver_cases site.receiver with ⟨p, heq⟩ | ⟨p, name, heq, -⟩ | hobject
      · rw [heq] at haccepts hany
        rw [typeOf, (thisTy_known hknown haccepts).2] at hany
        cases hany
      · rw [heq] at haccepts hany
        rw [typeOf, variableTy_known hknown haccepts] at hany
        cases hany
      · exact hobject
    rw [hisObject]
    rcases receiverTy_of_unknown hknown himport hclass h.accepts h.typeNames hany with
      ⟨hcall, hty⟩ | ⟨hcall, hname⟩
    · rw [hcall, hty]
      decide
    · simp [hcall, Ty.isClass, Ty.isPrimitive, hname]

end Scope

/-! ## Units -/

namespace Program

variable {p : Program} {o : Options}

/-- Lowering finds no way to make some call of the unit. -/
def HasUnclassified (p : Program) : Prop :=
  ∃ m ∈ p.decl.methods, ∃ site ∈ Stmt.callSitesAll m.body,
    Scope.classifies ⟨p.table, m.signature⟩ site.receiver = false

/-- Some call of the unit is made on a value of unknown type that is not itself that of a call. -/
def CallsUnknown (p : Program) : Prop :=
  ∃ m ∈ p.decl.methods, ∃ site ∈ Stmt.callSitesAll m.body,
    (Scope.typeOf ⟨p.table, m.signature⟩ site.receiver).isAny = true ∧
      site.receiver.isCall = false

instance (p : Program) : Decidable p.CallsUnknown :=
  inferInstanceAs (Decidable (∃ m ∈ p.decl.methods, ∃ site ∈ Stmt.callSitesAll m.body,
    (Scope.typeOf ⟨p.table, m.signature⟩ site.receiver).isAny = true ∧
      site.receiver.isCall = false))

theorem ofCalls_faults (p : Program) :
    ofCalls p.faults = p.decl.methods.flatMap fun m ↦
      (Stmt.callSitesAll m.body).flatMap (Scope.siteFaults ⟨p.table, m.signature⟩) := by
  unfold faults
  induction p.decl.methods with
  | nil => rfl
  | cons m ms ih =>
    rw [List.flatMap_cons, ofCalls_append, ih, List.flatMap_cons,
      Scope.ofCalls_stmtsFaults_of fun stmt _ ↦ Scope.ofCalls_stmtFaults stmt]

theorem hasUnclassified_iff : p.HasUnclassified ↔ ofCalls p.faults ≠ [] := by
  rw [ofCalls_faults]
  simp only [ne_eq, List.flatMap_eq_nil_iff, Scope.siteFaults_eq_nil, not_forall,
    Bool.not_eq_true, exists_prop]
  exact Iff.rfl

theorem compile_eq_fault_iff {f : Fault} :
    p.compile o = .error (.fault f) ↔
      o.blocks p.check = false ∧ p.lower p.table o = .error f := by
  have hblocks := o.blocks_iff_blockingCount p.check
  unfold compile
  dsimp only
  split
  · rename_i hcount
    rw [hblocks.mpr hcount]
    simp
  · rename_i hcount
    rw [Bool.eq_false_iff.mpr fun h ↦ hcount (hblocks.mp h)]
    cases p.lower p.table o with
    | ok code => simp
    | error fault => simp

/-- Errors alone block, unless warnings are taken for errors. -/
theorem Accepted.blocks_eq_false (h : p.Accepted) (ho : o.warningsAsErrors = false) :
    o.blocks p.check = false := by
  rw [Options.blocks, List.any_eq_false]
  intro d hd
  rw [Options.isBlocking, h d hd, ho]
  decide

theorem hasUnclassified_of_compile {method : String} {pos : Position}
    (h : p.compile o = .error (.fault (.unclassifiableCall method pos))) :
    (p.prepared o).HasUnclassified := by
  have hhead := lower_eq_error_iff.mp (compile_eq_fault_iff.mp h).2
  have hmem : Fault.unclassifiableCall method pos ∈ ofCalls (p.prepared o).faults :=
    mem_ofCalls.mpr ⟨List.mem_of_head? hhead, rfl⟩
  exact hasUnclassified_iff.mpr (List.ne_nil_of_mem hmem)

section

variable (haccepted : p.Accepted) (hknown : ∀ d ∈ p.varDecls, d.typeName ≠ "<any>")
include haccepted hknown

theorem compile_of_hasUnclassified (hshort : p.longestList ≤ 2147483647)
    (hblocks : o.blocks p.check = false) (h : (p.prepared o).HasUnclassified) :
    ∃ method pos, p.compile o = .error (.fault (.unclassifiableCall method pos)) := by
  cases hhead : (p.prepared o).faults.head? with
  | none =>
    rw [hasUnclassified_iff, List.head?_eq_none_iff.mp hhead] at h
    exact absurd ofCalls_nil h
  | some f =>
    have hcall := onlyCalls_faults_prepared haccepted hknown o hshort f (List.mem_of_head? hhead)
    have hcompile := compile_eq_fault_iff.mpr ⟨hblocks, lower_eq_error_iff.mpr hhead⟩
    cases f with
    | unclassifiableCall method pos => exact ⟨method, pos, hcompile⟩
    | _ => cases hcall

/-- The calls of the tree that is lowered are accepted in the scope of their method. -/
theorem acceptsSite_of_mem_prepared (hany : "<any>" ∉ p.typeNames) {m' : MethodDecl}
    (hm' : m' ∈ (p.prepared o).decl.methods) {site : CallSite}
    (hsite : site ∈ Stmt.callSitesAll m'.body) :
    ∃ m ∈ p.decl.methods, m'.signature = m.signature ∧
      Scope.AcceptsSite ⟨p.table, m.signature⟩ site := by
  obtain ⟨m, hm, hsig, -, haccepts⟩ := exists_method_of_prepared haccepted hknown o hm'
  rw [Stmt.callSitesAll_eq_flatMap] at hsite
  obtain ⟨stmt, hstmt, hsite⟩ := List.mem_flatMap.mp hsite
  exact ⟨m, hm, hsig, Scope.acceptsSite_of_mem_stmt (haccepts stmt hstmt)
    (not_mem_typeNames_prepared hany hm' stmt hstmt) site hsite⟩

theorem hasUnclassified_iff_callsUnknown (hany : "<any>" ∉ p.typeNames) (hdots : p.DotFree)
    (hobject : p.decl.name ≠ "Object") :
    (p.prepared o).HasUnclassified ↔ (p.prepared o).CallsUnknown := by
  have hsites : ∀ m ∈ (p.prepared o).decl.methods, ∀ site ∈ Stmt.callSitesAll m.body,
      (Scope.classifies ⟨p.table, m.signature⟩ site.receiver = false ↔
        (Scope.typeOf ⟨p.table, m.signature⟩ site.receiver).isAny = true ∧
          site.receiver.isCall = false) := by
    intro m' hm' site hsite
    obtain ⟨m, hm, hsig, haccepts⟩ :=
      acceptsSite_of_mem_prepared haccepted hknown hany hm' hsite
    rw [hsig]
    exact Scope.classifies_eq_false_iff (typesKnown hany hm)
      (haccepted.className_not_imported hdots) hobject haccepts
  unfold HasUnclassified CallsUnknown
  rw [table_prepared]
  constructor
  · rintro ⟨m, hm, site, hsite, h⟩
    exact ⟨m, hm, site, hsite, (hsites m hm site hsite).mp h⟩
  · rintro ⟨m, hm, site, hsite, h⟩
    exact ⟨m, hm, site, hsite, (hsites m hm site hsite).mpr h⟩

end

/-- A unit that is accepted fails to compile just for the calls that lowering finds no way to
make. Such a call is on a receiver of unknown type that is not itself a call. -/
theorem compile_unclassifiable (haccepted : p.Accepted)
    (hknown : ∀ d ∈ p.varDecls, d.typeName ≠ "<any>") (o : Options) :
    ((∃ method pos, p.compile o = .error (.fault (.unclassifiableCall method pos))) →
      (p.prepared o).HasUnclassified) ∧
    (p.longestList ≤ 2147483647 → o.blocks p.check = false → (p.prepared o).HasUnclassified →
      ∃ method pos, p.compile o = .error (.fault (.unclassifiableCall method pos))) ∧
    ("<any>" ∉ p.typeNames → p.DotFree → p.decl.name ≠ "Object" →
      ((p.prepared o).HasUnclassified ↔ (p.prepared o).CallsUnknown)) :=
  ⟨fun ⟨_, _, h⟩ ↦ hasUnclassified_of_compile h, compile_of_hasUnclassified haccepted hknown,
    hasUnclassified_iff_callsUnknown haccepted hknown⟩

/-- The element that is shown has no class, though checking has nothing against the call. -/
theorem elementCall_unclassifiable :
    elementCall.Accepted ∧ (∀ d ∈ elementCall.varDecls, d.typeName ≠ "<any>") ∧
      elementCall.longestList ≤ 2147483647 ∧ "<any>" ∉ elementCall.typeNames ∧
      elementCall.DotFree ∧ elementCall.decl.name ≠ "Object" ∧
      (elementCall.prepared .default).CallsUnknown ∧
      ∃ method pos, elementCall.compile .default =
        .error (.fault (.unclassifiableCall method pos)) := by
  have haccepted : elementCall.Accepted := accepted_iff.mpr (by decide)
  have hknown : ∀ d ∈ elementCall.varDecls, d.typeName ≠ "<any>" := by decide
  have hshort : elementCall.longestList ≤ 2147483647 := by decide
  have hany : "<any>" ∉ elementCall.typeNames := by decide
  have hdots : elementCall.DotFree := by decide
  have hobject : elementCall.decl.name ≠ "Object" := by decide
  have hcalls : (elementCall.prepared .default).CallsUnknown := by decide
  obtain ⟨-, hfails, hiff⟩ := compile_unclassifiable haccepted hknown .default
  exact ⟨haccepted, hknown, hshort, hany, hdots, hobject, hcalls,
    hfails hshort (haccepted.blocks_eq_false rfl) ((hiff hany hdots hobject).mpr hcalls)⟩

end Program

end Tricode
