import Tricode.Proofs.Faults
import Tricode.Proofs.Rewriting
import Tricode.Proofs.Shrinking

/-!
# The faults of accepted trees

Checking and lowering go over a tree by two recursions of their own, and lowering relies on what
checking let through. Every fault of lowering but one is ruled out by a rule of checking: a name
that stands for nothing, a target that is no variable, an element of what is no array. This is so
for the rewritten tree as well, since that is accepted like the tree it came from.

The fault that is left is a call on a value that lowering cannot take for an object.
-/

namespace Tricode

/-! ## Lists -/

namespace Fault

/-- Nothing is wrong with the tree itself: at most with the kind of a call. -/
def OnlyCalls (faults : List Fault) : Prop := ∀ f ∈ faults, f.isInvalidTree = false

theorem onlyCalls_nil : OnlyCalls [] := fun _ hf ↦ absurd hf List.not_mem_nil

theorem onlyCalls_append {fs gs : List Fault} :
    OnlyCalls (fs ++ gs) ↔ OnlyCalls fs ∧ OnlyCalls gs := List.forall_mem_append

theorem onlyCalls_flatten {fss : List (List Fault)} (h : ∀ fs ∈ fss, OnlyCalls fs) :
    OnlyCalls fss.flatten := by
  intro f hf
  obtain ⟨fs, hfs, hf⟩ := List.mem_flatten.mp hf
  exact h fs hfs f hf

end Fault

open Fault (OnlyCalls onlyCalls_nil onlyCalls_append onlyCalls_flatten)

namespace Lower

theorem lengthFaults_eq_nil {n : Nat} (h : n ≤ 2147483647) : lengthFaults n = [] :=
  if_neg (by omega)

theorem argumentFaults_eq_flatten {fss : List (List Fault)} (h : fss.length ≤ 2147483647)
    (callee : Option Signature) : argumentFaults callee fss = fss.flatten := by
  cases callee with
  | none => rfl
  | some sig =>
    have hdrop : (fss.drop sig.fixedArity).length ≤ 2147483647 := by
      rw [List.length_drop]
      omega
    rw [argumentFaults]
    split
    · rw [lengthFaults_eq_nil hdrop, List.nil_append, ← List.flatten_append,
        List.take_append_drop]
    · rfl

end Lower

namespace Scope

variable {s : Scope} {pos : Position}

/-! ## Expressions -/

theorem lookup_ne_unbound {name : String} (h : Diagnostic.Clean (s.variableProblems pos name)) :
    s.lookup name ≠ .unbound := by
  intro hlookup
  rw [variableProblems, hlookup] at h
  exact Diagnostic.not_clean_error_cons h

theorem variableFaults_of_accepts {name : String} (h : s.Accepts (.var pos name)) :
    s.variableFaults pos name = [] :=
  if_neg (lookup_ne_unbound (accepts_var.mp h))

theorem onlyCalls_faultsEach {es : List Expr} (h : ∀ e ∈ es, OnlyCalls (s.faults e)) :
    OnlyCalls (s.faultsEach es).flatten := by
  rw [faultsEach_eq_map]
  refine onlyCalls_flatten fun fs hfs ↦ ?_
  obtain ⟨e, he, rfl⟩ := List.mem_map.mp hfs
  exact h e he

theorem onlyCalls_arguments {args : List Expr} (h : ∀ e ∈ args, OnlyCalls (s.faults e))
    (hshort : args.length ≤ 2147483647) (callee : Option Signature) :
    OnlyCalls (Lower.argumentFaults callee (s.faultsEach args)) := by
  have hlen : (s.faultsEach args).length ≤ 2147483647 := by
    rw [faultsEach_eq_map, List.length_map]
    exact hshort
  rw [Lower.argumentFaults_eq_flatten hlen]
  exact onlyCalls_faultsEach h

theorem onlyCalls_callOn {receiver : Expr} {method : String} {args : List Expr}
    (hreceiver : OnlyCalls (s.faults receiver)) (hargs : ∀ e ∈ args, OnlyCalls (s.faults e))
    (hshort : args.length ≤ 2147483647) :
    OnlyCalls (s.faults (.callOn pos receiver method args)) := by
  have hclassified : OnlyCalls (s.receiverFaults pos receiver method) := by
    unfold receiverFaults
    split
    · exact onlyCalls_nil
    · intro f hf
      rw [List.mem_singleton.mp hf]
      rfl
  rw [faults, onlyCalls_append, onlyCalls_append]
  exact ⟨⟨hreceiver, hclassified⟩, onlyCalls_arguments hargs hshort _⟩

theorem onlyCalls_faults {e : Expr} :
    s.Accepts e → e.longestList ≤ 2147483647 → OnlyCalls (s.faults e) := by
  induction e using Expr.memberInduct with
  | lit | this | newObject => exact fun _ _ ↦ onlyCalls_nil
  | var pos name =>
    intro h hshort
    rw [faults, variableFaults_of_accepts h]
    exact onlyCalls_nil
  | not pos operand ih => exact fun h ↦ ih (accepts_not.mp h).1
  | binary pos op lhs rhs ihl ihr =>
    intro h hshort
    obtain ⟨hl, hr, -⟩ := accepts_binary.mp h
    rw [Expr.longestList, Nat.max_le] at hshort
    exact onlyCalls_append.mpr ⟨ihl hl hshort.1, ihr hr hshort.2⟩
  | index pos base idx ihb ihi =>
    intro h hshort
    obtain ⟨hb, hi, -⟩ := accepts_index.mp h
    rw [Expr.longestList, Nat.max_le] at hshort
    exact onlyCalls_append.mpr ⟨ihb hb hshort.1, ihi hi hshort.2⟩
  | array pos elements ih =>
    intro h hshort
    rw [Expr.longestList, Nat.max_le, Expr.longestListAll_le] at hshort
    -- The literal is short enough to be allocated, so only its elements can fail.
    rw [faults, Lower.lengthFaults_eq_nil hshort.1]
    exact onlyCalls_faultsEach fun e he ↦ ih e he ((accepts_array.mp h).1 e he) (hshort.2 e he)
  | newArray pos elem size ih => exact fun h ↦ ih (accepts_newArray.mp h).1
  | length pos base ih => exact fun h ↦ ih (accepts_length.mp h).1
  | call pos method args ih =>
    intro h hshort
    rw [Expr.longestList, Nat.max_le, Expr.longestListAll_le] at hshort
    exact onlyCalls_arguments (fun e he ↦ ih e he ((accepts_call.mp h).1 e he) (hshort.2 e he))
      hshort.1 _
  | callOn pos receiver method args ihr iha =>
    intro h hshort
    obtain ⟨hr, ha, -⟩ := accepts_callOn.mp h
    rw [Expr.longestList, Nat.max_le, Nat.max_le, Expr.longestListAll_le] at hshort
    obtain ⟨hshortr, hlen, hshorta⟩ := hshort
    exact onlyCalls_callOn (ihr hr hshortr) (fun e he ↦ iha e he (ha e he) (hshorta e he)) hlen

/-! ## Statements -/

/-- A name that may be assigned to is that of a variable, and has its type. -/
theorem lookup_of_clean_targetProblems {name : String}
    (h : Diagnostic.Clean (s.targetProblems pos name)) :
    ∃ storage symbol, s.lookup name = .stored storage symbol ∧ s.targetTy name = symbol.ty := by
  unfold targetProblems variableProblems at h
  unfold targetTy variableTy
  cases hlookup : s.lookup name with
  | imported | unbound =>
    rw [hlookup] at h
    exact absurd h Diagnostic.not_clean_error_cons
  | stored storage symbol =>
    refine ⟨storage, symbol, rfl, ?_⟩
    cases storage with
    | localVar | param => rfl
    | field =>
      rw [hlookup] at h
      have hstatic : s.method.isStatic = false := by simpa using h
      simp [hstatic]

theorem lookup_target_ne_unbound {name : String}
    (h : Diagnostic.Clean (s.targetProblems pos name)) : s.lookup name ≠ .unbound := by
  obtain ⟨storage, symbol, hlookup, -⟩ := lookup_of_clean_targetProblems h
  rw [hlookup]
  exact Binding.noConfusion

theorem onlyCalls_reportedAt {e : Expr} (h : s.Accepts e) (hshort : e.longestList ≤ 2147483647) :
    OnlyCalls (s.faults (e.reportedAt pos)) := by
  cases e with
  | callOn p receiver method args =>
    obtain ⟨hr, ha, -⟩ := accepts_callOn.mp h
    rw [Expr.longestList, Nat.max_le, Nat.max_le, Expr.longestListAll_le] at hshort
    obtain ⟨hshortr, hlen, hshorta⟩ := hshort
    exact onlyCalls_callOn (onlyCalls_faults hr hshortr)
      (fun e he ↦ onlyCalls_faults (ha e he) (hshorta e he)) hlen
  | _ => exact onlyCalls_faults h hshort

theorem targetFaults_of_clean {target : String}
    (h : Diagnostic.Clean (s.targetProblems pos target)) : s.targetFaults pos target = [] := by
  obtain ⟨storage, symbol, hlookup, -⟩ := lookup_of_clean_targetProblems h
  rw [targetFaults, hlookup]

theorem onlyCalls_stmtsFaults_of {stmts : List Stmt}
    (h : ∀ stmt ∈ stmts, OnlyCalls (s.stmtFaults stmt)) : OnlyCalls (s.stmtsFaults stmts) := by
  rw [stmtsFaults_eq_flatMap, List.flatMap_def]
  refine onlyCalls_flatten fun fs hfs ↦ ?_
  obtain ⟨stmt, hstmt, rfl⟩ := List.mem_map.mp hfs
  exact h stmt hstmt

section

variable (hknown : s.VariablesKnown)
include hknown

/-- An indexed target of known type is an array. -/
theorem arrayFaults_of_accepts {target : String} {index value : Expr}
    (h : s.AcceptsStmt (.store pos target index value)) : s.arrayFaults pos target = [] := by
  obtain ⟨htarget, -, -, -, hrule⟩ := acceptsStmt_store.mp h
  obtain ⟨storage, symbol, hlookup, hty⟩ := lookup_of_clean_targetProblems htarget
  have harray : symbol.ty.isArray = true := by
    rw [hty, hknown hlookup] at hrule
    rcases hrule with hany | ⟨harray, -⟩
    · cases hany
    · exact harray
  rw [arrayFaults, variableFaults, if_neg (lookup_target_ne_unbound htarget), operandTy, hlookup]
  exact if_pos harray

theorem onlyCalls_stmtFaults {stmt : Stmt} : s.AcceptsStmt stmt →
    stmt.longestList ≤ 2147483647 → OnlyCalls (s.stmtFaults stmt) := by
  induction stmt using Stmt.memberInduct with
  | block pos stmts ih =>
    intro h hshort
    rw [Stmt.longestList, Stmt.longestListAll_le] at hshort
    exact onlyCalls_stmtsFaults_of fun stmt hs ↦
      ih stmt hs (acceptsStmt_block.mp h stmt hs) (hshort stmt hs)
  | ifElse pos cond thenBranch elseBranch ihThen ihElse =>
    intro h hshort
    obtain ⟨hcond, -, hthen, helse⟩ := acceptsStmt_ifElse.mp h
    rw [Stmt.longestList, Nat.max_le, Nat.max_le] at hshort
    obtain ⟨hc, ht, he⟩ := hshort
    rw [stmtFaults, onlyCalls_append, onlyCalls_append]
    exact ⟨onlyCalls_faults hcond hc, ihElse helse he, ihThen hthen ht⟩
  | whileLoop pos cond body ihBody =>
    intro h hshort
    obtain ⟨hcond, -, hbody⟩ := acceptsStmt_whileLoop.mp h
    rw [Stmt.longestList, Nat.max_le] at hshort
    exact onlyCalls_append.mpr ⟨onlyCalls_faults hcond hshort.1, ihBody hbody hshort.2⟩
  | eval pos expr => exact fun h hshort ↦ onlyCalls_reportedAt (acceptsStmt_eval.mp h) hshort
  | assign pos target value =>
    intro h hshort
    obtain ⟨hvalue, htarget, -⟩ := acceptsStmt_assign.mp h
    rw [stmtFaults, targetFaults_of_clean htarget]
    exact onlyCalls_faults hvalue hshort
  | store pos target index value =>
    intro h hshort
    obtain ⟨-, hindex, hvalue, -⟩ := acceptsStmt_store.mp h
    rw [Stmt.longestList, Nat.max_le] at hshort
    rw [stmtFaults, arrayFaults_of_accepts hknown h, List.nil_append]
    exact onlyCalls_append.mpr ⟨onlyCalls_faults hindex hshort.1, onlyCalls_faults hvalue hshort.2⟩
  | ret pos value =>
    intro h hshort
    cases value with
    | none => exact onlyCalls_nil
    | some value => exact onlyCalls_faults (acceptsStmt_ret_some.mp h).1 hshort

end

end Scope

/-! ## Units -/

namespace Program

variable {p : Program}

@[simp] theorem table_prepared (p : Program) (o : Options) : (p.prepared o).table = p.table := by
  unfold prepared
  split
  · rw [optimize_eq_mapBodies, table_mapBodies]
  · rfl

/-- Lowering a unit fails with the first fault of the tree that is lowered. -/
theorem lower_eq_error_iff {o : Options} {f : Fault} :
    p.lower p.table o = .error f ↔ (p.prepared o).faults.head? = some f := by
  have hmeets := (p.prepared o).meets_lowerProgram .zero
  rw [table_prepared, Lower.fault?] at hmeets
  rw [lower, ← hmeets]
  cases ((p.table.lowerProgram (p.prepared o)).runFrom .zero).1 with
  | error fault => simp
  | ok code => simp

/-- Every body that is lowered is one of the unit, with nothing new in it. -/
theorem exists_within_of_prepared {o : Options} {m' : MethodDecl}
    (hm' : m' ∈ (p.prepared o).decl.methods) :
    ∃ m ∈ p.decl.methods, m'.signature = m.signature ∧
      List.Forall₂ Stmt.Within m'.body m.body := by
  unfold prepared at hm'
  split at hm'
  · rw [optimize_eq_mapBodies] at hm'
    obtain ⟨m, hm, rfl⟩ := List.mem_map.mp hm'
    exact ⟨m, hm, rfl, Stmt.forall₂_optimized _ _⟩
  · exact ⟨m', hm', rfl, List.forall₂_same.mpr fun _ _ ↦ .refl _⟩

theorem not_mem_typeNames_prepared (hany : "<any>" ∉ p.typeNames) {o : Options} {m : MethodDecl}
    (hm : m ∈ (p.prepared o).decl.methods) : ∀ stmt ∈ m.body, "<any>" ∉ stmt.typeNames := by
  obtain ⟨source, hsource, -, hwithin⟩ := exists_within_of_prepared hm
  rw [← Stmt.not_mem_typeNamesAll]
  intro hmem
  refine not_mem_typeNames_method hany hsource ?_
  exact List.mem_append_right _ (Stmt.typeNamesAll_subset hwithin hmem)

/-- What is true of every mention in an accepted statement is true of those that are lowered. -/
theorem Accepted.forall_mentions (haccepted : p.Accepted) {o : Options} {m : MethodDecl}
    (hm : m ∈ (p.prepared o).decl.methods) {P : Mention → Prop}
    (h : ∀ stmt, Scope.AcceptsStmt ⟨p.table, m.signature⟩ stmt → ∀ u ∈ stmt.mentions, P u) :
    ∀ u ∈ Stmt.mentionsAll m.body, P u := by
  obtain ⟨source, hsource, hsig, hwithin⟩ := exists_within_of_prepared hm
  intro u hu
  have hmentioned := (Stmt.mentionsAll_sublist hwithin).subset hu
  rw [Stmt.mentionsAll_eq_flatMap] at hmentioned
  obtain ⟨stmt, hstmt, hmem⟩ := List.mem_flatMap.mp hmentioned
  refine h stmt ?_ u hmem
  rw [hsig]
  exact haccepted.acceptsStmt hsource hstmt

/-- The methods of the code are those of the tree that is lowered, in order. -/
theorem yields_methods_of_lower {o : Options} {code : ClassCode}
    (hlower : p.lower p.table o = .ok code) :
    ∃ c, (p.table.lowerMethods (p.prepared o).decl.methods (p.prepared o).table.methods).Yields
      .zero code.methods c := by
  have hyields : (p.table.lowerProgram (p.prepared o)).Yields .zero code
      ((p.table.lowerProgram (p.prepared o)).runFrom .zero).2 := Prod.ext hlower rfl
  rw [p.table_prepared o]
  exact ⟨_, (Table.yields_lowerProgram hyields).2⟩

/-- Every method of the code is that of the declaration at the same place in the tree that is
lowered. -/
theorem exists_yields_of_lower {o : Options} {code : ClassCode}
    (hlower : p.lower p.table o = .ok code) {i : Nat} {mc : MethodCode}
    (hi : code.methods[i]? = some mc) :
    ∃ m c c', (p.prepared o).decl.methods[i]? = some m ∧
      (p.table.lowerMethod m.signature m.body).Yields c mc c' := by
  obtain ⟨c, hmethods⟩ := yields_methods_of_lower hlower
  obtain ⟨m, sig, c₁, c₂, hm, hsig, hlowered⟩ := (Table.yields_lowerMethods hmethods).2 i mc hi
  rw [table, List.getElem?_map, hm, Option.map_some, Option.some.injEq] at hsig
  exact ⟨m, c₁, c₂, hm, hsig ▸ hlowered⟩

/-- Every method of the tree that is lowered has its code at the same place. -/
theorem exists_methodCode_of_lower {o : Options} {code : ClassCode}
    (hlower : p.lower p.table o = .ok code) {i : Nat} {m : MethodDecl}
    (hm : (p.prepared o).decl.methods[i]? = some m) : ∃ mc, code.methods[i]? = some mc := by
  obtain ⟨c, hmethods⟩ := yields_methods_of_lower hlower
  have hlength := (Table.yields_lowerMethods hmethods).1
  rw [table, List.length_map, Nat.min_self] at hlength
  obtain ⟨hi, -⟩ := List.getElem?_eq_some_iff.mp hm
  exact ⟨_, List.getElem?_eq_getElem (hlength ▸ hi)⟩

section

variable (haccepted : p.Accepted) (hknown : ∀ d ∈ p.varDecls, d.typeName ≠ "<any>") (o : Options)
include haccepted hknown

/-- What is lowered is accepted, rewritten or not. -/
theorem Accepted.prepared : (p.prepared o).Accepted := by
  unfold Program.prepared
  split
  · exact (haccepted.propagate hknown).fold
  · exact haccepted

/-- The methods that are lowered are those of the unit. Their bodies may be rewritten, but they
are accepted and have nothing new. -/
theorem exists_method_of_prepared {m' : MethodDecl} (hm' : m' ∈ (p.prepared o).decl.methods) :
    ∃ m ∈ p.decl.methods, m'.signature = m.signature ∧
      List.Forall₂ Stmt.Within m'.body m.body ∧
      ∀ stmt ∈ m'.body, Scope.AcceptsStmt ⟨p.table, m.signature⟩ stmt := by
  obtain ⟨m, hm, hsig, hwithin⟩ := exists_within_of_prepared hm'
  refine ⟨m, hm, hsig, hwithin, fun stmt hstmt ↦ ?_⟩
  rw [← hsig, ← p.table_prepared o]
  exact (haccepted.prepared hknown o).acceptsStmt hm' hstmt

theorem onlyCalls_faults_prepared (hshort : p.longestList ≤ 2147483647) :
    OnlyCalls (p.prepared o).faults := by
  rw [faults, List.flatMap_def]
  refine onlyCalls_flatten fun fs hfs ↦ ?_
  obtain ⟨m', hm', rfl⟩ := List.mem_map.mp hfs
  obtain ⟨m, hm, hsig, hwithin, haccepts⟩ := exists_method_of_prepared haccepted hknown o hm'
  have hbody : Stmt.longestListAll m'.body ≤ 2147483647 :=
    (Stmt.longestListAll_mono hwithin).trans (longestList_le.mp hshort m hm)
  rw [Stmt.longestListAll_le] at hbody
  rw [table_prepared, hsig]
  exact Scope.onlyCalls_stmtsFaults_of fun stmt hstmt ↦
    Scope.onlyCalls_stmtFaults (variablesKnown hknown hm) (haccepts stmt hstmt) (hbody stmt hstmt)

/-- Lowering an accepted unit never finds the tree itself at fault, rewritten or not. -/
theorem isInvalidTree_of_lower_eq_error (hshort : p.longestList ≤ 2147483647) {f : Fault}
    (h : p.lower p.table o = .error f) : f.isInvalidTree = false :=
  onlyCalls_faults_prepared haccepted hknown o hshort f
    (List.mem_of_head? (lower_eq_error_iff.mp h))

end

/-- A unit that stores into an array of its own and shows an element of one it was given by
another class. -/
def elementCall : Program where
  imports := [⟨["Store"], .origin⟩]
  decl := {
    name := "Shop"
    superclass := none
    fields := []
    methods := [{
      name := "open"
      isPublic := true
      isStatic := false
      returnType := .void
      params := []
      varargs := none
      locals := [⟨.int, "i", .origin⟩, ⟨.array .int, "sold", .origin⟩]
      body := [
        .assign .origin "i" (.lit .origin (.int 0)),
        .assign .origin "sold" (.array .origin [.lit .origin (.int 1), .var .origin "i"]),
        .store .origin "sold" (.var .origin "i")
          (.binary .origin .add (.var .origin "i") (.lit .origin (.int 1))),
        .eval .origin (.callOn .origin
          (.index .origin (.callOn .origin (.var .origin "Store") "items" []) (.var .origin "i"))
          "show" [.var .origin "sold"])]
      pos := .origin }]
    pos := .origin }

theorem elementCall_isInvalidTree :
    elementCall.Accepted ∧ (∀ d ∈ elementCall.varDecls, d.typeName ≠ "<any>") ∧
      elementCall.longestList ≤ 2147483647 ∧
      ∃ f, elementCall.lower elementCall.table ⟨true, false⟩ = .error f ∧
        f.isInvalidTree = false := by
  have haccepted : elementCall.Accepted := accepted_iff.mpr (by decide)
  have hknown : ∀ d ∈ elementCall.varDecls, d.typeName ≠ "<any>" := by decide
  have hshort : elementCall.longestList ≤ 2147483647 := by decide
  obtain ⟨f, hlower⟩ : ∃ f, elementCall.lower elementCall.table ⟨true, false⟩ = .error f :=
    ⟨_, rfl⟩
  exact ⟨haccepted, hknown, hshort, f, hlower,
    isInvalidTree_of_lower_eq_error haccepted hknown ⟨true, false⟩ hshort hlower⟩

end Program

end Tricode
