import Tricode.Proofs.Footprint

/-!
# Static methods and the object

A static method runs on no object. Checking refuses `this` in it, the fields, and the methods of
the class that need an object. This file asks what is left of the object in the code of a static
method, whether its tree was rewritten or not.

Fields are kept off: no field is read or written. The object itself is not. A method the class
does not declare may come from an import, so checking lets a call to it pass. Lowering takes the
same method for an inherited one if there is a superclass, and makes the call on `this`. Beside
that the name `this` occurs only where a class is called so.
-/

namespace Tricode

/-! ## Names of operands -/

namespace Reference

/-- The name of the operand that is read, if the reference is to one. -/
def operandName? : Reference → Option String
  | .value o | .owner o => some o.name
  | _ => none

/-- Neither a literal nor a temporary is called `this`. -/
theorem isInternal_of_this {r : Reference} (h : r.operandName? = some "this") :
    r.isInternal = false := by
  cases r with
  | value operand =>
    have hname : operand.name = "this" := Option.some.inj h
    cases operand with
    | var name ty => rfl
    | literal lit ty => exact absurd hname (codeText_ne_this lit)
    | temp id ty => exact absurd hname (tempName_ne_this id)
  | owner operand => rfl
  | _ => cases h

end Reference

theorem Code.exists_operand_named {code : Code} {name : String} :
    (∃ i ∈ code, ∃ operand ∈ i.operands, operand.name = name) ↔
      ∃ r ∈ code.references, r.operandName? = some name := by
  constructor
  · rintro ⟨i, hi, operand, hoperand, rfl⟩
    rcases Instruction.mem_operands.mp hoperand with h | h
    · exact ⟨_, List.mem_flatMap.mpr ⟨i, hi, h⟩, rfl⟩
    · exact ⟨_, List.mem_flatMap.mpr ⟨i, hi, h⟩, rfl⟩
  · rintro ⟨r, hr, hname⟩
    obtain ⟨i, hi, hr⟩ := List.mem_flatMap.mp hr
    cases r with
    | value operand =>
      exact ⟨i, hi, operand, Instruction.mem_operands.mpr (.inl hr), Option.some.inj hname⟩
    | owner operand =>
      exact ⟨i, hi, operand, Instruction.mem_operands.mpr (.inr hr), Option.some.inj hname⟩
    | _ => cases hname

namespace Scope

variable {s : Scope} {u : Mention} {pos : Position}

/-! ## What checking asks of a static method -/

/-- The mention needs no object: it is of no field, and of no method that has to be called on an
object as far as the class knows. -/
def NeedsNoObject (s : Scope) : Mention → Prop
  | .this => False
  | .value name | .receiver name | .dropped name | .target name =>
    ∀ symbol, s.lookup name ≠ .stored .field symbol
  | .own method => ∀ sig, s.table.method? method = some sig → sig.isStatic = true
  | _ => True

theorem needsNoObject_asReceiver {receiver : Expr} {method : String}
    (h : ∀ u ∈ receiver.mentions, s.NeedsNoObject u) :
    ∀ u ∈ receiver.asReceiver method receiver.mentions, s.NeedsNoObject u := by
  cases receiver with
  | this p => exact (h .this List.mem_cons_self).elim
  | var p name =>
    exact List.forall_mem_cons.mpr ⟨h (.value name) List.mem_cons_self,
      List.forall_mem_singleton.mpr trivial⟩
  | _ => exact List.forall_mem_append.mpr ⟨h, List.forall_mem_singleton.mpr trivial⟩

theorem needsNoObject_asStatement {e : Expr} (h : ∀ u ∈ e.mentions, s.NeedsNoObject u) :
    ∀ u ∈ e.asStatement e.mentions, s.NeedsNoObject u := by
  cases e with
  | this p => exact fun u hu ↦ absurd hu List.not_mem_nil
  | var p name => exact List.forall_mem_singleton.mpr (h (.value name) List.mem_cons_self)
  | _ => exact h

section

variable (hstatic : s.method.isStatic = true)
include hstatic

theorem lookup_ne_field_of_clean {name : String}
    (h : Diagnostic.Clean (s.variableProblems pos name)) (symbol : Symbol) :
    s.lookup name ≠ .stored .field symbol := by
  intro hlookup
  rw [variableProblems, hlookup, Diagnostic.clean_require, hstatic] at h
  cases h

theorem lookup_ne_field_of_clean_target {name : String}
    (h : Diagnostic.Clean (s.targetProblems pos name)) (symbol : Symbol) :
    s.lookup name ≠ .stored .field symbol := by
  intro hlookup
  rw [targetProblems, hlookup] at h
  exact lookup_ne_field_of_clean hstatic h symbol hlookup

theorem needsNoObject_own {method : String} {args : List Argument}
    (h : Diagnostic.Clean (s.ownCallProblems pos true method args [])) :
    s.NeedsNoObject (.own method) := by
  intro sig hsig
  rw [ownCallProblems, hsig] at h
  simp only [Diagnostic.clean_append, Diagnostic.clean_require, hstatic] at h
  simpa using h.1.1

theorem needsNoObject_of_accepts {e : Expr} :
    s.Accepts e → ∀ u ∈ e.mentions, s.NeedsNoObject u := by
  have hall : ∀ {es : List Expr}, (∀ e ∈ es, s.Accepts e → ∀ u ∈ e.mentions, s.NeedsNoObject u) →
      (∀ e ∈ es, s.Accepts e) → ∀ u ∈ Expr.mentionsAll es, s.NeedsNoObject u := by
    intro es ih h
    rw [Expr.mentionsAll_eq_flatMap, List.forall_mem_flatMap]
    exact fun e he ↦ ih e he (h e he)
  induction e using Expr.memberInduct with
  | lit => exact fun _ u hu ↦ absurd hu List.not_mem_nil
  | this p =>
    intro h
    rw [accepts_this, hstatic] at h
    cases h
  | var p name =>
    intro h
    exact List.forall_mem_singleton.mpr (lookup_ne_field_of_clean hstatic (accepts_var.mp h))
  | not p operand ih => exact fun h ↦ ih (accepts_not.mp h).1
  | binary p op lhs rhs ihl ihr =>
    intro h
    obtain ⟨hl, hr, -⟩ := accepts_binary.mp h
    exact List.forall_mem_append.mpr ⟨ihl hl, ihr hr⟩
  | index p base idx ihb ihi =>
    intro h
    obtain ⟨hb, hi, -⟩ := accepts_index.mp h
    exact List.forall_mem_append.mpr ⟨ihb hb, ihi hi⟩
  | array p elements ih => exact fun h ↦ hall ih (accepts_array.mp h).1
  | newArray p elem size ih =>
    exact fun h ↦ List.forall_mem_cons.mpr ⟨trivial, ih (accepts_newArray.mp h).1⟩
  | newObject p className => exact fun _ ↦ List.forall_mem_singleton.mpr trivial
  | length p base ih => exact fun h ↦ ih (accepts_length.mp h).1
  | call p method args ih =>
    intro h
    obtain ⟨hargs, hrule⟩ := accepts_call.mp h
    exact List.forall_mem_cons.mpr ⟨needsNoObject_own hstatic hrule, hall ih hargs⟩
  | callOn p receiver method args ihr iha =>
    intro h
    obtain ⟨hr, hargs, -⟩ := accepts_callOn.mp h
    exact List.forall_mem_append.mpr ⟨needsNoObject_asReceiver (ihr hr), hall iha hargs⟩

theorem needsNoObject_of_acceptsStmt {stmt : Stmt} :
    s.AcceptsStmt stmt → ∀ u ∈ stmt.mentions, s.NeedsNoObject u := by
  induction stmt using Stmt.memberInduct with
  | block p stmts ih =>
    intro h
    rw [Stmt.mentions, Stmt.mentionsAll_eq_flatMap, List.forall_mem_flatMap]
    exact fun stmt hstmt ↦ ih stmt hstmt (acceptsStmt_block.mp h stmt hstmt)
  | ifElse p cond thenBranch elseBranch ihThen ihElse =>
    intro h
    obtain ⟨hcond, -, hthen, helse⟩ := acceptsStmt_ifElse.mp h
    rw [Stmt.mentions, List.forall_mem_append, List.forall_mem_append]
    exact ⟨⟨needsNoObject_of_accepts hstatic hcond, ihThen hthen⟩, ihElse helse⟩
  | whileLoop p cond body ihBody =>
    intro h
    obtain ⟨hcond, -, hbody⟩ := acceptsStmt_whileLoop.mp h
    exact List.forall_mem_append.mpr ⟨needsNoObject_of_accepts hstatic hcond, ihBody hbody⟩
  | eval p expr =>
    intro h
    exact needsNoObject_asStatement (needsNoObject_of_accepts hstatic (acceptsStmt_eval.mp h))
  | assign p target value =>
    intro h
    obtain ⟨hvalue, htarget, -⟩ := acceptsStmt_assign.mp h
    exact List.forall_mem_cons.mpr ⟨lookup_ne_field_of_clean_target hstatic htarget,
      needsNoObject_of_accepts hstatic hvalue⟩
  | store p target index value =>
    intro h
    obtain ⟨htarget, hindex, hvalue, -⟩ := acceptsStmt_store.mp h
    rw [Stmt.mentions, List.forall_mem_cons, List.forall_mem_append]
    exact ⟨lookup_ne_field_of_clean_target hstatic htarget,
      needsNoObject_of_accepts hstatic hindex, needsNoObject_of_accepts hstatic hvalue⟩
  | ret p value =>
    intro h
    cases value with
    | none => exact List.forall_mem_singleton.mpr trivial
    | some value =>
      exact List.forall_mem_cons.mpr
        ⟨trivial, needsNoObject_of_accepts hstatic (acceptsStmt_ret_some.mp h).1⟩

end

/-! ## What is left in the code -/

/-- The mention is a call to a method that the class does not declare and takes for inherited. -/
def CallsInherited (s : Scope) : Mention → Prop
  | .own method => s.table.method? method = none ∧ s.table.superclass.isSome = true
  | _ => False

/-- The mention leaves the class `name` in the code. -/
def NamesClass (s : Scope) (name : String) : Mention → Prop
  | .own _ => s.table.className = name
  | .object className => className = name
  | .value name' | .receiver name' => name' = name ∧ s.lookup name' = .imported
  | _ => False

/-- Where no object is needed no field is read or written. -/
theorem reference?_ne_field (h : s.NeedsNoObject u) (name : String) (ty : Ty) :
    s.reference? u ≠ some (.getField name ty) ∧ s.reference? u ≠ some (.putField name ty) := by
  have hread : ∀ {x : String}, (∀ symbol, s.lookup x ≠ .stored .field symbol) →
      s.readReference? x ≠ some (.getField name ty) ∧
        s.readReference? x ≠ some (.putField name ty) := by
    intro x hx
    unfold readReference?
    split
    · rename_i symbol hlookup
      exact absurd hlookup (hx symbol)
    · simp
    · simp
    · simp
  cases u with
  | this => exact h.elim
  | value x => exact hread h
  | receiver x =>
    rw [reference?]
    split
    · simp
    · exact hread h
  | dropped x =>
    rw [reference?]
    split
    · rename_i symbol hlookup
      exact absurd hlookup (h symbol)
    · simp
  | target x =>
    rw [reference?]
    split
    · rename_i symbol hlookup
      exact absurd hlookup (h symbol)
    · simp
    · simp
  | own method => cases hkind : (s.ownDispatch method).kind <;>
      simp [reference?, CallKind.reference, hkind]
  | object | elements | other | ret => simp [reference?]

theorem readReference?_named_this_iff {x : String}
    (h : ∀ symbol, s.lookup x ≠ .stored .field symbol)
    (hthis : ∀ storage symbol, s.lookup "this" ≠ .stored storage symbol) :
    (∃ r, s.readReference? x = some r ∧ r.operandName? = some "this") ↔
      x = "this" ∧ s.lookup x = .imported := by
  unfold readReference?
  cases hlookup : s.lookup x with
  | stored storage symbol =>
    cases storage with
    | field => exact absurd hlookup (h symbol)
    | localVar | param =>
      refine iff_of_false ?_ (by simp)
      rintro ⟨r, hr, hname⟩
      obtain rfl := Option.some.inj hr
      obtain rfl : x = "this" := Option.some.inj hname
      exact hthis _ _ hlookup
  | imported => simp [Reference.operandName?, Operand.ofClass, Operand.name]
  | unbound => simp

theorem operandName?_eq_this_iff (h : s.NeedsNoObject u)
    (hthis : ∀ storage symbol, s.lookup "this" ≠ .stored storage symbol) :
    (∃ r, s.reference? u = some r ∧ r.operandName? = some "this") ↔
      s.CallsInherited u ∨ s.NamesClass "this" u := by
  cases u with
  | this => exact h.elim
  | value x =>
    simpa [CallsInherited, NamesClass, reference?] using readReference?_named_this_iff h hthis
  | receiver x =>
    by_cases hlookup : s.lookup x = .imported
    · simp [reference?, hlookup, CallsInherited, NamesClass, Reference.operandName?,
        Operand.ofClass, Operand.name]
    · simpa [reference?, hlookup, CallsInherited, NamesClass] using
        readReference?_named_this_iff h hthis
  | dropped x | target x =>
    rw [reference?]
    split <;> simp [CallsInherited, NamesClass, Reference.operandName?]
  | own method =>
    -- A method of the class is static, since no object is needed. One that the class lacks is
    -- called on `this` just in case there is a superclass.
    cases hsig : s.table.method? method with
    | some sig =>
      simp [reference?, ownDispatch, hsig, h sig hsig, CallKind.reference, CallsInherited,
        NamesClass, Reference.operandName?, Operand.ofClass, Operand.name]
    | none =>
      cases hsuper : s.table.superclass.isSome <;>
        simp [reference?, ownDispatch, hsig, hsuper, CallKind.reference, CallsInherited,
          NamesClass, Reference.operandName?, Operand.ofClass, thisOperand, Operand.this,
          Operand.name]
  | object className =>
    simp [reference?, CallsInherited, NamesClass, Reference.operandName?, Operand.ofClass,
      Operand.name]
  | elements | other | ret => simp [reference?, CallsInherited, NamesClass, Reference.operandName?]

end Scope

/-! ## Units -/

namespace Program

variable {p : Program} {o : Options}

/-- The body of a static method needs no object, in the form in which it is lowered. -/
theorem Accepted.needsNoObject (haccepted : p.Accepted) {m : MethodDecl}
    (hm : m ∈ (p.prepared o).decl.methods) (hstatic : m.isStatic = true) :
    ∀ u ∈ Stmt.mentionsAll m.body, Scope.NeedsNoObject ⟨p.table, m.signature⟩ u :=
  haccepted.forall_mentions hm fun _ ↦ Scope.needsNoObject_of_acceptsStmt hstatic

section

variable {code : ClassCode} {i : Nat} {m : MethodDecl} {mc : MethodCode}
variable (haccepted : p.Accepted) (hlower : p.lower p.table o = .ok code)
variable (hm : (p.prepared o).decl.methods[i]? = some m) (hmc : code.methods[i]? = some mc)
variable (hstatic : m.isStatic = true)
include haccepted hlower hm hmc hstatic

theorem Accepted.field_notMem_references (name : String) (ty : Ty) :
    .getField name ty ∉ mc.body.references ∧ .putField name ty ∉ mc.body.references := by
  have hneeds := haccepted.needsNoObject (List.mem_of_getElem? hm) hstatic
  rw [mem_references_iff hlower hm hmc (by simp) rfl,
    mem_references_iff hlower hm hmc (by simp) rfl]
  constructor
  · rintro ⟨u, hu, hr⟩
    exact (Scope.reference?_ne_field (hneeds u hu) name ty).1 hr
  · rintro ⟨u, hu, hr⟩
    exact (Scope.reference?_ne_field (hneeds u hu) name ty).2 hr

theorem Accepted.this_mem_references_iff (hthis : ∀ d ∈ p.varDecls, d.name ≠ "this") :
    (∃ r ∈ mc.body.references, r.operandName? = some "this") ↔
      ∃ u ∈ Stmt.mentionsAll m.body, Scope.CallsInherited ⟨p.table, m.signature⟩ u ∨
        Scope.NamesClass ⟨p.table, m.signature⟩ "this" u := by
  have hneeds := haccepted.needsNoObject (List.mem_of_getElem? hm) hstatic
  have hunbound : ∀ storage symbol,
      Scope.lookup ⟨p.table, m.signature⟩ "this" ≠ .stored storage symbol := by
    obtain ⟨source, hsource, hsig, -⟩ := exists_within_of_prepared (List.mem_of_getElem? hm)
    intro storage symbol hlookup
    rw [hsig] at hlookup
    obtain ⟨d, hd, hname, -⟩ := exists_varDecl hsource hlookup
    exact hthis d hd hname
  have hmentioned : ∀ r : Reference, r.operandName? = some "this" → (r ∈ mc.body.references ↔
      ∃ u ∈ Stmt.mentionsAll m.body, Scope.reference? ⟨p.table, m.signature⟩ u = some r) := by
    intro r hname
    refine mem_references_iff hlower hm hmc ?_ (Reference.isInternal_of_this hname)
    rintro rfl
    cases hname
  constructor
  · rintro ⟨r, hr, hname⟩
    obtain ⟨u, hu, hresolved⟩ := (hmentioned r hname).mp hr
    exact ⟨u, hu, (Scope.operandName?_eq_this_iff (hneeds u hu) hunbound).mp ⟨r, hresolved, hname⟩⟩
  · rintro ⟨u, hu, hleft⟩
    obtain ⟨r, hresolved, hname⟩ :=
      (Scope.operandName?_eq_this_iff (hneeds u hu) hunbound).mpr hleft
    exact ⟨r, (hmentioned r hname).mpr ⟨u, hu, hresolved⟩, hname⟩

/-- The code of a static method reads and writes no field. It refers to `this` only to call a
method that the class takes for inherited, or where a class is called `this`. -/
theorem staticMethod_this_iff (hthis : ∀ d ∈ p.varDecls, d.name ≠ "this") :
    (∀ dest ty field fieldTy, .assign dest ty (.getField field fieldTy) ∉ mc.body) ∧
      (∀ field ty value, .putField field ty value ∉ mc.body) ∧
      ((∃ instruction ∈ mc.body, ∃ operand ∈ instruction.operands, operand.name = "this") ↔
        ∃ u ∈ Stmt.mentionsAll m.body, Scope.CallsInherited ⟨p.table, m.signature⟩ u ∨
          Scope.NamesClass ⟨p.table, m.signature⟩ "this" u) := by
  have hfield := haccepted.field_notMem_references hlower hm hmc hstatic
  refine ⟨fun dest ty field fieldTy hmem ↦ ?_, fun field ty value hmem ↦ ?_, ?_⟩
  · refine (hfield field fieldTy).1 (List.mem_flatMap.mpr ⟨_, hmem, ?_⟩)
    exact List.mem_append_right _ List.mem_cons_self
  · exact (hfield field ty).2 (List.mem_flatMap.mpr ⟨_, hmem, List.mem_cons_self⟩)
  · rw [Code.exists_operand_named]
    exact haccepted.this_mem_references_iff hlower hm hmc hstatic hthis

end

/-- A unit whose only method is static and calls one that neither it nor an import is known to
have. -/
def lamp : Program where
  imports := [⟨["io"], .origin⟩]
  decl := {
    name := "Lamp"
    superclass := some "Device"
    fields := [⟨.int, "level", .origin⟩]
    methods := [{
      name := "main"
      isPublic := true
      isStatic := true
      returnType := .void
      params := [⟨.array .string, "args", .origin⟩]
      varargs := none
      locals := [⟨.int, "step", .origin⟩]
      body := [
        .assign .origin "step" (.length .origin (.var .origin "args")),
        .eval .origin (.callOn .origin (.var .origin "io") "println" [.var .origin "step"]),
        .eval .origin (.call .origin "setup" [.var .origin "step"])]
      pos := .origin }]
    pos := .origin }

theorem lamp_staticMethod_this : lamp.Accepted ∧ (∀ d ∈ lamp.varDecls, d.name ≠ "this") ∧
    ∃ code mc, lamp.lower lamp.table ⟨true, false⟩ = .ok code ∧ code.methods[0]? = some mc ∧
      mc.isStatic = true ∧
      ∃ instruction ∈ mc.body, ∃ operand ∈ instruction.operands, operand.name = "this" := by
  have haccepted : lamp.Accepted := accepted_iff.mpr (by decide)
  have hthis : ∀ d ∈ lamp.varDecls, d.name ≠ "this" := by decide
  obtain ⟨code, mc, hlower, hmc, hcode⟩ : ∃ code mc,
      lamp.lower lamp.table ⟨true, false⟩ = .ok code ∧ code.methods[0]? = some mc ∧
        mc.isStatic = true := ⟨_, _, rfl, rfl, rfl⟩
  obtain ⟨m, hm, hstatic, hcall⟩ : ∃ m, (lamp.prepared ⟨true, false⟩).decl.methods[0]? = some m ∧
      m.isStatic = true ∧ .own "setup" ∈ Stmt.mentionsAll m.body := ⟨_, rfl, rfl, by decide⟩
  obtain ⟨-, -, hiff⟩ := staticMethod_this_iff haccepted hlower hm hmc hstatic hthis
  exact ⟨haccepted, hthis, code, mc, hlower, hmc, hcode,
    hiff.mpr ⟨.own "setup", hcall, .inl ⟨rfl, rfl⟩⟩⟩

end Program

end Tricode
