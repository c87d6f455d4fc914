import Tricode.Proofs.Footprint

/-!
# Locals before parameters before fields

Inside a method a local variable hides a parameter of the same name, and both hide a field. Of
several declarations alike the first one counts. Names are looked up in many places: where a value
is read or assigned, where an array is stored to, where a call is made on an object. This file
shows that the rule holds at all of them, in the code of every unit that can be lowered, be it
accepted or not.

## Every read counts

That nothing but variables is read as one is a matter of each reference on its own. That *every*
read of a variable becomes an operand is not, since one read might be lost among others of the same
name. So reads and operands are counted. The one operand that is no read is the object a method
runs on, which has a name that a variable may bear as well.
-/

namespace Tricode

/-! ## Looking up -/

namespace Scope

variable {s : Scope} {name : String} {ty : Ty}

/-- The name stands for a local variable or a parameter of this type: that of the first local
variable of the name or, if there is none, of the first parameter. -/
def IsVariable (s : Scope) (name : String) (ty : Ty) : Prop :=
  ((s.method.localVar? name).or (s.method.param? name)).map Symbol.ty = some ty

/-- The name is that of a field, of the type of the first field called so, and nothing in the
method hides it. -/
structure IsField (s : Scope) (name : String) (ty : Ty) : Prop where
  field : (s.table.field? name).map Symbol.ty = some ty
  localVar : s.method.localVar? name = none
  param : s.method.param? name = none

instance : Decidable (s.IsVariable name ty) := inferInstanceAs (Decidable (_ = _))

theorem isVariable_iff_lookup : s.IsVariable name ty ↔
    ∃ storage symbol, s.lookup name = .stored storage symbol ∧ storage ≠ .field ∧
      symbol.ty = ty := by
  unfold IsVariable lookup findVariable
  cases s.method.localVar? name with
  | some symbol => simp
  | none =>
    cases s.method.param? name with
    | some symbol => simp
    | none => cases s.table.field? name <;> simp [ite_eq_iff]

theorem isField_of_lookup {symbol : Symbol} (h : s.lookup name = .stored .field symbol) :
    s.IsField name symbol.ty := by
  have hfind := lookup_stored h
  simp only [findVariable, Option.or_eq_some_iff, Option.map_eq_some_iff, Option.map_eq_none_iff,
    Prod.mk.injEq] at hfind
  rcases hfind with ⟨_, -, hlocal, -⟩ | ⟨hlocal, ⟨_, -, hparam, -⟩ | ⟨hparam, _, hfield, -, rfl⟩⟩
  · cases hlocal
  · cases hparam
  · exact ⟨by rw [hfield, Option.map_some], hlocal, hparam⟩

/-! ## References -/

/-- What is read from a field or written to one is a field, and what is assigned as a variable is
a variable. -/
def Resolves (s : Scope) : Reference → Prop
  | .getField name ty | .putField name ty => s.IsField name ty
  | .slot (.var name ty) => s.IsVariable name ty
  | _ => True

theorem resolves_readReference? {r : Reference} (h : s.readReference? name = some r) :
    s.Resolves r := by
  unfold readReference? at h
  split at h
  · rename_i symbol hlookup
    cases h
    exact isField_of_lookup hlookup
  · cases h
    trivial
  · cases h
    trivial
  · cases h

theorem resolves_reference? {u : Mention} {r : Reference} (h : s.reference? u = some r) :
    s.Resolves r := by
  cases u with
  | this | object | ret =>
    cases h
    trivial
  | elements | other => cases h
  | value name => exact resolves_readReference? h
  | receiver name =>
    rw [reference?] at h
    split at h
    · cases h
      trivial
    · exact resolves_readReference? h
  | dropped name =>
    rw [reference?] at h
    split at h
    · rename_i symbol hlookup
      cases h
      exact isField_of_lookup hlookup
    · cases h
  | target name =>
    rw [reference?] at h
    split at h
    · rename_i symbol hlookup
      cases h
      exact isField_of_lookup hlookup
    · rename_i storage symbol hstorage hlookup
      cases h
      exact isVariable_iff_lookup.mpr ⟨storage, symbol, hlookup, hstorage, rfl⟩
    · cases h
  | own method =>
    rw [reference?, ownDispatch] at h
    split at h <;> split at h <;> cases h <;> trivial

end Scope

/-! ## Reads -/

/-- The name that is read, unless the value is dropped at once. -/
def Mention.read? : Mention → Option String
  | value name | receiver name => some name
  | _ => none

/-- The names whose values the statements use, one for each use. -/
def Stmt.readsAll (stmts : List Stmt) : List String := (mentionsAll stmts).filterMap Mention.read?

namespace Scope

variable {s : Scope} {name : String} {ty : Ty} {u : Mention}

theorem IsVariable.readReference? (h : s.IsVariable name ty) :
    s.readReference? name = some (.value (.var name ty)) := by
  obtain ⟨storage, symbol, hlookup, hstorage, rfl⟩ := isVariable_iff_lookup.mp h
  rw [Scope.readReference?, hlookup]
  cases storage with
  | field => exact absurd rfl hstorage
  | localVar | param => rfl

theorem IsVariable.reference? (h : s.IsVariable name ty) (hread : u.read? = some name) :
    s.reference? u = some (.value (.var name ty)) := by
  cases u with
  | value name' =>
    obtain rfl : name' = name := Option.some.inj hread
    exact h.readReference?
  | receiver name' =>
    obtain rfl : name' = name := Option.some.inj hread
    obtain ⟨storage, symbol, hlookup, -⟩ := isVariable_iff_lookup.mp h
    rw [Scope.reference?, if_neg (by simp [hlookup]), h.readReference?]
  | _ => cases hread

theorem name_of_readReference? {name' : String}
    (h : s.readReference? name' = some (.value (.var name ty))) : name' = name := by
  unfold readReference? at h
  split at h <;> cases h <;> rfl

/-- An operand with a name that is not `this` comes from a read of that name. -/
theorem read?_of_reference? (h : s.reference? u = some (.value (.var name ty)))
    (hthis : name ≠ "this") : u.read? = some name := by
  cases u with
  | value name' => rw [Mention.read?, name_of_readReference? h]
  | receiver name' =>
    rw [reference?] at h
    split at h
    · cases h
    · rw [Mention.read?, name_of_readReference? h]
  | this =>
    cases h
    exact absurd rfl hthis
  | own method =>
    -- Such a call is made on `this` or on the class, and the class is no value.
    rw [reference?, ownDispatch] at h
    split at h <;> split at h <;> cases h <;> exact absurd rfl hthis
  | dropped | target =>
    rw [reference?] at h
    split at h <;> cases h
  | object | elements | other | ret => cases h

/-! ## Counting -/

theorem IsVariable.count_reads_le (h : s.IsVariable name ty) (ms : List Mention) :
    (ms.filterMap Mention.read?).count name ≤
      ms.countP fun u ↦ s.reference? u == some (.value (.var name ty)) := by
  rw [List.count_filterMap]
  refine List.countP_mono_left fun u _ hread ↦ ?_
  rw [beq_iff_eq] at hread ⊢
  exact h.reference? hread

theorem IsVariable.count_operands_eq (h : s.IsVariable name ty) (hthis : name ≠ "this") (ty' : Ty)
    (ms : List Mention) :
    (ms.countP fun u ↦ s.reference? u == some (.value (.var name ty'))) =
      if ty' = ty then (ms.filterMap Mention.read?).count name else 0 := by
  split
  · rename_i hty
    subst hty
    rw [List.count_filterMap]
    refine List.countP_congr fun u _ ↦ ?_
    rw [beq_iff_eq, beq_iff_eq]
    exact ⟨fun hu ↦ read?_of_reference? hu hthis, h.reference?⟩
  · rename_i hty
    rw [List.countP_eq_zero]
    intro u _ hu
    rw [beq_iff_eq] at hu
    have hvar := hu.symm.trans (h.reference? (read?_of_reference? hu hthis))
    simp only [Option.some.injEq, Reference.value.injEq, Operand.var.injEq, true_and] at hvar
    exact hty hvar

/-- Names mean in the code what they mean in the scope, if the code is that of a body which reads
the given names. -/
structure Governs (s : Scope) (reads : List String) (code : Code) : Prop where
  getField : ∀ {dest ty name fieldTy}, .assign dest ty (.getField name fieldTy) ∈ code →
    s.IsField name fieldTy
  putField : ∀ {name ty value}, .putField name ty value ∈ code → s.IsField name ty
  assign : ∀ {name varTy ty value}, .assign (.var name varTy) ty value ∈ code →
    s.IsVariable name varTy
  /-- No read of a variable is lost. -/
  read : ∀ {name ty}, s.IsVariable name ty →
    reads.count name ≤ code.references.count (.value (.var name ty))
  /-- No read of a variable has another type, and only `this` is more than is read. -/
  operand : ∀ {name ty ty'}, s.IsVariable name ty → name ≠ "this" →
    code.references.count (.value (.var name ty')) = if ty' = ty then reads.count name else 0

/-- A variable that is read is lowered to an operand of its type, and no code is needed. -/
theorem IsVariable.yields_lowerExpr (h : s.IsVariable name ty) (pos : Position) (hint : Option Ty)
    (c : Counters) : (s.lowerExpr (.var pos name) hint).Yields c ⟨.var name ty, []⟩ c := by
  obtain ⟨storage, symbol, hlookup, hstorage, rfl⟩ := isVariable_iff_lookup.mp h
  rw [lowerExpr, lowerVar, hlookup]
  cases storage with
  | field => exact absurd rfl hstorage
  | localVar | param => exact Lower.yields_pure.mpr ⟨rfl, rfl⟩

end Scope

/-! ## Units -/

namespace Program

variable {p : Program} {o : Options} {code : ClassCode} {i : Nat} {m : MethodDecl}

/-- Every method is lowered, perhaps with reads replaced or dropped, but with none added. -/
theorem exists_prepared_method (hm : p.decl.methods[i]? = some m) (o : Options) :
    ∃ m', (p.prepared o).decl.methods[i]? = some m' ∧ m'.signature = m.signature ∧
      (Stmt.readsAll m'.body).Sublist (Stmt.readsAll m.body) ∧
      (o.foldConstants = false → m' = m) := by
  unfold prepared
  split
  · rename_i hfold
    refine ⟨{ m with body := Stmt.foldAll (Stmt.propagateAll m.localNames .none m.body) }, ?_, rfl,
      ?_, fun h ↦ absurd (h.symm.trans hfold) (by simp)⟩
    · rw [optimize_eq_mapBodies, mapBodies, List.getElem?_map, hm, Option.map_some]
    · exact (Stmt.mentionsAll_sublist (Stmt.forall₂_optimized _ _)).filterMap _
  · exact ⟨m, hm, rfl, .refl _, fun _ ↦ rfl⟩

theorem governs_of_lower (hlower : p.lower p.table o = .ok code)
    (hm : (p.prepared o).decl.methods[i]? = some m) {mc : MethodCode}
    (hmc : code.methods[i]? = some mc) :
    Scope.Governs ⟨p.table, m.signature⟩ (Stmt.readsAll m.body) mc.body := by
  have hresolves : ∀ {r}, r ∈ mc.body.references → r ≠ .ret false → r.isInternal = false →
      Scope.Resolves ⟨p.table, m.signature⟩ r := by
    intro r hr hret hexternal
    obtain ⟨u, -, hu⟩ := (mem_references_iff hlower hm hmc hret hexternal).mp hr
    exact Scope.resolves_reference? hu
  have hmem : ∀ {instruction r}, instruction ∈ mc.body → r ∈ instruction.references →
      r ∈ mc.body.references := fun hi hr ↦ List.mem_flatMap.mpr ⟨_, hi, hr⟩
  refine ⟨fun {dest _ name fieldTy} hi ↦ ?_, fun hi ↦ ?_, fun hi ↦ ?_, fun hvariable ↦ ?_,
    fun {name ty ty'} hvariable hthis ↦ ?_⟩
  · exact hresolves (r := .getField name fieldTy)
      (hmem hi (List.mem_append_right _ List.mem_cons_self)) (by simp) rfl
  · exact hresolves (hmem hi List.mem_cons_self) (by simp) rfl
  · exact hresolves (hmem hi List.mem_cons_self) (by simp) rfl
  · rw [count_references hlower hm hmc (by simp) rfl]
    exact hvariable.count_reads_le _
  · rw [count_references hlower hm hmc (by simp) rfl]
    exact hvariable.count_operands_eq hthis ty' _

/-- A unit whose method has a local variable, a parameter and a field of one name, and declares
some names twice. -/
def mixer : Program where
  imports := []
  decl := {
    name := "Mixer"
    superclass := none
    fields := [⟨.boolean, "level", .origin⟩, ⟨.boolean, "taps", .origin⟩, ⟨.int, "gain", .origin⟩,
      ⟨.boolean, "gain", .origin⟩]
    methods := [{
      name := "mix"
      isPublic := true
      isStatic := false
      returnType := .int
      params := [⟨.string, "level", .origin⟩, ⟨.array .int, "taps", .origin⟩,
        ⟨.int, "taps", .origin⟩]
      varargs := none
      locals := [⟨.int, "level", .origin⟩, ⟨.boolean, "level", .origin⟩, ⟨.int, "step", .origin⟩]
      body := [
        .assign .origin "step" (.lit .origin (.int 2)),
        .assign .origin "level"
          (.binary .origin .add (.var .origin "step") (.var .origin "gain")),
        .store .origin "taps" (.var .origin "step") (.var .origin "level"),
        .ifElse .origin (.binary .origin .lt (.var .origin "level") (.var .origin "gain"))
          (.assign .origin "gain" (.var .origin "level"))
          (.block .origin []),
        .ret .origin (some (.var .origin "level"))]
      pos := .origin }]
    pos := .origin }

end Program

end Tricode
