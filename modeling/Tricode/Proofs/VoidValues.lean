import Tricode.Proofs.Emission

/-!
# Void and values

`void` is the result type of a method that has no result, and the type of no value. So nothing that
code reads or assigns to should be void, nor an array of it. No rule of checking says so. What keeps
a call without a result from most places is that something else is expected there; an argument of a
method from elsewhere and an element of an array literal may have any type.

`Program.valued_body_iff` shows that this is the only way. If nothing else in a unit is called or
declared void, then the code of a method moves only values so long as no call without a result is
used there. The argument goes from the leaves up: an operand gets a type of its own, or the one that
is expected where it stands, and either is the type of a value.
-/

namespace Tricode

/-! ## Types of values -/

/-- The type is neither `void` nor an array of it. -/
def Ty.Valued (t : Ty) : Prop := t.name ≠ "void"

instance (t : Ty) : Decidable t.Valued := inferInstanceAs (Decidable (t.name ≠ "void"))

namespace Ty

@[simp] theorem valued_element {t : Ty} : t.element.Valued ↔ t.Valued := Iff.rfl

@[simp] theorem valued_arrayOf {t : Ty} : t.arrayOf.Valued ↔ t.Valued := Iff.rfl

@[simp] theorem valued_int : int.Valued := by decide

@[simp] theorem valued_boolean : boolean.Valued := by decide

@[simp] theorem valued_intArray : intArray.Valued := by decide

@[simp] theorem valued_any : any.Valued := by decide

theorem valued_of_isClass {t : Ty} (h : t.isClass = true) : t.Valued := by
  intro hname
  simp [isClass, isPrimitive, hname] at h

theorem valued_iff {t : Ty} : t.Valued ↔ t ≠ void ∧ t ≠ void.arrayOf := by
  obtain ⟨name, isArray⟩ := t
  cases isArray <;> simp [Valued, void, arrayOf]

theorem valued_indexed {t : Ty} (h : t.Valued) : t.indexed.Valued := by
  unfold indexed
  split
  · exact valued_element.mpr h
  · exact valued_any

theorem valued_ofElements {types : List Ty} (h : ∀ t ∈ types, t.Valued) :
    (ofElements types).Valued := by
  unfold ofElements
  split
  · exact valued_intArray
  · split
    · rename_i elem helem
      split
      · exact valued_arrayOf.mpr (h elem (List.mem_of_find?_eq_some helem))
      · exact valued_any
    · exact valued_any

end Ty

theorem Literal.valued_ty (value : Literal) : value.ty.Valued := by
  cases value with
  | int => exact Ty.valued_int
  | bool => exact Ty.valued_boolean

theorem BinOp.valued_resultTy (op : BinOp) : op.resultTy.Valued := by
  cases op <;> decide

theorem Signature.valued_varargsElement (sig : Signature)
    (h : ∀ param ∈ sig.params, param.ty.Valued) {elem : Ty}
    (helem : sig.varargsElement = some elem) : elem.Valued := by
  obtain ⟨slot, hslot, rfl⟩ := Option.map_eq_some_iff.mp helem
  unfold varargsSlot at hslot
  split at hslot
  · exact Ty.valued_element.mpr (h slot (List.mem_of_getLast? hslot))
  · cases hslot

/-- A name that no part of an expression uses as a type is not used by its children. -/
theorem Expr.not_mem_typeNames_child {name : String} {e : Expr} (h : name ∉ e.typeNames) :
    ∀ child ∈ e.children, name ∉ child.typeNames := by
  cases e with
  | lit | this | var | newObject => exact fun child hchild ↦ absurd hchild List.not_mem_nil
  | not | length => exact List.forall_mem_singleton.mpr h
  | newArray pos elem size =>
    exact List.forall_mem_singleton.mpr fun hsize ↦ h (List.mem_cons_of_mem _ hsize)
  | binary pos op lhs rhs =>
    rw [typeNames, List.mem_append, not_or] at h
    exact List.forall_mem_cons.mpr ⟨h.1, List.forall_mem_singleton.mpr h.2⟩
  | index pos base idx =>
    rw [typeNames, List.mem_append, not_or] at h
    exact List.forall_mem_cons.mpr ⟨h.1, List.forall_mem_singleton.mpr h.2⟩
  | array | call => exact not_mem_typeNamesAll.mp h
  | callOn pos receiver method args =>
    rw [typeNames, List.mem_append, not_or] at h
    exact List.forall_mem_cons.mpr ⟨h.1, not_mem_typeNamesAll.mp h.2⟩

namespace Instruction

/-- The type of what the instruction assigns to, be it a place or a field. -/
def assignedTy? : Instruction → Option Ty
  | assign dest _ _ => some dest.ty
  | putField _ ty _ => some ty
  | _ => none

/-- Whatever the instruction reads or assigns to has a type with values. -/
def Valued (i : Instruction) : Prop :=
  (∀ o ∈ i.operands, o.ty.Valued) ∧ ∀ ty ∈ i.assignedTy?, ty.Valued

instance (i : Instruction) : Decidable i.Valued := inferInstanceAs (Decidable (_ ∧ _))

@[simp] theorem valued_assign {dest : Place} {ty : Ty} {value : Rvalue} :
    (assign dest ty value).Valued ↔ (∀ o ∈ dest.operands, o.ty.Valued) ∧
      (∀ o ∈ value.operands, o.ty.Valued) ∧ dest.ty.Valued := by
  simp only [Valued, operands, List.forall_mem_append, assignedTy?, Option.mem_some_iff,
    forall_eq', and_assoc]

@[simp] theorem valued_call {c : Call} : (call c).Valued ↔ ∀ o ∈ c.operands, o.ty.Valued := by
  simp [Valued, operands, assignedTy?]

@[simp] theorem valued_putField {field : String} {ty : Ty} {value : Operand} :
    (putField field ty value).Valued ↔ value.ty.Valued ∧ ty.Valued := by
  simp [Valued, operands, assignedTy?]

@[simp] theorem valued_goto {l : Label} : (goto l).Valued := by
  simp [Valued, operands, assignedTy?]

@[simp] theorem valued_label {l : Label} : (label l).Valued := by
  simp [Valued, operands, assignedTy?]

@[simp] theorem valued_branch {cond : Cond} {l : Label} :
    (branch cond l).Valued ↔ ∀ o ∈ cond.operands, o.ty.Valued := by
  simp [Valued, operands, assignedTy?]

@[simp] theorem valued_ret {value : Option Operand} {ty : Ty} :
    (ret value ty).Valued ↔ ∀ o ∈ value, o.ty.Valued := by
  simp [Valued, operands, assignedTy?]

@[simp] theorem valued_setBool {id : Nat} {value : Operand} :
    (Lower.setBool id value).Valued ↔ value.ty.Valued := by
  simp [Lower.setBool, Place.operands, Place.ty, Rvalue.operands]

end Instruction

@[simp] theorem Operand.valued_bool (b : Bool) : (bool b).ty.Valued := Ty.valued_boolean

@[simp] theorem Operand.valued_int (n : Int32) : (int n).ty.Valued := Ty.valued_int

/-- Nothing the code reads or assigns to is of a type without values. -/
def Code.Valued (code : Code) : Prop := ∀ i ∈ code, i.Valued

namespace Code

variable {i : Instruction} {code code' : Code}

instance (code : Code) : Decidable code.Valued := inferInstanceAs (Decidable (∀ i ∈ code, _))

@[simp] theorem valued_nil : Valued [] := fun _ h ↦ absurd h List.not_mem_nil

@[simp] theorem valued_cons : Valued (i :: code) ↔ i.Valued ∧ code.Valued := List.forall_mem_cons

@[simp] theorem valued_append : Valued (code ++ code') ↔ code.Valued ∧ code'.Valued :=
  List.forall_mem_append

@[simp] theorem valued_closed : Valued code.closed ↔ code.Valued := by
  unfold closed
  split <;> simp

end Code

/-- An operand of a type with values, and code of that kind. -/
def Lowered.Valued (l : Lowered) : Prop := l.operand.ty.Valued ∧ l.code.Valued

/-! ## Combinators -/

namespace Lower

/-- Whatever the step yields has a type with values. -/
def GivesValues (x : Lower Lowered) : Prop :=
  ∀ ⦃c : Counters⦄ ⦃l : Lowered⦄ ⦃c' : Counters⦄, x.Yields c l c' → l.Valued

/-- The expression has a type with values wherever such a type is expected of it. -/
def EmitsValues (emit : Emit) : Prop :=
  ∀ ⦃hint : Option Ty⦄, (∀ ty ∈ hint, ty.Valued) → (emit hint).GivesValues

variable {c c' : Counters} {l : Lowered}

theorem EmitsValues.some {emit : Emit} {ty : Ty} (h : EmitsValues emit) (hty : ty.Valued) :
    (emit (some ty)).GivesValues :=
  h fun _ hmem ↦ Option.some.inj hmem ▸ hty

theorem valued_intoTemp {id : Nat} {ty : Ty} {code : Code} {value : Rvalue} (hty : ty.Valued)
    (hcode : code.Valued) (hvalue : ∀ o ∈ value.operands, o.ty.Valued) :
    Lowered.Valued ⟨.temp id ty, code ++ [.assign (.temp id ty) ty value]⟩ := by
  refine ⟨hty, ?_⟩
  simpa [hcode, Place.operands, Place.ty, hty] using hvalue

theorem givesValues_not {operand : Emit} (h : EmitsValues operand) :
    (Lower.not operand).GivesValues := by
  intro c l c' hy
  obtain ⟨inner, c₁, hinner, rfl, -⟩ := yields_not hy
  obtain ⟨hoperand, hcode⟩ := h.some Ty.valued_boolean hinner
  exact valued_intoTemp Ty.valued_boolean hcode (by simpa [Rvalue.operands])

section Binary

variable {op : BinOp} {lhs rhs : Emit} (hl : EmitsValues lhs) (hr : EmitsValues rhs)
include hl hr

theorem valued_compare {cond : Cond} {code : Code}
    (hy : (compare op lhs rhs).Yields c (cond, code) c') :
    (∀ o ∈ cond.operands, o.ty.Valued) ∧ code.Valued := by
  obtain ⟨left, c₁, right, hleft, hright, rfl, rfl⟩ := yields_compare hy
  obtain ⟨hlo, hlc⟩ := hl.some Ty.valued_int hleft
  obtain ⟨hro, hrc⟩ := hr.some Ty.valued_int hright
  simp [Cond.operands, hlo, hlc, hro, hrc]

theorem givesValues_binary : (binary op lhs rhs).GivesValues := by
  intro c l c' hy
  cases op with
  | and =>
    obtain ⟨left, c₁, right, hleft, hright, rfl⟩ := yields_and hy
    obtain ⟨hlo, hlc⟩ := hl.some Ty.valued_boolean hleft
    obtain ⟨hro, hrc⟩ := hr.some Ty.valued_boolean hright
    exact ⟨Ty.valued_boolean, by simp [hlo, hlc, hro, hrc, Cond.operands]⟩
  | or =>
    obtain ⟨left, c₁, right, hleft, hright, rfl⟩ := yields_or hy
    obtain ⟨hlo, hlc⟩ := hl.some Ty.valued_boolean hleft
    obtain ⟨hro, hrc⟩ := hr.some Ty.valued_boolean hright
    exact ⟨Ty.valued_boolean, by simp [hlo, hlc, hro, hrc, Cond.operands]⟩
  | lt | gt =>
    obtain ⟨cond, code, c₁, hcompare, rfl, -⟩ := yields_comparison hy
    obtain ⟨hcond, hcode⟩ := valued_compare hl hr hcompare
    exact ⟨Ty.valued_boolean, by simpa [hcode] using hcond⟩
  | add | sub | mul | div | rem =>
    obtain ⟨left, c₁, right, c₂, hleft, hright, rfl, -⟩ := yields_arithmetic hy
    obtain ⟨hlo, hlc⟩ := hl.some Ty.valued_int hleft
    obtain ⟨hro, hrc⟩ := hr.some Ty.valued_int hright
    exact valued_intoTemp Ty.valued_int (Code.valued_append.mpr ⟨hlc, hrc⟩)
      (by simp [Rvalue.operands, hlo, hro])

end Binary

theorem givesValues_index {array idx : Emit} (ha : EmitsValues array) (hi : EmitsValues idx) :
    (index array idx).GivesValues := by
  intro c l c' hy
  obtain ⟨base, c₁, i, c₂, hbase, hidx, rfl, -⟩ := yields_index hy
  obtain ⟨hbo, hbc⟩ := ha.some Ty.valued_intArray hbase
  obtain ⟨hio, hic⟩ := hi.some Ty.valued_int hidx
  exact valued_intoTemp (Ty.valued_element.mpr hbo) (Code.valued_append.mpr ⟨hbc, hic⟩)
    (by simp [Rvalue.operands, hbo, hio])

theorem givesValues_length {array : Emit} (h : EmitsValues array) :
    (length array).GivesValues := by
  intro c l c' hy
  obtain ⟨base, c₁, hbase, rfl, -⟩ := yields_length hy
  obtain ⟨hbo, hbc⟩ := h.some Ty.valued_intArray hbase
  exact valued_intoTemp Ty.valued_int hbc (by simp [Rvalue.operands, Call.operands, hbo])

theorem givesValues_newArray {elem : Ty} {size : Emit} (helem : elem.Valued)
    (h : EmitsValues size) : (newArray elem size).GivesValues := by
  intro c l c' hy
  obtain ⟨n, c₁, hn, rfl, -⟩ := yields_newArray hy
  obtain ⟨hno, hnc⟩ := h.some Ty.valued_int hn
  exact valued_intoTemp (Ty.valued_arrayOf.mpr helem) hnc (by simp [Rvalue.operands, hno])

theorem givesValues_construct {className : String} (h : className ≠ "void") :
    (construct className).GivesValues := by
  intro c l c' hy
  obtain ⟨rfl, -⟩ := yields_construct hy
  have hty : (Ty.named className).Valued := h
  refine ⟨hty, ?_⟩
  simp [Place.operands, Place.ty, Rvalue.operands, Call.operands, Operand.ofClass, Operand.ty, hty]

/-! ### Lists -/

theorem YieldsEach.forall_valued {steps : List (Lower Lowered)} {ls : List Lowered}
    (h : YieldsEach steps c ls c') (hsteps : ∀ step ∈ steps, step.GivesValues) :
    ∀ l ∈ ls, l.Valued := by
  induction h with
  | nil => exact fun l hl ↦ absurd hl List.not_mem_nil
  | cons hstep _ ih =>
    obtain ⟨hhead, htail⟩ := List.forall_mem_cons.mp hsteps
    exact List.forall_mem_cons.mpr ⟨hhead hstep, ih htail⟩

theorem valued_inOrder {steps : List (Lower Lowered)} {operands : List Operand} {code : Code}
    (hsteps : ∀ step ∈ steps, step.GivesValues)
    (hy : (inOrder steps).Yields c (operands, code) c') :
    (∀ o ∈ operands, o.ty.Valued) ∧ code.Valued := by
  obtain ⟨ls, hls, rfl, rfl⟩ := yields_inOrder.mp hy
  have hvalued := hls.forall_valued hsteps
  exact ⟨List.forall_mem_map.mpr fun l hl ↦ (hvalued l hl).1,
    List.forall_mem_flatMap.mpr fun l hl ↦ (hvalued l hl).2⟩

theorem valued_storing {array : Operand} {elem : Ty} {i : Nat} {ls : List Lowered}
    (harray : array.ty.Valued) (helem : elem.Valued) (hls : ∀ l ∈ ls, l.Valued) :
    (storing array elem i ls).Valued := by
  refine List.forall_mem_flatMap.mpr fun ⟨value, k⟩ hmem ↦ ?_
  obtain ⟨hoperand, hcode⟩ := hls value (List.fst_mem_of_mem_zipIdx hmem)
  have hstore : Code.Valued
      [.assign (.element array (.int (Int32.ofNat k)) elem) elem (.use value.operand)] := by
    simp [Place.operands, Place.ty, Rvalue.operands, harray, helem, hoperand]
  exact Code.valued_append.mpr ⟨hcode, hstore⟩

theorem givesValues_packArray {elem : Ty} {elements : List Emit} (helem : elem.Valued)
    (h : ∀ emit ∈ elements, EmitsValues emit) : (packArray elem elements).GivesValues := by
  intro c l c' hy
  obtain ⟨-, stores, hstores, rfl⟩ := yields_packArray hy
  obtain ⟨ls, hls, rfl⟩ := yields_storeElements hstores
  have harray : elem.arrayOf.Valued := Ty.valued_arrayOf.mpr helem
  have hvalued : ∀ l ∈ ls, l.Valued := hls.forall_valued (List.forall_mem_map.mpr
    fun emit hemit ↦ (h emit hemit).some helem)
  refine ⟨harray, Code.valued_cons.mpr ⟨?_, valued_storing harray helem hvalued⟩⟩
  simp [Place.operands, Place.ty, Rvalue.operands, harray]

theorem givesValues_of_mem_eachFor {params : List Symbol} {args : List Emit}
    (hparams : ∀ param ∈ params, param.ty.Valued) (h : ∀ emit ∈ args, EmitsValues emit) :
    ∀ step ∈ eachFor params args, step.GivesValues := by
  intro step hstep
  obtain ⟨⟨emit, i⟩, hmem, rfl⟩ := List.mem_map.mp hstep
  refine h emit (List.fst_mem_of_mem_zipIdx hmem) fun ty hty ↦ ?_
  obtain ⟨param, hparam, rfl⟩ := Option.map_eq_some_iff.mp hty
  exact hparams param (List.mem_of_getElem? hparam)

theorem valued_ownArguments {sig : Signature} {args : List Emit} {operands : List Operand}
    {code : Code} (hparams : ∀ param ∈ sig.params, param.ty.Valued)
    (h : ∀ emit ∈ args, EmitsValues emit)
    (hy : (ownArguments sig args).Yields c (operands, code) c') :
    (∀ o ∈ operands, o.ty.Valued) ∧ code.Valued := by
  obtain ⟨n, fixed, fixedCode, c₁, hfixed, hrest⟩ := exists_yields_ownArguments hy
  have hsteps := valued_inOrder (givesValues_of_mem_eachFor hparams fun emit hemit ↦
    h emit (List.mem_of_mem_take hemit)) hfixed
  rcases hrest with ⟨rfl, rfl, -⟩ | ⟨elem, packed, helem, hpacked, rfl, rfl⟩
  · exact hsteps
  · obtain ⟨hoperand, hcode⟩ := givesValues_packArray (sig.valued_varargsElement hparams helem)
      (fun emit hemit ↦ h emit (List.mem_of_mem_drop hemit)) hpacked
    exact ⟨List.forall_mem_append.mpr ⟨hsteps.1, List.forall_mem_singleton.mpr hoperand⟩,
      Code.valued_append.mpr ⟨hsteps.2, hcode⟩⟩

end Lower

/-! ## Scopes -/

namespace Scope

variable {s : Scope} {c c' : Counters} {l : Lowered}

/-- In the scope, nothing but the result of a method is void. -/
structure VoidFree (s : Scope) : Prop where
  className : s.table.className ≠ "void"
  imported : s.table.isImported "void" = false
  stored : ∀ ⦃name storage symbol⦄, s.lookup name = .stored storage symbol → symbol.ty.Valued
  params : ∀ {method sig}, s.table.method? method = some sig → ∀ param ∈ sig.params,
    param.ty.Valued
  results : ∀ {method sig}, s.table.method? method = some sig →
    sig.returnType ≠ Ty.void.arrayOf
  ownResult : s.method.returnType ≠ Ty.void.arrayOf

/-- Checking or lowering takes the expression for a call to a method of the unit that has no
result. -/
def IsVoidCall (s : Scope) (e : Expr) : Prop :=
  ∃ t pos args sig, e = CallTarget.call t pos args ∧
    (s.checkedCallee? t = some sig ∨ s.loweredCallee? t = some sig) ∧ sig.returnType = .void

/-- A method of the unit decides the type of the result, and the expected type that of any
other. -/
theorem ret_of_lowerCall {t : CallTarget} {pos : Position} {args : List Expr} {ret : Ty}
    {call : Call} {code : Code}
    (h : (s.lowerCall (s.dispatchTo pos t) t.method args (s.lowerEach args) ret).Yields c
      (call, code) c') :
    call.ret = ((s.loweredCallee? t).map Signature.returnType).getD ret := by
  obtain ⟨d, c₁, operands, argCode, hd, -, rfl, -⟩ := yields_lowerCall h
  rw [← callee_dispatchTo hd]

/-- No part of the expression is a call without a result, and no class in it is named so. -/
structure HasValue (s : Scope) (e : Expr) : Prop where
  typeNames : "void" ∉ e.typeNames
  calls : ∀ part, e.Part part → ¬s.IsVoidCall part

theorem HasValue.child {e child : Expr} (h : s.HasValue e) (hchild : child ∈ e.children) :
    s.HasValue child :=
  ⟨Expr.not_mem_typeNames_child h.typeNames child hchild,
    fun part hpart ↦ h.calls part (Expr.Part.trans (.child .self hchild) hpart)⟩

section

variable (hs : s.VoidFree)
include hs

theorem valued_imported {name : String} (h : s.lookup name = .imported) :
    (Ty.named name).Valued := by
  rintro rfl
  have himported := (lookup_imported h).2.2
  rw [hs.imported] at himported
  cases himported

theorem valued_variableTy (name : String) : (s.variableTy name).Valued := by
  unfold variableTy
  split
  · rename_i symbol hlookup
    split
    · exact Ty.valued_any
    · exact hs.stored hlookup
  · exact hs.stored ‹_›
  · exact valued_imported hs ‹_›
  · exact Ty.valued_any

/-- The result of a method that a call is taken for, if the call is not one without a result. -/
theorem valued_returnType {t : CallTarget} {pos : Position} {args : List Expr} {sig : Signature}
    (h : ¬s.IsVoidCall (t.call pos args)) (hfind : s.table.method? t.method = some sig)
    (hsig : s.checkedCallee? t = some sig ∨ s.loweredCallee? t = some sig) :
    sig.returnType.Valued := by
  refine Ty.valued_iff.mpr ⟨fun hvoid ↦ ?_, hs.results hfind⟩
  exact h ⟨t, pos, args, sig, rfl, hsig, hvoid⟩

theorem valued_ownCallTy {t : CallTarget} {pos : Position} {args : List Expr}
    (h : ¬s.IsVoidCall (t.call pos args))
    (hsig : ∀ sig, s.table.method? t.method = some sig → s.checkedCallee? t = some sig) :
    (s.ownCallTy t.method).Valued := by
  unfold ownCallTy Table.returnType?
  cases hfind : s.table.method? t.method with
  | none => exact Ty.valued_any
  | some sig => exact valued_returnType hs h hfind (.inl (hsig sig hfind))

/-- The type that checking gives an expression with a value. -/
theorem valued_typeOf {e : Expr} : s.HasValue e → (s.typeOf e).Valued := by
  induction e using Expr.memberInduct with
  | lit pos value => exact fun _ ↦ value.valued_ty
  | this pos =>
    intro _
    show s.thisTy.Valued
    unfold thisTy
    split
    · exact Ty.valued_any
    · exact hs.className
  | var pos name => exact fun _ ↦ valued_variableTy hs name
  | not pos operand => exact fun _ ↦ Ty.valued_boolean
  | binary pos op lhs rhs =>
    intro _
    rw [typeOf]
    split
    · exact op.valued_resultTy
    · exact Ty.valued_any
  | index pos base idx ihBase =>
    intro h
    exact Ty.valued_indexed (ihBase (h.child List.mem_cons_self))
  | array pos elements ih =>
    intro h
    rw [typeOf, typesOf_eq_map]
    exact Ty.valued_ofElements (List.forall_mem_map.mpr fun e he ↦ ih e he (h.child he))
  | newArray pos elem size =>
    intro h
    exact fun heq ↦ h.typeNames (heq ▸ List.mem_cons_self)
  | newObject pos className =>
    intro h
    exact fun heq ↦ h.typeNames (heq ▸ List.mem_cons_self)
  | length pos base => exact fun _ ↦ Ty.valued_int
  | call pos method args =>
    intro h
    exact valued_ownCallTy hs (t := ⟨none, method⟩) (h.calls _ .self) fun sig hsig ↦ hsig
  | callOn pos receiver method args =>
    intro h
    rw [typeOf]
    split
    · rename_i hown
      refine valued_ownCallTy hs (t := ⟨some receiver, method⟩) (h.calls _ .self) fun sig hsig ↦ ?_
      show s.callee? receiver method = some sig
      rw [callee?, if_pos hown, hsig]
    · exact Ty.valued_any

/-! ### Expressions -/

theorem givesValues_lowerVar (pos : Position) (name : String) :
    (s.lowerVar pos name).GivesValues := by
  intro c l c' hy
  rcases yields_lowerVar hy with ⟨symbol, hlookup, rfl, -⟩ | ⟨storage, symbol, hlookup, -, rfl, -⟩ |
    ⟨hlookup, rfl, -⟩
  · exact Lower.valued_intoTemp (hs.stored hlookup) Code.valued_nil (by simp [Rvalue.operands])
  · exact ⟨hs.stored hlookup, Code.valued_nil⟩
  · exact ⟨valued_imported hs hlookup, Code.valued_nil⟩

theorem valued_ownDispatch (method : String) :
    (s.ownDispatch method).receiver.ty.Valued ∧ (s.ownDispatch method).code.Valued := by
  unfold ownDispatch
  split <;> split <;> exact ⟨hs.className, Code.valued_nil⟩

omit hs in
theorem valued_receiverHint (receiver : Expr) : (s.receiverHint receiver).Valued := by
  unfold receiverHint
  dsimp only
  split
  · exact Ty.valued_of_isClass ‹_›
  · decide

theorem valued_argumentHint {arg : Expr} (h : s.HasValue arg) :
    ∀ ty ∈ s.argumentHint arg, ty.Valued := by
  unfold argumentHint
  dsimp only
  split
  · exact fun ty hty ↦ absurd hty (Option.not_mem_none ty)
  · exact fun ty hty ↦ Option.some.inj hty ▸ valued_typeOf hs h

theorem valued_literalElement {elements : List Expr} (h : ∀ e ∈ elements, s.HasValue e) :
    (s.literalElement elements).Valued := by
  unfold literalElement
  dsimp only
  split
  · rw [Ty.valued_element, typesOf_eq_map]
    exact Ty.valued_ofElements (List.forall_mem_map.mpr fun e he ↦ valued_typeOf hs (h e he))
  · exact Ty.valued_int

theorem valued_dispatchTo {t : CallTarget} {pos : Position} {d : Dispatch}
    (hreceiver : ∀ receiver ∈ t.receiver, Lower.EmitsValues (s.lowerExpr receiver))
    (h : (s.dispatchTo pos t).Yields c d c') : d.receiver.ty.Valued ∧ d.code.Valued := by
  obtain ⟨receiver, method⟩ := t
  cases receiver with
  | none =>
    obtain ⟨rfl, -⟩ := Lower.yields_pure.mp h
    exact valued_ownDispatch hs method
  | some receiver =>
    have hd : (s.dispatch pos receiver (s.lowerExpr receiver) method).Yields c d c' := h
    rcases s.receiver_cases receiver with ⟨p, rfl⟩ | ⟨p, name, rfl, hlookup⟩ | hobject
    · obtain ⟨rfl, -⟩ := Lower.yields_pure.mp hd
      exact valued_ownDispatch hs method
    · rw [dispatch, if_pos hlookup] at hd
      obtain ⟨rfl, -⟩ := Lower.yields_pure.mp hd
      exact ⟨valued_imported hs hlookup, Code.valued_nil⟩
    · rw [dispatch_eq_objectDispatch hobject] at hd
      obtain ⟨object, hemit, -, rfl⟩ := yields_objectDispatch hd
      exact (hreceiver receiver rfl).some (valued_receiverHint receiver) hemit

section Calls

variable {t : CallTarget} {pos : Position} {args : List Expr}
  (hvalues : ∀ child ∈ (t.call pos args).children, s.HasValue child)
  (hemits : ∀ child ∈ (t.call pos args).children, Lower.EmitsValues (s.lowerExpr child))
include hvalues hemits

theorem valued_lowerCall {pos' : Position} {ret : Ty} {call : Call} {code : Code}
    (h : (s.lowerCall (s.dispatchTo pos' t) t.method args (s.lowerEach args) ret).Yields c
      (call, code) c') :
    (∀ o ∈ call.operands, o.ty.Valued) ∧ code.Valued := by
  obtain ⟨d, c₁, operands, argCode, hd, hargs, rfl, rfl⟩ := yields_lowerCall h
  have hreceiver := valued_dispatchTo hs
    (fun receiver hr ↦ hemits receiver (CallTarget.mem_children_call.mpr (.inl hr))) hd
  have hmem : ∀ arg ∈ args, arg ∈ (t.call pos args).children :=
    fun arg harg ↦ CallTarget.mem_children_call.mpr (.inr harg)
  -- A method of the unit asks for the types of its parameters. For any other, an argument is
  -- lowered for the type that checking gives it.
  have hvalued : (∀ o ∈ operands, o.ty.Valued) ∧ argCode.Valued := by
    cases hcallee : d.callee with
    | some sig =>
      rw [hcallee, lowerEach_eq_map] at hargs
      rw [callee_dispatchTo hd] at hcallee
      exact Lower.valued_ownArguments (hs.params (method?_of_loweredCallee? hcallee))
        (List.forall_mem_map.mpr fun arg harg ↦ hemits arg (hmem arg harg)) hargs
    | none =>
      rw [hcallee] at hargs
      refine Lower.valued_inOrder ?_ hargs
      rw [zipWith_lowerEach]
      exact List.forall_mem_map.mpr fun arg harg ↦
        hemits arg (hmem arg harg) (valued_argumentHint hs (hvalues arg (hmem arg harg)))
  exact ⟨List.forall_mem_cons.mpr ⟨hreceiver.1, hvalued.1⟩,
    Code.valued_append.mpr ⟨hreceiver.2, hvalued.2⟩⟩

theorem emitsValues_call (hcall : ¬s.IsVoidCall (t.call pos args)) :
    Lower.EmitsValues (s.lowerExpr (t.call pos args)) := by
  intro hint hhint c l c' hy
  rw [(s.lowersBy_dispatchTo t).1] at hy
  obtain ⟨call, code, c₁, hmade, rfl, -⟩ := yields_lowerCallValue hy
  obtain ⟨hoperands, hcode⟩ := valued_lowerCall hs hvalues hemits hmade
  refine Lower.valued_intoTemp ?_ hcode hoperands
  -- The temporary has the result type of the method, or the expected one if none is known.
  rw [ret_of_lowerCall hmade]
  cases hsig : s.loweredCallee? t with
  | none =>
    cases hint with
    | none => exact Ty.valued_int
    | some ty => exact hhint ty rfl
  | some sig => exact valued_returnType hs hcall (method?_of_loweredCallee? hsig) (.inr hsig)

end Calls

/-- An expression with a value has code and an operand of that kind. -/
theorem emitsValues_lowerExpr {e : Expr} : s.HasValue e → Lower.EmitsValues (s.lowerExpr e) := by
  induction e using Expr.memberInduct with
  | lit pos value =>
    intro _ hint _ c l c' hy
    obtain ⟨rfl, -⟩ := Lower.yields_pure.mp hy
    exact ⟨value.valued_ty, Code.valued_nil⟩
  | this pos =>
    intro _ hint _ c l c' hy
    obtain ⟨rfl, -⟩ := Lower.yields_pure.mp hy
    exact ⟨hs.className, Code.valued_nil⟩
  | var pos name => exact fun _ _ _ ↦ givesValues_lowerVar hs pos name
  | not pos operand ih =>
    intro h hint _
    exact Lower.givesValues_not (ih (h.child List.mem_cons_self))
  | binary pos op lhs rhs ihl ihr =>
    intro h hint _
    exact Lower.givesValues_binary (ihl (h.child List.mem_cons_self))
      (ihr (h.child (List.mem_cons_of_mem _ List.mem_cons_self)))
  | index pos base idx ihb ihi =>
    intro h hint _
    exact Lower.givesValues_index (ihb (h.child List.mem_cons_self))
      (ihi (h.child (List.mem_cons_of_mem _ List.mem_cons_self)))
  | array pos elements ih =>
    intro h hint _
    have helem : (s.literalElement elements).Valued :=
      valued_literalElement hs fun e he ↦ h.child he
    refine Lower.givesValues_packArray helem ?_
    rw [lowerEach_eq_map]
    exact List.forall_mem_map.mpr fun e he ↦ ih e he (h.child he)
  | newArray pos elem size ih =>
    intro h hint _
    have helem : elem.resolve.Valued := fun heq ↦ h.typeNames (heq ▸ List.mem_cons_self)
    exact Lower.givesValues_newArray helem (ih (h.child List.mem_cons_self))
  | newObject pos className =>
    intro h hint _
    exact Lower.givesValues_construct fun heq ↦ h.typeNames (heq ▸ List.mem_cons_self)
  | length pos base ih =>
    intro h hint _
    exact Lower.givesValues_length (ih (h.child List.mem_cons_self))
  | call pos method args ih =>
    intro h
    exact emitsValues_call hs (t := ⟨none, method⟩) (fun child hchild ↦ h.child hchild)
      (fun child hchild ↦ ih child hchild (h.child hchild)) (h.calls _ .self)
  | callOn pos receiver method args ihr iha =>
    intro h
    refine emitsValues_call hs (t := ⟨some receiver, method⟩) (fun child hchild ↦ h.child hchild)
      (List.forall_mem_cons.mpr ⟨ihr (h.child List.mem_cons_self), fun child hchild ↦ ?_⟩)
      (h.calls _ .self)
    exact iha child hchild (h.child (List.mem_cons_of_mem _ hchild))

/-! ### Statements -/

theorem valued_lowerCond {cond : Expr} (h : s.HasValue cond) {jump : Cond} {code : Code}
    (hy : (s.lowerCond cond).Yields c (jump, code) c') :
    (∀ o ∈ jump.operands, o.ty.Valued) ∧ code.Valued := by
  rcases s.lowerCond_cases cond with ⟨pos, op, lhs, rhs, rfl, -, heq⟩ | heq
  · rw [heq] at hy
    exact Lower.valued_compare (emitsValues_lowerExpr hs (h.child List.mem_cons_self))
      (emitsValues_lowerExpr hs (h.child (List.mem_cons_of_mem _ List.mem_cons_self))) hy
  · rw [heq] at hy
    obtain ⟨value, hvalue, rfl, rfl⟩ := yields_lowerTruthy hy
    obtain ⟨hoperand, hcode⟩ := (emitsValues_lowerExpr hs h).some Ty.valued_boolean hvalue
    exact ⟨List.forall_mem_singleton.mpr hoperand, hcode⟩

/-- Of a call that makes up a whole statement only the parts need a value. -/
theorem valued_lowerEval {pos : Position} {expr : Expr} (hnames : "void" ∉ expr.typeNames)
    (hcalls : ∀ part : Expr, part.UsedAt (expr, expr.isCall) → ¬s.IsVoidCall part) {code : Code}
    (hy : (s.lowerEval pos expr).Yields c code c') : code.Valued := by
  cases hcall : expr.isCall with
  | false =>
    rw [hcall] at hcalls
    obtain ⟨value, hvalue, rfl⟩ := yields_lowerEval_of_not_call hcall hy
    exact (emitsValues_lowerExpr hs ⟨hnames, hcalls⟩
      (fun ty hty ↦ absurd hty (Option.not_mem_none ty)) hvalue).2
  | true =>
    rw [hcall] at hcalls
    obtain ⟨t, pos', args, rfl⟩ := CallTarget.exists_of_isCall hcall
    obtain ⟨call, before, hmade, rfl⟩ := yields_lowerEval_call hy
    have hchild : ∀ child ∈ (t.call pos' args).children, s.HasValue child := fun child hchild ↦
      ⟨Expr.not_mem_typeNames_child hnames child hchild,
        fun part hpart ↦ hcalls part ⟨child, hchild, hpart⟩⟩
    obtain ⟨hoperands, hbefore⟩ := valued_lowerCall hs hchild
      (fun child hmem ↦ emitsValues_lowerExpr hs (hchild child hmem)) hmade
    -- The result is dropped, so its type is not that of an operand.
    simpa [hbefore] using hoperands

omit hs in
theorem valued_lowerStmts {stmts : List Stmt}
    (h : ∀ stmt ∈ stmts, ∀ {c c' : Counters} {code : Code}, (s.lowerStmt stmt).Yields c code c' →
      code.Valued) :
    ∀ {c c' : Counters} {code : Code}, (s.lowerStmts stmts).Yields c code c' → code.Valued := by
  induction stmts with
  | nil =>
    intro c c' code hy
    obtain ⟨rfl, -⟩ := Lower.yields_pure.mp hy
    exact Code.valued_nil
  | cons stmt stmts ih =>
    intro c c' code hy
    obtain ⟨first, c₁, rest, hfirst, hrest, rfl⟩ := yields_lowerStmts_cons hy
    obtain ⟨hstmt, hstmts⟩ := List.forall_mem_cons.mp h
    exact Code.valued_append.mpr ⟨hstmt hfirst, ih hstmts hrest⟩

/-- Where no call without a result is used, the code of a statement moves only values. Checking is
asked about returns alone: a method without a result must not return one. -/
theorem valued_lowerStmt {stmt : Stmt} : s.AcceptsStmt stmt → "void" ∉ stmt.typeNames →
    (∀ place ∈ stmt.places, ∀ part : Expr, part.UsedAt place → ¬s.IsVoidCall part) →
    ∀ {c c' : Counters} {code : Code}, (s.lowerStmt stmt).Yields c code c' → code.Valued := by
  induction stmt using Stmt.memberInduct with
  | block pos stmts ih =>
    intro haccepts hnames hplaces
    rw [Stmt.places, Stmt.placesAll_eq_flatMap, List.forall_mem_flatMap] at hplaces
    exact valued_lowerStmts fun stmt hstmt ↦ ih stmt hstmt
      (acceptsStmt_block.mp haccepts stmt hstmt) (Stmt.not_mem_typeNamesAll.mp hnames stmt hstmt)
      (hplaces stmt hstmt)
  | ifElse pos cond thenBranch elseBranch iht ihe =>
    intro haccepts hnames hplaces c c' code hy
    obtain ⟨-, -, hthenAccepts, helseAccepts⟩ := acceptsStmt_ifElse.mp haccepts
    simp only [Stmt.typeNames, List.mem_append, not_or] at hnames
    obtain ⟨hcond, hbranches⟩ := List.forall_mem_cons.mp hplaces
    obtain ⟨hthenPlaces, helsePlaces⟩ := List.forall_mem_append.mp hbranches
    obtain ⟨jump, condCode, c₁, elseCode, c₂, thenCode, hjump, helse, hthen, rfl⟩ :=
      yields_lowerIf hy
    obtain ⟨hoperands, hcode⟩ := valued_lowerCond hs ⟨hnames.1.1, hcond⟩ hjump
    have hthenCode := iht hthenAccepts hnames.1.2 hthenPlaces hthen
    have helseCode := ihe helseAccepts hnames.2 helsePlaces helse
    simpa [hcode, hthenCode, helseCode] using hoperands
  | whileLoop pos cond body ih =>
    intro haccepts hnames hplaces c c' code hy
    obtain ⟨-, -, hbodyAccepts⟩ := acceptsStmt_whileLoop.mp haccepts
    simp only [Stmt.typeNames, List.mem_append, not_or] at hnames
    obtain ⟨hcond, hbodyPlaces⟩ := List.forall_mem_cons.mp hplaces
    obtain ⟨jump, condCode, c₁, bodyCode, hjump, hbody, rfl⟩ := yields_lowerWhile hy
    obtain ⟨hoperands, hcode⟩ := valued_lowerCond hs ⟨hnames.1, hcond⟩ hjump
    have hbodyCode := ih hbodyAccepts hnames.2 hbodyPlaces hbody
    simpa [hcode, hbodyCode] using hoperands
  | eval pos expr =>
    intro _ hnames hplaces c c' code hy
    exact valued_lowerEval hs hnames (List.forall_mem_singleton.mp hplaces) hy
  | assign pos target value =>
    intro _ hnames hplaces c c' code hy
    have hvalue : s.HasValue value := ⟨hnames, List.forall_mem_singleton.mp hplaces⟩
    obtain ⟨storage, symbol, v, hlookup, hv, rfl⟩ := yields_lowerAssign hy
    have hty := hs.stored hlookup
    obtain ⟨hoperand, hcode⟩ := (emitsValues_lowerExpr hs hvalue).some hty hv
    refine Code.valued_append.mpr ⟨hcode, ?_⟩
    split <;> simp [Place.operands, Place.ty, Rvalue.operands, hty, hoperand]
  | store pos target index value =>
    intro _ hnames hplaces c c' code hy
    rw [Stmt.typeNames, List.mem_append, not_or] at hnames
    obtain ⟨hindex, hrest⟩ := List.forall_mem_cons.mp hplaces
    obtain ⟨array, c₁, i, c₂, v, harray, -, hi, hv, rfl⟩ := yields_lowerStore hy
    obtain ⟨hao, hac⟩ := givesValues_lowerVar hs _ _ harray
    obtain ⟨hio, hic⟩ := (emitsValues_lowerExpr hs ⟨hnames.1, hindex⟩).some Ty.valued_int hi
    obtain ⟨hvo, hvc⟩ := (emitsValues_lowerExpr hs
      ⟨hnames.2, List.forall_mem_singleton.mp hrest⟩).some (Ty.valued_element.mpr hao) hv
    simp [Place.operands, Place.ty, Rvalue.operands, hao, hac, hio, hic, hvo, hvc]
  | ret pos value =>
    intro haccepts hnames hplaces c c' code hy
    cases value with
    | none =>
      obtain ⟨rfl, -⟩ := Lower.yields_pure.mp hy
      simp
    | some value =>
      have hresult : s.method.returnType.Valued := by
        refine Ty.valued_iff.mpr ⟨fun hvoid ↦ ?_, hs.ownResult⟩
        have hreturns := (acceptsStmt_ret_some.mp haccepts).2.1
        rw [hvoid] at hreturns
        cases hreturns
      obtain ⟨v, hv, rfl⟩ := yields_lowerReturn_some hy
      obtain ⟨hoperand, hcode⟩ := (emitsValues_lowerExpr hs
        ⟨hnames, List.forall_mem_singleton.mp hplaces⟩).some hresult hv
      simp [hcode, hoperand]

end

/-- The result of a call without one is stored, if it is used. -/
theorem not_valued_of_occursIn {t : CallTarget} {pos : Position} {args : List Expr}
    {sig : Signature} {code : Code} (hsig : s.loweredCallee? t = some sig)
    (hvoid : sig.returnType = .void) (h : (s.lowerExpr (t.call pos args)).OccursIn code) :
    ¬code.Valued := by
  obtain ⟨ret, c, call, before, c', hcall, id, hpiece⟩ := exists_assign_of_occursIn h
  have hret : call.ret = .void := by
    rw [ret_of_lowerCall hcall, hsig]
    exact hvoid
  intro hvalued
  have hassign := hvalued _ (hpiece.subset (List.mem_append_right _ List.mem_cons_self))
  rw [Instruction.valued_assign, hret] at hassign
  exact hassign.2.2 rfl

end Scope

/-! ## Units -/

/-- The value of the expression is used somewhere in the method. -/
def MethodDecl.UsesValue (m : MethodDecl) (e : Expr) : Prop :=
  ∃ place ∈ Stmt.placesAll m.body, e.UsedAt place

namespace Program

/-- Nothing is declared void but results of methods, and no class is called so: not that of the
unit, none that it imports and none that it makes objects of. -/
structure VoidOnlyReturned (p : Program) : Prop where
  className : p.decl.name ≠ "void"
  importNames : "void" ∉ p.table.importNames
  declared : ∀ d ∈ p.varDecls, d.typeName ≠ "void"
  results : ∀ m ∈ p.decl.methods, m.returnType.resolve ≠ Ty.void.arrayOf
  bodies : ∀ m ∈ p.decl.methods, "void" ∉ Stmt.typeNamesAll m.body

instance (p : Program) : Decidable p.VoidOnlyReturned :=
  decidable_of_iff (p.decl.name ≠ "void" ∧ "void" ∉ p.table.importNames ∧
      (∀ d ∈ p.varDecls, d.typeName ≠ "void") ∧
      (∀ m ∈ p.decl.methods, m.returnType.resolve ≠ Ty.void.arrayOf) ∧
      ∀ m ∈ p.decl.methods, "void" ∉ Stmt.typeNamesAll m.body)
    ⟨fun ⟨hname, himports, hvars, hresults, hbodies⟩ ↦ ⟨hname, himports, hvars, hresults, hbodies⟩,
      fun h ↦ ⟨h.className, h.importNames, h.declared, h.results, h.bodies⟩⟩

variable {p : Program} {code : ClassCode} {i : Nat} {mc : MethodCode} {m : MethodDecl}

theorem VoidOnlyReturned.voidFree (h : p.VoidOnlyReturned) (hm : m ∈ p.decl.methods) :
    Scope.VoidFree ⟨p.table, m.signature⟩ where
  className := h.className
  imported := by simpa [Table.isImported] using h.importNames
  stored := by
    intro name storage symbol hlookup
    obtain ⟨d, hd, -, hty⟩ := exists_varDecl hm hlookup
    exact fun hvoid ↦ h.declared d hd (hty.trans hvoid)
  params := by
    intro method sig hfind param hparam
    obtain ⟨m', hm', rfl⟩ := List.mem_map.mp (List.mem_of_find?_eq_some hfind)
    obtain ⟨d, hd, -, hty⟩ := MethodDecl.exists_variable (List.mem_append_left _ hparam)
    have hdecl : d ∈ p.varDecls :=
      List.mem_append_right _ (List.mem_flatMap.mpr ⟨m', hm', hd⟩)
    exact fun hvoid ↦ h.declared d hdecl (hty.symm.trans hvoid)
  results := by
    intro method sig hfind
    obtain ⟨m', hm', rfl⟩ := List.mem_map.mp (List.mem_of_find?_eq_some hfind)
    exact h.results m' hm'
  ownResult := h.results m hm

/-- A unit that runs the statements, in a method without a result. It has another one of that
kind, and one that counts. -/
def errand (name : String) (imports : List String) (body : List Stmt) : Program where
  imports := imports.map fun segment ↦ ⟨[segment], .origin⟩
  decl := {
    name := name
    superclass := none
    fields := []
    methods := [
      { name := "rest"
        isPublic := true
        isStatic := false
        returnType := .void
        params := []
        varargs := none
        locals := []
        body := []
        pos := .origin },
      { name := "count"
        isPublic := true
        isStatic := false
        returnType := .int
        params := []
        varargs := none
        locals := []
        body := [.ret .origin (some (.lit .origin (.int 1)))]
        pos := .origin },
      { name := "run"
        isPublic := true
        isStatic := false
        returnType := .void
        params := []
        varargs := none
        locals := []
        body := body
        pos := .origin }]
    pos := .origin }

/-- Hand a value over to an imported class. -/
def printing (arg : Expr) : Stmt :=
  .eval .origin (.callOn .origin (.var .origin "io") "print" [arg])

/-- A method that rests as a whole statement, and prints a count. -/
def restful : Program :=
  errand "Errand" ["io"] [.eval .origin (.call .origin "rest" []),
    printing (.call .origin "count" [])]

/-- Checking has nothing against the unit, and yet its code moves something void. -/
def MovesVoid (p : Program) : Prop :=
  p.Accepted ∧ ∃ code mc, p.lower p.table .default = .ok code ∧ mc ∈ code.methods ∧
    ¬mc.body.Valued

theorem movesVoid_of_lower (haccepted : p.Accepted) (hlower : p.lower p.table .default = .ok code)
    (hmc : code.methods[i]? = some mc) (hvoid : ¬mc.body.Valued) : p.MovesVoid :=
  ⟨haccepted, code, mc, hlower, List.mem_of_getElem? hmc, hvoid⟩

end Program

end Tricode
