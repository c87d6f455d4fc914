import Mathlib.Algebra.Order.Group.Multiset
import Mathlib.Data.Multiset.Count
import Mathlib.Data.Set.Defs
import Tricode.Proofs.AcceptedFaults
import Tricode.Proofs.ControlFlow

/-!
# What code refers to

The operands of an instruction are literals, temporaries and names. Literals and temporaries are
the business of lowering alone. What is left, together with the fields it reads and writes and the
way it returns, is the *footprint* of the code: all that the code has to do with its surroundings.

This file shows that the footprint of lowered code is just what the tree mentions, each mention
resolved in the scope of the method. Nothing that is mentioned gets lost, and lowering adds no
reference of its own. So whatever is to be known about the names in code is a question about the
mentions of a tree, one at a time.

The references are counted throughout: a name that is read twice leaves two operands. `tally` is
the footprint with every reference as often as it occurs, and it is what the steps of lowering are
compared by. That the footprints agree follows.
-/

namespace Tricode

/-! ## References -/

/-- What an instruction refers to. -/
inductive Reference where
  /-- An operand. -/
  | value (o : Operand)
  /-- A variable or a temporary that is assigned to. -/
  | slot (o : Operand)
  /-- The class of a static call or of an allocation. -/
  | owner (o : Operand)
  | getField (name : String) (ty : Ty)
  | putField (name : String) (ty : Ty)
  | ret (hasValue : Bool)
  deriving DecidableEq, Repr

/-- What a call of the given kind makes of its receiver. -/
def CallKind.reference (kind : CallKind) (receiver : Operand) : Reference :=
  match kind with
  | .static | .new => .owner receiver
  | _ => .value receiver

/-- The receiver, and then the arguments. -/
def Call.references (c : Call) : List Reference :=
  c.kind.reference c.receiver :: c.args.map .value

/-- What the right-hand side of an assignment refers to. -/
def Rvalue.references : Rvalue → List Reference
  | use o | not o => [.value o]
  | binary _ left right => [.value left, .value right]
  | call c => c.references
  | getField field ty => [.getField field ty]
  | element array index => [.value array, .value index]
  | newArray _ size => [.value size]

def Cond.references : Cond → List Reference
  | truthy o => [.value o]
  | compare _ left right => [.value left, .value right]

/-- A variable or a temporary is written. For an element, its array and its index are read. -/
def Place.references : Place → List Reference
  | var name ty => [.slot (.var name ty)]
  | temp id ty => [.slot (.temp id ty)]
  | element array index _ => [.value array, .value index]

/-- What an instruction refers to, with what it writes first. -/
def Instruction.references : Instruction → List Reference
  | assign dest _ value => dest.references ++ value.references
  | call c => c.references
  | putField field ty value => [.putField field ty, .value value]
  | goto _ | label _ => []
  | branch cond _ => cond.references
  | ret value _ => .ret value.isSome :: value.toList.map .value

/-- What the code refers to, in order. -/
def Code.references (code : Code) : List Reference := code.flatMap Instruction.references

namespace Code

@[simp] theorem references_nil : references [] = [] := rfl

@[simp] theorem references_cons (i : Instruction) (code : Code) :
    references (i :: code) = i.references ++ references code := rfl

@[simp] theorem references_append (a b : Code) :
    references (a ++ b) = references a ++ references b := List.flatMap_append

end Code

/-- The operands that are read are those that are referred to, be it as values or as classes. -/
theorem Instruction.mem_operands {i : Instruction} {o : Operand} :
    o ∈ i.operands ↔ .value o ∈ i.references ∨ .owner o ∈ i.references := by
  have hcall : ∀ c : Call, o ∈ c.operands ↔
      .value o ∈ c.references ∨ .owner o ∈ c.references := by
    intro c
    rcases c with ⟨kind, receiver, method, args, ret⟩
    cases kind <;> simp [Call.operands, Call.references, CallKind.reference, or_comm]
  cases i with
  | assign dest ty value =>
    have hvalue : o ∈ value.operands ↔
        .value o ∈ value.references ∨ .owner o ∈ value.references := by
      cases value with
      | call c => exact hcall c
      | _ => simp [Rvalue.operands, Rvalue.references]
    cases dest <;> simp [operands, references, Place.operands, Place.references, hvalue, or_assoc]
  | call c => exact hcall c
  | branch cond target => cases cond <;> simp [operands, references, Cond.operands, Cond.references]
  | ret value ty => cases value <;> simp [operands, references]
  | putField | goto | label => simp [operands, references]

/-! ## Footprints -/

namespace Reference

/-- The reference is a temporary, or a literal with its own type. -/
def isInternal : Reference → Bool
  | .value (.temp _ _) | .slot (.temp _ _) => true
  | .value (.literal lit ty) => ty == lit.ty
  | _ => false

/-- The references that are not internal. -/
def footprint (rs : List Reference) : Set Reference := {r | r ∈ rs ∧ r.isInternal = false}

/-- The references that are not internal, each as often as it occurs. -/
def tally (rs : List Reference) : Multiset Reference := (rs.filter fun r ↦ !r.isInternal : List _)

theorem mem_tally {r : Reference} {rs : List Reference} : r ∈ tally rs ↔ r ∈ footprint rs := by
  simp [tally, footprint]

@[simp] theorem tally_nil : tally [] = 0 := rfl

@[simp] theorem tally_append (rs rs' : List Reference) :
    tally (rs ++ rs') = tally rs + tally rs' := by
  rw [tally, List.filter_append, ← Multiset.coe_add, tally, tally]

/-- The reference alone, or nothing if it is internal. -/
def alone (r : Reference) : Multiset Reference := tally [r]

@[simp] theorem tally_cons (r : Reference) (rs : List Reference) :
    tally (r :: rs) = r.alone + tally rs := tally_append [r] rs

theorem alone_of_external {r : Reference} (h : r.isInternal = false) : r.alone = {r} := by
  rw [alone, tally, List.filter_singleton, h]
  rfl

theorem alone_of_internal {r : Reference} (h : r.isInternal = true) : r.alone = 0 := by
  rw [alone, tally, List.filter_singleton, h]
  rfl

@[simp] theorem alone_temp (id : Nat) (ty : Ty) : alone (.value (.temp id ty)) = 0 :=
  alone_of_internal rfl

@[simp] theorem alone_slot_temp (id : Nat) (ty : Ty) : alone (.slot (.temp id ty)) = 0 :=
  alone_of_internal rfl

@[simp] theorem alone_ofLiteral (lit : Literal) : alone (.value (.ofLiteral lit)) = 0 :=
  alone_of_internal (by simp [isInternal, Operand.ofLiteral])

@[simp] theorem alone_int (n : Int32) : alone (.value (.int n)) = 0 := alone_ofLiteral _

@[simp] theorem alone_bool (b : Bool) : alone (.value (.bool b)) = 0 := alone_ofLiteral _

end Reference

open Reference (tally)

/-- The tally of an expression: that of its code and of the operand that stands for it. -/
def Lowered.tally (l : Lowered) : Multiset Reference :=
  Reference.tally (l.code.references ++ [.value l.operand])

/-! ## Combinators -/

namespace Lower

/-- Whatever the step yields has the given tally. -/
def Touches (x : Lower Lowered) (rs : Multiset Reference) : Prop :=
  ∀ {c : Counters} {l : Lowered} {c' : Counters}, x.Yields c l c' → l.tally = rs

/-- The expression has the same tally whatever type is expected of it. -/
def EmitTouches (emit : Emit) (rs : Multiset Reference) : Prop := ∀ hint, (emit hint).Touches rs

variable {c c' : Counters} {emit lhs rhs : Emit} {rs rs' : Multiset Reference}

theorem tally_intoTemp (id : Nat) (ty : Ty) (code : Code) (value : Rvalue) :
    (Lowered.mk (.temp id ty) (code ++ [.assign (.temp id ty) ty value])).tally =
      tally (code.references ++ value.references) := by
  simp [Lowered.tally, Instruction.references, Place.references]

theorem tally_both (left right : Lowered) :
    tally ((left.code ++ right.code).references ++
      [.value left.operand, .value right.operand]) = left.tally + right.tally := by
  simp only [Lowered.tally, Code.references_append, Reference.tally_append,
    Reference.tally_cons, Reference.tally_nil, add_zero]
  rw [add_add_add_comm]

theorem touches_not (h : EmitTouches emit rs) : (Lower.not emit).Touches rs := by
  intro c l c' hy
  obtain ⟨inner, c₁, hinner, rfl, -⟩ := yields_not hy
  exact (tally_intoTemp _ _ _ _).trans (h _ hinner)

section Binary

variable {op : BinOp} (hl : EmitTouches lhs rs) (hr : EmitTouches rhs rs')
include hl hr

theorem tally_compare {cond : Cond} {code : Code}
    (hy : (compare op lhs rhs).Yields c (cond, code) c') :
    tally (code.references ++ cond.references) = rs + rs' := by
  obtain ⟨left, c₁, right, hleft, hright, rfl, rfl⟩ := yields_compare hy
  rw [← hl _ hleft, ← hr _ hright]
  exact tally_both left right

theorem touches_arithmetic : (arithmetic op lhs rhs).Touches (rs + rs') := by
  intro c l c' hy
  obtain ⟨left, c₁, right, c₂, hleft, hright, rfl, -⟩ := yields_arithmetic hy
  rw [tally_intoTemp, ← hl _ hleft, ← hr _ hright]
  exact tally_both left right

theorem touches_comparison : (comparison op lhs rhs).Touches (rs + rs') := by
  intro c l c' hy
  obtain ⟨cond, code, c₁, hcmp, rfl, -⟩ := yields_comparison hy
  rw [← tally_compare hl hr hcmp]
  simp [Lowered.tally, Instruction.references, setBool, Place.references, Rvalue.references]

theorem touches_and : (Lower.and lhs rhs).Touches (rs + rs') := by
  intro c l c' hy
  obtain ⟨left, c₁, right, hleft, hright, rfl⟩ := yields_and hy
  rw [← hl _ hleft, ← hr _ hright]
  simp [Lowered.tally, Instruction.references, setBool, Place.references, Rvalue.references,
    Cond.references, add_assoc]

theorem touches_or : (Lower.or lhs rhs).Touches (rs + rs') := by
  intro c l c' hy
  obtain ⟨left, c₁, right, hleft, hright, rfl⟩ := yields_or hy
  rw [← hl _ hleft, ← hr _ hright]
  simp [Lowered.tally, Instruction.references, setBool, Place.references, Rvalue.references,
    Cond.references, add_assoc]

theorem touches_binary : (binary op lhs rhs).Touches (rs + rs') := by
  cases op with
  | and => exact touches_and hl hr
  | or => exact touches_or hl hr
  | lt | gt => exact touches_comparison hl hr
  | add | sub | mul | div | rem => exact touches_arithmetic hl hr

theorem touches_index : (index lhs rhs).Touches (rs + rs') := by
  intro c l c' hy
  obtain ⟨base, c₁, i, c₂, hbase, hidx, rfl, -⟩ := yields_index hy
  rw [tally_intoTemp, ← hl _ hbase, ← hr _ hidx]
  exact tally_both base i

end Binary

theorem touches_length (h : EmitTouches emit rs) : (length emit).Touches rs := by
  intro c l c' hy
  obtain ⟨base, c₁, hbase, rfl, -⟩ := yields_length hy
  exact (tally_intoTemp _ _ _ _).trans (h _ hbase)

theorem touches_newArray {elem : Ty} (h : EmitTouches emit rs) :
    (newArray elem emit).Touches rs := by
  intro c l c' hy
  obtain ⟨n, c₁, hn, rfl, -⟩ := yields_newArray hy
  exact (tally_intoTemp _ _ _ _).trans (h _ hn)

theorem touches_construct (className : String) :
    (construct className).Touches {.owner (.ofClass className)} := by
  intro c l c' hy
  obtain ⟨rfl, -⟩ := yields_construct hy
  rw [← Reference.alone_of_external (r := .owner (.ofClass className)) rfl]
  simp [Lowered.tally, Instruction.references, Place.references, Rvalue.references,
    Call.references, CallKind.reference]

/-! ### Lists of expressions -/

theorem tally_storeElements {id : Nat} {ty elem : Ty} {elements : List Emit}
    {rss : List (Multiset Reference)} (h : List.Forall₂ EmitTouches elements rss) :
    ∀ {i : Nat} {c : Counters} {code : Code},
      (storeElements (.temp id ty) elem i elements).Yields c code c' →
        tally code.references = rss.sum := by
  induction h with
  | nil =>
    intro i c code hy
    obtain ⟨rfl, -⟩ := yields_pure.mp hy
    simp
  | cons hhead htail ih =>
    intro i c code hy
    obtain ⟨value, c₁, rest, hvalue, hrest, rfl⟩ := yields_storeElements_cons hy
    rw [List.sum_cons, ← ih hrest, ← hhead _ hvalue]
    simp [Lowered.tally, Instruction.references, Place.references, Rvalue.references,
      add_assoc]

theorem touches_packArray {elem : Ty} {elements : List Emit} {rss : List (Multiset Reference)}
    (h : List.Forall₂ EmitTouches elements rss) :
    (packArray elem elements).Touches rss.sum := by
  intro c l c' hy
  obtain ⟨-, stores, hstores, rfl⟩ := yields_packArray hy
  rw [← tally_storeElements h hstores]
  simp [Lowered.tally, Instruction.references, Place.references, Rvalue.references]

theorem tally_inOrder {steps : List (Lower Lowered)} {rss : List (Multiset Reference)}
    (h : List.Forall₂ Touches steps rss) : ∀ {c : Counters} {operands : List Operand} {code : Code},
      (inOrder steps).Yields c (operands, code) c' →
        tally (code.references ++ operands.map .value) = rss.sum := by
  induction h with
  | nil =>
    intro c operands code hy
    rw [inOrder, yields_pure, Prod.mk.injEq] at hy
    obtain ⟨⟨rfl, rfl⟩, -⟩ := hy
    simp
  | cons hhead htail ih =>
    intro c operands code hy
    obtain ⟨first, c₁, rest, restCode, hfirst, hrest, rfl, rfl⟩ := yields_inOrder_cons hy
    rw [List.sum_cons, ← ih hrest, ← hhead hfirst]
    simp only [Lowered.tally, Code.references_append, List.map_cons, Reference.tally_append,
      Reference.tally_cons, Reference.tally_nil, add_zero]
    rw [add_add_add_comm]

/-- Packing arguments into an array changes no reference. -/
theorem tally_ownArguments {sig : Signature} {args : List Emit} {rss : List (Multiset Reference)}
    (hvar : sig.hasVarargs = true → ∃ elem, sig.varargsElement = some elem)
    (h : List.Forall₂ EmitTouches args rss) {operands : List Operand} {code : Code}
    (hy : (ownArguments sig args).Yields c (operands, code) c') :
    tally (code.references ++ operands.map .value) = rss.sum := by
  rcases yields_ownArguments hy hvar with hplain |
    ⟨elem, fixed, fixedCode, c₁, packed, hfixed, hpacked, rfl, rfl⟩
  · exact tally_inOrder (forall₂_eachFor _ h) hplain
  · have hfirst := tally_inOrder (forall₂_eachFor _ (List.forall₂_take sig.fixedArity h)) hfixed
    have hlast := touches_packArray (List.forall₂_drop sig.fixedArity h) hpacked
    rw [← List.take_append_drop sig.fixedArity rss, List.sum_append, ← hfirst, ← hlast]
    simp only [Lowered.tally, Code.references_append, List.map_append, List.map_singleton,
      Reference.tally_append]
    rw [add_add_add_comm]

end Lower

/-! ## Mentions in a scope -/

namespace Scope

/-- What the value of `name` is read from. -/
def readReference? (s : Scope) (name : String) : Option Reference :=
  match s.lookup name with
  | .stored .field symbol => some (.getField name symbol.ty)
  | .stored _ symbol => some (.value (.var name symbol.ty))
  | .imported => some (.value (.ofClass name))
  | .unbound => none

/-- What a mention leaves in the code, if it leaves anything. -/
def reference? (s : Scope) : Mention → Option Reference
  | .this => some (.value s.thisOperand)
  | .value name => s.readReference? name
  | .receiver name =>
    if s.lookup name = .imported then some (.owner (.ofClass name)) else s.readReference? name
  | .dropped name =>
    match s.lookup name with
    | .stored .field symbol => some (.getField name symbol.ty)
    | _ => none
  | .target name =>
    match s.lookup name with
    | .stored .field symbol => some (.putField name symbol.ty)
    | .stored _ symbol => some (.slot (.var name symbol.ty))
    | _ => none
  | .object className => some (.owner (.ofClass className))
  | .own method => some ((s.ownDispatch method).kind.reference (s.ownDispatch method).receiver)
  | .ret hasValue => some (.ret hasValue)
  | .elements _ | .other _ => none

/-- The mentions, each resolved. -/
def footprint (s : Scope) (ms : List Mention) : Set Reference :=
  {r | ∃ m ∈ ms, s.reference? m = some r}

/-- The mentions, each resolved as often as it occurs. -/
def tally (s : Scope) (ms : List Mention) : Multiset Reference :=
  (ms.filterMap s.reference? : List _)

section

variable {s : Scope} {m : Mention} {ms : List Mention}

theorem mem_tally {r : Reference} : r ∈ s.tally ms ↔ r ∈ s.footprint ms := by
  simp [tally, footprint]

/-- Where the references are counted alike, they are the same. -/
theorem footprint_eq_of_tally {rs : List Reference} (h : Reference.tally rs = s.tally ms) :
    Reference.footprint rs = s.footprint ms := by
  ext r
  rw [← Reference.mem_tally, h, mem_tally]

@[simp] theorem tally_nil : s.tally [] = 0 := rfl

@[simp] theorem tally_append (ms ms' : List Mention) :
    s.tally (ms ++ ms') = s.tally ms + s.tally ms' := by
  rw [tally, List.filterMap_append, ← Multiset.coe_add, tally, tally]

theorem tally_cons (m : Mention) (ms : List Mention) :
    s.tally (m :: ms) = s.tally [m] + s.tally ms := tally_append [m] ms

theorem tally_singleton {r : Reference} (h : s.reference? m = some r) : s.tally [m] = {r} := by
  rw [tally, List.filterMap_cons_some h]
  rfl

theorem tally_of_none (h : s.reference? m = none) : s.tally [m] = 0 := by
  rw [tally, List.filterMap_cons_none h]
  rfl

theorem tally_mentionsAll (s : Scope) (es : List Expr) :
    s.tally (Expr.mentionsAll es) = (es.map fun e ↦ s.tally e.mentions).sum := by
  induction es with
  | nil => simp [Expr.mentionsAll]
  | cons e es ih => rw [Expr.mentionsAll, tally_append, ih, List.map_cons,
      List.sum_cons]

end

/-! ## Expressions -/

variable {s : Scope} {c c' : Counters} {pos : Position}

theorem touches_lowerVar (s : Scope) (pos : Position) (name : String) :
    (s.lowerVar pos name).Touches (s.tally [.value name]) := by
  intro c l c' hy
  rcases yields_lowerVar hy with ⟨symbol, hlookup, rfl, -⟩ |
    ⟨storage, symbol, hlookup, hstorage, rfl, -⟩ | ⟨hlookup, rfl, -⟩
  · rw [tally_singleton (r := .getField name symbol.ty)
      (by rw [reference?, readReference?, hlookup]), ← Reference.alone_of_external rfl]
    simp [Lowered.tally, Instruction.references, Place.references, Rvalue.references]
  · rw [tally_singleton (r := .value (.var name symbol.ty))
      (by rw [reference?, readReference?, hlookup]; cases storage <;> trivial),
      ← Reference.alone_of_external rfl]
    simp [Lowered.tally]
  · rw [tally_singleton (r := .value (.ofClass name))
      (by rw [reference?, readReference?, hlookup]), ← Reference.alone_of_external rfl]
    simp [Lowered.tally]

/-! ### Receivers -/

theorem tally_ownDispatch {method : String} {d : Dispatch}
    (hy : (pure (s.ownDispatch method) : Lower Dispatch).Yields c d c') :
    Reference.tally (d.code.references ++ [d.kind.reference d.receiver]) =
      s.tally [.own method] := by
  obtain ⟨rfl, -⟩ := Lower.yields_pure.mp hy
  have hcode : (s.ownDispatch method).code = [] := by
    unfold ownDispatch
    split <;> split <;> rfl
  have hexternal : ((s.ownDispatch method).kind.reference
      (s.ownDispatch method).receiver).isInternal = false := by
    unfold ownDispatch
    split <;> split <;> rfl
  rw [tally_singleton rfl, hcode, ← Reference.alone_of_external hexternal]
  simp

/-- A receiver that is a value is mentioned as one. -/
theorem tally_asReceiver {receiver : Expr} (h : s.isObject receiver = true) (method : String) :
    s.tally (receiver.asReceiver method receiver.mentions) = s.tally receiver.mentions := by
  have hother : s.tally [.other method] = 0 := tally_of_none rfl
  cases receiver with
  | this pos => cases h
  | var pos name =>
    have hlookup : s.lookup name ≠ .imported := by simpa [isObject] using h
    have hsame : s.reference? (.receiver name) = s.reference? (.value name) := if_neg hlookup
    show s.tally ([.receiver name] ++ [.other method]) = s.tally [.value name]
    rw [tally_append, hother, add_zero]
    simp only [tally, List.filterMap_cons, hsame]
  | _ =>
    show s.tally (Expr.mentions _ ++ [.other method]) = _
    rw [tally_append, hother, add_zero]

theorem tally_dispatch {receiver : Expr} {method : String} {d : Dispatch}
    (hreceiver : Lower.EmitTouches (s.lowerExpr receiver) (s.tally receiver.mentions))
    (hy : (s.dispatch pos receiver (s.lowerExpr receiver) method).Yields c d c') :
    Reference.tally (d.code.references ++ [d.kind.reference d.receiver]) =
      s.tally (receiver.asReceiver method receiver.mentions) := by
  rcases s.receiver_cases receiver with ⟨p, rfl⟩ | ⟨p, name, rfl, hlookup⟩ | hobject
  · exact tally_ownDispatch hy
  · rw [dispatch, if_pos hlookup] at hy
    obtain ⟨rfl, -⟩ := Lower.yields_pure.mp hy
    have hname : s.reference? (.receiver name) = some (.owner (.ofClass name)) := if_pos hlookup
    show _ = s.tally ([.receiver name] ++ [.other method])
    rw [tally_append, tally_singleton hname, tally_of_none rfl, add_zero,
      ← Reference.alone_of_external rfl]
    simp [CallKind.reference]
  · rw [dispatch_eq_objectDispatch hobject] at hy
    obtain ⟨object, hemit, -, rfl⟩ := yields_objectDispatch hy
    rw [tally_asReceiver hobject]
    exact hreceiver _ hemit

/-! ### Operands -/

/-- An expression that is more than a name leaves its value in a temporary or is a literal. -/
theorem isInternal_operand {e : Expr} {hint : Option Ty} {l : Lowered}
    (hy : (s.lowerExpr e hint).Yields c l c') (h : e.isName = false) :
    (Reference.value l.operand).isInternal = true := by
  cases e with
  | this | var => cases h
  | lit pos value =>
    obtain ⟨rfl, -⟩ := Lower.yields_pure.mp hy
    simp [Operand.ofLiteral, Reference.isInternal]
  | not pos operand =>
    obtain ⟨inner, c₁, -, rfl, -⟩ := Lower.yields_not hy
    rfl
  | binary pos op lhs rhs =>
    cases op with
    | and =>
      obtain ⟨left, c₁, right, -, -, rfl⟩ := Lower.yields_and hy
      rfl
    | or =>
      obtain ⟨left, c₁, right, -, -, rfl⟩ := Lower.yields_or hy
      rfl
    | lt | gt =>
      obtain ⟨cond, code, c₁, -, rfl, -⟩ := Lower.yields_comparison hy
      rfl
    | add | sub | mul | div | rem =>
      obtain ⟨left, c₁, right, c₂, -, -, rfl, -⟩ := Lower.yields_arithmetic hy
      rfl
  | index pos base idx =>
    obtain ⟨array, c₁, i, c₂, -, -, rfl, -⟩ := Lower.yields_index hy
    rfl
  | array pos elements =>
    obtain ⟨-, stores, -, rfl⟩ := Lower.yields_packArray hy
    rfl
  | newArray pos elem size =>
    obtain ⟨n, c₁, -, rfl, -⟩ := Lower.yields_newArray hy
    rfl
  | newObject pos className =>
    obtain ⟨rfl, -⟩ := Lower.yields_construct hy
    rfl
  | length pos base =>
    obtain ⟨array, c₁, -, rfl, -⟩ := Lower.yields_length hy
    rfl
  | call | callOn =>
    obtain ⟨call, code, c₁, -, rfl, -⟩ := yields_lowerCallValue hy
    rfl

/-! ### Calls -/

section

variable (hvarargs : ∀ {method sig}, s.table.method? method = some sig → sig.hasVarargs = true →
  ∃ elem, sig.varargsElement = some elem)
include hvarargs

theorem tally_lowerCall {receiver : Lower Dispatch} {method : String} {args : List Expr}
    {rs : Multiset Reference} {retHint : Ty} {call : Call} {code : Code}
    (hreceiver : ∀ {c d c'}, receiver.Yields c d c' →
      Reference.tally (d.code.references ++ [d.kind.reference d.receiver]) = rs)
    (hcallee : ∀ {c d c' sig}, receiver.Yields c d c' → d.callee = some sig →
      s.table.method? method = some sig)
    (hargs : ∀ e ∈ args, Lower.EmitTouches (s.lowerExpr e) (s.tally e.mentions))
    (hy : (s.lowerCall receiver method args (s.lowerEach args) retHint).Yields c (call, code) c') :
    Reference.tally (code.references ++ call.references) =
      rs + s.tally (Expr.mentionsAll args) := by
  obtain ⟨d, c₁, operands, argCode, hd, hoperands, rfl, rfl⟩ := yields_lowerCall hy
  have hvalues : Reference.tally (argCode.references ++ operands.map .value) =
      s.tally (Expr.mentionsAll args) := by
    rw [tally_mentionsAll]
    unfold lowerArguments at hoperands
    split at hoperands
    · rename_i sig hsig
      exact Lower.tally_ownArguments (hvarargs (hcallee hd hsig))
        (forall₂_lowerEach hargs) hoperands
    · exact Lower.tally_inOrder (forall₂_zipWith_lowerEach hargs) hoperands
  -- Receiver and arguments each have a share in the code before the call and one in the call.
  rw [← hreceiver hd, ← hvalues]
  simp only [Call.references, Code.references_append, Reference.tally_append,
    Reference.tally_cons, Reference.tally_nil, add_zero]
  rw [add_add_add_comm]

theorem tally_call {method : String} {args : List Expr} {retHint : Ty} {call : Call}
    {code : Code} (hargs : ∀ e ∈ args, Lower.EmitTouches (s.lowerExpr e) (s.tally e.mentions))
    (hy : (s.lowerCall (pure (s.ownDispatch method)) method args (s.lowerEach args)
      retHint).Yields c (call, code) c') :
    Reference.tally (code.references ++ call.references) =
      s.tally (.own method :: Expr.mentionsAll args) := by
  rw [tally_cons]
  refine tally_lowerCall hvarargs tally_ownDispatch (fun hd hsig ↦ ?_) hargs hy
  obtain ⟨rfl, -⟩ := Lower.yields_pure.mp hd
  rwa [callee_ownDispatch] at hsig

theorem tally_callOn {receiver : Expr} {method : String} {args : List Expr}
    {retHint : Ty} {call : Call} {code : Code}
    (hreceiver : Lower.EmitTouches (s.lowerExpr receiver) (s.tally receiver.mentions))
    (hargs : ∀ e ∈ args, Lower.EmitTouches (s.lowerExpr e) (s.tally e.mentions))
    (hy : (s.lowerCall (s.dispatch pos receiver (s.lowerExpr receiver) method) method args
      (s.lowerEach args) retHint).Yields c (call, code) c') :
    Reference.tally (code.references ++ call.references) =
      s.tally (receiver.asReceiver method receiver.mentions ++ Expr.mentionsAll args) := by
  rw [tally_append]
  refine tally_lowerCall hvarargs (tally_dispatch hreceiver) (fun hd hsig ↦ ?_) hargs hy
  rw [callee_of_dispatch hd lowerExpr_ty] at hsig
  split at hsig
  · exact hsig
  · cases hsig

/-- The code of an expression refers to what the expression mentions. -/
theorem touches_lowerExpr (e : Expr) :
    Lower.EmitTouches (s.lowerExpr e) (s.tally e.mentions) := by
  induction e using Expr.memberInduct with
  | lit pos value =>
    intro hint c l c' hy
    obtain ⟨rfl, -⟩ := Lower.yields_pure.mp hy
    simp [Lowered.tally, Expr.mentions]
  | this pos =>
    intro hint c l c' hy
    obtain ⟨rfl, -⟩ := Lower.yields_pure.mp hy
    rw [Expr.mentions, tally_singleton rfl, ← Reference.alone_of_external rfl]
    simp [Lowered.tally]
  | var pos name => exact fun _ ↦ touches_lowerVar s pos name
  | not pos operand ih => exact fun _ ↦ Lower.touches_not ih
  | binary pos op lhs rhs ihl ihr =>
    rw [Expr.mentions, tally_append]
    exact fun _ ↦ Lower.touches_binary ihl ihr
  | index pos base idx ihb ihi =>
    rw [Expr.mentions, tally_append]
    exact fun _ ↦ Lower.touches_index ihb ihi
  | array pos elements ih =>
    rw [Expr.mentions, tally_mentionsAll]
    exact fun _ ↦ Lower.touches_packArray (forall₂_lowerEach ih)
  | newArray pos elem size ih =>
    rw [Expr.mentions, tally_cons, tally_of_none rfl, zero_add]
    exact fun _ ↦ Lower.touches_newArray ih
  | newObject pos className =>
    rw [Expr.mentions, tally_singleton rfl]
    exact fun _ ↦ Lower.touches_construct className
  | length pos base ih => exact fun _ ↦ Lower.touches_length ih
  | call pos method args ih =>
    intro hint c l c' hy
    obtain ⟨call, code, c₁, hcall, rfl, -⟩ := yields_lowerCallValue hy
    exact (Lower.tally_intoTemp _ _ _ _).trans (tally_call hvarargs ih hcall)
  | callOn pos receiver method args ihr iha =>
    intro hint c l c' hy
    obtain ⟨call, code, c₁, hcall, rfl, -⟩ := yields_lowerCallValue hy
    exact (Lower.tally_intoTemp _ _ _ _).trans (tally_callOn hvarargs ihr iha hcall)

/-! ## Statements -/

theorem tally_lowerCond {cond : Expr} {jump : Cond} {code : Code}
    (hy : (s.lowerCond cond).Yields c (jump, code) c') :
    Reference.tally (code.references ++ jump.references) = s.tally cond.mentions := by
  rcases s.lowerCond_cases cond with ⟨pos, op, lhs, rhs, rfl, -, heq⟩ | heq
  · rw [heq] at hy
    rw [Expr.mentions, tally_append]
    exact Lower.tally_compare (touches_lowerExpr hvarargs lhs) (touches_lowerExpr hvarargs rhs)
      hy
  · rw [heq] at hy
    obtain ⟨value, hvalue, rfl, rfl⟩ := yields_lowerTruthy hy
    exact touches_lowerExpr hvarargs cond _ hvalue

/-- Of a name that is a whole statement only the read of a field is left. -/
theorem tally_lowerEval {e : Expr} {code : Code} (hy : (s.lowerEval pos e).Yields c code c') :
    Reference.tally code.references = s.tally (e.asStatement e.mentions) := by
  have hargs : ∀ args : List Expr, ∀ e ∈ args,
      Lower.EmitTouches (s.lowerExpr e) (s.tally e.mentions) :=
    fun _ e _ ↦ touches_lowerExpr hvarargs e
  -- Of anything but a name the operand that is dropped is internal.
  have hdropped : ∀ {l : Lowered} {e : Expr} {c₁ : Counters},
      (s.lowerExpr e none).Yields c l c₁ → e.isName = false →
        Reference.tally l.code.references = s.tally e.mentions := by
    intro l e c₁ hvalue hname
    rw [← touches_lowerExpr hvarargs e _ hvalue, Lowered.tally, Reference.tally_append,
      Reference.tally_cons, Reference.alone_of_internal (isInternal_operand hvalue hname)]
    simp
  rcases yields_lowerEval hy with ⟨p, method, args, call, before, rfl, hcall, rfl⟩ |
    ⟨p, receiver, method, args, call, before, rfl, hcall, rfl⟩ | ⟨value, hvalue, rfl⟩
  · refine Eq.trans ?_ (tally_call hvarargs (hargs args) hcall)
    simp [Instruction.references]
  · refine Eq.trans ?_
      (tally_callOn hvarargs (touches_lowerExpr hvarargs receiver) (hargs args) hcall)
    simp [Instruction.references]
  · cases e with
    | this p =>
      obtain ⟨rfl, -⟩ := Lower.yields_pure.mp hvalue
      simp [Expr.asStatement]
    | var p name =>
      rw [Expr.asStatement]
      rcases yields_lowerVar hvalue with ⟨symbol, hlookup, rfl, -⟩ |
        ⟨storage, symbol, hlookup, hstorage, rfl, -⟩ | ⟨hlookup, rfl, -⟩
      · rw [tally_singleton (r := .getField name symbol.ty) (by rw [reference?, hlookup]),
          ← Reference.alone_of_external rfl]
        simp [Instruction.references, Place.references, Rvalue.references]
      · rw [tally_of_none (by rw [reference?, hlookup]; cases storage <;> trivial)]
        simp
      · rw [tally_of_none (by rw [reference?, hlookup])]
        simp
    | _ => exact hdropped hvalue rfl

theorem tally_lowerAssign {target : String} {value : Expr} {code : Code}
    (hy : (s.lowerAssign pos target value).Yields c code c') :
    Reference.tally code.references = s.tally (.target target :: value.mentions) := by
  obtain ⟨storage, symbol, v, hlookup, hv, rfl⟩ := yields_lowerAssign hy
  rw [tally_cons, ← touches_lowerExpr hvarargs value _ hv, add_comm]
  split
  · rename_i hfield
    subst hfield
    rw [tally_singleton (r := .putField target symbol.ty) (by rw [reference?, hlookup]),
      ← Reference.alone_of_external rfl]
    simp [Lowered.tally, Instruction.references, add_comm, add_left_comm]
  · rename_i hfield
    rw [tally_singleton (r := .slot (.var target symbol.ty))
      (by rw [reference?, hlookup]; cases storage <;> trivial), ← Reference.alone_of_external rfl]
    simp [Lowered.tally, Instruction.references, Place.references, Rvalue.references,
      add_comm, add_left_comm]

theorem tally_lowerStore {target : String} {index value : Expr} {code : Code}
    (hy : (s.lowerStore pos target index value).Yields c code c') :
    Reference.tally code.references =
      s.tally (.value target :: (index.mentions ++ value.mentions)) := by
  obtain ⟨array, c₁, i, c₂, v, harray, -, hi, hv, rfl⟩ := yields_lowerStore hy
  rw [tally_cons, tally_append, ← touches_lowerVar s pos target harray,
    ← touches_lowerExpr hvarargs index _ hi, ← touches_lowerExpr hvarargs value _ hv]
  simp [Lowered.tally, Instruction.references, Place.references, Rvalue.references, add_assoc,
    add_left_comm]

theorem tally_lowerReturn {value : Option Expr} {code : Code}
    (hy : (s.lowerReturn value).Yields c code c') :
    Reference.tally code.references =
      s.tally (.ret value.isSome :: value.elim [] Expr.mentions) := by
  rw [tally_cons, tally_singleton rfl, ← Reference.alone_of_external rfl]
  cases value with
  | none =>
    obtain ⟨rfl, -⟩ := Lower.yields_pure.mp hy
    simp [Instruction.references]
  | some value =>
    obtain ⟨v, hv, rfl⟩ := yields_lowerReturn_some hy
    show _ = _ + s.tally value.mentions
    rw [← touches_lowerExpr hvarargs value _ hv]
    simp [Lowered.tally, Instruction.references, add_left_comm]

omit hvarargs in
theorem tally_lowerStmts_of {stmts : List Stmt}
    (h : ∀ stmt ∈ stmts, ∀ {c code c'}, (s.lowerStmt stmt).Yields c code c' →
      Reference.tally (Code.references code) = s.tally stmt.mentions) :
    ∀ {c code c'}, (s.lowerStmts stmts).Yields c code c' →
      Reference.tally (Code.references code) = s.tally (Stmt.mentionsAll stmts) := by
  induction stmts with
  | nil =>
    intro c code c' hy
    obtain ⟨rfl, -⟩ := Lower.yields_pure.mp hy
    simp [Stmt.mentionsAll]
  | cons stmt stmts ih =>
    intro c code c' hy
    obtain ⟨first, c₁, rest, hfirst, hrest, rfl⟩ := yields_lowerStmts_cons hy
    obtain ⟨hhead, htail⟩ := List.forall_mem_cons.mp h
    rw [Code.references_append, Reference.tally_append, hhead hfirst, ih htail hrest,
      Stmt.mentionsAll, tally_append]

theorem tally_lowerStmt (stmt : Stmt) : ∀ {c code c'}, (s.lowerStmt stmt).Yields c code c' →
    Reference.tally (Code.references code) = s.tally stmt.mentions := by
  induction stmt using Stmt.memberInduct with
  | block pos stmts ih => exact tally_lowerStmts_of ih
  | ifElse pos cond thenBranch elseBranch ihThen ihElse =>
    intro c code c' hy
    obtain ⟨jump, condCode, c₁, elseCode, c₂, thenCode, hcond, helse, hthen, rfl⟩ :=
      yields_lowerIf hy
    rw [Stmt.mentions, tally_append, tally_append, ← tally_lowerCond hvarargs hcond,
      ← ihElse helse, ← ihThen hthen]
    simp [Instruction.references, add_assoc, add_comm, add_left_comm]
  | whileLoop pos cond body ihBody =>
    intro c code c' hy
    obtain ⟨jump, condCode, c₁, bodyCode, hcond, hbody, rfl⟩ := yields_lowerWhile hy
    rw [Stmt.mentions, tally_append, ← tally_lowerCond hvarargs hcond, ← ihBody hbody]
    simp [Instruction.references, add_assoc]
  | eval pos expr => exact tally_lowerEval hvarargs
  | assign pos target value => exact tally_lowerAssign hvarargs
  | store pos target index value => exact tally_lowerStore hvarargs
  | ret pos value => exact tally_lowerReturn hvarargs

/-- The code of a body refers to what the body mentions. -/
theorem tally_lowerStmts {stmts : List Stmt} {code : Code}
    (hy : (s.lowerStmts stmts).Yields c code c') :
    Reference.tally code.references = s.tally (Stmt.mentionsAll stmts) :=
  tally_lowerStmts_of (fun stmt _ ↦ tally_lowerStmt hvarargs stmt) hy

theorem footprint_lowerCond {cond : Expr} {jump : Cond} {code : Code}
    (hy : (s.lowerCond cond).Yields c (jump, code) c') :
    Reference.footprint (code.references ++ jump.references) = s.footprint cond.mentions :=
  footprint_eq_of_tally (tally_lowerCond hvarargs hy)

theorem footprint_lowerStmt (stmt : Stmt) {code : Code} (hy : (s.lowerStmt stmt).Yields c code c') :
    Reference.footprint code.references = s.footprint stmt.mentions :=
  footprint_eq_of_tally (tally_lowerStmt hvarargs stmt hy)

end

end Scope

/-! ## Units -/

/-- Of references, closing the code adds at most a return without a value. -/
theorem Code.count_references_closed {code : Code} {r : Reference} (h : r ≠ .ret false) :
    code.closed.references.count r = code.references.count r := by
  rw [Code.closed_eq]
  split
  · rfl
  · simp [Instruction.references, Ne.symm h]

namespace Program

variable {p : Program} {o : Options} {code : ClassCode} {i : Nat} {mc : MethodCode}

/-- Every method of the code is that of the declaration at the same place, and refers to what the
body mentions, as often as the body does. -/
theorem exists_tally_of_lower (hlower : p.lower p.table o = .ok code)
    (hmc : code.methods[i]? = some mc) :
    ∃ m c body c', (p.prepared o).decl.methods[i]? = some m ∧ mc.body = body.closed ∧
      (Scope.lowerStmts ⟨p.table, m.signature⟩ m.body).Yields c body c' ∧
      Reference.tally body.references =
        Scope.tally ⟨p.table, m.signature⟩ (Stmt.mentionsAll m.body) := by
  obtain ⟨m, c, c', hm, hlowered⟩ := exists_yields_of_lower hlower hmc
  obtain ⟨body, hbody, -, -, hclosed⟩ := Table.yields_lowerMethod hlowered
  exact ⟨m, c, body, c', hm, hclosed, hbody, Scope.tally_lowerStmts varargsElement_isSome hbody⟩

theorem exists_footprint_of_lower (hlower : p.lower p.table o = .ok code)
    (hmc : code.methods[i]? = some mc) :
    ∃ m c body c', (p.prepared o).decl.methods[i]? = some m ∧ mc.body = body.closed ∧
      (Scope.lowerStmts ⟨p.table, m.signature⟩ m.body).Yields c body c' ∧
      Reference.footprint body.references =
        Scope.footprint ⟨p.table, m.signature⟩ (Stmt.mentionsAll m.body) := by
  obtain ⟨m, c, body, c', hm, hclosed, hbody, htally⟩ := exists_tally_of_lower hlower hmc
  exact ⟨m, c, body, c', hm, hclosed, hbody, Scope.footprint_eq_of_tally htally⟩

section

variable (hlower : p.lower p.table o = .ok code) {m : MethodDecl}
variable (hm : (p.prepared o).decl.methods[i]? = some m) (hmc : code.methods[i]? = some mc)
include hlower hm hmc

/-- Beside the return that may end it, the code of a method refers to just what the body
mentions, and to each as often. -/
theorem count_references {r : Reference} (hret : r ≠ .ret false)
    (hexternal : r.isInternal = false) :
    mc.body.references.count r = (Stmt.mentionsAll m.body).countP fun u ↦
      Scope.reference? ⟨p.table, m.signature⟩ u == some r := by
  obtain ⟨m', c, body, c', hm', hclosed, -, htally⟩ := exists_tally_of_lower hlower hmc
  obtain rfl : m = m' := Option.some.inj (hm.symm.trans hm')
  calc mc.body.references.count r
    _ = body.references.count r := by rw [hclosed, Code.count_references_closed hret]
    _ = (Reference.tally body.references).count r := by
      rw [Reference.tally, Multiset.coe_count, List.count_filter (by simp [hexternal])]
    _ = _ := by rw [htally, Scope.tally, Multiset.coe_count, List.count_filterMap]

theorem mem_references_iff {r : Reference} (hret : r ≠ .ret false)
    (hexternal : r.isInternal = false) :
    r ∈ mc.body.references ↔ ∃ u ∈ Stmt.mentionsAll m.body,
      Scope.reference? ⟨p.table, m.signature⟩ u = some r := by
  rw [← List.count_pos_iff, count_references hlower hm hmc hret hexternal, List.countP_pos_iff]
  simp only [beq_iff_eq]

end

end Program

end Tricode
