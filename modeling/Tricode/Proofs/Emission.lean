import Tricode.Proofs.Arguments
import Tricode.Proofs.Callees

/-!
# Where the code of a part stands

The code of an expression holds the code of its children, each in one piece, and so that of every
part however deep. With the statements around it this finds, for each call that is written in a
method, the instruction that makes it.
-/

namespace Tricode

/-! ## Parts from the top -/

namespace Expr

theorem Part.trans {e part part' : Expr} (h : e.Part part) (h' : part.Part part') :
    e.Part part' := by
  induction h' with
  | self => exact h
  | child _ hchild ih => exact .child ih hchild

theorem part_iff {e part : Expr} :
    e.Part part ↔ part = e ∨ ∃ child ∈ e.children, child.Part part := by
  constructor
  · intro h
    induction h with
    | self => exact .inl rfl
    | @child part child _ hchild ih =>
      rcases ih with rfl | ⟨top, htop, hpart⟩
      · exact .inr ⟨child, hchild, .self⟩
      · exact .inr ⟨top, htop, .child hpart hchild⟩
  · rintro (rfl | ⟨child, hchild, h⟩)
    · exact .self
    · exact (Part.child .self hchild).trans h

end Expr

/-! ## Calls -/

namespace CallTarget

theorem isCall_call (t : CallTarget) (pos : Position) (args : List Expr) :
    (t.call pos args).isCall = true := by
  obtain ⟨receiver, method⟩ := t
  cases receiver <;> rfl

theorem exists_of_isCall {e : Expr} (h : e.isCall = true) :
    ∃ t pos args, e = CallTarget.call t pos args := by
  cases e with
  | call pos method args => exact ⟨⟨none, method⟩, pos, args, rfl⟩
  | callOn pos receiver method args => exact ⟨⟨some receiver, method⟩, pos, args, rfl⟩
  | _ => cases h

theorem mem_children_call {t : CallTarget} {pos : Position} {args : List Expr} {child : Expr} :
    child ∈ (t.call pos args).children ↔ child ∈ t.receiver ∨ child ∈ args := by
  obtain ⟨receiver, method⟩ := t
  cases receiver with
  | none => simp [call, Expr.children]
  | some receiver => simp [call, Expr.children, eq_comm]

end CallTarget

/-- The call that an instruction makes. -/
def Instruction.call? : Instruction → Option Call
  | .call c | .assign _ _ (.call c) => some c
  | _ => none

/-! ## Code inside code -/

/-- Somewhere in the code stands what the step emits, for some expected type. -/
def Emit.OccursIn (emit : Emit) (code : Code) : Prop :=
  ∃ hint c l c', (emit hint).Yields c l c' ∧ l.code <:+: code

namespace Emit.OccursIn

variable {emit : Emit} {code code' : Code}

theorem mono (h : OccursIn emit code) (hcode : code <:+: code') : OccursIn emit code' := by
  obtain ⟨hint, c, l, c', hy, hpiece⟩ := h
  exact ⟨hint, c, l, c', hy, hpiece.trans hcode⟩

theorem left (h : OccursIn emit code) : OccursIn emit (code ++ code') :=
  h.mono (List.prefix_append _ _).isInfix

theorem right (h : OccursIn emit code') : OccursIn emit (code ++ code') :=
  h.mono (List.suffix_append _ _).isInfix

end Emit.OccursIn

namespace Lower

open Emit (OccursIn)

variable {c c' : Counters} {l : Lowered}

theorem occursIn_self {emit : Emit} {hint : Option Ty} (h : (emit hint).Yields c l c') :
    OccursIn emit l.code :=
  ⟨hint, c, l, c', h, List.infix_rfl⟩

theorem occursIn_not {operand : Emit} (h : (Lower.not operand).Yields c l c') :
    OccursIn operand l.code := by
  obtain ⟨inner, c₁, hinner, rfl, -⟩ := yields_not h
  exact (occursIn_self hinner).left

section Binary

variable {op : BinOp} {lhs rhs : Emit}

theorem occursIn_compare {cond : Cond} {code : Code}
    (h : (compare op lhs rhs).Yields c (cond, code) c') :
    OccursIn lhs code ∧ OccursIn rhs code := by
  obtain ⟨left, c₁, right, hleft, hright, -, rfl⟩ := yields_compare h
  exact ⟨(occursIn_self hleft).left, (occursIn_self hright).right⟩

theorem occursIn_binary (h : (binary op lhs rhs).Yields c l c') :
    OccursIn lhs l.code ∧ OccursIn rhs l.code := by
  cases op with
  | and =>
    obtain ⟨left, c₁, right, hleft, hright, rfl⟩ := yields_and h
    exact ⟨(occursIn_self hleft).left.left.left, (occursIn_self hright).right.left⟩
  | or =>
    obtain ⟨left, c₁, right, hleft, hright, rfl⟩ := yields_or h
    exact ⟨(occursIn_self hleft).left.left.left, (occursIn_self hright).right.left⟩
  | lt | gt =>
    obtain ⟨cond, code, c₁, hcompare, rfl, -⟩ := yields_comparison h
    obtain ⟨hlhs, hrhs⟩ := occursIn_compare hcompare
    exact ⟨hlhs.left, hrhs.left⟩
  | add | sub | mul | div | rem =>
    obtain ⟨left, c₁, right, c₂, hleft, hright, rfl, -⟩ := yields_arithmetic h
    exact ⟨(occursIn_self hleft).left.left, (occursIn_self hright).right.left⟩

end Binary

theorem occursIn_index {array idx : Emit} (h : (index array idx).Yields c l c') :
    OccursIn array l.code ∧ OccursIn idx l.code := by
  obtain ⟨base, c₁, i, c₂, hbase, hidx, rfl, -⟩ := yields_index h
  exact ⟨(occursIn_self hbase).left.left, (occursIn_self hidx).right.left⟩

theorem occursIn_length {array : Emit} (h : (length array).Yields c l c') :
    OccursIn array l.code := by
  obtain ⟨base, c₁, hbase, rfl, -⟩ := yields_length h
  exact (occursIn_self hbase).left

theorem occursIn_newArray {elem : Ty} {size : Emit} (h : (newArray elem size).Yields c l c') :
    OccursIn size l.code := by
  obtain ⟨n, c₁, hn, rfl, -⟩ := yields_newArray h
  exact (occursIn_self hn).left

/-! ### Lists -/

theorem YieldsEach.exists_of_mem {steps : List (Lower Lowered)} {ls : List Lowered}
    (h : YieldsEach steps c ls c') {step : Lower Lowered} (hstep : step ∈ steps) :
    ∃ l ∈ ls, ∃ c₁ c₂, step.Yields c₁ l c₂ := by
  induction h with
  | nil => exact absurd hstep List.not_mem_nil
  | cons hhead _ ih =>
    rcases List.mem_cons.mp hstep with rfl | hstep
    · exact ⟨_, List.mem_cons_self, _, _, hhead⟩
    · obtain ⟨l, hl, hyields⟩ := ih hstep
      exact ⟨l, List.mem_cons_of_mem _ hl, hyields⟩

theorem code_infix_of_mem {ls : List Lowered} (hl : l ∈ ls) :
    l.code <:+: ls.flatMap Lowered.code := by
  rw [List.flatMap_def]
  exact List.infix_of_mem_flatten (List.mem_map_of_mem hl)

theorem code_infix_storing {array : Operand} {elem : Ty} {i : Nat} {ls : List Lowered}
    (hl : l ∈ ls) : l.code <:+: storing array elem i ls := by
  obtain ⟨k, hk⟩ := List.mem_iff_getElem?.mp hl
  have hmem : (l, i + k) ∈ ls.zipIdx i := by
    rw [List.mem_zipIdx_iff_le_and_getElem?_sub]
    exact ⟨Nat.le_add_right _ _, by simpa using hk⟩
  rw [storing, List.flatMap_def]
  exact (List.prefix_append l.code _).isInfix.trans
    (List.infix_of_mem_flatten (List.mem_map.mpr ⟨_, hmem, rfl⟩))

theorem occursIn_packArray {elem : Ty} {elements : List Emit}
    (h : (packArray elem elements).Yields c l c') :
    ∀ emit ∈ elements, OccursIn emit l.code := by
  obtain ⟨-, stores, hstores, rfl⟩ := yields_packArray h
  obtain ⟨ls, hls, rfl⟩ := yields_storeElements hstores
  intro emit hemit
  obtain ⟨l, hl, c₁, c₂, hy⟩ := hls.exists_of_mem (List.mem_map_of_mem hemit)
  exact (occursIn_self hy).mono ((code_infix_storing hl).trans (List.suffix_cons _ _).isInfix)

/-- Each of the arguments is lowered for some type, and its code is part of theirs. -/
theorem occursIn_inOrder {steps : List (Lower Lowered)} {operands : List Operand} {code : Code}
    (h : (inOrder steps).Yields c (operands, code) c') {emit : Emit} (hint : Option Ty)
    (hstep : emit hint ∈ steps) : OccursIn emit code := by
  obtain ⟨ls, hls, -, rfl⟩ := yields_inOrder.mp h
  obtain ⟨l, hl, c₁, c₂, hy⟩ := hls.exists_of_mem hstep
  exact (occursIn_self hy).mono (code_infix_of_mem hl)

theorem mem_eachFor {params : List Symbol} {args : List Emit} {emit : Emit} (h : emit ∈ args) :
    ∃ hint, emit hint ∈ eachFor params args := by
  obtain ⟨i, hi⟩ := List.mem_iff_getElem?.mp h
  exact ⟨_, List.mem_map.mpr ⟨(emit, i), List.mem_zipIdx_iff_getElem?.mpr hi, rfl⟩⟩

theorem occursIn_ownArguments {sig : Signature} {args : List Emit} {operands : List Operand}
    {code : Code} (hvar : sig.hasVarargs = true → ∃ elem, sig.varargsElement = some elem)
    (h : (ownArguments sig args).Yields c (operands, code) c') :
    ∀ emit ∈ args, OccursIn emit code := by
  intro emit hemit
  rcases yields_ownArguments h hvar with hplain |
    ⟨elem, fixed, fixedCode, c₁, packed, hfixed, hpacked, -, rfl⟩
  · obtain ⟨hint, hstep⟩ := mem_eachFor hemit
    exact occursIn_inOrder hplain hint hstep
  · rw [← List.take_append_drop sig.fixedArity args] at hemit
    rcases List.mem_append.mp hemit with hemit | hemit
    · obtain ⟨hint, hstep⟩ := mem_eachFor hemit
      exact (occursIn_inOrder hfixed hint hstep).left
    · exact (occursIn_packArray hpacked emit hemit).right

end Lower

namespace Scope

open Emit (OccursIn)

variable {s : Scope} {c c' : Counters} {l : Lowered}
  (hvarargs : ∀ {method sig}, s.table.method? method = some sig → sig.hasVarargs = true →
    ∃ elem, sig.varargsElement = some elem)

/-- The receiver of a call, which has no code of its own unless it is a value. -/
theorem occursIn_dispatch {pos : Position} {receiver : Expr} {method : String} {d : Dispatch}
    (h : (s.dispatch pos receiver (s.lowerExpr receiver) method).Yields c d c') :
    OccursIn (s.lowerExpr receiver) d.code := by
  rcases s.receiver_cases receiver with ⟨p, rfl⟩ | ⟨p, name, rfl, hlookup⟩ | hobject
  · exact ⟨none, c, ⟨s.thisOperand, []⟩, c, rfl, List.nil_infix⟩
  · refine ⟨none, c, ⟨.ofClass name, []⟩, c, ?_, List.nil_infix⟩
    rw [lowerExpr, lowerVar, hlookup]
    rfl
  · rw [dispatch_eq_objectDispatch hobject] at h
    obtain ⟨object, hobject, -, rfl⟩ := yields_objectDispatch h
    exact Lower.occursIn_self hobject

/-- The method of the unit that lowering takes a call to the target for. -/
def loweredCallee? (s : Scope) (t : CallTarget) : Option Signature :=
  match t.receiver with
  | none => s.table.method? t.method
  | some receiver => s.loweredCallee receiver t.method

theorem responder_of_callee? {receiver : Expr} {method : String} {sig : Signature}
    (h : s.callee? receiver method = some sig) :
    s.table.responder (s.typeOf receiver) = .own := by
  unfold callee? at h
  split at h
  · assumption
  · cases h

/-- Checking takes a class for that of the unit by its name, and no import has that name. -/
theorem lookup_ne_imported_of_callee? (himport : s.table.isImported s.table.className = false)
    {pos : Position} {name method : String} {sig : Signature}
    (h : s.callee? (.var pos name) method = some sig) : s.lookup name ≠ .imported := by
  intro hlookup
  have hown : s.table.responder (s.variableTy name) = .own := responder_of_callee? h
  rw [variableTy, hlookup] at hown
  have hname : name = s.table.className := (Table.responder_eq_own.mp hown).2.2
  rw [← hname, (lookup_imported hlookup).2.2] at himport
  cases himport

theorem callee_dispatchTo {t : CallTarget} {pos : Position} {d : Dispatch}
    (h : (s.dispatchTo pos t).Yields c d c') : d.callee = s.loweredCallee? t := by
  obtain ⟨receiver, method⟩ := t
  cases receiver with
  | none =>
    obtain ⟨rfl, -⟩ := Lower.yields_pure.mp h
    exact callee_ownDispatch s method
  | some receiver => exact callee_of_dispatch h lowerExpr_ty

theorem method?_of_loweredCallee? {t : CallTarget} {sig : Signature}
    (h : s.loweredCallee? t = some sig) : s.table.method? t.method = some sig := by
  obtain ⟨receiver, method⟩ := t
  cases receiver with
  | none => exact h
  | some receiver => exact method?_of_loweredCallee h

/-- Whatever checking takes for a call to a method of the unit, lowering does too. -/
theorem loweredCallee?_of_checkedCallee? (himport : s.table.isImported s.table.className = false)
    {t : CallTarget} {sig : Signature} (h : s.checkedCallee? t = some sig) :
    s.loweredCallee? t = some sig := by
  obtain ⟨receiver, method⟩ := t
  cases receiver with
  | none => exact h
  | some receiver =>
    show s.loweredCallee receiver method = some sig
    rw [loweredCallee, if_pos ?_, method?_of_callee? h]
    rcases s.receiver_cases receiver with ⟨p, rfl⟩ | ⟨p, name, rfl, hlookup⟩ | hobject
    · rfl
    · exact absurd hlookup (lookup_ne_imported_of_callee? himport h)
    · obtain ⟨hany, hclass, hname⟩ := Table.responder_eq_own.mp (responder_of_callee? h)
      rw [lowersToOwn_of_isObject hobject, receiverTy_of_known himport hany, hclass, hname,
        beq_self_eq_true]
      rfl

section

include hvarargs

theorem occursIn_lowerCall {t : CallTarget} {pos pos' : Position} {args : List Expr}
    {retHint : Ty} {call : Call} {code : Code}
    (h : (s.lowerCall (s.dispatchTo pos' t) t.method args (s.lowerEach args) retHint).Yields c
      (call, code) c') :
    ∀ child ∈ (t.call pos args).children, OccursIn (s.lowerExpr child) code := by
  obtain ⟨d, c₁, operands, argCode, hd, hargs, -, rfl⟩ := yields_lowerCall h
  have heach : ∀ arg ∈ args, OccursIn (s.lowerExpr arg) argCode := by
    intro arg harg
    have hmem : s.lowerExpr arg ∈ s.lowerEach args := by
      rw [lowerEach_eq_map]
      exact List.mem_map_of_mem harg
    cases hcallee : d.callee with
    | some sig =>
      rw [hcallee] at hargs
      rw [callee_dispatchTo hd] at hcallee
      exact Lower.occursIn_ownArguments (hvarargs (method?_of_loweredCallee? hcallee)) hargs _ hmem
    | none =>
      rw [hcallee] at hargs
      refine Lower.occursIn_inOrder hargs (s.argumentHint arg) ?_
      rw [zipWith_lowerEach]
      exact List.mem_map_of_mem harg
  obtain ⟨receiver, method⟩ := t
  cases receiver with
  | none => exact fun child hchild ↦ (heach child hchild).right
  | some receiver =>
    intro child hchild
    rcases List.mem_cons.mp hchild with rfl | hchild
    · exact (occursIn_dispatch hd).left
    · exact (heach child hchild).right

theorem occursIn_lowerExpr_call {t : CallTarget} {pos : Position} {args : List Expr}
    {hint : Option Ty} (h : (s.lowerExpr (t.call pos args) hint).Yields c l c') :
    ∀ child ∈ (t.call pos args).children, OccursIn (s.lowerExpr child) l.code := by
  rw [(s.lowersBy_dispatchTo t).1] at h
  obtain ⟨call, code, c₁, hcall, rfl, -⟩ := yields_lowerCallValue h
  exact fun child hchild ↦ (occursIn_lowerCall hvarargs hcall child hchild).left

/-- The code of an expression holds that of each of its children. -/
theorem occursIn_child {e : Expr} {hint : Option Ty} (h : (s.lowerExpr e hint).Yields c l c') :
    ∀ child ∈ e.children, OccursIn (s.lowerExpr child) l.code := by
  cases e with
  | lit | this | var | newObject => exact fun child hchild ↦ absurd hchild List.not_mem_nil
  | not pos operand => exact List.forall_mem_singleton.mpr (Lower.occursIn_not h)
  | binary pos op lhs rhs =>
    obtain ⟨hlhs, hrhs⟩ := Lower.occursIn_binary h
    exact List.forall_mem_cons.mpr ⟨hlhs, List.forall_mem_singleton.mpr hrhs⟩
  | index pos base idx =>
    obtain ⟨hbase, hidx⟩ := Lower.occursIn_index h
    exact List.forall_mem_cons.mpr ⟨hbase, List.forall_mem_singleton.mpr hidx⟩
  | array pos elements =>
    intro child hchild
    refine Lower.occursIn_packArray h _ ?_
    rw [lowerEach_eq_map]
    exact List.mem_map_of_mem hchild
  | newArray pos elem size => exact List.forall_mem_singleton.mpr (Lower.occursIn_newArray h)
  | length pos base => exact List.forall_mem_singleton.mpr (Lower.occursIn_length h)
  | call pos method args => exact occursIn_lowerExpr_call hvarargs (t := ⟨none, method⟩) h
  | callOn pos receiver method args =>
    exact occursIn_lowerExpr_call hvarargs (t := ⟨some receiver, method⟩) h

/-- The code of an expression holds that of each of its parts. -/
theorem occursIn_part {e part : Expr} {code : Code} (h : OccursIn (s.lowerExpr e) code)
    (hpart : e.Part part) : OccursIn (s.lowerExpr part) code := by
  refine hpart.of_children (P := fun e ↦ OccursIn (s.lowerExpr e) code) ?_ h
  rintro e ⟨hint, c, l, c', hy, hpiece⟩ child hchild
  exact (occursIn_child hvarargs hy child hchild).mono hpiece

end

end Scope

/-! ## Statements -/

namespace Stmt

mutual

/-- The expressions that stand in a statement, each with whether its value is dropped. That is so
for a call that makes up a whole statement. -/
def places : Stmt → List (Expr × Bool)
  | block _ stmts => placesAll stmts
  | ifElse _ cond thenBranch elseBranch =>
    (cond, false) :: (thenBranch.places ++ elseBranch.places)
  | whileLoop _ cond body => (cond, false) :: body.places
  | eval _ expr => [(expr, expr.isCall)]
  | assign _ _ value => [(value, false)]
  | store _ _ index value => [(index, false), (value, false)]
  | ret _ value => value.toList.map (·, false)

def placesAll : List Stmt → List (Expr × Bool)
  | [] => []
  | stmt :: stmts => stmt.places ++ placesAll stmts

end

theorem placesAll_eq_flatMap (stmts : List Stmt) : placesAll stmts = stmts.flatMap places := by
  induction stmts with
  | nil => rfl
  | cons stmt stmts ih => rw [placesAll, ih, List.flatMap_cons]

theorem map_fst_places (stmt : Stmt) : stmt.places.map Prod.fst = stmt.exprs := by
  induction stmt using Stmt.memberInduct with
  | block pos stmts ih =>
    rw [places, exprs, placesAll_eq_flatMap, exprsAll_eq_flatMap, List.map_flatMap]
    exact List.flatMap_congr ih
  | ifElse pos cond thenBranch elseBranch iht ihe => simp [places, exprs, iht, ihe]
  | whileLoop pos cond body ih => simp [places, exprs, ih]
  | eval | assign | store => rfl
  | ret pos value => cases value <;> rfl

theorem exists_place {e : Expr} {stmts : List Stmt} (h : e ∈ exprsAll stmts) :
    ∃ place ∈ placesAll stmts, place.1 = e := by
  rw [exprsAll_eq_flatMap] at h
  obtain ⟨stmt, hstmt, he⟩ := List.mem_flatMap.mp h
  rw [← map_fst_places] at he
  obtain ⟨place, hplace, rfl⟩ := List.mem_map.mp he
  rw [placesAll_eq_flatMap]
  exact ⟨place, List.mem_flatMap.mpr ⟨stmt, hstmt, hplace⟩, rfl⟩

end Stmt

/-- The value of the part is used in what stands at the place: if that is dropped, then the part
is another one. -/
def Expr.UsedAt (part : Expr) (place : Expr × Bool) : Prop :=
  if place.2 then ∃ child ∈ place.1.children, child.Part part else place.1.Part part

namespace Scope

open Emit (OccursIn)

variable {s : Scope} {c c' : Counters}

theorem yields_lowerEval_of_not_call {pos : Position} {expr : Expr} {code : Code}
    (hcall : expr.isCall = false) (h : (s.lowerEval pos expr).Yields c code c') :
    ∃ value, (s.lowerExpr expr none).Yields c value c' ∧ code = value.code := by
  rcases yields_lowerEval h with ⟨p, method, args, call, before, rfl, -⟩ |
    ⟨p, receiver, method, args, call, before, rfl, -⟩ | hvalue
  · cases hcall
  · cases hcall
  · exact hvalue

theorem yields_lowerEval_call {t : CallTarget} {pos pos' : Position} {args : List Expr}
    {code : Code} (h : (s.lowerEval pos' (t.call pos args)).Yields c code c') :
    ∃ call before, (s.lowerCall (s.dispatchTo pos' t) t.method args (s.lowerEach args)
        .void).Yields c (call, before) c' ∧ code = before ++ [.call call] := by
  rw [(s.lowersBy_dispatchTo t).2] at h
  simp only [Lower.yields_bind, Prod.exists, Lower.yields_pure] at h
  obtain ⟨call, before, c₁, hcall, rfl, rfl⟩ := h
  exact ⟨call, before, hcall, rfl⟩

/-- Every call in the expression is made in the code, and its result is kept. -/
def Computes (s : Scope) (e : Expr) (code : Code) : Prop :=
  ∀ part, e.Part part → part.isCall = true → OccursIn (s.lowerExpr part) code

/-- The call is made in the code, and its result is dropped. -/
def Drops (s : Scope) (e : Expr) (code : Code) : Prop :=
  ∃ pos c dropped c', (s.lowerEval pos e).Yields c dropped c' ∧ dropped <:+: code

/-- What the code does with an expression that stands in a statement. -/
inductive Places (s : Scope) (code : Code) : Expr × Bool → Prop
  | kept {e : Expr} : s.Computes e code → Places s code (e, false)
  | dropped {e : Expr} : e.isCall = true → s.Drops e code → Places s code (e, true)

namespace Places

variable {code code' : Code} {place : Expr × Bool}

theorem mono (h : s.Places code place) (hcode : code <:+: code') : s.Places code' place := by
  cases h with
  | kept h => exact .kept fun part hpart hcall ↦ (h part hpart hcall).mono hcode
  | dropped hcall h =>
    obtain ⟨pos, c, dropped, c', hy, hpiece⟩ := h
    exact .dropped hcall ⟨pos, c, dropped, c', hy, hpiece.trans hcode⟩

theorem left (h : s.Places code place) : s.Places (code ++ code') place :=
  h.mono (List.prefix_append _ _).isInfix

theorem right (h : s.Places code' place) : s.Places (code ++ code') place :=
  h.mono (List.suffix_append _ _).isInfix

end Places

section

variable (hvarargs : ∀ {method sig}, s.table.method? method = some sig → sig.hasVarargs = true →
    ∃ elem, sig.varargsElement = some elem)
include hvarargs

theorem computes_of_yields {e : Expr} {hint : Option Ty} {l : Lowered}
    (h : (s.lowerExpr e hint).Yields c l c') : s.Computes e l.code :=
  fun _ hpart _ ↦ occursIn_part hvarargs (Lower.occursIn_self h) hpart

theorem computes_cond {cond : Expr} {jump : Cond} {code : Code}
    (h : (s.lowerCond cond).Yields c (jump, code) c') : s.Computes cond code := by
  rcases s.lowerCond_cases cond with ⟨pos, op, lhs, rhs, rfl, -, heq⟩ | heq
  · rw [heq] at h
    obtain ⟨hlhs, hrhs⟩ := Lower.occursIn_compare h
    intro part hpart hcall
    rcases Expr.part_iff.mp hpart with rfl | ⟨child, hchild, hpart⟩
    · cases hcall
    · refine occursIn_part hvarargs ?_ hpart
      rcases List.mem_pair.mp hchild with rfl | rfl
      · exact hlhs
      · exact hrhs
  · rw [heq] at h
    obtain ⟨value, hvalue, -, rfl⟩ := yields_lowerTruthy h
    exact computes_of_yields hvarargs hvalue

theorem places_of_yields {e : Expr} {hint : Option Ty} {l : Lowered}
    (h : (s.lowerExpr e hint).Yields c l c') : s.Places l.code (e, false) :=
  .kept (computes_of_yields hvarargs h)

theorem places_lowerEval {pos : Position} {expr : Expr} {code : Code}
    (h : (s.lowerEval pos expr).Yields c code c') : s.Places code (expr, expr.isCall) := by
  cases hcall : expr.isCall with
  | true => exact .dropped hcall ⟨pos, c, code, c', h, List.infix_rfl⟩
  | false =>
    obtain ⟨value, hvalue, rfl⟩ := yields_lowerEval_of_not_call hcall h
    exact places_of_yields hvarargs hvalue

omit hvarargs in
theorem places_lowerStmts {stmts : List Stmt}
    (h : ∀ stmt ∈ stmts, ∀ {c c' : Counters} {code : Code}, (s.lowerStmt stmt).Yields c code c' →
      ∀ place ∈ stmt.places, s.Places code place) :
    ∀ {c c' : Counters} {code : Code}, (s.lowerStmts stmts).Yields c code c' →
      ∀ place ∈ Stmt.placesAll stmts, s.Places code place := by
  induction stmts with
  | nil => exact fun _ place hplace ↦ absurd hplace List.not_mem_nil
  | cons stmt stmts ih =>
    intro c c' code hy place hplace
    obtain ⟨first, c₁, rest, hfirst, hrest, rfl⟩ := yields_lowerStmts_cons hy
    obtain ⟨hstmt, hstmts⟩ := List.forall_mem_cons.mp h
    rcases List.mem_append.mp hplace with hplace | hplace
    · exact (hstmt hfirst place hplace).left
    · exact (ih hstmts hrest place hplace).right

/-- The code of a statement makes every call that stands in it. -/
theorem places_lowerStmt (stmt : Stmt) : ∀ {c c' : Counters} {code : Code},
    (s.lowerStmt stmt).Yields c code c' → ∀ place ∈ stmt.places, s.Places code place := by
  induction stmt using Stmt.memberInduct with
  | block pos stmts ih => exact places_lowerStmts ih
  | ifElse pos cond thenBranch elseBranch iht ihe =>
    intro c c' code hy
    obtain ⟨jump, condCode, c₁, elseCode, c₂, thenCode, hcond, helse, hthen, rfl⟩ :=
      yields_lowerIf hy
    -- What a part makes it makes within the code that stands around the part.
    refine List.forall_mem_cons.mpr ⟨?_, List.forall_mem_append.mpr ⟨?_, ?_⟩⟩
    · exact (Places.kept (computes_cond hvarargs hcond)).left.left.left.left.left
    · exact fun place hplace ↦ (iht hthen place hplace).right.left
    · exact fun place hplace ↦ (ihe helse place hplace).right.left.left.left
  | whileLoop pos cond body ih =>
    intro c c' code hy
    obtain ⟨jump, condCode, c₁, bodyCode, hcond, hbody, rfl⟩ := yields_lowerWhile hy
    refine List.forall_mem_cons.mpr ⟨?_, fun place hplace ↦ (ih hbody place hplace).right.left⟩
    exact (Places.kept (computes_cond hvarargs hcond)).right.left.left.left
  | eval pos expr =>
    intro c c' code hy
    exact List.forall_mem_singleton.mpr (places_lowerEval hvarargs hy)
  | assign pos target value =>
    intro c c' code hy
    obtain ⟨storage, symbol, v, -, hv, rfl⟩ := yields_lowerAssign hy
    exact List.forall_mem_singleton.mpr (places_of_yields hvarargs hv).left
  | store pos target index value =>
    intro c c' code hy
    obtain ⟨array, c₁, i, c₂, v, -, -, hi, hv, rfl⟩ := yields_lowerStore hy
    exact List.forall_mem_cons.mpr ⟨(places_of_yields hvarargs hi).right.left.left,
      List.forall_mem_singleton.mpr (places_of_yields hvarargs hv).right.left⟩
  | ret pos value =>
    intro c c' code hy
    cases value with
    | none => exact fun place hplace ↦ absurd hplace List.not_mem_nil
    | some value =>
      obtain ⟨v, hv, rfl⟩ := yields_lowerReturn_some hy
      exact List.forall_mem_singleton.mpr (places_of_yields hvarargs hv).left

end

/-! ## The instruction of a call -/

section

variable {t : CallTarget} {pos : Position} {args : List Expr} {code : Code}

/-- The code of a call whose result is kept ends in its assignment to a temporary. -/
theorem exists_assign_of_occursIn (h : OccursIn (s.lowerExpr (t.call pos args)) code) :
    ∃ ret c call before c', (s.lowerCall (s.dispatchTo pos t) t.method args (s.lowerEach args)
        ret).Yields c (call, before) c' ∧
      ∃ id, before ++ [.assign (.temp id call.ret) call.ret (.call call)] <:+: code := by
  obtain ⟨hint, c, l, c', hy, hpiece⟩ := h
  rw [(s.lowersBy_dispatchTo t).1] at hy
  obtain ⟨call, before, c₁, hcall, rfl, -⟩ := yields_lowerCallValue hy
  exact ⟨_, c, call, before, c₁, hcall, c₁.temps, hpiece⟩

theorem exists_call_of_drops (h : s.Drops (t.call pos args) code) :
    ∃ pos' c call before c', (s.lowerCall (s.dispatchTo pos' t) t.method args (s.lowerEach args)
        .void).Yields c (call, before) c' ∧ before ++ [.call call] <:+: code := by
  obtain ⟨pos', c, dropped, c', hy, hpiece⟩ := h
  obtain ⟨call, before, hcall, rfl⟩ := yields_lowerEval_call hy
  exact ⟨pos', c, call, before, c', hcall, hpiece⟩

/-- The code holds an instruction that makes the call, right after the code of its parts. -/
def Makes (s : Scope) (t : CallTarget) (args : List Expr) (call : Call) (code : Code) : Prop :=
  ∃ pos ret c before c', (s.lowerCall (s.dispatchTo pos t) t.method args (s.lowerEach args)
      ret).Yields c (call, before) c' ∧
    ∃ i : Instruction, i.call? = some call ∧ before ++ [i] <:+: code

theorem exists_makes_of_occursIn (h : OccursIn (s.lowerExpr (t.call pos args)) code) :
    ∃ call, s.Makes t args call code := by
  obtain ⟨ret, c, call, before, c', hcall, id, hpiece⟩ := exists_assign_of_occursIn h
  exact ⟨call, pos, ret, c, before, c', hcall, _, rfl, hpiece⟩

section

variable (hvarargs : ∀ {method sig}, s.table.method? method = some sig → sig.hasVarargs = true →
    ∃ elem, sig.varargsElement = some elem) {place : Expr × Bool} (h : s.Places code place)
include hvarargs h

/-- A call whose result is used is kept. -/
theorem Places.occursIn_of_usedAt (hused : (t.call pos args).UsedAt place) :
    OccursIn (s.lowerExpr (t.call pos args)) code := by
  cases h with
  | kept h => exact h _ hused (t.isCall_call pos args)
  | @dropped e htop hdrops =>
    obtain ⟨t', pos', args', rfl⟩ := CallTarget.exists_of_isCall htop
    obtain ⟨pos'', c, call, before, c', hcall, hpiece⟩ := exists_call_of_drops hdrops
    obtain ⟨child, hchild, hpart⟩ := hused
    have hoccurs := occursIn_lowerCall hvarargs hcall child hchild
    exact (occursIn_part hvarargs hoccurs hpart).left.mono hpiece

/-- Every call that stands at the place is made by the code. -/
theorem Places.exists_makes (hpart : place.1.Part (t.call pos args)) :
    ∃ call, s.Makes t args call code := by
  by_cases hused : (t.call pos args).UsedAt place
  · exact exists_makes_of_occursIn (h.occursIn_of_usedAt hvarargs hused)
  -- Only the call that makes up a whole statement is not used.
  · cases h with
    | kept => exact absurd hpart hused
    | dropped _ hdrops =>
      obtain rfl := (Expr.part_iff.mp hpart).resolve_right hused
      obtain ⟨pos', c, call, before, c', hcall, hpiece⟩ := exists_call_of_drops hdrops
      exact ⟨call, pos', _, c, before, c', hcall, _, rfl, hpiece⟩

end

end

end Scope

theorem Code.infix_closed (code : Code) : code <:+: code.closed := by
  unfold closed
  split
  · exact List.infix_rfl
  · exact (List.prefix_append _ _).isInfix

namespace Program

variable {p : Program} {o : Options} {code : ClassCode} {i : Nat} {mc : MethodCode}
  {m : MethodDecl}

/-- The code of a method makes every call that stands in its body. -/
theorem places_of_lower (hlower : p.lower p.table o = .ok code)
    (hm : (p.prepared o).decl.methods[i]? = some m) (hmc : code.methods[i]? = some mc) :
    ∀ place ∈ Stmt.placesAll m.body, Scope.Places ⟨p.table, m.signature⟩ mc.body place := by
  obtain ⟨m', c, c', hm', hlowered⟩ := exists_yields_of_lower hlower hmc
  obtain rfl : m = m' := Option.some.inj (hm.symm.trans hm')
  obtain ⟨body, hbody, -, -, hclosed⟩ := Table.yields_lowerMethod hlowered
  intro place hplace
  rw [hclosed]
  exact (Scope.places_lowerStmts (fun stmt _ ↦ Scope.places_lowerStmt varargsElement_isSome stmt)
    hbody place hplace).mono body.infix_closed

theorem exists_makes_of_hasPart (hlower : p.lower p.table o = .ok code)
    (hm : (p.prepared o).decl.methods[i]? = some m) (hmc : code.methods[i]? = some mc)
    {t : CallTarget} {pos : Position} {args : List Expr} (hpart : m.HasPart (t.call pos args)) :
    ∃ call, Scope.Makes ⟨p.table, m.signature⟩ t args call mc.body := by
  obtain ⟨top, htop, hpart⟩ := hpart
  obtain ⟨place, hplace, rfl⟩ := Stmt.exists_place htop
  exact (places_of_lower hlower hm hmc place hplace).exists_makes varargsElement_isSome hpart

end Program

end Tricode
