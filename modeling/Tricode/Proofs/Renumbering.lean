import Tricode.Proofs.Numbering

/-!
# Lowering from other counters

The counters settle which numbers temporaries and labels are given, and nothing else. Lowering
from counters that are ahead by `d` takes the same steps and stops at the same fault, if it stops;
its outcome is the one from behind with all numbers raised by `d`, and the counters stay ahead by
`d` to the end. In particular the code of a method is the same, up to its numbers, whatever
methods come before it.

## Two runs at once

`Lower.Ahead d f x y` relates a step `x` to a step `y` that runs ahead, where `f` raises the
numbers in the outcome. The two are different steps as soon as they go on from a number drawn
before. A sequence of related steps is related, so every combinator is taken through its own steps
once, and what is left to show is that raising the numbers commutes with putting code together.
-/

namespace Tricode

/-! ## Raised numbers -/

namespace Counters

instance : Add Counters :=
  ⟨fun d c ↦ ⟨d.temps + c.temps, d.ifs + c.ifs, d.whiles + c.whiles, d.conds + c.conds⟩⟩

theorem le_add_right (d c : Counters) : d ≤ d + c :=
  ⟨Nat.le_add_right _ _, Nat.le_add_right _ _, Nat.le_add_right _ _, Nat.le_add_right _ _⟩

end Counters

namespace Operand

/-- The operand with the number of a temporary raised. -/
def shift (d : Counters) : Operand → Operand
  | literal value ty => literal value ty
  | var name ty => var name ty
  | temp id ty => temp (d.temps + id) ty

@[simp] theorem ty_shift (d : Counters) (o : Operand) : (o.shift d).ty = o.ty := by
  cases o <;> rfl

end Operand

/-- The place with the numbers of temporaries raised. -/
def Place.shift (d : Counters) : Place → Place
  | var name ty => var name ty
  | temp id ty => temp (d.temps + id) ty
  | element array index ty => element (array.shift d) (index.shift d) ty

/-- The label with its number raised by what was drawn for labels of its family. -/
def Label.shift (d : Counters) : Label → Label
  | numbered mark n => numbered mark (mark.next d + n)
  | named text => named text

def Call.shift (d : Counters) (call : Call) : Call :=
  { call with receiver := call.receiver.shift d, args := call.args.map (Operand.shift d) }

def Rvalue.shift (d : Counters) : Rvalue → Rvalue
  | use operand => use (operand.shift d)
  | binary op left right => binary op (left.shift d) (right.shift d)
  | not operand => not (operand.shift d)
  | call c => call (c.shift d)
  | getField field ty => getField field ty
  | element array index => element (array.shift d) (index.shift d)
  | newArray elem size => newArray elem (size.shift d)

def Cond.shift (d : Counters) : Cond → Cond
  | truthy operand => truthy (operand.shift d)
  | compare op left right => compare op (left.shift d) (right.shift d)

namespace Instruction

/-- The instruction with all its numbers raised. -/
def shift (d : Counters) : Instruction → Instruction
  | assign dest ty value => assign (dest.shift d) ty (value.shift d)
  | call c => call (c.shift d)
  | putField field ty value => putField field ty (value.shift d)
  | goto target => goto (target.shift d)
  | branch cond target => branch (cond.shift d) (target.shift d)
  | label l => label (l.shift d)
  | ret value ty => ret (value.map (Operand.shift d)) ty

theorem isReturn_shift (d : Counters) (instruction : Instruction) :
    (instruction.shift d).isReturn = instruction.isReturn := by
  cases instruction <;> rfl

end Instruction

namespace Code

/-- The code with all its numbers raised. -/
def shift (d : Counters) (code : Code) : Code := code.map (Instruction.shift d)

@[simp] theorem shift_append (d : Counters) (a b : Code) :
    shift d (a ++ b) = shift d a ++ shift d b :=
  List.map_append

theorem closed_shift (d : Counters) (code : Code) :
    closed (shift d code) = shift d (closed code) := by
  have hlast : ((shift d code).getLast?.map Instruction.isReturn) =
      code.getLast?.map Instruction.isReturn := by
    rw [shift, List.getLast?_map, Option.map_map]
    congr 1
    funext instruction
    exact instruction.isReturn_shift d
  rw [closed, closed, hlast]
  split
  · rfl
  · rw [shift_append]
    rfl

end Code

namespace Lowered

/-- The operand and its code with all their numbers raised. -/
def shift (d : Counters) (l : Lowered) : Lowered := ⟨l.operand.shift d, Code.shift d l.code⟩

@[simp] theorem ty_shift (d : Counters) (l : Lowered) :
    (l.shift d).operand.ty = l.operand.ty := l.operand.ty_shift d

end Lowered

def Dispatch.shift (d : Counters) (x : Dispatch) : Dispatch :=
  { x with receiver := x.receiver.shift d, code := Code.shift d x.code }

/-- The method with all numbers in its body raised. -/
def MethodCode.shift (d : Counters) (m : MethodCode) : MethodCode :=
  { m with body := Code.shift d m.body }

/-- The class with all numbers in its methods raised. -/
def ClassCode.shift (d : Counters) (c : ClassCode) : ClassCode :=
  { c with methods := c.methods.map (MethodCode.shift d) }

/-! ## Steps -/

namespace Lower

/-- Run from counters ahead by `d`, the step `y` comes to what `x` comes to, with `f` applied to
the result, and the counters are ahead by `d` again. -/
def Ahead {α β : Type} (d : Counters) (f : α → β) (x : Lower α) (y : Lower β) : Prop :=
  ∀ c, y.runFrom (d + c) = ((x.runFrom c).1.map f, d + (x.runFrom c).2)

/-- Run from counters ahead by `d`, the step does what it does from behind, up to the numbers that
`f` raises in its result. -/
abbrev Renumbers {α : Type} (x : Lower α) (d : Counters) (f : α → α) : Prop := Ahead d f x x

section

variable {α β α' β' : Type} {d : Counters} {f : α → β} {g : α' → β'}

theorem Ahead.pure {a : α} {b : β} (h : b = f a) :
    Ahead d f (Pure.pure a) (Pure.pure b) := by
  intro c
  rw [h]
  rfl

theorem renumbers_throw {f : α → α} (fault : Fault) : (throw fault : Lower α).Renumbers d f :=
  fun _ ↦ rfl

theorem Ahead.bind {x : Lower α} {y : Lower β} {k : α → Lower α'} {k' : β → Lower β'}
    (h : Ahead d f x y) (hk : ∀ a, Ahead d g (k a) (k' (f a))) :
    Ahead d g (x >>= k) (y >>= k') := by
  intro c
  rw [runFrom_bind, runFrom_bind, h c]
  rcases x.runFrom c with ⟨fault | a, c'⟩
  · rfl
  · exact hk a c'

theorem renumbers_freshTemp : freshTemp.Renumbers d (d.temps + ·) := fun _ ↦ rfl

theorem renumbers_freshIf : freshIf.Renumbers d (d.ifs + ·) := fun _ ↦ rfl

theorem renumbers_freshWhile : freshWhile.Renumbers d (d.whiles + ·) := fun _ ↦ rfl

theorem renumbers_freshCond : freshCond.Renumbers d (d.conds + ·) := fun _ ↦ rfl

end

/-- Whatever type is expected, the expression is lowered alike up to its numbers. -/
def EmitRenumbers (d : Counters) (emit : Emit) : Prop :=
  ∀ hint, (emit hint).Renumbers d (Lowered.shift d)

section

variable {d : Counters} {emit lhs rhs : Emit}

theorem ahead_intoTemp {ty : Ty} {code code' : Code} {value value' : Rvalue}
    (hcode : code' = code.shift d) (hvalue : value' = value.shift d) :
    Ahead d (Lowered.shift d) (intoTemp ty code value) (intoTemp ty code' value') := by
  subst hcode hvalue
  refine renumbers_freshTemp.bind fun id ↦ .pure ?_
  rw [Lowered.shift, Code.shift_append]
  rfl

/-! ### Operators -/

theorem renumbers_not (h : EmitRenumbers d emit) :
    (Lower.not emit).Renumbers d (Lowered.shift d) :=
  (h _).bind fun _ ↦ ahead_intoTemp rfl rfl

theorem renumbers_arithmetic (op : BinOp) (hl : EmitRenumbers d lhs) (hr : EmitRenumbers d rhs) :
    (arithmetic op lhs rhs).Renumbers d (Lowered.shift d) :=
  (hl _).bind fun _ ↦ (hr _).bind fun _ ↦ ahead_intoTemp (Code.shift_append d _ _).symm rfl

theorem renumbers_compare (op : BinOp) (hl : EmitRenumbers d lhs) (hr : EmitRenumbers d rhs) :
    (compare op lhs rhs).Renumbers d (Prod.map (Cond.shift d) (Code.shift d)) := by
  refine (hl _).bind fun left ↦ (hr _).bind fun right ↦ .pure ?_
  rw [Prod.map_apply, Code.shift_append]
  rfl

theorem renumbers_comparison (op : BinOp) (hl : EmitRenumbers d lhs) (hr : EmitRenumbers d rhs) :
    (comparison op lhs rhs).Renumbers d (Lowered.shift d) := by
  refine (renumbers_compare op hl hr).bind ?_
  rintro ⟨cond, code⟩
  refine renumbers_freshCond.bind fun n ↦ renumbers_freshTemp.bind fun id ↦ .pure ?_
  rw [Lowered.shift, Code.shift_append]
  rfl

theorem renumbers_and (hl : EmitRenumbers d lhs) (hr : EmitRenumbers d rhs) :
    (Lower.and lhs rhs).Renumbers d (Lowered.shift d) := by
  refine (hl _).bind fun left ↦ renumbers_freshCond.bind fun n ↦ renumbers_freshTemp.bind fun id ↦
    (hr _).bind fun right ↦ .pure ?_
  simp only [Lowered.shift, Code.shift_append]
  rfl

theorem renumbers_or (hl : EmitRenumbers d lhs) (hr : EmitRenumbers d rhs) :
    (Lower.or lhs rhs).Renumbers d (Lowered.shift d) := by
  refine (hl _).bind fun left ↦ renumbers_freshCond.bind fun n ↦ renumbers_freshTemp.bind fun id ↦
    (hr _).bind fun right ↦ .pure ?_
  simp only [Lowered.shift, Code.shift_append]
  rfl

theorem renumbers_binary (op : BinOp) (hl : EmitRenumbers d lhs) (hr : EmitRenumbers d rhs) :
    (binary op lhs rhs).Renumbers d (Lowered.shift d) := by
  cases op with
  | and => exact renumbers_and hl hr
  | or => exact renumbers_or hl hr
  | lt | gt => exact renumbers_comparison _ hl hr
  | add | sub | mul | div | rem => exact renumbers_arithmetic _ hl hr

/-! ### Arrays -/

theorem renumbers_index (hbase : EmitRenumbers d lhs) (hidx : EmitRenumbers d rhs) :
    (index lhs rhs).Renumbers d (Lowered.shift d) := by
  refine (hbase _).bind fun base ↦ (hidx _).bind fun idx ↦ ?_
  rw [base.ty_shift d]
  exact ahead_intoTemp (Code.shift_append d _ _).symm rfl

theorem renumbers_length (h : EmitRenumbers d emit) :
    (length emit).Renumbers d (Lowered.shift d) :=
  (h _).bind fun _ ↦ ahead_intoTemp rfl rfl

theorem renumbers_newArray (elem : Ty) (h : EmitRenumbers d emit) :
    (newArray elem emit).Renumbers d (Lowered.shift d) :=
  (h _).bind fun _ ↦ ahead_intoTemp rfl rfl

section

variable {emits : List Emit} (h : ∀ emit ∈ emits, EmitRenumbers d emit)
include h

theorem ahead_storeElements (array : Operand) (elem : Ty) (i : Nat) :
    Ahead d (Code.shift d) (storeElements array elem i emits)
      (storeElements (array.shift d) elem i emits) := by
  induction emits generalizing i with
  | nil => exact .pure rfl
  | cons emit emits ih =>
    obtain ⟨hhead, htail⟩ := List.forall_mem_cons.mp h
    refine (hhead _).bind fun value ↦ (ih htail (i + 1)).bind fun rest ↦ .pure ?_
    rw [Code.shift_append]
    rfl

theorem renumbers_packArray (elem : Ty) :
    (packArray elem emits).Renumbers d (Lowered.shift d) := by
  rw [packArray]
  split
  · exact renumbers_throw _
  · exact renumbers_freshTemp.bind fun id ↦ (ahead_storeElements h _ elem 0).bind fun _ ↦ .pure rfl

end

/-! ### Objects and calls -/

theorem renumbers_construct (className : String) :
    (construct className).Renumbers d (Lowered.shift d) :=
  renumbers_freshTemp.bind fun _ ↦ .pure rfl

theorem renumbers_inOrder {steps : List (Lower Lowered)}
    (h : ∀ step ∈ steps, step.Renumbers d (Lowered.shift d)) :
    (inOrder steps).Renumbers d (Prod.map (List.map (Operand.shift d)) (Code.shift d)) := by
  induction steps with
  | nil => exact .pure rfl
  | cons step steps ih =>
    obtain ⟨hhead, htail⟩ := List.forall_mem_cons.mp h
    refine hhead.bind fun first ↦ (ih htail).bind ?_
    rintro ⟨operands, code⟩
    refine .pure ?_
    rw [Prod.map_apply, Code.shift_append]
    rfl

theorem renumbers_ownArguments (sig : Signature) {emits : List Emit}
    (h : ∀ emit ∈ emits, EmitRenumbers d emit) :
    (ownArguments sig emits).Renumbers d
      (Prod.map (List.map (Operand.shift d)) (Code.shift d)) := by
  refine (renumbers_inOrder fun step hstep ↦ ?_).bind ?_
  · obtain ⟨⟨emit, i⟩, hmem, rfl⟩ := List.mem_map.mp hstep
    exact h emit (List.mem_of_mem_take (List.fst_mem_of_mem_zipIdx hmem)) _
  · rintro ⟨operands, code⟩
    dsimp only [Prod.map_apply]
    split
    · split
      · rename_i elem _ _
        refine (renumbers_packArray (fun emit hemit ↦
          h emit (List.mem_of_mem_drop hemit)) elem).bind fun packed ↦ .pure ?_
        rw [Prod.map_apply, Code.shift_append, List.map_append]
        rfl
      · exact .pure rfl
    · exact .pure rfl

end

end Lower

/-! ## Expressions -/

namespace Scope

open Lower (EmitRenumbers)

variable {d : Counters}

theorem renumbers_lowerVar (s : Scope) (pos : Position) (name : String) :
    (s.lowerVar pos name).Renumbers d (Lowered.shift d) := by
  unfold lowerVar
  split
  · exact Lower.ahead_intoTemp rfl rfl
  · exact .pure rfl
  · exact .pure rfl
  · exact Lower.renumbers_throw _

theorem renumbers_ownDispatch (s : Scope) (method : String) :
    (pure (s.ownDispatch method) : Lower Dispatch).Renumbers d (Dispatch.shift d) := by
  refine .pure ?_
  unfold ownDispatch
  split <;> split <;> rfl

theorem renumbers_dispatch (s : Scope) (pos : Position) {receiver : Expr} (method : String)
    (h : EmitRenumbers d (s.lowerExpr receiver)) :
    (s.dispatch pos receiver (s.lowerExpr receiver) method).Renumbers d (Dispatch.shift d) := by
  rcases s.receiver_cases receiver with ⟨p, rfl⟩ | ⟨p, name, rfl, hlookup⟩ | hobject
  · exact s.renumbers_ownDispatch method
  · rw [dispatch, if_pos hlookup]
    exact .pure rfl
  · rw [dispatch_eq_objectDispatch hobject]
    refine (h _).bind fun object ↦ ?_
    -- A receiver keeps its type, and that alone settles who is called.
    rw [object.ty_shift d]
    dsimp only
    split
    · exact .pure rfl
    · exact Lower.renumbers_throw _

section

variable {s : Scope} {receiver : Lower Dispatch} {emits : List Emit}
  (hreceiver : receiver.Renumbers d (Dispatch.shift d))
  (hemits : ∀ emit ∈ emits, EmitRenumbers d emit)
include hreceiver hemits

theorem renumbers_lowerCall (method : String) (args : List Expr) (retHint : Ty) :
    (s.lowerCall receiver method args emits retHint).Renumbers d
      (Prod.map (Call.shift d) (Code.shift d)) := by
  refine hreceiver.bind fun dispatch ↦ ?_
  rw [show (dispatch.shift d).callee = dispatch.callee from rfl]
  split
  · rename_i sig _
    refine (Lower.renumbers_ownArguments sig hemits).bind ?_
    rintro ⟨operands, code⟩
    refine .pure ?_
    rw [Prod.map_apply, Code.shift_append]
    rfl
  · refine (Lower.renumbers_inOrder fun step hstep ↦ ?_).bind ?_
    · obtain ⟨i, hi, rfl⟩ := List.mem_iff_getElem.mp hstep
      rw [List.getElem_zipWith]
      exact hemits _ (List.getElem_mem _) _
    · rintro ⟨operands, code⟩
      refine .pure ?_
      rw [Prod.map_apply, Code.shift_append]
      rfl

theorem renumbers_lowerCallValue (method : String) (args : List Expr) (hint : Option Ty) :
    (s.lowerCallValue receiver method args emits hint).Renumbers d (Lowered.shift d) := by
  refine (renumbers_lowerCall hreceiver hemits method args _).bind ?_
  rintro ⟨call, code⟩
  exact Lower.ahead_intoTemp rfl rfl

end

theorem emitRenumbers_of_mem_lowerEach {s : Scope} {es : List Expr}
    (h : ∀ e ∈ es, EmitRenumbers d (s.lowerExpr e)) :
    ∀ emit ∈ s.lowerEach es, EmitRenumbers d emit := by
  rw [lowerEach_eq_map]
  exact List.forall_mem_map.mpr h

theorem renumbers_lowerExpr (s : Scope) (e : Expr) : EmitRenumbers d (s.lowerExpr e) := by
  induction e using Expr.memberInduct with
  | lit | this => exact fun _ ↦ .pure rfl
  | var pos name => exact fun _ ↦ s.renumbers_lowerVar pos name
  | not pos operand ih => exact fun _ ↦ Lower.renumbers_not ih
  | binary pos op lhs rhs ihl ihr => exact fun _ ↦ Lower.renumbers_binary op ihl ihr
  | index pos base idx ihBase ihIdx => exact fun _ ↦ Lower.renumbers_index ihBase ihIdx
  | array pos elements ih =>
    exact fun _ ↦ Lower.renumbers_packArray (emitRenumbers_of_mem_lowerEach ih) _
  | newArray pos elem size ih => exact fun _ ↦ Lower.renumbers_newArray _ ih
  | newObject pos className => exact fun _ ↦ Lower.renumbers_construct className
  | length pos base ih => exact fun _ ↦ Lower.renumbers_length ih
  | call pos method args ih =>
    exact renumbers_lowerCallValue (s.renumbers_ownDispatch method)
      (emitRenumbers_of_mem_lowerEach ih) _ _
  | callOn pos receiver method args ihReceiver ih =>
    exact renumbers_lowerCallValue (s.renumbers_dispatch pos method ihReceiver)
      (emitRenumbers_of_mem_lowerEach ih) _ _

theorem renumbers_lowerArgs (s : Scope) (es : List Expr) :
    ∀ emit ∈ s.lowerEach es, EmitRenumbers d emit :=
  emitRenumbers_of_mem_lowerEach fun e _ ↦ s.renumbers_lowerExpr e

/-! ## Statements -/

theorem renumbers_lowerTruthy (s : Scope) (cond : Expr) :
    (s.lowerTruthy cond).Renumbers d (Prod.map (Cond.shift d) (Code.shift d)) :=
  (s.renumbers_lowerExpr cond _).bind fun _ ↦ .pure rfl

theorem renumbers_lowerCond (s : Scope) (cond : Expr) :
    (s.lowerCond cond).Renumbers d (Prod.map (Cond.shift d) (Code.shift d)) := by
  unfold lowerCond
  split
  · split
    · exact Lower.renumbers_compare _ (s.renumbers_lowerExpr _) (s.renumbers_lowerExpr _)
    · exact s.renumbers_lowerTruthy _
  · exact s.renumbers_lowerTruthy _

theorem renumbers_lowerEval (s : Scope) (pos : Position) (expr : Expr) :
    (s.lowerEval pos expr).Renumbers d (Code.shift d) := by
  unfold lowerEval
  split
  · refine (renumbers_lowerCall (s.renumbers_ownDispatch _) (s.renumbers_lowerArgs _) _ _ _).bind ?_
    rintro ⟨call, code⟩
    refine .pure ?_
    rw [Code.shift_append]
    rfl
  · refine (renumbers_lowerCall (s.renumbers_dispatch pos _ (s.renumbers_lowerExpr _))
      (s.renumbers_lowerArgs _) _ _ _).bind ?_
    rintro ⟨call, code⟩
    refine .pure ?_
    rw [Code.shift_append]
    rfl
  · exact (s.renumbers_lowerExpr _ _).bind fun _ ↦ .pure rfl

theorem renumbers_lowerAssign (s : Scope) (pos : Position) (target : String) (value : Expr) :
    (s.lowerAssign pos target value).Renumbers d (Code.shift d) := by
  unfold lowerAssign
  split
  · refine (s.renumbers_lowerExpr _ _).bind fun value ↦ .pure ?_
    rw [Code.shift_append]
    split <;> rfl
  · exact Lower.renumbers_throw _
  · exact Lower.renumbers_throw _

theorem renumbers_lowerStore (s : Scope) (pos : Position) (target : String) (index value : Expr) :
    (s.lowerStore pos target index value).Renumbers d (Code.shift d) := by
  refine (s.renumbers_lowerVar pos target).bind fun array ↦ ?_
  rw [array.ty_shift d]
  split
  · exact Lower.renumbers_throw _
  · refine (s.renumbers_lowerExpr index _).bind fun idx ↦
      (s.renumbers_lowerExpr value _).bind fun value ↦ .pure ?_
    simp only [Code.shift_append]
    rfl

theorem renumbers_lowerReturn (s : Scope) (value : Option Expr) :
    (s.lowerReturn value).Renumbers d (Code.shift d) := by
  cases value with
  | none => exact .pure rfl
  | some value =>
    refine (s.renumbers_lowerExpr value _).bind fun value ↦ .pure ?_
    rw [Code.shift_append]
    rfl

theorem renumbers_lowerStmts_of {s : Scope} {stmts : List Stmt}
    (h : ∀ stmt ∈ stmts, (s.lowerStmt stmt).Renumbers d (Code.shift d)) :
    (s.lowerStmts stmts).Renumbers d (Code.shift d) := by
  induction stmts with
  | nil => exact .pure rfl
  | cons stmt stmts ih =>
    obtain ⟨hhead, htail⟩ := List.forall_mem_cons.mp h
    exact hhead.bind fun first ↦ (ih htail).bind fun rest ↦
      .pure (Code.shift_append d first rest).symm

theorem renumbers_lowerStmt (s : Scope) (stmt : Stmt) :
    (s.lowerStmt stmt).Renumbers d (Code.shift d) := by
  induction stmt using Stmt.memberInduct with
  | block pos stmts ih => exact renumbers_lowerStmts_of ih
  | ifElse pos cond thenBranch elseBranch ihThen ihElse =>
    refine Lower.renumbers_freshIf.bind fun n ↦ (s.renumbers_lowerCond cond).bind ?_
    rintro ⟨cond, condCode⟩
    refine ihElse.bind fun elseCode ↦ ihThen.bind fun thenCode ↦ .pure ?_
    simp only [Code.shift_append]
    rfl
  | whileLoop pos cond body ihBody =>
    refine Lower.renumbers_freshWhile.bind fun n ↦ (s.renumbers_lowerCond cond).bind ?_
    rintro ⟨cond, condCode⟩
    refine ihBody.bind fun bodyCode ↦ .pure ?_
    simp only [Code.shift_append]
    rfl
  | eval pos expr => exact s.renumbers_lowerEval pos expr
  | assign pos target value => exact s.renumbers_lowerAssign pos target value
  | store pos target index value => exact s.renumbers_lowerStore pos target index value
  | ret pos value => exact s.renumbers_lowerReturn value

end Scope

/-! ## Units -/

namespace Table

variable {d : Counters}

theorem renumbers_lowerMethod (t : Table) (sig : Signature) (body : List Stmt) :
    (t.lowerMethod sig body).Renumbers d (MethodCode.shift d) := by
  refine (Scope.renumbers_lowerStmts_of fun stmt _ ↦
    Scope.renumbers_lowerStmt _ stmt).bind fun code ↦ .pure ?_
  rw [Code.closed_shift]
  rfl

theorem renumbers_lowerMethods (t : Table) (ms : List MethodDecl) (sigs : List Signature) :
    (t.lowerMethods ms sigs).Renumbers d (List.map (MethodCode.shift d)) := by
  induction ms, sigs using Table.lowerMethods.induct with
  | case1 m ms sig sigs ih =>
    exact (t.renumbers_lowerMethod sig m.body).bind fun _ ↦ ih.bind fun _ ↦ .pure rfl
  | case2 ms sigs hdone =>
    rw [Table.lowerMethods]
    · exact .pure rfl
    · exact hdone

theorem renumbers_lowerProgram (t : Table) (p : Program) :
    (t.lowerProgram p).Renumbers d (ClassCode.shift d) :=
  (t.renumbers_lowerMethods p.decl.methods t.methods).bind fun _ ↦ .pure rfl

/-- Lowering a statement, an expression or a unit depends on the counters only by the numbers it
gives out: from any counters it comes to the outcome from zero with these added. -/
theorem lower_eq_shift_from_zero (t : Table) (c : Counters) :
    (∀ (sig : Signature) (stmt : Stmt),
      (Scope.lowerStmt ⟨t, sig⟩ stmt).runFrom c =
        (((Scope.lowerStmt ⟨t, sig⟩ stmt).runFrom .zero).1.map (Code.shift c),
          c + ((Scope.lowerStmt ⟨t, sig⟩ stmt).runFrom .zero).2)) ∧
    (∀ (sig : Signature) (e : Expr) (hint : Option Ty),
      (Scope.lowerExpr ⟨t, sig⟩ e hint).runFrom c =
        (((Scope.lowerExpr ⟨t, sig⟩ e hint).runFrom .zero).1.map (Lowered.shift c),
          c + ((Scope.lowerExpr ⟨t, sig⟩ e hint).runFrom .zero).2)) ∧
    ∀ (p : Program),
      (t.lowerProgram p).runFrom c =
        (((t.lowerProgram p).runFrom .zero).1.map (ClassCode.shift c),
          c + ((t.lowerProgram p).runFrom .zero).2) :=
  ⟨fun sig stmt ↦ Scope.renumbers_lowerStmt ⟨t, sig⟩ stmt .zero,
    fun sig e hint ↦ Scope.renumbers_lowerExpr ⟨t, sig⟩ e hint .zero,
    fun p ↦ t.renumbers_lowerProgram p .zero⟩

end Table

end Tricode
