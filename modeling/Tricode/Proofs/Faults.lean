import Tricode.Proofs.OperandTypes

/-!
# Where lowering stops

Lowering stops at the first fault it meets. Which faults there are to meet is a matter of the tree
alone: neither the counters nor the expected types play a part. They are listed here as a function
of the tree, in the order in which lowering comes to them. Lowering succeeds if the list is empty
and stops at its head otherwise.

`Lower.Meets` is that statement for a single step, and steps that follow one another meet their
faults one after another. So the recursion over trees is the list append of what its parts meet.
-/

namespace Tricode

/-! ## Steps -/

namespace Lower

/-- The fault a step stops at, if it does. -/
def fault? {α : Type} (x : Lower α) (c : Counters) : Option Fault :=
  match (x.runFrom c).1 with
  | .ok _ => none
  | .error fault => some fault

/-- Whatever the counters are, the step stops at the first of the faults, and succeeds if there
are none. -/
def Meets {α : Type} (x : Lower α) (faults : List Fault) : Prop := ∀ c, x.fault? c = faults.head?

section

variable {α β : Type} {x : Lower α} {fs gs : List Fault}

theorem meets_pure (a : α) : (pure a : Lower α).Meets [] := fun _ ↦ rfl

theorem meets_throw (fault : Fault) (fs : List Fault) :
    (throw fault : Lower α).Meets (fault :: fs) := fun _ ↦ rfl

/-- What comes second is met only where the first step succeeds. -/
theorem Meets.bind {f : α → Lower β} (hx : x.Meets fs)
    (hf : ∀ {c a c'}, x.Yields c a c' → (f a).Meets gs) : (x >>= f).Meets (fs ++ gs) := by
  intro c
  have hfault := hx c
  rw [fault?] at hfault
  rw [fault?, runFrom_bind, List.head?_append]
  rcases hrun : x.runFrom c with ⟨fault | a, c'⟩
  · rw [hrun] at hfault
    rw [← hfault]
    rfl
  · rw [hrun] at hfault
    rw [← hfault, Option.none_or]
    exact hf hrun c'

/-- A step followed by one that always succeeds. -/
theorem Meets.andThen {f : α → Lower β} (hx : x.Meets fs) (hf : ∀ a, (f a).Meets []) :
    (x >>= f).Meets fs := by
  have h := hx.bind fun {_ a _} _ ↦ hf a
  rwa [List.append_nil] at h

theorem Meets.exists_yields (hx : x.Meets []) (c : Counters) : ∃ a c', x.Yields c a c' := by
  have hfault := hx c
  rw [fault?] at hfault
  rcases hrun : x.runFrom c with ⟨fault | a, c'⟩
  · rw [hrun] at hfault
    cases hfault
  · exact ⟨a, c', hrun⟩

theorem meets_freshTemp : freshTemp.Meets [] := fun _ ↦ rfl

theorem meets_freshIf : freshIf.Meets [] := fun _ ↦ rfl

theorem meets_freshWhile : freshWhile.Meets [] := fun _ ↦ rfl

theorem meets_freshCond : freshCond.Meets [] := fun _ ↦ rfl

end

/-- The expression meets the same faults whatever type is expected of it. -/
def EmitMeets (emit : Emit) (faults : List Fault) : Prop := ∀ hint, (emit hint).Meets faults

section

variable {emit lhs rhs : Emit} {fs gs : List Fault}

theorem meets_intoTemp (ty : Ty) (code : Code) (value : Rvalue) :
    (intoTemp ty code value).Meets [] := fun _ ↦ rfl

theorem meets_not (h : EmitMeets emit fs) : (Lower.not emit).Meets fs :=
  (h _).andThen fun _ ↦ meets_intoTemp _ _ _

theorem meets_arithmetic (op : BinOp) (hl : EmitMeets lhs fs) (hr : EmitMeets rhs gs) :
    (arithmetic op lhs rhs).Meets (fs ++ gs) :=
  (hl _).bind fun _ ↦ (hr _).andThen fun _ ↦ meets_intoTemp _ _ _

theorem meets_compare (op : BinOp) (hl : EmitMeets lhs fs) (hr : EmitMeets rhs gs) :
    (compare op lhs rhs).Meets (fs ++ gs) :=
  (hl _).bind fun _ ↦ (hr _).andThen fun _ ↦ meets_pure _

theorem meets_comparison (op : BinOp) (hl : EmitMeets lhs fs) (hr : EmitMeets rhs gs) :
    (comparison op lhs rhs).Meets (fs ++ gs) :=
  (meets_compare op hl hr).andThen fun _ ↦
    meets_freshCond.andThen fun _ ↦ meets_freshTemp.andThen fun _ ↦ meets_pure _

theorem meets_and (hl : EmitMeets lhs fs) (hr : EmitMeets rhs gs) :
    (Lower.and lhs rhs).Meets (fs ++ gs) :=
  (hl _).bind fun _ ↦ meets_freshCond.bind fun _ ↦ meets_freshTemp.bind fun _ ↦
    (hr _).andThen fun _ ↦ meets_pure _

theorem meets_or (hl : EmitMeets lhs fs) (hr : EmitMeets rhs gs) :
    (Lower.or lhs rhs).Meets (fs ++ gs) :=
  (hl _).bind fun _ ↦ meets_freshCond.bind fun _ ↦ meets_freshTemp.bind fun _ ↦
    (hr _).andThen fun _ ↦ meets_pure _

theorem meets_binary (op : BinOp) (hl : EmitMeets lhs fs) (hr : EmitMeets rhs gs) :
    (binary op lhs rhs).Meets (fs ++ gs) := by
  cases op with
  | and => exact meets_and hl hr
  | or => exact meets_or hl hr
  | lt | gt => exact meets_comparison _ hl hr
  | add | sub | mul | div | rem => exact meets_arithmetic _ hl hr

/-! ### Arrays -/

theorem meets_index (hbase : EmitMeets lhs fs) (hidx : EmitMeets rhs gs) :
    (index lhs rhs).Meets (fs ++ gs) :=
  (hbase _).bind fun _ ↦ (hidx _).andThen fun _ ↦ meets_intoTemp _ _ _

theorem meets_length (h : EmitMeets emit fs) : (length emit).Meets fs :=
  (h _).andThen fun _ ↦ meets_intoTemp _ _ _

theorem meets_newArray (elem : Ty) (h : EmitMeets emit fs) : (newArray elem emit).Meets fs :=
  (h _).andThen fun _ ↦ meets_intoTemp _ _ _

end

/-- The fault of an array with more elements than an index can count. -/
def lengthFaults (length : Nat) : List Fault :=
  if 2147483648 ≤ length then [.arrayTooLong] else []

theorem meets_storeElements (array : Operand) (elem : Ty) {elements : List Emit}
    {fss : List (List Fault)} (h : List.Forall₂ EmitMeets elements fss) :
    ∀ i, (storeElements array elem i elements).Meets fss.flatten := by
  induction h with
  | nil => exact fun _ ↦ meets_pure _
  | cons hhead htail ih =>
    intro i
    rw [List.flatten_cons]
    exact (hhead _).bind fun _ ↦ (ih (i + 1)).andThen fun _ ↦ meets_pure _

theorem meets_packArray (elem : Ty) {elements : List Emit} {fss : List (List Fault)}
    (h : List.Forall₂ EmitMeets elements fss) :
    (packArray elem elements).Meets (lengthFaults fss.length ++ fss.flatten) := by
  unfold packArray lengthFaults
  rw [h.length_eq]
  split
  · exact meets_throw _ _
  · exact meets_freshTemp.bind fun _ ↦
      (meets_storeElements _ _ h 0).andThen fun _ ↦ meets_pure _

/-! ### Arguments -/

theorem meets_inOrder {steps : List (Lower Lowered)} {fss : List (List Fault)}
    (h : List.Forall₂ Meets steps fss) : (inOrder steps).Meets fss.flatten := by
  induction h with
  | nil => exact meets_pure _
  | cons hhead htail ih =>
    rw [List.flatten_cons]
    exact hhead.bind fun _ ↦ ih.andThen fun _ ↦ meets_pure _

/-- The faults of arguments that have the given faults each. Those that are packed into an array
come after the others, and the array before what is in it. -/
def argumentFaults (callee : Option Signature) (fss : List (List Fault)) : List Fault :=
  match callee with
  | some sig =>
    if sig.hasVarargs && fss.length != sig.params.length then
      (fss.take sig.fixedArity).flatten ++
        (lengthFaults (fss.drop sig.fixedArity).length ++ (fss.drop sig.fixedArity).flatten)
    else fss.flatten
  | none => fss.flatten

theorem meets_ownArguments {sig : Signature} {args : List Emit} {fss : List (List Fault)}
    (hvar : sig.hasVarargs = true → ∃ elem, sig.varargsElement = some elem)
    (h : List.Forall₂ EmitMeets args fss) :
    (ownArguments sig args).Meets (argumentFaults (some sig) fss) := by
  rw [argumentFaults, ← h.length_eq]
  by_cases hpacks : sig.hasVarargs = true ∧ args.length ≠ sig.params.length
  · obtain ⟨elem, helem⟩ := hvar hpacks.1
    rw [ownArguments_eq_packed hpacks.1 hpacks.2 helem, if_pos (by simpa using hpacks)]
    refine (meets_inOrder (forall₂_eachFor _ (List.forall₂_take _ h))).bind fun _ ↦ ?_
    exact (meets_packArray elem (List.forall₂_drop _ h)).andThen fun _ ↦ meets_pure _
  · have hplain : sig.hasVarargs = false ∨ args.length = sig.params.length := by
      rw [not_and_or, Bool.not_eq_true, not_not] at hpacks
      exact hpacks
    rw [ownArguments_eq_inOrder hplain, if_neg (by simpa using hpacks)]
    exact meets_inOrder (forall₂_eachFor _ h)

end Lower

/-- The expression as the body of a statement at `pos`: a call on a receiver then reports the place
of the statement. -/
def Expr.reportedAt (pos : Position) : Expr → Expr
  | .callOn _ receiver method args => .callOn pos receiver method args
  | e => e

namespace Scope

variable {s : Scope} {pos : Position}

/-! ## Expressions -/

/-- The faults of a name whose value is used. -/
def variableFaults (s : Scope) (pos : Position) (name : String) : List Fault :=
  if s.lookup name = .unbound then [.undeclaredVariable name pos] else []

/-- Lowering finds a way to call a method on `receiver`: it is no value at all, or an object. -/
def classifies (s : Scope) (receiver : Expr) : Bool :=
  !s.isObject receiver || (s.receiverTy receiver).isClass

/-- The faults of a receiver, apart from those of its own expression. -/
def receiverFaults (s : Scope) (pos : Position) (receiver : Expr) (method : String) : List Fault :=
  if s.classifies receiver then [] else [.unclassifiableCall method pos]

theorem receiverFaults_eq_nil {receiver : Expr} {method : String} :
    s.receiverFaults pos receiver method = [] ↔ s.classifies receiver = true := by
  unfold receiverFaults
  split <;> simp [*]

/-- The method of the unit that lowering takes a call on `receiver` for. -/
def loweredCallee (s : Scope) (receiver : Expr) (method : String) : Option Signature :=
  if s.lowersToOwn receiver (s.receiverTy receiver) then s.table.method? method else none

mutual

/-- The faults of an expression, in the order in which lowering comes to them. -/
def faults (s : Scope) : Expr → List Fault
  | .lit _ _ | .this _ | .newObject _ _ => []
  | .var pos name => s.variableFaults pos name
  | .not _ operand => s.faults operand
  | .binary _ _ lhs rhs => s.faults lhs ++ s.faults rhs
  | .index _ base idx => s.faults base ++ s.faults idx
  | .array _ elements => Lower.lengthFaults elements.length ++ (s.faultsEach elements).flatten
  | .newArray _ _ size => s.faults size
  | .length _ base => s.faults base
  | .call _ method args => Lower.argumentFaults (s.table.method? method) (s.faultsEach args)
  | .callOn pos receiver method args =>
    s.faults receiver ++ s.receiverFaults pos receiver method ++
      Lower.argumentFaults (s.loweredCallee receiver method) (s.faultsEach args)

def faultsEach (s : Scope) : List Expr → List (List Fault)
  | [] => []
  | e :: es => s.faults e :: s.faultsEach es

end

theorem faultsEach_eq_map (s : Scope) (es : List Expr) : s.faultsEach es = es.map s.faults := by
  induction es with
  | nil => rfl
  | cons e es ih => rw [faultsEach, ih, List.map_cons]

theorem meets_lowerVar (s : Scope) (pos : Position) (name : String) :
    (s.lowerVar pos name).Meets (s.variableFaults pos name) := by
  unfold lowerVar variableFaults
  cases hlookup : s.lookup name with
  | stored storage symbol => cases storage <;> exact fun _ ↦ rfl
  | imported => exact fun _ ↦ rfl
  | unbound => exact Lower.meets_throw _ _

theorem meets_objectDispatch {receiver : Expr} {fs : List Fault}
    (hobject : s.isObject receiver = true)
    (hreceiver : Lower.EmitMeets (s.lowerExpr receiver) fs) (method : String) :
    (s.objectDispatch pos receiver (s.lowerExpr receiver) method).Meets
      (fs ++ s.receiverFaults pos receiver method) := by
  refine (hreceiver _).bind fun {_ object _} hy ↦ ?_
  have hclassifies : s.classifies receiver = object.operand.ty.isClass := by
    rw [classifies, hobject, receiverTy, ← lowerExpr_ty hy]
    rfl
  rw [receiverFaults, hclassifies]
  dsimp only
  cases object.operand.ty.isClass with
  | true => exact Lower.meets_pure _
  | false => exact Lower.meets_throw _ _

theorem meets_dispatch {receiver : Expr}
    (hreceiver : Lower.EmitMeets (s.lowerExpr receiver) (s.faults receiver)) (method : String) :
    (s.dispatch pos receiver (s.lowerExpr receiver) method).Meets
      (s.faults receiver ++ s.receiverFaults pos receiver method) := by
  rcases s.receiver_cases receiver with ⟨p, rfl⟩ | ⟨p, name, rfl, hlookup⟩ | hobject
  · exact Lower.meets_pure _
  · rw [dispatch, if_pos hlookup]
    simp only [faults, variableFaults, receiverFaults, classifies, isObject, hlookup]
    exact Lower.meets_pure _
  · rw [dispatch_eq_objectDispatch hobject]
    exact meets_objectDispatch hobject hreceiver method

theorem method?_of_loweredCallee {receiver : Expr} {method : String} {sig : Signature}
    (h : s.loweredCallee receiver method = some sig) : s.table.method? method = some sig := by
  unfold loweredCallee at h
  split at h
  · exact h
  · cases h

section

variable (hvarargs : ∀ {method sig}, s.table.method? method = some sig → sig.hasVarargs = true →
  ∃ elem, sig.varargsElement = some elem)
include hvarargs

/-- Arguments are lowered after the receiver, in a way that depends on who answers the call. -/
theorem meets_lowerCall {receiver : Lower Dispatch} {method : String} {callee : Option Signature}
    {args : List Expr} {fs : List Fault} (hreceiver : receiver.Meets fs)
    (hcallee : ∀ {c d c'}, receiver.Yields c d c' → d.callee = callee)
    (hown : ∀ {sig}, callee = some sig → s.table.method? method = some sig)
    (hargs : ∀ e ∈ args, Lower.EmitMeets (s.lowerExpr e) (s.faults e)) (retHint : Ty) :
    (s.lowerCall receiver method args (s.lowerEach args) retHint).Meets
      (fs ++ Lower.argumentFaults callee (s.faultsEach args)) := by
  refine hreceiver.bind fun hy ↦ ?_
  rw [hcallee hy, faultsEach_eq_map]
  cases callee with
  | some sig =>
    exact (Lower.meets_ownArguments (hvarargs (hown rfl)) (forall₂_lowerEach hargs)).andThen
      fun _ ↦ Lower.meets_pure _
  | none =>
    exact (Lower.meets_inOrder (forall₂_zipWith_lowerEach hargs)).andThen
      fun _ ↦ Lower.meets_pure _

theorem meets_call {method : String} {args : List Expr}
    (hargs : ∀ e ∈ args, Lower.EmitMeets (s.lowerExpr e) (s.faults e)) (retHint : Ty) :
    (s.lowerCall (pure (s.ownDispatch method)) method args (s.lowerEach args) retHint).Meets
      (Lower.argumentFaults (s.table.method? method) (s.faultsEach args)) := by
  refine meets_lowerCall hvarargs (Lower.meets_pure _) (fun hy ↦ ?_) id hargs retHint
  obtain ⟨rfl, -⟩ := Lower.yields_pure.mp hy
  exact callee_ownDispatch s method

theorem meets_callOn {receiver : Expr} {method : String} {args : List Expr}
    (hreceiver : Lower.EmitMeets (s.lowerExpr receiver) (s.faults receiver))
    (hargs : ∀ e ∈ args, Lower.EmitMeets (s.lowerExpr e) (s.faults e)) (retHint : Ty) :
    (s.lowerCall (s.dispatch pos receiver (s.lowerExpr receiver) method) method args
        (s.lowerEach args) retHint).Meets (s.faults (.callOn pos receiver method args)) :=
  meets_lowerCall hvarargs (meets_dispatch hreceiver method)
    (fun hy ↦ callee_of_dispatch hy lowerExpr_ty) method?_of_loweredCallee hargs retHint

/-- Lowering an expression stops at the first of its faults. -/
theorem meets_lowerExpr (e : Expr) : Lower.EmitMeets (s.lowerExpr e) (s.faults e) := by
  induction e using Expr.memberInduct with
  | lit pos value => exact fun _ ↦ Lower.meets_pure _
  | this pos => exact fun _ ↦ Lower.meets_pure _
  | var pos name => exact fun _ ↦ s.meets_lowerVar pos name
  | not pos operand ih => exact fun _ ↦ Lower.meets_not ih
  | binary pos op lhs rhs ihl ihr => exact fun _ ↦ Lower.meets_binary op ihl ihr
  | index pos base idx ihb ihi => exact fun _ ↦ Lower.meets_index ihb ihi
  | array pos elements ih =>
    intro hint
    have hpack := Lower.meets_packArray (s.literalElement elements) (forall₂_lowerEach ih)
    rw [List.length_map, ← faultsEach_eq_map] at hpack
    exact hpack
  | newArray pos elem size ih => exact fun _ ↦ Lower.meets_newArray elem.resolve ih
  | newObject pos className => exact fun _ _ ↦ rfl
  | length pos base ih => exact fun _ ↦ Lower.meets_length ih
  | call pos method args ih =>
    exact fun _ ↦ (meets_call hvarargs ih _).andThen fun _ ↦ Lower.meets_intoTemp _ _ _
  | callOn pos receiver method args ihr iha =>
    exact fun _ ↦ (meets_callOn hvarargs ihr iha _).andThen fun _ ↦ Lower.meets_intoTemp _ _ _

end

/-! ## Statements -/

/-- The faults of a name that is assigned to. -/
def targetFaults (s : Scope) (pos : Position) (name : String) : List Fault :=
  match s.lookup name with
  | .stored _ _ => []
  | .imported | .unbound => [.badTarget name pos]

/-- The faults of a name whose element is assigned to. -/
def arrayFaults (s : Scope) (pos : Position) (name : String) : List Fault :=
  s.variableFaults pos name ++
    if (s.operandTy (.var pos name) none).isArray then [] else [.notAnArray name pos]

mutual

/-- The faults of a statement, in the order in which lowering comes to them. Of a conditional the
second branch is lowered first. -/
def stmtFaults (s : Scope) : Stmt → List Fault
  | .block _ stmts => s.stmtsFaults stmts
  | .ifElse _ cond thenBranch elseBranch =>
    s.faults cond ++ (s.stmtFaults elseBranch ++ s.stmtFaults thenBranch)
  | .whileLoop _ cond body => s.faults cond ++ s.stmtFaults body
  | .eval pos expr => s.faults (expr.reportedAt pos)
  | .assign pos target value => s.targetFaults pos target ++ s.faults value
  | .store pos target index value => s.arrayFaults pos target ++ (s.faults index ++ s.faults value)
  | .ret _ value => value.elim [] s.faults

def stmtsFaults (s : Scope) : List Stmt → List Fault
  | [] => []
  | stmt :: stmts => s.stmtFaults stmt ++ s.stmtsFaults stmts

end

theorem stmtsFaults_eq_flatMap (s : Scope) (stmts : List Stmt) :
    s.stmtsFaults stmts = stmts.flatMap s.stmtFaults := by
  induction stmts with
  | nil => rfl
  | cons stmt stmts ih => rw [stmtsFaults, ih, List.flatMap_cons]

theorem meets_lowerStmts_of {stmts : List Stmt}
    (h : ∀ stmt ∈ stmts, (s.lowerStmt stmt).Meets (s.stmtFaults stmt)) :
    (s.lowerStmts stmts).Meets (s.stmtsFaults stmts) := by
  induction stmts with
  | nil => exact Lower.meets_pure _
  | cons stmt stmts ih =>
    obtain ⟨hhead, htail⟩ := List.forall_mem_cons.mp h
    exact hhead.bind fun _ ↦ (ih htail).andThen fun _ ↦ Lower.meets_pure _

section

variable (hvarargs : ∀ {method sig}, s.table.method? method = some sig → sig.hasVarargs = true →
  ∃ elem, sig.varargsElement = some elem)
include hvarargs

theorem meets_lowerCond (cond : Expr) : (s.lowerCond cond).Meets (s.faults cond) := by
  rcases s.lowerCond_cases cond with ⟨pos, op, lhs, rhs, rfl, -, heq⟩ | heq
  · rw [heq]
    exact Lower.meets_compare op (meets_lowerExpr hvarargs lhs) (meets_lowerExpr hvarargs rhs)
  · rw [heq]
    exact (meets_lowerExpr hvarargs cond _).andThen fun _ ↦ Lower.meets_pure _

theorem meets_lowerEval (pos : Position) (e : Expr) :
    (s.lowerEval pos e).Meets (s.faults (e.reportedAt pos)) := by
  have hargs : ∀ args : List Expr, ∀ e ∈ args, Lower.EmitMeets (s.lowerExpr e) (s.faults e) :=
    fun _ e _ ↦ meets_lowerExpr hvarargs e
  cases e with
  | call p method args =>
    exact (meets_call hvarargs (hargs args) _).andThen fun _ ↦ Lower.meets_pure _
  | callOn p receiver method args =>
    exact (meets_callOn hvarargs (meets_lowerExpr hvarargs receiver) (hargs args) _).andThen
      fun _ ↦ Lower.meets_pure _
  | _ => exact (meets_lowerExpr hvarargs _ _).andThen fun _ ↦ Lower.meets_pure _

theorem meets_lowerAssign (pos : Position) (target : String) (value : Expr) :
    (s.lowerAssign pos target value).Meets (s.targetFaults pos target ++ s.faults value) := by
  unfold lowerAssign targetFaults
  cases hlookup : s.lookup target with
  | stored storage symbol =>
    exact (meets_lowerExpr hvarargs value _).andThen fun _ ↦ Lower.meets_pure _
  | imported | unbound => exact Lower.meets_throw _ _

theorem meets_lowerStore (pos : Position) (target : String) (index value : Expr) :
    (s.lowerStore pos target index value).Meets
      (s.arrayFaults pos target ++ (s.faults index ++ s.faults value)) := by
  rw [arrayFaults, List.append_assoc]
  refine (s.meets_lowerVar pos target).bind fun {c array c'} hy ↦ ?_
  have hty : array.operand.ty = s.operandTy (.var pos target) none := lowerExpr_ty hy
  rw [← hty]
  dsimp only
  cases array.operand.ty.isArray with
  | false => exact Lower.meets_throw _ _
  | true =>
    exact (meets_lowerExpr hvarargs index _).bind fun _ ↦
      (meets_lowerExpr hvarargs value _).andThen fun _ ↦ Lower.meets_pure _

theorem meets_lowerReturn (value : Option Expr) :
    (s.lowerReturn value).Meets (value.elim [] s.faults) := by
  cases value with
  | none => exact Lower.meets_pure _
  | some value => exact (meets_lowerExpr hvarargs value _).andThen fun _ ↦ Lower.meets_pure _

/-- Lowering a statement stops at the first of its faults. -/
theorem meets_lowerStmt (stmt : Stmt) : (s.lowerStmt stmt).Meets (s.stmtFaults stmt) := by
  induction stmt using Stmt.memberInduct with
  | block pos stmts ih => exact meets_lowerStmts_of ih
  | ifElse pos cond thenBranch elseBranch ihThen ihElse =>
    exact Lower.meets_freshIf.bind fun _ ↦ (meets_lowerCond hvarargs cond).bind fun _ ↦
      ihElse.bind fun _ ↦ ihThen.andThen fun _ ↦ Lower.meets_pure _
  | whileLoop pos cond body ihBody =>
    exact Lower.meets_freshWhile.bind fun _ ↦ (meets_lowerCond hvarargs cond).bind fun _ ↦
      ihBody.andThen fun _ ↦ Lower.meets_pure _
  | eval pos expr => exact meets_lowerEval hvarargs pos expr
  | assign pos target value => exact meets_lowerAssign hvarargs pos target value
  | store pos target index value => exact meets_lowerStore hvarargs pos target index value
  | ret pos value => exact meets_lowerReturn hvarargs value

end

end Scope

/-! ## Units -/

namespace Program

/-- The faults of a unit, method by method. -/
def faults (p : Program) : List Fault :=
  p.decl.methods.flatMap fun m ↦ Scope.stmtsFaults ⟨p.table, m.signature⟩ m.body

theorem meets_lowerMethods {t : Table} {ms : List MethodDecl}
    (h : ∀ m ∈ ms, (Scope.lowerStmts ⟨t, m.signature⟩ m.body).Meets
      (Scope.stmtsFaults ⟨t, m.signature⟩ m.body)) :
    (t.lowerMethods ms (ms.map MethodDecl.signature)).Meets
      (ms.flatMap fun m ↦ Scope.stmtsFaults ⟨t, m.signature⟩ m.body) := by
  induction ms with
  | nil => exact Lower.meets_pure _
  | cons m ms ih =>
    obtain ⟨hhead, htail⟩ := List.forall_mem_cons.mp h
    rw [List.flatMap_cons]
    exact (hhead.andThen fun _ ↦ Lower.meets_pure _).bind fun _ ↦
      (ih htail).andThen fun _ ↦ Lower.meets_pure _

/-- Lowering a unit stops at the first of its faults. -/
theorem meets_lowerProgram (p : Program) : (p.table.lowerProgram p).Meets p.faults := by
  refine (meets_lowerMethods fun m _ ↦ ?_).andThen fun _ ↦ Lower.meets_pure _
  exact Scope.meets_lowerStmts_of fun stmt _ ↦ Scope.meets_lowerStmt varargsElement_isSome stmt

end Program

end Tricode
