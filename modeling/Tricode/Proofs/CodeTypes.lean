import Tricode.Compile
import Tricode.Proofs.Faults

/-!
# Well-typed code

Every operand of three-address code carries a type, and nobody who reads the code infers one. So
it matters that the types agree with what is done to the operands: arithmetic is on integers,
jumps and negations are on truth values, elements are those of arrays, and what is stored fits
its slot. `Instruction.wellTyped` is that rule, and it can be run.

Whether the code of a tree obeys it is a matter of the tree alone, like the faults of the tree.
`Scope.uses` lists where the value of an expression is put to a use that asks something of its
type, in the order of the code. The code is well typed just when every use gets what it asks for,
`wellTyped_lowerStmts`. Nothing is said yet about trees that were checked.
-/

namespace Tricode

@[simp] theorem Ty.assignable_self (env : Ty.ClassEnv) (ty : Ty) :
    Ty.assignable env ty ty = true := by
  simp [Ty.assignable]

@[simp] theorem Operand.ty_int (n : Int32) : (Operand.int n).ty = .int := rfl

@[simp] theorem Operand.ty_bool (b : Bool) : (Operand.bool b).ty = .boolean := rfl

/-! ## Code -/

/-- A length is that of an array. Other calls are free in what they are made on. -/
def Call.wellTyped (c : Call) : Bool := c.kind != .arrayLength || c.receiver.ty.isArray

/-- The operands allow the operation, and a value that is copied fits the slot it goes to. -/
def Rvalue.wellTyped (env : Ty.ClassEnv) (slot : Ty) : Rvalue → Bool
  | use value => Ty.assignable env slot value.ty
  | binary op left right => left.ty == op.operandTy && right.ty == op.operandTy
  | not value => value.ty == .boolean
  | call c => c.wellTyped
  | getField _ _ => true
  | element array index => array.ty.isArray && index.ty == .int
  | newArray _ size => size.ty == .int

/-- A truth value is tested, or integers are compared. -/
def Cond.wellTyped : Cond → Bool
  | truthy value => value.ty == .boolean
  | compare _ left right => left.ty == .int && right.ty == .int

/-- An element is found by an integer in an array. -/
def Place.wellTyped : Place → Bool
  | element array index _ => array.ty.isArray && index.ty == .int
  | _ => true

/-- The types of an instruction agree, in a method whose result has the type `result`. -/
def Instruction.wellTyped (env : Ty.ClassEnv) (result : Ty) : Instruction → Bool
  | assign dest _ value => dest.wellTyped && value.wellTyped env dest.ty
  | call c => c.wellTyped
  | putField _ slot value => Ty.assignable env slot value.ty
  | branch cond _ => cond.wellTyped
  | ret (some value) _ => Ty.assignable env result value.ty
  | ret none _ | goto _ | label _ => true

namespace Code

/-- The types of every instruction agree. -/
def wellTyped (env : Ty.ClassEnv) (result : Ty) (code : Code) : Bool :=
  code.all fun i ↦ i.wellTyped env result

section

variable (env : Ty.ClassEnv) (result : Ty)

@[simp] theorem wellTyped_nil : Code.wellTyped env result [] = true := rfl

@[simp] theorem wellTyped_cons (i : Instruction) (code : Code) :
    Code.wellTyped env result (i :: code) =
      (i.wellTyped env result && code.wellTyped env result) := rfl

@[simp] theorem wellTyped_append (xs ys : Code) :
    Code.wellTyped env result (xs ++ ys) = (xs.wellTyped env result && ys.wellTyped env result) :=
  List.all_append

@[simp] theorem wellTyped_closed (code : Code) :
    code.closed.wellTyped env result = code.wellTyped env result := by
  unfold closed
  split
  · rfl
  · rw [wellTyped_append]
    exact Bool.and_true _

end

end Code

/-- The types in the body agree, with the result type of the method. -/
def MethodCode.wellTyped (env : Ty.ClassEnv) (m : MethodCode) : Bool :=
  m.body.wellTyped env m.returnType

/-- The types in every method agree. -/
def ClassCode.wellTyped (env : Ty.ClassEnv) (c : ClassCode) : Bool :=
  c.methods.all fun m ↦ m.wellTyped env

/-! ### Single instructions -/

namespace Instruction

variable (env : Ty.ClassEnv) (result : Ty)

@[simp] theorem wellTyped_goto (l : Label) : (goto l).wellTyped env result = true := rfl

@[simp] theorem wellTyped_label (l : Label) : (label l).wellTyped env result = true := rfl

@[simp] theorem wellTyped_branch (cond : Cond) (l : Label) :
    (branch cond l).wellTyped env result = cond.wellTyped := rfl

@[simp] theorem wellTyped_assign_temp (id : Nat) (slot ty : Ty) (value : Rvalue) :
    (assign (.temp id slot) ty value).wellTyped env result = value.wellTyped env slot := rfl

@[simp] theorem wellTyped_setBool (id : Nat) (value : Operand) :
    (Lower.setBool id value).wellTyped env result = Ty.assignable env .boolean value.ty := rfl

end Instruction

/-! ## Uses -/

/-- What the use of a value asks of its type. -/
inductive Need where
  | exactly (ty : Ty)
  | anArray
  /-- A type whose values may be stored in the slot. -/
  | fitting (slot : Ty)
  deriving DecidableEq, Repr

namespace Need

/-- The type is one that the use allows. -/
def met (env : Ty.ClassEnv) : Need → Ty → Bool
  | exactly expected, ty => ty == expected
  | anArray, ty => ty.isArray
  | fitting slot, ty => Ty.assignable env slot ty

/-- The type that is expected of an expression so used. -/
def wanted : Need → Ty
  | exactly ty => ty
  | anArray => .intArray
  | fitting slot => slot

end Need

/-- An expression whose value is put to some use. -/
structure Use where
  need : Need
  expr : Expr

namespace Scope

/-- The operand of the expression has a type that allows the use. -/
def fits (s : Scope) (u : Use) : Bool :=
  u.need.met s.table.env (s.operandTy u.expr (some u.need.wanted))

/-! ### In expressions -/

/-- A truth value on the right of a logical operator is copied, the others are computed with. -/
def operatorUses (op : BinOp) (lhs rhs : Expr) (left right : List Use) : List Use :=
  match op.opClass with
  | .logical => left ++ ⟨.exactly .boolean, lhs⟩ :: (right ++ [⟨.fitting .boolean, rhs⟩])
  | .arithmetic | .relational => left ++ right ++ [⟨.exactly .int, lhs⟩, ⟨.exactly .int, rhs⟩]

/-- Expressions stored one after another in an array of `elem`, each after its own uses. -/
def storedUses (elem : Ty) (es : List Expr) (own : List (List Use)) : List Use :=
  (List.zipWith (fun own e ↦ own ++ [⟨.fitting elem, e⟩]) own es).flatten

/-- Arguments are used as such, unless they are packed into an array. -/
def argumentUses (callee : Option Signature) (args : List Expr) (own : List (List Use)) :
    List Use :=
  match callee with
  | none => own.flatten
  | some sig =>
    match sig.packs args.length with
    | none => own.flatten
    | some elem =>
      (own.take sig.fixedArity).flatten ++
        storedUses elem (args.drop sig.fixedArity) (own.drop sig.fixedArity)

mutual

/-- The uses within an expression, in the order of its code. -/
def uses (s : Scope) : Expr → List Use
  | .lit _ _ | .this _ | .var _ _ | .newObject _ _ => []
  | .not _ operand => s.uses operand ++ [⟨.exactly .boolean, operand⟩]
  | .binary _ op lhs rhs => operatorUses op lhs rhs (s.uses lhs) (s.uses rhs)
  | .index _ base idx => s.uses base ++ s.uses idx ++ [⟨.anArray, base⟩, ⟨.exactly .int, idx⟩]
  | .array _ elements => storedUses (s.literalElement elements) elements (s.usesEach elements)
  | .newArray _ _ size => s.uses size ++ [⟨.exactly .int, size⟩]
  | .length _ base => s.uses base ++ [⟨.anArray, base⟩]
  | .call _ method args => argumentUses (s.table.method? method) args (s.usesEach args)
  | .callOn _ receiver method args =>
    s.uses receiver ++ argumentUses (s.loweredCallee receiver method) args (s.usesEach args)

def usesEach (s : Scope) : List Expr → List (List Use)
  | [] => []
  | e :: es => s.uses e :: s.usesEach es

end

theorem usesEach_eq_map (s : Scope) (es : List Expr) : s.usesEach es = es.map s.uses := by
  induction es with
  | nil => rfl
  | cons e es ih => rw [usesEach, ih, List.map_cons]

theorem usesEach_drop (s : Scope) (es : List Expr) (n : Nat) :
    (s.usesEach es).drop n = s.usesEach (es.drop n) := by
  rw [usesEach_eq_map, usesEach_eq_map, List.map_drop]

/-! ### In statements -/

/-- A condition has to be a truth value. One that compares is so anyway. -/
def conditionUses (s : Scope) (cond : Expr) : List Use :=
  s.uses cond ++ [⟨.exactly .boolean, cond⟩]

/-- The type of the storage behind a name. -/
def storageTy (s : Scope) (name : String) : Ty := s.operandTy (.var .origin name) none

theorem storageTy_of_lookup {s : Scope} {name : String} {storage : Storage} {symbol : Symbol}
    (h : s.lookup name = .stored storage symbol) : s.storageTy name = symbol.ty := by
  rw [storageTy, operandTy, h]

mutual

/-- The uses within a statement. Of a conditional the second branch comes first. -/
def stmtUses (s : Scope) : Stmt → List Use
  | .block _ stmts => s.stmtsUses stmts
  | .ifElse _ cond thenBranch elseBranch =>
    s.conditionUses cond ++ (s.stmtUses elseBranch ++ s.stmtUses thenBranch)
  | .whileLoop _ cond body => s.conditionUses cond ++ s.stmtUses body
  | .eval _ expr => s.uses expr
  | .assign _ target value => s.uses value ++ [⟨.fitting (s.storageTy target), value⟩]
  | .store _ target index value =>
    s.uses index ++ s.uses value ++
      [⟨.exactly .int, index⟩, ⟨.fitting (s.storageTy target).element, value⟩]
  | .ret _ none => []
  | .ret _ (some value) => s.uses value ++ [⟨.fitting s.method.returnType, value⟩]

def stmtsUses (s : Scope) : List Stmt → List Use
  | [] => []
  | stmt :: stmts => s.stmtUses stmt ++ s.stmtsUses stmts

end

theorem stmtsUses_eq_flatMap (s : Scope) (stmts : List Stmt) :
    s.stmtsUses stmts = stmts.flatMap s.stmtUses := by
  induction stmts with
  | nil => rfl
  | cons stmt stmts ih => rw [stmtsUses, ih, List.flatMap_cons]

/-! ## The code of an expression -/

variable {s : Scope} {result : Ty} {c c' : Counters} {l : Lowered}

/-- The uses decide whether the code of a step is well typed. -/
def Settles (s : Scope) (result : Ty) (x : Lower Lowered) (us : List Use) : Prop :=
  ∀ {c l c'}, x.Yields c l c' → l.code.wellTyped s.table.env result = us.all s.fits

/-- An expression is lowered for the type that its use wants. -/
theorem met_operand {e : Expr} (need : Need)
    (hy : (s.lowerExpr e (some need.wanted)).Yields c l c') :
    need.met s.table.env l.operand.ty = s.fits ⟨need, e⟩ := by
  rw [fits, lowerExpr_ty hy]

section

variable {lhs rhs : Expr} (hl : ∀ hint, s.Settles result (s.lowerExpr lhs hint) (s.uses lhs))
  (hr : ∀ hint, s.Settles result (s.lowerExpr rhs hint) (s.uses rhs))
include hl hr

theorem wellTyped_compare {op : BinOp} (hop : op.opClass = .relational) {cond : Cond} {code : Code}
    (hy : (Lower.compare op (s.lowerExpr lhs) (s.lowerExpr rhs)).Yields c (cond, code) c') :
    (code.wellTyped s.table.env result && cond.wellTyped) =
      (operatorUses op lhs rhs (s.uses lhs) (s.uses rhs)).all s.fits := by
  obtain ⟨left, c₁, right, hleft, hright, rfl, rfl⟩ := Lower.yields_compare hy
  have hlint : (left.operand.ty == .int) = _ := met_operand (.exactly .int) hleft
  have hrint : (right.operand.ty == .int) = _ := met_operand (.exactly .int) hright
  simp [operatorUses, hop, Cond.wellTyped, hl _ hleft, hr _ hright, hlint, hrint, Bool.and_assoc]

/-- Of the code around the operands only the test of the left one and the copy of the right one
ask for a type. -/
theorem settles_binary (op : BinOp) :
    s.Settles result (Lower.binary op (s.lowerExpr lhs) (s.lowerExpr rhs))
      (operatorUses op lhs rhs (s.uses lhs) (s.uses rhs)) := by
  intro c l c' hy
  cases op with
  | and =>
    obtain ⟨left, c₁, right, hleft, hright, rfl⟩ := Lower.yields_and hy
    have hlbool : (left.operand.ty == .boolean) = _ := met_operand (.exactly .boolean) hleft
    have hrbool : Ty.assignable _ .boolean right.operand.ty = _ :=
      met_operand (.fitting .boolean) hright
    simp [operatorUses, BinOp.opClass, Cond.wellTyped, hl _ hleft, hr _ hright, hlbool, hrbool]
  | or =>
    obtain ⟨left, c₁, right, hleft, hright, rfl⟩ := Lower.yields_or hy
    have hlbool : (left.operand.ty == .boolean) = _ := met_operand (.exactly .boolean) hleft
    have hrbool : Ty.assignable _ .boolean right.operand.ty = _ :=
      met_operand (.fitting .boolean) hright
    simp [operatorUses, BinOp.opClass, Cond.wellTyped, hl _ hleft, hr _ hright, hlbool, hrbool]
  | lt | gt =>
    obtain ⟨cond, code, c₁, hcompare, rfl, -⟩ := Lower.yields_comparison hy
    simpa using wellTyped_compare hl hr rfl hcompare
  | add | sub | mul | div | rem =>
    obtain ⟨left, c₁, right, c₂, hleft, hright, rfl, -⟩ := Lower.yields_arithmetic hy
    have hlint : (left.operand.ty == .int) = _ := met_operand (.exactly .int) hleft
    have hrint : (right.operand.ty == .int) = _ := met_operand (.exactly .int) hright
    simp [operatorUses, BinOp.opClass, Rvalue.wellTyped, BinOp.operandTy, hl _ hleft, hr _ hright,
      hlint, hrint]

end

/-! ### Lists of expressions -/

theorem wellTyped_inOrder {steps : List (Lower Lowered)} {uss : List (List Use)}
    (h : List.Forall₂ (s.Settles result) steps uss) {operands : List Operand} {code : Code}
    (hy : (Lower.inOrder steps).Yields c (operands, code) c') :
    code.wellTyped s.table.env result = uss.flatten.all s.fits := by
  induction h generalizing c operands code with
  | nil =>
    rw [Lower.inOrder, Lower.yields_pure, Prod.mk.injEq] at hy
    obtain ⟨⟨-, rfl⟩, -⟩ := hy
    rfl
  | cons hhead htail ih =>
    obtain ⟨first, c₁, rest, restCode, hfirst, hrest, -, rfl⟩ := Lower.yields_inOrder_cons hy
    rw [Code.wellTyped_append, hhead hfirst, ih hrest, List.flatten_cons, List.all_append]

section

variable {es : List Expr} (h : ∀ e ∈ es, ∀ hint, s.Settles result (s.lowerExpr e hint) (s.uses e))
include h

theorem wellTyped_storeElements {array : Operand} (harray : array.ty.isArray = true) {elem : Ty}
    {i : Nat} {code : Code}
    (hy : (Lower.storeElements array elem i (s.lowerEach es)).Yields c code c') :
    code.wellTyped s.table.env result = (storedUses elem es (s.usesEach es)).all s.fits := by
  induction es generalizing c code i with
  | nil =>
    obtain ⟨rfl, -⟩ := Lower.yields_pure.mp hy
    rfl
  | cons e es ih =>
    obtain ⟨hhead, htail⟩ := List.forall_mem_cons.mp h
    obtain ⟨value, c₁, rest, hvalue, hrest, rfl⟩ := Lower.yields_storeElements_cons hy
    -- The array is one and its index is a literal, so the value alone may be wrong.
    have hslot : Ty.assignable _ elem value.operand.ty = _ := met_operand (.fitting elem) hvalue
    have hstored : storedUses elem (e :: es) (s.usesEach (e :: es)) =
        (s.uses e ++ [⟨.fitting elem, e⟩]) ++ storedUses elem es (s.usesEach es) := rfl
    rw [hstored, Code.wellTyped_append, Code.wellTyped_cons, hhead _ hvalue, ih htail hrest]
    simp [Instruction.wellTyped, Rvalue.wellTyped, Place.wellTyped, Place.ty, harray, hslot]

theorem settles_packArray (elem : Ty) :
    s.Settles result (Lower.packArray elem (s.lowerEach es))
      (storedUses elem es (s.usesEach es)) := by
  intro c l c' hy
  obtain ⟨-, stores, hstores, rfl⟩ := Lower.yields_packArray hy
  rw [Code.wellTyped_cons, wellTyped_storeElements h rfl hstores]
  rfl

theorem forall₂_settles :
    List.Forall₂ (fun emit us ↦ ∀ hint, s.Settles result (emit hint) us) (s.lowerEach es)
      (s.usesEach es) := by
  rw [usesEach_eq_map]
  exact forall₂_lowerEach h

end

/-! ### Calls -/

theorem wellTyped_ownArguments {sig : Signature} {args : List Expr} {operands : List Operand}
    {code : Code} (hvar : sig.hasVarargs = true → ∃ elem, sig.varargsElement = some elem)
    (h : ∀ e ∈ args, ∀ hint, s.Settles result (s.lowerExpr e hint) (s.uses e))
    (hy : (Lower.ownArguments sig (s.lowerEach args)).Yields c (operands, code) c') :
    code.wellTyped s.table.env result =
      (argumentUses (some sig) args (s.usesEach args)).all s.fits := by
  have hlen : (s.lowerEach args).length = args.length := by
    rw [lowerEach_eq_map, List.length_map]
  rw [argumentUses]
  cases hpacks : sig.packs args.length with
  | none =>
    have hplain := Signature.packs_eq_none hvar hpacks
    rw [← hlen] at hplain
    rw [Lower.ownArguments_eq_inOrder hplain] at hy
    exact wellTyped_inOrder (Lower.forall₂_eachFor _ (forall₂_settles h)) hy
  | some elem =>
    obtain ⟨hcount, helem⟩ := Signature.packs_eq_some.mp hpacks
    rw [← hlen] at hcount
    have hhas := Signature.hasVarargs_of_varargsElement helem
    obtain ⟨fixed, fixedCode, c₁, packed, hfixed, hpacked, -, rfl⟩ :=
      Lower.yields_ownArguments_packed hy hhas hcount helem
    have hdrop : (s.lowerEach args).drop sig.fixedArity =
        s.lowerEach (args.drop sig.fixedArity) := by
      rw [lowerEach_eq_map, lowerEach_eq_map, List.map_drop]
    rw [hdrop] at hpacked
    have hrest := settles_packArray (fun e he ↦ h e (List.mem_of_mem_drop he)) elem hpacked
    have hfirst := wellTyped_inOrder
      (Lower.forall₂_eachFor _ (List.forall₂_take _ (forall₂_settles h))) hfixed
    dsimp only
    rw [Code.wellTyped_append, hfirst, hrest, usesEach_drop, List.all_append]

/-- The uses decide on the code that finds the object of a call, and the call is no length. -/
def SettlesDispatch (s : Scope) (result : Ty) (x : Lower Dispatch) (us : List Use)
    (callee : Option Signature) : Prop :=
  ∀ {c d c'}, x.Yields c d c' → d.kind ≠ .arrayLength ∧ d.callee = callee ∧
    d.code.wellTyped s.table.env result = us.all s.fits

theorem settlesDispatch_own (method : String) :
    s.SettlesDispatch result (pure (s.ownDispatch method)) [] (s.table.method? method) := by
  intro c d c' hy
  obtain ⟨rfl, -⟩ := Lower.yields_pure.mp hy
  refine ⟨?_, callee_ownDispatch s method, ?_⟩ <;>
    · unfold ownDispatch
      split <;> split <;> simp

theorem settlesDispatch_receiver {receiver : Expr}
    (h : ∀ hint, s.Settles result (s.lowerExpr receiver hint) (s.uses receiver))
    (pos : Position) (method : String) :
    s.SettlesDispatch result (s.dispatch pos receiver (s.lowerExpr receiver) method)
      (s.uses receiver) (s.loweredCallee receiver method) := by
  intro c d c' hy
  have hcallee := callee_of_dispatch hy lowerExpr_ty
  rcases s.receiver_cases receiver with ⟨p, rfl⟩ | ⟨p, name, rfl, hlookup⟩ | hobject
  · have hown : s.SettlesDispatch result _ [] _ := settlesDispatch_own method
    obtain ⟨hkind, -, hcode⟩ := hown hy
    exact ⟨hkind, hcallee, hcode⟩
  · rw [dispatch, if_pos hlookup] at hy
    obtain ⟨rfl, -⟩ := Lower.yields_pure.mp hy
    exact ⟨by simp, hcallee, rfl⟩
  · rw [dispatch_eq_objectDispatch hobject] at hy
    obtain ⟨object, hemit, -, rfl⟩ := yields_objectDispatch hy
    exact ⟨by simp, hcallee, h _ hemit⟩

section

variable (hvarargs : ∀ {method sig}, s.table.method? method = some sig → sig.hasVarargs = true →
  ∃ elem, sig.varargsElement = some elem)
include hvarargs

theorem wellTyped_lowerCall {receiver : Lower Dispatch} {method : String} {us : List Use}
    {callee : Option Signature} {args : List Expr} {retHint : Ty} {call : Call} {code : Code}
    (hreceiver : s.SettlesDispatch result receiver us callee)
    (hown : ∀ {sig}, callee = some sig → s.table.method? method = some sig)
    (hargs : ∀ e ∈ args, ∀ hint, s.Settles result (s.lowerExpr e hint) (s.uses e))
    (hy : (s.lowerCall receiver method args (s.lowerEach args) retHint).Yields c (call, code) c') :
    call.wellTyped = true ∧ code.wellTyped s.table.env result =
      (us ++ argumentUses callee args (s.usesEach args)).all s.fits := by
  obtain ⟨d, c₁, operands, argCode, hd, harguments, rfl, rfl⟩ := yields_lowerCall hy
  obtain ⟨hkind, hcallee, hcode⟩ := hreceiver hd
  refine ⟨by simp [Call.wellTyped, hkind], ?_⟩
  rw [Code.wellTyped_append, hcode, List.all_append]
  congr 1
  rw [hcallee] at harguments
  cases callee with
  | some sig => exact wellTyped_ownArguments (hvarargs (hown rfl)) hargs harguments
  | none =>
    rw [usesEach_eq_map]
    exact wellTyped_inOrder (forall₂_zipWith_lowerEach hargs) harguments

theorem settles_lowerCallValue {receiver : Lower Dispatch} {method : String} {us : List Use}
    {callee : Option Signature} {args : List Expr} {hint : Option Ty}
    (hreceiver : s.SettlesDispatch result receiver us callee)
    (hown : ∀ {sig}, callee = some sig → s.table.method? method = some sig)
    (hargs : ∀ e ∈ args, ∀ hint, s.Settles result (s.lowerExpr e hint) (s.uses e)) :
    s.Settles result (s.lowerCallValue receiver method args (s.lowerEach args) hint)
      (us ++ argumentUses callee args (s.usesEach args)) := by
  intro c l c' hy
  obtain ⟨call, code, c₁, hcall, rfl, -⟩ := yields_lowerCallValue hy
  obtain ⟨hwell, hcode⟩ := wellTyped_lowerCall hvarargs hreceiver hown hargs hcall
  simp [Rvalue.wellTyped, hwell, hcode]

/-- The uses within an expression decide whether its code is well typed. -/
theorem settles_lowerExpr (e : Expr) :
    ∀ hint, s.Settles result (s.lowerExpr e hint) (s.uses e) := by
  induction e using Expr.memberInduct with
  | lit pos value =>
    intro hint c l c' hy
    obtain ⟨rfl, -⟩ := Lower.yields_pure.mp hy
    rfl
  | this pos =>
    intro hint c l c' hy
    obtain ⟨rfl, -⟩ := Lower.yields_pure.mp hy
    rfl
  | var pos name =>
    intro hint c l c' hy
    rcases yields_lowerVar hy with ⟨symbol, -, rfl, -⟩ | ⟨storage, symbol, -, -, rfl, -⟩ |
      ⟨-, rfl, -⟩ <;> rfl
  | not pos operand ih =>
    intro hint c l c' hy
    obtain ⟨inner, c₁, hinner, rfl, -⟩ := Lower.yields_not hy
    have hbool : (inner.operand.ty == .boolean) = _ := met_operand (.exactly .boolean) hinner
    simp [uses, Rvalue.wellTyped, ih _ hinner, hbool]
  | binary pos op lhs rhs ihl ihr => exact fun _ ↦ settles_binary ihl ihr op
  | index pos base idx ihb ihi =>
    intro hint c l c' hy
    obtain ⟨array, c₁, i, c₂, harray, hi, rfl, -⟩ := Lower.yields_index hy
    have hbase : array.operand.ty.isArray = _ := met_operand .anArray harray
    have hint : (i.operand.ty == .int) = _ := met_operand (.exactly .int) hi
    simp [uses, Rvalue.wellTyped, ihb _ harray, ihi _ hi, hbase, hint]
  | array pos elements ih => exact fun _ ↦ settles_packArray ih _
  | newArray pos elem size ih =>
    intro hint c l c' hy
    obtain ⟨n, c₁, hn, rfl, -⟩ := Lower.yields_newArray hy
    have hsize : (n.operand.ty == .int) = _ := met_operand (.exactly .int) hn
    simp [uses, Rvalue.wellTyped, ih _ hn, hsize]
  | newObject pos className =>
    intro hint c l c' hy
    obtain ⟨rfl, -⟩ := Lower.yields_construct hy
    rfl
  | length pos base ih =>
    intro hint c l c' hy
    obtain ⟨array, c₁, harray, rfl, -⟩ := Lower.yields_length hy
    have hbase : array.operand.ty.isArray = _ := met_operand .anArray harray
    simp [uses, Rvalue.wellTyped, Call.wellTyped, ih _ harray, hbase]
  | call pos method args ih =>
    exact fun _ ↦ settles_lowerCallValue hvarargs (settlesDispatch_own method) id ih
  | callOn pos receiver method args ihr iha =>
    exact fun _ ↦ settles_lowerCallValue hvarargs (settlesDispatch_receiver ihr pos method)
      method?_of_loweredCallee iha

/-! ## The code of a statement -/

theorem wellTyped_lowerCond {cond : Expr} {jump : Cond} {code : Code}
    (hy : (s.lowerCond cond).Yields c (jump, code) c') :
    (code.wellTyped s.table.env result && jump.wellTyped) =
      (s.conditionUses cond).all s.fits := by
  rw [conditionUses, List.all_append]
  rcases s.lowerCond_cases cond with ⟨pos, op, lhs, rhs, rfl, hop, heq⟩ | heq
  · -- What a comparison is lowered to has the type of a truth value, whatever its operands are.
    have hbool : s.fits ⟨.exactly .boolean, .binary pos op lhs rhs⟩ = true := by
      simp [fits, Need.met, operandTy, BinOp.resultTy, hop]
    rw [heq] at hy
    rw [wellTyped_compare (settles_lowerExpr hvarargs lhs) (settles_lowerExpr hvarargs rhs) hop hy,
      List.all_cons, hbool, uses]
    simp
  · rw [heq] at hy
    obtain ⟨value, hvalue, rfl, rfl⟩ := yields_lowerTruthy hy
    have hbool : (value.operand.ty == .boolean) = _ := met_operand (.exactly .boolean) hvalue
    simp [Cond.wellTyped, settles_lowerExpr hvarargs cond _ hvalue, hbool]

theorem wellTyped_lowerEval {pos : Position} {e : Expr} {code : Code}
    (hy : (s.lowerEval pos e).Yields c code c') :
    code.wellTyped s.table.env result = (s.uses e).all s.fits := by
  have hsettles : ∀ e hint, s.Settles result (s.lowerExpr e hint) (s.uses e) :=
    settles_lowerExpr hvarargs
  rcases yields_lowerEval hy with ⟨p, method, args, call, before, rfl, hcall, rfl⟩ |
    ⟨p, receiver, method, args, call, before, rfl, hcall, rfl⟩ | ⟨value, hvalue, rfl⟩
  · obtain ⟨hwell, hcode⟩ := wellTyped_lowerCall hvarargs
      (settlesDispatch_own method) id (fun e _ ↦ hsettles e) hcall
    simp [Instruction.wellTyped, hwell, hcode, uses]
  · obtain ⟨hwell, hcode⟩ := wellTyped_lowerCall hvarargs
      (settlesDispatch_receiver (hsettles receiver) pos method) method?_of_loweredCallee
      (fun e _ ↦ hsettles e) hcall
    simp [Instruction.wellTyped, hwell, hcode, uses]
  · exact hsettles _ _ hvalue

theorem wellTyped_lowerAssign {pos : Position} {target : String} {value : Expr} {code : Code}
    (hy : (s.lowerAssign pos target value).Yields c code c') :
    code.wellTyped s.table.env result = (s.stmtUses (.assign pos target value)).all s.fits := by
  obtain ⟨storage, symbol, v, hlookup, hv, rfl⟩ := yields_lowerAssign hy
  have hslot : Ty.assignable _ symbol.ty v.operand.ty = _ := met_operand (.fitting symbol.ty) hv
  rw [Code.wellTyped_append, settles_lowerExpr hvarargs value _ hv, stmtUses,
    storageTy_of_lookup hlookup]
  split <;> simp [Instruction.wellTyped, Rvalue.wellTyped, Place.wellTyped, Place.ty, hslot]

theorem wellTyped_lowerStore {pos : Position} {target : String} {index value : Expr} {code : Code}
    (hy : (s.lowerStore pos target index value).Yields c code c') :
    code.wellTyped s.table.env result =
      (s.stmtUses (.store pos target index value)).all s.fits := by
  obtain ⟨array, c₁, i, c₂, v, harray, hisArray, hi, hv, rfl⟩ := yields_lowerStore hy
  have hname : (s.lowerExpr (.var pos target) none).Yields c array c₁ := harray
  have hstorage : s.storageTy target = array.operand.ty := (lowerExpr_ty hname).symm
  have hcode : array.code.wellTyped s.table.env result = true :=
    settles_lowerExpr hvarargs (.var pos target) none hname
  have hint : (i.operand.ty == .int) = _ := met_operand (.exactly .int) hi
  have hslot : Ty.assignable _ array.operand.ty.element v.operand.ty = _ :=
    met_operand (.fitting array.operand.ty.element) hv
  simp [stmtUses, hstorage, hcode, settles_lowerExpr hvarargs index _ hi,
    settles_lowerExpr hvarargs value _ hv, Instruction.wellTyped, Rvalue.wellTyped,
    Place.wellTyped, Place.ty, hisArray, hint, hslot]

theorem wellTyped_lowerReturn {pos : Position} {value : Option Expr} {code : Code}
    (hy : (s.lowerReturn value).Yields c code c') :
    code.wellTyped s.table.env s.method.returnType =
      (s.stmtUses (.ret pos value)).all s.fits := by
  cases value with
  | none =>
    obtain ⟨rfl, -⟩ := Lower.yields_pure.mp hy
    rfl
  | some value =>
    obtain ⟨v, hv, rfl⟩ := yields_lowerReturn_some hy
    have hslot : Ty.assignable _ s.method.returnType v.operand.ty = _ :=
      met_operand (.fitting s.method.returnType) hv
    simp [stmtUses, Instruction.wellTyped, settles_lowerExpr hvarargs value _ hv, hslot]

omit hvarargs in
theorem wellTyped_lowerStmts_of_mem {stmts : List Stmt} {code : Code}
    (h : ∀ stmt ∈ stmts, ∀ {c c' : Counters} {code : Code}, (s.lowerStmt stmt).Yields c code c' →
      code.wellTyped s.table.env s.method.returnType = (s.stmtUses stmt).all s.fits)
    (hy : (s.lowerStmts stmts).Yields c code c') :
    code.wellTyped s.table.env s.method.returnType = (s.stmtsUses stmts).all s.fits := by
  induction stmts generalizing c code with
  | nil =>
    obtain ⟨rfl, -⟩ := Lower.yields_pure.mp hy
    rfl
  | cons stmt stmts ih =>
    obtain ⟨first, c₁, rest, hfirst, hrest, rfl⟩ := yields_lowerStmts_cons hy
    obtain ⟨hhead, htail⟩ := List.forall_mem_cons.mp h
    rw [Code.wellTyped_append, hhead hfirst, ih htail hrest, stmtsUses, List.all_append]

theorem wellTyped_lowerStmt {stmt : Stmt} : ∀ {c c' : Counters} {code : Code},
    (s.lowerStmt stmt).Yields c code c' →
      code.wellTyped s.table.env s.method.returnType = (s.stmtUses stmt).all s.fits := by
  induction stmt using Stmt.memberInduct with
  | block pos stmts ih => exact fun hy ↦ wellTyped_lowerStmts_of_mem ih hy
  | ifElse pos cond thenBranch elseBranch ihThen ihElse =>
    intro c c' code hy
    obtain ⟨jump, condCode, c₁, elseCode, c₂, thenCode, hcond, helse, hthen, rfl⟩ :=
      yields_lowerIf hy
    have hjump : (condCode.wellTyped s.table.env s.method.returnType && jump.wellTyped) = _ :=
      wellTyped_lowerCond hvarargs hcond
    simp [stmtUses, ihElse helse, ihThen hthen, ← hjump, Bool.and_assoc]
  | whileLoop pos cond body ihBody =>
    intro c c' code hy
    obtain ⟨jump, condCode, c₁, bodyCode, hcond, hbody, rfl⟩ := yields_lowerWhile hy
    have hjump : (condCode.wellTyped s.table.env s.method.returnType && jump.wellTyped) = _ :=
      wellTyped_lowerCond hvarargs hcond
    simp [stmtUses, ihBody hbody, ← hjump, Bool.and_assoc]
  | eval pos expr => exact fun hy ↦ wellTyped_lowerEval hvarargs hy
  | assign pos target value => exact fun hy ↦ wellTyped_lowerAssign hvarargs hy
  | store pos target index value => exact fun hy ↦ wellTyped_lowerStore hvarargs hy
  | ret pos value => exact fun hy ↦ wellTyped_lowerReturn hvarargs hy

/-- The uses within a body decide whether its code is well typed. -/
theorem wellTyped_lowerStmts {stmts : List Stmt} {code : Code}
    (hy : (s.lowerStmts stmts).Yields c code c') :
    code.wellTyped s.table.env s.method.returnType = (s.stmtsUses stmts).all s.fits :=
  wellTyped_lowerStmts_of_mem (fun _ _ ↦ wellTyped_lowerStmt hvarargs) hy

end

end Scope

/-! ## Units -/

/-- Every use within a method of the unit gets what it asks for. -/
def Program.usesFit (p : Program) : Bool :=
  p.decl.methods.all fun m ↦
    (Scope.stmtsUses ⟨p.table, m.signature⟩ m.body).all (Scope.fits ⟨p.table, m.signature⟩)

theorem Table.wellTyped_lowerMethods {t : Table} {c c' : Counters} {decls : List MethodDecl}
    (hvarargs : ∀ {method sig}, t.method? method = some sig → sig.hasVarargs = true →
      ∃ elem, sig.varargsElement = some elem)
    {methods : List MethodCode}
    (hy : (t.lowerMethods decls (decls.map MethodDecl.signature)).Yields c methods c') :
    (methods.all fun m ↦ m.wellTyped t.env) = decls.all fun m ↦
      (Scope.stmtsUses ⟨t, m.signature⟩ m.body).all (Scope.fits ⟨t, m.signature⟩) := by
  induction decls generalizing methods c with
  | nil =>
    obtain ⟨rfl, -⟩ := Lower.yields_pure.mp hy
    rfl
  | cons decl decls ih =>
    obtain ⟨first, c₁, rest, hfirst, hrest, rfl⟩ := yields_lowerMethods_cons hy
    simp only [lowerMethod, Lower.yields_bind, Lower.yields_pure] at hfirst
    obtain ⟨code, c₂, hcode, rfl, rfl⟩ := hfirst
    have hbody := Scope.wellTyped_lowerStmts hvarargs hcode
    rw [List.all_cons, List.all_cons, ih hrest, ← hbody, MethodCode.wellTyped,
      Code.wellTyped_closed]

/-- The code of a unit is well typed just when every use within the unit gets what it asks for. -/
theorem Program.wellTyped_of_lower {p : Program} {code : ClassCode}
    (h : p.lower p.table .default = .ok code) : code.wellTyped p.table.env = p.usesFit := by
  have hy : (p.table.lowerProgram p).Yields .zero code
      ((p.table.lowerProgram p).runFrom .zero).2 :=
    Prod.ext h rfl
  obtain ⟨-, hmethods⟩ := Table.yields_lowerProgram hy
  exact Table.wellTyped_lowerMethods varargsElement_isSome hmethods

end Tricode
