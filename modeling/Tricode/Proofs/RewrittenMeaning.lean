import Tricode.Proofs.Meaning
import Tricode.Proofs.Rewriting

/-!
# Rewritten trees mean the same

A folded body does the very same as the body, whatever state it starts in and however much fuel
there is. A body with known values put in does the same from every state in which those values are
what the variables hold, and it ends in a state in which the values known afterwards are.

For propagation two runs are compared from states that satisfy a condition. `Run.Equates` is that
comparison, with one rule for each way in which runs are put together. The rule for loops asks for
a condition that each round keeps. A round may change only what the loop assigns, and of that
nothing is known inside.
-/

namespace Tricode

/-! ## Operators on literals -/

theorem eq_ofInt_of_checkedInt {n : Int} {v : Int32} (h : checkedInt n = some v) :
    v = Int32.ofInt n := by
  unfold checkedInt at h
  split at h
  · exact (Option.some.inj h).symm
  · cases h

/-- What an operator on two literals is folded to is what it computes. -/
theorem Eval.operate_of_evalInt {op : BinOp} {l r : Int32} {value : Literal}
    (h : op.evalInt l r = some value) :
    operate op (.int l) (.int r) = pure (.ofLiteral value) := by
  have hbounds := And.intro l.minValue_le_toInt l.toInt_le
  have hbounds' := And.intro r.minValue_le_toInt r.toInt_le
  -- What is folded is in range, and there arithmetic that wraps around is exact.
  cases op with
  | add =>
    obtain ⟨v, hv, rfl⟩ := Option.map_eq_some_iff.mp h
    rw [eq_ofInt_of_checkedInt hv, Int32.ofInt_add, Int32.ofInt_toInt, Int32.ofInt_toInt]
    rfl
  | sub =>
    obtain ⟨v, hv, rfl⟩ := Option.map_eq_some_iff.mp h
    rw [eq_ofInt_of_checkedInt hv, Int32.ofInt_sub, Int32.ofInt_toInt, Int32.ofInt_toInt]
    rfl
  | mul =>
    obtain ⟨v, hv, rfl⟩ := Option.map_eq_some_iff.mp h
    rw [eq_ofInt_of_checkedInt hv, Int32.ofInt_mul, Int32.ofInt_toInt, Int32.ofInt_toInt]
    rfl
  | div =>
    obtain ⟨v, hv, rfl⟩ := Option.map_eq_some_iff.mp h
    unfold BinOp.quotient? at hv
    split at hv
    · cases hv
    · rename_i hzero
      rw [eq_ofInt_of_checkedInt hv, Int32.ofInt_tdiv hbounds.1 hbounds.2 hbounds'.1 hbounds'.2,
        Int32.ofInt_toInt, Int32.ofInt_toInt]
      exact if_neg hzero
  | rem =>
    obtain ⟨q, hq, hrem⟩ := Option.bind_eq_some_iff.mp h
    obtain ⟨v, hv, rfl⟩ := Option.map_eq_some_iff.mp hrem
    unfold BinOp.quotient? at hq
    split at hq
    · cases hq
    · rename_i hzero
      rw [eq_ofInt_of_checkedInt hv, Int32.ofInt_tmod hbounds.1 hbounds.2 hbounds'.1 hbounds'.2,
        Int32.ofInt_toInt, Int32.ofInt_toInt]
      exact if_neg hzero
  | lt | gt =>
    cases h
    rfl
  | and | or => cases h

theorem Eval.binary_of_decidedBy {op : BinOp} {l value : Literal} (rhs : Eval Value)
    (h : op.decidedBy l = some value) :
    binary op (pure (.ofLiteral l)) rhs = pure (.ofLiteral value) := by
  unfold BinOp.decidedBy at h
  split at h
  · cases h; rfl
  · cases h; rfl
  · cases h

theorem Eval.binary_of_eval {op : BinOp} {l r value : Literal} (h : op.eval l r = some value) :
    binary op (pure (.ofLiteral l)) (pure (.ofLiteral r)) = pure (.ofLiteral value) := by
  cases l with
  | int l =>
    cases r with
    | int r =>
      have hoperate := operate_of_evalInt h
      cases op with
      | and | or => cases h
      | _ => exact hoperate
    | bool r => cases h
  | bool l =>
    cases r with
    | int r => cases h
    | bool r =>
      cases op with
      | and | or =>
        cases h
        cases l <;> rfl
      | _ => cases h

/-- An operator that is folded has a value that nothing can change. -/
theorem Eval.binary_of_reduce {op : BinOp} {lhs rhs : Option Literal} {value : Literal}
    {evl evr : Eval Value} (hl : ∀ l, lhs = some l → evl = pure (.ofLiteral l))
    (hr : ∀ r, rhs = some r → evr = pure (.ofLiteral r)) (h : op.reduce lhs rhs = some value) :
    binary op evl evr = pure (.ofLiteral value) := by
  rw [BinOp.reduce, Option.or_eq_some_iff] at h
  rcases h with h | ⟨-, h⟩
  · obtain ⟨l, hlhs, hdecided⟩ := Option.bind_eq_some_iff.mp h
    rw [hl l hlhs]
    exact binary_of_decidedBy evr hdecided
  · obtain ⟨l, hlhs, h⟩ := Option.bind_eq_some_iff.mp h
    obtain ⟨r, hrhs, heval⟩ := Option.bind_eq_some_iff.mp h
    rw [hl l hlhs, hr r hrhs]
    exact binary_of_eval heval

/-! ## Expressions -/

namespace Activation

variable {a : Activation} {store : Store} {e : Expr}

theorem eval_of_literal? {value : Literal} (h : e.literal? = some value) :
    a.eval store e = pure (.ofLiteral value) := by
  cases e with
  | lit pos v =>
    cases h
    rfl
  | _ => cases h

theorem eval_of_bool? {b : Bool} (h : e.bool? = some b) :
    a.eval store e = pure (.bool b) := by
  unfold Expr.bool? at h
  split at h
  · cases h
    rfl
  · cases h

/-! ### Equal parts -/

theorem eval_not_congr {pos : Position} {e' : Expr} (h : a.eval store e' = a.eval store e) :
    a.eval store (.not pos e') = a.eval store (.not pos e) := by
  show (do let v ← a.eval store e'; Eval.negate v) = _
  rw [h]
  rfl

theorem eval_binary_congr {pos : Position} {op : BinOp} {l l' r r' : Expr}
    (hl : a.eval store l' = a.eval store l) (hr : a.eval store r' = a.eval store r) :
    a.eval store (.binary pos op l' r') = a.eval store (.binary pos op l r) := by
  show Eval.binary op (a.eval store l') (a.eval store r') = _
  rw [hl, hr]
  rfl

theorem eval_index_congr {pos : Position} {base base' idx idx' : Expr}
    (hb : a.eval store base' = a.eval store base) (hi : a.eval store idx' = a.eval store idx) :
    a.eval store (.index pos base' idx') = a.eval store (.index pos base idx) := by
  show (do let b ← a.eval store base'; let i ← a.eval store idx'; Eval.load b i) = _
  rw [hb, hi]
  rfl

theorem eval_newArray_congr {pos : Position} {elem : TypeExpr} {e' : Expr}
    (h : a.eval store e' = a.eval store e) :
    a.eval store (.newArray pos elem e') = a.eval store (.newArray pos elem e) := by
  show (do let n ← a.eval store e'; Eval.allocate elem.resolve n) = _
  rw [h]
  rfl

theorem eval_length_congr {pos : Position} {e' : Expr} (h : a.eval store e' = a.eval store e) :
    a.eval store (.length pos e') = a.eval store (.length pos e) := by
  show (do let b ← a.eval store e'; Eval.length b) = _
  rw [h]
  rfl

section

variable {es : List Expr} {f : Expr → Expr}
  (heval : ∀ e ∈ es, a.eval store (f e) = a.eval store e)
include heval

theorem evalEach_map : a.evalEach store (es.map f) = a.evalEach store es := by
  rw [evalEach_eq_map, evalEach_eq_map, List.map_map]
  exact List.map_congr_left heval

theorem eval_array_map {pos : Position} (hf : ∀ e ∈ es, a.scope.Replaces e (f e)) :
    a.eval store (.array pos (es.map f)) = a.eval store (.array pos es) := by
  show Eval.packed (a.scope.literalElement (es.map f)) (a.evalEach store (es.map f)) = _
  rw [Scope.literalElement, Scope.Replaces.typesOf hf, evalEach_map heval]
  rfl

theorem eval_call_map {pos : Position} {method : String} :
    a.eval store (.call pos method (es.map f)) = a.eval store (.call pos method es) := by
  show a.call _ _ method (a.evalEach store (es.map f)) = _
  rw [evalEach_map heval]
  rfl

theorem eval_callOn_map {pos : Position} {receiver receiver' : Expr} {method : String}
    (hr : a.scope.Replaces receiver receiver')
    (hreceiver : a.eval store receiver' = a.eval store receiver)
    (hform : ∀ value, a.receiver receiver' value method = a.receiver receiver value method) :
    a.eval store (.callOn pos receiver' method (es.map f)) =
      a.eval store (.callOn pos receiver method es) := by
  show a.call (a.receiver receiver' (a.eval store receiver') method)
    (a.scope.callee? receiver' method) method (a.evalEach store (es.map f)) = _
  rw [evalEach_map heval, hreceiver, hform, Scope.callee?, hr.typeOf]
  rfl

end

theorem receiver_fold (receiver : Expr) (value : Eval Value) (method : String) :
    a.receiver receiver.fold value method = a.receiver receiver value method := by
  cases receiver with
  | not pos operand =>
    rw [Expr.fold, Expr.foldedNot]
    split <;> rfl
  | binary pos op lhs rhs =>
    rw [Expr.fold, Expr.foldedBinary]
    split <;> rfl
  | _ => rfl

/-- A folded expression has the value of the expression. -/
theorem eval_fold {e : Expr} : a.scope.Accepts e → a.eval store e.fold = a.eval store e := by
  induction e using Expr.memberInduct with
  | lit | this | var | newObject => exact fun _ ↦ rfl
  | not pos operand ih =>
    intro h
    have hoperand := ih (Scope.accepts_not.mp h).1
    rw [Expr.fold, Expr.foldedNot]
    split
    · rename_i b hbool
      show _ = (do let v ← a.eval store operand; Eval.negate v)
      rw [← hoperand, eval_of_bool? hbool]
      rfl
    · exact eval_not_congr hoperand
  | binary pos op lhs rhs ihl ihr =>
    intro h
    obtain ⟨hl, hr, -⟩ := Scope.accepts_binary.mp h
    rw [Expr.fold, Expr.foldedBinary]
    split
    · rename_i value hreduce
      show _ = Eval.binary op (a.eval store lhs) (a.eval store rhs)
      rw [← ihl hl, ← ihr hr]
      exact (Eval.binary_of_reduce (fun _ ↦ eval_of_literal?) (fun _ ↦ eval_of_literal?)
        hreduce).symm
    · exact eval_binary_congr (ihl hl) (ihr hr)
  | index pos base idx ihb ihi =>
    intro h
    obtain ⟨hb, hi, -⟩ := Scope.accepts_index.mp h
    exact eval_index_congr (ihb hb) (ihi hi)
  | array pos elements ih =>
    intro h
    have haccepts := (Scope.accepts_array.mp h).1
    rw [Expr.fold, Expr.foldAll_eq_map]
    exact eval_array_map (fun e he ↦ ih e he (haccepts e he))
      fun e he ↦ Scope.replaces_fold (haccepts e he)
  | newArray pos elem size ih =>
    exact fun h ↦ eval_newArray_congr (ih (Scope.accepts_newArray.mp h).1)
  | length pos base ih => exact fun h ↦ eval_length_congr (ih (Scope.accepts_length.mp h).1)
  | call pos method args ih =>
    intro h
    rw [Expr.fold, Expr.foldAll_eq_map]
    exact eval_call_map fun e he ↦ ih e he ((Scope.accepts_call.mp h).1 e he)
  | callOn pos receiver method args ihr iha =>
    intro h
    obtain ⟨hr, ha, -⟩ := Scope.accepts_callOn.mp h
    rw [Expr.fold, Expr.foldAll_eq_map]
    exact eval_callOn_map (fun e he ↦ iha e he (ha e he)) (Scope.replaces_fold hr) (ihr hr)
      fun value ↦ receiver_fold receiver value method

end Activation

namespace Known

/-- The variables that are known hold their known values. -/
def Holds (k : Known) (store : Store) : Prop :=
  ∀ name value, k.get? name = some value → store name = .ofLiteral value

variable {k l : Known} {store : Store}

theorem holds_none (store : Store) : none.Holds store := by
  intro name value hget
  rw [get?_none] at hget
  cases hget

theorem Holds.forget (h : k.Holds store) (names : List String) : (k.forget names).Holds store :=
  fun name value hget ↦ h name value (get?_of_forget hget)

theorem Holds.meet_left (h : k.Holds store) (l : Known) : (k.meet l).Holds store :=
  fun name value hget ↦ h name value (get?_of_meet hget).1

theorem Holds.meet_right (h : l.Holds store) (k : Known) : (k.meet l).Holds store :=
  fun name value hget ↦ h name value (get?_of_meet hget).2

/-- An assignment is known if its value is. -/
theorem Holds.assign (h : k.Holds store) {target : String} {value : Value}
    {literal : Option Literal} (hvalue : ∀ v, literal = some v → value = .ofLiteral v) :
    (k.assign target literal).Holds fun other ↦ if other = target then value else store other := by
  intro name v hget
  rw [get?_assign] at hget
  split at hget
  · rename_i heq
    exact (if_pos heq).trans (hvalue v hget)
  · rename_i hne
    exact (if_neg hne).trans (h name v hget)

end Known

namespace Activation

variable {a : Activation} {store : Store} {k : Known}

theorem receiver_substitute (hk : k.Typed a.scope) (receiver : Expr) (value : Eval Value)
    (method : String) :
    a.receiver (receiver.substitute k) value method = a.receiver receiver value method := by
  cases receiver with
  | var pos name =>
    rw [Expr.substitute]
    split
    · rename_i literal hget
      obtain ⟨symbol, hlookup, -⟩ := hk name literal hget
      have hvalue : a.scope.lookup name ≠ .imported := by simp [hlookup]
      exact (if_neg hvalue).symm
    · rfl
  | _ => rfl

/-- Where the known values are those of the variables, putting them in changes no value. -/
theorem eval_substitute (hk : k.Typed a.scope) (hholds : k.Holds store) {e : Expr} :
    a.scope.Accepts e → a.eval store (e.substitute k) = a.eval store e := by
  induction e using Expr.memberInduct with
  | lit | this | newObject => exact fun _ ↦ rfl
  | var pos name =>
    intro h
    rw [Expr.substitute]
    split
    · rename_i value hget
      obtain ⟨symbol, hlookup, -⟩ := hk name value hget
      show _ = a.readVar store name
      rw [readVar, hlookup, hholds name value hget]
      rfl
    · rfl
  | not pos operand ih => exact fun h ↦ eval_not_congr (ih (Scope.accepts_not.mp h).1)
  | binary pos op lhs rhs ihl ihr =>
    intro h
    obtain ⟨hl, hr, -⟩ := Scope.accepts_binary.mp h
    exact eval_binary_congr (ihl hl) (ihr hr)
  | index pos base idx ihb ihi =>
    intro h
    obtain ⟨hb, hi, -⟩ := Scope.accepts_index.mp h
    exact eval_index_congr (ihb hb) (ihi hi)
  | array pos elements ih =>
    intro h
    have haccepts := (Scope.accepts_array.mp h).1
    rw [Expr.substitute, Expr.substituteAll_eq_map]
    exact eval_array_map (fun e he ↦ ih e he (haccepts e he))
      fun e he ↦ Scope.replaces_substitute hk (haccepts e he)
  | newArray pos elem size ih =>
    exact fun h ↦ eval_newArray_congr (ih (Scope.accepts_newArray.mp h).1)
  | length pos base ih => exact fun h ↦ eval_length_congr (ih (Scope.accepts_length.mp h).1)
  | call pos method args ih =>
    intro h
    rw [Expr.substitute, Expr.substituteAll_eq_map]
    exact eval_call_map fun e he ↦ ih e he ((Scope.accepts_call.mp h).1 e he)
  | callOn pos receiver method args ihr iha =>
    intro h
    obtain ⟨hr, ha, -⟩ := Scope.accepts_callOn.mp h
    rw [Expr.substitute, Expr.substituteAll_eq_map]
    exact eval_callOn_map (fun e he ↦ iha e he (ha e he)) (Scope.replaces_substitute hk hr)
      (ihr hr) fun value ↦ receiver_substitute hk receiver value method

theorem eval_substitute_fold (hk : k.Typed a.scope) (hholds : k.Holds store) {e : Expr}
    (h : a.scope.Accepts e) : a.eval store (e.substitute k).fold = a.eval store e :=
  (eval_fold (Scope.replaces_substitute hk h).accepts).trans (eval_substitute hk hholds h)

/-! ## Folded statements -/

theorem evalTest_fold {cond : Expr} (h : a.scope.Accepts cond) :
    a.evalTest cond.fold = a.evalTest cond := by
  rw [evalTest, evalTest]
  exact congrArg Run.ofEval (funext fun store ↦ by rw [eval_fold h])

/-- A condition that is folded to a truth value is that value. -/
theorem evalTest_of_bool? {cond : Expr} {b : Bool} (h : a.scope.Accepts cond)
    (hbool : cond.fold.bool? = some b) : a.evalTest cond = pure b := by
  have htest : (fun store ↦ (do let v ← a.eval store cond.fold; Eval.test v)) =
      fun _ ↦ (pure b : Eval Bool) := by
    funext store
    rw [eval_of_bool? hbool]
    rfl
  rw [← evalTest_fold h, evalTest, htest]
  rfl

theorem execAll_map {fuel : Nat} {stmts : List Stmt} {f : Stmt → Stmt}
    (h : ∀ stmt ∈ stmts, a.exec fuel (f stmt) = a.exec fuel stmt) :
    a.execAll fuel (stmts.map f) = a.execAll fuel stmts := by
  induction stmts with
  | nil => rfl
  | cons stmt stmts ih =>
    obtain ⟨hhead, htail⟩ := List.forall_mem_cons.mp h
    rw [List.map_cons, execAll, execAll, hhead, ih htail]

/-- A folded statement does what the statement does. -/
theorem exec_fold {fuel : Nat} {stmt : Stmt} :
    a.scope.AcceptsStmt stmt → a.exec fuel stmt.fold = a.exec fuel stmt := by
  induction stmt using Stmt.memberInduct with
  | block pos stmts ih =>
    intro h
    rw [Scope.acceptsStmt_block] at h
    rw [Stmt.fold, Stmt.foldAll_eq_map]
    exact execAll_map fun stmt hmem ↦ ih stmt hmem (h stmt hmem)
  | ifElse pos cond thenBranch elseBranch ihThen ihElse =>
    intro h
    obtain ⟨hcond, -, hthen, helse⟩ := Scope.acceptsStmt_ifElse.mp h
    rw [Stmt.fold]
    split
    · rename_i hbool
      rw [exec, evalTest_of_bool? hcond hbool, ihThen hthen]
      rfl
    · rename_i hbool
      rw [exec, evalTest_of_bool? hcond hbool, ihElse helse]
      rfl
    · rw [exec, exec, evalTest_fold hcond, ihThen hthen, ihElse helse]
  | whileLoop pos cond body ihBody =>
    intro h
    obtain ⟨hcond, -, hbody⟩ := Scope.acceptsStmt_whileLoop.mp h
    rw [Stmt.fold]
    split
    · -- The condition is tested before fuel is, so a loop that never runs needs none.
      rename_i hbool
      rw [exec, exec, evalTest_of_bool? hcond hbool]
      cases fuel <;> rfl
    · rw [exec, exec, evalTest_fold hcond, ihBody hbody]
  | eval pos expr =>
    intro h
    simp only [Stmt.fold, exec, eval_fold (Scope.acceptsStmt_eval.mp h)]
  | assign pos target value =>
    intro h
    simp only [Stmt.fold, exec, eval_fold (Scope.acceptsStmt_assign.mp h).1]
  | store pos target index value =>
    intro h
    obtain ⟨-, hindex, hvalue, -⟩ := Scope.acceptsStmt_store.mp h
    simp only [Stmt.fold, exec, writeElement, eval_fold hindex, eval_fold hvalue]
  | ret pos value =>
    intro h
    cases value with
    | none => rfl
    | some value =>
      simp only [Stmt.fold, Option.map_some, exec,
        eval_fold (Scope.acceptsStmt_ret_some.mp h).1]

theorem runBody_fold {fuel : Nat} {body : List Stmt}
    (h : ∀ stmt ∈ body, a.scope.AcceptsStmt stmt) (st : State) :
    a.runBody fuel (Stmt.foldAll body) st = a.runBody fuel body st := by
  rw [runBody, runBody, Stmt.foldAll_eq_map, execAll_map fun stmt hmem ↦ exec_fold (h stmt hmem)]

end Activation

/-! ## Two runs side by side -/

namespace Run

variable {α β : Type} {P P' : Store → Prop} {Q Q' : α → Store → Prop} {r r' : Run α}

/-- From every state with `P` the two runs do the same, and if they complete, `Q` holds. -/
def Equates (P : Store → Prop) (Q : α → Store → Prop) (r r' : Run α) : Prop :=
  ∀ st, P st.store →
    r'.runFrom st = r.runFrom st ∧ ∀ a st', r.runFrom st = (.ok a, st') → Q a st'.store

theorem Equates.pure {a : α} (h : ∀ store, P store → Q a store) :
    Equates P Q (pure a) (pure a) := by
  intro st hst
  refine ⟨rfl, fun a' st' heq ↦ ?_⟩
  cases heq
  exact h st.store hst

theorem Equates.throw (stop : Stop) : Equates P Q (throw stop) (throw stop) :=
  fun _ _ ↦ ⟨rfl, fun _ _ heq ↦ by cases heq⟩

theorem Equates.weaken (h : Equates P Q r r') (hQ : ∀ a store, Q a store → Q' a store) :
    Equates P Q' r r' :=
  fun st hst ↦ ⟨(h st hst).1, fun a st' heq ↦ hQ a st'.store ((h st hst).2 a st' heq)⟩

theorem Equates.bind {R : β → Store → Prop} {f f' : α → Run β} (h : Equates P Q r r')
    (hf : ∀ a, Equates (Q a) R (f a) (f' a)) : Equates P R (r >>= f) (r' >>= f') := by
  intro st hst
  obtain ⟨heq, hpost⟩ := h st hst
  rw [Action.runFrom_bind, Action.runFrom_bind, heq]
  rcases hr : r.runFrom st with ⟨stop | a, st'⟩
  · exact ⟨rfl, fun b st'' hb ↦ by cases hb⟩
  · exact hf a st' (hpost a st' hr)

/-- An expression changes no variable. -/
theorem equates_ofEval {ev ev' : Store → Eval α} (h : ∀ store, P store → ev' store = ev store)
    (hQ : ∀ store w a w', P store → (ev store).runFrom w = (.ok a, w') → Q a store) :
    Equates P Q (ofEval ev) (ofEval ev') := by
  intro st hst
  rw [runFrom_ofEval, runFrom_ofEval, h st.store hst]
  refine ⟨rfl, fun a st' heq ↦ ?_⟩
  rcases hev : (ev st.store).runFrom st.world with ⟨trap | b, w⟩
  · rw [hev] at heq
    cases heq
  · rw [hev] at heq
    cases heq
    exact hQ st.store st.world a w hst hev

theorem equates_assign {name : String} {value : Value} {Q : Unit → Store → Prop}
    (h : ∀ store, P store → Q () fun other ↦ if other = name then value else store other) :
    Equates P Q (assign name value) (assign name value) := by
  intro st hst
  refine ⟨rfl, fun u st' heq ↦ ?_⟩
  cases heq
  exact h st.store hst

theorem Equates.ite {r₁ r₁' r₂ r₂' : Run α} (b : Bool) (h₁ : Equates P Q r₁ r₁')
    (h₂ : Equates P Q r₂ r₂') : Equates P Q (if b then r₁ else r₂) (if b then r₁' else r₂') := by
  cases b with
  | true => exact h₁
  | false => exact h₂

/-- Loops do the same if their conditions and their rounds do, under a condition that every round
keeps. -/
theorem equates_loop {test test' : Run Bool} {body body' : Run Unit}
    (htest : Equates P (fun _ ↦ P) test test') (hbody : Equates P (fun _ ↦ P) body body')
    (fuel : Nat) : Equates P (fun _ ↦ P) (loop test body fuel) (loop test' body' fuel) := by
  induction fuel with
  | zero => exact htest.bind fun b ↦ .ite b (.throw _) (.pure fun _ h ↦ h)
  | succ fuel ih => exact htest.bind fun b ↦ .ite b (hbody.bind fun _ ↦ ih) (.pure fun _ h ↦ h)

/-! ### Variables a run leaves alone -/

/-- A run that completes has not changed the variable. -/
def Keeps (name : String) (r : Run α) : Prop :=
  ∀ st a st', r.runFrom st = (.ok a, st') → st'.store name = st.store name

theorem keeps_throw {name : String} (stop : Stop) : Keeps name (throw stop : Run α) :=
  fun _ _ _ heq ↦ by cases heq

theorem keeps_pure {name : String} (a : α) : Keeps name (pure a : Run α) := by
  intro st a' st' heq
  cases heq
  rfl

theorem Keeps.bind {name : String} {f : α → Run β} (h : Keeps name r)
    (hf : ∀ a, Keeps name (f a)) : Keeps name (r >>= f) := by
  intro st b st'' heq
  rw [Action.runFrom_bind] at heq
  rcases hr : r.runFrom st with ⟨stop | a, st'⟩
  · rw [hr] at heq
    cases heq
  · rw [hr] at heq
    exact (hf a st' b st'' heq).trans (h st a st' hr)

theorem keeps_ofEval {name : String} (ev : Store → Eval α) : Keeps name (ofEval ev) := by
  intro st a st' heq
  rw [runFrom_ofEval] at heq
  rcases hev : (ev st.store).runFrom st.world with ⟨trap | b, w⟩
  · rw [hev] at heq
    cases heq
  · rw [hev] at heq
    cases heq
    rfl

theorem keeps_assign {name target : String} (h : name ≠ target) (value : Value) :
    Keeps name (assign target value) := by
  intro st u st' heq
  cases heq
  exact if_neg h

theorem Keeps.ite {name : String} {r₁ r₂ : Run α} (b : Bool) (h₁ : Keeps name r₁)
    (h₂ : Keeps name r₂) : Keeps name (if b then r₁ else r₂) := by
  cases b with
  | true => exact h₁
  | false => exact h₂

theorem keeps_loop {name : String} {test : Run Bool} {body : Run Unit} (htest : Keeps name test)
    (hbody : Keeps name body) (fuel : Nat) : Keeps name (loop test body fuel) := by
  induction fuel with
  | zero => exact htest.bind fun b ↦ .ite b (keeps_throw _) (keeps_pure _)
  | succ fuel ih => exact htest.bind fun b ↦ .ite b (hbody.bind fun _ ↦ ih) (keeps_pure _)

end Run

namespace Activation

variable {a : Activation} {k : Known} {locals : List String} {fuel : Nat}

theorem keeps_writeVar {name target : String} (h : name ≠ target) (value : Value) :
    Run.Keeps name (a.writeVar target value) := by
  unfold writeVar
  split
  · exact Run.keeps_ofEval _
  · exact Run.keeps_assign h value
  · exact Run.keeps_throw _
  · exact Run.keeps_throw _

/-- A statement changes only the variables it assigns. -/
theorem keeps_exec {name : String} {stmt : Stmt} :
    name ∉ stmt.assigned → Run.Keeps name (a.exec fuel stmt) := by
  induction stmt using Stmt.memberInduct with
  | block pos stmts ih =>
    intro h
    rw [Stmt.assigned] at h
    rw [exec]
    induction stmts with
    | nil => exact Run.keeps_pure _
    | cons stmt stmts ihs =>
      obtain ⟨hhead, htail⟩ := List.forall_mem_cons.mp ih
      rw [Stmt.assignedAll, List.mem_append, not_or] at h
      exact (hhead h.1).bind fun _ ↦ ihs htail h.2
  | ifElse pos cond thenBranch elseBranch ihThen ihElse =>
    intro h
    rw [Stmt.assigned, List.mem_append, not_or] at h
    rw [exec]
    exact (Run.keeps_ofEval _).bind fun b ↦ .ite b (ihThen h.1) (ihElse h.2)
  | whileLoop pos cond body ihBody =>
    intro h
    rw [exec]
    exact Run.keeps_loop (Run.keeps_ofEval _) (ihBody h) fuel
  | eval pos expr =>
    intro h
    exact (Run.keeps_ofEval _).bind fun _ ↦ Run.keeps_pure _
  | assign pos target value =>
    intro h
    rw [Stmt.assigned, List.mem_singleton] at h
    exact (Run.keeps_ofEval _).bind fun v ↦ keeps_writeVar h v
  | store pos target index value =>
    intro h
    rw [exec, writeElement]
    exact Run.keeps_ofEval _
  | ret pos value =>
    intro h
    cases value with
    | none => exact Run.keeps_throw _
    | some value => exact (Run.keeps_ofEval _).bind fun v ↦ Run.keeps_throw _

/-! ## Statements with known values put in -/

/-- An assignment that propagation does not follow changes nothing that is known. -/
theorem equates_writeVar_of_not_mem (hlocals : a.scope.HasLocals locals) (hk : k.Typed a.scope)
    {target : String} (htarget : target ∉ locals) (value : Value) :
    Run.Equates k.Holds (fun _ ↦ k.Holds) (a.writeVar target value) (a.writeVar target value) := by
  unfold writeVar
  split
  · exact Run.equates_ofEval (fun _ _ ↦ rfl) fun _ _ _ _ h _ ↦ h
  · refine Run.equates_assign fun store hstore name v hget ↦ ?_
    obtain ⟨symbol, hlookup, -⟩ := hk name v hget
    have hne : name ≠ target := by
      rintro rfl
      exact htarget ((hlocals name).mpr ⟨symbol, hlookup⟩)
    exact (if_neg hne).trans (hstore name v hget)
  · exact .throw _
  · exact .throw _

theorem equates_assign_propagate (hlocals : a.scope.HasLocals locals) (hk : k.Typed a.scope)
    {pos : Position} {target : String} {value : Expr} (h : a.scope.Accepts value) :
    Run.Equates k.Holds (fun _ ↦ ((Stmt.assign pos target value).after locals k).Holds)
      (a.exec fuel (.assign pos target value))
      (a.exec fuel ((Stmt.assign pos target value).propagate locals k)) := by
  rw [Stmt.after, Stmt.propagate]
  by_cases hlocal : locals.contains target = true
  · rw [if_pos hlocal, if_pos hlocal, exec, exec]
    obtain ⟨symbol, hlookup⟩ := (hlocals target).mp (List.contains_iff_mem.mp hlocal)
    -- If the value folds to a literal, the variable holds that literal from here on.
    have hvalue : Run.Equates k.Holds
        (fun v store ↦ k.Holds store ∧
          ∀ l, (value.substitute k).fold.literal? = some l → v = .ofLiteral l)
        (Run.ofEval fun store ↦ a.eval store value)
        (Run.ofEval fun store ↦ a.eval store (value.substitute k).fold) := by
      refine Run.equates_ofEval (fun store hstore ↦ eval_substitute_fold hk hstore h) ?_
      intro store w v w' hstore hev
      refine ⟨hstore, fun l hl ↦ ?_⟩
      rw [← eval_substitute_fold hk hstore h, eval_of_literal? hl] at hev
      cases hev
      rfl
    refine hvalue.bind fun v ↦ ?_
    rw [writeVar, hlookup]
    exact Run.equates_assign fun store hstore ↦ hstore.1.assign hstore.2
  · -- Nothing is known of a target that is not local, before the assignment or after it.
    rw [if_neg hlocal, if_neg hlocal, exec, exec]
    have htarget : target ∉ locals := fun hmem ↦ hlocal (List.contains_iff_mem.mpr hmem)
    refine (Run.equates_ofEval (fun store hstore ↦ eval_substitute hk hstore h)
      fun store w v w' hstore _ ↦ hstore).bind fun v ↦ ?_
    exact equates_writeVar_of_not_mem hlocals hk htarget v

theorem equates_evalTest (hk : k.Typed a.scope) {cond : Expr} (h : a.scope.Accepts cond) :
    Run.Equates k.Holds (fun _ ↦ k.Holds) (a.evalTest cond) (a.evalTest (cond.substitute k)) :=
  Run.equates_ofEval (fun store hstore ↦ by rw [eval_substitute hk hstore h])
    fun _ _ _ _ hstore _ ↦ hstore

section

variable (hknown : a.scope.VariablesKnown) (hlocals : a.scope.HasLocals locals)
include hknown hlocals

theorem equates_execAll_propagate {stmts : List Stmt}
    (hstmts : ∀ stmt ∈ stmts, ∀ {k : Known}, k.Typed a.scope → a.scope.AcceptsStmt stmt →
      Run.Equates k.Holds (fun _ ↦ (stmt.after locals k).Holds) (a.exec fuel stmt)
        (a.exec fuel (stmt.propagate locals k))) :
    ∀ {k : Known}, k.Typed a.scope → (∀ stmt ∈ stmts, a.scope.AcceptsStmt stmt) →
      Run.Equates k.Holds (fun _ ↦ (Stmt.afterAll locals k stmts).Holds) (a.execAll fuel stmts)
        (a.execAll fuel (Stmt.propagateAll locals k stmts)) := by
  induction stmts with
  | nil => exact fun _ _ ↦ .pure fun _ h ↦ h
  | cons stmt stmts ih =>
    intro k hk haccepts
    obtain ⟨hhead, htail⟩ := List.forall_mem_cons.mp hstmts
    obtain ⟨hstmt, hrest⟩ := List.forall_mem_cons.mp haccepts
    exact (hhead hk hstmt).bind fun _ ↦
      ih htail (Scope.acceptsStmt_propagate hknown hlocals hk hstmt).2 hrest

/-- With known values put in, a statement does the same wherever the values are right, and the
values known after it are right as well. -/
theorem equates_propagate {stmt : Stmt} :
    ∀ {k : Known}, k.Typed a.scope → a.scope.AcceptsStmt stmt →
      Run.Equates k.Holds (fun _ ↦ (stmt.after locals k).Holds) (a.exec fuel stmt)
        (a.exec fuel (stmt.propagate locals k)) := by
  induction stmt using Stmt.memberInduct with
  | block pos stmts ih =>
    intro k hk h
    exact equates_execAll_propagate hknown hlocals ih hk (Scope.acceptsStmt_block.mp h)
  | ifElse pos cond thenBranch elseBranch ihThen ihElse =>
    intro k hk h
    obtain ⟨hcond, -, hthen, helse⟩ := Scope.acceptsStmt_ifElse.mp h
    rw [Stmt.propagate, exec, exec, Stmt.after]
    refine (equates_evalTest hk hcond).bind fun b ↦ .ite b ?_ ?_
    · exact (ihThen hk hthen).weaken fun _ _ hstore ↦ hstore.meet_left _
    · exact (ihElse hk helse).weaken fun _ _ hstore ↦ hstore.meet_right _
  | whileLoop pos cond body ihBody =>
    intro k hk h
    obtain ⟨hcond, -, hbody⟩ := Scope.acceptsStmt_whileLoop.mp h
    have hk' := hk.forget body.assigned
    -- A round keeps what is known at the head, since the loop assigns none of it.
    have hround : Run.Equates (k.forget body.assigned).Holds
        (fun _ ↦ (k.forget body.assigned).Holds) (a.exec fuel body)
        (a.exec fuel (body.propagate locals (k.forget body.assigned))) := by
      intro st hst
      refine ⟨(ihBody hk' hbody st hst).1, fun u st' heq name value hget ↦ ?_⟩
      have hname : name ∉ body.assigned := by
        intro hmem
        rw [Known.get?_forget, if_pos hmem] at hget
        cases hget
      rw [keeps_exec hname st u st' heq]
      exact hst name value hget
    intro st hst
    rw [Stmt.propagate, exec, exec]
    exact Run.equates_loop (equates_evalTest hk' hcond) hround fuel st (hst.forget _)
  | eval pos expr =>
    intro k hk h
    exact (Run.equates_ofEval
      (fun store hstore ↦ eval_substitute hk hstore (Scope.acceptsStmt_eval.mp h))
      fun _ _ _ _ hstore _ ↦ hstore).bind fun _ ↦ .pure fun _ hstore ↦ hstore
  | assign pos target value =>
    intro k hk h
    exact equates_assign_propagate hlocals hk (Scope.acceptsStmt_assign.mp h).1
  | store pos target index value =>
    intro k hk h
    obtain ⟨-, hindex, hvalue, -⟩ := Scope.acceptsStmt_store.mp h
    rw [Stmt.propagate, exec, exec, writeElement, writeElement]
    refine Run.equates_ofEval (fun store hstore ↦ ?_) fun _ _ _ _ hstore _ ↦ hstore
    rw [eval_substitute hk hstore hindex, eval_substitute hk hstore hvalue]
  | ret pos value =>
    intro k hk h
    cases value with
    | none => exact .throw _
    | some value =>
      exact (Run.equates_ofEval
        (fun store hstore ↦ eval_substitute hk hstore (Scope.acceptsStmt_ret_some.mp h).1)
        fun _ _ _ _ hstore _ ↦ hstore).bind fun _ ↦ .throw _

theorem runBody_propagate {body : List Stmt} (h : ∀ stmt ∈ body, a.scope.AcceptsStmt stmt)
    (st : State) :
    a.runBody fuel (Stmt.propagateAll locals .none body) st = a.runBody fuel body st := by
  have hsame : (a.execAll fuel (Stmt.propagateAll locals .none body)).runFrom st =
      (a.execAll fuel body).runFrom st :=
    (equates_execAll_propagate hknown hlocals (fun _ _ ↦ equates_propagate hknown hlocals)
      (Known.typed_none a.scope) h st (Known.holds_none st.store)).1
  rw [runBody, runBody, hsame]

end

end Activation

/-! ## Units -/

namespace Program

variable {p : Program}

/-- Bodies that do the same may take the place of the bodies of a unit. -/
theorem terminates_mapBodies {f : MethodDecl → List Stmt}
    (h : ∀ m ∈ p.decl.methods, ∀ (oracle : Oracle) (self : Value) (fuel : Nat) (st : State),
      Activation.runBody ⟨⟨p.table, m.signature⟩, oracle, self⟩ fuel (f m) st =
        Activation.runBody ⟨⟨p.table, m.signature⟩, oracle, self⟩ fuel m.body st)
    {i : Nat} {oracle : Oracle} {self : Value} {st : State} {ending : Ending} {st' : State} :
    (p.mapBodies f).Terminates i oracle self st ending st' ↔
      p.Terminates i oracle self st ending st' := by
  unfold Terminates
  rw [table_mapBodies]
  constructor
  · rintro ⟨m', hm', fuel, hrun⟩
    rw [mapBodies, List.getElem?_map] at hm'
    obtain ⟨m, hm, rfl⟩ := Option.map_eq_some_iff.mp hm'
    exact ⟨m, hm, fuel, (h m (List.mem_of_getElem? hm) oracle self fuel st).symm.trans hrun⟩
  · rintro ⟨m, hm, fuel, hrun⟩
    refine ⟨{ m with body := f m }, ?_, fuel, ?_⟩
    · rw [mapBodies, List.getElem?_map, hm, Option.map_some]
    · exact (h m (List.mem_of_getElem? hm) oracle self fuel st).trans hrun

/-- Neither pass of the optimizer changes what a method does, and so both together do not. -/
theorem terminates_iff_optimized_terminates (haccepted : p.Accepted)
    (hany : "<any>" ∉ p.typeNames) (i : Nat) (oracle : Oracle) (self : Value) (st : State)
    (ending : Ending) (st' : State) :
    (p.Terminates i oracle self st ending st' ↔
        p.propagate.Terminates i oracle self st ending st') ∧
      (p.Terminates i oracle self st ending st' ↔ p.fold.Terminates i oracle self st ending st') ∧
      (p.Terminates i oracle self st ending st' ↔
        p.optimize.Terminates i oracle self st ending st') := by
  have hvariables := typeName_ne_of_not_mem hany
  have hpropagate : ∀ m ∈ p.decl.methods,
      ∀ (oracle : Oracle) (self : Value) (fuel : Nat) (st : State),
        Activation.runBody ⟨⟨p.table, m.signature⟩, oracle, self⟩ fuel
            (Stmt.propagateAll m.localNames .none m.body) st =
          Activation.runBody ⟨⟨p.table, m.signature⟩, oracle, self⟩ fuel m.body st :=
    fun m hm oracle self fuel st ↦ Activation.runBody_propagate (variablesKnown hvariables hm)
      (Scope.hasLocals_localNames p.table m) (fun _ hstmt ↦ haccepted.acceptsStmt hm hstmt) st
  refine ⟨(terminates_mapBodies hpropagate).symm, (terminates_mapBodies ?_).symm, ?_⟩
  · intro m hm oracle self fuel st
    exact Activation.runBody_fold (fun _ hstmt ↦ haccepted.acceptsStmt hm hstmt) st
  · rw [optimize_eq_mapBodies]
    refine (terminates_mapBodies fun m hm oracle self fuel st ↦ ?_).symm
    have haccepts := Scope.acceptsStmt_propagateAll (variablesKnown hvariables hm)
      (Scope.hasLocals_localNames p.table m) fun _ hstmt ↦ haccepted.acceptsStmt hm hstmt
    exact (Activation.runBody_fold haccepts st).trans (hpropagate m hm oracle self fuel st)

/-- A unit whose loop has a bound that is known, and a branch that is never taken. -/
def countUp : Program where
  imports := []
  decl := {
    name := "Count"
    superclass := none
    fields := []
    methods := [{
      name := "up"
      isPublic := true
      isStatic := false
      returnType := .int
      params := []
      varargs := none
      locals := [⟨.int, "bound", .origin⟩, ⟨.int, "i", .origin⟩]
      body := [
        .assign .origin "bound"
          (.binary .origin .add (.lit .origin (.int 1)) (.lit .origin (.int 1))),
        .assign .origin "i" (.lit .origin (.int 0)),
        .whileLoop .origin (.binary .origin .lt (.var .origin "i") (.var .origin "bound"))
          (.assign .origin "i"
            (.binary .origin .add (.var .origin "i") (.lit .origin (.int 1)))),
        .ifElse .origin (.binary .origin .lt (.var .origin "bound") (.lit .origin (.int 0)))
          (.assign .origin "i" (.lit .origin (.int 0))) (.block .origin []),
        .ret .origin (some (.binary .origin .add (.var .origin "i") (.var .origin "bound")))]
      pos := .origin }]
    pos := .origin }

/-- The rewritten loop counts to its bound as well. -/
theorem countUp_optimized_terminates :
    ∃ st', countUp.Accepted ∧ "<any>" ∉ countUp.typeNames ∧ countUp.optimize ≠ countUp ∧
      countUp.optimize.Terminates 0 (fun _ memory ↦ (.null, memory)) (.object 0)
        ⟨fun _ ↦ .null, ⟨fun _ ↦ .null, []⟩, []⟩ (.returned (some (.int 4))) st' := by
  have haccepted : countUp.Accepted := accepted_iff.mpr (by decide)
  have hany : "<any>" ∉ countUp.typeNames := by decide
  have hne : countUp.optimize ≠ countUp := by
    intro heq
    have hcount := congrArg (fun p : Program ↦ p.foldCount) heq
    revert hcount
    decide
  obtain ⟨st', hrun⟩ : ∃ st', countUp.Terminates 0 (fun _ memory ↦ (.null, memory)) (.object 0)
      ⟨fun _ ↦ .null, ⟨fun _ ↦ .null, []⟩, []⟩ (.returned (some (.int 4))) st' :=
    ⟨_, _, rfl, 3, rfl⟩
  exact ⟨st', haccepted, hany, hne,
    (terminates_iff_optimized_terminates haccepted hany 0 _ _ _ _ _).2.2.mp hrun⟩

end Program

end Tricode
