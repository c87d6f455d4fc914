import Tricode.Proofs.AcceptedFaults
import Tricode.Proofs.Reporting

/-!
# One more import

An import can matter in four places: a name may come to stand for the class it brings in, a call
on that name becomes static, two imported classes are assignable to each other, and a unit with
imports may call methods it does not declare. Only the first two could change the code, and only
where a name stood for nothing before. In an accepted unit no name does, so types and code stay as
they are. The other two turn a rule that failed into one that is met, never the other way round.

So an import whose name is not taken can be added to an accepted unit without effect: it is
accepted with the same warnings, and its code is the same but for the list of imports.
-/

namespace Tricode

open Diagnostic (Clean clean_flatMap)

/-! ## Tables and scopes -/

/-- The table with the dotted path `path` as its last import. -/
def Table.withImport (t : Table) (path : String) : Table :=
  { t with imports := t.imports ++ [path] }

namespace Table

variable {t : Table} {path : String}

theorem isImported_withImport {name : String} (h : t.isImported name = true) :
    (t.withImport path).isImported name = true := by
  rw [isImported, importNames, List.contains_iff_mem] at h ⊢
  rw [withImport, List.map_append]
  exact List.mem_append_left _ h

theorem hasImports_withImport : (t.withImport path).hasImports = true := by
  simp [hasImports, withImport]

theorem assignable_withImport {dest src : Ty} (h : Ty.assignable t.env dest src = true) :
    Ty.assignable (t.withImport path).env dest src = true := by
  have himported : ∀ {name : String}, t.env.isImported name = true →
      (t.withImport path).env.isImported name = true := isImported_withImport
  unfold Ty.assignable at h ⊢
  simp only [Bool.or_eq_true, Bool.and_eq_true] at h ⊢
  rcases h with hsame | ⟨hclasses, (⟨hdest, hsrc⟩ | hsub) | hsuper⟩
  · exact .inl hsame
  · exact .inr ⟨hclasses, .inl (.inl ⟨himported hdest, himported hsrc⟩)⟩
  · exact .inr ⟨hclasses, .inl (.inr hsub)⟩
  · exact .inr ⟨hclasses, .inr hsuper⟩

end Table

namespace Scope

/-- The scope in a unit with one more import. -/
def withImport (s : Scope) (path : String) : Scope := ⟨s.table.withImport path, s.method⟩

/-- The name that is mentioned stands for something. Methods and classes are not looked up. -/
def Binds (s : Scope) : Mention → Prop
  | .value name | .receiver name | .dropped name | .target name => s.lookup name ≠ .unbound
  | .this | .object _ | .elements _ | .own _ | .other _ | .ret _ => True

variable {s : Scope} {path : String} {pos : Position}

/-! ## What is bound

A name in front of a call or alone in a statement is mentioned in a way of its own, but what it has
to stand for is the same as that of a value. -/

theorem binds_of_asReceiver {receiver : Expr} {method : String}
    (h : ∀ u ∈ receiver.asReceiver method receiver.mentions, s.Binds u) :
    ∀ u ∈ receiver.mentions, s.Binds u := by
  cases receiver with
  | this p => exact List.forall_mem_singleton.mpr trivial
  | var p name => exact List.forall_mem_singleton.mpr (h (.receiver name) List.mem_cons_self)
  | _ => exact fun u hu ↦ h u (List.mem_append_left _ hu)

theorem binds_asReceiver {receiver : Expr} {method : String}
    (h : ∀ u ∈ receiver.mentions, s.Binds u) :
    ∀ u ∈ receiver.asReceiver method receiver.mentions, s.Binds u := by
  cases receiver with
  | this p => exact List.forall_mem_singleton.mpr trivial
  | var p name =>
    have hname : s.lookup name ≠ .unbound := h (.value name) List.mem_cons_self
    exact List.forall_mem_cons.mpr ⟨hname, List.forall_mem_singleton.mpr trivial⟩
  | _ => exact List.forall_mem_append.mpr ⟨h, List.forall_mem_singleton.mpr trivial⟩

theorem binds_of_asStatement {e : Expr} (h : ∀ u ∈ e.asStatement e.mentions, s.Binds u) :
    ∀ u ∈ e.mentions, s.Binds u := by
  cases e with
  | this p => exact List.forall_mem_singleton.mpr trivial
  | var p name => exact List.forall_mem_singleton.mpr (h (.dropped name) List.mem_cons_self)
  | _ => exact h

theorem binds_asStatement {e : Expr} (h : ∀ u ∈ e.mentions, s.Binds u) :
    ∀ u ∈ e.asStatement e.mentions, s.Binds u := by
  cases e with
  | this p => exact fun u hu ↦ absurd hu List.not_mem_nil
  | var p name =>
    have hname : s.lookup name ≠ .unbound := h (.value name) List.mem_cons_self
    exact List.forall_mem_singleton.mpr hname
  | _ => exact h

theorem binds_mentionsAll {es : List Expr} :
    (∀ u ∈ Expr.mentionsAll es, s.Binds u) ↔ ∀ e ∈ es, ∀ u ∈ e.mentions, s.Binds u := by
  rw [Expr.mentionsAll_eq_flatMap, List.forall_mem_flatMap]

/-- Every name in an accepted expression stands for something. -/
theorem Accepts.binds {e : Expr} (h : s.Accepts e) : ∀ u ∈ e.mentions, s.Binds u := by
  induction e using Expr.memberInduct with
  | lit p value => exact fun u hu ↦ absurd hu List.not_mem_nil
  | this p => exact List.forall_mem_singleton.mpr trivial
  | var p name => exact List.forall_mem_singleton.mpr (lookup_ne_unbound (accepts_var.mp h))
  | not p operand ih => exact ih (accepts_not.mp h).1
  | binary p op lhs rhs ihl ihr =>
    obtain ⟨hl, hr, -⟩ := accepts_binary.mp h
    exact List.forall_mem_append.mpr ⟨ihl hl, ihr hr⟩
  | index p base idx ihb ihi =>
    obtain ⟨hb, hi, -⟩ := accepts_index.mp h
    exact List.forall_mem_append.mpr ⟨ihb hb, ihi hi⟩
  | array p elements ih =>
    exact binds_mentionsAll.mpr fun e he ↦ ih e he ((accepts_array.mp h).1 e he)
  | newArray p elem size ih =>
    exact List.forall_mem_cons.mpr ⟨trivial, ih (accepts_newArray.mp h).1⟩
  | newObject p className => exact List.forall_mem_singleton.mpr trivial
  | length p base ih => exact ih (accepts_length.mp h).1
  | call p method args ih =>
    refine List.forall_mem_cons.mpr ⟨trivial, ?_⟩
    exact binds_mentionsAll.mpr fun e he ↦ ih e he ((accepts_call.mp h).1 e he)
  | callOn p receiver method args ihr iha =>
    obtain ⟨hr, ha, -⟩ := accepts_callOn.mp h
    refine List.forall_mem_append.mpr ⟨binds_asReceiver (ihr hr), ?_⟩
    exact binds_mentionsAll.mpr fun e he ↦ iha e he (ha e he)

theorem binds_mentionsAll_stmts {stmts : List Stmt} :
    (∀ u ∈ Stmt.mentionsAll stmts, s.Binds u) ↔
      ∀ stmt ∈ stmts, ∀ u ∈ stmt.mentions, s.Binds u := by
  rw [Stmt.mentionsAll_eq_flatMap, List.forall_mem_flatMap]

theorem AcceptsStmt.binds {stmt : Stmt} (h : s.AcceptsStmt stmt) :
    ∀ u ∈ stmt.mentions, s.Binds u := by
  induction stmt using Stmt.memberInduct with
  | block p stmts ih =>
    exact binds_mentionsAll_stmts.mpr fun stmt hs ↦ ih stmt hs (acceptsStmt_block.mp h stmt hs)
  | ifElse p cond thenBranch elseBranch ihThen ihElse =>
    obtain ⟨hcond, -, hthen, helse⟩ := acceptsStmt_ifElse.mp h
    refine List.forall_mem_append.mpr ⟨?_, ihElse helse⟩
    exact List.forall_mem_append.mpr ⟨hcond.binds, ihThen hthen⟩
  | whileLoop p cond body ihBody =>
    obtain ⟨hcond, -, hbody⟩ := acceptsStmt_whileLoop.mp h
    exact List.forall_mem_append.mpr ⟨hcond.binds, ihBody hbody⟩
  | eval p expr => exact binds_asStatement (acceptsStmt_eval.mp h).binds
  | assign p target value =>
    obtain ⟨hvalue, htarget, -⟩ := acceptsStmt_assign.mp h
    exact List.forall_mem_cons.mpr ⟨lookup_target_ne_unbound htarget, hvalue.binds⟩
  | store p target index value =>
    obtain ⟨htarget, hindex, hvalue, -⟩ := acceptsStmt_store.mp h
    refine List.forall_mem_cons.mpr ⟨lookup_target_ne_unbound htarget, ?_⟩
    exact List.forall_mem_append.mpr ⟨hindex.binds, hvalue.binds⟩
  | ret p value =>
    refine List.forall_mem_cons.mpr ⟨trivial, ?_⟩
    cases value with
    | none => exact fun u hu ↦ absurd hu List.not_mem_nil
    | some value => exact (acceptsStmt_ret_some.mp h).1.binds

/-! ## Types -/

theorem lookup_withImport {name : String} (h : s.lookup name ≠ .unbound) :
    (s.withImport path).lookup name = s.lookup name := by
  have hvariable : (s.withImport path).findVariable name = s.findVariable name := rfl
  unfold lookup at h ⊢
  rw [hvariable]
  split
  · rfl
  · rename_i hfind
    rw [hfind] at h
    cases himported : s.table.isImported name with
    | false => simp [himported] at h
    | true =>
      have hmore : (s.withImport path).table.isImported name = true :=
        Table.isImported_withImport himported
      rw [hmore]

theorem variableTy_withImport {name : String} (h : s.lookup name ≠ .unbound) :
    (s.withImport path).variableTy name = s.variableTy name := by
  rw [variableTy, variableTy, lookup_withImport h]
  rfl

theorem targetTy_withImport {name : String} (h : s.lookup name ≠ .unbound) :
    (s.withImport path).targetTy name = s.targetTy name := by
  rw [targetTy, targetTy, lookup_withImport h, variableTy_withImport h]

theorem variableProblems_withImport {name : String} (h : s.lookup name ≠ .unbound) :
    (s.withImport path).variableProblems pos name = s.variableProblems pos name := by
  rw [variableProblems, variableProblems, lookup_withImport h]
  rfl

theorem targetProblems_withImport {name : String} (h : s.lookup name ≠ .unbound) :
    (s.withImport path).targetProblems pos name = s.targetProblems pos name := by
  rw [targetProblems, targetProblems, lookup_withImport h, variableProblems_withImport h]

theorem typesOf_withImport_of {es : List Expr}
    (h : ∀ e ∈ es, (s.withImport path).typeOf e = s.typeOf e) :
    (s.withImport path).typesOf es = s.typesOf es := by
  rw [typesOf_eq_map, typesOf_eq_map]
  exact List.map_congr_left h

theorem typeOf_withImport {e : Expr} (h : ∀ u ∈ e.mentions, s.Binds u) :
    (s.withImport path).typeOf e = s.typeOf e := by
  induction e using Expr.memberInduct with
  | lit | this | not | newArray | newObject | length | call => rfl
  | var p name =>
    have hname : s.lookup name ≠ .unbound := h (.value name) List.mem_cons_self
    exact variableTy_withImport hname
  | binary p op lhs rhs ihl ihr =>
    obtain ⟨hl, hr⟩ := List.forall_mem_append.mp h
    rw [typeOf, typeOf, ihl hl, ihr hr]
  | index p base idx ihb ihi =>
    rw [typeOf, typeOf, ihb (List.forall_mem_append.mp h).1]
  | array p elements ih =>
    rw [typeOf, typeOf, typesOf_withImport_of fun e he ↦ ih e he (binds_mentionsAll.mp h e he)]
  | callOn p receiver method args ihr iha =>
    have hr := binds_of_asReceiver (List.forall_mem_append.mp h).1
    rw [typeOf, typeOf, ihr hr]
    rfl

theorem typesOf_withImport {es : List Expr} (h : ∀ u ∈ Expr.mentionsAll es, s.Binds u) :
    (s.withImport path).typesOf es = s.typesOf es :=
  typesOf_withImport_of fun e he ↦ typeOf_withImport (binds_mentionsAll.mp h e he)

theorem arguments_withImport {args : List Expr} (h : ∀ e ∈ args, s.Accepts e) :
    (s.withImport path).arguments args = s.arguments args :=
  List.map_congr_left fun e he ↦ by rw [typeOf_withImport (h e he).binds]

/-! ## Rules -/

theorem clean_argumentProblems_withImport {sig : Signature} {args : List Argument}
    (h : Clean (s.argumentProblems sig pos args)) :
    Clean ((s.withImport path).argumentProblems sig pos args) := by
  have hfixed : Clean (s.fixedArgumentProblems sig args) →
      Clean ((s.withImport path).fixedArgumentProblems sig args) := by
    unfold fixedArgumentProblems
    rw [clean_flatMap, clean_flatMap]
    rintro hargs ⟨⟨arg, param⟩, i⟩ harg
    have hrule := hargs _ harg
    simp only [argumentProblem, Diagnostic.clean_require] at hrule ⊢
    exact Table.assignable_withImport hrule
  unfold argumentProblems at h ⊢
  split at h
  · rename_i hcount
    rw [if_pos hcount, Diagnostic.clean_append]
    rw [Diagnostic.clean_append] at h
    exact ⟨hfixed h.1, h.2⟩
  · exact absurd h Diagnostic.not_clean_error_cons

theorem clean_ownCallProblems_withImport {implicitThis : Bool} {method : String}
    {args : List Argument} (h : Clean (s.ownCallProblems pos implicitThis method args [])) :
    Clean ((s.withImport path).ownCallProblems pos implicitThis method args []) := by
  have hmethod : (s.withImport path).table.method? method = s.table.method? method := rfl
  unfold ownCallProblems at h ⊢
  rw [hmethod]
  cases hfound : s.table.method? method with
  | none =>
    -- With an import there is nothing wrong with a method that the class lacks.
    rw [List.nil_append, Diagnostic.clean_require]
    exact Table.hasImports_withImport
  | some sig =>
    rw [hfound] at h
    simp only [Diagnostic.clean_append] at h ⊢
    exact ⟨h.1, clean_argumentProblems_withImport h.2⟩

theorem Accepts.withImport {e : Expr} (h : s.Accepts e) : (s.withImport path).Accepts e := by
  -- An accepted part binds all that it mentions. So its type stays, and the rules about it are met
  -- as before.
  induction e using Expr.memberInduct with
  | lit | this | newObject => exact h
  | var p name =>
    rw [accepts_var] at h ⊢
    rwa [variableProblems_withImport (lookup_ne_unbound h)]
  | not p operand ih =>
    obtain ⟨ho, hty⟩ := accepts_not.mp h
    exact accepts_not.mpr ⟨ih ho, typeOf_withImport ho.binds ▸ hty⟩
  | binary p op lhs rhs ihl ihr =>
    obtain ⟨hl, hr, htyl, htyr⟩ := accepts_binary.mp h
    rw [accepts_binary, typeOf_withImport hl.binds, typeOf_withImport hr.binds]
    exact ⟨ihl hl, ihr hr, htyl, htyr⟩
  | index p base idx ihb ihi =>
    obtain ⟨hb, hi, hrules⟩ := accepts_index.mp h
    rw [accepts_index, typeOf_withImport hb.binds, typeOf_withImport hi.binds]
    exact ⟨ihb hb, ihi hi, hrules⟩
  | array p elements ih =>
    obtain ⟨hes, hrule⟩ := accepts_array.mp h
    refine accepts_array.mpr ⟨fun e he ↦ ih e he (hes e he), ?_⟩
    rw [typesOf_withImport_of fun e he ↦ typeOf_withImport (hes e he).binds]
    intro elem hcommon e he
    rw [typeOf_withImport (hes e he).binds]
    exact hrule elem hcommon e he
  | newArray p elem size ih =>
    obtain ⟨hsize, hty⟩ := accepts_newArray.mp h
    exact accepts_newArray.mpr ⟨ih hsize, typeOf_withImport hsize.binds ▸ hty⟩
  | length p base ih =>
    obtain ⟨hb, hty⟩ := accepts_length.mp h
    exact accepts_length.mpr ⟨ih hb, typeOf_withImport hb.binds ▸ hty⟩
  | call p method args ih =>
    obtain ⟨ha, hcall⟩ := accepts_call.mp h
    rw [accepts_call, arguments_withImport ha]
    exact ⟨fun e he ↦ ih e he (ha e he), clean_ownCallProblems_withImport hcall⟩
  | callOn p receiver method args ihr iha =>
    obtain ⟨hr, ha, hsome, hown⟩ := accepts_callOn.mp h
    rw [accepts_callOn, typeOf_withImport hr.binds, arguments_withImport ha]
    exact ⟨ihr hr, fun e he ↦ iha e he (ha e he), hsome,
      fun hresponder ↦ clean_ownCallProblems_withImport (hown hresponder)⟩

theorem AcceptsStmt.withImport {stmt : Stmt} (h : s.AcceptsStmt stmt) :
    (s.withImport path).AcceptsStmt stmt := by
  induction stmt using Stmt.memberInduct with
  | block p stmts ih =>
    exact acceptsStmt_block.mpr fun stmt hs ↦ ih stmt hs (acceptsStmt_block.mp h stmt hs)
  | ifElse p cond thenBranch elseBranch ihThen ihElse =>
    obtain ⟨hcond, hty, hthen, helse⟩ := acceptsStmt_ifElse.mp h
    rw [acceptsStmt_ifElse, typeOf_withImport hcond.binds]
    exact ⟨hcond.withImport, hty, ihThen hthen, ihElse helse⟩
  | whileLoop p cond body ihBody =>
    obtain ⟨hcond, hty, hbody⟩ := acceptsStmt_whileLoop.mp h
    rw [acceptsStmt_whileLoop, typeOf_withImport hcond.binds]
    exact ⟨hcond.withImport, hty, ihBody hbody⟩
  | eval p expr => exact acceptsStmt_eval.mpr (acceptsStmt_eval.mp h).withImport
  | assign p target value =>
    obtain ⟨hvalue, htarget, hrule⟩ := acceptsStmt_assign.mp h
    have hbound := lookup_target_ne_unbound htarget
    rw [acceptsStmt_assign, targetProblems_withImport hbound, targetTy_withImport hbound,
      typeOf_withImport hvalue.binds]
    exact ⟨hvalue.withImport, htarget, Table.assignable_withImport hrule⟩
  | store p target index value =>
    obtain ⟨htarget, hindex, hvalue, hty, hrule⟩ := acceptsStmt_store.mp h
    have hbound := lookup_target_ne_unbound htarget
    rw [acceptsStmt_store, targetProblems_withImport hbound, targetTy_withImport hbound,
      typeOf_withImport hindex.binds, typeOf_withImport hvalue.binds]
    refine ⟨htarget, hindex.withImport, hvalue.withImport, hty, hrule.imp_right ?_⟩
    exact fun harray ↦ ⟨harray.1, Table.assignable_withImport harray.2⟩
  | ret p value =>
    cases value with
    | none => exact acceptsStmt_ret_none.mpr (acceptsStmt_ret_none.mp h)
    | some value =>
      obtain ⟨hvalue, hvoid, hrule⟩ := acceptsStmt_ret_some.mp h
      rw [acceptsStmt_ret_some, typeOf_withImport hvalue.binds]
      exact ⟨hvalue.withImport, hvoid, Table.assignable_withImport hrule⟩

/-! ## Code -/

theorem lowerVar_withImport {name : String} (h : s.lookup name ≠ .unbound) :
    (s.withImport path).lowerVar pos name = s.lowerVar pos name := by
  rw [lowerVar, lowerVar, lookup_withImport h]

theorem objectDispatch_withImport {receiver : Expr} {emit : Emit} {method : String}
    (h : ∀ u ∈ receiver.mentions, s.Binds u) :
    (s.withImport path).objectDispatch pos receiver emit method =
      s.objectDispatch pos receiver emit method := by
  rw [objectDispatch, objectDispatch, receiverHint, receiverHint, typeOf_withImport h]
  rfl

theorem dispatch_withImport {receiver : Expr} {emit : Emit} {method : String}
    (h : ∀ u ∈ receiver.mentions, s.Binds u) :
    (s.withImport path).dispatch pos receiver emit method =
      s.dispatch pos receiver emit method := by
  cases receiver with
  | this p => rfl
  | var p name =>
    have hname : s.lookup name ≠ .unbound := h (.value name) List.mem_cons_self
    rw [dispatch, dispatch, lookup_withImport hname, objectDispatch_withImport h]
  | _ => exact objectDispatch_withImport h

theorem lowerCall_withImport {receiver : Lower Dispatch} {method : String} {args : List Expr}
    {emits : List Emit} {retHint : Ty} (h : ∀ u ∈ Expr.mentionsAll args, s.Binds u) :
    (s.withImport path).lowerCall receiver method args emits retHint =
      s.lowerCall receiver method args emits retHint := by
  have hhints : args.map (s.withImport path).argumentHint = args.map s.argumentHint :=
    List.map_congr_left fun e he ↦ by
      rw [argumentHint, argumentHint, typeOf_withImport (binds_mentionsAll.mp h e he)]
  have hsteps : List.zipWith (fun arg emit ↦ emit ((s.withImport path).argumentHint arg)) args
      emits = List.zipWith (fun arg emit ↦ emit (s.argumentHint arg)) args emits := by
    have hzip := congrArg (List.zipWith (fun hint (emit : Emit) ↦ emit hint) · emits) hhints
    rwa [List.zipWith_map_left, List.zipWith_map_left] at hzip
  rw [lowerCall, lowerCall, hsteps]

theorem lowerEach_withImport_of {es : List Expr}
    (h : ∀ e ∈ es, (s.withImport path).lowerExpr e = s.lowerExpr e) :
    (s.withImport path).lowerEach es = s.lowerEach es := by
  rw [lowerEach_eq_map, lowerEach_eq_map]
  exact List.map_congr_left h

theorem lowerExpr_withImport {e : Expr} (h : ∀ u ∈ e.mentions, s.Binds u) :
    (s.withImport path).lowerExpr e = s.lowerExpr e := by
  -- Both sides await the expected type, which differs from part to part.
  funext expected
  induction e using Expr.memberInduct generalizing expected with
  | lit | this | newObject => rfl
  | var p name =>
    have hname : s.lookup name ≠ .unbound := h (.value name) List.mem_cons_self
    exact lowerVar_withImport hname
  | not p operand ih => rw [lowerExpr, lowerExpr, funext (ih h)]
  | binary p op lhs rhs ihl ihr =>
    obtain ⟨hl, hr⟩ := List.forall_mem_append.mp h
    rw [lowerExpr, lowerExpr, funext (ihl hl), funext (ihr hr)]
  | index p base idx ihb ihi =>
    obtain ⟨hb, hi⟩ := List.forall_mem_append.mp h
    rw [lowerExpr, lowerExpr, funext (ihb hb), funext (ihi hi)]
  | array p elements ih =>
    rw [lowerExpr, lowerExpr, literalElement, literalElement, typesOf_withImport h,
      lowerEach_withImport_of fun e he ↦ funext (ih e he (binds_mentionsAll.mp h e he))]
  | newArray p elem size ih =>
    rw [lowerExpr, lowerExpr, funext (ih (List.forall_mem_cons.mp h).2)]
  | length p base ih => rw [lowerExpr, lowerExpr, funext (ih h)]
  | call p method args ih =>
    have ha := (List.forall_mem_cons.mp h).2
    rw [lowerExpr, lowerExpr, lowerCallValue, lowerCallValue, lowerCall_withImport ha,
      lowerEach_withImport_of fun e he ↦ funext (ih e he (binds_mentionsAll.mp ha e he))]
    rfl
  | callOn p receiver method args ihr iha =>
    obtain ⟨hr, ha⟩ := List.forall_mem_append.mp h
    have hreceiver := binds_of_asReceiver hr
    rw [lowerExpr, lowerExpr, lowerCallValue, lowerCallValue, lowerCall_withImport ha,
      funext (ihr hreceiver), dispatch_withImport hreceiver,
      lowerEach_withImport_of fun e he ↦ funext (iha e he (binds_mentionsAll.mp ha e he))]

theorem lowerEach_withImport {es : List Expr} (h : ∀ u ∈ Expr.mentionsAll es, s.Binds u) :
    (s.withImport path).lowerEach es = s.lowerEach es :=
  lowerEach_withImport_of fun e he ↦ lowerExpr_withImport (binds_mentionsAll.mp h e he)

theorem lowerCond_withImport {cond : Expr} (h : ∀ u ∈ cond.mentions, s.Binds u) :
    (s.withImport path).lowerCond cond = s.lowerCond cond := by
  have htruthy : (s.withImport path).lowerTruthy cond = s.lowerTruthy cond := by
    rw [lowerTruthy, lowerTruthy, lowerExpr_withImport h]
  cases cond with
  | binary p op lhs rhs =>
    obtain ⟨hl, hr⟩ := List.forall_mem_append.mp h
    rw [lowerCond, lowerCond, htruthy, lowerExpr_withImport hl, lowerExpr_withImport hr]
  | _ => exact htruthy

theorem lowerEval_withImport {e : Expr} (h : ∀ u ∈ e.mentions, s.Binds u) :
    (s.withImport path).lowerEval pos e = s.lowerEval pos e := by
  have hvalue : (s.withImport path).lowerExpr e = s.lowerExpr e := lowerExpr_withImport h
  cases e with
  | call p method args =>
    have ha := (List.forall_mem_cons.mp h).2
    rw [lowerEval, lowerEval, lowerCall_withImport ha, lowerEach_withImport ha]
    rfl
  | callOn p receiver method args =>
    obtain ⟨hr, ha⟩ := List.forall_mem_append.mp h
    have hreceiver := binds_of_asReceiver hr
    rw [lowerEval, lowerEval, lowerCall_withImport ha, lowerEach_withImport ha,
      lowerExpr_withImport hreceiver, dispatch_withImport hreceiver]
  | _ => exact congrArg (fun emit : Emit ↦ emit none >>= fun value ↦ pure value.code) hvalue

theorem lowerAssign_withImport {target : String} {value : Expr}
    (htarget : s.lookup target ≠ .unbound) (hvalue : ∀ u ∈ value.mentions, s.Binds u) :
    (s.withImport path).lowerAssign pos target value = s.lowerAssign pos target value := by
  rw [lowerAssign, lowerAssign, lookup_withImport htarget, lowerExpr_withImport hvalue]

theorem lowerStore_withImport {target : String} {index value : Expr}
    (htarget : s.lookup target ≠ .unbound) (hindex : ∀ u ∈ index.mentions, s.Binds u)
    (hvalue : ∀ u ∈ value.mentions, s.Binds u) :
    (s.withImport path).lowerStore pos target index value =
      s.lowerStore pos target index value := by
  rw [lowerStore, lowerStore, lowerVar_withImport htarget, lowerExpr_withImport hindex,
    lowerExpr_withImport hvalue]

theorem lowerStmts_withImport_of {stmts : List Stmt}
    (h : ∀ stmt ∈ stmts, (s.withImport path).lowerStmt stmt = s.lowerStmt stmt) :
    (s.withImport path).lowerStmts stmts = s.lowerStmts stmts := by
  induction stmts with
  | nil => rfl
  | cons stmt stmts ih =>
    obtain ⟨hhead, htail⟩ := List.forall_mem_cons.mp h
    rw [lowerStmts, lowerStmts, hhead, ih htail]

theorem lowerStmt_withImport {stmt : Stmt} (h : ∀ u ∈ stmt.mentions, s.Binds u) :
    (s.withImport path).lowerStmt stmt = s.lowerStmt stmt := by
  induction stmt using Stmt.memberInduct with
  | block p stmts ih =>
    exact lowerStmts_withImport_of fun stmt hs ↦ ih stmt hs (binds_mentionsAll_stmts.mp h stmt hs)
  | ifElse p cond thenBranch elseBranch ihThen ihElse =>
    obtain ⟨hfirst, helse⟩ := List.forall_mem_append.mp h
    obtain ⟨hcond, hthen⟩ := List.forall_mem_append.mp hfirst
    rw [lowerStmt, lowerStmt, lowerCond_withImport hcond, ihThen hthen, ihElse helse]
  | whileLoop p cond body ihBody =>
    obtain ⟨hcond, hbody⟩ := List.forall_mem_append.mp h
    rw [lowerStmt, lowerStmt, lowerCond_withImport hcond, ihBody hbody]
  | eval p expr => exact lowerEval_withImport (binds_of_asStatement h)
  | assign p target value =>
    obtain ⟨htarget, hvalue⟩ := List.forall_mem_cons.mp h
    exact lowerAssign_withImport htarget hvalue
  | store p target index value =>
    obtain ⟨htarget, hparts⟩ := List.forall_mem_cons.mp h
    obtain ⟨hindex, hvalue⟩ := List.forall_mem_append.mp hparts
    exact lowerStore_withImport htarget hindex hvalue
  | ret p value =>
    cases value with
    | none => rfl
    | some value =>
      have hvalue := (List.forall_mem_cons.mp h).2
      show (s.withImport path).lowerReturn _ = s.lowerReturn _
      rw [lowerReturn, lowerReturn, lowerExpr_withImport hvalue]
      rfl

theorem lowerStmts_withImport {stmts : List Stmt} (h : ∀ u ∈ Stmt.mentionsAll stmts, s.Binds u) :
    (s.withImport path).lowerStmts stmts = s.lowerStmts stmts :=
  lowerStmts_withImport_of fun stmt hs ↦
    lowerStmt_withImport (binds_mentionsAll_stmts.mp h stmt hs)

end Scope

/-! ## Units -/

theorem Table.lowerMethods_withImport {t : Table} {path : String} {ms : List MethodDecl}
    (h : ∀ m ∈ ms, ∀ u ∈ Stmt.mentionsAll m.body, Scope.Binds ⟨t, m.signature⟩ u) :
    (t.withImport path).lowerMethods ms (ms.map MethodDecl.signature) =
      t.lowerMethods ms (ms.map MethodDecl.signature) := by
  induction ms with
  | nil => rfl
  | cons m ms ih =>
    obtain ⟨hhead, htail⟩ := List.forall_mem_cons.mp h
    have hbody : Scope.lowerStmts ⟨t.withImport path, m.signature⟩ m.body =
        Scope.lowerStmts ⟨t, m.signature⟩ m.body := Scope.lowerStmts_withImport hhead
    rw [List.map_cons, lowerMethods, lowerMethods, lowerMethod, lowerMethod, hbody, ih htail]

/-- No name is repeated exactly if the names differ from each other and from those already seen. -/
theorem repeated_go_eq_nil_iff {α : Type} {name : α → String} {seen : List String} {xs : List α} :
    repeated.go name seen xs = [] ↔ (∀ x ∈ xs, name x ∉ seen) ∧ (xs.map name).Nodup := by
  induction xs generalizing seen with
  | nil => simp [repeated.go]
  | cons x xs ih =>
    rw [repeated.go]
    by_cases hseen : name x ∈ seen
    · simp [hseen]
    · rw [if_neg (by simpa using hseen), ih]
      simp only [List.mem_cons, not_or, List.map_cons, List.nodup_cons, List.mem_map, not_exists,
        not_and, forall_eq_or_imp]
      exact ⟨fun h ↦ ⟨⟨hseen, fun y hy ↦ (h.1 y hy).2⟩, fun y hy ↦ (h.1 y hy).1, h.2⟩,
        fun h ↦ ⟨fun y hy ↦ ⟨h.2.1 y hy, h.1.2 y hy⟩, h.2.2⟩⟩

namespace Program

variable {p : Program} {i : Import}

/-- The unit with `i` as its last import. -/
def withImport (p : Program) (i : Import) : Program := { p with imports := p.imports ++ [i] }

theorem table_withImport : (p.withImport i).table = p.table.withImport i.qualified := by
  simp [table, withImport, Table.withImport]

theorem prepared_withImport {o : Options} :
    (p.withImport i).prepared o = (p.prepared o).withImport i := by
  unfold prepared
  split <;> rfl

theorem clean_importProblems_iff :
    Clean p.importProblems ↔
      (p.imports.map Import.name).Nodup ∧ p.decl.name ∉ p.imports.map Import.name := by
  have hrepeated : Clean ((repeated Import.name p.imports).map fun i ↦
      Diagnostic.error i.pos (.duplicateImport i.name)) ↔
      repeated Import.name p.imports = [] := by
    cases repeated Import.name p.imports with
    | nil => simp
    | cons i is => simp
  rw [importProblems, Diagnostic.clean_append, hrepeated, Diagnostic.clean_require, repeated,
    repeated_go_eq_nil_iff]
  simp

/-- The table lists an import under what follows the last dot of its name, so a name without a dot
that no import in the table has is not that of an import. -/
theorem newName_not_mem_imports (hdots : ∀ segment ∈ i.path, '.' ∉ segment.toList)
    (hnew : i.name ∉ p.table.importNames) : i.name ∉ p.imports.map Import.name := by
  intro hmem
  obtain ⟨j, hj, hname⟩ := List.mem_map.mp hmem
  refine hnew (List.mem_map.mpr ⟨j.qualified, List.mem_map_of_mem hj, ?_⟩)
  rw [j.lastSegment_qualified_eq, hname, ← i.lastSegment_qualified_eq,
    Import.lastSegment_qualified hdots]

theorem clean_go_withImport {seen : List String} {ms : List MethodDecl}
    (h : Clean (methodProblems.go p seen ms)) :
    Clean (methodProblems.go (p.withImport i) seen ms) := by
  induction ms generalizing seen with
  | nil => exact h
  | cons m ms ih =>
    obtain ⟨hname, hm, hms⟩ := clean_go_cons.mp h
    obtain ⟨hshape, hdecls, hbody⟩ := MethodDecl.clean_problems.mp hm
    rw [clean_go_cons, MethodDecl.clean_problems, table_withImport]
    exact ⟨hname, ⟨hshape, hdecls, fun stmt hs ↦ (hbody stmt hs).withImport⟩, ih hms⟩

theorem Accepted.withImport (h : p.Accepted)
    (hdots : ∀ segment ∈ i.path, '.' ∉ segment.toList) (hclass : i.name ≠ p.decl.name)
    (hnew : i.name ∉ p.table.importNames) : (p.withImport i).Accepted := by
  obtain ⟨himports, hfields, hmethods⟩ := accepted_iff.mp h
  refine accepted_iff.mpr ⟨?_, hfields, clean_go_withImport hmethods⟩
  obtain ⟨hnodup, hname⟩ := clean_importProblems_iff.mp himports
  have hfresh := newName_not_mem_imports hdots hnew
  rw [clean_importProblems_iff, Program.withImport, List.map_append, List.nodup_append]
  refine ⟨⟨hnodup, List.nodup_singleton _, ?_⟩, ?_⟩
  · rintro name hmem other hother rfl
    rw [List.map_singleton, List.mem_singleton] at hother
    exact hfresh (hother ▸ hmem)
  · rw [List.mem_append, List.map_singleton, List.mem_singleton]
    rintro (hmem | heq)
    · exact hname hmem
    · exact hclass heq.symm

theorem Accepted.lower_withImport_eq (h : p.Accepted) (o : Options) :
    (p.withImport i).lower (p.withImport i).table o =
      (p.lower p.table o).map fun code ↦
        { code with imports := code.imports ++ [i.qualified] } := by
  -- A rewritten body mentions nothing that the body it came from does not.
  have hbinds : ∀ m ∈ (p.prepared o).decl.methods, ∀ u ∈ Stmt.mentionsAll m.body,
      Scope.Binds ⟨p.table, m.signature⟩ u :=
    fun m hm ↦ h.forall_mentions hm fun stmt hstmt ↦ hstmt.binds
  have hsigs : p.table.methods = (p.prepared o).decl.methods.map MethodDecl.signature :=
    congrArg Table.methods (p.table_prepared o).symm
  have hmethods : (p.table.withImport i.qualified).lowerMethods (p.prepared o).decl.methods
      p.table.methods = p.table.lowerMethods (p.prepared o).decl.methods p.table.methods := by
    rw [hsigs]
    exact Table.lowerMethods_withImport hbinds
  have htree : ((p.prepared o).withImport i).decl = (p.prepared o).decl := rfl
  have htable : (p.table.withImport i.qualified).methods = p.table.methods := rfl
  rw [lower, lower, prepared_withImport, table_withImport, Table.lowerProgram, Table.lowerProgram,
    htree, htable, hmethods, Lower.runFrom_bind, Lower.runFrom_bind]
  rcases (p.table.lowerMethods (p.prepared o).decl.methods p.table.methods).runFrom .zero with
    ⟨fault | methods, c⟩
  · rfl
  · rfl

/-- An import whose name nothing in an accepted unit has taken is without effect. The unit stays
accepted and is given the same warnings. Under all options it is lowered to the same code with one
more import in its list, or fails with the same fault. -/
theorem Accepted.check_lower_withImport (h : p.Accepted)
    (hdots : ∀ segment ∈ i.path, '.' ∉ segment.toList) (hclass : i.name ≠ p.decl.name)
    (hnew : i.name ∉ p.table.importNames) :
    (p.withImport i).Accepted ∧ (p.withImport i).check = p.check ∧
      ∀ o, (p.withImport i).lower (p.withImport i).table o =
        (p.lower p.table o).map fun code ↦
          { code with imports := code.imports ++ [i.qualified] } := by
  have haccepted := h.withImport hdots hclass hnew
  refine ⟨haccepted, ?_, h.lower_withImport_eq⟩
  rw [haccepted.check_eq, h.check_eq]
  rfl

/-- A unit that extends another, calls an imported class, a method of its own and one that it does
not declare, and goes on after it has returned. -/
def herald : Program where
  imports := [⟨["sys", "io"], .origin⟩]
  decl := {
    name := "Herald"
    superclass := some "Clerk"
    fields := [⟨.int, "count", .origin⟩]
    methods := [
      { name := "announce"
        isPublic := true
        isStatic := false
        returnType := .int
        params := [⟨.int, "n", .origin⟩]
        varargs := none
        locals := [⟨.named "Clerk", "clerk", .origin⟩]
        body := [
          .assign .origin "count" (.binary .origin .add (.var .origin "n") (.var .origin "count")),
          .assign .origin "clerk" (.this .origin),
          .eval .origin (.callOn .origin (.var .origin "io") "print" [.var .origin "count"]),
          .eval .origin (.call .origin "reset" []),
          .ret .origin (some (.call .origin "stamp" [.var .origin "clerk"])),
          .eval ⟨9, 5⟩ (.call .origin "reset" [])]
        pos := .origin },
      { name := "reset"
        isPublic := false
        isStatic := false
        returnType := .void
        params := []
        varargs := none
        locals := []
        body := [.assign .origin "count" (.lit .origin (.int 0))]
        pos := .origin }]
    pos := .origin }

/-- An import of a class that the unit above never mentions. -/
def logImport : Import := ⟨["lib", "Log"], .origin⟩

theorem herald_check_lower_withImport :
    herald.Accepted ∧ (∀ segment ∈ logImport.path, '.' ∉ segment.toList) ∧
      logImport.name ≠ herald.decl.name ∧ logImport.name ∉ herald.table.importNames ∧
      (herald.withImport logImport).Accepted ∧
      (herald.withImport logImport).check = herald.check ∧
      ∀ o, ∃ code, herald.lower herald.table o = .ok code ∧
        (herald.withImport logImport).lower (herald.withImport logImport).table o =
          .ok { code with imports := ["sys.io", "lib.Log"] } := by
  have haccepted : herald.Accepted := accepted_iff.mpr (by decide)
  have hdots : ∀ segment ∈ logImport.path, '.' ∉ segment.toList := by decide
  have hclass : logImport.name ≠ herald.decl.name := by decide
  have hnew : logImport.name ∉ herald.table.importNames := by decide
  obtain ⟨hmore, hcheck, hlower⟩ := haccepted.check_lower_withImport hdots hclass hnew
  refine ⟨haccepted, hdots, hclass, hnew, hmore, hcheck, fun o ↦ ?_⟩
  obtain ⟨code, hcode, himports⟩ :
      ∃ code, herald.lower herald.table o = .ok code ∧ code.imports = ["sys.io"] := by
    rcases o with ⟨_ | _, warningsAsErrors⟩
    · exact ⟨_, rfl, rfl⟩
    · exact ⟨_, rfl, rfl⟩
  refine ⟨code, hcode, ?_⟩
  rw [hlower, hcode]
  show Except.ok { code with imports := code.imports ++ ["lib.Log"] } = _
  rw [himports]
  rfl

end Program

end Tricode
