import Tricode.Proofs.Scopes
import Tricode.Propagate

/-!
# Rewritten trees stay accepted

Folding and propagating constants rewrite a tree in place. An expression that takes the place of
another has its position and its type and is accepted where the other was. This is all that
checking looks at from outside, so a tree whose parts are replaced is again a replacement of the
tree. The two passes differ only in the forms they rewrite: folding in operators on literals, and
propagation in variables whose value is known.

Only local variables are ever known, and a known value has the type of its variable. The latter
rests on acceptance: only a literal of the right type may be assigned.
-/

namespace Tricode

namespace Scope

variable {s : Scope} {pos : Position} {e e' : Expr}

theorem accepts_lit (value : Literal) : s.Accepts (.lit pos value) := Diagnostic.clean_nil

/-! ## Replacement -/

/-- `e'` is accepted and looks like `e` to whatever is around it. -/
structure Replaces (s : Scope) (e e' : Expr) : Prop where
  pos : e'.pos = e.pos
  typeOf : s.typeOf e' = s.typeOf e
  accepts : s.Accepts e'

namespace Replaces

theorem refl (h : s.Accepts e) : s.Replaces e e := ⟨rfl, rfl, h⟩

theorem trans {e'' : Expr} (h : s.Replaces e e') (h' : s.Replaces e' e'') : s.Replaces e e'' :=
  ⟨h'.pos.trans h.pos, h'.typeOf.trans h.typeOf, h'.accepts⟩

theorem lit {value : Literal} (hpos : pos = e.pos) (hty : value.ty = s.typeOf e) :
    s.Replaces e (.lit pos value) :=
  ⟨hpos, hty, accepts_lit value⟩

theorem not (h : s.Accepts (.not pos e)) (he : s.Replaces e e') :
    s.Replaces (.not pos e) (.not pos e') := by
  refine ⟨rfl, rfl, accepts_not.mpr ⟨he.accepts, ?_⟩⟩
  rw [he.typeOf]
  exact (accepts_not.mp h).2

theorem binary {op : BinOp} {l l' r r' : Expr} (h : s.Accepts (.binary pos op l r))
    (hl : s.Replaces l l') (hr : s.Replaces r r') :
    s.Replaces (.binary pos op l r) (.binary pos op l' r') := by
  have hty : s.typeOf (.binary pos op l' r') = s.typeOf (.binary pos op l r) := by
    show (if _ then _ else _) = if _ then _ else _
    rw [hl.typeOf, hr.typeOf]
  refine ⟨rfl, hty, ?_⟩
  rw [accepts_binary, hl.typeOf, hr.typeOf]
  exact ⟨hl.accepts, hr.accepts, (accepts_binary.mp h).2.2⟩

theorem index {base base' idx idx' : Expr} (h : s.Accepts (.index pos base idx))
    (hb : s.Replaces base base') (hi : s.Replaces idx idx') :
    s.Replaces (.index pos base idx) (.index pos base' idx') := by
  refine ⟨rfl, congrArg Ty.indexed hb.typeOf, ?_⟩
  rw [accepts_index, hb.typeOf, hi.typeOf]
  exact ⟨hb.accepts, hi.accepts, (accepts_index.mp h).2.2⟩

theorem newArray {elem : TypeExpr} {size size' : Expr} (h : s.Accepts (.newArray pos elem size))
    (hs : s.Replaces size size') :
    s.Replaces (.newArray pos elem size) (.newArray pos elem size') := by
  refine ⟨rfl, rfl, ?_⟩
  rw [accepts_newArray, hs.typeOf]
  exact ⟨hs.accepts, (accepts_newArray.mp h).2⟩

theorem length {base base' : Expr} (h : s.Accepts (.length pos base))
    (hb : s.Replaces base base') : s.Replaces (.length pos base) (.length pos base') := by
  refine ⟨rfl, rfl, ?_⟩
  rw [accepts_length, hb.typeOf]
  exact ⟨hb.accepts, (accepts_length.mp h).2⟩

/-! ### Lists of expressions -/

section

variable {es : List Expr} {f : Expr → Expr} (hf : ∀ e ∈ es, s.Replaces e (f e))
include hf

theorem typesOf : s.typesOf (es.map f) = s.typesOf es := by
  rw [typesOf_eq_map, typesOf_eq_map, List.map_map]
  exact List.map_congr_left fun e he ↦ (hf e he).typeOf

theorem arguments : s.arguments (es.map f) = s.arguments es := by
  rw [Scope.arguments, Scope.arguments, List.map_map]
  refine List.map_congr_left fun e he ↦ ?_
  rw [Function.comp_apply, (hf e he).pos, (hf e he).typeOf]

theorem accepts_map : ∀ e ∈ es.map f, s.Accepts e :=
  List.forall_mem_map.mpr fun e he ↦ (hf e he).accepts

theorem array (h : s.Accepts (.array pos es)) :
    s.Replaces (.array pos es) (.array pos (es.map f)) := by
  refine ⟨rfl, congrArg Ty.ofElements (typesOf hf), ?_⟩
  rw [accepts_array, typesOf hf]
  refine ⟨accepts_map hf, fun elem helem ↦ List.forall_mem_map.mpr fun e he ↦ ?_⟩
  rw [(hf e he).typeOf]
  exact (accepts_array.mp h).2 elem helem e he

theorem call {method : String} (h : s.Accepts (.call pos method es)) :
    s.Replaces (.call pos method es) (.call pos method (es.map f)) := by
  refine ⟨rfl, rfl, ?_⟩
  rw [accepts_call, arguments hf]
  exact ⟨accepts_map hf, (accepts_call.mp h).2⟩

theorem callOn {receiver receiver' : Expr} {method : String}
    (hr : s.Replaces receiver receiver') (h : s.Accepts (.callOn pos receiver method es)) :
    s.Replaces (.callOn pos receiver method es) (.callOn pos receiver' method (es.map f)) := by
  have hty : s.typeOf (.callOn pos receiver' method (es.map f)) =
      s.typeOf (.callOn pos receiver method es) := by
    show (if s.table.responder (s.typeOf receiver') = .own then _ else _) = if _ then _ else _
    rw [hr.typeOf]
  refine ⟨rfl, hty, ?_⟩
  rw [accepts_callOn, arguments hf, hr.typeOf]
  exact ⟨hr.accepts, accepts_map hf, (accepts_callOn.mp h).2.2⟩

end

end Replaces

end Scope

/-! ## Folding -/

namespace BinOp

theorem ty_of_decidedBy {op : BinOp} {l value : Literal} (h : op.decidedBy l = some value) :
    value.ty = op.resultTy := by
  unfold decidedBy at h
  split at h
  · cases h; rfl
  · cases h; rfl
  · cases h

theorem ty_of_evalInt {op : BinOp} {l r : Int32} {value : Literal}
    (h : op.evalInt l r = some value) : value.ty = op.resultTy := by
  cases op with
  | add | sub | mul | div =>
    obtain ⟨n, -, rfl⟩ := Option.map_eq_some_iff.mp h
    rfl
  | rem =>
    obtain ⟨q, -, hq⟩ := Option.bind_eq_some_iff.mp h
    obtain ⟨n, -, rfl⟩ := Option.map_eq_some_iff.mp hq
    rfl
  | lt | gt => cases h; rfl
  | and | or => cases h

theorem ty_of_evalBool {op : BinOp} {l r : Bool} {value : Literal}
    (h : op.evalBool l r = some value) : value.ty = op.resultTy := by
  cases op with
  | and | or => cases h; rfl
  | _ => cases h

/-- An operator on literals has the type it always has. -/
theorem ty_of_reduce {op : BinOp} {lhs rhs : Option Literal} {value : Literal}
    (h : op.reduce lhs rhs = some value) : value.ty = op.resultTy := by
  rw [reduce, Option.or_eq_some_iff] at h
  rcases h with h | ⟨-, h⟩
  · obtain ⟨l, -, hl⟩ := Option.bind_eq_some_iff.mp h
    exact ty_of_decidedBy hl
  · obtain ⟨l, -, hl⟩ := Option.bind_eq_some_iff.mp h
    obtain ⟨r, -, hr⟩ := Option.bind_eq_some_iff.mp hl
    cases l with
    | int l =>
      cases r with
      | int r => exact ty_of_evalInt hr
      | bool r => cases hr
    | bool l =>
      cases r with
      | int r => cases hr
      | bool r => exact ty_of_evalBool hr

end BinOp

namespace Scope

variable {s : Scope}

theorem typeOf_binary {pos : Position} {op : BinOp} {lhs rhs : Expr}
    (h : s.Accepts (.binary pos op lhs rhs)) : s.typeOf (.binary pos op lhs rhs) = op.resultTy := by
  obtain ⟨-, -, hl, hr⟩ := accepts_binary.mp h
  exact if_pos (by rw [hl, hr, Bool.and_true])

/-- A folded expression replaces the expression. -/
theorem replaces_fold {e : Expr} : s.Accepts e → s.Replaces e e.fold := by
  induction e using Expr.memberInduct with
  | lit | this | var | newObject => exact fun h ↦ .refl h
  | not pos operand ih =>
    intro h
    rw [Expr.fold, Expr.foldedNot]
    split
    · exact .lit rfl rfl
    · exact .not h (ih (accepts_not.mp h).1)
  | binary pos op lhs rhs ihl ihr =>
    intro h
    rw [Expr.fold, Expr.foldedBinary]
    split
    · rename_i value hvalue
      exact .lit rfl ((BinOp.ty_of_reduce hvalue).trans (typeOf_binary h).symm)
    · obtain ⟨hl, hr, -⟩ := accepts_binary.mp h
      exact .binary h (ihl hl) (ihr hr)
  | index pos base idx ihb ihi =>
    intro h
    obtain ⟨hb, hi, -⟩ := accepts_index.mp h
    exact .index h (ihb hb) (ihi hi)
  | array pos elements ih =>
    intro h
    rw [Expr.fold, Expr.foldAll_eq_map]
    exact .array (fun e he ↦ ih e he ((accepts_array.mp h).1 e he)) h
  | newArray pos elem size ih =>
    intro h
    exact .newArray h (ih (accepts_newArray.mp h).1)
  | length pos base ih =>
    intro h
    exact .length h (ih (accepts_length.mp h).1)
  | call pos method args ih =>
    intro h
    rw [Expr.fold, Expr.foldAll_eq_map]
    exact .call (fun e he ↦ ih e he ((accepts_call.mp h).1 e he)) h
  | callOn pos receiver method args ihr iha =>
    intro h
    obtain ⟨hr, ha, -⟩ := accepts_callOn.mp h
    rw [Expr.fold, Expr.foldAll_eq_map]
    exact .callOn (fun e he ↦ iha e he (ha e he)) (ihr hr) h

/-- A folded statement is accepted where the statement was. -/
theorem acceptsStmt_fold {stmt : Stmt} : s.AcceptsStmt stmt → s.AcceptsStmt stmt.fold := by
  induction stmt using Stmt.memberInduct with
  | block pos stmts ih =>
    intro h
    rw [acceptsStmt_block] at h
    rw [Stmt.fold, Stmt.foldAll_eq_map, acceptsStmt_block]
    exact List.forall_mem_map.mpr fun stmt hmem ↦ ih stmt hmem (h stmt hmem)
  | ifElse pos cond thenBranch elseBranch ihThen ihElse =>
    intro h
    obtain ⟨hcond, hty, hthen, helse⟩ := acceptsStmt_ifElse.mp h
    rw [Stmt.fold]
    -- A decided conditional leaves one of its branches, and both were accepted.
    split
    · exact ihThen hthen
    · exact ihElse helse
    · rw [acceptsStmt_ifElse, (replaces_fold hcond).typeOf]
      exact ⟨(replaces_fold hcond).accepts, hty, ihThen hthen, ihElse helse⟩
  | whileLoop pos cond body ihBody =>
    intro h
    obtain ⟨hcond, hty, hbody⟩ := acceptsStmt_whileLoop.mp h
    rw [Stmt.fold]
    split
    · exact acceptsStmt_block.mpr fun stmt hmem ↦ absurd hmem List.not_mem_nil
    · rw [acceptsStmt_whileLoop, (replaces_fold hcond).typeOf]
      exact ⟨(replaces_fold hcond).accepts, hty, ihBody hbody⟩
  | eval pos expr =>
    intro h
    exact acceptsStmt_eval.mpr (replaces_fold (acceptsStmt_eval.mp h)).accepts
  | assign pos target value =>
    intro h
    obtain ⟨hvalue, htarget, hty⟩ := acceptsStmt_assign.mp h
    rw [Stmt.fold, acceptsStmt_assign, (replaces_fold hvalue).typeOf]
    exact ⟨(replaces_fold hvalue).accepts, htarget, hty⟩
  | store pos target index value =>
    intro h
    obtain ⟨htarget, hindex, hvalue, hrules⟩ := acceptsStmt_store.mp h
    rw [Stmt.fold, acceptsStmt_store, (replaces_fold hindex).typeOf, (replaces_fold hvalue).typeOf]
    exact ⟨htarget, (replaces_fold hindex).accepts, (replaces_fold hvalue).accepts, hrules⟩
  | ret pos value =>
    intro h
    cases value with
    | none => exact h
    | some value =>
      obtain ⟨hvalue, hrules⟩ := acceptsStmt_ret_some.mp h
      rw [Stmt.fold, Option.map_some, acceptsStmt_ret_some, (replaces_fold hvalue).typeOf]
      exact ⟨(replaces_fold hvalue).accepts, hrules⟩

end Scope

/-! ## Propagation -/

namespace Known

/-- Only local variables are known, with values of their own types. -/
def Typed (k : Known) (s : Scope) : Prop :=
  ∀ name value, k.get? name = some value →
    ∃ symbol, s.lookup name = .stored .localVar symbol ∧ symbol.ty = value.ty

variable {k l : Known} {s : Scope}

theorem typed_none (s : Scope) : none.Typed s := by
  intro name value hget
  rw [get?_none] at hget
  cases hget

theorem Typed.forget (h : k.Typed s) (names : List String) : (k.forget names).Typed s :=
  fun name value hget ↦ h name value (get?_of_forget hget)

theorem Typed.meet (h : k.Typed s) (l : Known) : (k.meet l).Typed s :=
  fun name value hget ↦ h name value (get?_of_meet hget).1

theorem Typed.assign (h : k.Typed s) {target : String} {value : Option Literal}
    (hvalue : ∀ v, value = some v →
      ∃ symbol, s.lookup target = .stored .localVar symbol ∧ symbol.ty = v.ty) :
    (k.assign target value).Typed s := by
  intro name v hget
  rw [get?_assign] at hget
  split at hget
  · rename_i heq
    rw [heq]
    exact hvalue v hget
  · exact h name v hget

end Known

/-- A literal may be stored only where its own type is asked for. -/
theorem Ty.eq_of_assignable_literal {env : ClassEnv} {dest : Ty} {value : Literal}
    (hknown : dest.isAny = false) (h : assignable env dest value.ty = true) : dest = value.ty := by
  have hclass : value.ty.isClass = false := by cases value <;> rfl
  simpa [assignable, hknown, value.isAny_ty, hclass] using h

namespace Scope

variable {s : Scope} {k : Known} {locals : List String}

/-- The names are those of the local variables, which no other names hide. -/
def HasLocals (s : Scope) (locals : List String) : Prop :=
  ∀ name, name ∈ locals ↔ ∃ symbol, s.lookup name = .stored .localVar symbol

theorem hasLocals_localNames (t : Table) (m : MethodDecl) :
    HasLocals ⟨t, m.signature⟩ m.localNames := by
  intro name
  simp only [lookup_localVar]
  rw [← Option.isSome_iff_exists, Signature.localVar?, List.find?_isSome]
  simp [MethodDecl.localNames, MethodDecl.signature, VarDecl.symbol]

/-- An expression with known values put in replaces the expression. -/
theorem replaces_substitute (hk : k.Typed s) {e : Expr} :
    s.Accepts e → s.Replaces e (e.substitute k) := by
  induction e using Expr.memberInduct with
  | lit | this | newObject => exact fun h ↦ .refl h
  | var pos name =>
    intro h
    rw [Expr.substitute]
    split
    · rename_i value hget
      obtain ⟨symbol, hlookup, hty⟩ := hk name value hget
      exact .lit rfl (by rw [typeOf, variableTy, hlookup, ← hty])
    · exact .refl h
  | not pos operand ih =>
    intro h
    exact .not h (ih (accepts_not.mp h).1)
  | binary pos op lhs rhs ihl ihr =>
    intro h
    obtain ⟨hl, hr, -⟩ := accepts_binary.mp h
    exact .binary h (ihl hl) (ihr hr)
  | index pos base idx ihb ihi =>
    intro h
    obtain ⟨hb, hi, -⟩ := accepts_index.mp h
    exact .index h (ihb hb) (ihi hi)
  | array pos elements ih =>
    intro h
    rw [Expr.substitute, Expr.substituteAll_eq_map]
    exact .array (fun e he ↦ ih e he ((accepts_array.mp h).1 e he)) h
  | newArray pos elem size ih =>
    intro h
    exact .newArray h (ih (accepts_newArray.mp h).1)
  | length pos base ih =>
    intro h
    exact .length h (ih (accepts_length.mp h).1)
  | call pos method args ih =>
    intro h
    rw [Expr.substitute, Expr.substituteAll_eq_map]
    exact .call (fun e he ↦ ih e he ((accepts_call.mp h).1 e he)) h
  | callOn pos receiver method args ihr iha =>
    intro h
    obtain ⟨hr, ha, -⟩ := accepts_callOn.mp h
    rw [Expr.substitute, Expr.substituteAll_eq_map]
    exact .callOn (fun e he ↦ iha e he (ha e he)) (ihr hr) h

/-- The value given to a local variable, as propagation computes it. -/
theorem replaces_substitute_fold (hk : k.Typed s) {e : Expr} (h : s.Accepts e) :
    s.Replaces e (e.substitute k).fold :=
  (replaces_substitute hk h).trans (replaces_fold (replaces_substitute hk h).accepts)

/-- What an assignment makes known has the type of its target. -/
theorem typed_after_assign (hknown : s.VariablesKnown) (hlocals : s.HasLocals locals)
    (hk : k.Typed s) {pos : Position} {target : String} {value : Expr}
    (h : s.AcceptsStmt (.assign pos target value)) :
    ((Stmt.assign pos target value).after locals k).Typed s := by
  rw [Stmt.after]
  split
  · rename_i hlocal
    obtain ⟨symbol, hlookup⟩ := (hlocals target).mp (List.contains_iff_mem.mp hlocal)
    obtain ⟨hvalue, -, hassignable⟩ := acceptsStmt_assign.mp h
    refine hk.assign fun v hv ↦ ⟨symbol, hlookup, ?_⟩
    have hty : s.typeOf value = v.ty := by
      rw [← (replaces_substitute_fold hk hvalue).typeOf]
      cases hfold : (value.substitute k).fold with
      | lit p v' =>
        rw [hfold, Expr.literal?, Option.some.injEq] at hv
        rw [typeOf, hv]
      | _ =>
        rw [hfold] at hv
        cases hv
    rw [targetTy, hlookup, hty, variableTy, hlookup] at hassignable
    exact Ty.eq_of_assignable_literal (hknown hlookup) hassignable
  · exact hk

theorem acceptsStmt_propagateAll_of {stmts : List Stmt}
    (hstmts : ∀ stmt ∈ stmts, ∀ {k : Known}, k.Typed s → s.AcceptsStmt stmt →
      s.AcceptsStmt (stmt.propagate locals k) ∧ (stmt.after locals k).Typed s) :
    ∀ {k : Known}, k.Typed s → (∀ stmt ∈ stmts, s.AcceptsStmt stmt) →
      (∀ stmt ∈ Stmt.propagateAll locals k stmts, s.AcceptsStmt stmt) ∧
        (Stmt.afterAll locals k stmts).Typed s := by
  induction stmts with
  | nil => exact fun hk _ ↦ ⟨fun stmt hmem ↦ absurd hmem List.not_mem_nil, hk⟩
  | cons stmt stmts ih =>
    intro k hk haccepts
    obtain ⟨hhead, htail⟩ := List.forall_mem_cons.mp hstmts
    obtain ⟨hstmt, hrest⟩ := List.forall_mem_cons.mp haccepts
    obtain ⟨hfirst, hafter⟩ := hhead hk hstmt
    obtain ⟨hothers, hlast⟩ := ih htail hafter hrest
    exact ⟨List.forall_mem_cons.mpr ⟨hfirst, hothers⟩, hlast⟩

section

variable (hknown : s.VariablesKnown) (hlocals : s.HasLocals locals)
include hknown hlocals

/-- A statement with known values put in is accepted where the statement was, and what is known
after it is typed. -/
theorem acceptsStmt_propagate {stmt : Stmt} : ∀ {k : Known}, k.Typed s → s.AcceptsStmt stmt →
    s.AcceptsStmt (stmt.propagate locals k) ∧ (stmt.after locals k).Typed s := by
  induction stmt using Stmt.memberInduct with
  | block pos stmts ih =>
    intro k hk h
    obtain ⟨hstmts, hafter⟩ := acceptsStmt_propagateAll_of ih hk (acceptsStmt_block.mp h)
    exact ⟨acceptsStmt_block.mpr hstmts, hafter⟩
  | ifElse pos cond thenBranch elseBranch ihThen ihElse =>
    intro k hk h
    obtain ⟨hcond, hty, hthen, helse⟩ := acceptsStmt_ifElse.mp h
    have hreplaces := replaces_substitute hk hcond
    refine ⟨?_, (ihThen hk hthen).2.meet _⟩
    rw [Stmt.propagate, acceptsStmt_ifElse, hreplaces.typeOf]
    exact ⟨hreplaces.accepts, hty, (ihThen hk hthen).1, (ihElse hk helse).1⟩
  | whileLoop pos cond body ihBody =>
    intro k hk h
    obtain ⟨hcond, hty, hbody⟩ := acceptsStmt_whileLoop.mp h
    -- The condition is tested again after each round, so what the body assigns is known nowhere in
    -- the loop.
    have hk' := hk.forget body.assigned
    have hreplaces := replaces_substitute hk' hcond
    refine ⟨?_, hk'⟩
    rw [Stmt.propagate, acceptsStmt_whileLoop, hreplaces.typeOf]
    exact ⟨hreplaces.accepts, hty, (ihBody hk' hbody).1⟩
  | eval pos expr =>
    intro k hk h
    exact ⟨acceptsStmt_eval.mpr (replaces_substitute hk (acceptsStmt_eval.mp h)).accepts, hk⟩
  | assign pos target value =>
    intro k hk h
    refine ⟨?_, typed_after_assign hknown hlocals hk h⟩
    obtain ⟨hvalue, htarget, hty⟩ := acceptsStmt_assign.mp h
    rw [Stmt.propagate]
    split
    · rw [acceptsStmt_assign, (replaces_substitute_fold hk hvalue).typeOf]
      exact ⟨(replaces_substitute_fold hk hvalue).accepts, htarget, hty⟩
    · rw [acceptsStmt_assign, (replaces_substitute hk hvalue).typeOf]
      exact ⟨(replaces_substitute hk hvalue).accepts, htarget, hty⟩
  | store pos target index value =>
    intro k hk h
    obtain ⟨htarget, hindex, hvalue, hrules⟩ := acceptsStmt_store.mp h
    refine ⟨?_, hk⟩
    rw [Stmt.propagate, acceptsStmt_store, (replaces_substitute hk hindex).typeOf,
      (replaces_substitute hk hvalue).typeOf]
    exact ⟨htarget, (replaces_substitute hk hindex).accepts,
      (replaces_substitute hk hvalue).accepts, hrules⟩
  | ret pos value =>
    intro k hk h
    refine ⟨?_, hk⟩
    cases value with
    | none => exact h
    | some value =>
      obtain ⟨hvalue, hrules⟩ := acceptsStmt_ret_some.mp h
      rw [Stmt.propagate, Option.map_some, acceptsStmt_ret_some,
        (replaces_substitute hk hvalue).typeOf]
      exact ⟨(replaces_substitute hk hvalue).accepts, hrules⟩

/-- The statements of a body with known values put in are accepted. -/
theorem acceptsStmt_propagateAll {body : List Stmt} (h : ∀ stmt ∈ body, s.AcceptsStmt stmt) :
    ∀ stmt ∈ Stmt.propagateAll locals .none body, s.AcceptsStmt stmt :=
  (acceptsStmt_propagateAll_of (fun _ _ ↦ acceptsStmt_propagate hknown hlocals)
    (Known.typed_none s) h).1

end

end Scope

/-! ## Units -/

namespace Program

@[simp] theorem table_mapBodies (f : MethodDecl → List Stmt) (p : Program) :
    (p.mapBodies f).table = p.table := by
  simp only [table, mapBodies, List.map_map]
  rfl

theorem optimize_eq_mapBodies (p : Program) :
    p.optimize =
      p.mapBodies fun m ↦ Stmt.foldAll (Stmt.propagateAll m.localNames .none m.body) := by
  simp only [optimize, propagate, fold, mapBodies, List.map_map]
  rfl

section

open Diagnostic (Clean)

variable {p : Program} {f : MethodDecl → List Stmt}

/-- Checking looks at a method's body and at what is declared, so methods that keep their names
and declarations are accepted if their new bodies are. -/
theorem clean_go_mapBodies {seen : List String} {ms : List MethodDecl}
    (h : Clean (methodProblems.go p seen ms))
    (hf : ∀ m ∈ ms, ∀ stmt ∈ f m, Scope.AcceptsStmt ⟨p.table, m.signature⟩ stmt) :
    Clean (methodProblems.go (p.mapBodies f) seen (ms.map fun m ↦ { m with body := f m })) := by
  induction ms generalizing seen with
  | nil => exact Diagnostic.clean_nil
  | cons m ms ih =>
    obtain ⟨hnew, hm, hms⟩ := clean_go_cons.mp h
    obtain ⟨hbody, hbodies⟩ := List.forall_mem_cons.mp hf
    obtain ⟨hshape, hdeclared, -⟩ := MethodDecl.clean_problems.mp hm
    rw [List.map_cons, clean_go_cons, MethodDecl.clean_problems, table_mapBodies]
    exact ⟨hnew, ⟨hshape, hdeclared, hbody⟩, ih hms hbodies⟩

/-- A unit stays accepted if its bodies are replaced by accepted ones. -/
theorem Accepted.mapBodies (h : p.Accepted) (hf : ∀ m ∈ p.decl.methods, ∀ stmt ∈ f m,
    Scope.AcceptsStmt ⟨p.table, m.signature⟩ stmt) : (p.mapBodies f).Accepted := by
  obtain ⟨himports, hfields, hmethods⟩ := accepted_iff.mp h
  exact accepted_iff.mpr ⟨himports, hfields, clean_go_mapBodies hmethods hf⟩

theorem Accepted.fold (h : p.Accepted) : p.fold.Accepted := by
  refine h.mapBodies fun m hm stmt hstmt ↦ ?_
  rw [Stmt.foldAll_eq_map] at hstmt
  obtain ⟨stmt', hstmt', rfl⟩ := List.mem_map.mp hstmt
  exact Scope.acceptsStmt_fold (h.acceptsStmt hm hstmt')

theorem Accepted.propagate (h : p.Accepted) (hknown : ∀ d ∈ p.varDecls, d.typeName ≠ "<any>") :
    p.propagate.Accepted :=
  h.mapBodies fun m hm ↦ Scope.acceptsStmt_propagateAll (variablesKnown hknown hm)
    (Scope.hasLocals_localNames p.table m) fun _ hstmt ↦ h.acceptsStmt hm hstmt

/-- Neither pass makes an accepted unit one that checking refuses, nor does one after the other,
and what the unit declares stays as it was. -/
theorem Accepted.rewritten (h : p.Accepted) (hknown : ∀ d ∈ p.varDecls, d.typeName ≠ "<any>") :
    (p.propagate.Accepted ∧ p.propagate.table = p.table) ∧
      (p.fold.Accepted ∧ p.fold.table = p.table) ∧
      (p.propagate.fold.Accepted ∧ p.propagate.fold.table = p.table) := by
  refine ⟨⟨h.propagate hknown, table_mapBodies _ p⟩, ⟨h.fold, table_mapBodies _ p⟩,
    (h.propagate hknown).fold, ?_⟩
  exact (table_mapBodies _ p.propagate).trans (table_mapBodies _ p)

end

/-- A unit with a test that is settled by what was assigned before, and a loop that forgets it. -/
def latch : Program where
  imports := []
  decl := {
    name := "Latch"
    superclass := none
    fields := [⟨.boolean, "open", .origin⟩]
    methods := [{
      name := "step"
      isPublic := true
      isStatic := false
      returnType := .int
      params := [⟨.int, "n", .origin⟩]
      varargs := none
      locals := [⟨.boolean, "held", .origin⟩, ⟨.int, "k", .origin⟩]
      body := [
        .assign .origin "held" (.lit .origin (.bool false)),
        .assign .origin "k"
          (.binary .origin .mul (.lit .origin (.int 2)) (.lit .origin (.int 3))),
        .ifElse .origin (.binary .origin .and (.var .origin "held") (.var .origin "open"))
          (.assign .origin "k" (.binary .origin .add (.var .origin "k") (.var .origin "n")))
          (.block .origin []),
        .whileLoop .origin (.binary .origin .lt (.var .origin "k") (.var .origin "n"))
          (.assign .origin "k"
            (.binary .origin .add (.var .origin "k") (.lit .origin (.int 1)))),
        .ret .origin (some (.var .origin "k"))]
      pos := .origin }]
    pos := .origin }

/-- Both passes change the unit, and whatever comes out of them is accepted. -/
theorem latch_rewritten :
    latch.Accepted ∧ (∀ d ∈ latch.varDecls, d.typeName ≠ "<any>") ∧
      latch.knownReads = 2 ∧ latch.foldCount = 1 ∧ latch.propagate.foldCount = 2 ∧
      latch.propagate.Accepted ∧ latch.fold.Accepted ∧ latch.propagate.fold.Accepted := by
  have haccepted : latch.Accepted := accepted_iff.mpr (by decide)
  have hknown : ∀ d ∈ latch.varDecls, d.typeName ≠ "<any>" := by decide
  obtain ⟨⟨hpropagate, -⟩, ⟨hfold, -⟩, hboth, -⟩ := haccepted.rewritten hknown
  exact ⟨haccepted, hknown, by decide, by decide, by decide, hpropagate, hfold, hboth⟩

end Program

end Tricode
