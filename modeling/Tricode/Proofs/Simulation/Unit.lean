import Tricode.Compile
import Tricode.Proofs.ControlFlow
import Tricode.Proofs.Simulation.Stmt

/-!
# Lowered units do what units mean

A method body and its code end in the same way: with the same ending, the same variables, fields
and arrays, and after the same calls; and where the one runs forever, so does the other. The code
of a body is that of its statements and, unless it ends in a return already, one return more. So
it remains to be seen that a body whose code ends in a return never runs to its end.

Both directions come from the simulation of statements. The machine is deterministic, and a body
that gives out for every amount of fuel keeps the machine running for any number of steps.
-/

namespace Tricode

/-! ## Code that ends in a return -/

namespace Lower

variable {c c' : Counters} {l : Lowered}

theorem endsInReturn_storeElements {array : Operand} {elem : Ty} {elements : List Emit} :
    ∀ {k : Nat} {c : Counters} {code : Code},
      (storeElements array elem k elements).Yields c code c' → code.endsInReturn = false := by
  induction elements with
  | nil =>
    intro k c code hy
    obtain ⟨rfl, -⟩ := yields_pure.mp hy
    rfl
  | cons element elements ih =>
    intro k c code hy
    obtain ⟨value, c₁, rest, -, hrest, rfl⟩ := yields_storeElements_cons hy
    by_contra hreturn
    rw [Bool.not_eq_false, List.append_cons] at hreturn
    rcases Code.endsInReturn_append hreturn with hrest' | ⟨-, hassign⟩
    · rw [ih hrest] at hrest'
      cases hrest'
    · rw [Code.endsInReturn_snoc] at hassign
      cases hassign

theorem endsInReturn_binary {op : BinOp} {lhs rhs : Emit}
    (hy : (binary op lhs rhs).Yields c l c') : l.code.endsInReturn = false := by
  cases op with
  | and =>
    obtain ⟨left, c₁, right, -, -, rfl⟩ := yields_and hy
    exact Code.endsInReturn_append_cons _ _ _
  | or =>
    obtain ⟨left, c₁, right, -, -, rfl⟩ := yields_or hy
    exact Code.endsInReturn_append_cons _ _ _
  | lt | gt =>
    obtain ⟨cond, code, c₁, -, rfl, -⟩ := yields_comparison hy
    exact Code.endsInReturn_append_cons _ _ _
  | add | sub | mul | div | rem =>
    obtain ⟨left, c₁, right, c₂, -, -, rfl, -⟩ := yields_arithmetic hy
    exact Code.endsInReturn_snoc _ _

end Lower

namespace Scope

variable {s : Scope} {c c' : Counters}

/-- Expressions do not return. -/
theorem endsInReturn_lowerExpr {e : Expr} {hint : Option Ty} {l : Lowered}
    (hy : (s.lowerExpr e hint).Yields c l c') : l.code.endsInReturn = false := by
  cases e with
  | lit | this =>
    obtain ⟨rfl, -⟩ := Lower.yields_pure.mp hy
    rfl
  | var pos name =>
    rcases yields_lowerVar hy with ⟨symbol, -, rfl, -⟩ | ⟨storage, symbol, -, -, rfl, -⟩ |
      ⟨-, rfl, -⟩ <;> rfl
  | not pos operand =>
    obtain ⟨inner, c₁, -, rfl, -⟩ := Lower.yields_not hy
    exact Code.endsInReturn_snoc _ _
  | binary pos op lhs rhs => exact Lower.endsInReturn_binary hy
  | index pos base idx =>
    obtain ⟨array, c₁, i, c₂, -, -, rfl, -⟩ := Lower.yields_index hy
    exact Code.endsInReturn_snoc _ _
  | array pos elements =>
    obtain ⟨-, stores, hstores, rfl⟩ := Lower.yields_packArray hy
    by_contra hreturn
    rw [Bool.not_eq_false, ← List.singleton_append] at hreturn
    -- The last instruction is a store or, without elements, the allocation.
    rcases Code.endsInReturn_append hreturn with hrest | ⟨-, hassign⟩
    · rw [Lower.endsInReturn_storeElements hstores] at hrest
      cases hrest
    · cases hassign
  | newArray pos elem size =>
    obtain ⟨n, c₁, -, rfl, -⟩ := Lower.yields_newArray hy
    exact Code.endsInReturn_snoc _ _
  | newObject pos className =>
    obtain ⟨rfl, -⟩ := Lower.yields_construct hy
    rfl
  | length pos base =>
    obtain ⟨array, c₁, -, rfl, -⟩ := Lower.yields_length hy
    exact Code.endsInReturn_snoc _ _
  | call pos method args =>
    obtain ⟨call, code, c₁, -, rfl, -⟩ := yields_lowerCallValue hy
    exact Code.endsInReturn_snoc _ _
  | callOn pos receiver method args =>
    obtain ⟨call, code, c₁, -, rfl, -⟩ := yields_lowerCallValue hy
    exact Code.endsInReturn_snoc _ _

theorem endsInReturn_lowerEval {pos : Position} {e : Expr} {code : Code}
    (hy : (s.lowerEval pos e).Yields c code c') : code.endsInReturn = false := by
  rcases yields_lowerEval hy with ⟨p, method, args, call, before, -, -, rfl⟩ |
    ⟨p, receiver, method, args, call, before, -, -, rfl⟩ | ⟨value, hvalue, rfl⟩
  · exact Code.endsInReturn_snoc _ _
  · exact Code.endsInReturn_snoc _ _
  · exact endsInReturn_lowerExpr hvalue

end Scope

namespace Activation

variable {a : Activation} {c c' : Counters}

/-- The statement does not run to its end. -/
def NeverCompletes (r : Run Unit) : Prop := ∀ st st', r.runFrom st ≠ (.ok (), st')

theorem NeverCompletes.bind_left {r : Run Unit} (h : NeverCompletes r) (f : Unit → Run Unit) :
    NeverCompletes (r >>= f) := by
  intro st st' heq
  rw [Action.runFrom_bind] at heq
  rcases hr : r.runFrom st with ⟨stop | u, st₁⟩
  · rw [hr] at heq
    cases heq
  · exact h st st₁ hr

theorem NeverCompletes.bind_right {α : Type} (r : Run α) {f : α → Run Unit}
    (h : ∀ v, NeverCompletes (f v)) : NeverCompletes (r >>= f) := by
  intro st st' heq
  rw [Action.runFrom_bind] at heq
  rcases hr : r.runFrom st with ⟨stop | v, st₁⟩
  · rw [hr] at heq
    cases heq
  · rw [hr] at heq
    exact h v st₁ st' heq

theorem neverCompletes_throw (stop : Stop) : NeverCompletes (throw stop) := by
  intro st st' heq
  cases heq

theorem neverCompletes_execAll {fuel : Nat} {stmts : List Stmt}
    (hstmts : ∀ stmt ∈ stmts, ∀ {c code c'}, (a.scope.lowerStmt stmt).Yields c code c' →
      code.endsInReturn = true → NeverCompletes (a.exec fuel stmt)) :
    ∀ {c code c'}, (a.scope.lowerStmts stmts).Yields c code c' → code.endsInReturn = true →
      NeverCompletes (a.execAll fuel stmts) := by
  induction stmts with
  | nil =>
    intro c code c' hy hreturn
    obtain ⟨rfl, -⟩ := Lower.yields_pure.mp hy
    cases hreturn
  | cons stmt stmts ih =>
    intro c code c' hy hreturn
    obtain ⟨first, c₁, rest, hfirst, hrest, rfl⟩ := Scope.yields_lowerStmts_cons hy
    obtain ⟨hhead, htail⟩ := List.forall_mem_cons.mp hstmts
    rcases Code.endsInReturn_append hreturn with hlast | ⟨-, hlast⟩
    · exact NeverCompletes.bind_right _ fun _ ↦ ih htail hrest hlast
    · exact (hhead hfirst hlast).bind_left _

/-- A statement whose code ends in a return does not run to its end. -/
theorem neverCompletes_exec {fuel : Nat} {stmt : Stmt} :
    ∀ {c code c'}, (a.scope.lowerStmt stmt).Yields c code c' → code.endsInReturn = true →
      NeverCompletes (a.exec fuel stmt) := by
  induction stmt using Stmt.memberInduct with
  | block pos stmts ih => exact neverCompletes_execAll ih
  | ifElse pos cond thenBranch elseBranch =>
    intro c code c' hy hreturn
    obtain ⟨jump, condCode, c₁, elseCode, c₂, thenCode, -, -, -, rfl⟩ := Scope.yields_lowerIf hy
    -- Whatever the branches do, a label stands behind them.
    rw [Code.endsInReturn_snoc] at hreturn
    cases hreturn
  | whileLoop pos cond body =>
    intro c code c' hy hreturn
    obtain ⟨jump, condCode, c₁, bodyCode, -, -, rfl⟩ := Scope.yields_lowerWhile hy
    rw [Code.endsInReturn_append_cons] at hreturn
    cases hreturn
  | eval pos expr =>
    intro c code c' hy hreturn
    rw [Scope.endsInReturn_lowerEval hy] at hreturn
    cases hreturn
  | assign pos target value =>
    intro c code c' hy hreturn
    obtain ⟨storage, symbol, v, -, -, rfl⟩ := Scope.yields_lowerAssign hy
    rw [Code.endsInReturn_snoc] at hreturn
    split at hreturn <;> cases hreturn
  | store pos target index value =>
    intro c code c' hy hreturn
    obtain ⟨array, c₁, i, c₂, v, -, -, -, -, rfl⟩ := Scope.yields_lowerStore hy
    rw [Code.endsInReturn_snoc] at hreturn
    cases hreturn
  | ret pos value =>
    intro c code c' hy hreturn
    cases value with
    | none => exact neverCompletes_throw _
    | some value => exact NeverCompletes.bind_right _ fun _ ↦ neverCompletes_throw _

end Activation

/-! ## Methods -/

namespace Machine

variable {M : Machine} {a : Activation} {c c' : Counters} {body : List Stmt} {code : Code}
  {temps : Temps} {st st' : State} {ending : Ending}

section

variable (h : M.Hosts a) (haccepts : ∀ stmt ∈ body, a.scope.AcceptsStmt stmt)
  (hnames : ∀ stmt ∈ body, "<any>" ∉ stmt.typeNames)
  (hy : (a.scope.lowerStmts body).Yields c code c') (hbody : M.method.body = code.closed)
include h haccepts hnames hy hbody

theorem executes_body (fuel : Nat) (temps : Temps) (st : State) :
    M.Executes fuel 0 temps st (a.execAll fuel body) fun _ pc ↦ pc = code.length := by
  have hat : M.HasAt 0 code := by
    obtain ⟨post, hclosed⟩ : ∃ post, code.closed = [] ++ code ++ post := by
      rw [Code.closed_eq]
      split
      · exact ⟨[], by simp⟩
      · exact ⟨[.ret none .void], rfl⟩
    exact hasAt_of_append_eq (hbody.trans hclosed)
  rw [← Nat.zero_add code.length]
  exact executes_lowerStmts (fun stmt hmem ↦
    executes_lowerStmt h (haccepts stmt hmem) (hnames stmt hmem)) hy hat temps st

/-- What a body ends with, its code ends with. -/
theorem halts_of_runBody {fuel : Nat} (hrun : a.runBody fuel body st = some (ending, st')) :
    M.Halts ⟨0, temps, st⟩ ending st' := by
  have hexec := executes_body h haccepts hnames hy hbody fuel temps st
  unfold Executes at hexec
  unfold Activation.runBody at hrun
  rcases hall : (a.execAll fuel body).runFrom st with ⟨stop | u, st₁⟩
  · rw [hall] at hexec hrun
    cases stop with
    | returned value =>
      cases hrun
      exact hexec
    | trapped trap =>
      cases hrun
      exact hexec
    | outOfFuel => cases hrun
  · rw [hall] at hexec hrun
    cases hrun
    obtain ⟨pc, temps', hreaches, rfl⟩ := hexec
    -- Since the body has run to its end, its code is open and was closed with a return.
    have hopen : code.endsInReturn = false := by
      by_contra hreturn
      rw [Bool.not_eq_false] at hreturn
      exact Activation.neverCompletes_execAll (fun _ _ ↦ Activation.neverCompletes_exec) hy hreturn
        st st' hall
    have hret : M.method.body[code.length]? = some (.ret none .void) := by
      rw [hbody, Code.closed_eq, hopen, if_neg Bool.false_ne_true, List.getElem?_concat_length]
    exact hreaches.halts (halts_of_step (step_of_getElem? hret temps' st'))

/-- A body that gives out keeps the machine running for as many steps as there was fuel. -/
theorem runsFor_of_runBody {fuel : Nat} (hrun : a.runBody fuel body st = none) :
    M.RunsFor fuel ⟨0, temps, st⟩ := by
  have hexec := executes_body h haccepts hnames hy hbody fuel temps st
  unfold Executes at hexec
  unfold Activation.runBody at hrun
  rcases hall : (a.execAll fuel body).runFrom st with ⟨stop | u, st₁⟩
  · rw [hall] at hexec hrun
    cases stop with
    | returned value => cases hrun
    | trapped trap => cases hrun
    | outOfFuel => exact hexec
  · rw [hall] at hrun
    cases hrun

/-- A body ends in some way just if its code does. -/
theorem runBody_iff_halts :
    (∃ fuel, a.runBody fuel body st = some (ending, st')) ↔ M.Halts ⟨0, temps, st⟩ ending st' := by
  constructor
  · rintro ⟨fuel, hrun⟩
    exact halts_of_runBody h haccepts hnames hy hbody hrun
  · intro hhalts
    obtain ⟨n, hn⟩ := hhalts.not_runsFor
    cases hrun : a.runBody n body st with
    | none => exact absurd (runsFor_of_runBody h haccepts hnames hy hbody hrun) hn
    | some result =>
      obtain ⟨ending', st''⟩ := result
      obtain ⟨rfl, rfl⟩ := (halts_of_runBody h haccepts hnames hy hbody hrun).unique hhalts
      exact ⟨n, hrun⟩

end

end Machine

/-! ## Units -/

namespace Program

variable {p : Program} {m : MethodDecl}

theorem isVariable_this (hthis : ∀ d ∈ p.varDecls, d.name ≠ "this") (hm : m ∈ p.decl.methods)
    {M : Machine} (hparams : M.method.params = m.signature.params)
    (hlocals : M.method.locals = m.signature.locals) : M.isVariable "this" = false := by
  rw [Machine.isVariable, hparams, hlocals, List.any_eq_false]
  intro symbol hmem
  rw [beq_iff_eq]
  obtain ⟨d, hd, hname, -⟩ := MethodDecl.exists_variable hmem
  rw [hname]
  exact hthis d (List.mem_append_right _ (List.mem_flatMap.mpr ⟨m, hm, hd⟩))

/-- Every method of the code is that of the declaration at the same place. -/
theorem yields_of_lower {code : ClassCode} (hlower : p.lower p.table .default = .ok code) :
    code.className = p.decl.name ∧ code.methods.length = p.decl.methods.length ∧
      ∀ (i : Nat) (mc : MethodCode), code.methods[i]? = some mc →
        ∃ m c c', p.decl.methods[i]? = some m ∧
          (p.table.lowerMethod m.signature m.body).Yields c mc c' := by
  have hyields : (p.table.lowerProgram p).Yields .zero code
      ((p.table.lowerProgram p).runFrom .zero).2 :=
    Prod.ext hlower rfl
  obtain ⟨hname, hmethods⟩ := Table.yields_lowerProgram hyields
  obtain ⟨hlen, hat⟩ := Table.yields_lowerMethods hmethods
  refine ⟨hname, ?_, ?_⟩
  · rw [hlen, table, List.length_map, Nat.min_self]
  · intro i mc hi
    obtain ⟨m, sig, c, c', hm, hsig, hlowered⟩ := hat i mc hi
    rw [table, List.getElem?_map, hm, Option.map_some, Option.some.injEq] at hsig
    exact ⟨m, c, c', hm, hsig ▸ hlowered⟩

/-- The code of a method runs on the machine of that method. -/
theorem hosts (haccepted : p.Accepted) (hthis : ∀ d ∈ p.varDecls, d.name ≠ "this")
    (hany : "<any>" ∉ p.typeNames) (hdots : p.DotFree) (hobject : p.decl.name ≠ "Object")
    (hm : m ∈ p.decl.methods) {mc : MethodCode} {code : Code} {c c' : Counters}
    (hy : (Scope.lowerStmts ⟨p.table, m.signature⟩ m.body).Yields c code c')
    (hparams : mc.params = m.signature.params) (hlocals : mc.locals = m.signature.locals)
    (hbody : mc.body = code.closed) (oracle : Oracle) (self : Value) :
    Machine.Hosts ⟨oracle, self, p.decl.name, mc⟩ ⟨⟨p.table, m.signature⟩, oracle, self⟩ where
  oracle := rfl
  self := rfl
  className := rfl
  params := hparams
  locals := hlocals
  labels := by
    rw [hbody, Code.labels_closed]
    exact Scope.nodup_labels_lowerStmts hy
  notVariable := isVariable_this hthis hm hparams hlocals
  known := typesKnown hany hm
  notImported := haccepted.className_not_imported hdots
  notOpaque := hobject
  varargs := varargsElement_isSome

/-- Lowering keeps the meaning of every method. -/
theorem terminates_iff_lowered_terminates (haccepted : p.Accepted)
    (hthis : ∀ d ∈ p.varDecls, d.name ≠ "this") (hany : "<any>" ∉ p.typeNames) (hdots : p.DotFree)
    (hobject : p.decl.name ≠ "Object") {code : ClassCode}
    (hlower : p.lower p.table .default = .ok code) (i : Nat) (oracle : Oracle) (self : Value)
    (temps : Temps) (st : State) (ending : Ending) (st' : State) :
    p.Terminates i oracle self st ending st' ↔
      code.Terminates i oracle self temps st ending st' := by
  obtain ⟨hname, hlen, hmethods⟩ := yields_of_lower hlower
  have hmethod : ∀ {m : MethodDecl} {mc : MethodCode}, p.decl.methods[i]? = some m →
      code.methods[i]? = some mc →
      ((∃ fuel, Activation.runBody ⟨⟨p.table, m.signature⟩, oracle, self⟩ fuel m.body st =
          some (ending, st')) ↔
        Machine.Halts ⟨oracle, self, code.className, mc⟩ ⟨0, temps, st⟩ ending st') := by
    intro m mc hm hmc
    obtain ⟨m', c, c', hm', hlowered⟩ := hmethods i mc hmc
    rw [hm, Option.some.injEq] at hm'
    subst hm'
    have hmem := List.mem_of_getElem? hm
    obtain ⟨body, hy, hparams, hlocals, hbody⟩ := Table.yields_lowerMethod hlowered
    rw [hname]
    exact Machine.runBody_iff_halts
      (hosts haccepted hthis hany hdots hobject hmem hy hparams hlocals hbody oracle self)
      (fun stmt hstmt ↦ haccepted.acceptsStmt hmem hstmt) (not_mem_typeNames_body hany hmem) hy
      hbody
  constructor
  · rintro ⟨m, hm, hrun⟩
    have hi : i < code.methods.length := by
      rw [hlen]
      exact (List.getElem?_eq_some_iff.mp hm).1
    exact ⟨code.methods[i], List.getElem?_eq_getElem hi,
      (hmethod hm (List.getElem?_eq_getElem hi)).mp hrun⟩
  · rintro ⟨mc, hmc, hhalts⟩
    obtain ⟨m, c, c', hm, -⟩ := hmethods i mc hmc
    exact ⟨m, hm, (hmethod hm hmc).mpr hhalts⟩

/-- A unit with a loop, a field and a call into an imported class. -/
def sumBelow : Program where
  imports := [⟨["util", "Log"], .origin⟩]
  decl := {
    name := "Sum"
    superclass := none
    fields := [⟨.int, "total", .origin⟩]
    methods := [{
      name := "below"
      isPublic := true
      isStatic := false
      returnType := .int
      params := [⟨.int, "n", .origin⟩]
      varargs := none
      locals := [⟨.int, "i", .origin⟩]
      body := [
        .assign .origin "i" (.lit .origin (.int 0)),
        .whileLoop .origin (.binary .origin .lt (.var .origin "i") (.var .origin "n"))
          (.block .origin [
            .assign .origin "total"
              (.binary .origin .add (.var .origin "total") (.var .origin "i")),
            .assign .origin "i"
              (.binary .origin .add (.var .origin "i") (.lit .origin (.int 1)))]),
        .eval .origin (.callOn .origin (.var .origin "Log") "print" [.var .origin "total"]),
        .ret .origin (some (.var .origin "total"))]
      pos := .origin }]
    pos := .origin }

/-- The code of `sumBelow`, run with `n = 3`, returns `0 + 1 + 2`. -/
theorem sumBelow_lowered_terminates :
    ∃ code st', sumBelow.Accepted ∧ (∀ d ∈ sumBelow.varDecls, d.name ≠ "this") ∧
      "<any>" ∉ sumBelow.typeNames ∧ sumBelow.DotFree ∧ sumBelow.decl.name ≠ "Object" ∧
      sumBelow.lower sumBelow.table .default = .ok code ∧
      code.Terminates 0 (fun _ memory ↦ (.null, memory)) (.object 0) (fun _ ↦ .null)
        ⟨fun _ ↦ .int 3, ⟨fun _ ↦ .int 0, []⟩, []⟩ (.returned (some (.int 3))) st' := by
  have haccepted : sumBelow.Accepted := accepted_iff.mpr (by decide)
  have hthis : ∀ d ∈ sumBelow.varDecls, d.name ≠ "this" := by decide
  have hany : "<any>" ∉ sumBelow.typeNames := by decide
  have hdots : sumBelow.DotFree := by decide
  have hobject : sumBelow.decl.name ≠ "Object" := by decide
  obtain ⟨code, hlower⟩ : ∃ code, sumBelow.lower sumBelow.table .default = .ok code := ⟨_, rfl⟩
  obtain ⟨st', hrun⟩ : ∃ st', sumBelow.Terminates 0 (fun _ memory ↦ (.null, memory)) (.object 0)
      ⟨fun _ ↦ .int 3, ⟨fun _ ↦ .int 0, []⟩, []⟩ (.returned (some (.int 3))) st' :=
    ⟨_, _, rfl, 3, rfl⟩
  exact ⟨code, st', haccepted, hthis, hany, hdots, hobject, hlower,
    (terminates_iff_lowered_terminates haccepted hthis hany hdots hobject hlower 0 _ _ _ _ _
      _).mp hrun⟩

end Program

end Tricode
