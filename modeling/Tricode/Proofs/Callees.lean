import Tricode.Proofs.Parts

/-!
# Who checking and lowering call

A call to a method of the unit is treated twice by its signature: checking holds the arguments
against it, and lowering packs them for it and takes the type of the result from it. This file
compares the two for every call of a unit that is accepted and lowered.

Without a receiver, on `this` and on every receiver of known type they agree. Where checking does
not know the type of the receiver it lets the arguments pass. Lowering gives such a receiver a
class by guess, and in a unit that is called like the guessed class the call is then packed for a
signature that nobody held the arguments against.
-/

namespace Tricode

open Diagnostic (error require)

/-! ## Calls with and without a receiver -/

/-- What a call is made to: a method, and the receiver if one is written. -/
structure CallTarget where
  receiver : Option Expr
  method : String

/-- The call of the target with the given arguments. -/
def CallTarget.call (t : CallTarget) (pos : Position) (args : List Expr) : Expr :=
  match t.receiver with
  | none => .call pos t.method args
  | some receiver => .callOn pos receiver t.method args

namespace Scope

variable {s : Scope} {c c' : Counters} {t : CallTarget} {pos : Position} {args : List Expr}

/-- The signature of the unit that checking holds the arguments of a call against. -/
def checkedCallee? (s : Scope) (t : CallTarget) : Option Signature :=
  match t.receiver with
  | none => s.table.method? t.method
  | some receiver => s.callee? receiver t.method

/-- Checking holds the arguments of a call to the target against the signature, or against nothing
if there is none: beyond what is wrong with each of them by itself, no finding depends on them. -/
def ChecksAgainst (s : Scope) (pos : Position) (t : CallTarget) (sig? : Option Signature) : Prop :=
  ∃ before after, ∀ args, s.problems (t.call pos args) =
    before ++ (s.problemsEach args).flatten ++ after ++
      sig?.elim [] fun sig ↦ s.argumentProblems sig pos (s.arguments args)

theorem checksAgainst_checkedCallee? (s : Scope) (pos : Position) (t : CallTarget) :
    s.ChecksAgainst pos t (s.checkedCallee? t) := by
  obtain ⟨receiver, method⟩ := t
  cases receiver with
  | none =>
    cases hsig : s.table.method? method with
    | some sig =>
      refine ⟨require (!(true && s.method.isStatic && !sig.isStatic)) pos
        (.instanceMemberInStatic method), [], fun args ↦ ?_⟩
      simp [CallTarget.call, problems, ownCallProblems, checkedCallee?, hsig]
    | none =>
      refine ⟨[], require s.table.hasImports pos (.undeclaredMethod method), fun args ↦ ?_⟩
      simp [CallTarget.call, problems, ownCallProblems, checkedCallee?, hsig]
  | some receiver =>
    cases hresponder : s.table.responder (s.typeOf receiver) with
    | own =>
      cases hsig : s.table.method? method with
      | some sig =>
        refine ⟨s.problems receiver, [], fun args ↦ ?_⟩
        simp [CallTarget.call, problems, ownCallProblems, checkedCallee?, callee?, hresponder, hsig]
      | none =>
        refine ⟨s.problems receiver, require s.table.hasImports pos (.undeclaredMethod method),
          fun args ↦ ?_⟩
        simp [CallTarget.call, problems, ownCallProblems, checkedCallee?, callee?, hresponder, hsig]
    | foreign =>
      refine ⟨s.problems receiver, [], fun args ↦ ?_⟩
      simp [CallTarget.call, problems, checkedCallee?, callee?, hresponder]
    | nobody =>
      refine ⟨s.problems receiver ++ [error pos (.callOnNonObject method (s.typeOf receiver))], [],
        fun args ↦ ?_⟩
      simp [CallTarget.call, problems, checkedCallee?, callee?, hresponder]

/-- How lowering makes a call. The signature it takes for the callee is part of the outcome. -/
def dispatchTo (s : Scope) (pos : Position) (t : CallTarget) : Lower Dispatch :=
  match t.receiver with
  | none => pure (s.ownDispatch t.method)
  | some receiver => s.dispatch pos receiver (s.lowerExpr receiver) t.method

/-- Lowering makes every call to the target by `make`, be its result used or dropped. -/
def LowersBy (s : Scope) (t : CallTarget) (make : Position → Lower Dispatch) : Prop :=
  (∀ pos args hint, s.lowerExpr (t.call pos args) hint =
      s.lowerCallValue (make pos) t.method args (s.lowerEach args) hint) ∧
    ∀ pos pos' args, s.lowerEval pos' (t.call pos args) = do
      let (call, code) ← s.lowerCall (make pos') t.method args (s.lowerEach args) .void
      pure (code ++ [.call call])

theorem lowersBy_dispatchTo (s : Scope) (t : CallTarget) :
    s.LowersBy t fun pos ↦ s.dispatchTo pos t := by
  obtain ⟨receiver, method⟩ := t
  cases receiver with
  | none => exact ⟨fun _ _ _ ↦ rfl, fun _ _ _ ↦ rfl⟩
  | some receiver => exact ⟨fun _ _ _ ↦ rfl, fun _ _ _ ↦ rfl⟩

/-! ## Agreement -/

/-- Lowering takes the call for one to a method of the unit, though checking does not know who it
is made on. -/
def MistakenCall (s : Scope) (t : CallTarget) : Prop :=
  (s.table.method? t.method).isSome = true ∧ ∃ receiver ∈ t.receiver, s.MistakenForOwn receiver

/-- A call that compiles can be made, from wherever the counters stand. -/
theorem Compiles.exists_dispatch (h : s.Compiles (t.call pos args))
    (hvarargs : ∀ {method sig}, s.table.method? method = some sig → sig.hasVarargs = true →
      ∃ elem, sig.varargsElement = some elem) (pos' : Position) (c : Counters) :
    ∃ d c', (s.dispatchTo pos' t).Yields c d c' := by
  obtain ⟨receiver, method⟩ := t
  cases receiver with
  | none => exact ⟨_, _, rfl⟩
  | some receiver =>
    have hfaults : s.faults (.callOn pos receiver method args) = [] := h.faults
    rw [Scope.faults, List.append_eq_nil_iff, List.append_eq_nil_iff,
      receiverFaults_eq_nil] at hfaults
    have hmeets : (s.dispatch pos' receiver (s.lowerExpr receiver) method).Meets _ :=
      meets_dispatch (meets_lowerExpr hvarargs receiver) method
    rw [hfaults.1.1, receiverFaults_eq_nil.mpr hfaults.1.2] at hmeets
    exact hmeets.exists_yields c

theorem callee_eq_checkedCallee?_iff (hknown : s.TypesKnown)
    (himport : s.table.isImported s.table.className = false) (h : s.Accepts (t.call pos args))
    {pos' : Position} {d : Dispatch} (hd : (s.dispatchTo pos' t).Yields c d c') :
    d.callee = s.checkedCallee? t ↔ ¬s.MistakenCall t := by
  obtain ⟨receiver, method⟩ := t
  cases receiver with
  | none =>
    obtain ⟨rfl, -⟩ := Lower.yields_pure.mp hd
    exact iff_of_true (callee_ownDispatch s method) (by simp [MistakenCall])
  | some receiver =>
    have howns := lowersToOwn_iff_or_mistaken hknown himport h
    have hcallee : d.callee = s.loweredCallee receiver method :=
      callee_of_dispatch hd lowerExpr_ty
    rw [hcallee]
    show s.loweredCallee receiver method = s.callee? receiver method ↔ _
    by_cases hmistaken : s.MistakenForOwn receiver
    -- Checking knows no signature for the call, and lowering takes that of the unit.
    · have hforeign : s.table.responder (s.typeOf receiver) ≠ .own := by
        rw [Ne, Table.responder_eq_own, hmistaken.1]
        simp
      rw [loweredCallee, if_pos (howns.mpr (.inr hmistaken)), callee?, if_neg hforeign]
      simp [MistakenCall, hmistaken]
    · rw [or_iff_left hmistaken] at howns
      exact iff_of_true (if_congr howns rfl rfl) (by simp [MistakenCall, hmistaken])

end Scope

/-! ## Units -/

namespace Program

variable {p : Program} {o : Options}

/-- For every call of a unit that is accepted and lowered, lowering takes the signature that
checking held the arguments against, unless it is mistaken about who the call is made on. That
happens only in a unit called like the class that is given to receivers of unknown type. -/
theorem callee_agrees_iff (haccepted : p.Accepted) (hdots : p.DotFree)
    (hany : "<any>" ∉ p.typeNames) {code : ClassCode} (hlower : p.lower p.table o = .ok code)
    {m : MethodDecl} (hm : m ∈ (p.prepared o).decl.methods) {t : CallTarget} {pos : Position}
    {args : List Expr} (hpart : m.HasPart (t.call pos args)) :
    let s : Scope := ⟨p.table, m.signature⟩
    s.ChecksAgainst pos t (s.checkedCallee? t) ∧
      s.LowersBy t (fun pos ↦ s.dispatchTo pos t) ∧
      (∀ pos' c, ∃ d c', (s.dispatchTo pos' t).Yields c d c' ∧
        (d.callee = s.checkedCallee? t ↔ ¬s.MistakenCall t)) ∧
      (p.decl.name ≠ "Object" → ¬s.MistakenCall t) := by
  obtain ⟨source, hsource, hsig, -⟩ := exists_within_of_prepared hm
  have hcompiles := haccepted.compiles_part hany hlower hm hpart
  have hknown : Scope.TypesKnown ⟨p.table, m.signature⟩ := hsig ▸ typesKnown hany hsource
  have himport := haccepted.className_not_imported hdots
  refine ⟨Scope.checksAgainst_checkedCallee? _ _ _, Scope.lowersBy_dispatchTo _ _, ?_, ?_⟩
  · intro pos' c
    obtain ⟨d, c', hd⟩ := hcompiles.exists_dispatch varargsElement_isSome pos' c
    exact ⟨d, c', hd, Scope.callee_eq_checkedCallee?_iff hknown himport hcompiles.accepts hd⟩
  · rintro hobject ⟨-, receiver, hreceiver, hmistaken⟩
    obtain ⟨_, method⟩ := t
    obtain rfl : _ = some receiver := hreceiver
    have hinner := hcompiles.children receiver List.mem_cons_self
    exact Scope.not_mistakenForOwn hobject (fun hunknown ↦ (Scope.receiverTy_of_unknown hknown
      himport hobject hinner.accepts hinner.typeNames hunknown).imp And.right And.right) hmistaken

/-- A unit called like the class of unknown objects. It has a method that takes any number of
integers, and calls a method of that name on an object from elsewhere. -/
def logger : Program where
  imports := [⟨["io"], .origin⟩]
  decl := {
    name := "Object"
    superclass := none
    fields := []
    methods := [
      { name := "log"
        isPublic := true
        isStatic := false
        returnType := .void
        params := []
        varargs := some ⟨.int, "xs", .origin⟩
        locals := []
        body := []
        pos := .origin },
      { name := "run"
        isPublic := true
        isStatic := false
        returnType := .void
        params := []
        varargs := none
        locals := []
        body := [.eval .origin (.callOn .origin
          (.callOn .origin (.var .origin "io") "make" []) "log"
          [.lit .origin (.bool true), .lit .origin (.bool false)])]
        pos := .origin }]
    pos := .origin }

/-- The truth values are packed for a method that takes integers, though checking did not take the
call for one to it. -/
theorem logger_callee_disagrees :
    let t : CallTarget := ⟨some (.callOn .origin (.var .origin "io") "make" []), "log"⟩
    logger.Accepted ∧ logger.DotFree ∧ "<any>" ∉ logger.typeNames ∧
      ∃ code run, logger.lower logger.table .default = .ok code ∧
        logger.decl.methods[1]? = some run ∧
        run.HasPart (t.call .origin [.lit .origin (.bool true), .lit .origin (.bool false)]) ∧
        Scope.checkedCallee? ⟨logger.table, run.signature⟩ t = none ∧
        ∃ d c', (Scope.dispatchTo ⟨logger.table, run.signature⟩ .origin t).Yields .zero d c' ∧
          d.callee ≠ none := by
  intro t
  have haccepted : logger.Accepted := accepted_iff.mpr (by decide)
  have hdots : logger.DotFree := by decide
  have hany : "<any>" ∉ logger.typeNames := by decide
  obtain ⟨code, hlower⟩ : ∃ code, logger.lower logger.table .default = .ok code := ⟨_, rfl⟩
  obtain ⟨run, hrun, hpart, hchecked, hmistaken⟩ : ∃ run, logger.decl.methods[1]? = some run ∧
      run.HasPart (t.call .origin [.lit .origin (.bool true), .lit .origin (.bool false)]) ∧
      Scope.checkedCallee? ⟨logger.table, run.signature⟩ t = none ∧
      Scope.MistakenCall ⟨logger.table, run.signature⟩ t :=
    ⟨_, rfl, ⟨_, List.mem_cons_self, .self⟩, rfl, rfl, _, rfl, by decide⟩
  obtain ⟨-, -, hagrees, -⟩ :=
    callee_agrees_iff haccepted hdots hany hlower (List.mem_of_getElem? hrun) hpart
  obtain ⟨d, c', hd, hiff⟩ := hagrees .origin .zero
  rw [hchecked] at hiff
  exact ⟨haccepted, hdots, hany, code, run, hlower, hrun, hpart, hchecked, d, c', hd,
    fun hnone ↦ hiff.mp hnone hmistaken⟩

end Program

end Tricode
