import Tricode.Proofs.Simulation.Expr

/-!
# Lowered statements do what statements mean

`Machine.Executes` says of an action on the whole state what `Machine.Carries` says of one on the
world. Such an action may also return from the method. If it gives out for want of fuel, then the
machine is to run on for at least as many steps as there was fuel: each round of a loop takes a
step, so that a body which no amount of fuel is enough for keeps the machine running forever.

No temporary is carried from one statement to the next, so nothing is asked of them here.
-/

namespace Tricode

namespace Machine

variable {M : Machine} {store : Store} {c c' : Counters} {i pc budget : Nat} {temps : Temps}
  {st : State} {α β : Type}

/-! ## Actions on the whole state -/

/-- What the machine does where an action on the state stops. -/
def Stops (M : Machine) (budget : Nat) (m : Config) (st : State) : Stop → Prop
  | .returned value => M.Halts m (.returned value) st
  | .trapped trap => M.Halts m (.trapped trap) st
  | .outOfFuel => M.RunsFor budget m

theorem Reaches.stops {m m' : Config} {stop : Stop} (h : M.Reaches m m')
    (h' : M.Stops budget m' st stop) : M.Stops budget m st stop := by
  cases stop with
  | returned value => exact h.halts h'
  | trapped trap => exact h.halts h'
  | outOfFuel => exact h.runsFor h'

/-- From place `pc` the machine does what `r` does, and then `post` holds of the result and the
place. Where `r` gives out, the machine runs for `budget` steps. -/
def Executes (M : Machine) (budget : Nat) (pc : Nat) (temps : Temps) (st : State) (r : Run α)
    (post : α → Nat → Prop) : Prop :=
  match r.runFrom st with
  | (.ok a, st') => ∃ pc' temps', M.Reaches ⟨pc, temps, st⟩ ⟨pc', temps', st'⟩ ∧ post a pc'
  | (.error stop, st') => M.Stops budget ⟨pc, temps, st⟩ st' stop

variable {r : Run α} {post : α → Nat → Prop}

theorem Executes.pure {a : α} (h : post a pc) : M.Executes budget pc temps st (pure a) post :=
  ⟨pc, temps, .refl _, h⟩

theorem Executes.of_reaches {pc' : Nat} {temps' : Temps}
    (h : M.Reaches ⟨pc, temps, st⟩ ⟨pc', temps', st⟩)
    (h' : M.Executes budget pc' temps' st r post) : M.Executes budget pc temps st r post := by
  unfold Executes at h' ⊢
  split at h'
  · obtain ⟨pc'', temps'', hreaches, hpost⟩ := h'
    exact ⟨pc'', temps'', h.trans hreaches, hpost⟩
  · exact h.stops h'

/-- A step that changes nothing but the place adds to what the machine can run for. -/
theorem Executes.of_step {pc' : Nat} (h : M.step ⟨pc, temps, st⟩ = .next ⟨pc', temps, st⟩)
    (h' : M.Executes budget pc' temps st r post) : M.Executes (budget + 1) pc temps st r post := by
  unfold Executes at h' ⊢
  rcases hr : r.runFrom st with ⟨stop | a, st'⟩
  · rw [hr] at h'
    cases stop with
    | returned value => exact (reaches_of_step h).halts h'
    | trapped trap => exact (reaches_of_step h).halts h'
    | outOfFuel => exact RunsFor.of_step h h'
  · rw [hr] at h'
    obtain ⟨pc'', temps'', hreaches, hpost⟩ := h'
    exact ⟨pc'', temps'', (reaches_of_step h).trans hreaches, hpost⟩

theorem Executes.mono_budget {budget' : Nat} (h : M.Executes budget pc temps st r post)
    (hle : budget' ≤ budget) : M.Executes budget' pc temps st r post := by
  unfold Executes at h ⊢
  rcases hr : r.runFrom st with ⟨stop | a, st'⟩
  · rw [hr] at h
    cases stop with
    | returned value => exact h
    | trapped trap => exact h
    | outOfFuel => exact RunsFor.mono h hle
  · rw [hr] at h
    exact h

theorem Executes.bind {f : α → Run β} {post' : β → Nat → Prop}
    (h : M.Executes budget pc temps st r post)
    (h' : ∀ a pc' temps' st', post a pc' → M.Executes budget pc' temps' st' (f a) post') :
    M.Executes budget pc temps st (r >>= f) post' := by
  unfold Executes at h ⊢
  rw [Action.runFrom_bind]
  rcases hr : r.runFrom st with ⟨stop | a, st'⟩
  · rw [hr] at h
    exact h
  · rw [hr] at h
    obtain ⟨pc', temps', hreaches, hpost⟩ := h
    have hrest := h' a pc' temps' st' hpost
    unfold Executes at hrest
    dsimp only
    rcases hf : (f a).runFrom st' with ⟨stop | b, st''⟩
    · rw [hf] at hrest
      exact hreaches.stops hrest
    · rw [hf] at hrest
      obtain ⟨pc'', temps'', hreaches', hpost'⟩ := hrest
      exact ⟨pc'', temps'', hreaches.trans hreaches', hpost'⟩

/-- An expression inside a statement, and what the statement does with its value. -/
theorem Executes.ofEval_bind {ev : Store → Eval α} {f : α → Run β} {post : β → Nat → Prop}
    {done : α → Nat → Temps → Prop}
    (h : M.Carries st.store pc temps st.world (ev st.store) done)
    (h' : ∀ a pc' temps' w, done a pc' temps' →
      M.Executes budget pc' temps' ⟨st.store, w⟩ (f a) post) :
    M.Executes budget pc temps st (Run.ofEval ev >>= f) post := by
  unfold Executes
  unfold Carries at h
  rw [Action.runFrom_bind, Run.runFrom_ofEval]
  rcases hev : (ev st.store).runFrom st.world with ⟨trap | a, w⟩
  · rw [hev] at h
    exact h
  · rw [hev] at h
    obtain ⟨pc', temps', hreaches, hdone⟩ := h
    have hrest := h' a pc' temps' w hdone
    unfold Executes at hrest
    dsimp only
    rcases hf : (f a).runFrom ⟨st.store, w⟩ with ⟨stop | b, st''⟩
    · rw [hf] at hrest
      exact hreaches.stops hrest
    · rw [hf] at hrest
      obtain ⟨pc'', temps'', hreaches', hpost⟩ := hrest
      exact ⟨pc'', temps'', hreaches.trans hreaches', hpost⟩

theorem Executes.ofEval {ev : Store → Eval α} {done : α → Nat → Temps → Prop}
    (h : M.Carries st.store pc temps st.world (ev st.store) done)
    (h' : ∀ a pc' temps', done a pc' temps' → post a pc') :
    M.Executes budget pc temps st (Run.ofEval ev) post := by
  rw [← bind_pure (Run.ofEval ev)]
  exact .ofEval_bind h fun a pc' temps' _ hdone ↦ .pure (h' a pc' temps' hdone)

/-! ### Instructions -/

theorem executes_ret {value : Option Operand} {ty : Ty}
    (h : M.method.body[pc]? = some (.ret value ty)) {v : Option Value}
    (hv : value.map (M.read st.store temps) = v) :
    M.Executes budget pc temps st (throw (.returned v)) post := by
  subst hv
  exact halts_of_step (step_of_getElem? h temps st)

theorem executes_assign_var {name : String} {ty ty' : Ty} {value : Operand} {v : Value}
    (h : M.method.body[pc]? = some (.assign (.var name ty) ty' (.use value)))
    (hv : M.read st.store temps value = v) :
    M.Executes budget pc temps st (Run.assign name v) fun _ pc' ↦ pc' = pc + 1 := by
  subst hv
  exact ⟨pc + 1, temps, reaches_of_step (step_of_getElem? h temps st), rfl⟩

theorem carries_putField {w : World} {field : String} {ty : Ty} {value : Operand} {v : Value}
    (h : M.method.body[pc]? = some (.putField field ty value))
    (hv : M.read store temps value = v) :
    M.Carries store pc temps w (Eval.putField field v) fun _ pc' _ ↦ pc' = pc + 1 := by
  subst hv
  have hstep := step_of_getElem? h temps ⟨store, w⟩
  exact carries_perform (fun _ ↦ (pc + 1, temps)) hstep fun _ ↦ rfl

/-! ## Statements without parts -/

section

variable {a : Activation} (h : M.Hosts a)
include h

/-- A condition takes the jump just if it is true. -/
theorem carries_lowerCond {w : World} {cond : Expr} (haccepts : a.scope.Accepts cond)
    (hnames : "<any>" ∉ cond.typeNames) {jump : Cond} {code : Code} {target : Label} {j : Nat}
    (hy : (a.scope.lowerCond cond).Yields c (jump, code) c') (hat : M.HasAt i code)
    (hbranch : M.method.body[i + code.length]? = some (.branch jump target))
    (hj : M.method.body[j]? = some (.label target)) :
    M.Carries store i temps w (do let v ← a.eval store cond; Eval.test v) fun taken pc _ ↦
      pc = if taken then j else i + code.length + 1 := by
  rcases a.scope.lowerCond_cases cond with ⟨pos, op, lhs, rhs, rfl, hop, heq⟩ | heq
  · rw [heq] at hy
    obtain ⟨hl, hr, -⟩ := Scope.accepts_binary.mp haccepts
    rw [Expr.typeNames, List.mem_append, not_or] at hnames
    -- The jump itself makes the comparison, so there is no temporary for the outcome.
    have hev : (do let v ← a.eval store (.binary pos op lhs rhs); Eval.test v) =
        (do let l ← a.eval store lhs
            let r ← a.eval store rhs
            let v ← Eval.operate op l r
            Eval.test v) := by
      cases op with
      | lt | gt => simp only [Activation.eval, Eval.binary, bind_assoc]
      | _ => cases hop
    rw [hev]
    exact (carries_compare (simulates_lowerExpr h hl hnames.1) (simulates_lowerExpr h hr hnames.2)
      h.labels hy hat hbranch hj).mono fun _ _ _ hdone ↦ hdone.1
  · rw [heq] at hy
    obtain ⟨value, hvalue, rfl, rfl⟩ := Scope.yields_lowerTruthy hy
    refine ((simulates_lowerExpr h haccepts hnames _).carries hvalue hat temps w).bind ?_
    rintro v pc temps' w' ⟨rfl, -, hholds⟩
    exact (carries_branch h.labels hbranch hj (by rw [condition, hholds.read])).mono
      fun _ _ _ hdone ↦ hdone.1

/-- A call that is a whole statement is made like any other, and its result is dropped. -/
theorem carries_droppedCall {w : World} {receiver : Lower Dispatch} {method : String}
    {callee : Option Signature} {ev : Eval Receiver} {args : List Expr} {call : Call}
    {before : Code} (hreceiver : M.SimulatesDispatch store receiver method callee ev)
    (hvarargs : ∀ sig, callee = some sig → a.scope.table.method? method = some sig)
    (hargs : ∀ e ∈ args, M.SimulatesEmit store (a.scope.lowerExpr e) (a.eval store e))
    (hy : (a.scope.lowerCall receiver method args (a.scope.lowerEach args) .void).Yields c
      (call, before) c')
    (hat : M.HasAt i (before ++ [.call call])) :
    M.Carries store i temps w (a.call ev callee method (a.evalEach store args)) fun _ pc _ ↦
      pc = i + (before ++ [Instruction.call call]).length := by
  obtain ⟨hat, hlast, -⟩ := hasAt_append.mp hat
  refine carries_lowerCall h hreceiver hvarargs hargs hy hat ?_
  intro ev temps' w' _ _ hev
  refine (carries_call hlast hev).mono fun v pc' temps'' hdone ↦ ?_
  rw [hdone.1, add_length_snoc]

/-- The value of an expression that is not used is dropped, and so is that of a call. -/
theorem carries_lowerEval {w : World} {pos : Position} {e : Expr} (haccepts : a.scope.Accepts e)
    (hnames : "<any>" ∉ e.typeNames) {code : Code}
    (hy : (a.scope.lowerEval pos e).Yields c code c') (hat : M.HasAt i code) :
    M.Carries store i temps w (a.eval store e) fun _ pc _ ↦ pc = i + code.length := by
  have hargs : ∀ {es : List Expr}, (∀ e ∈ es, a.scope.Accepts e) →
      "<any>" ∉ Expr.typeNamesAll es →
      ∀ e ∈ es, M.SimulatesEmit store (a.scope.lowerExpr e) (a.eval store e) :=
    fun hes hall e he ↦ simulates_lowerExpr h (hes e he) (Expr.not_mem_typeNamesAll.mp hall e he)
  rcases Scope.yields_lowerEval hy with ⟨p, method, args, call, before, rfl, hcall, rfl⟩ |
    ⟨p, receiver, method, args, call, before, rfl, hcall, rfl⟩ | ⟨value, hvalue, rfl⟩
  · exact carries_droppedCall h (simulates_ownDispatch h method) (fun _ hsig ↦ hsig)
      (hargs (Scope.accepts_call.mp haccepts).1 hnames) hcall hat
  · obtain ⟨hreceiver, hall, -⟩ := Scope.accepts_callOn.mp haccepts
    rw [Expr.typeNames, List.mem_append, not_or] at hnames
    exact carries_droppedCall h
      (simulates_dispatch h haccepts hnames.1 (simulates_lowerExpr h hreceiver hnames.1))
      (fun _ hsig ↦ Scope.method?_of_callee? hsig) (hargs hall hnames.2) hcall hat
  · exact ((simulates_lowerExpr h haccepts hnames _).carries hvalue hat temps w).mono
      fun _ _ _ hdone ↦ hdone.1

theorem executes_lowerAssign {pos : Position} {target : String} {value : Expr}
    (haccepts : a.scope.Accepts value) (hnames : "<any>" ∉ value.typeNames) {code : Code}
    (hy : (a.scope.lowerAssign pos target value).Yields c code c') (hat : M.HasAt i code) :
    M.Executes budget i temps st
      (do let v ← Run.ofEval fun store ↦ a.eval store value; a.writeVar target v)
      fun _ pc ↦ pc = i + code.length := by
  obtain ⟨storage, symbol, v, hlookup, hv, rfl⟩ := Scope.yields_lowerAssign hy
  obtain ⟨hat, hlast, -⟩ := hasAt_append.mp hat
  refine .ofEval_bind ((simulates_lowerExpr h haccepts hnames _).carries hv hat temps _) ?_
  rintro value pc temps' w ⟨rfl, -, hholds⟩
  rw [add_length_snoc, Activation.writeVar, hlookup]
  cases storage with
  | field => exact .ofEval (carries_putField hlast hholds.read) fun _ _ _ hdone ↦ hdone
  | localVar | param => exact executes_assign_var hlast hholds.read

theorem executes_lowerStore {pos : Position} {target : String} {index value : Expr}
    (hindex : a.scope.Accepts index) (hindexNames : "<any>" ∉ index.typeNames)
    (hvalue : a.scope.Accepts value) (hvalueNames : "<any>" ∉ value.typeNames) {code : Code}
    (hy : (a.scope.lowerStore pos target index value).Yields c code c') (hat : M.HasAt i code) :
    M.Executes budget i temps st (a.writeElement target index value)
      fun _ pc ↦ pc = i + code.length := by
  obtain ⟨array, c₁, idx, c₂, v, harray, -, hidx, hv, rfl⟩ := Scope.yields_lowerStore hy
  obtain ⟨hat, hlast, -⟩ := hasAt_append.mp hat
  rw [List.append_assoc] at hat
  obtain ⟨hata, hat⟩ := hasAt_append.mp hat
  have hsimIndex : M.Simulates st.store (a.scope.lowerExpr index (some .int)) _ :=
    simulates_lowerExpr h hindex hindexNames _
  have hsimValue : M.Simulates st.store
      (a.scope.lowerExpr value (some array.operand.ty.element)) _ :=
    simulates_lowerExpr h hvalue hvalueNames _
  have hfinish : i + (array.code ++ idx.code ++ v.code).length =
      i + array.code.length + (idx.code ++ v.code).length := by
    rw [List.append_assoc, List.length_append, Nat.add_assoc]
  rw [hfinish] at hlast
  rw [add_length_snoc, hfinish]
  refine .ofEval (((simulates_lowerVar h pos target).carries harray hata temps _).bind ?_)
    fun _ _ _ hdone ↦ hdone
  rintro arrayValue pc temps₁ w₁ ⟨rfl, -, hholds₁⟩
  refine carries_two hsimIndex hsimValue hidx hv hat ?_
  intro v₁ v₂ temps₂ w₂ hagree h₁ h₂
  -- The array was read first, and its temporary is older than those written since.
  have hholds := hholds₁.later (Nat.le_refl _) hagree
  exact (carries_assign_element hlast (by rw [hholds.read, h₁.read, h₂.read])).mono
    fun _ _ _ hdone ↦ hdone.1

theorem executes_lowerReturn {value : Option Expr}
    (haccepts : ∀ e ∈ value, a.scope.Accepts e) (hnames : ∀ e ∈ value, "<any>" ∉ e.typeNames)
    {pos : Position} {code : Code} (hy : (a.scope.lowerReturn value).Yields c code c')
    (hat : M.HasAt i code) {post : Unit → Nat → Prop} :
    M.Executes budget i temps st (a.exec budget (.ret pos value)) post := by
  cases value with
  | none =>
    obtain ⟨rfl, rfl⟩ := Lower.yields_pure.mp hy
    exact executes_ret hat.1 rfl
  | some value =>
    obtain ⟨v, hv, rfl⟩ := Scope.yields_lowerReturn_some hy
    obtain ⟨hat, hlast, -⟩ := hasAt_append.mp hat
    refine .ofEval_bind ((simulates_lowerExpr h (haccepts value rfl) (hnames value rfl) _).carries
      hv hat temps _) ?_
    rintro v pc temps' w ⟨rfl, -, hholds⟩
    exact executes_ret hlast (by rw [Option.map_some, hholds.read])

end

/-! ## Statements made of statements -/

section

variable {a : Activation}

theorem executes_lowerStmts {fuel : Nat} {stmts : List Stmt}
    (hstmts : ∀ stmt ∈ stmts, ∀ {c code c'}, (a.scope.lowerStmt stmt).Yields c code c' →
      ∀ {i}, M.HasAt i code → ∀ temps st,
        M.Executes fuel i temps st (a.exec fuel stmt) fun _ pc ↦ pc = i + code.length) :
    ∀ {c code c'}, (a.scope.lowerStmts stmts).Yields c code c' → ∀ {i}, M.HasAt i code →
      ∀ temps st,
        M.Executes fuel i temps st (a.execAll fuel stmts) fun _ pc ↦ pc = i + code.length := by
  induction stmts with
  | nil =>
    intro c code c' hy i hat temps st
    obtain ⟨rfl, rfl⟩ := Lower.yields_pure.mp hy
    exact .pure rfl
  | cons stmt stmts ih =>
    intro c code c' hy i hat temps st
    obtain ⟨first, c₁, rest, hfirst, hrest, rfl⟩ := Scope.yields_lowerStmts_cons hy
    obtain ⟨hhead, htail⟩ := List.forall_mem_cons.mp hstmts
    obtain ⟨hatf, hatr⟩ := hasAt_append.mp hat
    refine (hhead hfirst hatf temps st).bind ?_
    rintro u pc temps' st' rfl
    rw [List.length_append, ← Nat.add_assoc]
    exact ih htail hrest hatr temps' st'

/-- A loop, where `inside` is the place of its body and `back` the place after that. One step leads
from the head of the loop to its condition, so no round comes for free. -/
theorem executes_loop {fuel head inside back finish : Nat} {test : Run Bool} {body : Run Unit}
    (hhead : ∀ temps st, M.step ⟨head, temps, st⟩ = .next ⟨head + 1, temps, st⟩)
    (hround : ∀ {n : Nat} {next : Run Unit},
      (∀ temps st, M.Executes n inside temps st next fun _ pc ↦ pc = finish) → ∀ temps st,
        M.Executes n (head + 1) temps st (do if ← test then next) fun _ pc ↦ pc = finish)
    (hbody : ∀ temps st, M.Executes fuel inside temps st body fun _ pc ↦ pc = back)
    (hback : ∀ temps st, M.Reaches ⟨back, temps, st⟩ ⟨head, temps, st⟩) {n : Nat} (hn : n ≤ fuel) :
    ∀ temps st, M.Executes n head temps st (Run.loop test body n) fun _ pc ↦ pc = finish := by
  induction n with
  | zero =>
    intro temps st
    -- Without fuel a condition that is met ends the run, and the machine owes no step.
    have hout : ∀ temps st, M.Executes 0 inside temps st (throw .outOfFuel)
        fun (_ : Unit) pc ↦ pc = finish :=
      fun temps st ↦ RunsFor.zero ⟨inside, temps, st⟩
    exact .of_reaches (reaches_of_step (hhead temps st)) (hround hout temps st)
  | succ n ih =>
    intro temps st
    -- The step from the head is the one this round owes.
    refine .of_step (hhead temps st) (hround ?_ temps st)
    intro temps st
    refine ((hbody temps st).mono_budget (Nat.le_of_succ_le hn)).bind ?_
    rintro u pc temps' st' rfl
    exact .of_reaches (hback temps' st') (ih (Nat.le_of_succ_le hn) temps' st')

/-- The code of an accepted statement does what the statement does. -/
theorem executes_lowerStmt (h : M.Hosts a) {fuel : Nat} {stmt : Stmt} :
    a.scope.AcceptsStmt stmt → "<any>" ∉ stmt.typeNames →
    ∀ {c code c'}, (a.scope.lowerStmt stmt).Yields c code c' → ∀ {i}, M.HasAt i code →
      ∀ temps st,
        M.Executes fuel i temps st (a.exec fuel stmt) fun _ pc ↦ pc = i + code.length := by
  induction stmt using Stmt.memberInduct with
  | block pos stmts ih =>
    intro haccepts hnames
    rw [Scope.acceptsStmt_block] at haccepts
    rw [Stmt.typeNames, Stmt.not_mem_typeNamesAll] at hnames
    exact executes_lowerStmts fun stmt hmem ↦ ih stmt hmem (haccepts stmt hmem) (hnames stmt hmem)
  | ifElse pos cond thenBranch elseBranch ihThen ihElse =>
    intro haccepts hnames c code c' hy i hat temps st
    obtain ⟨hcond, -, hthen, helse⟩ := Scope.acceptsStmt_ifElse.mp haccepts
    simp only [Stmt.typeNames, List.mem_append, not_or] at hnames
    obtain ⟨jump, condCode, c₁, elseCode, c₂, thenCode, hyCond, hyElse, hyThen, rfl⟩ :=
      Scope.yields_lowerIf hy
    simp only [hasAt_append, HasAt, and_true, List.length_append, List.length_cons,
      List.length_nil, ← Nat.add_assoc, Nat.add_zero] at hat
    obtain ⟨⟨⟨⟨⟨hatCond, hbranch⟩, hatElse⟩, hgoto, hthenLabel⟩, hatThen⟩, hendLabel⟩ := hat
    refine .ofEval_bind (carries_lowerCond h hcond hnames.1.1 hyCond hatCond hbranch hthenLabel) ?_
    rintro taken pc temps' w rfl
    -- The else branch comes first in the code, and the jump leads past it.
    cases taken with
    | true =>
      rw [if_pos rfl, if_pos rfl, ← bind_pure (a.exec fuel thenBranch)]
      refine .of_reaches (reaches_label hthenLabel _)
        ((ihThen hthen hnames.1.2 hyThen hatThen temps' _).bind ?_)
      rintro u pc temps'' st' rfl
      exact .of_reaches (reaches_label hendLabel _) (.pure (by simp +arith))
    | false =>
      rw [if_neg Bool.false_ne_true, if_neg Bool.false_ne_true,
        ← bind_pure (a.exec fuel elseBranch)]
      refine (ihElse helse hnames.2 hyElse hatElse temps' _).bind ?_
      rintro u pc temps'' st' rfl
      exact .of_reaches ((reaches_goto h.labels hgoto hendLabel _).trans
        (reaches_label hendLabel _)) (.pure (by simp +arith))
  | whileLoop pos cond body ihBody =>
    intro haccepts hnames c code c' hy i hat temps st
    obtain ⟨hcond, -, hbody⟩ := Scope.acceptsStmt_whileLoop.mp haccepts
    rw [Stmt.typeNames, List.mem_append, not_or] at hnames
    obtain ⟨jump, condCode, c₁, bodyCode, hyCond, hyBody, rfl⟩ := Scope.yields_lowerWhile hy
    simp only [hasAt_append, HasAt, and_true, List.length_append, List.length_cons,
      List.length_nil, ← Nat.add_assoc, Nat.add_zero] at hat
    obtain ⟨⟨⟨⟨hhead, hatCond⟩, hbranch, hgoto, hbodyLabel⟩, hatBody⟩, hback, hendLabel⟩ := hat
    refine executes_loop (fun temps st ↦ step_of_getElem? hhead temps st) ?_
      (fun temps st ↦ ihBody hbody hnames.2 hyBody hatBody temps st)
      (fun temps st ↦ reaches_goto h.labels hback hhead st) (Nat.le_refl fuel) temps st
    -- What the body goes on to is left open, since the rounds are counted by the lemma on loops.
    intro n next hnext temps st
    refine .ofEval_bind (carries_lowerCond h hcond hnames.1 hyCond hatCond hbranch hbodyLabel) ?_
    rintro taken pc temps' w rfl
    cases taken with
    | true => exact .of_reaches (reaches_label hbodyLabel _) (hnext temps' _)
    | false =>
      exact .of_reaches ((reaches_goto h.labels hgoto hendLabel _).trans
        (reaches_label hendLabel _)) (.pure (by simp +arith))
  | eval pos expr =>
    intro haccepts hnames c code c' hy i hat temps st
    exact .ofEval_bind (carries_lowerEval h (Scope.acceptsStmt_eval.mp haccepts) hnames hy hat)
      fun _ _ _ _ hdone ↦ .pure hdone
  | assign pos target value =>
    intro haccepts hnames c code c' hy i hat temps st
    exact executes_lowerAssign h (Scope.acceptsStmt_assign.mp haccepts).1 hnames hy hat
  | store pos target index value =>
    intro haccepts hnames c code c' hy i hat temps st
    obtain ⟨-, hindex, hvalue, -⟩ := Scope.acceptsStmt_store.mp haccepts
    rw [Stmt.typeNames, List.mem_append, not_or] at hnames
    exact executes_lowerStore h hindex hnames.1 hvalue hnames.2 hy hat
  | ret pos value =>
    intro haccepts hnames c code c' hy i hat temps st
    refine executes_lowerReturn h ?_ ?_ hy hat
    · rintro e rfl
      exact (Scope.acceptsStmt_ret_some.mp haccepts).1
    · rintro e rfl
      exact hnames

end

end Machine

end Tricode
