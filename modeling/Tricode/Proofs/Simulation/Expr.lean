import Tricode.Proofs.OperandTypes
import Tricode.Proofs.Simulation

/-!
# Lowered expressions do what expressions mean

The code of an expression carries out its evaluation and leaves the value where the operand is
read. It disturbs no temporary that was drawn before, so the operands of expressions lowered
earlier stay valid. This holds combinator by combinator, for any parts that have it, and so by
induction for all trees.

The one place where acceptance matters is a call on a receiver: only there do checking and lowering
decide apart from each other which method answers.
-/

namespace Tricode

namespace Machine

variable {M : Machine} {store : Store} {c c' : Counters} {i pc : Nat} {temps : Temps} {w : World}
  {α : Type}

/-! ## What is to be shown -/

/-- The machine has come to place `finish`, kept the temporaries below `n` since `temps`, and
reads `operand` as the given value while those below `n'` stay. -/
def Delivers (M : Machine) (store : Store) (n n' : Nat) (temps : Temps) (operand : Operand)
    (finish : Nat) : Value → Nat → Temps → Prop :=
  fun v pc temps' ↦ pc = finish ∧ Temps.Agree n temps temps' ∧ M.Holds store n' temps' operand v

/-- Whatever the step yields, its code evaluates `ev`. -/
structure Simulates (M : Machine) (store : Store) (x : Lower Lowered) (ev : Eval Value) : Prop where
  assembles : x.Assembles
  carries : ∀ {c l c'}, x.Yields c l c' → ∀ {i}, M.HasAt i l.code → ∀ temps w,
    M.Carries store i temps w ev
      (M.Delivers store c.temps c'.temps temps l.operand (i + l.code.length))

/-- The same for whatever type is expected. -/
abbrev SimulatesEmit (M : Machine) (store : Store) (emit : Emit) (ev : Eval Value) : Prop :=
  ∀ hint, M.Simulates store (emit hint) ev

theorem Simulates.temps_le {x : Lower Lowered} {ev : Eval Value} {l : Lowered}
    (h : M.Simulates store x ev) (hy : x.Yields c l c') : c.temps ≤ c'.temps :=
  (h.assembles hy).numbered.le.1

/-- An expression without code of its own. -/
theorem carries_operand {operand : Operand} {n : Nat} {v : Value}
    (h : ∀ temps, M.read store temps operand = v) :
    M.Carries store i temps w (pure v) (M.Delivers store n n temps operand i) :=
  .pure ⟨rfl, .refl _ _, fun temps' _ ↦ h temps'⟩

/-- A value that was just written to a temporary. -/
theorem delivers_set {n n' id finish : Nat} {temps' : Temps} {ty : Ty} {v : Value}
    (hpc : pc = finish) (hagree : Temps.Agree n temps temps') (hle : n ≤ id) (hlt : id < n') :
    M.Delivers store n n' temps (.temp id ty) finish v pc (temps'.set id v) :=
  ⟨hpc, hagree.trans (Temps.agree_set temps' v hle), holds_set ty v hlt⟩

/-- The instruction that ends most expressions: a result goes to a fresh temporary. -/
theorem carries_intoTemp {n n' finish : Nat} {temps' : Temps} {ty : Ty} {value : Rvalue}
    {ev : Eval Value} (h : M.method.body[pc]? = some (.assign (.temp n' ty) ty value))
    (hev : M.rvalue store temps' value = ev) (hagree : Temps.Agree n temps temps')
    (hle : n ≤ n') (hfinish : pc + 1 = finish) :
    M.Carries store pc temps' w ev
      (M.Delivers store n (n' + 1) temps (.temp n' ty) finish) := by
  refine (carries_assign_temp h hev).mono ?_
  rintro v pc' temps'' ⟨rfl, rfl⟩
  exact delivers_set hfinish hagree hle (Nat.lt_succ_self n')

/-- Two expressions in order. Both values are there when the code of both has run. -/
theorem carries_two {x y : Lower Lowered} {evx evy : Eval Value} (hx : M.Simulates store x evx)
    (hy : M.Simulates store y evy) {left right : Lowered} {c₁ c₂ : Counters}
    (hleft : x.Yields c left c₁) (hright : y.Yields c₁ right c₂)
    (hat : M.HasAt i (left.code ++ right.code)) {k : Value → Value → Eval α}
    {post : α → Nat → Temps → Prop}
    (hk : ∀ v₁ v₂ temps' w', Temps.Agree c.temps temps temps' →
      M.Holds store c₂.temps temps' left.operand v₁ →
      M.Holds store c₂.temps temps' right.operand v₂ →
      M.Carries store (i + (left.code ++ right.code).length) temps' w' (k v₁ v₂) post) :
    M.Carries store i temps w (do let v₁ ← evx; let v₂ ← evy; k v₁ v₂) post := by
  obtain ⟨hatl, hatr⟩ := hasAt_append.mp hat
  refine (hx.carries hleft hatl temps w).bind ?_
  rintro v₁ pc₁ temps₁ w₁ ⟨rfl, hagree₁, hholds₁⟩
  refine (hy.carries hright hatr temps₁ w₁).bind ?_
  rintro v₂ pc₂ temps₂ w₂ ⟨rfl, hagree₂, hholds₂⟩
  rw [Nat.add_assoc, ← List.length_append]
  exact hk v₁ v₂ temps₂ w₂ (hagree₁.trans (hagree₂.mono (hx.temps_le hleft)))
    (hholds₁.later (hy.temps_le hright) hagree₂) hholds₂

/-- One expression whose value an instruction turns into that of a fresh temporary. -/
theorem carries_oneIntoTemp {x : Lower Lowered} {ev : Eval Value} (hx : M.Simulates store x ev)
    {inner : Lowered} {c₁ : Counters} (hinner : x.Yields c inner c₁) {ty : Ty} {value : Rvalue}
    {k : Value → Eval Value}
    (hat : M.HasAt i (inner.code ++ [.assign (.temp c₁.temps ty) ty value]))
    (hvalue : ∀ temps', M.rvalue store temps' value = k (M.read store temps' inner.operand)) :
    M.Carries store i temps w (do let v ← ev; k v)
      (M.Delivers store c.temps (c₁.temps + 1) temps (.temp c₁.temps ty)
        (i + (inner.code ++ [Instruction.assign (.temp c₁.temps ty) ty value]).length)) := by
  obtain ⟨hat, hlast⟩ := hasAt_append.mp hat
  refine (hx.carries hinner hat temps w).bind ?_
  rintro v pc temps' w' ⟨rfl, hagree, hholds⟩
  exact carries_intoTemp hlast.1 (by rw [hvalue, hholds.read]) hagree (hx.temps_le hinner)
    (by simp [Nat.add_assoc])

/-- Two expressions in order, whose values an instruction turns into that of a fresh temporary. -/
theorem carries_twoIntoTemp {x y : Lower Lowered} {evx evy : Eval Value}
    (hx : M.Simulates store x evx) (hy : M.Simulates store y evy) {left right : Lowered}
    {c₁ c₂ : Counters} (hleft : x.Yields c left c₁) (hright : y.Yields c₁ right c₂) {ty : Ty}
    {value : Rvalue} {k : Value → Value → Eval Value}
    (hat : M.HasAt i (left.code ++ right.code ++ [.assign (.temp c₂.temps ty) ty value]))
    (hvalue : ∀ temps', M.rvalue store temps' value =
      k (M.read store temps' left.operand) (M.read store temps' right.operand)) :
    M.Carries store i temps w (do let v₁ ← evx; let v₂ ← evy; k v₁ v₂)
      (M.Delivers store c.temps (c₂.temps + 1) temps (.temp c₂.temps ty)
        (i + (left.code ++ right.code ++
          [Instruction.assign (.temp c₂.temps ty) ty value]).length)) := by
  obtain ⟨hat, hlast⟩ := hasAt_append.mp hat
  refine carries_two hx hy hleft hright hat ?_
  intro v₁ v₂ temps' w' hagree h₁ h₂
  exact carries_intoTemp hlast.1 (by rw [hvalue, h₁.read, h₂.read]) hagree
    (Nat.le_trans (hx.temps_le hleft) (hy.temps_le hright)) (by simp [Nat.add_assoc])

/-! ## Operators -/

theorem simulates_not {operand : Emit} {ev : Eval Value} (h : M.SimulatesEmit store operand ev) :
    M.Simulates store (Lower.not operand) (do let v ← ev; Eval.negate v) := by
  refine ⟨Lower.assembles_not fun hint ↦ (h hint).assembles, ?_⟩
  intro c l c' hy i hat temps w
  obtain ⟨inner, c₁, hinner, rfl, rfl⟩ := Lower.yields_not hy
  exact carries_oneIntoTemp (h _) hinner hat fun _ ↦ rfl

section Binary

variable {op : BinOp} {lhs rhs : Emit} {evl evr : Eval Value}
  (hl : M.SimulatesEmit store lhs evl) (hr : M.SimulatesEmit store rhs evr)
include hl hr

theorem simulates_arithmetic :
    M.Simulates store (Lower.arithmetic op lhs rhs)
      (do let l ← evl; let r ← evr; Eval.operate op l r) := by
  refine ⟨Lower.assembles_arithmetic (fun _ ↦ (hl _).assembles) fun _ ↦ (hr _).assembles, ?_⟩
  intro c l c' hy i hat temps w
  obtain ⟨left, c₁, right, c₂, hleft, hright, rfl, rfl⟩ := Lower.yields_arithmetic hy
  exact carries_twoIntoTemp (hl _) (hr _) hleft hright hat fun _ ↦ rfl

/-- A comparison that steers a jump. -/
theorem carries_compare {cond : Cond} {code : Code} {target : Label} {j : Nat}
    (hlabels : M.method.body.labels.Nodup)
    (hy : (Lower.compare op lhs rhs).Yields c (cond, code) c') (hat : M.HasAt i code)
    (hbranch : M.method.body[i + code.length]? = some (.branch cond target))
    (hj : M.method.body[j]? = some (.label target)) :
    M.Carries store i temps w
      (do let l ← evl; let r ← evr; let v ← Eval.operate op l r; Eval.test v)
      fun taken pc temps' ↦
        pc = (if taken then j else i + code.length + 1) ∧ Temps.Agree c.temps temps temps' := by
  obtain ⟨left, c₁, right, hleft, hright, rfl, rfl⟩ := Lower.yields_compare hy
  refine carries_two (hl _) (hr _) hleft hright hat ?_
  intro v₁ v₂ temps' w' hagree h₁ h₂
  refine (carries_branch hlabels hbranch hj (by rw [condition, h₁.read, h₂.read])).mono ?_
  rintro taken pc temps'' ⟨rfl, rfl⟩
  exact ⟨rfl, hagree⟩

theorem simulates_comparison (hlabels : M.method.body.labels.Nodup)
    (hop : op.opClass = .relational) :
    M.Simulates store (Lower.comparison op lhs rhs)
      (do let l ← evl; let r ← evr; Eval.operate op l r) := by
  refine ⟨Lower.assembles_comparison (fun _ ↦ (hl _).assembles) fun _ ↦ (hr _).assembles, ?_⟩
  intro c l c' hy i hat temps w
  obtain ⟨cond, code, c₁, hcmp, rfl, rfl⟩ := Lower.yields_comparison hy
  have hle := (Lower.assembled_compare (fun _ ↦ (hl _).assembles) (fun _ ↦ (hr _).assembles)
    hcmp).numbered.le.1
  obtain ⟨hat, hbranch, hfalse, hgoto, htrueLabel, htrue, hendLabel, -⟩ := hasAt_append.mp hat
  -- The value is what the test of the comparison says.
  have hev : (do let l ← evl; let r ← evr; Eval.operate op l r) =
      (do let b ← (do let l ← evl; let r ← evr; let v ← Eval.operate op l r; Eval.test v)
          pure (.bool b)) := by
    simp only [bind_assoc, Eval.operate_test hop]
  rw [hev]
  refine (carries_compare hl hr hlabels hcmp hat hbranch htrueLabel).bind ?_
  rintro taken pc temps' w' ⟨rfl, hagree⟩
  cases taken with
  | true =>
    refine .of_reaches ((reaches_label htrueLabel _).trans ((reaches_setBool htrue).trans
      (reaches_label hendLabel _))) (.pure ?_)
    exact delivers_set (by simp [Nat.add_assoc]) hagree hle (Nat.lt_succ_self _)
  | false =>
    refine .of_reaches ((reaches_setBool hfalse).trans
      ((reaches_goto hlabels hgoto hendLabel _).trans (reaches_label hendLabel _))) (.pure ?_)
    exact delivers_set (by simp [Nat.add_assoc]) hagree hle (Nat.lt_succ_self _)

theorem simulates_and (hlabels : M.method.body.labels.Nodup) :
    M.Simulates store (Lower.and lhs rhs) (Eval.and evl evr) := by
  refine ⟨Lower.assembles_and (fun _ ↦ (hl _).assembles) fun _ ↦ (hr _).assembles, ?_⟩
  intro c l c' hy i hat temps w
  obtain ⟨left, c₁, right, hleft, hright, rfl⟩ := Lower.yields_and hy
  have hle := (hl _).temps_le hleft
  have hlt := (hr _).temps_le hright
  simp only [hasAt_append, HasAt, and_true, List.length_append, List.length_cons, List.length_nil,
    ← Nat.add_assoc, Nat.add_zero] at hat
  obtain ⟨⟨⟨hatl, hbranch, hfalse, hgoto, hrhsLabel⟩, hatr⟩, hset, hendLabel⟩ := hat
  refine ((hl _).carries hleft hatl temps w).bind ?_
  rintro v pc temps₁ w₁ ⟨rfl, hagree₁, hholds⟩
  refine (carries_branch hlabels hbranch hrhsLabel (by rw [condition, hholds.read])).bind ?_
  rintro taken pc temps₁ w₂ ⟨rfl, rfl⟩
  -- The jump leads to the right operand, whose value is then that of the whole.
  cases taken with
  | true =>
    rw [if_pos rfl, if_pos rfl, ← bind_pure evr]
    refine .of_reaches (reaches_label hrhsLabel _) (((hr _).carries hright hatr temps₁ w₂).bind ?_)
    rintro v pc temps₂ w₃ ⟨rfl, hagree₂, hholds₂⟩
    refine .of_reaches ((reaches_setBool hset).trans (reaches_label hendLabel _)) (.pure ?_)
    rw [hholds₂.read]
    exact delivers_set (by simp +arith) (hagree₁.trans (hagree₂.mono (Nat.le_succ_of_le hle))) hle
      hlt
  | false =>
    refine .of_reaches ((reaches_setBool hfalse).trans
      ((reaches_goto hlabels hgoto hendLabel _).trans (reaches_label hendLabel _))) (.pure ?_)
    exact delivers_set (by simp +arith) hagree₁ hle hlt

theorem simulates_or (hlabels : M.method.body.labels.Nodup) :
    M.Simulates store (Lower.or lhs rhs) (Eval.or evl evr) := by
  refine ⟨Lower.assembles_or (fun _ ↦ (hl _).assembles) fun _ ↦ (hr _).assembles, ?_⟩
  intro c l c' hy i hat temps w
  obtain ⟨left, c₁, right, hleft, hright, rfl⟩ := Lower.yields_or hy
  have hle := (hl _).temps_le hleft
  have hlt := (hr _).temps_le hright
  simp only [hasAt_append, HasAt, and_true, List.length_append, List.length_cons, List.length_nil,
    ← Nat.add_assoc, Nat.add_zero] at hat
  obtain ⟨⟨⟨hatl, hbranch⟩, hatr⟩, hset, hgoto, htrueLabel, htrue, hendLabel⟩ := hat
  refine ((hl _).carries hleft hatl temps w).bind ?_
  rintro v pc temps₁ w₁ ⟨rfl, hagree₁, hholds⟩
  refine (carries_branch hlabels hbranch htrueLabel (by rw [condition, hholds.read])).bind ?_
  rintro taken pc temps₁ w₂ ⟨rfl, rfl⟩
  -- The jump skips the right operand.
  cases taken with
  | true =>
    refine .of_reaches ((reaches_label htrueLabel _).trans ((reaches_setBool htrue).trans
      (reaches_label hendLabel _))) (.pure ?_)
    exact delivers_set (by simp +arith) hagree₁ hle hlt
  | false =>
    rw [if_neg Bool.false_ne_true, if_neg Bool.false_ne_true, ← bind_pure evr]
    refine ((hr _).carries hright hatr temps₁ w₂).bind ?_
    rintro v pc temps₂ w₃ ⟨rfl, hagree₂, hholds₂⟩
    refine .of_reaches ((reaches_setBool hset).trans
      ((reaches_goto hlabels hgoto hendLabel _).trans (reaches_label hendLabel _))) (.pure ?_)
    rw [hholds₂.read]
    exact delivers_set (by simp +arith) (hagree₁.trans (hagree₂.mono (Nat.le_succ_of_le hle))) hle
      hlt

theorem simulates_binary (hlabels : M.method.body.labels.Nodup) :
    M.Simulates store (Lower.binary op lhs rhs) (Eval.binary op evl evr) := by
  cases op with
  | and => exact simulates_and hl hr hlabels
  | or => exact simulates_or hl hr hlabels
  | lt | gt => exact simulates_comparison hl hr hlabels rfl
  | add | sub | mul | div | rem => exact simulates_arithmetic hl hr

end Binary

/-! ## Arrays -/

theorem simulates_index {array idx : Emit} {eva evi : Eval Value}
    (ha : M.SimulatesEmit store array eva) (hi : M.SimulatesEmit store idx evi) :
    M.Simulates store (Lower.index array idx)
      (do let base ← eva; let i ← evi; Eval.load base i) := by
  refine ⟨Lower.assembles_index (fun _ ↦ (ha _).assembles) fun _ ↦ (hi _).assembles, ?_⟩
  intro c l c' hy i hat temps w
  obtain ⟨base, c₁, index, c₂, hbase, hindex, rfl, rfl⟩ := Lower.yields_index hy
  exact carries_twoIntoTemp (ha _) (hi _) hbase hindex hat fun _ ↦ rfl

theorem simulates_length {array : Emit} {ev : Eval Value} (h : M.SimulatesEmit store array ev) :
    M.Simulates store (Lower.length array) (do let base ← ev; Eval.length base) := by
  refine ⟨Lower.assembles_length fun _ ↦ (h _).assembles, ?_⟩
  intro c l c' hy i hat temps w
  obtain ⟨base, c₁, hbase, rfl, rfl⟩ := Lower.yields_length hy
  exact carries_oneIntoTemp (h _) hbase hat fun _ ↦ rfl

theorem simulates_newArray {elem : Ty} {size : Emit} {ev : Eval Value}
    (h : M.SimulatesEmit store size ev) :
    M.Simulates store (Lower.newArray elem size) (do let n ← ev; Eval.allocate elem n) := by
  refine ⟨Lower.assembles_newArray fun _ ↦ (h _).assembles, ?_⟩
  intro c l c' hy i hat temps w
  obtain ⟨n, c₁, hn, rfl, rfl⟩ := Lower.yields_newArray hy
  exact carries_oneIntoTemp (h _) hn hat fun _ ↦ rfl

theorem temps_le_storeElements {array : Operand} {elem : Ty} {elements : List Emit}
    {evs : List (Eval Value)} (h : List.Forall₂ (M.SimulatesEmit store) elements evs) {k : Nat}
    {code : Code} (hy : (Lower.storeElements array elem k elements).Yields c code c') :
    c.temps ≤ c'.temps := by
  induction h generalizing k c code with
  | nil =>
    obtain ⟨-, rfl⟩ := Lower.yields_pure.mp hy
    exact Nat.le_refl _
  | cons hhead _ ih =>
    obtain ⟨value, c₁, rest, hvalue, hrest, -⟩ := Lower.yields_storeElements_cons hy
    exact Nat.le_trans ((hhead _).temps_le hvalue) (ih hrest)

/-- Stores fill the array element by element. -/
theorem carries_storeElements {array : Operand} {elem : Ty} {address : Value} {n : Nat}
    {elements : List Emit} {evs : List (Eval Value)}
    (h : List.Forall₂ (M.SimulatesEmit store) elements evs) :
    ∀ {k : Nat} {c c' : Counters} {code : Code} {i : Nat} {temps : Temps} {w : World},
      (Lower.storeElements array elem k elements).Yields c code c' → n ≤ c.temps →
      M.Holds store n temps array address → M.HasAt i code →
      M.Carries store i temps w (Eval.fill address k evs) fun _ pc temps' ↦
        pc = i + code.length ∧ Temps.Agree n temps temps' := by
  induction h with
  | nil =>
    intro k c c' code i temps w hy hle harray hat
    obtain ⟨rfl, rfl⟩ := Lower.yields_pure.mp hy
    exact .pure ⟨rfl, .refl _ _⟩
  | @cons element ev elements evs hhead _ ih =>
    intro k c c' code i temps w hy hle harray hat
    obtain ⟨value, c₁, rest, hvalue, hrest, rfl⟩ := Lower.yields_storeElements_cons hy
    obtain ⟨hatv, hstore, hatr⟩ := hasAt_append.mp hat
    refine ((hhead _).carries hvalue hatv temps w).bind ?_
    rintro v pc temps₁ w₁ ⟨rfl, hagree₁, hholds⟩
    -- An element is computed in temporaries of its own, so the array stays where it was.
    have harray₁ := harray.later (Nat.le_refl n) (hagree₁.mono hle)
    refine (carries_assign_element hstore (by rw [harray₁.read, hholds.read]; rfl)).bind ?_
    rintro u pc temps₁ w₂ ⟨rfl, rfl⟩
    refine (ih hrest (Nat.le_trans hle ((hhead _).temps_le hvalue)) harray₁ hatr).mono ?_
    rintro u pc temps₂ ⟨rfl, hagree₂⟩
    exact ⟨by simp +arith, (hagree₁.mono hle).trans hagree₂⟩

theorem simulates_packArray {elem : Ty} {elements : List Emit} {evs : List (Eval Value)}
    (h : List.Forall₂ (M.SimulatesEmit store) elements evs) :
    M.Simulates store (Lower.packArray elem elements) (Eval.packed elem evs) := by
  have hassembles : ∀ emit ∈ elements, ∀ hint, (emit hint).Assembles :=
    ((List.forall₂_and_left _ _).mp
      (h.imp fun _ _ hsim ↦ ⟨fun hint ↦ (hsim hint).assembles, hsim⟩)).1
  refine ⟨Lower.assembles_packArray hassembles, ?_⟩
  intro c l c' hy i hat temps w
  obtain ⟨hlen, stores, hstores, rfl⟩ := Lower.yields_packArray hy
  obtain ⟨halloc, hat⟩ := hat
  have hgrows := temps_le_storeElements h hstores
  have hev : M.rvalue store temps (.newArray elem (.int (Int32.ofNat elements.length))) =
      Eval.allocateLength elem evs.length := by
    rw [rvalue, ← h.length_eq]
    exact Eval.allocate_ofNat elem hlen
  refine (carries_assign_temp halloc hev).bind ?_
  rintro address pc temps₁ w₁ ⟨rfl, rfl⟩
  have harray : M.Holds store (c.temps + 1) (temps.set c.temps address)
      (.temp c.temps elem.arrayOf) address := holds_set _ _ (Nat.lt_succ_self _)
  refine (carries_storeElements h hstores (Nat.le_refl _) harray hat).bind ?_
  rintro u pc temps₂ w₂ ⟨rfl, hagree⟩
  refine .pure ⟨by simp +arith, ?_, harray.later hgrows hagree⟩
  exact (Temps.agree_set temps address (Nat.le_refl _)).trans (hagree.mono (Nat.le_succ _))

/-! ## Objects and arguments -/

theorem simulates_construct (className : String) :
    M.Simulates store (Lower.construct className)
      (do let object ← Eval.ask M.oracle (.new className)
          let _ ← Eval.ask M.oracle (.call (.object object) "<init>" [])
          pure object) := by
  refine ⟨Lower.assembles_construct className, ?_⟩
  intro c l c' hy i hat temps w
  obtain ⟨rfl, rfl⟩ := Lower.yields_construct hy
  obtain ⟨hnew, hinit, -⟩ := hat
  refine (carries_assign_temp hnew rfl).bind ?_
  rintro object pc temps₁ w₁ ⟨rfl, rfl⟩
  have hholds : M.Holds store (c.temps + 1) (temps.set c.temps object)
      (.temp c.temps (.named className)) object := holds_set _ _ (Nat.lt_succ_self _)
  refine (carries_call hinit (by rw [call, hholds.read]; rfl)).bind ?_
  rintro v pc temps₂ w₂ ⟨rfl, rfl⟩
  exact .pure ⟨rfl, Temps.agree_set temps object (Nat.le_refl _), hholds⟩

/-- All operands read as their values, and do so while the temporaries below `n` stay. -/
def HoldsAll (M : Machine) (store : Store) (n : Nat) (temps : Temps) (operands : List Operand)
    (values : List Value) : Prop :=
  ∀ temps', Temps.Agree n temps temps' → operands.map (M.read store temps') = values

/-- The arguments of a call: where the machine stands once they are there. -/
def DeliversAll (M : Machine) (store : Store) (n n' : Nat) (temps : Temps)
    (operands : List Operand) (finish : Nat) : List Value → Nat → Temps → Prop :=
  fun vs pc temps' ↦
    pc = finish ∧ Temps.Agree n temps temps' ∧ M.HoldsAll store n' temps' operands vs

theorem HoldsAll.later {n n' : Nat} {temps' : Temps} {operands : List Operand}
    {values : List Value} (h : M.HoldsAll store n temps operands values) (hle : n ≤ n')
    (hagree : Temps.Agree n temps temps') : M.HoldsAll store n' temps' operands values :=
  fun temps'' h' ↦ h temps'' (hagree.trans (h'.mono hle))

theorem temps_le_inOrder {steps : List (Lower Lowered)} {evs : List (Eval Value)}
    (h : List.Forall₂ (M.Simulates store) steps evs) {operands : List Operand} {code : Code}
    (hy : (Lower.inOrder steps).Yields c (operands, code) c') : c.temps ≤ c'.temps := by
  have hassembles : ∀ step ∈ steps, step.Assembles :=
    ((List.forall₂_and_left _ _).mp (h.imp fun _ _ hsim ↦ ⟨hsim.assembles, hsim⟩)).1
  exact (Lower.assembled_inOrder hassembles hy).numbered.le.1

theorem carries_inOrder {steps : List (Lower Lowered)} {evs : List (Eval Value)}
    (h : List.Forall₂ (M.Simulates store) steps evs) :
    ∀ {c c' : Counters} {operands : List Operand} {code : Code} {i : Nat} {temps : Temps}
      {w : World}, (Lower.inOrder steps).Yields c (operands, code) c' → M.HasAt i code →
      M.Carries store i temps w (Eval.inOrder evs)
        (M.DeliversAll store c.temps c'.temps temps operands (i + code.length)) := by
  induction h with
  | nil =>
    intro c c' operands code i temps w hy hat
    rw [Lower.inOrder, Lower.yields_pure, Prod.mk.injEq] at hy
    obtain ⟨⟨rfl, rfl⟩, rfl⟩ := hy
    exact .pure ⟨rfl, .refl _ _, fun _ _ ↦ rfl⟩
  | @cons step ev steps evs hhead htail ih =>
    intro c c' operands code i temps w hy hat
    obtain ⟨first, c₁, rest, restCode, hfirst, hrest, rfl, rfl⟩ := Lower.yields_inOrder_cons hy
    obtain ⟨hatf, hatr⟩ := hasAt_append.mp hat
    have hle := hhead.temps_le hfirst
    have hle' := temps_le_inOrder htail hrest
    refine (hhead.carries hfirst hatf temps w).bind ?_
    rintro v pc temps₁ w₁ ⟨rfl, hagree₁, hholds₁⟩
    refine (ih hrest hatr).bind ?_
    rintro vs pc temps₂ w₂ ⟨rfl, hagree₂, hholds₂⟩
    refine .pure ⟨by simp [Nat.add_assoc], hagree₁.trans (hagree₂.mono hle), ?_⟩
    intro temps' hagree'
    -- The later operands do not touch the temporary of the first one.
    rw [List.map_cons, hholds₁.later hle' hagree₂ temps' hagree', hholds₂ temps' hagree']

/-- The arguments of a call, for a method of the unit or for one from outside. -/
theorem carries_lowerArguments {s : Scope} {callee : Option Signature} {args : List Expr}
    {emits : List Emit} {evs : List (Eval Value)}
    (hvarargs : ∀ sig, callee = some sig → sig.hasVarargs = true →
      ∃ elem, sig.varargsElement = some elem)
    (hown : List.Forall₂ (M.SimulatesEmit store) emits evs)
    (hforeign : List.Forall₂ (M.Simulates store)
      (List.zipWith (fun arg emit ↦ emit (s.argumentHint arg)) args emits) evs)
    {operands : List Operand} {code : Code}
    (hy : (s.lowerArguments callee args emits).Yields c (operands, code) c')
    (hat : M.HasAt i code) :
    c.temps ≤ c'.temps ∧ M.Carries store i temps w (Eval.arguments callee evs)
      (M.DeliversAll store c.temps c'.temps temps operands (i + code.length)) := by
  cases callee with
  | none => exact ⟨temps_le_inOrder hforeign hy, carries_inOrder hforeign hy hat⟩
  | some sig =>
    have hlen := hown.length_eq
    rw [Scope.lowerArguments] at hy
    rw [Eval.arguments]
    cases hpacks : sig.packs evs.length with
    | none =>
      have hplain := Signature.packs_eq_none (hvarargs sig rfl) hpacks
      rw [← hlen] at hplain
      rw [Lower.ownArguments_eq_inOrder hplain] at hy
      have hsteps : List.Forall₂ (M.Simulates store) (Lower.eachFor sig.params emits) evs :=
        Lower.forall₂_eachFor _ hown
      exact ⟨temps_le_inOrder hsteps hy, carries_inOrder hsteps hy hat⟩
    | some elem =>
      obtain ⟨hcount, helem⟩ := Signature.packs_eq_some.mp hpacks
      have hvar := Signature.hasVarargs_of_varargsElement helem
      obtain ⟨fixed, fixedCode, c₁, rest, hfixed, hrest, rfl, rfl⟩ :=
        Lower.yields_ownArguments_packed hy hvar (by rwa [hlen]) helem
      have hsteps : List.Forall₂ (M.Simulates store)
          (Lower.eachFor sig.params (emits.take sig.fixedArity)) (evs.take sig.fixedArity) :=
        Lower.forall₂_eachFor _ (List.forall₂_take sig.fixedArity hown)
      have hpacked : M.Simulates store (Lower.packArray elem (emits.drop sig.fixedArity))
          (Eval.packed elem (evs.drop sig.fixedArity)) :=
        simulates_packArray (List.forall₂_drop sig.fixedArity hown)
      have hle := temps_le_inOrder hsteps hfixed
      have hle' := hpacked.temps_le hrest
      obtain ⟨hatf, hatr⟩ := hasAt_append.mp hat
      refine ⟨Nat.le_trans hle hle', (carries_inOrder hsteps hfixed hatf).bind ?_⟩
      rintro vs pc temps₁ w₁ ⟨rfl, hagree₁, hholds₁⟩
      refine (hpacked.carries hrest hatr temps₁ w₁).bind ?_
      rintro v pc temps₂ w₂ ⟨rfl, hagree₂, hholds₂⟩
      refine .pure ⟨by simp [Nat.add_assoc], hagree₁.trans (hagree₂.mono hle), ?_⟩
      intro temps' hagree'
      rw [List.map_append, hholds₁.later hle' hagree₂ temps' hagree', List.map_singleton,
        hholds₂ temps' hagree']

/-! ## The machine of a method -/

/-- The machine runs the code of the method that `a` runs, and the names are such that lowering
and checking cannot misunderstand each other. -/
structure Hosts (M : Machine) (a : Activation) : Prop where
  oracle : M.oracle = a.oracle
  self : M.self = a.self
  className : M.className = a.scope.table.className
  params : M.method.params = a.scope.method.params
  locals : M.method.locals = a.scope.method.locals
  labels : M.method.body.labels.Nodup
  notVariable : M.isVariable "this" = false
  known : a.scope.TypesKnown
  notImported : a.scope.table.isImported a.scope.table.className = false
  notOpaque : a.scope.table.className ≠ Scope.opaqueClass
  varargs : ∀ {method sig}, a.scope.table.method? method = some sig → sig.hasVarargs = true →
    ∃ elem, sig.varargsElement = some elem

/-- A call by way of `d` is made on `receiver`, while the temporaries below `n` stay. -/
def Addresses (M : Machine) (store : Store) (n : Nat) (temps : Temps) (d : Dispatch)
    (method : String) (receiver : Receiver) : Prop :=
  ∀ temps', Temps.Agree n temps temps' → ∀ operands ret,
    M.call store temps' ⟨d.kind, d.receiver, some method, operands, ret⟩ =
      Eval.ask M.oracle (.call receiver method (operands.map (M.read store temps')))

/-- Whatever the step yields, its code evaluates the receiver `ev` of a call that `callee`
answers. -/
structure SimulatesDispatch (M : Machine) (store : Store) (x : Lower Dispatch) (method : String)
    (callee : Option Signature) (ev : Eval Receiver) : Prop where
  assembled : ∀ {c d c'}, x.Yields c d c' → Assembled c [d.receiver] d.code c'
  callee_eq : ∀ {c d c'}, x.Yields c d c' → d.callee = callee
  carries : ∀ {c d c'}, x.Yields c d c' → ∀ {i}, M.HasAt i d.code → ∀ temps w,
    M.Carries store i temps w ev fun r pc temps' ↦
      pc = i + d.code.length ∧ Temps.Agree c.temps temps temps' ∧
        M.Addresses store c'.temps temps' d method r

section

variable {a : Activation} (h : M.Hosts a)
include h

theorem isVariable_iff {name : String} :
    M.isVariable name = true ↔
      (∃ symbol, a.scope.method.param? name = some symbol) ∨
        ∃ symbol, a.scope.method.localVar? name = some symbol := by
  simp only [isVariable, h.params, h.locals, List.any_append, Bool.or_eq_true, List.any_eq_true,
    ← Option.isSome_iff_exists, Signature.param?, Signature.localVar?, List.find?_isSome]

/-- An imported class is read as itself, unless a variable hides it. -/
theorem read_ofClass {name : String} (hlookup : a.scope.lookup name = .imported) :
    M.read store temps (.ofClass name) = .classRef name := by
  obtain ⟨hlocal, hparam, himported⟩ := Scope.lookup_imported hlookup
  have hvar : M.isVariable name = false := by
    rw [Bool.eq_false_iff, Ne, isVariable_iff h, hlocal, hparam]
    simp
  have hthis : ¬(name = "this" ∧ Ty.named name = Ty.named M.className) := by
    rintro ⟨-, hty⟩
    have hname : name = M.className := congrArg Ty.name hty
    rw [hname, h.className] at himported
    exact Bool.false_ne_true (h.notImported.symm.trans himported)
  rw [Operand.ofClass, read, hvar, if_neg Bool.false_ne_true, if_neg hthis]

theorem read_variable {name : String} {storage : Storage} {symbol : Symbol}
    (hlookup : a.scope.lookup name = .stored storage symbol) (hstorage : storage ≠ .field)
    (ty : Ty) : M.read store temps (.var name ty) = store name := by
  have hvar : M.isVariable name = true := by
    rw [isVariable_iff h]
    rcases Scope.lookup_variable hlookup hstorage with hlocal | hparam
    · exact .inr ⟨symbol, hlocal⟩
    · exact .inl ⟨symbol, hparam⟩
  rw [read, if_pos hvar]

theorem read_this : M.read store temps a.scope.thisOperand = a.self := by
  have hclass : "this" = "this" ∧ Ty.named a.scope.table.className = Ty.named M.className :=
    ⟨rfl, by rw [h.className]⟩
  rw [Scope.thisOperand, Operand.this, read, h.notVariable, if_neg Bool.false_ne_true,
    if_pos hclass, h.self]

theorem simulates_lowerVar (pos : Position) (name : String) :
    M.Simulates store (a.scope.lowerVar pos name) (a.readVar store name) := by
  refine ⟨a.scope.assembles_lowerVar pos name, ?_⟩
  intro c l c' hy i hat temps w
  rw [Activation.readVar]
  rcases Scope.yields_lowerVar hy with ⟨symbol, hlookup, rfl, rfl⟩ |
    ⟨storage, symbol, hlookup, hstorage, rfl, rfl⟩ | ⟨hlookup, rfl, rfl⟩
  · rw [hlookup]
    exact carries_intoTemp hat.1 rfl (.refl _ _) (Nat.le_refl _) rfl
  · rw [hlookup]
    cases storage with
    | field => exact absurd rfl hstorage
    | localVar | param => exact carries_operand fun _ ↦ read_variable h hlookup hstorage _
  · rw [hlookup]
    exact carries_operand fun _ ↦ read_ofClass h hlookup

/-! ### Calls -/

theorem simulates_ownDispatch (method : String) :
    M.SimulatesDispatch store (pure (a.scope.ownDispatch method)) method
      (a.scope.table.method? method) (pure (a.ownReceiver method)) := by
  refine ⟨Scope.assembled_ownDispatch, ?_, ?_⟩
  · intro c d c' hy
    obtain ⟨rfl, -⟩ := Lower.yields_pure.mp hy
    exact Scope.callee_ownDispatch _ _
  · intro c d c' hy i hat temps w
    obtain ⟨rfl, rfl⟩ := Lower.yields_pure.mp hy
    have hcode : (a.scope.ownDispatch method).code = [] := by
      unfold Scope.ownDispatch
      split <;> split <;> rfl
    refine .pure ⟨by rw [hcode]; rfl, .refl _ _, ?_⟩
    intro temps' _ operands ret
    unfold Scope.ownDispatch Activation.ownReceiver
    cases hfind : a.scope.table.method? method with
    | some sig =>
      cases hstatic : sig.isStatic with
      | true => simp [call, Operand.ofClass, hstatic]
      | false => simp [call, read_this h, hstatic]
    | none =>
      cases hsuper : a.scope.table.superclass with
      | some super => simp [call, read_this h]
      | none => simp [call, Operand.ofClass]

theorem simulates_dispatch {pos pos' : Position} {receiver : Expr} {method : String}
    {args : List Expr} (haccepts : a.scope.Accepts (.callOn pos' receiver method args))
    (hnames : "<any>" ∉ receiver.typeNames)
    (hreceiver : M.SimulatesEmit store (a.scope.lowerExpr receiver) (a.eval store receiver)) :
    M.SimulatesDispatch store
      (a.scope.dispatch pos receiver (a.scope.lowerExpr receiver) method) method
      (a.scope.callee? receiver method)
      (a.receiver receiver (a.eval store receiver) method) := by
  refine ⟨Scope.assembled_dispatch fun hint ↦ (hreceiver hint).assembles,
    Scope.callee_eq_callee? h.known h.notImported h.notOpaque haccepts hnames, ?_⟩
  intro c d c' hy i hat temps w
  rcases a.scope.receiver_cases receiver with ⟨p, rfl⟩ | ⟨p, name, rfl, hlookup⟩ | hobject
  · exact (simulates_ownDispatch h method).carries hy hat temps w
  · rw [Scope.dispatch, if_pos hlookup] at hy
    obtain ⟨rfl, rfl⟩ := Lower.yields_pure.mp hy
    rw [Activation.receiver, if_pos hlookup]
    exact .pure ⟨rfl, .refl _ _, fun _ _ _ _ ↦ rfl⟩
  · rw [Scope.dispatch_eq_objectDispatch hobject] at hy
    obtain ⟨object, hemit, -, rfl⟩ := Scope.yields_objectDispatch hy
    have hvalue : a.receiver receiver (a.eval store receiver) method =
        (do let v ← a.eval store receiver; pure (.object v)) := by
      cases receiver with
      | this p => cases hobject
      | var p name => exact if_neg (by simpa [Scope.isObject] using hobject)
      | _ => rfl
    rw [hvalue]
    refine ((hreceiver _).carries hemit hat temps w).bind ?_
    rintro v pc temps' w' ⟨rfl, hagree, hholds⟩
    refine .pure ⟨rfl, hagree, ?_⟩
    intro temps'' hagree' operands ret
    rw [call, hholds temps'' hagree']

/-- The code before a call evaluates receiver and arguments; then the call does the rest. -/
theorem carries_lowerCall {receiver : Lower Dispatch} {method : String}
    {callee : Option Signature} {ev : Eval Receiver} {args : List Expr} {retHint : Ty}
    {call : Call} {code : Code} {post : Value → Nat → Temps → Prop}
    (hreceiver : M.SimulatesDispatch store receiver method callee ev)
    (hvarargs : ∀ sig, callee = some sig → a.scope.table.method? method = some sig)
    (hargs : ∀ e ∈ args, M.SimulatesEmit store (a.scope.lowerExpr e) (a.eval store e))
    (hy : (a.scope.lowerCall receiver method args (a.scope.lowerEach args) retHint).Yields c
      (call, code) c')
    (hat : M.HasAt i code)
    (hcall : ∀ ev temps' w', Temps.Agree c.temps temps temps' → c.temps ≤ c'.temps →
      M.call store temps' call = ev → M.Carries store (i + code.length) temps' w' ev post) :
    M.Carries store i temps w (a.call ev callee method (a.evalEach store args)) post := by
  rw [Activation.evalEach_eq_map]
  obtain ⟨d, c₁, operands, argCode, hd, hoperands, rfl, rfl⟩ := Scope.yields_lowerCall hy
  obtain ⟨hatd, hata⟩ := hasAt_append.mp hat
  have hle := (hreceiver.assembled hd).numbered.le.1
  refine (hreceiver.carries hd hatd temps w).bind ?_
  rintro r pc temps₁ w₁ ⟨rfl, hagree₁, haddress⟩
  -- The method that lowering takes for the callee is the one whose arguments are evaluated.
  rw [hreceiver.callee_eq hd] at hoperands
  obtain ⟨hle', hcarries⟩ := carries_lowerArguments
    (fun sig hsig hvar ↦ h.varargs (hvarargs sig hsig) hvar) (Scope.forall₂_lowerEach hargs)
    (Scope.forall₂_zipWith_lowerEach hargs) hoperands hata
  refine hcarries.bind ?_
  rintro vs pc temps₂ w₂ ⟨rfl, hagree₂, hholds⟩
  rw [Nat.add_assoc, ← List.length_append]
  refine hcall _ temps₂ w₂ (hagree₁.trans (hagree₂.mono hle)) (Nat.le_trans hle hle') ?_
  rw [haddress temps₂ hagree₂, hholds temps₂ (.refl _ _), h.oracle]

theorem simulates_lowerCallValue {receiver : Lower Dispatch} {method : String}
    {callee : Option Signature} {ev : Eval Receiver} {args : List Expr}
    (hreceiver : M.SimulatesDispatch store receiver method callee ev)
    (hvarargs : ∀ sig, callee = some sig → a.scope.table.method? method = some sig)
    (hargs : ∀ e ∈ args, M.SimulatesEmit store (a.scope.lowerExpr e) (a.eval store e))
    (hint : Option Ty) :
    M.Simulates store
      (a.scope.lowerCallValue receiver method args (a.scope.lowerEach args) hint)
      (a.call ev callee method (a.evalEach store args)) := by
  refine ⟨Scope.assembles_lowerCallValue hreceiver.assembled
    (Scope.assembles_of_mem_lowerEach fun e _ ↦ a.scope.assembles_lowerExpr e), ?_⟩
  intro c l c' hy i hat temps w
  obtain ⟨call, code, c₁, hcall, rfl, rfl⟩ := Scope.yields_lowerCallValue hy
  obtain ⟨hat, hassign, -⟩ := hasAt_append.mp hat
  refine carries_lowerCall h hreceiver hvarargs hargs hcall hat ?_
  intro ev temps' w' hagree hle hev
  exact carries_intoTemp hassign hev hagree hle (by simp [Nat.add_assoc])

/-! ## All expressions -/

/-- The code of an accepted expression evaluates the expression. -/
theorem simulates_lowerExpr {e : Expr} : a.scope.Accepts e → "<any>" ∉ e.typeNames →
    M.SimulatesEmit store (a.scope.lowerExpr e) (a.eval store e) := by
  induction e using Expr.memberInduct with
  | lit pos value =>
    intro haccepts hnames hint
    refine ⟨a.scope.assembles_lowerExpr _ hint, ?_⟩
    intro c l c' hy i hat temps w
    obtain ⟨rfl, rfl⟩ := Lower.yields_pure.mp hy
    exact carries_operand fun _ ↦ rfl
  | this pos =>
    intro haccepts hnames hint
    refine ⟨a.scope.assembles_lowerExpr _ hint, ?_⟩
    intro c l c' hy i hat temps w
    obtain ⟨rfl, rfl⟩ := Lower.yields_pure.mp hy
    exact carries_operand fun _ ↦ read_this h
  | var pos name => exact fun _ _ _ ↦ simulates_lowerVar h pos name
  | not pos operand ih =>
    intro haccepts hnames hint
    exact simulates_not (ih (Scope.accepts_not.mp haccepts).1 hnames)
  | binary pos op lhs rhs ihl ihr =>
    intro haccepts hnames hint
    obtain ⟨hl, hr, -⟩ := Scope.accepts_binary.mp haccepts
    rw [Expr.typeNames, List.mem_append, not_or] at hnames
    exact simulates_binary (ihl hl hnames.1) (ihr hr hnames.2) h.labels
  | index pos base idx ihb ihi =>
    intro haccepts hnames hint
    obtain ⟨hb, hi, -⟩ := Scope.accepts_index.mp haccepts
    rw [Expr.typeNames, List.mem_append, not_or] at hnames
    exact simulates_index (ihb hb hnames.1) (ihi hi hnames.2)
  | array pos elements ih =>
    intro haccepts hnames hint
    have helements := (Scope.accepts_array.mp haccepts).1
    rw [Expr.typeNames, Expr.not_mem_typeNamesAll] at hnames
    refine simulates_packArray ?_
    rw [Activation.evalEach_eq_map]
    exact Scope.forall₂_lowerEach fun e he ↦ ih e he (helements e he) (hnames e he)
  | newArray pos elem size ih =>
    intro haccepts hnames hint
    rw [Expr.typeNames, List.mem_cons, not_or] at hnames
    exact simulates_newArray (ih (Scope.accepts_newArray.mp haccepts).1 hnames.2)
  | newObject pos className =>
    intro haccepts hnames hint
    have hcreate : M.Simulates store (Lower.construct className) _ := simulates_construct className
    rw [h.oracle] at hcreate
    exact hcreate
  | length pos base ih =>
    intro haccepts hnames hint
    exact simulates_length (ih (Scope.accepts_length.mp haccepts).1 hnames)
  | call pos method args ih =>
    intro haccepts hnames hint
    have hargs := (Scope.accepts_call.mp haccepts).1
    rw [Expr.typeNames, Expr.not_mem_typeNamesAll] at hnames
    exact simulates_lowerCallValue h (simulates_ownDispatch h method) (fun _ hsig ↦ hsig)
      (fun e he ↦ ih e he (hargs e he) (hnames e he)) hint
  | callOn pos receiver method args ihr iha =>
    intro haccepts hnames hint
    obtain ⟨hreceiver, hargs, -⟩ := Scope.accepts_callOn.mp haccepts
    rw [Expr.typeNames, List.mem_append, not_or, Expr.not_mem_typeNamesAll] at hnames
    exact simulates_lowerCallValue h
      (simulates_dispatch h haccepts hnames.1 (ihr hreceiver hnames.1))
      (fun _ hsig ↦ Scope.method?_of_callee? hsig)
      (fun e he ↦ iha e he (hargs e he) (hnames.2 e he)) hint

end

end Machine

end Tricode
