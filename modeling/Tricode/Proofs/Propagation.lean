import Tricode.Proofs.Folding

/-!
# Propagation is done after one pass

The second pass starts from the same knowledge as the first and meets other expressions: some of
their reads are literals by now, and the values of local variables are folded. It has to gather
the same knowledge nevertheless, at every point, or else it might know a value that the first pass
did not.

This is an induction on statements with two facts beside each other: a statement from which all
known reads are gone is left alone, and what is known after it is what was known after the
original. An assignment is where knowledge comes from. Its value no longer reads anything that is
known and is folded already, so both passes learn the same literal or none. A loop forgets what its
body assigns, and propagation changes no target.
-/

namespace Tricode

/-! ## Expressions -/

namespace Expr

variable {k : Known} {e : Expr}

theorem knownReadsAll_eq_zero {es : List Expr} :
    knownReadsAll k es = 0 ↔ ∀ e ∈ es, e.knownReads k = 0 := by
  induction es with
  | nil => exact ⟨fun _ e he ↦ absurd he List.not_mem_nil, fun _ ↦ rfl⟩
  | cons e es ih => rw [knownReadsAll, Nat.add_eq_zero_iff, ih, List.forall_mem_cons]

/-- No read is left of a variable whose value is known. -/
theorem knownReads_substitute (k : Known) (e : Expr) : (e.substitute k).knownReads k = 0 := by
  have hall : ∀ {es : List Expr}, (∀ e ∈ es, (e.substitute k).knownReads k = 0) →
      knownReadsAll k (substituteAll k es) = 0 := by
    intro es ih
    rw [substituteAll_eq_map, knownReadsAll_eq_zero, List.forall_mem_map]
    exact ih
  induction e using Expr.memberInduct with
  | lit | this | newObject => rfl
  | var pos name =>
    rw [substitute]
    split
    · rfl
    · rename_i hget
      rw [knownReads, hget]
      rfl
  | not pos operand ih => exact ih
  | binary pos op lhs rhs ihl ihr => exact Nat.add_eq_zero_iff.mpr ⟨ihl, ihr⟩
  | index pos base idx ihb ihi => exact Nat.add_eq_zero_iff.mpr ⟨ihb, ihi⟩
  | array pos elements ih => exact hall ih
  | newArray pos elem size ih => exact ih
  | length pos base ih => exact ih
  | call pos method args ih => exact hall ih
  | callOn pos receiver method args ihr iha => exact Nat.add_eq_zero_iff.mpr ⟨ihr, hall iha⟩

theorem substitute_of_knownReads : e.knownReads k = 0 → e.substitute k = e := by
  have hall : ∀ {es : List Expr}, (∀ e ∈ es, e.knownReads k = 0 → e.substitute k = e) →
      knownReadsAll k es = 0 → substituteAll k es = es := by
    intro es ih h
    rw [knownReadsAll_eq_zero] at h
    rw [substituteAll_eq_map, List.map_congr_left fun e he ↦ ih e he (h e he), List.map_id']
  induction e using Expr.memberInduct with
  | lit | this | newObject => exact fun _ ↦ rfl
  | var pos name =>
    intro h
    have hget : k.get? name = none := by simpa [knownReads] using h
    rw [substitute, hget]
  | not pos operand ih =>
    intro h
    rw [substitute, ih h]
  | binary pos op lhs rhs ihl ihr =>
    intro h
    obtain ⟨hl, hr⟩ := Nat.add_eq_zero_iff.mp h
    rw [substitute, ihl hl, ihr hr]
  | index pos base idx ihb ihi =>
    intro h
    obtain ⟨hb, hi⟩ := Nat.add_eq_zero_iff.mp h
    rw [substitute, ihb hb, ihi hi]
  | array pos elements ih =>
    intro h
    rw [substitute, hall ih h]
  | newArray pos elem size ih =>
    intro h
    rw [substitute, ih h]
  | length pos base ih =>
    intro h
    rw [substitute, ih h]
  | call pos method args ih =>
    intro h
    rw [substitute, hall ih h]
  | callOn pos receiver method args ihr iha =>
    intro h
    obtain ⟨hr, ha⟩ := Nat.add_eq_zero_iff.mp h
    rw [substitute, ihr hr, hall iha ha]

/-- Folding only drops reads. -/
theorem knownReads_fold : e.knownReads k = 0 → e.fold.knownReads k = 0 := by
  have hall : ∀ {es : List Expr}, (∀ e ∈ es, e.knownReads k = 0 → e.fold.knownReads k = 0) →
      knownReadsAll k es = 0 → knownReadsAll k (foldAll es) = 0 := by
    intro es ih h
    rw [knownReadsAll_eq_zero] at h
    rw [foldAll_eq_map, knownReadsAll_eq_zero, List.forall_mem_map]
    exact fun e he ↦ ih e he (h e he)
  induction e using Expr.memberInduct with
  | lit | this | var | newObject => exact id
  | not pos operand ih =>
    intro h
    rw [fold, foldedNot]
    split
    · rfl
    · exact ih h
  | binary pos op lhs rhs ihl ihr =>
    intro h
    obtain ⟨hl, hr⟩ := Nat.add_eq_zero_iff.mp h
    rw [fold, foldedBinary]
    split
    · rfl
    · exact Nat.add_eq_zero_iff.mpr ⟨ihl hl, ihr hr⟩
  | index pos base idx ihb ihi =>
    intro h
    obtain ⟨hb, hi⟩ := Nat.add_eq_zero_iff.mp h
    exact Nat.add_eq_zero_iff.mpr ⟨ihb hb, ihi hi⟩
  | array pos elements ih => exact hall ih
  | newArray pos elem size ih => exact ih
  | length pos base ih => exact ih
  | call pos method args ih => exact hall ih
  | callOn pos receiver method args ihr iha =>
    intro h
    obtain ⟨hr, ha⟩ := Nat.add_eq_zero_iff.mp h
    exact Nat.add_eq_zero_iff.mpr ⟨ihr hr, hall iha ha⟩

@[simp] theorem substitute_substitute (k : Known) (e : Expr) :
    (e.substitute k).substitute k = e.substitute k :=
  substitute_of_knownReads (e.knownReads_substitute k)

/-- The value that a local variable is given, as propagation leaves it behind. -/
theorem knownReads_substitute_fold (k : Known) (e : Expr) :
    (e.substitute k).fold.knownReads k = 0 :=
  knownReads_fold (e.knownReads_substitute k)

@[simp] theorem substitute_substitute_fold (k : Known) (e : Expr) :
    (e.substitute k).fold.substitute k = (e.substitute k).fold :=
  substitute_of_knownReads (e.knownReads_substitute_fold k)

end Expr

/-! ## Statements -/

namespace Stmt

variable {locals : List String}

theorem assignedAll_propagateAll_of {stmts : List Stmt}
    (h : ∀ stmt ∈ stmts, ∀ k, (stmt.propagate locals k).assigned = stmt.assigned) :
    ∀ k, assignedAll (propagateAll locals k stmts) = assignedAll stmts := by
  induction stmts with
  | nil => exact fun _ ↦ rfl
  | cons stmt stmts ih =>
    intro k
    obtain ⟨hhead, htail⟩ := List.forall_mem_cons.mp h
    rw [propagateAll, assignedAll, assignedAll, hhead, ih htail]

theorem assigned_propagate (stmt : Stmt) :
    ∀ k, (stmt.propagate locals k).assigned = stmt.assigned := by
  induction stmt using Stmt.memberInduct with
  | block pos stmts ih => exact assignedAll_propagateAll_of ih
  | ifElse pos cond thenBranch elseBranch ihThen ihElse =>
    intro k
    rw [propagate, assigned, assigned, ihThen, ihElse]
  | whileLoop pos cond body ihBody => exact fun k ↦ ihBody _
  | assign pos target value =>
    intro k
    rw [propagate]
    split <;> rfl
  | eval | store | ret => exact fun _ ↦ rfl

/-- From `k` on, propagation finds nothing to replace in the statements and knows `k'` after
them. -/
structure SettledAll (locals : List String) (k : Known) (stmts : List Stmt) (k' : Known) :
    Prop where
  after : afterAll locals k stmts = k'
  propagate : propagateAll locals k stmts = stmts
  knownReads : knownReadsAll locals k stmts = 0

/-- From `k` on, propagation finds nothing to replace in the statement and knows `k'` after it. -/
structure Settled (locals : List String) (k : Known) (stmt : Stmt) (k' : Known) : Prop where
  after : stmt.after locals k = k'
  propagate : stmt.propagate locals k = stmt
  knownReads : stmt.knownReads locals k = 0

theorem settledAll_propagateAll_of {stmts : List Stmt}
    (h : ∀ stmt ∈ stmts, ∀ k, (stmt.propagate locals k).Settled locals k (stmt.after locals k)) :
    ∀ k, SettledAll locals k (propagateAll locals k stmts) (afterAll locals k stmts) := by
  induction stmts with
  | nil => exact fun _ ↦ ⟨rfl, rfl, rfl⟩
  | cons stmt stmts ih =>
    intro k
    obtain ⟨hhead, htail⟩ := List.forall_mem_cons.mp h
    have hfirst := hhead k
    -- The rest is gone over with what was known after the statement in the first pass.
    have hrest := ih htail (stmt.after locals k)
    refine ⟨?_, ?_, ?_⟩
    · rw [propagateAll, afterAll, afterAll, hfirst.after, hrest.after]
    · rw [propagateAll, propagateAll, hfirst.propagate, hfirst.after, hrest.propagate]
    · rw [propagateAll, knownReadsAll, hfirst.knownReads, hfirst.after, hrest.knownReads]

/-- An assignment to a local variable, after the first pass. -/
theorem settled_assign {pos : Position} {target : String} (value : Expr) (k : Known) :
    ((assign pos target value).propagate locals k).Settled locals k
      ((assign pos target value).after locals k) := by
  rw [propagate]
  split
  · rename_i hlocal
    refine ⟨?_, ?_, value.knownReads_substitute_fold k⟩
    · rw [after, after, if_pos hlocal, if_pos hlocal, Expr.substitute_substitute_fold,
        Expr.fold_fold]
    · rw [propagate, if_pos hlocal, Expr.substitute_substitute_fold, Expr.fold_fold]
  · rename_i hlocal
    refine ⟨?_, ?_, value.knownReads_substitute k⟩
    · rw [after, after, if_neg hlocal, if_neg hlocal]
    · rw [propagate, if_neg hlocal, Expr.substitute_substitute]

/-- What propagation makes of a statement is settled, and the same is known after it. -/
theorem settled_propagate (stmt : Stmt) :
    ∀ k, (stmt.propagate locals k).Settled locals k (stmt.after locals k) := by
  induction stmt using Stmt.memberInduct with
  | block pos stmts ih =>
    intro k
    obtain ⟨hafter, hpropagate, hreads⟩ := settledAll_propagateAll_of ih k
    exact ⟨hafter, congrArg (block pos) hpropagate, hreads⟩
  | ifElse pos cond thenBranch elseBranch ihThen ihElse =>
    intro k
    have hthen := ihThen k
    have helse := ihElse k
    refine ⟨?_, ?_, ?_⟩
    · rw [propagate, after, after, hthen.after, helse.after]
    · rw [propagate, propagate, Expr.substitute_substitute, hthen.propagate, helse.propagate]
    · rw [propagate, knownReads, cond.knownReads_substitute, hthen.knownReads, helse.knownReads]
  | whileLoop pos cond body ihBody =>
    intro k
    -- What the body assigns stays the same, so a second pass forgets no more than the first.
    have hbody := ihBody (k.forget body.assigned)
    refine ⟨?_, ?_, ?_⟩
    · rw [propagate, after, after, assigned_propagate]
    · rw [propagate, propagate, assigned_propagate, Expr.substitute_substitute, hbody.propagate]
    · rw [propagate, knownReads, assigned_propagate, cond.knownReads_substitute, hbody.knownReads]
  | eval pos expr =>
    intro k
    exact ⟨rfl, by rw [propagate, propagate, Expr.substitute_substitute],
      expr.knownReads_substitute k⟩
  | assign pos target value => exact settled_assign value
  | store pos target index value =>
    intro k
    refine ⟨rfl, ?_, ?_⟩
    · rw [propagate, propagate, Expr.substitute_substitute, Expr.substitute_substitute]
    · rw [propagate, knownReads, index.knownReads_substitute, value.knownReads_substitute]
  | ret pos value =>
    intro k
    cases value with
    | none => exact ⟨rfl, rfl, rfl⟩
    | some value =>
      refine ⟨rfl, ?_, value.knownReads_substitute k⟩
      rw [propagate, propagate, Option.map_some, Option.map_some, Expr.substitute_substitute]

theorem settledAll_propagateAll (k : Known) (stmts : List Stmt) :
    SettledAll locals k (propagateAll locals k stmts) (afterAll locals k stmts) :=
  settledAll_propagateAll_of (fun stmt _ ↦ settled_propagate stmt) k

end Stmt

/-! ## Programs -/

namespace Program

/-- A second pass of propagation replaces no reads and changes nothing. -/
theorem propagate_propagate (p : Program) :
    p.propagate.propagate = p.propagate ∧ p.propagate.knownReads = 0 := by
  constructor
  · refine mapBodies_eq_self.mpr (List.forall_mem_map.mpr fun m _ ↦ ?_)
    exact (Stmt.settledAll_propagateAll .none m.body).propagate
  · refine (foldr_add_eq_zero _ _).mpr (List.forall_mem_map.mpr fun m _ ↦ ?_)
    exact (Stmt.settledAll_propagateAll .none m.body).knownReads

end Program

end Tricode
