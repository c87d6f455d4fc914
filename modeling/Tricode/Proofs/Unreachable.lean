import Tricode.Proofs.AcceptedFaults
import Tricode.Proofs.ControlFlow
import Tricode.Proofs.Reporting

/-!
# Code behind a return

Checking warns where a list of statements goes on after a return. This file shows that the warning
is sound: whatever stands behind a return in its list is lowered to code that no path through the
body comes to, with all loops and branches in it.

## Where the code of a statement stands

The same statement may occur twice in a body, so a statement is named by the way to it: a list of
turns from the body down to it. `Scope.lowerBefore` gives the code that lowering puts down on that
way, before it comes to the statement, so that the code of the statement is the stretch right after
it.

## Why control cannot get there

What stands around the code of a statement jumps only to labels that stand around it as well. This
holds at every turn, hence at the end of every way, and a return is not passed. So control that is
outside the code behind a return stays outside.
-/

namespace Tricode

/-! ## Ways into a statement -/

/-- One step from a statement down to a part of it. -/
inductive Turn where
  /-- To a statement of a block, counted from zero. -/
  | item (n : Nat)
  | thenBranch
  | elseBranch
  | loopBody
  deriving DecidableEq, Repr

namespace Stmt

/-- The part that a turn leads to. Not every statement has it. -/
def part? : Stmt → Turn → Option Stmt
  | block _ stmts, .item n => stmts[n]?
  | ifElse _ _ thenBranch _, .thenBranch => some thenBranch
  | ifElse _ _ _ elseBranch, .elseBranch => some elseBranch
  | whileLoop _ _ body, .loopBody => some body
  | _, _ => none

/-- The statement that the turns lead to. -/
def at? : Stmt → List Turn → Option Stmt
  | stmt, [] => some stmt
  | stmt, turn :: turns => (stmt.part? turn).bind fun part ↦ part.at? turns

theorem at?_append (stmt : Stmt) (turns turns' : List Turn) :
    stmt.at? (turns ++ turns') = (stmt.at? turns).bind fun inner ↦ inner.at? turns' := by
  induction turns generalizing stmt with
  | nil => rfl
  | cons turn turns ih =>
    rw [List.cons_append, at?, at?, Option.bind_assoc]
    exact congrArg _ (funext ih)

end Stmt

/-! ## Code on the way -/

namespace Scope

/-- The code that lowering the statement puts down before it comes to the part. The else branch is
placed first. -/
def lowerUpTo (s : Scope) : Stmt → Turn → Lower Code
  | .block _ stmts, .item n => s.lowerStmts (stmts.take n)
  | .ifElse _ cond _ _, .elseBranch => do
    let n ← freshIf
    let (cond, condCode) ← s.lowerCond cond
    pure (condCode ++ [.branch cond (.numbered .ifBody n)])
  | .ifElse _ cond _ elseBranch, .thenBranch => do
    let n ← freshIf
    let (cond, condCode) ← s.lowerCond cond
    let elseCode ← s.lowerStmt elseBranch
    pure (condCode ++
      [.branch cond (.numbered .ifBody n)] ++
      elseCode ++
      [.goto (.numbered .endIf n),
        .label (.numbered .ifBody n)])
  | .whileLoop _ cond _, .loopBody => do
    let n ← freshWhile
    let (cond, condCode) ← s.lowerCond cond
    pure ([.label (.numbered .loop n)] ++
      condCode ++
      [.branch cond (.numbered .whileBody n),
        .goto (.numbered .endWhile n),
        .label (.numbered .whileBody n)])
  | _, _ => pure []

/-- The code that is put down before that of the statement the turns lead to. -/
def lowerBefore (s : Scope) : Stmt → List Turn → Lower Code
  | _, [] => pure []
  | stmt, turn :: turns => do
    let first ← s.lowerUpTo stmt turn
    let rest ← ((stmt.part? turn).elim (pure []) fun part ↦ s.lowerBefore part turns)
    pure (first ++ rest)

end Scope

/-! ## Surroundings -/

namespace Code

/-- What stands around a piece of code jumps only to labels that stand around it. -/
def Frames (before after : Code) : Prop := (before ++ after).targets ⊆ (before ++ after).labels

variable {before before' after after' : Code}

theorem frames_of_subset (hbefore : before.targets ⊆ before.labels)
    (hafter : after.targets ⊆ after.labels) : Frames before after := by
  rw [Frames, targets_append, labels_append]
  exact List.append_subset.mpr ⟨List.subset_append_of_subset_left _ hbefore,
    List.subset_append_of_subset_right _ hafter⟩

/-- Code that does not jump may follow. -/
theorem Frames.append_right {tail : Code} (h : Frames before after) (htail : tail.targets = []) :
    Frames before (after ++ tail) := by
  intro l
  have houter := @h l
  grind

/-- A frame inside a frame: the two together stand around what the inner one stands around. -/
theorem Frames.nest (h : Frames before after) (h' : Frames before' after') :
    Frames (before ++ before') (after' ++ after) := by
  intro l
  have houter := @h l
  have hinner := @h' l
  grind

section

variable {cond : Cond} {n : Nat} {condCode elseCode thenCode : Code}

theorem frames_elseBranch (hcond : condCode.targets ⊆ condCode.labels)
    (hthen : thenCode.targets ⊆ thenCode.labels) :
    Frames (condCode ++ [.branch cond (.numbered .ifBody n)])
      ([.goto (.numbered .endIf n), .label (.numbered .ifBody n)] ++ thenCode ++
        [.label (.numbered .endIf n)]) := by
  intro l
  have hcond := @hcond l
  have hthen := @hthen l
  grind

theorem frames_thenBranch (hcond : condCode.targets ⊆ condCode.labels)
    (helse : elseCode.targets ⊆ elseCode.labels) :
    Frames (condCode ++ [.branch cond (.numbered .ifBody n)] ++ elseCode ++
        [.goto (.numbered .endIf n), .label (.numbered .ifBody n)])
      [.label (.numbered .endIf n)] := by
  intro l
  have hcond := @hcond l
  have helse := @helse l
  grind

theorem frames_loopBody (hcond : condCode.targets ⊆ condCode.labels) :
    Frames ([.label (.numbered .loop n)] ++ condCode ++
        [.branch cond (.numbered .whileBody n), .goto (.numbered .endWhile n),
          .label (.numbered .whileBody n)])
      [.goto (.numbered .loop n), .label (.numbered .endWhile n)] := by
  intro l
  have hcond := @hcond l
  grind

end

variable {init dead : Code} {i j : Nat} {instruction : Instruction}

theorem mem_outside (h : (init ++ dead ++ after)[i]? = some instruction)
    (hi : i < init.length ∨ init.length + dead.length ≤ i) : instruction ∈ init ++ after := by
  rcases hi with hlt | hge
  · rw [List.append_assoc, List.getElem?_append_left hlt] at h
    exact List.mem_append_left _ (List.mem_of_getElem? h)
  · rw [List.getElem?_append_right (by rwa [List.length_append])] at h
    exact List.mem_append_right _ (List.mem_of_getElem? h)

theorem mem_inside (h : (init ++ dead ++ after)[i]? = some instruction) (hge : init.length ≤ i)
    (hlt : i < init.length + dead.length) : instruction ∈ dead := by
  rw [List.append_assoc, List.getElem?_append_right hge, List.getElem?_append_left (by omega)] at h
  exact List.mem_of_getElem? h

/-- A stretch of code that control does not enter from outside: a return stands before it, and what
stands around it jumps around it. -/
structure Sealed (init dead after : Code) : Prop where
  endsInReturn : init.endsInReturn = true
  frames : Frames init after
  nodup : (init ++ dead ++ after).labels.Nodup
  /-- Jumps go by the text of labels. -/
  eq_of_text_eq : ∀ {l l' : Label}, l ∈ (init ++ dead ++ after).targets →
    l' ∈ (init ++ dead ++ after).labels → l'.text = l.text → l' = l

namespace Sealed

theorem label_notMem (h : Sealed init dead after) {l : Label} (hl : l ∈ (init ++ after).labels) :
    l ∉ dead.labels := by
  have hnodup := h.nodup
  rw [labels_append, labels_append, List.nodup_append, List.nodup_append] at hnodup
  obtain ⟨⟨-, -, hinit⟩, -, hafter⟩ := hnodup
  intro hdead
  rw [labels_append] at hl
  rcases List.mem_append.mp hl with hl | hl
  · exact hinit l hl l hdead rfl
  · exact hafter l (List.mem_append_right _ hdead) l hl rfl

/-- One step keeps control outside. -/
theorem flow (h : Sealed init dead after) (hflow : (init ++ dead ++ after).Flow i j)
    (hi : i < init.length ∨ init.length + dead.length ≤ i) :
    j < init.length ∨ init.length + dead.length ≤ j := by
  cases hflow with
  | @next instruction hat hfalls =>
    obtain ⟨front, value, ty, hinit⟩ := endsInReturn_iff.mp h.endsInReturn
    have hlength : init.length = front.length + 1 := by simp [hinit]
    -- From outside the next place is inside only behind the last instruction of `init`.
    have hlast : i ≠ front.length := by
      rintro rfl
      have hret : (init ++ dead ++ after)[front.length]? = some (.ret value ty) := by simp [hinit]
      rw [hret, Option.some.injEq] at hat
      subst hat
      cases hfalls
    omega
  | @jump instruction l l' _ hat htarget hlabel htext =>
    -- The target is placed around the stretch, and no label marks a second place inside it.
    by_contra hinside
    have hsource : instruction ∈ init ++ after := mem_outside hat hi
    have hdead : .label l' ∈ dead := mem_inside hlabel (by omega) (by omega)
    have heq : l' = l := h.eq_of_text_eq
      (List.mem_filterMap.mpr ⟨instruction, List.mem_of_getElem? hat, htarget⟩)
      (List.mem_filterMap.mpr ⟨.label l', List.mem_of_getElem? hlabel, rfl⟩) htext
    have hplaced : l ∈ (init ++ after).labels :=
      h.frames (List.mem_filterMap.mpr ⟨instruction, hsource, htarget⟩)
    exact h.label_notMem hplaced (heq ▸ List.mem_filterMap.mpr ⟨.label l', hdead, rfl⟩)

/-- No path comes to a place inside. -/
theorem path (h : Sealed init dead after) {places : List Nat} {k : Nat}
    (hpath : (init ++ dead ++ after).Path places k) :
    k < init.length ∨ init.length + dead.length ≤ k := by
  induction hpath with
  | start =>
    obtain ⟨front, value, ty, hinit⟩ := endsInReturn_iff.mp h.endsInReturn
    simp [hinit]
  | step _ hflow ih => exact h.flow hflow ih

end Sealed

/-- The return that a body may be given does not jump. -/
theorem exists_closed_eq (code : Code) :
    ∃ tail, code.closed = code ++ tail ∧ tail.targets = [] := by
  rw [closed_eq]
  split
  · exact ⟨[], (List.append_nil code).symm, rfl⟩
  · exact ⟨[.ret none .void], rfl, rfl⟩

theorem endsInReturn_append_left {code : Code} (h : code.endsInReturn = true) (front : Code) :
    (front ++ code).endsInReturn = true := by
  obtain ⟨init, value, ty, rfl⟩ := endsInReturn_iff.mp h
  rw [← List.append_assoc]
  exact endsInReturn_snoc _ _

end Code

/-- In a body, what a return and jumps around it close off is sealed. -/
theorem Assembled.exists_sealed {c c' : Counters} {os : List Operand} {init dead after : Code}
    (h : Assembled c os (init ++ dead ++ after) c') (hend : init.endsInReturn = true)
    (hframes : Code.Frames init after) :
    ∃ rest, Code.closed (init ++ dead ++ after) = init ++ dead ++ rest ∧
      Code.Sealed init dead rest := by
  obtain ⟨tail, hclosed, htargets⟩ := Code.exists_closed_eq (init ++ dead ++ after)
  have hbody : Code.closed (init ++ dead ++ after) = init ++ dead ++ (after ++ tail) := by
    rw [hclosed, List.append_assoc]
  refine ⟨after ++ tail, hbody, hend, hframes.append_right htargets, ?_, ?_⟩
  · rw [← hbody, Code.labels_closed]
    exact h.numbered.nodup
  · rw [← hbody]
    exact h.eq_of_text_eq_closed

/-! ## The code of a part -/

namespace Scope

variable {s : Scope} {c c' : Counters} {code : Code}

theorem yields_lowerStmts_append {stmts stmts' : List Stmt}
    (h : (s.lowerStmts (stmts ++ stmts')).Yields c code c') :
    ∃ first c₁ rest, (s.lowerStmts stmts).Yields c first c₁ ∧
      (s.lowerStmts stmts').Yields c₁ rest c' ∧ code = first ++ rest := by
  induction stmts generalizing c code with
  | nil => exact ⟨[], c, code, Lower.yields_pure.mpr ⟨rfl, rfl⟩, h, rfl⟩
  | cons stmt stmts ih =>
    obtain ⟨head, c₁, rest, hhead, hrest, rfl⟩ := yields_lowerStmts_cons h
    obtain ⟨tail, c₂, last, htail, hlast, rfl⟩ := ih hrest
    have hfirst : (s.lowerStmts (stmt :: stmts)).Yields c (head ++ tail) c₂ := by
      simp only [lowerStmts, Lower.yields_bind, Lower.yields_pure]
      exact ⟨head, c₁, hhead, tail, c₂, htail, rfl, rfl⟩
    exact ⟨head ++ tail, c₂, last, hfirst, hlast, (List.append_assoc _ _ _).symm⟩

/-- The code of a list of statements, cut before and after one of them. -/
theorem yields_lowerStmts_getElem {stmts : List Stmt} {stmt : Stmt} {n : Nat}
    (hn : stmts[n]? = some stmt) (h : (s.lowerStmts stmts).Yields c code c') :
    ∃ before c₁ part c₂ after, (s.lowerStmts (stmts.take n)).Yields c before c₁ ∧
      (s.lowerStmt stmt).Yields c₁ part c₂ ∧
      (s.lowerStmts (stmts.drop (n + 1))).Yields c₂ after c' ∧
      code = before ++ part ++ after := by
  obtain ⟨hlt, hget⟩ := List.getElem?_eq_some_iff.mp hn
  have hsplit : stmts.take n ++ stmt :: stmts.drop (n + 1) = stmts := by
    rw [← hget, List.getElem_cons_drop, List.take_append_drop]
  rw [← hsplit] at h
  obtain ⟨before, c₁, rest, hbefore, hrest, rfl⟩ := yields_lowerStmts_append h
  obtain ⟨part, c₂, after, hpart, hafter, rfl⟩ := yields_lowerStmts_cons hrest
  exact ⟨before, c₁, part, c₂, after, hbefore, hpart, hafter, (List.append_assoc _ _ _).symm⟩

/-- The code holds that of `inner`, right behind what `way` puts down, and what stands around it
jumps only around it. -/
def Holds (s : Scope) (way : Lower Code) (inner : Stmt) (c : Counters) (code : Code) : Prop :=
  ∃ before c₁ part c₂ after, way.Yields c before c₁ ∧ (s.lowerStmt inner).Yields c₁ part c₂ ∧
    code = before ++ part ++ after ∧ Code.Frames before after

section

variable {pos : Position} {cond : Expr} {thenBranch elseBranch body : Stmt}

theorem holds_item {stmts : List Stmt} {inner : Stmt} {n : Nat} (hn : stmts[n]? = some inner)
    (hy : (s.lowerStmts stmts).Yields c code c') :
    s.Holds (s.lowerUpTo (.block pos stmts) (.item n)) inner c code := by
  obtain ⟨before, c₁, part, c₂, after, hbefore, hpart, hafter, rfl⟩ :=
    yields_lowerStmts_getElem hn hy
  exact ⟨before, c₁, part, c₂, after, hbefore, hpart, rfl,
    Code.frames_of_subset (assembled_lowerStmts hbefore).targets_subset
      (assembled_lowerStmts hafter).targets_subset⟩

theorem holds_thenBranch
    (hy : (s.lowerStmt (.ifElse pos cond thenBranch elseBranch)).Yields c code c') :
    s.Holds (s.lowerUpTo (.ifElse pos cond thenBranch elseBranch) .thenBranch) thenBranch c
      code := by
  obtain ⟨jump, condCode, c₁, elseCode, c₂, thenCode, hcond, helse, hthen, rfl⟩ :=
    yields_lowerIf hy
  refine ⟨_, c₂, thenCode, c', _, ?_, hthen, rfl,
    Code.frames_thenBranch (assembled_lowerCond hcond).targets_subset
      (assembled_lowerStmt helse).targets_subset⟩
  simp only [lowerUpTo, Lower.yields_bind, Lower.yields_freshIf, Prod.exists, Lower.yields_pure]
  exact ⟨_, _, ⟨rfl, rfl⟩, jump, condCode, c₁, hcond, elseCode, c₂, helse, rfl, rfl⟩

theorem holds_elseBranch
    (hy : (s.lowerStmt (.ifElse pos cond thenBranch elseBranch)).Yields c code c') :
    s.Holds (s.lowerUpTo (.ifElse pos cond thenBranch elseBranch) .elseBranch) elseBranch c
      code := by
  obtain ⟨jump, condCode, c₁, elseCode, c₂, thenCode, hcond, helse, hthen, rfl⟩ :=
    yields_lowerIf hy
  have hframes : Code.Frames (condCode ++ [.branch jump (.numbered .ifBody c.ifs)])
      ([.goto (.numbered .endIf c.ifs), .label (.numbered .ifBody c.ifs)] ++ thenCode ++
        [.label (.numbered .endIf c.ifs)]) :=
    Code.frames_elseBranch (assembled_lowerCond hcond).targets_subset
      (assembled_lowerStmt hthen).targets_subset
  refine ⟨_, c₁, elseCode, c₂, _, ?_, helse, by simp only [List.append_assoc], hframes⟩
  simp only [lowerUpTo, Lower.yields_bind, Lower.yields_freshIf, Prod.exists, Lower.yields_pure]
  exact ⟨_, _, ⟨rfl, rfl⟩, jump, condCode, c₁, hcond, rfl, rfl⟩

theorem holds_loopBody (hy : (s.lowerStmt (.whileLoop pos cond body)).Yields c code c') :
    s.Holds (s.lowerUpTo (.whileLoop pos cond body) .loopBody) body c code := by
  obtain ⟨jump, condCode, c₁, bodyCode, hcond, hbody, rfl⟩ := yields_lowerWhile hy
  refine ⟨_, c₁, bodyCode, c', _, ?_, hbody, rfl,
    Code.frames_loopBody (assembled_lowerCond hcond).targets_subset⟩
  simp only [lowerUpTo, Lower.yields_bind, Lower.yields_freshWhile, Prod.exists, Lower.yields_pure]
  exact ⟨_, _, ⟨rfl, rfl⟩, jump, condCode, c₁, hcond, rfl, rfl⟩

end

/-- The code of a statement holds that of each of its parts. -/
theorem holds_part {stmt inner : Stmt} {turn : Turn} (hpart : stmt.part? turn = some inner)
    (hy : (s.lowerStmt stmt).Yields c code c') : s.Holds (s.lowerUpTo stmt turn) inner c code := by
  unfold Stmt.part? at hpart
  split at hpart
  · exact holds_item hpart hy
  · obtain rfl := Option.some.inj hpart
    exact holds_thenBranch hy
  · obtain rfl := Option.some.inj hpart
    exact holds_elseBranch hy
  · obtain rfl := Option.some.inj hpart
    exact holds_loopBody hy
  · cases hpart

theorem yields_lowerBefore_cons {stmt inner : Stmt} {turn : Turn} {turns : List Turn}
    {first rest : Code} {c₁ c₂ : Counters} (hpart : stmt.part? turn = some inner)
    (hfirst : (s.lowerUpTo stmt turn).Yields c first c₁)
    (hrest : (s.lowerBefore inner turns).Yields c₁ rest c₂) :
    (s.lowerBefore stmt (turn :: turns)).Yields c (first ++ rest) c₂ := by
  simp only [lowerBefore, hpart, Option.elim_some, Lower.yields_bind, Lower.yields_pure]
  exact ⟨first, c₁, hfirst, rest, c₂, hrest, rfl, rfl⟩

theorem yields_lowerBefore_append {stmt inner : Stmt} {turns turns' : List Turn}
    {before rest : Code} {c₁ c₂ : Counters} (hat : stmt.at? turns = some inner)
    (hbefore : (s.lowerBefore stmt turns).Yields c before c₁)
    (hrest : (s.lowerBefore inner turns').Yields c₁ rest c₂) :
    (s.lowerBefore stmt (turns ++ turns')).Yields c (before ++ rest) c₂ := by
  induction turns generalizing stmt c before with
  | nil =>
    obtain rfl := Option.some.inj hat
    obtain ⟨rfl, rfl⟩ := Lower.yields_pure.mp hbefore
    exact hrest
  | cons turn turns ih =>
    obtain ⟨next, hnext, hat⟩ := Option.bind_eq_some_iff.mp hat
    simp only [lowerBefore, hnext, Option.elim_some, Lower.yields_bind, Lower.yields_pure]
      at hbefore
    obtain ⟨first, c₃, hfirst, more, c₄, hmore, rfl, rfl⟩ := hbefore
    rw [List.append_assoc]
    exact yields_lowerBefore_cons hnext hfirst (ih hat hmore)

/-- The code of a statement holds that of the statement at the end of each way into it. -/
theorem holds_at {stmt inner : Stmt} {turns : List Turn} (hat : stmt.at? turns = some inner)
    (hy : (s.lowerStmt stmt).Yields c code c') :
    s.Holds (s.lowerBefore stmt turns) inner c code := by
  induction turns generalizing stmt c c' code with
  | nil =>
    obtain rfl := Option.some.inj hat
    exact ⟨[], c, code, c', [], Lower.yields_pure.mpr ⟨rfl, rfl⟩, hy, (List.append_nil code).symm,
      List.nil_subset _⟩
  | cons turn turns ih =>
    obtain ⟨next, hnext, hat⟩ := Option.bind_eq_some_iff.mp hat
    obtain ⟨first, c₁, nextCode, c₂, last, hfirst, hcode, rfl, houter⟩ := holds_part hnext hy
    obtain ⟨before, c₃, part, c₄, after, hbefore, hpart, rfl, hinner⟩ := ih hat hcode
    exact ⟨first ++ before, c₃, part, c₄, after ++ last,
      yields_lowerBefore_cons hnext hfirst hbefore, hpart, by simp only [List.append_assoc],
      houter.nest hinner⟩

/-! ## Behind a return -/

theorem endsInReturn_lowerReturn {value : Option Expr}
    (hy : (s.lowerReturn value).Yields c code c') : code.endsInReturn = true := by
  cases value with
  | none =>
    obtain ⟨rfl, rfl⟩ := Lower.yields_pure.mp hy
    rfl
  | some value =>
    obtain ⟨v, -, rfl⟩ := yields_lowerReturn_some hy
    exact Code.endsInReturn_snoc _ _

/-- The code up to and with a return ends in a return. -/
theorem endsInReturn_lowerStmts {stmts : List Stmt} {i : Nat} {pos : Position}
    {value : Option Expr} (hi : stmts[i]? = some (.ret pos value))
    (hy : (s.lowerStmts (stmts.take (i + 1))).Yields c code c') : code.endsInReturn = true := by
  rw [List.take_add_one, hi] at hy
  obtain ⟨first, c₁, rest, -, hrest, rfl⟩ := yields_lowerStmts_append hy
  obtain ⟨last, c₂, none, hlast, hnone, rfl⟩ := yields_lowerStmts_cons hrest
  obtain ⟨rfl, rfl⟩ := Lower.yields_pure.mp hnone
  rw [List.append_nil]
  exact Code.endsInReturn_append_left (endsInReturn_lowerReturn hlast) first

/-- The code of the statement that the turns lead to is a stretch of `body`, which is that of `stmt`
lowered from `c`, and no path through the body comes to a place in that stretch. -/
def NeverRuns (s : Scope) (stmt : Stmt) (c : Counters) (body : Code) (turns : List Turn) : Prop :=
  ∃ inner before c₁ part c₂ after, stmt.at? turns = some inner ∧
    (s.lowerBefore stmt turns).Yields c before c₁ ∧ (s.lowerStmt inner).Yields c₁ part c₂ ∧
    body = before ++ part ++ after ∧
    ∀ (places : List Nat) (k : Nat), body.Path places k →
      ¬(before.length ≤ k ∧ k < before.length + part.length)

/-- In the code of a list, the statements up to a return seal off each one behind it. -/
theorem yields_behind_return {stmts : List Stmt} {stmt : Stmt} {i j : Nat} {pos : Position}
    {value : Option Expr} (hi : stmts[i]? = some (.ret pos value)) (hij : i < j)
    (hj : stmts[j]? = some stmt) (hy : (s.lowerStmts stmts).Yields c code c') :
    ∃ first mid c₁ part c₂ rest, (s.lowerStmts (stmts.take j)).Yields c (first ++ mid) c₁ ∧
      (s.lowerStmt stmt).Yields c₁ part c₂ ∧ code = first ++ (mid ++ part) ++ rest ∧
      first.endsInReturn = true ∧ Code.Frames first rest := by
  obtain ⟨front, c₁, part, c₂, rest, hfront, hpart, hrest, rfl⟩ := yields_lowerStmts_getElem hj hy
  have hcut : stmts.take (i + 1) ++ (stmts.take j).drop (i + 1) = stmts.take j := by
    have htake : (stmts.take j).take (i + 1) = stmts.take (i + 1) := by
      rw [List.take_take, Nat.min_eq_left hij]
    rw [← htake, List.take_append_drop]
  rw [← hcut] at hfront ⊢
  obtain ⟨first, c₃, mid, hfirst, -, rfl⟩ := yields_lowerStmts_append hfront
  exact ⟨first, mid, c₁, part, c₂, rest, hfront, hpart, by simp only [List.append_assoc],
    endsInReturn_lowerStmts hi hfirst,
    Code.frames_of_subset (assembled_lowerStmts hfirst).targets_subset
      (assembled_lowerStmts hrest).targets_subset⟩

theorem neverRuns_of_return {stmt : Stmt} {turns : List Turn} {pos pos' : Position}
    {stmts : List Stmt} {value : Option Expr} {i j : Nat}
    (hat : stmt.at? turns = some (.block pos stmts)) (hi : stmts[i]? = some (.ret pos' value))
    (hij : i < j) (hj : j < stmts.length) (hy : (s.lowerStmt stmt).Yields c code c') :
    s.NeverRuns stmt c code.closed (turns ++ [.item j]) := by
  obtain ⟨inner, hinner⟩ : ∃ inner, stmts[j]? = some inner := ⟨_, List.getElem?_eq_getElem hj⟩
  have hitem : (Stmt.block pos stmts).part? (.item j) = some inner := hinner
  obtain ⟨before, c₁, blockCode, c₂, after, hbefore, hblock, hcode, hframes⟩ := holds_at hat hy
  obtain ⟨first, mid, c₃, part, c₄, rest, hfront, hpart, rfl, hend, hinnerFrames⟩ :=
    yields_behind_return hi hij hinner hblock
  -- The code of the block is cut behind the return and behind the statement.
  have hcut : code = before ++ first ++ (mid ++ part) ++ (rest ++ after) := by
    simp only [hcode, List.append_assoc]
  have hassembled := assembled_lowerStmt hy
  rw [hcut] at hassembled
  obtain ⟨last, hclosed, hsealed⟩ := hassembled.exists_sealed
    (Code.endsInReturn_append_left hend before) (hframes.nest hinnerFrames)
  rw [hcut, hclosed]
  refine ⟨inner, before ++ (first ++ mid), c₃, part, c₄, last, ?_, ?_, hpart, ?_,
    fun places k hpath ↦ ?_⟩
  · rw [Stmt.at?_append, hat, Option.bind_some, Stmt.at?, hitem]
    rfl
  · have hlast : (s.lowerBefore (.block pos stmts) [.item j]).Yields c₁ (first ++ mid ++ []) c₃ :=
      yields_lowerBefore_cons hitem hfront (Lower.yields_pure.mpr ⟨rfl, rfl⟩)
    rw [List.append_nil] at hlast
    exact yields_lowerBefore_append hat hbefore hlast
  · simp only [List.append_assoc]
  · have houtside := hsealed.path hpath
    simp only [List.length_append] at houtside ⊢
    omega

end Scope

/-! ## Warnings -/

theorem firstUnreachable_eq_some {stmts : List Stmt} {dead : Stmt}
    (h : firstUnreachable stmts = some dead) :
    ∃ i pos value, stmts[i]? = some (.ret pos value) ∧ stmts[i + 1]? = some dead := by
  induction stmts with
  | nil => cases h
  | cons stmt stmts ih =>
    cases stmt with
    | ret pos value => exact ⟨0, pos, value, rfl, h⟩
    | _ =>
      obtain ⟨i, pos, value, hi, hdead⟩ := ih h
      exact ⟨i + 1, pos, value, hi, hdead⟩

/-- A warning is about a statement right behind a return in its list. -/
theorem Stmt.exists_return_of_mem_warnings {stmt : Stmt} {d : Diagnostic} (h : d ∈ stmt.warnings) :
    ∃ turns pos stmts i pos' value dead, stmt.at? turns = some (.block pos stmts) ∧
      stmts[i]? = some (.ret pos' value) ∧ stmts[i + 1]? = some dead ∧
      d = .warning dead.pos .unreachableCode := by
  induction stmt using Stmt.memberInduct with
  | block p stmts ih =>
    rcases List.mem_append.mp h with hown | hinner
    · obtain ⟨dead, hdead, rfl⟩ := List.mem_map.mp hown
      obtain ⟨i, pos', value, hi, hnext⟩ :=
        firstUnreachable_eq_some (Option.mem_toList.mp hdead)
      exact ⟨[], p, stmts, i, pos', value, dead, rfl, hi, hnext, rfl⟩
    · rw [warningsAll_eq_flatMap] at hinner
      obtain ⟨inner, hmem, hd⟩ := List.mem_flatMap.mp hinner
      obtain ⟨n, hn⟩ := List.mem_iff_getElem?.mp hmem
      obtain ⟨turns, pos, stmts', i, pos', value, dead, hat, hrest⟩ := ih inner hmem hd
      have hitem : (block p stmts).part? (.item n) = some inner := hn
      refine ⟨.item n :: turns, pos, stmts', i, pos', value, dead, ?_, hrest⟩
      rw [at?, hitem, Option.bind_some, hat]
  | ifElse p cond thenBranch elseBranch ihThen ihElse =>
    rcases List.mem_append.mp h with hthen | helse
    · obtain ⟨turns, hrest⟩ := ihThen hthen
      exact ⟨.thenBranch :: turns, hrest⟩
    · obtain ⟨turns, hrest⟩ := ihElse helse
      exact ⟨.elseBranch :: turns, hrest⟩
  | whileLoop p cond body ihBody =>
    obtain ⟨turns, hrest⟩ := ihBody h
    exact ⟨.loopBody :: turns, hrest⟩
  | eval | assign | store | ret => cases h

/-! ## Units -/

namespace Program

variable {p : Program} {code : ClassCode}

/-- The statement that the turns lead to from the body of the method with number `n`. -/
def stmtAt? (p : Program) (n : Nat) (turns : List Turn) : Option Stmt :=
  p.decl.methods[n]?.bind fun m ↦ m.block.at? turns

/-- In the code of the unit, no path through the body of the method with number `n` comes to the
code of the statement that the turns lead to. -/
def NeverRuns (p : Program) (code : ClassCode) (n : Nat) (turns : List Turn) : Prop :=
  ∃ m mc c c', p.decl.methods[n]? = some m ∧ code.methods[n]? = some mc ∧
    (p.table.lowerMethod m.signature m.body).Yields c mc c' ∧
    Scope.NeverRuns ⟨p.table, m.signature⟩ m.block c mc.body turns

theorem neverRuns_of_return (hlower : p.lower p.table .default = .ok code) {n : Nat}
    {turns : List Turn} {pos pos' : Position} {stmts : List Stmt} {value : Option Expr} {i j : Nat}
    (hblock : p.stmtAt? n turns = some (.block pos stmts)) (hi : stmts[i]? = some (.ret pos' value))
    (hij : i < j) (hj : j < stmts.length) : p.NeverRuns code n (turns ++ [.item j]) := by
  obtain ⟨m, hm, hat⟩ := Option.bind_eq_some_iff.mp hblock
  obtain ⟨mc, hmc⟩ := exists_methodCode_of_lower hlower hm
  obtain ⟨m', c, c', hm', hyields⟩ := exists_yields_of_lower hlower hmc
  obtain rfl : m = m' := Option.some.inj (hm.symm.trans hm')
  obtain ⟨body, hbody, -, -, hclosed⟩ := Table.yields_lowerMethod hyields
  refine ⟨m, mc, c, c', hm, hmc, hyields, ?_⟩
  rw [hclosed]
  exact Scope.neverRuns_of_return hat hi hij hj hbody

/-- What stands behind a return in its list is never run: no path through the code of its method
comes to an instruction that it is lowered to. In particular this is so for each statement that
checking warns about. -/
theorem behind_return_neverRuns (hlower : p.lower p.table .default = .ok code) :
    (∀ n turns pos stmts i j pos' value, p.stmtAt? n turns = some (.block pos stmts) →
      stmts[i]? = some (.ret pos' value) → i < j → j < stmts.length →
      p.NeverRuns code n (turns ++ [.item j])) ∧
    ∀ pos, Diagnostic.warning pos .unreachableCode ∈ p.check →
      ∃ n turns stmt, p.stmtAt? n turns = some stmt ∧ stmt.pos = pos ∧
        p.NeverRuns code n turns := by
  constructor
  · intro n turns pos stmts i j pos' value hblock hi hij hj
    exact neverRuns_of_return hlower hblock hi hij hj
  · intro pos hwarning
    obtain ⟨m, hm, hd⟩ := List.mem_flatMap.mp (mem_warnings_iff.mpr ⟨hwarning, rfl⟩)
    obtain ⟨n, hn⟩ := List.mem_iff_getElem?.mp hm
    obtain ⟨turns, pos', stmts, i, pos'', value, dead, hat, hi, hdead, heq⟩ :=
      Stmt.exists_return_of_mem_warnings hd
    have hblock : p.stmtAt? n turns = some (.block pos' stmts) := by
      rw [stmtAt?, hn, Option.bind_some, hat]
    have hitem : (Stmt.block pos' stmts).part? (.item (i + 1)) = some dead := hdead
    obtain ⟨hlt, -⟩ := List.getElem?_eq_some_iff.mp hdead
    refine ⟨n, turns ++ [.item (i + 1)], dead, ?_, ?_,
      neverRuns_of_return hlower hblock hi (Nat.lt_succ_self i) hlt⟩
    · rw [stmtAt?, hn, Option.bind_some, Stmt.at?_append, hat, Option.bind_some, Stmt.at?, hitem]
      rfl
    · exact (congrArg Diagnostic.pos heq).symm

/-- A unit with a loop and a branch behind two returns, one of them inside a loop. -/
def lookout : Program where
  imports := []
  decl := {
    name := "Lookout"
    superclass := none
    fields := []
    methods := [{
      name := "watch"
      isPublic := true
      isStatic := false
      returnType := .int
      params := [⟨.int, "n", .origin⟩]
      varargs := none
      locals := [⟨.int, "x", .origin⟩]
      body := [
        .whileLoop ⟨3, 5⟩ (.binary .origin .lt (.var .origin "x") (.var .origin "n"))
          (.block .origin [
            .ifElse ⟨4, 7⟩ (.binary .origin .lt (.var .origin "n") (.lit .origin (.int 10)))
              (.block .origin [
                .ret ⟨5, 9⟩ (some (.var .origin "x")),
                .whileLoop ⟨6, 9⟩ (.binary .origin .lt (.var .origin "x") (.var .origin "n"))
                  (.assign .origin "x"
                    (.binary .origin .add (.var .origin "x") (.lit .origin (.int 1)))),
                .assign ⟨7, 9⟩ "x" (.var .origin "n")])
              (.block .origin [])]),
        .ret ⟨8, 5⟩ (some (.var .origin "n")),
        .ifElse ⟨9, 5⟩ (.binary .origin .lt (.var .origin "n") (.var .origin "x"))
          (.assign .origin "x" (.var .origin "n"))
          (.block .origin [])]
      pos := .origin }]
    pos := .origin }

theorem lookout_behind_return_neverRuns : ∃ code,
    lookout.lower lookout.table .default = .ok code ∧
      lookout.NeverRuns code 0 [.item 0, .loopBody, .item 0, .thenBranch, .item 1] ∧
      lookout.NeverRuns code 0 [.item 0, .loopBody, .item 0, .thenBranch, .item 2] ∧
      Diagnostic.warning ⟨9, 5⟩ .unreachableCode ∈ lookout.check ∧
      ∃ n turns stmt, lookout.stmtAt? n turns = some stmt ∧ stmt.pos = ⟨9, 5⟩ ∧
        lookout.NeverRuns code n turns := by
  obtain ⟨code, hlower⟩ : ∃ code, lookout.lower lookout.table .default = .ok code := ⟨_, rfl⟩
  obtain ⟨hlists, hwarnings⟩ := behind_return_neverRuns hlower
  have hwarning : Diagnostic.warning ⟨9, 5⟩ .unreachableCode ∈ lookout.check :=
    (mem_warnings_iff.mp (by decide)).1
  exact ⟨code, hlower,
    hlists 0 [.item 0, .loopBody, .item 0, .thenBranch] _ _ 0 1 _ _ rfl rfl (by decide) (by decide),
    hlists 0 [.item 0, .loopBody, .item 0, .thenBranch] _ _ 0 2 _ _ rfl rfl (by decide) (by decide),
    hwarning, hwarnings _ hwarning⟩

end Program

end Tricode
