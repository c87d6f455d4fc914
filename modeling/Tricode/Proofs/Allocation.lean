import Tricode.Proofs.Renumbering

/-!
# Every number drawn is used

Lowering draws a number only for what it then emits. A temporary that was drawn is assigned
somewhere in the code, and a structure that was given a number places its labels once. Together
with the bounds on what occurs in the code this is an equality: the numbers in use are just those
between the counters before and after.

That the counters never fall holds of every run, also of one that stops at a fault. There is no
code to look at then, but lowering from the given counters is lowering from zero up to numbers, so
all it can do to the counters is to add to them.
-/

namespace Tricode

/-! ## Assigned temporaries -/

namespace Code

/-- The numbers of the temporaries the code assigns, in order. -/
def assigned (code : Code) : List Nat := code.filterMap fun i ↦ i.written?.map Prod.fst

@[simp, grind =] theorem assigned_nil : assigned [] = [] := rfl

@[simp, grind =] theorem assigned_append (a b : Code) :
    assigned (a ++ b) = assigned a ++ assigned b :=
  List.filterMap_append

@[simp, grind =] theorem assigned_label (l : Label) (code : Code) :
    assigned (.label l :: code) = assigned code := rfl

@[simp, grind =] theorem assigned_goto (l : Label) (code : Code) :
    assigned (.goto l :: code) = assigned code := rfl

@[simp, grind =] theorem assigned_branch (cond : Cond) (l : Label) (code : Code) :
    assigned (.branch cond l :: code) = assigned code := rfl

@[simp, grind =] theorem assigned_temp (id : Nat) (ty ty' : Ty) (value : Rvalue) (code : Code) :
    assigned (.assign (.temp id ty) ty' value :: code) = id :: assigned code := rfl

@[simp, grind =] theorem assigned_setBool (id : Nat) (value : Operand) (code : Code) :
    assigned (Lower.setBool id value :: code) = id :: assigned code := rfl

end Code

/-- Assembled code assigns the temporaries that were drawn for it, and all of them. -/
theorem Assembled.mem_assigned {c c' : Counters} {os : List Operand} {code : Code}
    (h : Assembled c os code c') (id : Nat) :
    id ∈ code.assigned ↔ c.temps ≤ id ∧ id < c'.temps := by
  induction h with
  | nil c => simp
  | append ha hb iha ihb =>
    have hle := ha.numbered.le.1
    have hle' := hb.numbered.le.1
    rw [Code.assigned_append, List.mem_append, iha, ihb]
    omega
  | keep _ _ ih => exact ih
  | emit instruction _ hplain _ ih =>
    have hlast : Code.assigned [instruction] = [] := by
      simp [Code.assigned, (Instruction.isPlain_iff.mp hplain).2.2]
    rwa [Code.assigned_append, hlast, List.append_nil]
  | intoTemp value ty ha ih | comparison ha ih =>
    have hle := ha.numbered.le.1
    grind
  -- The number of the result is drawn between those of the operands.
  | @and c c₁ c' _ _ _ _ ha hb iha ihb | @or c c₁ c' _ _ _ _ ha hb iha ihb =>
    have hle := ha.numbered.le.1
    have hle' : c₁.temps + 1 ≤ c'.temps := hb.numbered.le.1
    grind
  | @ifElse c c₁ c₂ c' _ _ _ _ ha hb hc iha ihb ihc =>
    have hle : c.temps ≤ c₁.temps := ha.numbered.le.1
    have hle' := hb.numbered.le.1
    have hle'' := hc.numbered.le.1
    grind
  | @whileLoop c c₁ c' _ _ _ ha hb iha ihb =>
    have hle : c.temps ≤ c₁.temps := ha.numbered.le.1
    have hle' := hb.numbered.le.1
    grind

/-! ## Labels -/

/-- The labels of one structure among some labels: just its own if its number was drawn for them,
and none otherwise. -/
theorem Numbered.filter_isOf {c c' : Counters} {ls : List Label} (h : Numbered c c' ls)
    (family : Family) (n : Nat) :
    if family.next c ≤ n ∧ n < family.next c' then
      ls.filter (Label.isOf family n) ∈ family.groups n
    else ls.filter (Label.isOf family n) = [] := by
  split
  · rename_i hdrawn
    exact h.placed family n hdrawn.1 hdrawn.2
  · exact h.filter_eq_nil (by omega)

/-! ## Counters -/

/-- A step that depends on the counters only by renumbering never lowers one, even if it stops. -/
theorem Lower.Renumbers.le_runFrom {α : Type} {x : Lower α} {c : Counters} {f : α → α}
    (h : x.Renumbers c f) : c ≤ (x.runFrom c).2 := by
  have hrun : (x.runFrom c).2 = c + (x.runFrom .zero).2 := congrArg Prod.snd (h .zero)
  rw [hrun]
  exact c.le_add_right _

namespace Scope

/-- No counter falls, and the code of a statement uses just what was drawn for it: it assigns the
temporaries between the counters before and after, and places the labels of the structures that
were numbered meanwhile, each once. -/
theorem lowerStmt_uses_drawn (s : Scope) (stmt : Stmt) (c : Counters) :
    c ≤ ((s.lowerStmt stmt).runFrom c).2 ∧
      ∀ {code : Code} {c' : Counters}, (s.lowerStmt stmt).Yields c code c' →
        (∀ id, id ∈ code.assigned ↔ c.temps ≤ id ∧ id < c'.temps) ∧
        ∀ (family : Family) (n : Nat),
          if family.next c ≤ n ∧ n < family.next c' then
            code.labels.filter (Label.isOf family n) ∈ family.groups n
          else code.labels.filter (Label.isOf family n) = [] := by
  refine ⟨(s.renumbers_lowerStmt stmt).le_runFrom, fun hyields ↦ ?_⟩
  have hassembled := assembled_lowerStmt hyields
  exact ⟨hassembled.mem_assigned, hassembled.numbered.filter_isOf⟩

/-- A method that may count up a local variable. -/
def pumpRun : Scope where
  table := ⟨"Pump", none, [], [], []⟩
  method := ⟨"run", .void, [⟨"bound", .int⟩, ⟨"on", .boolean⟩], [⟨"k", .int⟩], false, true, false⟩

theorem pumpRun_uses_drawn :
    let loop : Stmt := .whileLoop .origin
      (.binary .origin .and (.binary .origin .lt (.var .origin "k") (.var .origin "bound"))
        (.var .origin "on"))
      (.ifElse .origin (.var .origin "on")
        (.assign .origin "k" (.binary .origin .add (.var .origin "k") (.lit .origin (.int 1))))
        (.block .origin []))
    ∃ code, (pumpRun.lowerStmt loop).Yields ⟨5, 2, 4, 7⟩ code ⟨8, 3, 5, 9⟩ ∧
      (∀ id, id ∈ code.assigned ↔ 5 ≤ id ∧ id < 8) ∧
      code.labels.filter (Label.isOf .ifs 2) = [.numbered .ifBody 2, .numbered .endIf 2] ∧
      code.labels.filter (Label.isOf .conds 9) = [] := by
  intro loop
  obtain ⟨code, hyields⟩ :
      ∃ code, (pumpRun.lowerStmt loop).Yields ⟨5, 2, 4, 7⟩ code ⟨8, 3, 5, 9⟩ := ⟨_, rfl⟩
  obtain ⟨hassigned, hlabels⟩ := (pumpRun.lowerStmt_uses_drawn loop ⟨5, 2, 4, 7⟩).2 hyields
  exact ⟨code, hyields, hassigned, List.mem_singleton.mp (hlabels .ifs 2), hlabels .conds 9⟩

end Scope

end Tricode
