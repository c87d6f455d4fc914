import Tricode.Proofs.Machine
import Tricode.Proofs.Numbering

/-!
# Code that carries out an action

The meaning of an expression is an action on the world, and its code is a stretch of a method
body. `Machine.Carries` says that the machine, started at some place, does what the action does: it
comes to another place with the world the action leaves, or it halts with the trap of the action.

There is a rule for each way in which actions are put together and one for each instruction. What
expressions are lowered to is shown to carry them out by these rules alone.

## Temporaries

A value that waits in a temporary while other code runs must not be overwritten. Later code
writes only temporaries with numbers that were drawn later, so it is enough that temporaries below
some number stay as they are: `Temps.Agree`.
-/

namespace Tricode

/-! ## Places -/

/-- A label that marks no two places marks the place where it is found. -/
theorem Code.find?_of_getElem? {code : Code} (h : code.labels.Nodup) {i : Nat} {l : Label}
    (hi : code[i]? = some (.label l)) : code.find? l = some i := by
  induction code generalizing i with
  | nil => simp at hi
  | cons instruction code ih =>
    rw [Code.find?, List.findIdx?_cons]
    cases i with
    | zero =>
      rw [List.getElem?_cons_zero, Option.some.injEq] at hi
      rw [hi, beq_self_eq_true, if_pos rfl]
    | succ i =>
      rw [List.getElem?_cons_succ] at hi
      have hmem : l ∈ Code.labels code :=
        List.mem_filterMap.mpr ⟨_, List.mem_of_getElem? hi, rfl⟩
      -- The label marks a later place, so it does not mark the first one.
      have hne : (instruction == Instruction.label l) = false := by
        rw [beq_eq_false_iff_ne]
        rintro rfl
        exact (List.nodup_cons.mp h).1 hmem
      have htail : (Code.labels code).Nodup :=
        h.sublist ((List.sublist_cons_self instruction code).filterMap _)
      rw [hne, if_neg Bool.false_ne_true]
      exact congrArg (Option.map (· + 1)) (ih htail hi)

namespace Machine

/-- A piece of code stands in the body, from place `i` on. -/
def HasAt (M : Machine) : Nat → Code → Prop
  | _, [] => True
  | i, instruction :: code => M.method.body[i]? = some instruction ∧ M.HasAt (i + 1) code

variable {M : Machine} {store : Store} {i pc : Nat} {temps : Temps} {w : World} {α β : Type}

theorem hasAt_append {a b : Code} :
    M.HasAt i (a ++ b) ↔ M.HasAt i a ∧ M.HasAt (i + a.length) b := by
  induction a generalizing i with
  | nil => simp [HasAt]
  | cons instruction a ih =>
    rw [List.cons_append, HasAt, HasAt, ih, and_assoc, List.length_cons, Nat.add_right_comm,
      Nat.add_assoc]

theorem add_length_snoc (i : Nat) (code : Code) (instruction : Instruction) :
    i + (code ++ [instruction]).length = i + code.length + 1 := by
  rw [List.length_append, List.length_singleton, Nat.add_assoc]

theorem hasAt_of_append_eq {pre code post : Code} (h : M.method.body = pre ++ code ++ post) :
    M.HasAt pre.length code := by
  induction code generalizing pre with
  | nil => trivial
  | cons instruction code ih =>
    refine ⟨by rw [h]; simp, ?_⟩
    have hbody : M.method.body = (pre ++ [instruction]) ++ code ++ post := by rw [h]; simp
    have hnext := ih hbody
    rwa [List.length_append] at hnext

end Machine

/-! ## Temporaries -/

namespace Temps

/-- The temporaries below `n` hold the same values. -/
def Agree (n : Nat) (temps temps' : Temps) : Prop := ∀ k, k < n → temps' k = temps k

variable {n k : Nat} {temps temps' temps'' : Temps}

theorem Agree.refl (n : Nat) (temps : Temps) : Agree n temps temps := fun _ _ ↦ rfl

theorem Agree.trans (h : Agree n temps temps') (h' : Agree n temps' temps'') :
    Agree n temps temps'' := fun k hk ↦ (h' k hk).trans (h k hk)

theorem Agree.mono (h : Agree n temps temps') (hk : k ≤ n) : Agree k temps temps' :=
  fun j hj ↦ h j (Nat.lt_of_lt_of_le hj hk)

theorem agree_set (temps : Temps) (value : Value) (h : n ≤ k) : Agree n temps (temps.set k value) :=
  fun _ hj ↦ if_neg (Nat.ne_of_lt (Nat.lt_of_lt_of_le hj h))

@[simp] theorem set_self (temps : Temps) (n : Nat) (value : Value) :
    temps.set n value n = value := if_pos rfl

end Temps

namespace Machine

variable {M : Machine} {store : Store} {i pc : Nat} {temps : Temps} {w : World} {α β : Type}

/-- The operand reads as `value`, and does so while the temporaries below `n` stay. -/
def Holds (M : Machine) (store : Store) (n : Nat) (temps : Temps) (operand : Operand)
    (value : Value) : Prop :=
  ∀ temps', Temps.Agree n temps temps' → M.read store temps' operand = value

theorem Holds.read {n : Nat} {operand : Operand} {value : Value}
    (h : M.Holds store n temps operand value) : M.read store temps operand = value :=
  h temps (.refl n temps)

theorem Holds.later {n n' : Nat} {temps' : Temps} {operand : Operand} {value : Value}
    (h : M.Holds store n temps operand value) (hle : n ≤ n')
    (hagree : Temps.Agree n temps temps') : M.Holds store n' temps' operand value :=
  fun temps'' h' ↦ h temps'' (hagree.trans (h'.mono hle))

/-- A temporary that was just written holds what was written. -/
theorem holds_set {n n' : Nat} (ty : Ty) (value : Value) (h : n < n') :
    M.Holds store n' (temps.set n value) (.temp n ty) value := by
  intro temps' hagree
  rw [Machine.read, hagree n h, Temps.set_self]

/-! ## Actions on the world -/

/-- From place `pc` the machine does what `ev` does, and then `post` holds of the result, the place
and the temporaries. -/
def Carries (M : Machine) (store : Store) (pc : Nat) (temps : Temps) (w : World) (ev : Eval α)
    (post : α → Nat → Temps → Prop) : Prop :=
  match ev.runFrom w with
  | (.ok a, w') =>
    ∃ pc' temps', M.Reaches ⟨pc, temps, store, w⟩ ⟨pc', temps', store, w'⟩ ∧ post a pc' temps'
  | (.error trap, w') => M.Halts ⟨pc, temps, store, w⟩ (.trapped trap) ⟨store, w'⟩

variable {ev : Eval α} {post : α → Nat → Temps → Prop}

theorem Carries.pure {a : α} (h : post a pc temps) : M.Carries store pc temps w (pure a) post :=
  ⟨pc, temps, .refl _, h⟩

/-- What the machine does first does not matter, as long as it leaves the state alone. -/
theorem Carries.of_reaches {pc' : Nat} {temps' : Temps}
    (h : M.Reaches ⟨pc, temps, store, w⟩ ⟨pc', temps', store, w⟩)
    (h' : M.Carries store pc' temps' w ev post) : M.Carries store pc temps w ev post := by
  unfold Carries at h' ⊢
  split at h'
  · obtain ⟨pc'', temps'', hreaches, hpost⟩ := h'
    exact ⟨pc'', temps'', h.trans hreaches, hpost⟩
  · exact h.halts h'

theorem Carries.bind {f : α → Eval β} {post' : β → Nat → Temps → Prop}
    (h : M.Carries store pc temps w ev post)
    (h' : ∀ a pc' temps' w', post a pc' temps' → M.Carries store pc' temps' w' (f a) post') :
    M.Carries store pc temps w (ev >>= f) post' := by
  unfold Carries at h ⊢
  rw [Action.runFrom_bind]
  rcases hev : ev.runFrom w with ⟨trap | a, w'⟩
  · rw [hev] at h
    exact h
  · rw [hev] at h
    obtain ⟨pc', temps', hreaches, hpost⟩ := h
    have hrest := h' a pc' temps' w' hpost
    unfold Carries at hrest
    dsimp only
    rcases hf : (f a).runFrom w' with ⟨trap | b, w''⟩
    · rw [hf] at hrest
      exact hreaches.halts hrest
    · rw [hf] at hrest
      obtain ⟨pc'', temps'', hreaches', hpost'⟩ := hrest
      exact ⟨pc'', temps'', hreaches.trans hreaches', hpost'⟩

theorem Carries.mono {post' : α → Nat → Temps → Prop} (h : M.Carries store pc temps w ev post)
    (h' : ∀ a pc' temps', post a pc' temps' → post' a pc' temps') :
    M.Carries store pc temps w ev post' := by
  rw [← bind_pure ev]
  exact h.bind fun a pc' temps' _ hpost ↦ .pure (h' a pc' temps' hpost)

/-! ### Instructions -/

theorem step_of_getElem? {instruction : Instruction}
    (h : M.method.body[pc]? = some instruction) (temps : Temps) (st : State) :
    M.step ⟨pc, temps, st⟩ = M.execute ⟨pc, temps, st⟩ instruction := by
  rw [step, h]

/-- An instruction that performs one action and goes on. -/
theorem carries_perform (next : α → Nat × Temps)
    (h : M.step ⟨pc, temps, store, w⟩ =
      perform ⟨pc, temps, store, w⟩ ev fun a w' ↦ .next ⟨(next a).1, (next a).2, store, w'⟩)
    (hpost : ∀ a, post a (next a).1 (next a).2) : M.Carries store pc temps w ev post := by
  unfold Carries
  unfold perform at h
  rcases hev : ev.runFrom w with ⟨trap | a, w'⟩
  · rw [hev] at h
    exact halts_of_step h
  · rw [hev] at h
    exact ⟨(next a).1, (next a).2, reaches_of_step h, hpost a⟩

theorem carries_assign_temp {n : Nat} {ty ty' : Ty} {value : Rvalue} {ev : Eval Value}
    (h : M.method.body[pc]? = some (.assign (.temp n ty) ty' value))
    (hev : M.rvalue store temps value = ev) :
    M.Carries store pc temps w ev fun v pc' temps' ↦ pc' = pc + 1 ∧ temps' = temps.set n v := by
  subst hev
  have hstep := step_of_getElem? h temps ⟨store, w⟩
  exact carries_perform (fun v ↦ (pc + 1, temps.set n v)) hstep fun _ ↦ ⟨rfl, rfl⟩

theorem carries_assign_element {array index : Operand} {ty ty' : Ty} {value : Operand}
    {ev : Eval Unit}
    (h : M.method.body[pc]? = some (.assign (.element array index ty) ty' (.use value)))
    (hev : Eval.update (M.read store temps array) (M.read store temps index)
      (M.read store temps value) = ev) :
    M.Carries store pc temps w ev fun _ pc' temps' ↦ pc' = pc + 1 ∧ temps' = temps := by
  subst hev
  have hstep := step_of_getElem? h temps ⟨store, w⟩
  exact carries_perform (fun _ ↦ (pc + 1, temps)) hstep fun _ ↦ ⟨rfl, rfl⟩

theorem carries_call {call : Call} {ev : Eval Value}
    (h : M.method.body[pc]? = some (.call call)) (hev : M.call store temps call = ev) :
    M.Carries store pc temps w ev fun _ pc' temps' ↦ pc' = pc + 1 ∧ temps' = temps := by
  subst hev
  have hstep := step_of_getElem? h temps ⟨store, w⟩
  exact carries_perform (fun _ ↦ (pc + 1, temps)) hstep fun _ ↦ ⟨rfl, rfl⟩

theorem reaches_label {l : Label} (h : M.method.body[pc]? = some (.label l)) (st : State) :
    M.Reaches ⟨pc, temps, st⟩ ⟨pc + 1, temps, st⟩ :=
  reaches_of_step (by rw [step_of_getElem? h]; rfl)

theorem reaches_setBool {n : Nat} {value : Operand}
    (h : M.method.body[pc]? = some (Lower.setBool n value)) :
    M.Reaches ⟨pc, temps, store, w⟩
      ⟨pc + 1, temps.set n (M.read store temps value), store, w⟩ :=
  reaches_of_step (by rw [step_of_getElem? h]; rfl)

section Jumps

variable (hlabels : M.method.body.labels.Nodup) {target : Label} {j : Nat}
include hlabels

theorem jump_eq (hj : M.method.body[j]? = some (.label target)) (m : Config) (w : World) :
    M.jump m target w = .next ⟨j, m.temps, m.state.store, w⟩ := by
  rw [jump, Code.find?_of_getElem? hlabels hj]

theorem reaches_goto (h : M.method.body[pc]? = some (.goto target))
    (hj : M.method.body[j]? = some (.label target)) (st : State) :
    M.Reaches ⟨pc, temps, st⟩ ⟨j, temps, st⟩ :=
  reaches_of_step (by rw [step_of_getElem? h]; exact jump_eq hlabels hj _ _)

theorem carries_branch {cond : Cond} {ev : Eval Bool}
    (h : M.method.body[pc]? = some (.branch cond target))
    (hj : M.method.body[j]? = some (.label target)) (hev : M.condition store temps cond = ev) :
    M.Carries store pc temps w ev fun taken pc' temps' ↦
      pc' = (if taken then j else pc + 1) ∧ temps' = temps := by
  subst hev
  have hstep : M.step ⟨pc, temps, store, w⟩ =
      perform ⟨pc, temps, store, w⟩ (M.condition store temps cond) fun taken w' ↦
        .next ⟨if taken then j else pc + 1, temps, store, w'⟩ := by
    rw [step_of_getElem? h, execute]
    refine congrArg (perform _ _) (funext fun taken ↦ funext fun w' ↦ ?_)
    cases taken with
    | true => exact jump_eq hlabels hj _ _
    | false => rfl
  exact carries_perform (fun taken ↦ (if taken then j else pc + 1, temps)) hstep
    fun _ ↦ ⟨rfl, rfl⟩

end Jumps

end Machine

end Tricode
