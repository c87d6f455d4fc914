import Mathlib.Data.List.Nodup
import Tricode.Proofs.Assembly

/-!
# Numbered labels

Lowering numbers the labels it makes from counters that only grow. So every label of a piece of
code has a number that was drawn while that piece was lowered, and every number drawn for labels
is that of one structure, which places its labels and no others. In particular no label marks two
places. This is what makes a jump land where lowering meant it to.

The parts of an expression or statement are lowered one after another, but the labels of its own
are drawn at one point and placed around the code of its parts. `Numbered.around` is the rule for
this, and it takes care of every control structure.
-/

namespace Tricode

/-! ## Counters -/

namespace Counters

instance : LE Counters :=
  ⟨fun c c' ↦ c.temps ≤ c'.temps ∧ c.ifs ≤ c'.ifs ∧ c.whiles ≤ c'.whiles ∧ c.conds ≤ c'.conds⟩

theorem le_def {c c' : Counters} :
    c ≤ c' ↔ c.temps ≤ c'.temps ∧ c.ifs ≤ c'.ifs ∧ c.whiles ≤ c'.whiles ∧ c.conds ≤ c'.conds :=
  Iff.rfl

theorem le_refl (c : Counters) : c ≤ c :=
  ⟨Nat.le_refl _, Nat.le_refl _, Nat.le_refl _, Nat.le_refl _⟩

theorem le_trans {c₁ c₂ c₃ : Counters} (h : c₁ ≤ c₂) (h' : c₂ ≤ c₃) : c₁ ≤ c₃ :=
  ⟨Nat.le_trans h.1 h'.1, Nat.le_trans h.2.1 h'.2.1, Nat.le_trans h.2.2.1 h'.2.2.1,
    Nat.le_trans h.2.2.2 h'.2.2.2⟩

end Counters

/-- The number that a label with this mark is given next. -/
def Mark.next (c : Counters) : Mark → Nat
  | ifBody | endIf => c.ifs
  | loop | whileBody | endWhile => c.whiles
  | cmpTrue | cmpEnd | andRhs | andEnd | orTrue | orEnd => c.conds

theorem Mark.next_mono {c c' : Counters} (h : c ≤ c') (mark : Mark) :
    mark.next c ≤ mark.next c' := by
  obtain ⟨-, hifs, hwhiles, hconds⟩ := h
  cases mark <;> assumption

/-- The number of the label was drawn between two states of the counters. -/
def Label.Drawn (c c' : Counters) : Label → Prop
  | numbered mark n => mark.next c ≤ n ∧ n < mark.next c'
  | named _ => False

theorem Label.Drawn.mono {c₁ c c' c₂ : Counters} {l : Label} (h : l.Drawn c c') (hle : c₁ ≤ c)
    (hle' : c' ≤ c₂) : l.Drawn c₁ c₂ := by
  cases l with
  | named text => exact h
  | numbered mark n =>
    exact ⟨Nat.le_trans (mark.next_mono hle) h.1, Nat.lt_of_lt_of_le h.2 (mark.next_mono hle')⟩

/-! ## Families of labels -/

/-- The control structures whose labels are numbered from one counter. -/
inductive Family where
  | ifs | whiles | conds
  deriving DecidableEq

namespace Family

/-- The number that a structure of the family is given next. -/
def next (c : Counters) : Family → Nat
  | ifs => c.ifs
  | whiles => c.whiles
  | conds => c.conds

/-- The labels that the structure with number `n` places, in order. Comparisons and the two logical
operators are numbered together, so there it has to be one of three kinds. -/
def groups (n : Nat) : Family → List (List Label)
  | ifs => [[.numbered .ifBody n, .numbered .endIf n]]
  | whiles => [[.numbered .loop n, .numbered .whileBody n, .numbered .endWhile n]]
  | conds =>
    [[.numbered .cmpTrue n, .numbered .cmpEnd n],
      [.numbered .andRhs n, .numbered .andEnd n],
      [.numbered .orTrue n, .numbered .orEnd n]]

end Family

/-- The family whose numbers labels of this kind carry. -/
def Mark.family : Mark → Family
  | ifBody | endIf => .ifs
  | loop | whileBody | endWhile => .whiles
  | cmpTrue | cmpEnd | andRhs | andEnd | orTrue | orEnd => .conds

/-- The label belongs to the structure with number `n` of the family. -/
def Label.isOf (family : Family) (n : Nat) : Label → Bool
  | numbered mark k => mark.family == family && k == n
  | named _ => false

section

variable {family : Family} {n : Nat} {ls : List Label}

theorem Label.drawn_iff_of_isOf {c c' : Counters} {l : Label} (h : l.isOf family n = true) :
    l.Drawn c c' ↔ family.next c ≤ n ∧ n < family.next c' := by
  cases l with
  | named text => cases h
  | numbered mark k =>
    rw [isOf, Bool.and_eq_true, beq_iff_eq, beq_iff_eq] at h
    obtain ⟨rfl, rfl⟩ := h
    cases mark <;> exact Iff.rfl

theorem Family.isOf_of_mem_groups (h : ls ∈ family.groups n) :
    ∀ l ∈ ls, l.isOf family n = true := by
  cases family <;> simp only [groups, List.mem_cons, List.not_mem_nil, or_false] at h <;>
    rcases h with rfl | rfl | rfl <;> simp [Label.isOf, Mark.family]

theorem Family.nodup_of_mem_groups (h : ls ∈ family.groups n) : ls.Nodup := by
  cases family <;> simp only [groups, List.mem_cons, List.not_mem_nil, or_false] at h <;>
    rcases h with rfl | rfl | rfl <;> simp

end

/-- The labels a piece of code defines, in order. -/
def Code.labels (code : Code) : List Label := code.filterMap Instruction.label?

namespace Code

@[simp, grind =] theorem labels_nil : labels [] = [] := rfl

@[simp, grind =] theorem labels_append (a b : Code) : labels (a ++ b) = labels a ++ labels b :=
  List.filterMap_append

@[simp, grind =] theorem labels_label (l : Label) (code : Code) :
    labels (.label l :: code) = l :: labels code := rfl

@[simp, grind =] theorem labels_goto (l : Label) (code : Code) :
    labels (.goto l :: code) = labels code := rfl

@[simp, grind =] theorem labels_branch (cond : Cond) (l : Label) (code : Code) :
    labels (.branch cond l :: code) = labels code := rfl

end Code

/-! ## Labels drawn in one stretch -/

/-- All labels were drawn while the counters went from `c` to `c'`, and each structure that was
given a number meanwhile has placed its labels. -/
structure Numbered (c c' : Counters) (labels : List Label) : Prop where
  le : c ≤ c'
  drawn : ∀ l ∈ labels, l.Drawn c c'
  placed : ∀ (family : Family) (n : Nat), family.next c ≤ n → n < family.next c' →
    labels.filter (Label.isOf family n) ∈ family.groups n

namespace Numbered

variable {c c₁ c' : Counters} {ls pre mid post : List Label}

theorem nil (h : c ≤ c') (hnext : ∀ family : Family, family.next c' = family.next c) :
    Numbered c c' [] := by
  refine ⟨h, fun _ hl ↦ absurd hl List.not_mem_nil, fun family n hn hn' ↦ ?_⟩
  rw [hnext] at hn'
  exact absurd hn (Nat.not_le.mpr hn')

/-- The labels of one structure of the family, whose number is all that was drawn. -/
theorem single (family : Family) (h : c ≤ c')
    (hnext : ∀ f : Family, f.next c' = f.next c + if f = family then 1 else 0)
    (hls : ls ∈ family.groups (family.next c)) : Numbered c c' ls := by
  have hof := Family.isOf_of_mem_groups hls
  refine ⟨h, fun l hl ↦ ?_, fun f n hn hn' ↦ ?_⟩
  · rw [Label.drawn_iff_of_isOf (hof l hl), hnext, if_pos rfl]
    omega
  · rw [hnext] at hn'
    split at hn'
    · rename_i heq
      obtain rfl : n = f.next c := by omega
      rwa [heq, List.filter_eq_self.mpr hof]
    · omega

/-- A condition draws the number of its result as well. -/
theorem ofCond (hls : ls ∈ Family.conds.groups c.conds) :
    Numbered c { c with temps := c.temps + 1, conds := c.conds + 1 } ls :=
  .single .conds (by simp [Counters.le_def]) (fun f ↦ by cases f <;> rfl) hls

/-- A structure whose number was not drawn has no label among these. -/
theorem filter_eq_nil (h : Numbered c c' ls) {family : Family} {n : Nat}
    (hn : n < family.next c ∨ family.next c' ≤ n) : ls.filter (Label.isOf family n) = [] := by
  rw [List.filter_eq_nil_iff]
  intro l hl hof
  have hdrawn := (Label.drawn_iff_of_isOf hof).mp (h.drawn l hl)
  omega

/-- Labels drawn first may enclose labels drawn later. -/
theorem around (h : Numbered c c₁ (pre ++ post)) (h' : Numbered c₁ c' mid) :
    Numbered c c' (pre ++ mid ++ post) := by
  refine ⟨Counters.le_trans h.le h'.le, fun l hl ↦ ?_, fun family n hn hn' ↦ ?_⟩
  · have hor : l ∈ pre ++ post ∨ l ∈ mid := by grind
    rcases hor with hl | hl
    · exact (h.drawn l hl).mono (Counters.le_refl c) h'.le
    · exact (h'.drawn l hl).mono h.le (Counters.le_refl c')
  · rw [List.filter_append, List.filter_append]
    rcases Nat.lt_or_ge n (family.next c₁) with hlt | hge
    · rw [h'.filter_eq_nil (.inl hlt), List.append_nil, ← List.filter_append]
      exact h.placed family n hn hlt
    · have hnone := h.filter_eq_nil (.inr hge)
      rw [List.filter_append, List.append_eq_nil_iff] at hnone
      rw [hnone.1, hnone.2, List.nil_append, List.append_nil]
      exact h'.placed family n hge hn'

theorem append (h : Numbered c c₁ pre) (h' : Numbered c₁ c' post) :
    Numbered c c' (pre ++ post) := by
  rw [← List.append_nil (pre ++ post)]
  exact around (by rwa [List.append_nil]) h'

/-- Only temporaries were drawn after the labels. -/
theorem widen (h : Numbered c c₁ ls) (hle : c₁ ≤ c')
    (hnext : ∀ family : Family, family.next c' = family.next c₁) : Numbered c c' ls := by
  rw [← List.append_nil ls]
  exact h.append (.nil hle hnext)

/-- No label marks two places: it could do so only within the structure it belongs to. -/
theorem nodup (h : Numbered c c' ls) : ls.Nodup := by
  rw [List.nodup_iff_count_eq_one]
  intro l hl
  cases l with
  | named text => exact (h.drawn _ hl).elim
  | numbered mark n =>
    have hof : (Label.numbered mark n).isOf mark.family n = true := by simp [Label.isOf]
    obtain ⟨hn, hn'⟩ := (Label.drawn_iff_of_isOf hof).mp (h.drawn _ hl)
    have hgroup := Family.nodup_of_mem_groups (h.placed mark.family n hn hn')
    rw [← List.count_filter hof]
    exact List.count_eq_one_of_mem hgroup (List.mem_filter.mpr ⟨hl, hof⟩)

/-- An instruction that is no label may follow. -/
theorem snoc {code : Code} {instruction : Instruction} (h : Numbered c c' code.labels)
    (hlabel : instruction.label? = none) :
    Numbered c c' (Code.labels (code ++ [instruction])) := by
  have hlast : Code.labels [instruction] = [] := by simp [Code.labels, hlabel]
  rwa [Code.labels_append, hlast, List.append_nil]

end Numbered

/-! ## Assembled code -/

/-- The labels of assembled code are those that were drawn for it. -/
theorem Assembled.numbered {c c' : Counters} {os : List Operand} {code : Code}
    (h : Assembled c os code c') : Numbered c c' code.labels := by
  induction h with
  | nil c => exact .nil (Counters.le_refl c) fun _ ↦ rfl
  | append _ _ iha ihb =>
    rw [Code.labels_append]
    exact iha.append ihb
  | keep _ _ ih => exact ih
  | emit instruction _ hplain _ ih => exact ih.snoc (Instruction.isPlain_iff.mp hplain).1
  | intoTemp value ty _ ih =>
    exact (ih.widen (by simp [Counters.le_def]) fun family ↦ by cases family <;> rfl).snoc rfl
  | @comparison c c' code cond _ ih =>
    have hown : Numbered c' { c' with temps := c'.temps + 1, conds := c'.conds + 1 }
        [.numbered .cmpTrue c'.conds, .numbered .cmpEnd c'.conds] :=
      .ofCond (by simp [Family.groups])
    rw [Code.labels_append]
    exact ih.append hown
  | @and c c₁ c' left right leftCode rightCode _ _ ihl ihr =>
    have hown : Numbered c₁ { c₁ with temps := c₁.temps + 1, conds := c₁.conds + 1 }
        ([.numbered .andRhs c₁.conds] ++ [.numbered .andEnd c₁.conds]) :=
      .ofCond (by simp [Family.groups])
    rw [List.append_assoc, List.append_assoc, Code.labels_append, ← List.append_assoc,
      Code.labels_append, Code.labels_append]
    exact ihl.append (hown.around ihr)
  | @or c c₁ c' left right leftCode rightCode _ _ ihl ihr =>
    have hown : Numbered c₁ { c₁ with temps := c₁.temps + 1, conds := c₁.conds + 1 }
        ([] ++ [.numbered .orTrue c₁.conds, .numbered .orEnd c₁.conds]) :=
      .ofCond (by simp [Family.groups])
    rw [List.append_assoc, List.append_assoc, Code.labels_append, ← List.append_assoc,
      Code.labels_append, Code.labels_append]
    exact ihl.append (hown.around ihr)
  | @ifElse c c₁ c₂ c' cond condCode elseCode thenCode _ _ _ ihCond ihElse ihThen =>
    have hown : Numbered c { c with ifs := c.ifs + 1 }
        ([] ++ [.numbered .ifBody c.ifs, .numbered .endIf c.ifs]) :=
      .single .ifs (by simp [Counters.le_def]) (fun f ↦ by cases f <;> rfl)
        (by simp [Family.groups, Family.next])
    -- Both labels enclose the code of the branch that is placed second.
    have hbefore : Numbered c c₂ ((condCode.labels ++ elseCode.labels ++
        [.numbered .ifBody c.ifs]) ++ [.numbered .endIf c.ifs]) := by
      simpa using hown.around (ihCond.append ihElse)
    simpa using hbefore.around ihThen
  | @whileLoop c c₁ c' cond condCode bodyCode _ _ ihCond ihBody =>
    have hown : Numbered c { c with whiles := c.whiles + 1 }
        ([.numbered .loop c.whiles] ++
          [.numbered .whileBody c.whiles, .numbered .endWhile c.whiles]) :=
      .single .whiles (by simp [Counters.le_def]) (fun f ↦ by cases f <;> rfl)
        (by simp [Family.groups, Family.next])
    have hbefore : Numbered c c₁ (([.numbered .loop c.whiles] ++ condCode.labels ++
        [.numbered .whileBody c.whiles]) ++ [.numbered .endWhile c.whiles]) := by
      simpa using hown.around ihCond
    simpa using hbefore.around ihBody

/-- No label marks two places of a body. -/
theorem Scope.nodup_labels_lowerStmts {s : Scope} {c c' : Counters} {stmts : List Stmt}
    {code : Code} (hy : (s.lowerStmts stmts).Yields c code c') : code.labels.Nodup :=
  (assembled_lowerStmts hy).numbered.nodup

end Tricode
