import Mathlib.Data.Set.Insert
import Tricode.Proofs.ControlFlow

/-!
# Temporaries are written before they are read

Lowering never looks back at the code it has put together, yet on no path through a body is a
temporary read that was not written before. Along a straight line this is plain, since an operand
is made valid by the code before it. What has to be seen is that jumps do no harm.

## The certificate

A *certificate* names for every label some temporaries that are written whenever control comes
there. `Code.Respects` checks it in one sweep over the code: what an instruction reads has been
written, and wherever control may come to a label, so has all that is named for the label. A
certificate that passes is right about every path (`Code.Respects.entry_subset_written`), so it
remains to find one. It comes with the way the code was put together: each control structure knows
what is written where it places its labels.

## Numbers and types

Each number is drawn once and given to one operand with one type. So the numbers that occur in a
piece of code lie between the states of the counter before and after it, and each has one type.
-/

namespace Tricode

/-! ## Occurrences of temporaries -/

/-- The number and the type of a temporary. -/
def Operand.temp? : Operand → Option (Nat × Ty)
  | temp id ty => some (id, ty)
  | _ => none

theorem Operand.temp?_eq_some {o : Operand} {id : Nat} {ty : Ty} :
    o.temp? = some (id, ty) ↔ o = .temp id ty := by
  cases o <;> simp [temp?]

/-- The temporaries among some operands. -/
def Operand.temps (os : List Operand) : List (Nat × Ty) := os.filterMap Operand.temp?

namespace Operand

@[simp, grind =] theorem temps_nil : temps [] = [] := rfl

@[simp, grind =] theorem temps_append (os os' : List Operand) :
    temps (os ++ os') = temps os ++ temps os' := List.filterMap_append

@[simp, grind =] theorem temps_temp (id : Nat) (ty : Ty) : temps [.temp id ty] = [(id, ty)] := rfl

@[simp, grind =] theorem temps_bool (b : Bool) : temps [.bool b] = [] := rfl

theorem mem_temps {os : List Operand} {id : Nat} {ty : Ty} :
    (id, ty) ∈ temps os ↔ .temp id ty ∈ os := by
  simp only [temps, List.mem_filterMap, temp?_eq_some, exists_eq_right]

theorem temps_subset {os os' : List Operand} (h : ∀ o ∈ os', o.isTemp = true → o ∈ os) :
    temps os' ⊆ temps os := by
  rintro ⟨id, ty⟩ hmem
  rw [mem_temps] at hmem ⊢
  exact h _ hmem rfl

end Operand

/-- Every temporary that occurs in the instruction, be it written or read. -/
def Instruction.temps (i : Instruction) : List (Nat × Ty) :=
  i.written?.toList ++ Operand.temps i.operands

namespace Code

/-- Every occurrence of a temporary in the code. -/
def temps (code : Code) : List (Nat × Ty) := code.flatMap Instruction.temps

@[simp, grind =] theorem temps_nil : temps [] = [] := rfl

@[simp, grind =] theorem temps_append (a b : Code) : temps (a ++ b) = temps a ++ temps b :=
  List.flatMap_append

@[simp, grind =] theorem temps_cons (i : Instruction) (code : Code) :
    temps (i :: code) = i.temps ++ temps code := rfl

theorem temps_closed (code : Code) : code.closed.temps = code.temps :=
  gathered_closed temps_append rfl code

end Code

namespace Instruction

@[simp, grind =] theorem temps_goto (l : Label) : (goto l).temps = [] := rfl

@[simp, grind =] theorem temps_label (l : Label) : (label l).temps = [] := rfl

@[simp, grind =] theorem temps_branch (cond : Cond) (l : Label) :
    (branch cond l).temps = Operand.temps cond.operands := rfl

@[simp, grind =] theorem temps_setBool (id : Nat) (o : Operand) :
    (Lower.setBool id o).temps = (id, .boolean) :: Operand.temps [o] := rfl

end Instruction

/-! ## Numbers and types -/

/-- The numbers lie between `n` and `n'`, and each comes with one type. -/
structure DrawnTemps (n n' : Nat) (temps : List (Nat × Ty)) : Prop where
  le : n ≤ n'
  drawn : ∀ p ∈ temps, n ≤ p.1 ∧ p.1 < n'
  unique : ∀ p ∈ temps, ∀ q ∈ temps, p.1 = q.1 → p = q

namespace DrawnTemps

variable {n n₁ n' : Nat} {ts ts' : List (Nat × Ty)}

theorem nil (h : n ≤ n') : DrawnTemps n n' [] :=
  ⟨h, fun _ hp ↦ absurd hp List.not_mem_nil, fun _ hp ↦ absurd hp List.not_mem_nil⟩

theorem single (n : Nat) (ty : Ty) : DrawnTemps n (n + 1) [(n, ty)] := by
  constructor <;> simp

theorem subset (h : DrawnTemps n n' ts) (hsub : ts' ⊆ ts) : DrawnTemps n n' ts' :=
  ⟨h.le, fun p hp ↦ h.drawn p (hsub hp), fun p hp q hq ↦ h.unique p (hsub hp) q (hsub hq)⟩

/-- Numbers drawn later are larger, so two pieces share none. -/
theorem disjoint (h : DrawnTemps n n₁ ts) (h' : DrawnTemps n₁ n' ts') :
    ∀ p ∈ ts, ∀ q ∈ ts', p.1 ≠ q.1 := by
  intro p hp q hq
  have hbefore := (h.drawn p hp).2
  have hafter := (h'.drawn q hq).1
  omega

theorem append (h : DrawnTemps n n₁ ts) (h' : DrawnTemps n₁ n' ts') :
    DrawnTemps n n' (ts ++ ts') := by
  refine ⟨Nat.le_trans h.le h'.le, ?_, ?_⟩
  · intro p hp
    have hle := h.le
    have hle' := h'.le
    rcases List.mem_append.mp hp with hp | hp
    · have hdrawn := h.drawn p hp
      omega
    · have hdrawn := h'.drawn p hp
      omega
  · intro p hp q hq heq
    rcases List.mem_append.mp hp with hp | hp <;> rcases List.mem_append.mp hq with hq | hq
    · exact h.unique p hp q hq heq
    · exact absurd heq (h.disjoint h' p hp q hq)
    · exact absurd heq.symm (h.disjoint h' q hq p hp)
    · exact h'.unique p hp q hq heq

end DrawnTemps

/-- The temporaries of assembled code were drawn for it, and the valid operands are among them. -/
theorem Assembled.drawnTemps {c c' : Counters} {os : List Operand} {code : Code}
    (h : Assembled c os code c') :
    DrawnTemps c.temps c'.temps code.temps ∧ Operand.temps os ⊆ code.temps := by
  induction h with
  | nil c => exact ⟨.nil (Nat.le_refl _), List.nil_subset _⟩
  | append _ _ iha ihb =>
    obtain ⟨ha, hos⟩ := iha
    obtain ⟨hb, hos'⟩ := ihb
    rw [Code.temps_append, Operand.temps_append]
    exact ⟨ha.append hb, List.append_subset.mpr ⟨List.subset_append_of_subset_left _ hos,
      List.subset_append_of_subset_right _ hos'⟩⟩
  | keep _ hkeep ih => exact ⟨ih.1, List.Subset.trans (Operand.temps_subset hkeep) ih.2⟩
  | @emit c c' os code instruction _ hplain hreads ih =>
    obtain ⟨hdrawn, hos⟩ := ih
    obtain ⟨-, -, hwritten⟩ := Instruction.isPlain_iff.mp hplain
    have htemps : instruction.temps = Operand.temps instruction.operands := by
      rw [Instruction.temps, hwritten]
      rfl
    have hsub : instruction.temps ⊆ code.temps := by
      rw [htemps]
      exact List.Subset.trans (Operand.temps_subset hreads) hos
    refine ⟨hdrawn.subset ?_, ?_⟩ <;> grind
  | @intoTemp c c' code value ty _ ih =>
    obtain ⟨hdrawn, hos⟩ := ih
    have htemps : (Instruction.assign (.temp c'.temps ty) ty value).temps =
        (c'.temps, ty) :: Operand.temps value.operands := rfl
    refine ⟨(hdrawn.append (.single c'.temps ty)).subset ?_, ?_⟩ <;> grind
  | @comparison c c' code cond _ ih =>
    obtain ⟨hdrawn, hos⟩ := ih
    refine ⟨(hdrawn.append (.single c'.temps .boolean)).subset ?_, by simp⟩
    simp only [Code.temps_append, Code.temps_cons]
    grind
  | @and c c₁ c' left right leftCode rightCode _ _ ihl ihr
  | @or c c₁ c' left right leftCode rightCode _ _ ihl ihr =>
    obtain ⟨hleft, hl⟩ := ihl
    obtain ⟨hright, hr⟩ := ihr
    -- The number of the result comes between those of the operands.
    refine ⟨((hleft.append (.single c₁.temps .boolean)).append hright).subset ?_, by simp⟩
    have hcond : Operand.temps (Cond.truthy left).operands ⊆ leftCode.temps := hl
    simp only [Code.temps_append, Code.temps_cons]
    grind
  | ifElse _ _ _ ihCond ihElse ihThen =>
    obtain ⟨hcond, hos⟩ := ihCond
    refine ⟨((hcond.append ihElse.1).append ihThen.1).subset ?_, List.nil_subset _⟩
    simp only [Code.temps_append, Code.temps_cons]
    grind
  | whileLoop _ _ ihCond ihBody =>
    obtain ⟨hcond, hos⟩ := ihCond
    refine ⟨(hcond.append ihBody.1).subset ?_, List.nil_subset _⟩
    simp only [Code.temps_append, Code.temps_cons]
    grind

/-! ## Certificates -/

/-- For every label some temporaries that are written whenever control comes there. -/
abbrev Certificate := Label → Set Nat

namespace Operand

/-- The numbers of the temporaries among some operands. -/
def ids (os : List Operand) : Set Nat := {id | ∃ ty, .temp id ty ∈ os}

@[simp] theorem ids_nil : ids [] = ∅ := by
  ext id
  simp [ids]

@[simp] theorem ids_append (os os' : List Operand) : ids (os ++ os') = ids os ∪ ids os' := by
  ext id
  simp [ids, exists_or]

@[simp] theorem ids_temp (id : Nat) (ty : Ty) : ids [.temp id ty] = {id} := by
  ext id'
  simp [ids]

@[simp] theorem ids_bool (b : Bool) : ids [.bool b] = ∅ := by
  ext id
  simp [ids, bool, ofLiteral]

theorem ids_subset {os os' : List Operand} (h : ∀ o ∈ os', o.isTemp = true → o ∈ os) :
    ids os' ⊆ ids os := by
  rintro id ⟨ty, hmem⟩
  exact ⟨ty, h _ hmem rfl⟩

end Operand

namespace Instruction

variable {ρ : Certificate} {known known' : Set Nat} {i : Instruction}

/-- What is written where control comes to the instruction. To a label it may come from afar. -/
def entry (ρ : Certificate) (known : Set Nat) : Instruction → Set Nat
  | label l => ρ l
  | _ => known

/-- What is written at the place after the instruction. Where control does not go on to that place
nothing has to be written there, so anything may count as written. -/
def after (ρ : Certificate) (known : Set Nat) : Instruction → Set Nat
  | assign (.temp id _) _ _ => insert id known
  | label l => ρ l
  | goto _ | ret _ _ => Set.univ
  | _ => known

/-- What the instruction reads is written, and so is what the certificate says of the label it
jumps to or is. -/
structure Respects (ρ : Certificate) (known : Set Nat) (i : Instruction) : Prop where
  reads : Operand.ids i.operands ⊆ known
  jumps : ∀ l, i.target? = some l → ρ l ⊆ known
  marks : ∀ l, i.label? = some l → ρ l ⊆ known

theorem Respects.mono (h : i.Respects ρ known) (hle : known ⊆ known') : i.Respects ρ known' :=
  ⟨h.reads.trans hle, fun l hl ↦ (h.jumps l hl).trans hle, fun l hl ↦ (h.marks l hl).trans hle⟩

theorem after_mono (i : Instruction) (hle : known ⊆ known') :
    i.after ρ known ⊆ i.after ρ known' := by
  cases i with
  | assign dest ty value =>
    cases dest with
    | temp id ty' => exact Set.insert_subset_insert hle
    | var | element => exact hle
  | call | putField | branch => exact hle
  | goto | label | ret => exact Set.Subset.rfl

theorem subset_after (hlabel : i.label? = none) : known ⊆ i.after ρ known := by
  cases i with
  | assign dest ty value =>
    cases dest with
    | temp id ty' => exact Set.subset_insert id known
    | var | element => exact Set.Subset.rfl
  | call | putField | branch => exact Set.Subset.rfl
  | goto | ret => exact Set.subset_univ known
  | label l => cases hlabel

@[simp] theorem respects_goto {l : Label} : (goto l).Respects ρ known ↔ ρ l ⊆ known :=
  ⟨fun h ↦ h.jumps l rfl, fun h ↦ ⟨by simp [operands], by simp [target?, h], by simp [label?]⟩⟩

@[simp] theorem respects_label {l : Label} : (label l).Respects ρ known ↔ ρ l ⊆ known :=
  ⟨fun h ↦ h.marks l rfl, fun h ↦ ⟨by simp [operands], by simp [target?], by simp [label?, h]⟩⟩

@[simp] theorem respects_branch {cond : Cond} {l : Label} :
    (branch cond l).Respects ρ known ↔ Operand.ids cond.operands ⊆ known ∧ ρ l ⊆ known :=
  ⟨fun h ↦ ⟨h.reads, h.jumps l rfl⟩,
    fun h ↦ ⟨h.1, by simp [target?, h.2], by simp [label?]⟩⟩

@[simp] theorem respects_setBool {id : Nat} {o : Operand} :
    (Lower.setBool id o).Respects ρ known ↔ Operand.ids [o] ⊆ known :=
  ⟨fun h ↦ h.reads,
    fun h ↦ ⟨h, by simp [Lower.setBool, target?], by simp [Lower.setBool, label?]⟩⟩

@[simp] theorem after_goto (l : Label) : (goto l).after ρ known = Set.univ := rfl

@[simp] theorem after_label (l : Label) : (label l).after ρ known = ρ l := rfl

@[simp] theorem after_branch (cond : Cond) (l : Label) :
    (branch cond l).after ρ known = known := rfl

@[simp] theorem after_setBool (id : Nat) (o : Operand) :
    (Lower.setBool id o).after ρ known = insert id known := rfl

end Instruction

namespace Code

variable {ρ : Certificate} {known known' out : Set Nat} {a b code : Code}

/-- The code respects the certificate if `known` is written where it starts, and `out` is written
where it ends. -/
def Respects (ρ : Certificate) : Set Nat → Code → Set Nat → Prop
  | known, [], out => out ⊆ known
  | known, i :: code, out => i.Respects ρ known ∧ Respects ρ (i.after ρ known) code out

theorem Respects.mono (h : Respects ρ known code out) (hle : known ⊆ known') :
    Respects ρ known' code out := by
  induction code generalizing known known' with
  | nil => exact Set.Subset.trans h hle
  | cons i code ih => exact ⟨h.1.mono hle, ih h.2 (i.after_mono hle)⟩

theorem Respects.append {mid : Set Nat} (ha : Respects ρ known a mid)
    (hb : Respects ρ mid b out) : Respects ρ known (a ++ b) out := by
  induction a generalizing known with
  | nil => exact hb.mono ha
  | cons i a ih => exact ⟨ha.1, ih ha.2⟩

theorem Respects.weaken {out' : Set Nat} (h : Respects ρ known code out) (hle : out' ⊆ out) :
    Respects ρ known code out' := by
  have hall := h.append (show Respects ρ out [] out' from hle)
  rwa [List.append_nil] at hall

end Code

/-- The labels of the code can be given sets such that the code respects every certificate that
names these. -/
def Code.Certified (known : Set Nat) (code : Code) (out : Set Nat) : Prop :=
  ∃ marks : List (Label × Set Nat), marks.map Prod.fst = code.labels ∧
    ∀ ρ : Certificate, (∀ m ∈ marks, ρ m.1 = m.2) → code.Respects ρ known out

namespace Code.Certified

variable {known mid out : Set Nat} {a b code : Code}

theorem nil (known : Set Nat) : Certified known [] known :=
  ⟨[], rfl, fun _ _ ↦ Set.Subset.rfl⟩

theorem append (ha : Certified known a mid) (hb : Certified mid b out) :
    Certified known (a ++ b) out := by
  obtain ⟨ma, hma, ha⟩ := ha
  obtain ⟨mb, hmb, hb⟩ := hb
  refine ⟨ma ++ mb, by simp [hma, hmb], fun ρ hρ ↦ ?_⟩
  obtain ⟨hρa, hρb⟩ := List.forall_mem_append.mp hρ
  exact (ha ρ hρa).append (hb ρ hρb)

theorem weaken {out' : Set Nat} (h : Certified known code out) (hle : out' ⊆ out) :
    Certified known code out' := by
  obtain ⟨marks, hmarks, hrespects⟩ := h
  exact ⟨marks, hmarks, fun ρ hρ ↦ (hrespects ρ hρ).weaken hle⟩

/-- An instruction that neither jumps nor is jumped to. -/
theorem snoc {i : Instruction} (h : Certified known code mid)
    (hread : Operand.ids i.operands ⊆ mid) (htarget : i.target? = none) (hlabel : i.label? = none)
    (hout : ∀ ρ, out ⊆ i.after ρ mid) : Certified known (code ++ [i]) out := by
  obtain ⟨marks, hmarks, hrespects⟩ := h
  refine ⟨marks, by simp [hmarks, Code.labels, hlabel], fun ρ hρ ↦ ?_⟩
  exact (hrespects ρ hρ).append ⟨⟨hread, by simp [htarget], by simp [hlabel]⟩, hout ρ⟩

variable {cond : Cond} {left right : Operand} {n id : Nat} {condCode leftCode rightCode : Code}

/-- Both ways to the end write the result, each at a place of its own. -/
theorem comparison (h : Certified known condCode mid) (hread : Operand.ids cond.operands ⊆ mid) :
    Certified known (condCode ++
      [.branch cond (.numbered .cmpTrue n),
        Lower.setBool id (.bool false),
        .goto (.numbered .cmpEnd n),
        .label (.numbered .cmpTrue n),
        Lower.setBool id (.bool true),
        .label (.numbered .cmpEnd n)]) (insert id mid) := by
  obtain ⟨marks, hmarks, hrespects⟩ := h
  refine ⟨marks ++ [(.numbered .cmpTrue n, mid), (.numbered .cmpEnd n, insert id mid)],
    by simp [hmarks], fun ρ hρ ↦ ?_⟩
  simp only [List.forall_mem_append, List.forall_mem_cons] at hρ
  obtain ⟨hρ, htrue, hend, -⟩ := hρ
  refine (hrespects ρ hρ).append ?_
  simp [Code.Respects, htrue, hend, hread]

/-- The right operand is skipped on one way to the end, so nothing of it is named there. -/
theorem and (hleft : Certified known leftCode mid) (hright : Certified mid rightCode out)
    (hread : Operand.ids [left] ⊆ mid) (hread' : Operand.ids [right] ⊆ out) (hkept : mid ⊆ out) :
    Certified known (leftCode ++
      [.branch (.truthy left) (.numbered .andRhs n),
        Lower.setBool id (.bool false),
        .goto (.numbered .andEnd n),
        .label (.numbered .andRhs n)] ++
      rightCode ++
      [Lower.setBool id right,
        .label (.numbered .andEnd n)]) (insert id mid) := by
  obtain ⟨ml, hml, hleft⟩ := hleft
  obtain ⟨mr, hmr, hright⟩ := hright
  refine ⟨ml ++ [(.numbered .andRhs n, mid)] ++ mr ++ [(.numbered .andEnd n, insert id mid)],
    by simp [hml, hmr], fun ρ hρ ↦ ?_⟩
  simp only [List.forall_mem_append, List.forall_mem_singleton] at hρ
  obtain ⟨⟨⟨hρl, hrhs⟩, hρr⟩, hend⟩ := hρ
  refine (((hleft ρ hρl).append ?_).append (hright ρ hρr)).append ?_
  · simp [Code.Respects, Cond.operands, hrhs, hend, hread]
  · simp [Code.Respects, hend, hread', Set.insert_subset_insert hkept]

theorem or (hleft : Certified known leftCode mid) (hright : Certified mid rightCode out)
    (hread : Operand.ids [left] ⊆ mid) (hread' : Operand.ids [right] ⊆ out) (hkept : mid ⊆ out) :
    Certified known (leftCode ++
      [.branch (.truthy left) (.numbered .orTrue n)] ++
      rightCode ++
      [Lower.setBool id right,
        .goto (.numbered .orEnd n),
        .label (.numbered .orTrue n),
        Lower.setBool id (.bool true),
        .label (.numbered .orEnd n)]) (insert id mid) := by
  obtain ⟨ml, hml, hleft⟩ := hleft
  obtain ⟨mr, hmr, hright⟩ := hright
  refine ⟨ml ++ mr ++ [(.numbered .orTrue n, mid), (.numbered .orEnd n, insert id mid)],
    by simp [hml, hmr], fun ρ hρ ↦ ?_⟩
  simp only [List.forall_mem_append, List.forall_mem_cons] at hρ
  obtain ⟨⟨hρl, hρr⟩, htrue, hend, -⟩ := hρ
  refine (((hleft ρ hρl).append ?_).append (hright ρ hρr)).append ?_
  · simp [Code.Respects, Cond.operands, htrue, hread]
  · simp [Code.Respects, htrue, hend, hread', Set.insert_subset_insert hkept]

/-- Either branch may be the one that runs, so where they meet only what both write is named. -/
theorem ifElse {elseCode thenCode : Code} (hcond : Certified known condCode mid)
    (hread : Operand.ids cond.operands ⊆ mid) (helse : Certified mid elseCode out)
    (hthen : Certified mid thenCode out) :
    Certified known (condCode ++
      [.branch cond (.numbered .ifBody n)] ++
      elseCode ++
      [.goto (.numbered .endIf n),
        .label (.numbered .ifBody n)] ++
      thenCode ++
      [.label (.numbered .endIf n)]) out := by
  obtain ⟨mc, hmc, hcond⟩ := hcond
  obtain ⟨me, hme, helse⟩ := helse
  obtain ⟨mt, hmt, hthen⟩ := hthen
  refine ⟨mc ++ me ++ [(.numbered .ifBody n, mid)] ++ mt ++ [(.numbered .endIf n, out)],
    by simp [hmc, hme, hmt], fun ρ hρ ↦ ?_⟩
  simp only [List.forall_mem_append, List.forall_mem_singleton] at hρ
  obtain ⟨⟨⟨⟨hρc, hρe⟩, hbody⟩, hρt⟩, hend⟩ := hρ
  refine (((((hcond ρ hρc).append ?_).append (helse ρ hρe)).append ?_).append
    (hthen ρ hρt)).append ?_
  · simp [Code.Respects, hbody, hread]
  · simp [Code.Respects, hbody, hend]
  · simp [Code.Respects, hend]

/-- The head is named what was known before the loop, which every round keeps. -/
theorem whileLoop {bodyCode : Code} (hcond : Certified known condCode mid)
    (hread : Operand.ids cond.operands ⊆ mid) (hkept : known ⊆ mid)
    (hbody : Certified mid bodyCode known) :
    Certified known ([.label (.numbered .loop n)] ++
      condCode ++
      [.branch cond (.numbered .whileBody n),
        .goto (.numbered .endWhile n),
        .label (.numbered .whileBody n)] ++
      bodyCode ++
      [.goto (.numbered .loop n),
        .label (.numbered .endWhile n)]) known := by
  obtain ⟨mc, hmc, hcond⟩ := hcond
  obtain ⟨mb, hmb, hbody⟩ := hbody
  refine ⟨[(.numbered .loop n, known)] ++ mc ++ [(.numbered .whileBody n, mid)] ++ mb ++
    [(.numbered .endWhile n, known)], by simp [hmc, hmb], fun ρ hρ ↦ ?_⟩
  simp only [List.forall_mem_append, List.forall_mem_singleton] at hρ
  obtain ⟨⟨⟨⟨hloop, hρc⟩, hstart⟩, hρb⟩, hend⟩ := hρ
  refine ((((Code.Respects.append ?_ (hcond ρ hρc)).append ?_).append (hbody ρ hρb)).append ?_)
  · simp [Code.Respects, hloop]
  · simp [Code.Respects, hstart, hend, hread, hkept]
  · simp [Code.Respects, hloop, hend]

end Code.Certified

/-- Where code is put together, so is a certificate for it. -/
theorem Assembled.certified {c c' : Counters} {os : List Operand} {code : Code}
    (h : Assembled c os code c') :
    ∀ known : Set Nat, code.Certified known (known ∪ Operand.ids os) := by
  induction h with
  | nil =>
    intro known
    rw [Operand.ids_nil, Set.union_empty]
    exact .nil known
  | @append c c₁ c' os os' a b _ _ iha ihb =>
    intro known
    rw [Operand.ids_append, ← Set.union_assoc]
    exact (iha known).append (ihb (known ∪ Operand.ids os))
  | keep _ hkeep ih =>
    exact fun known ↦ (ih known).weaken
      (Set.union_subset_union_right known (Operand.ids_subset hkeep))
  | @emit c c' os code instruction _ hplain hreads ih =>
    intro known
    obtain ⟨hlabel, htarget, -⟩ := Instruction.isPlain_iff.mp hplain
    exact (ih known).snoc ((Operand.ids_subset hreads).trans Set.subset_union_right) htarget hlabel
      fun ρ ↦ Instruction.subset_after hlabel
  | @intoTemp c c' code value ty _ ih =>
    intro known
    refine (ih known).snoc Set.subset_union_right rfl rfl fun ρ ↦ ?_
    have hkept : insert c'.temps known ⊆ insert c'.temps (known ∪ Operand.ids value.operands) :=
      Set.insert_subset_insert Set.subset_union_left
    simpa [Instruction.after] using hkept
  | @comparison c c' code cond _ ih =>
    intro known
    rw [Operand.ids_temp, Set.union_singleton]
    exact (Code.Certified.comparison (ih known) Set.subset_union_right).weaken
      (Set.insert_subset_insert Set.subset_union_left)
  | @and c c₁ c' left right leftCode rightCode _ _ ihl ihr =>
    intro known
    rw [Operand.ids_temp, Set.union_singleton]
    exact (Code.Certified.and (ihl known) (ihr _) Set.subset_union_right Set.subset_union_right
      Set.subset_union_left).weaken (Set.insert_subset_insert Set.subset_union_left)
  | @or c c₁ c' left right leftCode rightCode _ _ ihl ihr =>
    intro known
    rw [Operand.ids_temp, Set.union_singleton]
    exact (Code.Certified.or (ihl known) (ihr _) Set.subset_union_right Set.subset_union_right
      Set.subset_union_left).weaken (Set.insert_subset_insert Set.subset_union_left)
  | ifElse _ _ _ ihCond ihElse ihThen =>
    intro known
    rw [Operand.ids_nil, Set.union_empty]
    -- Behind the branches only what was known before is sure, since just one of them has run.
    exact .ifElse (ihCond known) Set.subset_union_right
      ((ihElse _).weaken (Set.subset_union_left.trans Set.subset_union_left))
      ((ihThen _).weaken (Set.subset_union_left.trans Set.subset_union_left))
  | whileLoop _ _ ihCond ihBody =>
    intro known
    rw [Operand.ids_nil, Set.union_empty]
    exact .whileLoop (ihCond known) Set.subset_union_right Set.subset_union_left
      ((ihBody _).weaken (Set.subset_union_left.trans Set.subset_union_left))

/-- Distinct labels may be given any sets. -/
theorem Certificate.exists_of_nodup {marks : List (Label × Set Nat)}
    (h : (marks.map Prod.fst).Nodup) : ∃ ρ : Certificate, ∀ m ∈ marks, ρ m.1 = m.2 := by
  refine ⟨fun l ↦ {id | ∃ s, (l, s) ∈ marks ∧ id ∈ s}, fun m hm ↦ ?_⟩
  ext id
  constructor
  · rintro ⟨s, hs, hid⟩
    have heq : (m.1, s) = m := List.inj_on_of_nodup_map h hs hm rfl
    rwa [← heq]
  · exact fun hid ↦ ⟨m.2, hm, hid⟩

theorem Code.Certified.exists_respects {known out : Set Nat} {code : Code}
    (h : code.Certified known out) (hnodup : code.labels.Nodup) :
    ∃ ρ : Certificate, code.Respects ρ known out := by
  obtain ⟨marks, hmarks, hrespects⟩ := h
  obtain ⟨ρ, hρ⟩ := Certificate.exists_of_nodup (hmarks ▸ hnodup)
  exact ⟨ρ, hrespects ρ hρ⟩

/-! ## What certificates say about paths -/

namespace Instruction

variable {ρ : Certificate} {known : Set Nat} {i : Instruction}

theorem Respects.entry_subset (h : i.Respects ρ known) : i.entry ρ known ⊆ known := by
  cases i with
  | label l => exact h.marks l rfl
  | _ => exact Set.Subset.rfl

theorem Respects.reads_subset_entry (h : i.Respects ρ known) :
    Operand.ids i.operands ⊆ i.entry ρ known := by
  cases i with
  | label l => simp [operands]
  | _ => exact h.reads

theorem Respects.jumps_subset_entry (h : i.Respects ρ known) {l : Label}
    (htarget : i.target? = some l) : ρ l ⊆ i.entry ρ known := by
  cases i with
  | label l => cases htarget
  | _ => exact h.jumps l htarget

/-- An instruction writes at most one temporary and forgets none. -/
theorem mem_after (hfalls : i.fallsThrough = true) {id : Nat} (hid : id ∈ i.after ρ known) :
    id ∈ i.entry ρ known ∨ ∃ ty, i.written? = some (id, ty) := by
  cases i with
  | assign dest ty value =>
    cases dest with
    | temp id' ty' =>
      rcases hid with rfl | hid
      · exact .inr ⟨ty', rfl⟩
      · exact .inl hid
    | var | element => exact .inl hid
  | goto | ret => cases hfalls
  | call | putField | branch | label => exact .inl hid

end Instruction

namespace Code

variable {ρ : Certificate} {known out : Set Nat} {code : Code} {i : Nat} {before : List Nat}
  {instruction : Instruction}

/-- What is written before the place `i` if `known` is where the code starts. -/
def knownAt (code : Code) (ρ : Certificate) (known : Set Nat) (i : Nat) : Set Nat :=
  (code.take i).foldl (fun known instruction ↦ instruction.after ρ known) known

theorem knownAt_succ (hi : code[i]? = some instruction) :
    code.knownAt ρ known (i + 1) = instruction.after ρ (code.knownAt ρ known i) := by
  rw [knownAt, List.take_add_one, hi, Option.toList_some, List.foldl_append]
  rfl

theorem Respects.at_place (h : code.Respects ρ known out) (hi : code[i]? = some instruction) :
    instruction.Respects ρ (code.knownAt ρ known i) := by
  induction code generalizing known i with
  | nil => cases hi
  | cons first code ih =>
    cases i with
    | zero =>
      rw [List.getElem?_cons_zero, Option.some.injEq] at hi
      subst hi
      exact h.1
    | succ i => exact ih h.2 hi

/-- The temporaries that were written at one of the places. -/
def written (code : Code) (places : List Nat) : Set Nat :=
  {id | ∃ j ∈ places, ∃ earlier ty, code[j]? = some earlier ∧ earlier.written? = some (id, ty)}

theorem written_mono (code : Code) (i : Nat) (places : List Nat) :
    code.written places ⊆ code.written (i :: places) :=
  fun _ ⟨j, hj, hwritten⟩ ↦ ⟨j, List.mem_cons_of_mem i hj, hwritten⟩

/-- A certificate that the code respects is right: whatever path control took to a place, what
should be written there is. -/
theorem Respects.entry_subset_written (h : code.Respects ρ ∅ out)
    (htext : ∀ {l l'}, l ∈ code.targets → l' ∈ code.labels → l'.text = l.text → l' = l)
    (hpath : code.Path before i) : ∀ {instruction}, code[i]? = some instruction →
      instruction.entry ρ (code.knownAt ρ ∅ i) ⊆ code.written before := by
  induction hpath with
  | start =>
    intro instruction hi
    exact (h.at_place hi).entry_subset.trans (Set.empty_subset _)
  | @step before i j hpath hflow ih =>
    intro instruction hj
    cases hflow with
    | @next previous hi hfalls =>
      -- What is known here beyond the last place was written there.
      refine (h.at_place hj).entry_subset.trans fun id hid ↦ ?_
      rw [knownAt_succ hi] at hid
      rcases Instruction.mem_after hfalls hid with hentry | ⟨ty, hwritten⟩
      · exact code.written_mono i before (ih hi hentry)
      · exact ⟨i, List.mem_cons_self, previous, ty, hi, hwritten⟩
    | @jump previous l l' _ hi htarget hlabel hsame =>
      obtain rfl : instruction = .label l' := Option.some.inj (hj.symm.trans hlabel)
      -- The text leads to the very label that the certificate speaks of.
      have hl : l ∈ code.targets :=
        List.mem_filterMap.mpr ⟨previous, List.mem_of_getElem? hi, htarget⟩
      have hl' : l' ∈ code.labels :=
        List.mem_filterMap.mpr ⟨.label l', List.mem_of_getElem? hlabel, rfl⟩
      obtain rfl := htext hl hl' hsame
      exact ((h.at_place hi).jumps_subset_entry htarget).trans
        ((ih hi).trans (code.written_mono i before))

theorem Respects.closed (h : code.Respects ρ known out) : code.closed.Respects ρ known ∅ := by
  rw [closed_eq]
  split
  · exact h.weaken (Set.empty_subset out)
  · refine h.append ⟨⟨?_, ?_, ?_⟩, Set.empty_subset _⟩
    · simp [Instruction.operands]
    · simp [Instruction.target?]
    · simp [Instruction.label?]

end Code

/-- Whatever is read on a path through a body was written before on that path. -/
theorem Assembled.mem_written {c c' : Counters} {os : List Operand} {code : Code}
    (h : Assembled c os code c') {before : List Nat} {i : Nat} {instruction : Instruction}
    (hpath : code.closed.Path before i) (hi : code.closed[i]? = some instruction) {id : Nat}
    (hread : id ∈ Operand.ids instruction.operands) : id ∈ code.closed.written before := by
  obtain ⟨ρ, hrespects⟩ := (h.certified ∅).exists_respects h.numbered.nodup
  have hbody := hrespects.closed
  exact hbody.entry_subset_written h.eq_of_text_eq_closed hpath hi
    ((hbody.at_place hi).reads_subset_entry hread)

/-! ## Lowered units -/

namespace AssembledEach

variable {c c' : Counters} {methods : List MethodCode}

theorem drawnTemps (h : AssembledEach c methods c') :
    DrawnTemps c.temps c'.temps (methods.flatMap (·.body.temps)) := by
  induction h with
  | nil c => exact .nil (Nat.le_refl _)
  | cons hcode hbody _ ih =>
    rw [List.flatMap_cons, hbody, Code.temps_closed]
    exact hcode.drawnTemps.1.append ih

/-- No two methods share the number of a temporary. -/
theorem index_unique (h : AssembledEach c methods c') : ∀ {i j : Nat} {m m' : MethodCode},
    methods[i]? = some m → methods[j]? = some m' → ∀ {p q : Nat × Ty}, p ∈ m.body.temps →
      q ∈ m'.body.temps → p.1 = q.1 → i = j := by
  induction h with
  | nil => exact fun hi ↦ absurd hi (by simp)
  | @cons c c₁ c' code first rest hcode hbody hrest ih =>
    -- The first method has drawn its numbers before any of the others.
    have hdisjoint : ∀ p ∈ first.body.temps, ∀ m ∈ rest, ∀ q ∈ m.body.temps, p.1 ≠ q.1 := by
      intro p hp m hm q hq
      rw [hbody, Code.temps_closed] at hp
      exact hcode.drawnTemps.1.disjoint hrest.drawnTemps p hp q
        (List.mem_flatMap.mpr ⟨m, hm, hq⟩)
    intro i j m m' hi hj p q hp hq heq
    cases i with
    | zero =>
      obtain rfl : first = m := Option.some.inj hi
      cases j with
      | zero => rfl
      | succ j => exact absurd heq (hdisjoint p hp m' (List.mem_of_getElem? hj) q hq)
    | succ i =>
      cases j with
      | zero =>
        obtain rfl : first = m' := Option.some.inj hj
        exact absurd heq.symm (hdisjoint q hq m (List.mem_of_getElem? hi) p hp)
      | succ j => rw [ih hi hj hp hq heq]

end AssembledEach

/-- On every path through a lowered body a temporary is written before it is read. And throughout
the unit, all occurrences of one number are in one method and have one type. -/
theorem Table.temporary_written_before_read {t : Table} {p : Program} {c c' : Counters}
    {code : ClassCode} (hy : (t.lowerProgram p).Yields c code c') :
    (∀ m ∈ code.methods, ∀ (before : List Nat) (i : Nat) (instruction : Instruction),
      m.body.Path before i → m.body[i]? = some instruction →
      ∀ (id : Nat) (ty : Ty), .temp id ty ∈ instruction.operands →
        ∃ j ∈ before, ∃ earlier, m.body[j]? = some earlier ∧
          earlier.written? = some (id, ty)) ∧
      ∀ (i j : Nat) (m m' : MethodCode) (id : Nat) (ty ty' : Ty),
        code.methods[i]? = some m → code.methods[j]? = some m' →
        (id, ty) ∈ m.body.temps → (id, ty') ∈ m'.body.temps → i = j ∧ ty = ty' := by
  have heach := assembledEach_lowerMethods (yields_lowerProgram hy).2
  have htype : ∀ m ∈ code.methods, ∀ m' ∈ code.methods, ∀ {id : Nat} {ty ty' : Ty},
      (id, ty) ∈ m.body.temps → (id, ty') ∈ m'.body.temps → ty = ty' := by
    intro m hm m' hm' id ty ty' hmem hmem'
    have heq := heach.drawnTemps.unique (id, ty) (List.mem_flatMap.mpr ⟨m, hm, hmem⟩) (id, ty')
      (List.mem_flatMap.mpr ⟨m', hm', hmem'⟩) rfl
    exact congrArg Prod.snd heq
  constructor
  · intro m hm before i instruction hpath hi id ty hread
    obtain ⟨c₁, body, c₂, hassembled, hbody⟩ := heach.exists_assembled hm
    have hwritten : id ∈ m.body.written before := by
      rw [hbody] at hpath hi ⊢
      exact hassembled.mem_written hpath hi ⟨ty, hread⟩
    obtain ⟨j, hj, earlier, ty', hearlier, hwrites⟩ := hwritten
    have hread' : (id, ty) ∈ m.body.temps :=
      List.mem_flatMap.mpr ⟨instruction, List.mem_of_getElem? hi,
        List.mem_append_right _ (Operand.mem_temps.mpr hread)⟩
    have hwrites' : (id, ty') ∈ m.body.temps :=
      List.mem_flatMap.mpr ⟨earlier, List.mem_of_getElem? hearlier,
        List.mem_append_left _ (by rw [hwrites]; exact List.mem_singleton_self _)⟩
    obtain rfl := htype m hm m hm hread' hwrites'
    exact ⟨j, hj, earlier, hearlier, hwrites⟩
  · intro i j m m' id ty ty' hi hj hmem hmem'
    exact ⟨heach.index_unique hi hj hmem hmem' rfl,
      htype m (List.mem_of_getElem? hi) m' (List.mem_of_getElem? hj) hmem hmem'⟩

/-- In `valve`, the outcome of a comparison is read after a jump past the place that writes it
first. -/
theorem Program.valve_temporary_written :
    ∃ code c' m before, (valve.table.lowerProgram valve).Yields ⟨3, 1, 4, 1⟩ code c' ∧
      code.methods[0]? = some m ∧ m.body.Path before 6 ∧
      m.body[6]? = some (.branch (.truthy (.temp 3 .boolean)) (.numbered .andRhs 2)) ∧
      ∃ j ∈ before, ∃ earlier, m.body[j]? = some earlier ∧
        earlier.written? = some (3, .boolean) := by
  have heval : ((valve.table.lowerProgram valve).runFrom ⟨3, 1, 4, 1⟩).1.toOption.bind
      (fun code ↦ code.methods[0]?.map (·.body.take 7)) =
        some [.branch (.compare .lt (.int 0) (.var "n" .int)) (.numbered .cmpTrue 1),
          Lower.setBool 3 (.bool false), .goto (.numbered .cmpEnd 1),
          .label (.numbered .cmpTrue 1), Lower.setBool 3 (.bool true),
          .label (.numbered .cmpEnd 1),
          .branch (.truthy (.temp 3 .boolean)) (.numbered .andRhs 2)] := by decide +kernel
  rcases hy : (valve.table.lowerProgram valve).runFrom ⟨3, 1, 4, 1⟩ with ⟨_ | code, c'⟩
  · rw [hy] at heval
    cases heval
  · rw [hy] at heval
    obtain ⟨m, hm, htake⟩ := Option.map_eq_some_iff.mp heval
    have hat : ∀ i < 7, m.body[i]? = (m.body.take 7)[i]? :=
      fun i hi ↦ (List.getElem?_take_of_lt hi).symm
    rw [htake] at hat
    have hpath : m.body.Path [5, 4, 3, 0] 6 :=
      .step (.step (.step (.step .start
        (.jump (hat 0 (by decide)) rfl (hat 3 (by decide)) rfl))
        (.next (hat 3 (by decide)) rfl)) (.next (hat 4 (by decide)) rfl))
        (.next (hat 5 (by decide)) rfl)
    have hread := hat 6 (by decide)
    exact ⟨code, c', m, [5, 4, 3, 0], hy, hm, hpath, hread,
      (Table.temporary_written_before_read hy).1 m (List.mem_of_getElem? hm) _ 6 _ hpath hread 3
        .boolean List.mem_cons_self⟩

end Tricode
