import Tricode.Proofs.Names
import Tricode.Proofs.Numbering

/-!
# Where control can go

A body is a graph: from every place control goes on to the next one, or jumps to the place its
target marks. This file shows that the graph of a lowered body is closed. Every jump has exactly
one place to go to, that place is in the code of the very statement or expression that jumps, and
the only way out is a return.

Jumps name their targets by text, so it is not enough that labels are distinct as pairs of a mark
and a number. The texts differ as well, since no stem has the character that divides stem and
number.
-/

namespace Tricode

/-! ## The text of labels -/

theorem Mark.stem_injective : Function.Injective Mark.stem := by
  intro mark mark' h
  cases mark <;> cases mark' <;> simp_all [Mark.stem]

theorem Mark.underscore_notMem_stem (mark : Mark) : '_' ∉ mark.stem.toList := by
  cases mark <;> decide

theorem Label.eq_of_text_eq {mark mark' : Mark} {n n' : Nat}
    (h : (numbered mark n).text = (numbered mark' n').text) :
    numbered mark n = numbered mark' n' := by
  -- Neither stems nor digits have an underscore, so the two texts divide at the same place.
  have hchars : mark.stem.toList ++ '_' :: Nat.toDigits 10 n =
      mark'.stem.toList ++ '_' :: Nat.toDigits 10 n' := by
    simpa [text, numberedText, Nat.toString_eq_repr, Nat.toList_repr] using
      congrArg String.toList h
  obtain ⟨hstem, -, hdigits⟩ := (List.append_cons_inj_of_notMem mark.underscore_notMem_stem
    Nat.underscore_not_in_toDigits).mp hchars
  rw [Mark.stem_injective (String.toList_inj.mp hstem), eq_of_toDigits_eq hdigits]

theorem Label.Drawn.eq_of_text_eq {c c' : Counters} {l l' : Label} (h : l.Drawn c c')
    (h' : l'.Drawn c c') (htext : l.text = l'.text) : l = l' := by
  cases l with
  | named text => exact h.elim
  | numbered mark n =>
    cases l' with
    | named text => exact h'.elim
    | numbered mark' n' => exact Label.eq_of_text_eq htext

theorem Numbered.nodup_text {c c' : Counters} {ls : List Label} (h : Numbered c c' ls) :
    (ls.map Label.text).Nodup :=
  List.Nodup.map_on (fun l hl l' hl' ↦ (h.drawn l hl).eq_of_text_eq (h.drawn l' hl')) h.nodup

/-! ## Jumps and their targets -/

namespace Code

/-- The labels a piece of code may jump to, in order. -/
def targets (code : Code) : List Label := code.filterMap Instruction.target?

@[simp, grind =] theorem targets_nil : targets [] = [] := rfl

@[simp, grind =] theorem targets_append (a b : Code) : targets (a ++ b) = targets a ++ targets b :=
  List.filterMap_append

@[simp, grind =] theorem targets_label (l : Label) (code : Code) :
    targets (.label l :: code) = targets code := rfl

@[simp, grind =] theorem targets_goto (l : Label) (code : Code) :
    targets (.goto l :: code) = l :: targets code := rfl

@[simp, grind =] theorem targets_branch (cond : Cond) (l : Label) (code : Code) :
    targets (.branch cond l :: code) = l :: targets code := rfl

@[simp, grind =] theorem targets_setBool (id : Nat) (o : Operand) (code : Code) :
    targets (Lower.setBool id o :: code) = targets code := rfl

@[simp, grind =] theorem labels_setBool (id : Nat) (o : Operand) (code : Code) :
    labels (Lower.setBool id o :: code) = labels code := rfl

/-- Every jump in the code names exactly one label of the code. -/
def SelfContained (code : Code) : Prop :=
  ∀ l ∈ code.targets, (code.labels.map Label.text).count l.text = 1

end Code

namespace Assembled

variable {c c' : Counters} {os : List Operand} {code : Code}

/-- Each control structure places the labels it jumps to. -/
theorem targets_subset (h : Assembled c os code c') : code.targets ⊆ code.labels := by
  induction h with
  | nil => exact List.nil_subset _
  | append _ _ iha ihb =>
    rw [Code.targets_append, Code.labels_append]
    exact List.append_subset.mpr ⟨List.subset_append_of_subset_left _ iha,
      List.subset_append_of_subset_right _ ihb⟩
  | keep _ _ ih => exact ih
  | @emit c c' os code instruction _ hplain _ ih =>
    obtain ⟨-, htarget, -⟩ := Instruction.isPlain_iff.mp hplain
    have hlast : Code.targets [instruction] = [] := by simp [Code.targets, htarget]
    rw [Code.targets_append, Code.labels_append, hlast, List.append_nil]
    exact List.subset_append_of_subset_left _ ih
  | @intoTemp c c' code value ty _ ih =>
    have hlast : Code.targets [.assign (.temp c'.temps ty) ty value] = [] := rfl
    rw [Code.targets_append, Code.labels_append, hlast, List.append_nil]
    exact List.subset_append_of_subset_left _ ih
  -- What is jumped to is placed by the parts, or by the structure that puts them together.
  | comparison _ ih =>
    intro l
    have hcond := @ih l
    grind
  | and _ _ ihl ihr | or _ _ ihl ihr =>
    intro l
    have hleft := @ihl l
    have hright := @ihr l
    grind
  | ifElse _ _ _ ihCond ihElse ihThen =>
    intro l
    have hcond := @ihCond l
    have helse := @ihElse l
    have hthen := @ihThen l
    grind
  | whileLoop _ _ ihCond ihBody =>
    intro l
    have hcond := @ihCond l
    have hbody := @ihBody l
    rw [List.append_assoc, List.append_assoc, List.append_assoc]
    grind

theorem selfContained (h : Assembled c os code c') : code.SelfContained := by
  intro l hl
  have hmem : l.text ∈ code.labels.map Label.text := List.mem_map_of_mem (h.targets_subset hl)
  exact List.count_eq_one_of_mem h.numbered.nodup_text hmem

/-- A jump and a label with one text are about one label. -/
theorem eq_of_text_eq (h : Assembled c os code c') {l l' : Label} (hl : l ∈ code.targets)
    (hl' : l' ∈ code.labels) (htext : l'.text = l.text) : l' = l :=
  (h.numbered.drawn l' hl').eq_of_text_eq (h.numbered.drawn l (h.targets_subset hl)) htext

end Assembled

/-! ## Code that ends in a return -/

namespace Code

/-- The last instruction is a return. -/
def endsInReturn (code : Code) : Bool := (code.getLast?.map Instruction.isReturn).getD false

theorem endsInReturn_append_cons (a b : Code) (instruction : Instruction) :
    endsInReturn (a ++ instruction :: b) = endsInReturn (instruction :: b) := by
  rw [endsInReturn, List.getLast?_append_of_ne_nil a (List.cons_ne_nil _ _)]
  rfl

theorem endsInReturn_snoc (code : Code) (instruction : Instruction) :
    endsInReturn (code ++ [instruction]) = instruction.isReturn :=
  endsInReturn_append_cons code [] instruction

theorem endsInReturn_append {a b : Code} (h : endsInReturn (a ++ b) = true) :
    endsInReturn b = true ∨ b = [] ∧ endsInReturn a = true := by
  cases b with
  | nil => exact .inr ⟨rfl, by rwa [List.append_nil] at h⟩
  | cons instruction b => exact .inl (by rwa [endsInReturn_append_cons] at h)

theorem endsInReturn_iff {code : Code} :
    code.endsInReturn = true ↔ ∃ init value ty, code = init ++ [.ret value ty] := by
  constructor
  · intro h
    rcases List.eq_nil_or_concat code with rfl | ⟨init, last, rfl⟩
    · cases h
    · rw [List.concat_eq_append, endsInReturn_snoc] at h
      cases last with
      | ret value ty => exact ⟨init, value, ty, List.concat_eq_append⟩
      | _ => cases h
  · rintro ⟨init, value, ty, rfl⟩
    exact endsInReturn_snoc init _

theorem closed_eq (code : Code) :
    code.closed = if code.endsInReturn then code else code ++ [.ret none .void] := rfl

theorem endsInReturn_closed (code : Code) : code.closed.endsInReturn = true := by
  rw [closed_eq]
  split
  · assumption
  · exact endsInReturn_snoc _ _

/-- Whatever is gathered piece by piece, and never from a return, is the same for closed code. -/
theorem gathered_closed {α : Type} {gather : Code → List α}
    (happend : ∀ a b, gather (a ++ b) = gather a ++ gather b)
    (hret : gather [.ret none .void] = []) (code : Code) : gather code.closed = gather code := by
  rw [closed_eq]
  split
  · rfl
  · rw [happend, hret, List.append_nil]

theorem labels_closed (code : Code) : code.closed.labels = code.labels :=
  gathered_closed labels_append rfl code

theorem targets_closed (code : Code) : code.closed.targets = code.targets :=
  gathered_closed targets_append rfl code

theorem SelfContained.closed {code : Code} (h : code.SelfContained) :
    code.closed.SelfContained := by
  rwa [SelfContained, targets_closed, labels_closed]

end Code

theorem Assembled.eq_of_text_eq_closed {c c' : Counters} {os : List Operand} {code : Code}
    (h : Assembled c os code c') {l l' : Label} (hl : l ∈ code.closed.targets)
    (hl' : l' ∈ code.closed.labels) (htext : l'.text = l.text) : l' = l := by
  rw [Code.targets_closed] at hl
  rw [Code.labels_closed] at hl'
  exact h.eq_of_text_eq hl hl' htext

/-! ## The graph of a body -/

/-- Control may go on to the place after the instruction. -/
def Instruction.fallsThrough : Instruction → Bool
  | goto _ | ret _ _ => false
  | _ => true

namespace Code

/-- Control may go from place `i` of the code to place `j`. Nothing is said of what is at `j`: the
place after the last instruction counts as well. -/
inductive Flow (code : Code) (i : Nat) : Nat → Prop
  | next {instruction : Instruction} : code[i]? = some instruction →
    instruction.fallsThrough = true → Flow code i (i + 1)
  | jump {instruction : Instruction} {l l' : Label} {j : Nat} : code[i]? = some instruction →
    instruction.target? = some l → code[j]? = some (.label l') → l'.text = l.text →
    Flow code i j

/-- Control entered the code at its start, went through the places `before`, the latest first, and
has come to a place. -/
inductive Path (code : Code) : List Nat → Nat → Prop
  | start : Path code [] 0
  | step {before : List Nat} {i j : Nat} : Path code before i → code.Flow i j →
    Path code (i :: before) j

variable {code : Code} {i j : Nat}

/-- The last instruction is a return, and no other leads past the end. -/
theorem Flow.lt_length (hend : code.endsInReturn = true) (h : code.Flow i j) :
    j < code.length := by
  cases h with
  | jump _ _ hj _ => exact (List.getElem?_eq_some_iff.mp hj).1
  | @next instruction hi hfalls =>
    obtain ⟨init, value, ty, rfl⟩ := endsInReturn_iff.mp hend
    have hlt := (List.getElem?_eq_some_iff.mp hi).1
    rw [List.length_append, List.length_singleton] at hlt ⊢
    -- To leave at the end, control would have to pass the last instruction, which returns.
    have hlast : i ≠ init.length := by
      rintro rfl
      rw [List.getElem?_concat_length, Option.some.injEq] at hi
      subst hi
      cases hfalls
    omega

theorem Path.lt_length (hend : code.endsInReturn = true) {before : List Nat}
    (h : code.Path before i) : i < code.length := by
  cases h with
  | start =>
    obtain ⟨init, value, ty, rfl⟩ := endsInReturn_iff.mp hend
    simp
  | step _ hflow => exact hflow.lt_length hend

theorem SelfContained.flow_of_target {instruction : Instruction} {l : Label}
    (h : code.SelfContained) (hi : code[i]? = some instruction)
    (htarget : instruction.target? = some l) : ∃ j, code.Flow i j := by
  have hmem : l ∈ code.targets :=
    List.mem_filterMap.mpr ⟨instruction, List.mem_of_getElem? hi, htarget⟩
  have hpos : 0 < (code.labels.map Label.text).count l.text := by
    rw [h l hmem]
    exact Nat.one_pos
  obtain ⟨l', hl', htext⟩ := List.mem_map.mp (List.count_pos_iff.mp hpos)
  obtain ⟨mark, hmark, hlabel⟩ := List.mem_filterMap.mp hl'
  obtain ⟨j, hj⟩ := List.mem_iff_getElem?.mp hmark
  cases mark with
  | label l'' =>
    obtain rfl : l'' = l' := Option.some.inj hlabel
    exact ⟨j, .jump hi htarget hj htext⟩
  | _ => cases hlabel

/-- Wherever control is, it returns or it can go on. -/
theorem SelfContained.isReturn_or_flow {instruction : Instruction} (h : code.SelfContained)
    (hi : code[i]? = some instruction) :
    instruction.isReturn = true ∨ ∃ j, code.Flow i j := by
  cases instruction with
  | ret value ty => exact .inl rfl
  | goto l => exact .inr (h.flow_of_target hi rfl)
  | assign | call | putField | branch | label => exact .inr ⟨i + 1, .next hi rfl⟩

end Code

/-! ## Lowered units -/

namespace AssembledEach

variable {c c' : Counters} {methods : List MethodCode}

theorem numbered (h : AssembledEach c methods c') :
    Numbered c c' (methods.flatMap MethodCode.labels) := by
  induction h with
  | nil c => exact .nil (Counters.le_refl c) fun _ ↦ rfl
  | @cons c c₁ c' code m ms hcode hbody _ ih =>
    have hlabels : m.labels = code.labels := by
      rw [← Code.labels_closed, ← hbody]
      rfl
    rw [List.flatMap_cons, hlabels]
    exact hcode.numbered.append ih

theorem exists_assembled (h : AssembledEach c methods c') {m : MethodCode} (hm : m ∈ methods) :
    ∃ c₁ code c₂, Assembled c₁ [] code c₂ ∧ m.body = code.closed := by
  induction h with
  | nil => cases hm
  | @cons c c₁ c' code m' ms hcode hbody _ ih =>
    rcases List.mem_cons.mp hm with rfl | hm
    · exact ⟨c, code, c₁, hcode, hbody⟩
    · exact ih hm

end AssembledEach

/-- Lowered code is closed under control flow. No two labels of the unit have the same text; what
is lowered for a statement or an expression jumps only within itself; and control that enters a
body always stands at an instruction of it, which is a return or leads on. -/
theorem Table.controlFlow_closed {t : Table} {p : Program} {c c' : Counters} {code : ClassCode}
    (hy : (t.lowerProgram p).Yields c code c') :
    ((code.methods.flatMap MethodCode.labels).map Label.text).Nodup ∧
      (∀ (s : Scope) (stmt : Stmt) (c₁ c₂ : Counters) (part : Code),
        (s.lowerStmt stmt).Yields c₁ part c₂ → part.SelfContained) ∧
      (∀ (s : Scope) (e : Expr) (hint : Option Ty) (c₁ c₂ : Counters) (l : Lowered),
        (s.lowerExpr e hint).Yields c₁ l c₂ → l.code.SelfContained) ∧
      ∀ m ∈ code.methods,
        m.body.SelfContained ∧
        (∃ init value ty, m.body = init ++ [.ret value ty]) ∧
        ∀ (before : List Nat) (i : Nat), m.body.Path before i →
          ∃ instruction, m.body[i]? = some instruction ∧
            (instruction.isReturn = true ∨ ∃ j, m.body.Flow i j) := by
  have heach := assembledEach_lowerMethods (yields_lowerProgram hy).2
  refine ⟨heach.numbered.nodup_text, ?_, ?_, ?_⟩
  · exact fun s stmt c₁ c₂ part hpart ↦ (Scope.assembled_lowerStmt hpart).selfContained
  · exact fun s e hint c₁ c₂ l hl ↦ (s.assembles_lowerExpr e hint hl).selfContained
  · intro m hm
    obtain ⟨c₁, body, c₂, hassembled, hbody⟩ := heach.exists_assembled hm
    have hself : m.body.SelfContained := hbody ▸ hassembled.selfContained.closed
    have hend : m.body.endsInReturn = true := hbody ▸ body.endsInReturn_closed
    refine ⟨hself, Code.endsInReturn_iff.mp hend, fun before i hpath ↦ ?_⟩
    have hi := List.getElem?_eq_getElem (hpath.lt_length hend)
    exact ⟨_, hi, hself.isReturn_or_flow hi⟩

/-- A unit whose two methods have a loop, a branch and a test that may stop early. -/
def Program.valve : Program where
  imports := []
  decl := {
    name := "Valve"
    superclass := none
    fields := [⟨.int, "limit", .origin⟩]
    methods := [
      { name := "lets"
        isPublic := true
        isStatic := false
        returnType := .boolean
        params := [⟨.int, "n", .origin⟩]
        varargs := none
        locals := [⟨.boolean, "open", .origin⟩]
        body := [
          .assign .origin "open" (.binary .origin .and
            (.binary .origin .lt (.lit .origin (.int 0)) (.var .origin "n"))
            (.binary .origin .lt (.var .origin "n") (.var .origin "limit"))),
          .ifElse .origin (.var .origin "open")
            (.assign .origin "limit"
              (.binary .origin .sub (.var .origin "limit") (.lit .origin (.int 1))))
            (.block .origin []),
          .ret .origin (some (.var .origin "open"))]
        pos := .origin },
      { name := "drain"
        isPublic := true
        isStatic := false
        returnType := .void
        params := [⟨.int, "n", .origin⟩]
        varargs := none
        locals := []
        body := [
          .whileLoop .origin (.call .origin "lets" [.var .origin "n"])
            (.assign .origin "n"
              (.binary .origin .sub (.var .origin "n") (.lit .origin (.int 1))))]
        pos := .origin }]
    pos := .origin }

theorem Program.valve_controlFlow_closed :
    ∃ code c', (valve.table.lowerProgram valve).Yields ⟨3, 1, 4, 1⟩ code c' ∧
      code.methods.map (·.labels.length) = [8, 3] ∧
      ((code.methods.flatMap MethodCode.labels).map Label.text).Nodup ∧
      ∀ m ∈ code.methods, m.body.SelfContained ∧
        ∀ (before : List Nat) (i : Nat), m.body.Path before i → i < m.body.length := by
  have hlabels : ((valve.table.lowerProgram valve).runFrom ⟨3, 1, 4, 1⟩).1.toOption.map
      (·.methods.map (·.labels.length)) = some [8, 3] := by decide +kernel
  rcases hy : (valve.table.lowerProgram valve).runFrom ⟨3, 1, 4, 1⟩ with ⟨_ | code, c'⟩
  · rw [hy] at hlabels
    cases hlabels
  · rw [hy] at hlabels
    obtain ⟨hnodup, -, -, hmethods⟩ := Table.controlFlow_closed hy
    refine ⟨code, c', hy, Option.some.inj hlabels, hnodup, fun m hm ↦ ⟨(hmethods m hm).1, ?_⟩⟩
    intro before i hpath
    obtain ⟨instruction, hi, -⟩ := (hmethods m hm).2.2 before i hpath
    exact (List.getElem?_eq_some_iff.mp hi).1

end Tricode
