import Tricode.Proofs.Reporting
import Tricode.Proofs.Scopes

/-!
# Names declared twice

Nothing of one kind is to be declared twice under one name in one place. Checking walks along each
list of declarations and keeps the names it has come across. What it reports is to be one error for
each declaration with an earlier one of its name, and nothing else, however the lists are cut up
and whatever else is reported in between.

## What is compared

The names of the methods are kept while their bodies are checked, so that reports of other kinds
come between theirs. The final sort mixes all of them. So the reports are compared as a permutation
of what the declarations give rise to.

An import counts under the last segment of its path. The table knows imports as dotted paths and
takes what follows the last dot. The two agree where no segment has a dot of its own.
-/

namespace Tricode

open Diagnostic (error require)

/-! ## Members with an earlier one of their name -/

section

variable {α : Type} {name : α → String}

/-- The members of a list for which one of those before has the same name. -/
def redeclared (name : α → String) (xs : List α) : List α :=
  (xs.zipIdx.filter fun x ↦ (xs.take x.2).any fun y ↦ name y == name x.1).map Prod.fst

theorem repeated_go_congr {seen seen' : List String} (h : ∀ n, n ∈ seen ↔ n ∈ seen')
    (xs : List α) : repeated.go name seen xs = repeated.go name seen' xs := by
  induction xs generalizing seen seen' with
  | nil => rfl
  | cons x xs ih =>
    have hcontains : seen.contains (name x) = seen'.contains (name x) := by
      rw [Bool.eq_iff_iff, List.contains_iff_mem, List.contains_iff_mem, h]
    have hmore : ∀ n, n ∈ name x :: seen ↔ n ∈ name x :: seen' := fun n ↦ by
      rw [List.mem_cons, List.mem_cons, h]
    rw [repeated.go, repeated.go, hcontains, ih h, ih hmore]

/-- One step along the list: the name counts as seen from now on, be it new or not. -/
theorem repeated_go_cons (seen : List String) (x : α) (xs : List α) :
    repeated.go name seen (x :: xs) =
      (if seen.contains (name x) then [x] else []) ++ repeated.go name (name x :: seen) xs := by
  rw [repeated.go]
  split
  · rename_i hseen
    rw [List.singleton_append, List.cons.injEq]
    refine ⟨rfl, repeated_go_congr (fun n ↦ ?_) xs⟩
    rw [List.contains_iff_mem] at hseen
    rw [List.mem_cons]
    exact ⟨.inr, fun h ↦ h.elim (fun heq ↦ heq ▸ hseen) id⟩
  · rfl

/-- From any place on: the names seen are those of the members passed. -/
theorem repeated_go_eq (passed xs : List α) {seen : List String}
    (h : ∀ n, n ∈ seen ↔ n ∈ passed.map name) :
    repeated.go name seen xs =
      ((xs.zipIdx passed.length).filter fun x ↦
        ((passed ++ xs).take x.2).any fun y ↦ name y == name x.1).map Prod.fst := by
  induction xs generalizing passed seen with
  | nil => rfl
  | cons x xs ih =>
    have hhead : ((passed ++ x :: xs).take passed.length).any (fun y ↦ name y == name x) =
        seen.contains (name x) := by
      rw [List.take_left, Bool.eq_iff_iff, List.contains_iff_mem, h, List.any_eq_true]
      simp
    have hmore : ∀ n, n ∈ name x :: seen ↔ n ∈ (passed ++ [x]).map name := fun n ↦ by
      simp [h, or_comm]
    have htail := ih (passed ++ [x]) hmore
    rw [List.length_append, List.length_singleton, List.append_assoc,
      List.singleton_append] at htail
    rw [repeated_go_cons, htail, List.zipIdx_cons, List.filter_cons, hhead]
    split <;> rfl

theorem repeated_eq_redeclared (name : α → String) (xs : List α) :
    repeated name xs = redeclared name xs :=
  repeated_go_eq [] xs fun _ ↦ Iff.rfl

theorem repeated_go_map {β : Type} (f : β → α) (seen : List String) (xs : List β) :
    repeated.go name seen (xs.map f) = (repeated.go (name ∘ f) seen xs).map f := by
  induction xs generalizing seen with
  | nil => rfl
  | cons x xs ih =>
    by_cases hseen : name (f x) ∈ seen <;> simp [repeated.go, hseen, ih]

end

/-! ## What the declarations of a unit give rise to -/

namespace MethodDecl

/-- One error for each parameter and each local variable with an earlier one of its name. -/
def repetitions (m : MethodDecl) : List Diagnostic :=
  ((redeclared VarDecl.name (m.params ++ m.varargs.toList)).map fun d ↦
      error d.pos (.duplicateParam d.name)) ++
    (redeclared VarDecl.name m.locals).map fun d ↦ error d.pos (.duplicateLocal d.name)

end MethodDecl

namespace Program

/-- One error for each declaration of the unit with an earlier one of its kind and name in the same
place. An import has the name that the table gives it. -/
def repetitions (p : Program) : List Diagnostic :=
  ((redeclared Prod.snd (p.imports.zip p.table.importNames)).map fun i ↦
      error i.1.pos (.duplicateImport i.2)) ++
    ((redeclared VarDecl.name p.decl.fields).map fun f ↦ error f.pos (.duplicateField f.name)) ++
    ((redeclared MethodDecl.name p.decl.methods).map fun m ↦
      error m.pos (.duplicateMethod m.name)) ++
    p.decl.methods.flatMap MethodDecl.repetitions

end Program

/-! ## Picking out the reports -/

namespace Diagnostic

variable {kind : Problem → Bool}

/-- Errors that are all of a kind. -/
theorem filter_map_eq_self {α : Type} {pos : α → Position} {problem : α → Problem}
    (h : ∀ x, kind (problem x) = true) (xs : List α) :
    (xs.map fun x ↦ error (pos x) (problem x)).filter (fun d ↦ kind d.problem) =
      xs.map fun x ↦ error (pos x) (problem x) :=
  List.filter_eq_self.mpr (List.forall_mem_map.mpr fun x _ ↦ h x)

/-- Errors of which none is of a kind. -/
theorem filter_map_eq_nil {α : Type} {pos : α → Position} {problem : α → Problem}
    (h : ∀ x, kind (problem x) = false) (xs : List α) :
    (xs.map fun x ↦ error (pos x) (problem x)).filter (fun d ↦ kind d.problem) = [] := by
  rw [List.filter_eq_nil_iff, List.forall_mem_map]
  exact fun x _ ↦ Bool.eq_false_iff.mp (h x)

theorem OfBody.filter_eq_nil {ds ws : List Diagnostic} (h : OfBody ds ws)
    (hkind : ∀ problem, kind problem = true → problem.isUniqueness = true) :
    ds.filter (fun d ↦ kind d.problem) = [] := by
  rw [List.filter_eq_nil_iff]
  intro d hd hd'
  exact Bool.eq_false_iff.mp (h.problem d hd) (hkind _ hd')

end Diagnostic

namespace Problem

theorem isUniqueness_of_isRepetition (problem : Problem) (h : problem.isRepetition = true) :
    problem.isUniqueness = true := by
  rw [isUniqueness, h, Bool.true_or]

theorem isUniqueness_of_isNameClash (problem : Problem) (h : problem.isNameClash = true) :
    problem.isUniqueness = true := by
  rw [isUniqueness, h, Bool.or_true]

end Problem

/-! ### Methods -/

theorem MethodDecl.filter_isRepetition (t : Table) (m : MethodDecl) :
    (m.problems t).filter (fun d ↦ d.problem.isRepetition) = m.repetitions := by
  have hshape := m.ofBody_shapeProblems.filter_eq_nil Problem.isUniqueness_of_isRepetition
  have hbody := (Scope.ofBody_bodyProblems ⟨t, m.signature⟩ m).filter_eq_nil
    Problem.isUniqueness_of_isRepetition
  rw [problems, declarationProblems, repetitions, List.filter_append, List.filter_append, hshape,
    hbody, List.filter_append, Diagnostic.filter_map_eq_self fun _ ↦ rfl,
    Diagnostic.filter_map_eq_self fun _ ↦ rfl, repeated_eq_redeclared, repeated_eq_redeclared,
    List.nil_append, List.append_nil]

theorem MethodDecl.filter_isNameClash (t : Table) (m : MethodDecl) :
    (m.problems t).filter (fun d ↦ d.problem.isNameClash) = [] := by
  have hshape := m.ofBody_shapeProblems.filter_eq_nil Problem.isUniqueness_of_isNameClash
  have hbody := (Scope.ofBody_bodyProblems ⟨t, m.signature⟩ m).filter_eq_nil
    Problem.isUniqueness_of_isNameClash
  rw [problems, declarationProblems, List.filter_append, List.filter_append, hshape, hbody,
    List.filter_append, Diagnostic.filter_map_eq_nil fun _ ↦ rfl,
    Diagnostic.filter_map_eq_nil fun _ ↦ rfl]
  rfl

namespace Program

/-- The names of the methods are compared in between the reports of their bodies. -/
theorem filter_methodProblems_perm (p : Program) (seen : List String) (ms : List MethodDecl) :
    ((methodProblems.go p seen ms).filter fun d ↦ d.problem.isRepetition).Perm
      (((repeated.go MethodDecl.name seen ms).map fun m ↦ error m.pos (.duplicateMethod m.name)) ++
        ms.flatMap MethodDecl.repetitions) := by
  induction ms generalizing seen with
  | nil => exact .refl _
  | cons m ms ih =>
    have hname : (require (!seen.contains m.name) m.pos (.duplicateMethod m.name)).filter
        (fun d ↦ d.problem.isRepetition) =
          (if seen.contains m.name then [m] else []).map fun m ↦
            error m.pos (.duplicateMethod m.name) := by
      cases seen.contains m.name <;> rfl
    rw [methodProblems.go, List.filter_append, List.filter_append, hname, m.filter_isRepetition,
      repeated_go_cons, List.map_append, List.flatMap_cons, List.append_assoc, List.append_assoc]
    refine .append_left _ ?_
    exact ((ih (m.name :: seen)).append_left _).trans (List.perm_append_comm_assoc _ _ _)

theorem filter_methodProblems_isNameClash (p : Program) (seen : List String)
    (ms : List MethodDecl) :
    (methodProblems.go p seen ms).filter (fun d ↦ d.problem.isNameClash) = [] := by
  induction ms generalizing seen with
  | nil => rfl
  | cons m ms ih =>
    have hname : (require (!seen.contains m.name) m.pos (.duplicateMethod m.name)).filter
        (fun d ↦ d.problem.isNameClash) = [] := by
      cases seen.contains m.name <;> rfl
    rw [methodProblems.go, List.filter_append, List.filter_append, hname, m.filter_isNameClash, ih]
    rfl

/-! ### Imports -/

variable {p : Program}

theorem filter_importProblems (h : p.DotFree) :
    p.importProblems.filter (fun d ↦ d.problem.isRepetition) =
      (redeclared Prod.snd (p.imports.zip p.table.importNames)).map fun i ↦
        error i.1.pos (.duplicateImport i.2) := by
  have hclash : (require (!(p.imports.map Import.name).contains p.decl.name) p.decl.pos
      (.classNamedLikeImport p.decl.name)).filter (fun d ↦ d.problem.isRepetition) = [] := by
    cases (p.imports.map Import.name).contains p.decl.name <;> rfl
  have hpairs : p.imports.zip p.table.importNames = p.imports.map fun i ↦ (i, i.name) := by
    rw [importNames_eq h, List.zip, List.zipWith_map_right, List.zipWith_self]
  rw [importProblems, List.filter_append, hclash, List.append_nil,
    Diagnostic.filter_map_eq_self fun _ ↦ rfl, hpairs, ← repeated_eq_redeclared, repeated, repeated,
    repeated_go_map, List.map_map]
  rfl

theorem filter_importProblems_isNameClash (h : p.DotFree) :
    p.importProblems.filter (fun d ↦ d.problem.isNameClash) =
      if p.table.isImported p.decl.name then
        [error p.decl.pos (.classNamedLikeImport p.decl.name)]
      else [] := by
  rw [importProblems, List.filter_append, Diagnostic.filter_map_eq_nil fun _ ↦ rfl,
    Table.isImported, importNames_eq h]
  cases (p.imports.map Import.name).contains p.decl.name <;> rfl

/-! ## The unit -/

/-- Uniqueness is reported exactly. There is one error for each declaration with an earlier one of
its kind and name in the same place, where it stands, and no other of these kinds. That the class is
named like an import is reported once if the name is one that the table knows as imported, and
otherwise not at all. -/
theorem check_uniqueness (h : p.DotFree) :
    (p.check.filter fun d ↦ d.problem.isRepetition).Perm p.repetitions ∧
      p.check.filter (fun d ↦ d.problem.isNameClash) =
        if p.table.isImported p.decl.name then
          [error p.decl.pos (.classNamedLikeImport p.decl.name)]
        else [] := by
  have hsort : p.check.Perm (p.importProblems ++ p.fieldProblems ++ p.methodProblems) :=
    List.mergeSort_perm _ _
  constructor
  · refine (hsort.filter _).trans ?_
    rw [List.filter_append, List.filter_append, filter_importProblems h, fieldProblems,
      Diagnostic.filter_map_eq_self fun _ ↦ rfl, repeated_eq_redeclared, repetitions,
      List.append_assoc (_ ++ _)]
    refine .append_left _ ?_
    rw [← repeated_eq_redeclared MethodDecl.name]
    exact filter_methodProblems_perm p [] p.decl.methods
  · have hclash := hsort.filter fun d ↦ d.problem.isNameClash
    rw [List.filter_append, List.filter_append, filter_importProblems_isNameClash h, fieldProblems,
      Diagnostic.filter_map_eq_nil fun _ ↦ rfl, methodProblems, filter_methodProblems_isNameClash,
      List.append_nil, List.append_nil] at hclash
    by_cases himported : p.table.isImported p.decl.name = true
    · rw [if_pos himported] at hclash ⊢
      exact List.perm_singleton.mp hclash
    · rw [if_neg himported] at hclash ⊢
      exact List.perm_nil.mp hclash

/-- A unit named like two of its imports, in which every kind of name is declared twice and one
three times. -/
def echo : Program where
  imports := [⟨["io"], ⟨1, 1⟩⟩, ⟨["lib", "io"], ⟨2, 1⟩⟩, ⟨["lib"], ⟨3, 1⟩⟩]
  decl := {
    name := "io"
    superclass := none
    fields := [⟨.int, "x", ⟨5, 3⟩⟩, ⟨.boolean, "x", ⟨6, 3⟩⟩]
    methods := [
      { name := "say"
        isPublic := true
        isStatic := false
        returnType := .void
        params := [⟨.int, "n", ⟨7, 9⟩⟩]
        varargs := some ⟨.int, "n", ⟨7, 16⟩⟩
        locals := [⟨.int, "x", ⟨8, 5⟩⟩, ⟨.int, "x", ⟨9, 5⟩⟩, ⟨.int, "n", ⟨10, 5⟩⟩,
          ⟨.boolean, "x", ⟨11, 5⟩⟩]
        body := [.assign ⟨12, 5⟩ "y" (.lit ⟨12, 9⟩ (.int 1))]
        pos := ⟨7, 3⟩ },
      { name := "say"
        isPublic := true
        isStatic := false
        returnType := .void
        params := []
        varargs := none
        locals := [⟨.int, "x", ⟨15, 5⟩⟩]
        body := []
        pos := ⟨14, 3⟩ }]
    pos := ⟨4, 1⟩ }

/-- The local `x` is reported where it is declared for the second and for the third time. The second
method may have a local of this name as well. -/
theorem echo_check_uniqueness : echo.DotFree ∧
    (echo.check.filter fun d ↦ d.problem.isRepetition).Perm
      [error ⟨2, 1⟩ (.duplicateImport "io"), error ⟨6, 3⟩ (.duplicateField "x"),
        error ⟨14, 3⟩ (.duplicateMethod "say"), error ⟨7, 16⟩ (.duplicateParam "n"),
        error ⟨9, 5⟩ (.duplicateLocal "x"), error ⟨11, 5⟩ (.duplicateLocal "x")] ∧
    echo.check.filter (fun d ↦ d.problem.isNameClash) =
      [error ⟨4, 1⟩ (.classNamedLikeImport "io")] := by
  have hdots : echo.DotFree := by decide
  have himported : echo.table.isImported "io" = true := by decide
  obtain ⟨hrepetitions, hclash⟩ := check_uniqueness hdots
  exact ⟨hdots, hrepetitions, hclash.trans (if_pos himported)⟩

end Program

end Tricode
