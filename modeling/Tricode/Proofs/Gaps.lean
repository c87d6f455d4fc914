import Mathlib.Data.List.Forall2
import Tricode.Proofs.Acceptance

/-!
# Names that mean nothing

Take an accepted tree and put a name that means nothing in the place of some of its parts,
which are then gaps. The type of such a name is unknown, and so may be the types of the expressions
around it; but wherever a known type met a rule, an unknown type does.

So a tree with gaps differs from the tree in two ways that checking can notice: a type may have
become unknown, and the faults are those of the gaps. `Scope.Suppresses` says this of one
expression. It passes from the parts of an expression to the whole, with one lemma for each form.
-/

namespace Tricode

open Diagnostic (Clean error require)

/-! ## Types that may have become unknown -/

namespace Ty

/-- `t'` is `t`, or it is unknown. -/
def BlursTo (t t' : Ty) : Prop := t' = t ∨ t'.isAny = true

namespace BlursTo

variable {t t' : Ty}

theorem accepts (h : t.BlursTo t') {expected : Ty} (haccepts : t.accepts expected = true) :
    t'.accepts expected = true := by
  rcases h with rfl | hany
  · exact haccepts
  · rw [Ty.accepts, hany, Bool.true_or]

theorem assignable (h : t.BlursTo t') {env : ClassEnv} {dest : Ty}
    (hassignable : Ty.assignable env dest t = true) : Ty.assignable env dest t' = true := by
  rcases h with rfl | hany
  · exact hassignable
  · simp [Ty.assignable, hany]

theorem isAny_or_isArray (h : t.BlursTo t') (hrule : t.isAny = true ∨ t.isArray = true) :
    (t'.isAny || t'.isArray) = true := by
  rcases h with rfl | hany
  · rwa [Bool.or_eq_true]
  · rw [hany, Bool.true_or]

theorem indexed (h : t.BlursTo t') : t.indexed.BlursTo t'.indexed := by
  rcases h with rfl | hany
  · exact .inl rfl
  · refine .inr ?_
    rw [Ty.indexed, hany]
    rfl

end BlursTo

/-- The element types of an accepted array literal agree, so any of them that is still known is
the common one. -/
theorem common_blursTo {types types' : List Ty} (h : List.Forall₂ BlursTo types types')
    (hrule : ∀ elem, common types = some elem → ∀ t ∈ types, t.accepts elem = true) {elem : Ty}
    (helem : common types' = some elem) :
    common types = some elem ∧ ∀ t ∈ types', t.accepts elem = true := by
  have hmem := List.mem_of_find?_eq_some helem
  have hknown : elem.isAny = false := by simpa using List.find?_some helem
  obtain ⟨i, hi, rfl⟩ := List.mem_iff_getElem.mp hmem
  have hi' : i < types.length := h.length_eq ▸ hi
  -- The type at this place has not become unknown, so it was there before.
  have hsame : types'[i] = types[i] := by
    rcases h.get hi' hi with heq | hany
    · exact heq
    · exact absurd hany (by simp [hknown])
  rw [hsame] at hknown
  have hcommon := common_of_mem hrule (List.getElem_mem hi') hknown
  refine ⟨hsame ▸ hcommon, fun t ht ↦ ?_⟩
  obtain ⟨j, hj, rfl⟩ := List.mem_iff_getElem.mp ht
  have hj' : j < types.length := h.length_eq ▸ hj
  rw [hsame]
  exact (h.get hj' hj).accepts (hrule _ hcommon _ (List.getElem_mem hj'))

theorem ofElements_blursTo {types types' : List Ty} (h : List.Forall₂ BlursTo types types')
    (hrule : ∀ elem, common types = some elem → ∀ t ∈ types, t.accepts elem = true) :
    (ofElements types).BlursTo (ofElements types') := by
  unfold ofElements
  have hempty : types'.isEmpty = types.isEmpty := by
    rw [Bool.eq_iff_iff, List.isEmpty_iff_length_eq_zero, List.isEmpty_iff_length_eq_zero,
      h.length_eq]
  rw [hempty]
  split
  · exact .inl rfl
  · cases hcommon : common types' with
    | none => exact .inr rfl
    | some elem =>
      obtain ⟨hsame, haccepts⟩ := common_blursTo h hrule hcommon
      rw [hsame]
      refine .inl ?_
      simp [List.all_eq_true.mpr haccepts, List.all_eq_true.mpr (hrule elem hsame)]

end Ty

/-! ## Trees with gaps -/

/-- Two lists go together member by member, and what each pair has is collected in order. -/
inductive Collects {α γ : Type} (R : α → α → List γ → Prop) : List α → List α → List γ → Prop
  | nil : Collects R [] [] []
  | cons {a b : α} {as bs : List α} {r rs : List γ} : R a b r → Collects R as bs rs →
    Collects R (a :: as) (b :: bs) (r ++ rs)

namespace Collects

variable {α γ δ : Type} {R S : α → α → List γ → Prop} {as bs : List α} {rs : List γ}

theorem imp_of_mem (h : Collects R as bs rs) (himp : ∀ a ∈ as, ∀ b r, R a b r → S a b r) :
    Collects S as bs rs := by
  induction h with
  | nil => exact .nil
  | cons hhead _ ih =>
    obtain ⟨hfirst, hrest⟩ := List.forall_mem_cons.mp himp
    exact .cons (hfirst _ _ hhead) (ih hrest)

theorem refl (h : ∀ a ∈ as, R a a []) : Collects R as as [] := by
  induction as with
  | nil => exact .nil
  | cons a as ih =>
    obtain ⟨hhead, htail⟩ := List.forall_mem_cons.mp h
    exact .cons hhead (ih htail)

theorem forall₂ (h : Collects R as bs rs) {Q : α → α → Prop}
    (himp : ∀ a b r, R a b r → Q a b) : List.Forall₂ Q as bs := by
  induction h with
  | nil => exact .nil
  | cons hhead _ ih => exact .cons (himp _ _ _ hhead) ih

theorem flatMap_eq (h : Collects R as bs rs) {f : α → List δ} {g : γ → δ}
    (himp : ∀ a b r, R a b r → f b = r.map g) : bs.flatMap f = rs.map g := by
  induction h with
  | nil => rfl
  | cons hhead _ ih => rw [List.flatMap_cons, himp _ _ _ hhead, ih, List.map_append]

end Collects

/-- A place where a name that means nothing stands for an expression. -/
structure Gap where
  pos : Position
  name : String
  deriving DecidableEq, Repr

/-- What is reported of a gap. -/
def Gap.diagnostic (g : Gap) : Diagnostic := error g.pos (.undeclaredVariable g.name)

namespace Scope

/-- The name is neither a local variable nor a parameter, a field or an imported class. -/
def Undeclared (s : Scope) (name : String) : Prop :=
  s.method.localVar? name = none ∧ s.method.param? name = none ∧ s.table.field? name = none ∧
    s.table.isImported name = false

/-- The second expression is the first with names that mean nothing in the place of some
subexpressions. -/
inductive Gapped (s : Scope) : Expr → Expr → List Gap → Prop
  | gap (e : Expr) {name : String} : s.Undeclared name →
    Gapped s e (.var e.pos name) [⟨e.pos, name⟩]
  | lit (pos : Position) (value : Literal) : Gapped s (.lit pos value) (.lit pos value) []
  | this (pos : Position) : Gapped s (.this pos) (.this pos) []
  | var (pos : Position) (name : String) : Gapped s (.var pos name) (.var pos name) []
  | not (pos : Position) {e e' : Expr} {gs : List Gap} : Gapped s e e' gs →
    Gapped s (.not pos e) (.not pos e') gs
  | binary (pos : Position) (op : BinOp) {l l' r r' : Expr} {gs gs' : List Gap} :
    Gapped s l l' gs → Gapped s r r' gs' →
      Gapped s (.binary pos op l r) (.binary pos op l' r') (gs ++ gs')
  | index (pos : Position) {base base' idx idx' : Expr} {gs gs' : List Gap} :
    Gapped s base base' gs → Gapped s idx idx' gs' →
      Gapped s (.index pos base idx) (.index pos base' idx') (gs ++ gs')
  | array (pos : Position) {es es' : List Expr} {gs : List Gap} :
    Collects (Gapped s) es es' gs → Gapped s (.array pos es) (.array pos es') gs
  | newArray (pos : Position) (elem : TypeExpr) {size size' : Expr} {gs : List Gap} :
    Gapped s size size' gs → Gapped s (.newArray pos elem size) (.newArray pos elem size') gs
  | newObject (pos : Position) (className : String) :
    Gapped s (.newObject pos className) (.newObject pos className) []
  | length (pos : Position) {base base' : Expr} {gs : List Gap} : Gapped s base base' gs →
    Gapped s (.length pos base) (.length pos base') gs
  | call (pos : Position) (method : String) {args args' : List Expr} {gs : List Gap} :
    Collects (Gapped s) args args' gs →
      Gapped s (.call pos method args) (.call pos method args') gs
  | callOn (pos : Position) (method : String) {receiver receiver' : Expr}
    {args args' : List Expr} {gs gs' : List Gap} : Gapped s receiver receiver' gs →
      Collects (Gapped s) args args' gs' →
      Gapped s (.callOn pos receiver method args) (.callOn pos receiver' method args') (gs ++ gs')

/-- The same for statements. -/
inductive GappedStmt (s : Scope) : Stmt → Stmt → List Gap → Prop
  | block (pos : Position) {stmts stmts' : List Stmt} {gs : List Gap} :
    Collects (GappedStmt s) stmts stmts' gs →
      GappedStmt s (.block pos stmts) (.block pos stmts') gs
  | ifElse (pos : Position) {cond cond' : Expr} {thenBranch thenBranch' : Stmt}
    {elseBranch elseBranch' : Stmt} {gs gs₁ gs₂ : List Gap} : s.Gapped cond cond' gs →
      GappedStmt s thenBranch thenBranch' gs₁ → GappedStmt s elseBranch elseBranch' gs₂ →
      GappedStmt s (.ifElse pos cond thenBranch elseBranch)
        (.ifElse pos cond' thenBranch' elseBranch') (gs ++ gs₁ ++ gs₂)
  | whileLoop (pos : Position) {cond cond' : Expr} {body body' : Stmt} {gs gs' : List Gap} :
    s.Gapped cond cond' gs → GappedStmt s body body' gs' →
      GappedStmt s (.whileLoop pos cond body) (.whileLoop pos cond' body') (gs ++ gs')
  | eval (pos : Position) {e e' : Expr} {gs : List Gap} : s.Gapped e e' gs →
    GappedStmt s (.eval pos e) (.eval pos e') gs
  | assign (pos : Position) (target : String) {value value' : Expr} {gs : List Gap} :
    s.Gapped value value' gs →
      GappedStmt s (.assign pos target value) (.assign pos target value') gs
  | store (pos : Position) (target : String) {index index' value value' : Expr}
    {gs gs' : List Gap} : s.Gapped index index' gs → s.Gapped value value' gs' →
      GappedStmt s (.store pos target index value) (.store pos target index' value') (gs ++ gs')
  | retVoid (pos : Position) : GappedStmt s (.ret pos none) (.ret pos none) []
  | ret (pos : Position) {value value' : Expr} {gs : List Gap} : s.Gapped value value' gs →
    GappedStmt s (.ret pos (some value)) (.ret pos (some value')) gs

end Scope

/-- The second method is the first with gaps in its body. -/
def MethodDecl.Gapped (t : Table) (m m' : MethodDecl) (gaps : List Gap) : Prop :=
  ∃ body, m' = { m with body := body } ∧
    Collects (Scope.GappedStmt ⟨t, m.signature⟩) m.body body gaps

/-- The second program is the first with gaps in the bodies of its methods. -/
def Program.Gapped (p p' : Program) (gaps : List Gap) : Prop :=
  ∃ methods, p' = { p with decl := { p.decl with methods := methods } } ∧
    Collects (MethodDecl.Gapped p.table) p.decl.methods methods gaps

/-! ## Expressions -/

namespace Scope

variable {s : Scope} {pos : Position} {e e' : Expr} {gs : List Gap}

theorem Undeclared.lookup {name : String} (h : s.Undeclared name) : s.lookup name = .unbound := by
  obtain ⟨hlocal, hparam, hfield, himported⟩ := h
  simp [Scope.lookup, findVariable, hlocal, hparam, hfield, himported]

/-- To what is around it `e'` looks like `e`, but for a type that may be unknown, and its only
faults are the gaps. -/
structure Suppresses (s : Scope) (e e' : Expr) (gaps : List Gap) : Prop where
  blursTo : (s.typeOf e).BlursTo (s.typeOf e')
  problems : s.problems e' = gaps.map Gap.diagnostic

theorem suppresses_gap {name : String} (h : s.Undeclared name) (e : Expr) :
    s.Suppresses e (.var e.pos name) [⟨e.pos, name⟩] := by
  refine ⟨.inr ?_, ?_⟩
  · show (s.variableTy name).isAny = true
    rw [variableTy, h.lookup]
    rfl
  · show s.variableProblems e.pos name = _
    rw [variableProblems, h.lookup]
    rfl

/-- An expression without parts stays what it is. -/
theorem suppresses_refl (h : s.problems e = []) : s.Suppresses e e [] := ⟨.inl rfl, h⟩

theorem problems_var_of_accepts {name : String} (h : s.Accepts (.var pos name)) :
    s.problems (.var pos name) = [] := by
  rw [accepts_var] at h
  show s.variableProblems pos name = []
  unfold variableProblems at h ⊢
  split at h
  · rw [Diagnostic.clean_require] at h
    rw [h, Diagnostic.require_true]
  · rfl
  · rfl
  · exact absurd h Diagnostic.not_clean_error_cons

namespace Suppresses

/-- A rule that still holds adds nothing to the gaps of the part it is about. -/
theorem problems_append_require (he : s.Suppresses e e' gs) {holds : Bool} (hrule : holds = true)
    (pos : Position) (problem : Problem) :
    s.problems e' ++ require holds pos problem = gs.map Gap.diagnostic := by
  rw [hrule, Diagnostic.require_true, List.append_nil]
  exact he.problems

theorem not (h : s.Accepts (.not pos e)) (he : s.Suppresses e e' gs) :
    s.Suppresses (.not pos e) (.not pos e') gs :=
  ⟨.inl rfl, he.problems_append_require (he.blursTo.accepts (accepts_not.mp h).2) _ _⟩

theorem binary {op : BinOp} {l l' r r' : Expr} {gs' : List Gap}
    (h : s.Accepts (.binary pos op l r)) (hl : s.Suppresses l l' gs)
    (hr : s.Suppresses r r' gs') :
    s.Suppresses (.binary pos op l r) (.binary pos op l' r') (gs ++ gs') := by
  obtain ⟨-, -, hleft, hright⟩ := accepts_binary.mp h
  have hleft' := hl.blursTo.accepts hleft
  have hright' := hr.blursTo.accepts hright
  refine ⟨.inl ?_, ?_⟩
  · rw [Scope.typeOf, Scope.typeOf, hleft, hright, hleft', hright']
  · show s.problems l' ++ s.problems r' ++ require _ pos _ = _
    rw [hleft', hright', Bool.and_true, Diagnostic.require_true, List.append_nil, hl.problems,
      hr.problems, List.map_append]

theorem index {base base' idx idx' : Expr} {gs' : List Gap}
    (h : s.Accepts (.index pos base idx)) (hb : s.Suppresses base base' gs)
    (hi : s.Suppresses idx idx' gs') :
    s.Suppresses (.index pos base idx) (.index pos base' idx') (gs ++ gs') := by
  obtain ⟨-, -, hint, harray⟩ := accepts_index.mp h
  refine ⟨hb.blursTo.indexed, ?_⟩
  show s.problems base' ++ s.problems idx' ++ require _ idx'.pos _ ++ require _ pos _ = _
  rw [hi.blursTo.accepts hint, hb.blursTo.isAny_or_isArray harray,
    Diagnostic.require_true, Diagnostic.require_true, List.append_nil, List.append_nil,
    hb.problems, hi.problems, List.map_append]

theorem newArray {elem : TypeExpr} {size size' : Expr}
    (h : s.Accepts (.newArray pos elem size)) (hs : s.Suppresses size size' gs) :
    s.Suppresses (.newArray pos elem size) (.newArray pos elem size') gs :=
  ⟨.inl rfl, hs.problems_append_require (hs.blursTo.accepts (accepts_newArray.mp h).2) _ _⟩

theorem length {base base' : Expr} (h : s.Accepts (.length pos base))
    (hb : s.Suppresses base base' gs) :
    s.Suppresses (.length pos base) (.length pos base') gs :=
  ⟨.inl rfl,
    hb.problems_append_require (hb.blursTo.isAny_or_isArray (accepts_length.mp h).2) _ _⟩

end Suppresses

/-! ### Lists of expressions -/

section

variable {es es' : List Expr} (hes : Collects s.Suppresses es es' gs)
include hes

theorem typesOf_blursTo : List.Forall₂ Ty.BlursTo (s.typesOf es) (s.typesOf es') := by
  rw [typesOf_eq_map, typesOf_eq_map, List.forall₂_map_left_iff, List.forall₂_map_right_iff]
  exact hes.forall₂ fun e e' gs h ↦ h.blursTo

theorem arguments_blursTo :
    List.Forall₂ (fun a a' ↦ a.ty.BlursTo a'.ty) (s.arguments es) (s.arguments es') := by
  rw [arguments, arguments, List.forall₂_map_left_iff, List.forall₂_map_right_iff]
  exact hes.forall₂ fun e e' gs h ↦ h.blursTo

theorem problemsEach_of_suppresses : (s.problemsEach es').flatten = gs.map Gap.diagnostic := by
  rw [problemsEach_eq_map, ← List.flatMap_def]
  exact hes.flatMap_eq fun e e' gs h ↦ h.problems

theorem Suppresses.array (h : s.Accepts (.array pos es)) :
    s.Suppresses (.array pos es) (.array pos es') gs := by
  have htypes := typesOf_blursTo hes
  have hrule := accepts_of_common h
  refine ⟨Ty.ofElements_blursTo htypes hrule, ?_⟩
  show s.elementProblems es' (s.problemsEach es') = _
  rw [← problemsEach_of_suppresses hes, elementProblems, problemsEach_eq_map,
    List.zipWith_map_left, List.zipWith_self]
  congr 1
  -- What remains is that no element adds a fault of its own to those it has.
  refine List.map_congr_left fun e' he' ↦ ?_
  cases hcommon : Ty.common (s.typesOf es') with
  | none => exact List.append_nil _
  | some elem =>
    have haccepts := (Ty.common_blursTo htypes hrule hcommon).2
    rw [typesOf_eq_map, List.forall_mem_map] at haccepts
    simp [haccepts e' he']

end

/-! ### Calls -/

/-- A rule for numbered members that a whole list meets is met by the list that goes with it. -/
theorem flatMap_zipIdx_eq_nil {α : Type} {R : α → α → Prop} {as bs : List α}
    {rule : α × Nat → List Diagnostic} (h : List.Forall₂ R as bs)
    (hrule : ∀ a b i, R a b → Clean (rule (a, i)) → rule (b, i) = []) {k : Nat}
    (hclean : Clean ((as.zipIdx k).flatMap rule)) : (bs.zipIdx k).flatMap rule = [] := by
  induction h generalizing k with
  | nil => rfl
  | cons hhead _ ih =>
    rw [List.zipIdx_cons, List.flatMap_cons, Diagnostic.clean_append] at hclean
    rw [List.zipIdx_cons, List.flatMap_cons, hrule _ _ _ hhead hclean.1, ih hclean.2]
    rfl

theorem forall₂_zip {α β : Type} {R : α → α → Prop} {as bs : List α} (h : List.Forall₂ R as bs)
    (cs : List β) : List.Forall₂ (fun x y ↦ R x.1 y.1 ∧ y.2 = x.2) (as.zip cs) (bs.zip cs) := by
  induction h generalizing cs with
  | nil => exact .nil
  | cons hhead _ ih =>
    cases cs with
    | nil => exact .nil
    | cons c cs => exact .cons ⟨hhead, rfl⟩ (ih cs)

section

variable {args args' : List Argument} {sig : Signature}
  (hargs : List.Forall₂ (fun a a' ↦ a.ty.BlursTo a'.ty) args args')
include hargs

theorem fixedArgumentProblems_blursTo (h : Clean (s.fixedArgumentProblems sig args)) :
    s.fixedArgumentProblems sig args' = [] := by
  refine flatMap_zipIdx_eq_nil (forall₂_zip hargs _) ?_ h
  rintro ⟨arg, param⟩ ⟨arg', param'⟩ i ⟨harg, rfl⟩ hclean
  have hrule := harg.assignable (Diagnostic.clean_require.mp hclean)
  simp only [argumentProblem, hrule, Diagnostic.require_true]

theorem trailingArgumentProblems_blursTo {slot : Symbol}
    (h : Clean (trailingArgumentProblems sig slot args)) :
    trailingArgumentProblems sig slot args' = [] := by
  have hrule : ∀ {expected : Ty} {number : Nat} {a a' : Argument}, a.ty.BlursTo a'.ty →
      Clean (argumentProblem sig number expected a (a.ty.accepts expected)) →
      argumentProblem sig number expected a' (a'.ty.accepts expected) = [] := by
    intro expected number a a' ha hclean
    rw [argumentProblem, ha.accepts (Diagnostic.clean_require.mp hclean)]
    rfl
  -- A single argument is held against the whole array, several against its elements.
  cases hargs with
  | nil => rfl
  | cons hfirst hrest =>
    cases hrest with
    | nil => exact hrule hfirst h
    | cons hsecond hrest =>
      refine flatMap_zipIdx_eq_nil (R := fun a a' ↦ a.ty.BlursTo a'.ty)
        (.cons hfirst (.cons hsecond hrest)) ?_ h
      exact fun a a' i ha hclean ↦ hrule ha hclean

theorem argumentProblems_blursTo (h : Clean (s.argumentProblems sig pos args)) :
    s.argumentProblems sig pos args' = [] := by
  unfold argumentProblems at h ⊢
  rw [hargs.length_eq] at h
  split at h
  · rename_i hcount
    rw [Diagnostic.clean_append] at h
    rw [if_pos hcount, fixedArgumentProblems_blursTo hargs h.1]
    cases hslot : sig.varargsSlot with
    | none => rfl
    | some slot =>
      rw [hslot] at h
      exact trailingArgumentProblems_blursTo (List.forall₂_drop _ hargs) h.2
  · exact absurd h Diagnostic.not_clean_error_cons

/-- Arguments that may have become unknown add nothing to their own faults. -/
theorem ownCallProblems_blursTo {implicitThis : Bool} {method : String}
    (h : Clean (s.ownCallProblems pos implicitThis method args [])) (faults : List Diagnostic) :
    s.ownCallProblems pos implicitThis method args' faults = faults := by
  unfold ownCallProblems at h ⊢
  cases hmethod : s.table.method? method with
  | none =>
    simp only [hmethod, Diagnostic.clean_append, Diagnostic.clean_require] at h
    simp only [h.2, Diagnostic.require_true, List.append_nil]
  | some sig =>
    simp only [hmethod, Diagnostic.clean_append, Diagnostic.clean_require] at h
    simp only [h.1.1, Diagnostic.require_true, List.nil_append,
      argumentProblems_blursTo hargs h.2, List.append_nil]

end

theorem Suppresses.call {es es' : List Expr} {method : String}
    (hes : Collects s.Suppresses es es' gs) (h : s.Accepts (.call pos method es)) :
    s.Suppresses (.call pos method es) (.call pos method es') gs := by
  refine ⟨.inl rfl, ?_⟩
  show s.ownCallProblems pos true method _ (s.problemsEach es').flatten = _
  rw [ownCallProblems_blursTo (arguments_blursTo hes) (accepts_call.mp h).2]
  exact problemsEach_of_suppresses hes

theorem responder_of_isAny {t : Table} {ty : Ty} (h : ty.isAny = true) :
    t.responder ty = .foreign := if_pos h

theorem Suppresses.callOn {receiver receiver' : Expr} {es es' : List Expr} {method : String}
    {gs' : List Gap} (hr : s.Suppresses receiver receiver' gs)
    (hes : Collects s.Suppresses es es' gs') (h : s.Accepts (.callOn pos receiver method es)) :
    s.Suppresses (.callOn pos receiver method es) (.callOn pos receiver' method es')
      (gs ++ gs') := by
  obtain ⟨-, -, hsomebody, hown⟩ := accepts_callOn.mp h
  have hfaults := problemsEach_of_suppresses hes
  rcases hr.blursTo with hsame | hany
  · refine ⟨.inl ?_, ?_⟩
    · rw [Scope.typeOf, Scope.typeOf, hsame]
    · rw [Scope.problems, hr.problems, hfaults, hsame, List.map_append]
      cases hresponder : s.table.responder (s.typeOf receiver) with
      | own =>
        exact congrArg (gs.map Gap.diagnostic ++ ·)
          (ownCallProblems_blursTo (arguments_blursTo hes) (hown hresponder) _)
      | foreign => rfl
      | nobody => exact absurd hresponder hsomebody
  · -- Nothing is asked of a call on what is unknown.
    have hforeign := responder_of_isAny (t := s.table) hany
    refine ⟨.inr ?_, ?_⟩
    · rw [Scope.typeOf, hforeign]
      rfl
    · rw [Scope.problems, hr.problems, hforeign, List.map_append, hfaults]

/-- Gaps in an accepted expression are its only faults. -/
theorem suppresses_of_gapped :
    s.Accepts e → ∀ {e' gs}, s.Gapped e e' gs → s.Suppresses e e' gs := by
  have heach : ∀ {es es' : List Expr} {gs : List Gap},
      (∀ e ∈ es, s.Accepts e → ∀ {e' gs}, s.Gapped e e' gs → s.Suppresses e e' gs) →
      (∀ e ∈ es, s.Accepts e) → Collects s.Gapped es es' gs → Collects s.Suppresses es es' gs :=
    fun ih haccepts hes ↦ hes.imp_of_mem fun e he _ _ hgapped ↦ ih e he (haccepts e he) hgapped
  -- Each form is the gap itself, or has gaps in its parts. Then the types of the parts are at most
  -- blurred, and no rule complains of that.
  induction e using Expr.memberInduct with
  | lit pos value =>
    intro h e' gs hg
    cases hg with
    | gap _ hname => exact suppresses_gap hname _
    | lit => exact suppresses_refl rfl
  | this pos =>
    intro h e' gs hg
    cases hg with
    | gap _ hname => exact suppresses_gap hname _
    | this =>
      refine suppresses_refl ?_
      show require _ pos _ = []
      rw [accepts_this.mp h]
      rfl
  | var pos name =>
    intro h e' gs hg
    cases hg with
    | gap _ hname => exact suppresses_gap hname _
    | var => exact suppresses_refl (problems_var_of_accepts h)
  | not pos operand ih =>
    intro h e' gs hg
    cases hg with
    | gap _ hname => exact suppresses_gap hname _
    | not _ he => exact .not h (ih (accepts_not.mp h).1 he)
  | binary pos op lhs rhs ihl ihr =>
    intro h e' gs hg
    obtain ⟨hl, hr, -⟩ := accepts_binary.mp h
    cases hg with
    | gap _ hname => exact suppresses_gap hname _
    | binary _ _ hgl hgr => exact .binary h (ihl hl hgl) (ihr hr hgr)
  | index pos base idx ihb ihi =>
    intro h e' gs hg
    obtain ⟨hb, hi, -⟩ := accepts_index.mp h
    cases hg with
    | gap _ hname => exact suppresses_gap hname _
    | index _ hgb hgi => exact .index h (ihb hb hgb) (ihi hi hgi)
  | array pos elements ih =>
    intro h e' gs hg
    cases hg with
    | gap _ hname => exact suppresses_gap hname _
    | array _ hes => exact .array (heach ih (accepts_array.mp h).1 hes) h
  | newArray pos elem size ih =>
    intro h e' gs hg
    cases hg with
    | gap _ hname => exact suppresses_gap hname _
    | newArray _ _ hs => exact .newArray h (ih (accepts_newArray.mp h).1 hs)
  | newObject pos className =>
    intro h e' gs hg
    cases hg with
    | gap _ hname => exact suppresses_gap hname _
    | newObject => exact suppresses_refl rfl
  | length pos base ih =>
    intro h e' gs hg
    cases hg with
    | gap _ hname => exact suppresses_gap hname _
    | length _ hb => exact .length h (ih (accepts_length.mp h).1 hb)
  | call pos method args ih =>
    intro h e' gs hg
    cases hg with
    | gap _ hname => exact suppresses_gap hname _
    | call _ _ hes => exact .call (heach ih (accepts_call.mp h).1 hes) h
  | callOn pos receiver method args ihr iha =>
    intro h e' gs hg
    obtain ⟨hr, ha, -⟩ := accepts_callOn.mp h
    cases hg with
    | gap _ hname => exact suppresses_gap hname _
    | callOn _ _ hgr hes => exact .callOn (ihr hr hgr) (heach iha ha hes) h

/-- An expression is itself without gaps. -/
theorem gapped_refl (s : Scope) (e : Expr) : s.Gapped e e [] := by
  induction e using Expr.memberInduct with
  | lit pos value => exact .lit pos value
  | this pos => exact .this pos
  | var pos name => exact .var pos name
  | not pos operand ih => exact .not pos ih
  | binary pos op lhs rhs ihl ihr => exact .binary pos op ihl ihr
  | index pos base idx ihb ihi => exact .index pos ihb ihi
  | array pos elements ih => exact .array pos (.refl ih)
  | newArray pos elem size ih => exact .newArray pos elem ih
  | newObject pos className => exact .newObject pos className
  | length pos base ih => exact .length pos ih
  | call pos method args ih => exact .call pos method (.refl ih)
  | callOn pos receiver method args ihr iha => exact .callOn pos method ihr (.refl iha)

end Scope

end Tricode
