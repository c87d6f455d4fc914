import Mathlib.Data.List.Forall2
import Mathlib.Order.Lattice.Nat
import Tricode.Compile
import Tricode.Proofs.Mentions

/-!
# Rewritten trees have nothing new

Folding and propagating constants put literals in the place of other expressions and drop branches.
They never name a type that was not there before and never make a list longer. What they mention is
what the tree mentioned, in the same order, less what they dropped. A condition on the names or the
lists of a unit therefore carries over to the tree that is lowered, and so does a bound on how often
a name is used.

A mention depends on the position it stands in. So that what holds of an expression as a value
holds of it as a receiver and as a statement, all three are compared.
-/

namespace Tricode

theorem append_subset_append {α : Type} {as as' bs bs' : List α} (ha : as' ⊆ as) (hb : bs' ⊆ bs) :
    as' ++ bs' ⊆ as ++ bs :=
  List.append_subset.mpr ⟨List.subset_append_of_subset_left _ ha,
    List.subset_append_of_subset_right _ hb⟩

/-! ## Expressions -/

namespace Expr

/-- Whatever type is named in `e'` is so in `e`, the mentions of `e'` are some of those of `e`, and
no list of `e'` is longer than those of `e`. -/
structure Within (e' e : Expr) : Prop where
  typeNames : e'.typeNames ⊆ e.typeNames
  longestList : e'.longestList ≤ e.longestList
  mentions : e'.mentions.Sublist e.mentions
  receiver : ∀ method,
    (e'.asReceiver method e'.mentions).Sublist (e.asReceiver method e.mentions)
  statement : (e'.asStatement e'.mentions).Sublist (e.asStatement e.mentions)

theorem typeNamesAll_subset {es' es : List Expr} (h : List.Forall₂ Within es' es) :
    typeNamesAll es' ⊆ typeNamesAll es := by
  induction h with
  | nil => exact List.Subset.refl _
  | cons hhead htail ih => exact append_subset_append hhead.typeNames ih

theorem longestListAll_mono {es' es : List Expr} (h : List.Forall₂ Within es' es) :
    longestListAll es' ≤ longestListAll es := by
  induction h with
  | nil => exact Nat.le_refl _
  | cons hhead htail ih => exact max_le_max hhead.longestList ih

theorem mentionsAll_sublist {es' es : List Expr} (h : List.Forall₂ Within es' es) :
    (mentionsAll es').Sublist (mentionsAll es) := by
  induction h with
  | nil => exact .refl _
  | cons hhead htail ih => exact hhead.mentions.append ih

namespace Within

variable {e e' l l' r r' : Expr} {pos : Position}

/-- Expressions that are no names mention the same as values, as receivers and as statements. -/
theorem of_isName (he' : e'.isName = false) (he : e.isName = false)
    (htypes : e'.typeNames ⊆ e.typeNames) (hlists : e'.longestList ≤ e.longestList)
    (hmentions : e'.mentions.Sublist e.mentions) : e'.Within e := by
  have hreceiver : ∀ {e : Expr}, e.isName = false → ∀ method,
      e.asReceiver method e.mentions = e.mentions ++ [.other method] := by
    intro e h method
    cases e with
    | this | var => cases h
    | _ => rfl
  have hstatement : ∀ {e : Expr}, e.isName = false → e.asStatement e.mentions = e.mentions := by
    intro e h
    cases e with
    | this | var => cases h
    | _ => rfl
  refine ⟨htypes, hlists, hmentions, fun method ↦ ?_, ?_⟩
  · rw [hreceiver he', hreceiver he]
    exact hmentions.append (.refl _)
  · rwa [hstatement he', hstatement he]

theorem refl (e : Expr) : e.Within e :=
  ⟨List.Subset.refl _, Nat.le_refl _, .refl _, fun _ ↦ .refl _, .refl _⟩

theorem trans {e'' : Expr} (h : e''.Within e') (h' : e'.Within e) : e''.Within e :=
  ⟨List.Subset.trans h.typeNames h'.typeNames, Nat.le_trans h.longestList h'.longestList,
    h.mentions.trans h'.mentions, fun method ↦ (h.receiver method).trans (h'.receiver method),
    h.statement.trans h'.statement⟩

/-- A call on a literal is none on the unit itself, so a literal may not take the place
of `this`. -/
theorem lit (pos : Position) (value : Literal) (h : ∀ p, e ≠ .this p) :
    (Expr.lit pos value).Within e := by
  refine ⟨List.nil_subset _, Nat.zero_le _, List.nil_sublist _, fun method ↦ ?_,
    List.nil_sublist _⟩
  show [Mention.other method].Sublist (e.asReceiver method e.mentions)
  cases e with
  | this p => exact absurd rfl (h p)
  | _ => simp [asReceiver]

theorem not (h : e'.Within e) : (Expr.not pos e').Within (.not pos e) :=
  of_isName rfl rfl h.typeNames h.longestList h.mentions

theorem binary {op : BinOp} (hl : l'.Within l) (hr : r'.Within r) :
    (Expr.binary pos op l' r').Within (.binary pos op l r) :=
  of_isName rfl rfl (append_subset_append hl.typeNames hr.typeNames)
    (max_le_max hl.longestList hr.longestList) (hl.mentions.append hr.mentions)

theorem index (hl : l'.Within l) (hr : r'.Within r) :
    (Expr.index pos l' r').Within (.index pos l r) :=
  of_isName rfl rfl (append_subset_append hl.typeNames hr.typeNames)
    (max_le_max hl.longestList hr.longestList) (hl.mentions.append hr.mentions)

theorem newArray {elem : TypeExpr} (h : e'.Within e) :
    (Expr.newArray pos elem e').Within (.newArray pos elem e) :=
  of_isName rfl rfl (List.cons_subset_cons _ h.typeNames) h.longestList
    (h.mentions.cons_cons _)

theorem length (h : e'.Within e) : (Expr.length pos e').Within (.length pos e) :=
  of_isName rfl rfl h.typeNames h.longestList h.mentions

theorem array {es' es : List Expr} (h : List.Forall₂ Within es' es) :
    (Expr.array pos es').Within (.array pos es) :=
  of_isName rfl rfl (typeNamesAll_subset h) (max_le_max h.length_eq.le (longestListAll_mono h))
    (mentionsAll_sublist h)

theorem call {method : String} {es' es : List Expr} (h : List.Forall₂ Within es' es) :
    (Expr.call pos method es').Within (.call pos method es) :=
  of_isName rfl rfl (typeNamesAll_subset h) (max_le_max h.length_eq.le (longestListAll_mono h))
    ((mentionsAll_sublist h).cons_cons _)

theorem callOn {method : String} {es' es : List Expr} (hr : e'.Within e)
    (h : List.Forall₂ Within es' es) :
    (Expr.callOn pos e' method es').Within (.callOn pos e method es) :=
  of_isName rfl rfl (append_subset_append hr.typeNames (typeNamesAll_subset h))
    (max_le_max hr.longestList (max_le_max h.length_eq.le (longestListAll_mono h)))
    ((hr.receiver method).append (mentionsAll_sublist h))

theorem map {f : Expr → Expr} {es : List Expr} (h : ∀ e ∈ es, (f e).Within e) :
    List.Forall₂ Within (es.map f) es := by
  rw [List.forall₂_map_left_iff, List.forall₂_same]
  exact h

end Within

theorem within_fold (e : Expr) : e.fold.Within e := by
  induction e using Expr.memberInduct with
  | lit | this | var | newObject => exact .refl _
  | not pos operand ih =>
    rw [fold, foldedNot]
    split
    · exact .lit _ _ (by simp)
    · exact .not ih
  | binary pos op lhs rhs ihl ihr =>
    rw [fold, foldedBinary]
    split
    · exact .lit _ _ (by simp)
    · exact .binary ihl ihr
  | index pos base idx ihb ihi => exact .index ihb ihi
  | array pos elements ih =>
    rw [fold, foldAll_eq_map]
    exact .array (Within.map ih)
  | newArray pos elem size ih => exact .newArray ih
  | length pos base ih => exact .length ih
  | call pos method args ih =>
    rw [fold, foldAll_eq_map]
    exact .call (Within.map ih)
  | callOn pos receiver method args ihr iha =>
    rw [fold, foldAll_eq_map]
    exact .callOn ihr (Within.map iha)

theorem within_substitute (k : Known) (e : Expr) : (e.substitute k).Within e := by
  induction e using Expr.memberInduct with
  | lit | this | newObject => exact .refl _
  | var pos name =>
    rw [substitute]
    split
    · exact .lit _ _ (by simp)
    · exact .refl _
  | not pos operand ih => exact .not ih
  | binary pos op lhs rhs ihl ihr => exact .binary ihl ihr
  | index pos base idx ihb ihi => exact .index ihb ihi
  | array pos elements ih =>
    rw [substitute, substituteAll_eq_map]
    exact .array (Within.map ih)
  | newArray pos elem size ih => exact .newArray ih
  | length pos base ih => exact .length ih
  | call pos method args ih =>
    rw [substitute, substituteAll_eq_map]
    exact .call (Within.map ih)
  | callOn pos receiver method args ihr iha =>
    rw [substitute, substituteAll_eq_map]
    exact .callOn ihr (Within.map iha)

end Expr

/-! ## Statements -/

namespace Stmt

/-- The same for statements, whose mentions do not depend on where they stand. -/
structure Within (stmt' stmt : Stmt) : Prop where
  typeNames : stmt'.typeNames ⊆ stmt.typeNames
  longestList : stmt'.longestList ≤ stmt.longestList
  mentions : stmt'.mentions.Sublist stmt.mentions

theorem typeNamesAll_subset {stmts' stmts : List Stmt} (h : List.Forall₂ Within stmts' stmts) :
    typeNamesAll stmts' ⊆ typeNamesAll stmts := by
  induction h with
  | nil => exact List.Subset.refl _
  | cons hhead htail ih => exact append_subset_append hhead.typeNames ih

theorem longestListAll_mono {stmts' stmts : List Stmt} (h : List.Forall₂ Within stmts' stmts) :
    longestListAll stmts' ≤ longestListAll stmts := by
  induction h with
  | nil => exact Nat.le_refl _
  | cons hhead htail ih => exact max_le_max hhead.longestList ih

theorem mentionsAll_sublist {stmts' stmts : List Stmt} (h : List.Forall₂ Within stmts' stmts) :
    (mentionsAll stmts').Sublist (mentionsAll stmts) := by
  induction h with
  | nil => exact .refl _
  | cons hhead htail ih => exact hhead.mentions.append ih

namespace Within

variable {pos : Position} {e e' : Expr} {stmt stmt' : Stmt}

theorem refl (stmt : Stmt) : stmt.Within stmt :=
  ⟨List.Subset.refl _, Nat.le_refl _, .refl _⟩

theorem trans {stmt'' : Stmt} (h : stmt''.Within stmt') (h' : stmt'.Within stmt) :
    stmt''.Within stmt :=
  ⟨List.Subset.trans h.typeNames h'.typeNames, Nat.le_trans h.longestList h'.longestList,
    h.mentions.trans h'.mentions⟩

theorem block {stmts' stmts : List Stmt} (h : List.Forall₂ Within stmts' stmts) :
    (Stmt.block pos stmts').Within (.block pos stmts) :=
  ⟨typeNamesAll_subset h, longestListAll_mono h, mentionsAll_sublist h⟩

theorem ifElse {t t' f f' : Stmt} (he : e'.Within e) (ht : t'.Within t) (hf : f'.Within f) :
    (Stmt.ifElse pos e' t' f').Within (.ifElse pos e t f) :=
  ⟨append_subset_append (append_subset_append he.typeNames ht.typeNames) hf.typeNames,
    max_le_max he.longestList (max_le_max ht.longestList hf.longestList),
    (he.mentions.append ht.mentions).append hf.mentions⟩

theorem whileLoop (he : e'.Within e) (h : stmt'.Within stmt) :
    (Stmt.whileLoop pos e' stmt').Within (.whileLoop pos e stmt) :=
  ⟨append_subset_append he.typeNames h.typeNames, max_le_max he.longestList h.longestList,
    he.mentions.append h.mentions⟩

theorem eval (h : e'.Within e) : (Stmt.eval pos e').Within (.eval pos e) :=
  ⟨h.typeNames, h.longestList, h.statement⟩

theorem assign {target : String} (h : e'.Within e) :
    (Stmt.assign pos target e').Within (.assign pos target e) :=
  ⟨h.typeNames, h.longestList, h.mentions.cons_cons _⟩

theorem store {target : String} {i i' : Expr} (hi : i'.Within i) (h : e'.Within e) :
    (Stmt.store pos target i' e').Within (.store pos target i e) :=
  ⟨append_subset_append hi.typeNames h.typeNames, max_le_max hi.longestList h.longestList,
    (hi.mentions.append h.mentions).cons_cons _⟩

theorem ret {f : Expr → Expr} (h : ∀ e, (f e).Within e) (value : Option Expr) :
    (Stmt.ret pos (value.map f)).Within (.ret pos value) := by
  cases value with
  | none => exact .refl _
  | some value =>
    exact ⟨(h value).typeNames, (h value).longestList, (h value).mentions.cons_cons _⟩

end Within

theorem within_fold (stmt : Stmt) : stmt.fold.Within stmt := by
  induction stmt using Stmt.memberInduct with
  | block pos stmts ih =>
    rw [fold, foldAll_eq_map]
    refine .block ?_
    rw [List.forall₂_map_left_iff, List.forall₂_same]
    exact ih
  | ifElse pos cond thenBranch elseBranch ihThen ihElse =>
    have hthen : thenBranch.Within (.ifElse pos cond thenBranch elseBranch) := by
      refine ⟨fun name hname ↦ ?_, ?_, ?_⟩
      · exact List.mem_append_left _ (List.mem_append_right _ hname)
      · exact le_trans (le_max_left _ _) (le_max_right _ _)
      · exact (List.sublist_append_right _ _).trans (List.sublist_append_left _ _)
    have helse : elseBranch.Within (.ifElse pos cond thenBranch elseBranch) := by
      refine ⟨fun name hname ↦ ?_, ?_, ?_⟩
      · exact List.mem_append_right _ hname
      · exact le_trans (le_max_right _ _) (le_max_right _ _)
      · exact List.sublist_append_right _ _
    rw [fold]
    split
    · exact ihThen.trans hthen
    · exact ihElse.trans helse
    · exact .ifElse cond.within_fold ihThen ihElse
  | whileLoop pos cond body ihBody =>
    rw [fold]
    split
    · exact ⟨List.nil_subset _, Nat.zero_le _, List.nil_sublist _⟩
    · exact .whileLoop cond.within_fold ihBody
  | eval pos expr => exact .eval expr.within_fold
  | assign pos target value => exact .assign value.within_fold
  | store pos target index value => exact .store index.within_fold value.within_fold
  | ret pos value => exact .ret Expr.within_fold value

theorem forall₂_propagateAll {locals : List String} {stmts : List Stmt}
    (h : ∀ stmt ∈ stmts, ∀ k, (stmt.propagate locals k).Within stmt) :
    ∀ k, List.Forall₂ Within (propagateAll locals k stmts) stmts := by
  induction stmts with
  | nil => exact fun _ ↦ .nil
  | cons stmt stmts ih =>
    intro k
    obtain ⟨hhead, htail⟩ := List.forall_mem_cons.mp h
    exact .cons (hhead k) (ih htail _)

theorem within_propagate (locals : List String) (stmt : Stmt) :
    ∀ k, (stmt.propagate locals k).Within stmt := by
  induction stmt using Stmt.memberInduct with
  | block pos stmts ih => exact fun k ↦ .block (forall₂_propagateAll ih k)
  | ifElse pos cond thenBranch elseBranch ihThen ihElse =>
    exact fun k ↦ .ifElse (cond.within_substitute k) (ihThen k) (ihElse k)
  | whileLoop pos cond body ihBody =>
    exact fun k ↦ .whileLoop (cond.within_substitute _) (ihBody _)
  | eval pos expr => exact fun k ↦ .eval (expr.within_substitute k)
  | assign pos target value =>
    intro k
    rw [propagate]
    split
    · exact .assign ((Expr.within_fold _).trans (value.within_substitute k))
    · exact .assign (value.within_substitute k)
  | store pos target index value =>
    exact fun k ↦ .store (index.within_substitute k) (value.within_substitute k)
  | ret pos value => exact fun k ↦ .ret (Expr.within_substitute k) value

/-- A body that both passes went over. -/
theorem forall₂_optimized (locals : List String) (body : List Stmt) :
    List.Forall₂ Within (foldAll (propagateAll locals .none body)) body := by
  have hpropagated : List.Forall₂ Within (propagateAll locals .none body) body :=
    forall₂_propagateAll (fun stmt _ ↦ within_propagate locals stmt) .none
  rw [foldAll_eq_map, List.forall₂_map_left_iff]
  exact hpropagated.imp fun stmt' stmt h ↦ (within_fold stmt').trans h

end Stmt

end Tricode
