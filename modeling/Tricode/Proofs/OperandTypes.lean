import Tricode.Proofs.Meaning
import Tricode.Proofs.Scopes
import Tricode.Proofs.Yields

/-!
# The types of lowered operands

Checking and lowering find out the type of an expression by two recursions of their own. That of
lowering is written down here as a function of the tree, `Scope.operandTy`. Where checking knows
the type, the two agree, whatever type was expected. Where checking does not, the operand of an
accepted expression has the type that was expected of it, or one made of integers.

For calls this settles who answers: lowering takes a call for one to a method of the unit just
when checking does.

## What is needed of names

Lowering gives a receiver of unknown type the class `Object`, so a unit of that name would take
calls on such receivers for its own. A class hidden by an import would be taken for the import by
lowering but not by checking.
-/

namespace Tricode

/-! ## Types alone -/

namespace Ty

theorem element_arrayOf_of_isArray {t : Ty} (h : t.isArray = true) : t.element.arrayOf = t := by
  cases t
  rw [arrayOf, element, ← h]

theorem ne_any_of_isAny {t : Ty} (h : t.isAny = false) : t ≠ .any := by
  rintro rfl
  cases h

section

variable {p : Prop} [Decidable p] {t : Ty}

/-! A type that is known only under a condition. -/

theorem of_ite_ne_any (h : (if p then t else .any) ≠ .any) : p :=
  by_contra fun hp ↦ h (if_neg hp)

theorem not_of_ite_ne_any (h : (if p then .any else t) ≠ .any) : ¬p := fun hp ↦ h (if_pos hp)

end

theorem isArray_ofElements {types : List Ty} (h : ofElements types ≠ .any) :
    (ofElements types).isArray = true := by
  unfold ofElements at h ⊢
  split
  · rfl
  · rename_i hne
    rw [if_neg hne] at h
    cases hcommon : common types with
    | none => rw [hcommon] at h; exact absurd rfl h
    | some elem =>
      rw [hcommon] at h
      dsimp only at h ⊢
      rw [if_pos (of_ite_ne_any h)]
      rfl

theorem isArray_ofElements_of_isAny {types : List Ty} (h : (ofElements types).isAny = true) :
    (ofElements types).isArray = false := by
  unfold ofElements at h ⊢
  split
  · rename_i hempty
    rw [if_pos hempty] at h
    cases h
  · rename_i hne
    rw [if_neg hne] at h
    cases hcommon : common types with
    | none => rfl
    | some elem =>
      rw [hcommon] at h
      dsimp only at h ⊢
      split
      · rename_i hall
        rw [if_pos hall, isAny_arrayOf] at h
        have hknown := List.find?_some hcommon
        rw [h] at hknown
        cases hknown
      · rfl

theorem isAny_indexed {t : Ty} (harray : t.isAny = true ∨ t.isArray = true) :
    t.indexed.isAny = t.isAny := by
  unfold indexed
  cases hany : t.isAny with
  | true => rfl
  | false =>
    have htrue : t.isArray = true := by
      rcases harray with h | h
      · rw [hany] at h; cases h
      · exact h
    rw [htrue]
    exact hany

end Ty

theorem BinOp.isAny_resultTy (op : BinOp) : op.resultTy.isAny = false := by
  cases op <;> rfl

theorem Table.responder_eq_own {t : Table} {ty : Ty} :
    t.responder ty = .own ↔ ty.isAny = false ∧ ty.isClass = true ∧ ty.name = t.className := by
  unfold responder
  cases hany : ty.isAny <;> cases hclass : ty.isClass <;> simp

namespace Expr

/-- The expression is itself a call. -/
def isCall : Expr → Bool
  | call _ _ _ | callOn _ _ _ _ => true
  | _ => false

/-- The type that lowering gives an element or an array literal whose type nobody knows: arrays
are taken for arrays of integers. -/
def guessedTy : Expr → Ty
  | index _ _ _ => .int
  | _ => .intArray

@[simp] theorem name_guessedTy (e : Expr) : e.guessedTy.name = "int" := by
  unfold guessedTy
  split <;> rfl

end Expr

namespace Scope

variable {s : Scope} {c c' : Counters} {l : Lowered} {hint : Option Ty}

/-! ## Operand types as a function of the tree -/

/-- Lowering takes a call on `receiver`, whose operand has type `ty`, for one to the unit. -/
def lowersToOwn (s : Scope) (receiver : Expr) (ty : Ty) : Bool :=
  match receiver with
  | .this _ => true
  | .var _ name => s.lookup name != .imported && (ty.isClass && ty.name == s.table.className)
  | _ => ty.isClass && ty.name == s.table.className

/-- The type of the operand an expression is lowered to, where `hint` is expected of it. -/
def operandTy (s : Scope) : Expr → Option Ty → Ty
  | .lit _ value, _ => value.ty
  | .this _, _ => .named s.table.className
  | .var _ name, _ =>
    match s.lookup name with
    | .stored _ symbol => symbol.ty
    | .imported => .named name
    | .unbound => .any
  | .not _ _, _ => .boolean
  | .binary _ op _ _, _ => op.resultTy
  | .index _ base _, _ => (s.operandTy base (some .intArray)).element
  | .array _ elements, _ => (s.literalElement elements).arrayOf
  | .newArray _ elem _, _ => elem.resolve.arrayOf
  | .newObject _ className, _ => .named className
  | .length _ _, _ => .int
  | .call _ method _, hint => (s.table.returnType? method).getD (hint.getD .int)
  | .callOn _ receiver method _, hint =>
    if s.lowersToOwn receiver (s.operandTy receiver (some (s.receiverHint receiver))) then
      (s.table.returnType? method).getD (hint.getD .int)
    else hint.getD .int

/-- The type of the operand a call is made on. -/
def receiverTy (s : Scope) (receiver : Expr) : Ty :=
  s.operandTy receiver (some (s.receiverHint receiver))

@[simp] theorem callee_ownDispatch (s : Scope) (method : String) :
    (s.ownDispatch method).callee = s.table.method? method := by
  unfold ownDispatch
  split
  · split <;> rename_i hfind _ <;> exact hfind.symm
  · split <;> rename_i hfind _ <;> exact hfind.symm

theorem lowersToOwn_of_isObject {receiver : Expr} (h : s.isObject receiver = true) (ty : Ty) :
    s.lowersToOwn receiver ty = (ty.isClass && ty.name == s.table.className) := by
  cases receiver with
  | this pos => cases h
  | var pos name => rw [lowersToOwn, show (s.lookup name != .imported) = true from h, Bool.true_and]
  | _ => rfl

/-- The method a call is lowered to, once the operand of its receiver has the type it should. -/
theorem callee_of_dispatch {pos : Position} {receiver : Expr} {method : String} {d : Dispatch}
    (h : (s.dispatch pos receiver (s.lowerExpr receiver) method).Yields c d c')
    (hty : ∀ {hint : Option Ty} {c c' : Counters} {l : Lowered},
      (s.lowerExpr receiver hint).Yields c l c' → l.operand.ty = s.operandTy receiver hint) :
    d.callee =
      if s.lowersToOwn receiver (s.receiverTy receiver) then s.table.method? method else none := by
  rcases s.receiver_cases receiver with ⟨p, rfl⟩ | ⟨p, name, rfl, hlookup⟩ | hobject
  · obtain ⟨rfl, -⟩ := Lower.yields_pure.mp h
    exact callee_ownDispatch s method
  · rw [dispatch, if_pos hlookup] at h
    obtain ⟨rfl, -⟩ := Lower.yields_pure.mp h
    simp [lowersToOwn, hlookup]
  · rw [dispatch_eq_objectDispatch hobject] at h
    obtain ⟨object, hemit, hclass, rfl⟩ := yields_objectDispatch h
    rw [lowersToOwn_of_isObject hobject, receiverTy, ← hty hemit, hclass, Bool.true_and]

theorem binary_ty {op : BinOp} {lhs rhs : Emit} (h : (Lower.binary op lhs rhs).Yields c l c') :
    l.operand.ty = op.resultTy := by
  cases op with
  | and =>
    obtain ⟨left, c₁, right, -, -, rfl⟩ := Lower.yields_and h
    rfl
  | or =>
    obtain ⟨left, c₁, right, -, -, rfl⟩ := Lower.yields_or h
    rfl
  | lt | gt =>
    obtain ⟨cond, code, c₁, -, rfl, -⟩ := Lower.yields_comparison h
    rfl
  | _ =>
    obtain ⟨left, c₁, right, c₂, -, -, rfl, -⟩ := Lower.yields_arithmetic h
    rfl

theorem lowerCallValue_ty {receiver : Lower Dispatch} {method : String} {args : List Expr}
    {emits : List Emit} (h : (s.lowerCallValue receiver method args emits hint).Yields c l c') :
    ∃ d c₁, receiver.Yields c d c₁ ∧
      l.operand.ty = (d.callee.map Signature.returnType).getD (hint.getD .int) := by
  obtain ⟨call, code, c₁, hcall, rfl, -⟩ := yields_lowerCallValue h
  obtain ⟨d, c₂, operands, argCode, hd, -, rfl, -⟩ := yields_lowerCall hcall
  exact ⟨d, c₂, hd, rfl⟩

/-- An operand has the type that its tree and the expected type determine. -/
theorem lowerExpr_ty {e : Expr} : ∀ {hint : Option Ty} {c c' : Counters} {l : Lowered},
    (s.lowerExpr e hint).Yields c l c' → l.operand.ty = s.operandTy e hint := by
  induction e using Expr.memberInduct with
  | lit pos value =>
    intro hint c c' l h
    obtain ⟨rfl, -⟩ := Lower.yields_pure.mp h
    rfl
  | this pos =>
    intro hint c c' l h
    obtain ⟨rfl, -⟩ := Lower.yields_pure.mp h
    rfl
  | var pos name =>
    intro hint c c' l h
    rw [operandTy]
    rcases yields_lowerVar h with ⟨symbol, hlookup, rfl, -⟩ |
      ⟨storage, symbol, hlookup, -, rfl, -⟩ | ⟨hlookup, rfl, -⟩ <;> rw [hlookup] <;> rfl
  | not pos operand =>
    intro hint c c' l h
    obtain ⟨inner, c₁, -, rfl, -⟩ := Lower.yields_not h
    rfl
  | binary pos op lhs rhs =>
    intro hint c c' l h
    exact binary_ty h
  | index pos base idx ihBase =>
    intro hint c c' l h
    obtain ⟨array, c₁, i, c₂, harray, -, rfl, -⟩ := Lower.yields_index h
    exact congrArg Ty.element (ihBase harray)
  | array pos elements =>
    intro hint c c' l h
    obtain ⟨-, stores, -, rfl⟩ := Lower.yields_packArray h
    rfl
  | newArray pos elem size =>
    intro hint c c' l h
    obtain ⟨n, c₁, -, rfl, -⟩ := Lower.yields_newArray h
    rfl
  | newObject pos className =>
    intro hint c c' l h
    obtain ⟨rfl, -⟩ := Lower.yields_construct h
    rfl
  | length pos base =>
    intro hint c c' l h
    obtain ⟨array, c₁, -, rfl, -⟩ := Lower.yields_length h
    rfl
  | call pos method args =>
    intro hint c c' l h
    obtain ⟨d, c₁, hd, hret⟩ := lowerCallValue_ty h
    obtain ⟨rfl, -⟩ := Lower.yields_pure.mp hd
    rw [hret, callee_ownDispatch]
    rfl
  | callOn pos receiver method args ihReceiver =>
    intro hint c c' l h
    obtain ⟨d, c₁, hd, hret⟩ := lowerCallValue_ty h
    -- Who answers depends on the type of the operand that the receiver leaves.
    rw [hret, callee_of_dispatch hd ihReceiver, operandTy, receiverTy]
    split <;> rfl

/-! ## Where checking knows the type -/

theorem ownCallTy_of_ne_any {method : String} (h : s.ownCallTy method ≠ .any) :
    s.table.returnType? method = some (s.ownCallTy method) := by
  unfold ownCallTy at h ⊢
  cases hfind : s.table.returnType? method with
  | none =>
    rw [hfind] at h
    exact absurd rfl h
  | some ty => rfl

/-- Where the class of the unit has another name than the imports, no import is taken for it. -/
theorem responder_ne_own_of_imported (himport : s.table.isImported s.table.className = false)
    {pos : Position} {name : String} (hlookup : s.lookup name = .imported) :
    s.table.responder (s.typeOf (.var pos name)) ≠ .own := by
  intro hown
  have hname := (Table.responder_eq_own.mp hown).2.2
  rw [typeOf, variableTy, hlookup] at hname
  have himported := (lookup_imported hlookup).2.2
  rw [show name = s.table.className from hname, himport] at himported
  cases himported

/-- A type other than the unknown one is that of the operand, whatever type was expected. -/
theorem operandTy_of_ne_any (himport : s.table.isImported s.table.className = false) {e : Expr} :
    ∀ (hint : Option Ty), s.typeOf e ≠ .any → s.operandTy e hint = s.typeOf e := by
  induction e using Expr.memberInduct with
  | lit | not | newArray | newObject | length => exact fun _ _ ↦ rfl
  | this pos =>
    intro hint hty
    rw [typeOf, thisTy] at hty ⊢
    rw [if_neg (Ty.not_of_ite_ne_any hty)]
    rfl
  | var pos name =>
    intro hint hty
    rw [typeOf, variableTy] at hty ⊢
    rw [operandTy]
    cases hlookup : s.lookup name with
    | stored storage symbol =>
      rw [hlookup] at hty
      cases storage with
      | field =>
        dsimp only at hty ⊢
        rw [if_neg (Ty.not_of_ite_ne_any hty)]
      | localVar | param => rfl
    | imported | unbound => rfl
  | binary pos op lhs rhs =>
    intro hint hty
    rw [typeOf] at hty ⊢
    rw [if_pos (Ty.of_ite_ne_any hty)]
    rfl
  | index pos base idx ihBase =>
    intro hint hty
    rw [typeOf, Ty.indexed] at hty ⊢
    have hindexed := Ty.of_ite_ne_any hty
    rw [if_pos hindexed]
    rw [Bool.and_eq_true, Bool.not_eq_true'] at hindexed
    exact congrArg Ty.element (ihBase _ (Ty.ne_any_of_isAny hindexed.1))
  | array pos elements =>
    intro hint hty
    rw [typeOf] at hty ⊢
    have harray := Ty.isArray_ofElements hty
    rw [operandTy, literalElement, if_pos harray, Ty.element_arrayOf_of_isArray harray]
  | call pos method args =>
    intro hint hty
    rw [typeOf] at hty ⊢
    rw [operandTy, ownCallTy_of_ne_any hty]
    rfl
  | callOn pos receiver method args ihReceiver =>
    intro hint hty
    rw [typeOf] at hty ⊢
    have hown := Ty.of_ite_ne_any hty
    rw [if_pos hown] at hty ⊢
    rw [operandTy, ownCallTy_of_ne_any hty, if_pos]
    · rfl
    · obtain ⟨hknown, hclass, hname⟩ := Table.responder_eq_own.mp hown
      rcases s.receiver_cases receiver with ⟨p, rfl⟩ | ⟨p, name, rfl, hlookup⟩ | hobject
      · rfl
      · exact absurd hown (responder_ne_own_of_imported himport hlookup)
      · rw [lowersToOwn_of_isObject hobject, ihReceiver _ (Ty.ne_any_of_isAny hknown), hclass,
          hname]
        exact beq_self_eq_true _

theorem operandTy_of_known (himport : s.table.isImported s.table.className = false) {e : Expr}
    (hint : Option Ty) (h : (s.typeOf e).isAny = false) : s.operandTy e hint = s.typeOf e :=
  operandTy_of_ne_any himport hint (Ty.ne_any_of_isAny h)

/-- Checking and lowering agree on every type that checking knows, so the type of an operand does
not depend on what was expected. -/
theorem operand_ty_eq_typeOf (himport : s.table.isImported s.table.className = false) {e : Expr}
    (hty : s.typeOf e ≠ .any) (h : (s.lowerExpr e hint).Yields c l c') :
    l.operand.ty = s.typeOf e ∧
      ∀ (hint' : Option Ty) (d : Counters) (l' : Lowered) (d' : Counters),
        (s.lowerExpr e hint').Yields d l' d' → l'.operand.ty = l.operand.ty := by
  have hagree : ∀ {hint : Option Ty} {c c' : Counters} {l : Lowered},
      (s.lowerExpr e hint).Yields c l c' → l.operand.ty = s.typeOf e :=
    fun h ↦ (lowerExpr_ty h).trans (operandTy_of_ne_any himport _ hty)
  exact ⟨hagree h, fun hint' d l' d' h' ↦ (hagree h').trans (hagree h).symm⟩

/-- The only method of a class that imports another one. -/
def tillCounts : Scope :=
  let counts : Signature := ⟨"counts", .intArray, [], [], false, true, false⟩
  ⟨⟨"Till", none, ["shop.Reader"], [], [counts]⟩, counts⟩

/-- A count is an integer, also where a truth value is expected and at a place that only another
class knows. -/
theorem tillCounts_operand_ty :
    let e : Expr := .index .origin
      (.callOn .origin (.newObject .origin "Till") "counts" [])
      (.callOn .origin (.var .origin "Reader") "next" [])
    tillCounts.table.isImported tillCounts.table.className = false ∧ tillCounts.typeOf e = .int ∧
      ∃ l c', (tillCounts.lowerExpr e (some .boolean)).Yields .zero l c' ∧
        l.code.length = 5 ∧ l.operand.ty = .int := by
  intro e
  have himport : tillCounts.table.isImported tillCounts.table.className = false := by decide +kernel
  have hty : tillCounts.typeOf e = .int := by decide +kernel
  obtain ⟨l, c', h, hlength⟩ : ∃ l c',
      (tillCounts.lowerExpr e (some .boolean)).Yields .zero l c' ∧ l.code.length = 5 :=
    ⟨_, _, rfl, rfl⟩
  have hagree := operand_ty_eq_typeOf himport (by rw [hty]; decide) h
  exact ⟨himport, hty, l, c', h, hlength, hagree.1.trans hty⟩

/-! ## Where checking does not know the type -/

theorem ownCallTy_of_isAny (hknown : s.TypesKnown) {method : String}
    (h : (s.ownCallTy method).isAny = true) : s.table.method? method = none := by
  cases hfind : s.table.method? method with
  | none => rfl
  | some sig =>
    rw [ownCallTy, Table.returnType?, hfind, Option.map_some, Option.getD_some,
      hknown.returned hfind] at h
    cases h

theorem variableTy_known (hknown : s.TypesKnown) {pos : Position} {name : String}
    (haccepts : s.Accepts (.var pos name)) : (s.variableTy name).isAny = false := by
  rw [accepts_var, variableProblems] at haccepts
  unfold variableTy
  cases hlookup : s.lookup name with
  | stored storage symbol =>
    rw [hlookup] at haccepts
    cases storage with
    | field =>
      have hstatic : s.method.isStatic = false := by simpa using haccepts
      simpa [hstatic] using hknown.stored hlookup
    | localVar | param => exact hknown.stored hlookup
  | imported =>
    refine beq_eq_false_iff_ne.mpr ?_
    rintro rfl
    have himported := (lookup_imported hlookup).2.2
    rw [hknown.imported] at himported
    cases himported
  | unbound =>
    rw [hlookup] at haccepts
    exact absurd haccepts Diagnostic.not_clean_error_cons

theorem thisTy_known (hknown : s.TypesKnown) {pos : Position} (haccepts : s.Accepts (.this pos)) :
    s.thisTy = .named s.table.className ∧ s.thisTy.isAny = false := by
  have hthis : s.thisTy = .named s.table.className := by
    rw [thisTy, accepts_this.mp haccepts]
    rfl
  exact ⟨hthis, by rw [hthis]; exact beq_eq_false_iff_ne.mpr hknown.className⟩

theorem receiverTy_of_known (himport : s.table.isImported s.table.className = false) {e : Expr}
    (h : (s.typeOf e).isAny = false) : s.receiverTy e = s.typeOf e :=
  operandTy_of_known himport _ h

theorem receiverHint_of_isAny {e : Expr} (h : (s.typeOf e).isAny = true) :
    s.receiverHint e = .named opaqueClass := by
  have hclass : (s.typeOf e).isClass = false := by rw [Ty.isClass, h]; rfl
  simp [receiverHint, hclass]

/-- Lowering takes the receiver for an object of the unit, though checking does not know its
type. -/
def MistakenForOwn (s : Scope) (receiver : Expr) : Prop :=
  (s.typeOf receiver).isAny = true ∧ (s.receiverTy receiver).isClass = true ∧
    (s.receiverTy receiver).name = s.table.className

instance (s : Scope) (receiver : Expr) : Decidable (s.MistakenForOwn receiver) :=
  inferInstanceAs (Decidable (_ ∧ _ ∧ _))

theorem not_mistakenForOwn (hclass : s.table.className ≠ opaqueClass) {receiver : Expr}
    (hunknown : (s.typeOf receiver).isAny = true →
      s.receiverTy receiver = .named opaqueClass ∨ (s.receiverTy receiver).name = "int") :
    ¬s.MistakenForOwn receiver := by
  rintro ⟨hany, hisClass, hname⟩
  rcases hunknown hany with hforeign | hint
  · rw [hforeign] at hname
    exact hclass hname.symm
  · simp [Ty.isClass, Ty.isPrimitive, hint] at hisClass

/-- Lowering and checking agree on which calls are to methods of the unit, but for receivers that
lowering is mistaken about. -/
theorem lowersToOwn_iff_or_mistaken (hknown : s.TypesKnown)
    (himport : s.table.isImported s.table.className = false) {pos : Position} {receiver : Expr}
    {method : String} {args : List Expr} (haccepts : s.Accepts (.callOn pos receiver method args)) :
    s.lowersToOwn receiver (s.receiverTy receiver) = true ↔
      s.table.responder (s.typeOf receiver) = .own ∨ s.MistakenForOwn receiver := by
  obtain ⟨hreceiver, -, hsomebody, -⟩ := accepts_callOn.mp haccepts
  rcases s.receiver_cases receiver with ⟨p, rfl⟩ | ⟨p, name, rfl, hlookup⟩ | hobject
  · obtain ⟨hthis, hany⟩ := thisTy_known hknown hreceiver
    refine iff_of_true rfl (.inl ?_)
    rw [typeOf, Table.responder, hany] at hsomebody
    rw [typeOf, Table.responder_eq_own]
    refine ⟨hany, ?_, by rw [hthis]; rfl⟩
    by_contra hprimitive
    simp [hprimitive] at hsomebody
  · refine iff_of_false (by simp [lowersToOwn, hlookup]) ?_
    rintro (hown | ⟨hany, -⟩)
    · exact responder_ne_own_of_imported himport hlookup hown
    · rw [typeOf, variableTy_known hknown hreceiver] at hany
      cases hany
  · rw [lowersToOwn_of_isObject hobject, Bool.and_eq_true, beq_iff_eq, Table.responder_eq_own,
      MistakenForOwn]
    cases hany : (s.typeOf receiver).isAny with
    | false => simp [receiverTy_of_known himport hany]
    | true => simp

section

variable (hknown : s.TypesKnown) (himport : s.table.isImported s.table.className = false)
  (hclass : s.table.className ≠ opaqueClass)
include hknown himport hclass

/-- Lowering and checking agree on which calls are to methods of the unit, provided that a
receiver of unknown type is given the class for such or no class at all. -/
theorem lowersToOwn_iff {pos : Position} {receiver : Expr} {method : String} {args : List Expr}
    (haccepts : s.Accepts (.callOn pos receiver method args))
    (hunknown : (s.typeOf receiver).isAny = true →
      s.receiverTy receiver = .named opaqueClass ∨ (s.receiverTy receiver).name = "int") :
    s.lowersToOwn receiver (s.receiverTy receiver) = true ↔
      s.table.responder (s.typeOf receiver) = .own := by
  rw [lowersToOwn_iff_or_mistaken hknown himport haccepts,
    or_iff_left (not_mistakenForOwn hclass hunknown)]

/-- The operand of an accepted expression of unknown type has the type that was expected of it if
the expression is a call, and is made of integers otherwise. -/
theorem operandTy_of_unknown {e : Expr} : ∀ (hint : Option Ty), s.Accepts e →
    "<any>" ∉ e.typeNames → (s.typeOf e).isAny = true →
    e.isCall = true ∧ s.operandTy e hint = hint.getD .int ∨
      e.isCall = false ∧ s.operandTy e hint = e.guessedTy := by
  induction e using Expr.memberInduct with
  | lit pos value =>
    intro hint haccepts hnames hany
    rw [typeOf, Literal.isAny_ty] at hany
    cases hany
  | this pos =>
    intro hint haccepts hnames hany
    rw [typeOf, (thisTy_known hknown haccepts).2] at hany
    cases hany
  | var pos name =>
    intro hint haccepts hnames hany
    rw [typeOf, variableTy_known hknown haccepts] at hany
    cases hany
  | not | length => exact fun _ _ _ hany ↦ Bool.noConfusion hany
  | binary pos op lhs rhs =>
    intro hint haccepts hnames hany
    obtain ⟨-, -, hl, hr⟩ := accepts_binary.mp haccepts
    rw [typeOf, hl, hr, Bool.and_true, if_pos rfl, BinOp.isAny_resultTy] at hany
    cases hany
  | index pos base idx ihBase =>
    intro hint haccepts hnames hany
    obtain ⟨hbase, -, -, harray⟩ := accepts_index.mp haccepts
    rw [typeOf, Ty.isAny_indexed harray] at hany
    rw [Expr.typeNames, List.mem_append, not_or] at hnames
    refine .inr ⟨rfl, ?_⟩
    -- A call is taken to give the array that is expected, anything else to be one of integers.
    rcases ihBase (some .intArray) hbase hnames.1 hany with ⟨-, hbaseTy⟩ | ⟨-, hbaseTy⟩
    · rw [operandTy, hbaseTy]
      rfl
    · rw [operandTy, hbaseTy, Ty.element, Expr.name_guessedTy]
      rfl
  | array pos elements =>
    intro hint haccepts hnames hany
    rw [typeOf] at hany
    refine .inr ⟨rfl, ?_⟩
    rw [operandTy, literalElement, Ty.isArray_ofElements_of_isAny hany]
    rfl
  | newArray pos elem size =>
    intro hint haccepts hnames hany
    rw [Expr.typeNames, List.mem_cons, not_or] at hnames
    rw [typeOf, Ty.isAny_arrayOf, TypeExpr.isAny_resolve fun h ↦ hnames.1 h.symm] at hany
    cases hany
  | newObject pos className =>
    intro hint haccepts hnames hany
    rw [Expr.typeNames, List.mem_singleton] at hnames
    exact absurd (beq_iff_eq.mp hany).symm hnames
  | call pos method args =>
    intro hint haccepts hnames hany
    refine .inl ⟨rfl, ?_⟩
    rw [operandTy, Table.returnType?, ownCallTy_of_isAny hknown hany]
    rfl
  | callOn pos receiver method args ihReceiver =>
    intro hint haccepts hnames hany
    rw [Expr.typeNames, List.mem_append, not_or] at hnames
    have hreceiver := (accepts_callOn.mp haccepts).1
    -- A receiver of unknown type has an operand of the opaque class or one made of integers, so
    -- lowering does not take it for the unit either.
    have howns := lowersToOwn_iff hknown himport hclass haccepts fun hunknown ↦ by
      rw [receiverTy, receiverHint_of_isAny hunknown]
      refine (ihReceiver (some (.named opaqueClass)) hreceiver hnames.1 hunknown).imp
        And.right fun ⟨_, hguessed⟩ ↦ ?_
      rw [hguessed, Expr.name_guessedTy]
    refine .inl ⟨rfl, ?_⟩
    rw [operandTy, ← receiverTy]
    split
    · rename_i hown
      rw [typeOf, if_pos (howns.mp hown)] at hany
      rw [Table.returnType?, ownCallTy_of_isAny hknown hany]
      rfl
    · rfl

theorem receiverTy_of_unknown {e : Expr} (haccepts : s.Accepts e) (hnames : "<any>" ∉ e.typeNames)
    (hany : (s.typeOf e).isAny = true) :
    e.isCall = true ∧ s.receiverTy e = .named opaqueClass ∨
      e.isCall = false ∧ (s.receiverTy e).name = "int" := by
  rw [receiverTy, receiverHint_of_isAny hany]
  refine (operandTy_of_unknown hknown himport hclass (some (.named opaqueClass)) haccepts hnames
    hany).imp_right fun ⟨hcall, hguessed⟩ ↦ ⟨hcall, ?_⟩
  rw [hguessed, Expr.name_guessedTy]

/-- An accepted call is lowered to the method that answers it. -/
theorem callee_eq_callee? {c c' : Counters} {pos pos' : Position} {receiver : Expr}
    {method : String} {args : List Expr} {d : Dispatch}
    (haccepts : s.Accepts (.callOn pos' receiver method args))
    (hnames : "<any>" ∉ receiver.typeNames)
    (h : (s.dispatch pos receiver (s.lowerExpr receiver) method).Yields c d c') :
    d.callee = s.callee? receiver method := by
  have hreceiver := (accepts_callOn.mp haccepts).1
  have howns := lowersToOwn_iff hknown himport hclass haccepts fun hunknown ↦
    (receiverTy_of_unknown hknown himport hclass hreceiver hnames hunknown).imp And.right And.right
  rw [callee_of_dispatch h lowerExpr_ty, callee?]
  exact if_congr howns rfl rfl

end

end Scope

end Tricode
