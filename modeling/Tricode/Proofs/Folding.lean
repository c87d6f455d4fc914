import Tricode.Proofs.Parts

/-!
# What folding computes, and when it is done

Folding works on 32-bit literals and gives up where a result does not fit. Its yardstick is an
evaluator in arithmetic without bounds, `Expr.constant?`, in which each way of giving up is a rule
of its own: operands of the wrong kind, a division that is undefined, a result out of range. An
expression folds to a literal just if the evaluator has a value for it, and to that value.

## Normal forms

The evaluator also says when there is nothing left to fold: no part of a tree but the literals has
a value, and no branch or loop is settled by its condition. Folding reaches such a tree in one
pass. It leaves such a tree alone, and it leaves no other tree alone, since then it has
something to count.
-/

namespace Tricode

/-! ## Values of closed expressions -/

/-- A value in arithmetic without bounds. -/
inductive Constant where
  | int (value : Int)
  | bool (value : Bool)
  deriving DecidableEq, Repr

namespace Constant

/-- The value is one that 32 bits can hold. -/
def fits : Constant → Bool
  | int n => -2 ^ 31 ≤ n && n < 2 ^ 31
  | bool _ => true

/-- The negation, which only a truth value has. -/
def negated : Constant → Option Constant
  | int _ => none
  | bool b => some (.bool !b)

end Constant

/-- Division is undefined for a zero divisor, and for the one quotient of 32-bit integers that is
out of range. -/
def NoQuotient (l r : Int) : Prop := r = 0 ∨ l = -2 ^ 31 ∧ r = -1

instance (l r : Int) : Decidable (NoQuotient l r) :=
  inferInstanceAs (Decidable (r = 0 ∨ l = -2 ^ 31 ∧ r = -1))

namespace BinOp

/-- The operator on integers; quotients are rounded toward zero. -/
def onInts (op : BinOp) (l r : Int) : Option Constant :=
  match op with
  | add => some (.int (l + r))
  | sub => some (.int (l - r))
  | mul => some (.int (l * r))
  | div => if NoQuotient l r then none else some (.int (l.tdiv r))
  | rem => if NoQuotient l r then none else some (.int (l.tmod r))
  | lt => some (.bool (l < r))
  | gt => some (.bool (l > r))
  | and | or => none

def onBools (op : BinOp) (l r : Bool) : Option Constant :=
  match op with
  | and => some (.bool (l && r))
  | or => some (.bool (l || r))
  | _ => none

/-- The operator on two values, if they are of the right kind and the result is in range. -/
def onConstants (op : BinOp) : Constant → Constant → Option Constant
  | .int l, .int r => (op.onInts l r).filter Constant.fits
  | .bool l, .bool r => op.onBools l r
  | _, _ => none

/-- The left operand is the result, and the right one is not looked at. -/
def isSettledBy : BinOp → Constant → Bool
  | and, .bool false | or, .bool true => true
  | _, _ => false

/-- The operator on operands that may be undefined. -/
def combine (op : BinOp) (lhs rhs : Option Constant) : Option Constant :=
  lhs.bind fun l ↦ if op.isSettledBy l then some l else rhs.bind (op.onConstants l)

end BinOp

namespace Expr

/-- The value of an expression made of literals and operators, if it is defined. -/
def constant? : Expr → Option Constant
  | lit _ (.int n) => some (.int n.toInt)
  | lit _ (.bool b) => some (.bool b)
  | not _ operand => operand.constant?.bind Constant.negated
  | binary _ op lhs rhs => op.combine lhs.constant? rhs.constant?
  | _ => none

/-- Nothing but literals and operators. -/
def isClosed : Expr → Bool
  | lit _ _ => true
  | not _ operand => operand.isClosed
  | binary _ _ lhs rhs => lhs.isClosed && rhs.isClosed
  | _ => false

end Expr

/-! ## Arithmetic on literals is exact -/

/-- The value of a literal. -/
def Literal.constant : Literal → Constant
  | int n => .int n.toInt
  | bool b => .bool b

/-- A checked result is the exact one, and there is one whenever that is in range. -/
theorem map_checkedInt (n : Int) : (checkedInt n).map (fun v ↦ Constant.int v.toInt) =
    (some (Constant.int n)).filter Constant.fits := by
  rw [checkedInt, Option.filter_some]
  by_cases h : -2147483648 ≤ n ∧ n < 2147483648
  · rw [if_pos h, if_pos (by simpa [Constant.fits] using h), Option.map_some,
      Int32.toInt_ofInt_of_le h.1 h.2]
  · rw [if_neg h, if_neg (by simpa [Constant.fits] using h), Option.map_none]

theorem tdiv_fits {l r : Int32} (h : ¬NoQuotient l.toInt r.toInt) :
    -2147483648 ≤ l.toInt.tdiv r.toInt ∧ l.toInt.tdiv r.toInt < 2147483648 := by
  have hl := l.le_toInt
  have hl' := l.toInt_lt
  generalize l.toInt = a at *
  generalize r.toInt = b at *
  unfold NoQuotient at h
  by_cases hone : b = 1
  · rw [hone, Int.tdiv_one]
    omega
  by_cases hneg : b = -1
  · rw [hneg, Int.tdiv_neg, Int.tdiv_one]
    omega
  -- A divisor of at least two halves the absolute value.
  have habs : (a.tdiv b).natAbs ≤ a.natAbs / 2 := by
    rw [Int.natAbs_tdiv]
    exact Nat.div_le_div_left (by omega) (by omega)
  omega

namespace BinOp

theorem quotient?_eq (l r : Int32) : quotient? l r =
    if NoQuotient l.toInt r.toInt then none else some (Int32.ofInt (l.toInt.tdiv r.toInt)) := by
  by_cases hzero : r = 0
  · rw [quotient?, if_pos hzero, if_pos]
    exact .inl (by rw [hzero, Int32.toInt_zero])
  rw [quotient?, if_neg hzero, checkedInt]
  by_cases h : NoQuotient l.toInt r.toInt
  · -- The divisor is not zero, so this is the quotient that is one too large.
    obtain ⟨hl, hr⟩ := h.resolve_left fun heq ↦ hzero (Int32.toInt_inj.mp heq)
    rw [if_pos h, if_neg]
    rw [hl, hr]
    decide
  · rw [if_neg h, if_pos (tdiv_fits h)]

theorem map_evalInt (op : BinOp) (l r : Int32) :
    (op.evalInt l r).map Literal.constant =
      (op.onInts l.toInt r.toInt).filter Constant.fits := by
  have hexact : ∀ n, ((checkedInt n).map Literal.int).map Literal.constant =
      (some (Constant.int n)).filter Constant.fits := by
    intro n
    rw [Option.map_map]
    exact map_checkedInt n
  cases op with
  | add | sub | mul => exact hexact _
  | div =>
    rw [evalInt, onInts, quotient?_eq]
    split
    · rfl
    · rename_i h
      rw [← hexact, checkedInt, if_pos (tdiv_fits h)]
  | rem =>
    rw [evalInt, onInts, quotient?_eq]
    split
    · rfl
    · -- Unlike a quotient, a remainder is checked once more for its range.
      exact hexact _
  | lt | gt =>
    rw [evalInt, onInts, Option.map_some, Literal.constant, decide_eq_decide.mpr
      Int32.lt_iff_toInt_lt]
    rfl
  | and | or => rfl

theorem map_eval (op : BinOp) (l r : Literal) :
    (op.eval l r).map Literal.constant = op.onConstants l.constant r.constant := by
  cases l with
  | int l =>
    cases r with
    | int r => exact map_evalInt op l r
    | bool r => rfl
  | bool l =>
    cases r with
    | int r => rfl
    | bool r => cases op <;> rfl

theorem map_decidedBy (op : BinOp) (l : Literal) :
    (op.decidedBy l).map Literal.constant =
      if op.isSettledBy l.constant then some l.constant else none := by
  cases l with
  | int n => cases op <;> rfl
  | bool b => cases op <;> cases b <;> rfl

/-- What is known of an operator on literals is what the evaluator finds. -/
theorem map_reduce (op : BinOp) (lhs rhs : Option Literal) :
    (op.reduce lhs rhs).map Literal.constant =
      op.combine (lhs.map Literal.constant) (rhs.map Literal.constant) := by
  cases lhs with
  | none => rfl
  | some l =>
    rw [reduce, Option.bind_some, Option.bind_some, Option.map_or, map_decidedBy, Option.map_some,
      combine, Option.bind_some]
    split
    · rfl
    · rw [Option.none_or]
      cases rhs with
      | none => rfl
      | some r => exact map_eval op l r

end BinOp

/-! ## Folding a closed expression -/

namespace Expr

theorem constant?_lit (pos : Position) (value : Literal) :
    (lit pos value).constant? = some value.constant := by
  cases value <;> rfl

theorem eq_lit_of_literal? {e : Expr} {value : Literal} (h : e.literal? = some value) :
    e = lit e.pos value := by
  cases e with
  | lit pos v => rw [Option.some.inj h]; rfl
  | _ => cases h

/-- The negation of a literal is known just if the literal is a truth value. -/
theorem map_bool? (e : Expr) :
    (e.bool?.map fun b ↦ Constant.bool !b) =
      (e.literal?.map Literal.constant).bind Constant.negated := by
  cases e with
  | lit pos value => cases value <;> rfl
  | _ => rfl

theorem foldedNot_of_bool? {pos : Position} {e : Expr} (h : e.bool? = none) :
    foldedNot pos e = not pos e := by
  rw [foldedNot, h]

theorem foldedBinary_of_reduce {pos : Position} {op : BinOp} {lhs rhs : Expr}
    (h : op.reduce lhs.literal? rhs.literal? = none) :
    foldedBinary pos op lhs rhs = binary pos op lhs rhs := by
  rw [foldedBinary, h]

theorem map_literal?_foldedNot (pos : Position) (e : Expr) :
    (foldedNot pos e).literal?.map Literal.constant = e.bool?.map fun b ↦ Constant.bool !b := by
  unfold foldedNot
  split <;> simp [*, literal?, Literal.constant]

theorem literal?_foldedBinary (pos : Position) (op : BinOp) (lhs rhs : Expr) :
    (foldedBinary pos op lhs rhs).literal? = op.reduce lhs.literal? rhs.literal? := by
  unfold foldedBinary
  split
  · rename_i h
    exact h.symm
  · rename_i h
    exact h.symm

@[simp] theorem pos_fold (e : Expr) : e.fold.pos = e.pos := by
  cases e with
  | not pos operand =>
    rw [fold, foldedNot]
    split <;> rfl
  | binary pos op lhs rhs =>
    rw [fold, foldedBinary]
    split <;> rfl
  | _ => rfl

/-- An expression folds to a literal just if it has a value, and then to that value. -/
theorem constant?_eq (e : Expr) : e.constant? = e.fold.literal?.map Literal.constant := by
  induction e using Expr.memberInduct with
  | lit pos value => exact constant?_lit pos value
  | not pos operand ih =>
    rw [constant?, ih, fold, map_literal?_foldedNot, map_bool?]
  | binary pos op lhs rhs ihl ihr =>
    rw [constant?, ihl, ihr, fold, literal?_foldedBinary, BinOp.map_reduce]
  | _ => rfl

/-- A closed expression folds to a literal just if the evaluator has a value for it, and then to
that value. Otherwise its outermost operator stays and only the operands are folded. -/
theorem fold_closed_exact {e : Expr} (h : e.isClosed = true) :
    (∀ v, (∃ value, e.fold = lit e.pos value ∧ value.constant = v) ↔ e.constant? = some v) ∧
      (e.constant? = none →
        (∃ pos operand, e = not pos operand ∧ e.fold = not pos operand.fold) ∨
          ∃ pos op lhs rhs, e = binary pos op lhs rhs ∧
            e.fold = binary pos op lhs.fold rhs.fold) := by
  refine ⟨fun v ↦ ?_, fun hnone ↦ ?_⟩
  · rw [constant?_eq, Option.map_eq_some_iff]
    constructor
    · rintro ⟨value, hfold, hv⟩
      exact ⟨value, by rw [hfold, literal?], hv⟩
    · rintro ⟨value, hliteral, hv⟩
      exact ⟨value, by rw [← pos_fold]; exact eq_lit_of_literal? hliteral, hv⟩
  · cases e with
    | lit pos value => rw [constant?_lit] at hnone; cases hnone
    | not pos operand =>
      rw [constant?, constant?_eq, ← map_bool?, Option.map_eq_none_iff] at hnone
      exact .inl ⟨pos, operand, rfl, foldedNot_of_bool? hnone⟩
    | binary pos op lhs rhs =>
      rw [constant?, constant?_eq lhs, constant?_eq rhs, ← BinOp.map_reduce,
        Option.map_eq_none_iff] at hnone
      exact .inr ⟨pos, op, lhs, rhs, rfl, foldedBinary_of_reduce hnone⟩
    | _ => cases h

/-- An integer literal. -/
def ofInt (n : Int32) : Expr := lit .origin (.int n)

/-- Half of the lowest integer is negative, so nobody looks at the division by zero. -/
def settledTest : Expr :=
  binary .origin .or
    (binary .origin .lt (binary .origin .div (ofInt (-2147483648)) (ofInt 2)) (ofInt 0))
    (binary .origin .gt (binary .origin .rem (ofInt 1) (ofInt 0)) (ofInt 2))

/-- The remainder is undefined, though it would be zero, and with it the sum. -/
def unsettledSum : Expr :=
  binary .origin .add (binary .origin .rem (ofInt (-2147483648)) (ofInt (-1)))
    (binary .origin .mul (ofInt 6) (ofInt 7))

theorem settledTest_unsettledSum_fold :
    (settledTest.isClosed = true ∧ settledTest.constant? = some (.bool true) ∧
      ∃ value, settledTest.fold = lit .origin value ∧ value.constant = .bool true) ∧
    unsettledSum.isClosed = true ∧ unsettledSum.constant? = none ∧
      ∃ lhs rhs, unsettledSum.fold = binary .origin .add lhs rhs ∧
        rhs.literal? = some (.int 42) := by
  refine ⟨⟨rfl, by decide, ((fold_closed_exact rfl).1 _).mpr (by decide)⟩, rfl, by decide, ?_⟩
  obtain ⟨pos, operand, hnot, -⟩ | ⟨pos, op, lhs, rhs, hbinary, hfold⟩ :=
    (fold_closed_exact (e := unsettledSum) rfl).2 (by decide)
  · cases hnot
  · cases hbinary
    exact ⟨_, _, hfold, by decide⟩

/-! ## Normal forms -/

/-- No part of the expression has a value, unless it is a literal. -/
inductive Normal : Expr → Prop
  | intro {e : Expr} (value : e.constant?.isSome = true → e.literal?.isSome = true)
    (children : ∀ child ∈ e.children, Normal child) : Normal e

namespace Normal

variable {e operand lhs rhs : Expr} {pos : Position} {op : BinOp}

theorem child (h : e.Normal) : ∀ child ∈ e.children, child.Normal := by
  cases h with
  | intro _ children => exact children

/-- The value of a normal expression is the literal that it is. -/
theorem constant? (h : e.Normal) : e.constant? = e.literal?.map Literal.constant := by
  cases hliteral : e.literal? with
  | some value =>
    rw [eq_lit_of_literal? hliteral, constant?_lit]
    rfl
  | none =>
    cases h with
    | intro value _ =>
      rw [hliteral] at value
      exact Option.isNone_iff_eq_none.mp (by simpa using value)

/-- Without a value of its own an expression is normal if its children are. -/
theorem of_constant? (h : e.constant? = none) (hchildren : ∀ child ∈ e.children, child.Normal) :
    e.Normal :=
  .intro (by rw [h]; exact fun h ↦ by cases h) hchildren

theorem lit (pos : Position) (value : Literal) : (Expr.lit pos value).Normal :=
  .intro (fun _ ↦ rfl) fun _ hchild ↦ absurd hchild List.not_mem_nil

theorem not_iff : (Expr.not pos operand).Normal ↔ operand.Normal ∧ operand.bool? = none := by
  have hvalue : operand.Normal →
      ((Expr.not pos operand).constant? = none ↔ operand.bool? = none) := by
    intro h
    rw [Expr.constant?, h.constant?, ← map_bool?, Option.map_eq_none_iff]
  constructor
  · intro h
    have hoperand := h.child operand List.mem_cons_self
    exact ⟨hoperand, (hvalue hoperand).mp h.constant?⟩
  · rintro ⟨hoperand, hbool⟩
    exact of_constant? ((hvalue hoperand).mpr hbool) (List.forall_mem_singleton.mpr hoperand)

theorem binary_iff : (Expr.binary pos op lhs rhs).Normal ↔
    lhs.Normal ∧ rhs.Normal ∧ op.reduce lhs.literal? rhs.literal? = none := by
  have hvalue : lhs.Normal → rhs.Normal → ((Expr.binary pos op lhs rhs).constant? = none ↔
      op.reduce lhs.literal? rhs.literal? = none) := by
    intro hl hr
    rw [Expr.constant?, hl.constant?, hr.constant?, ← BinOp.map_reduce, Option.map_eq_none_iff]
  constructor
  · intro h
    obtain ⟨hl, hr⟩ := List.forall_mem_cons.mp h.child
    rw [List.forall_mem_singleton] at hr
    exact ⟨hl, hr, (hvalue hl hr).mp h.constant?⟩
  · rintro ⟨hl, hr, hreduce⟩
    exact of_constant? ((hvalue hl hr).mpr hreduce)
      (List.forall_mem_cons.mpr ⟨hl, List.forall_mem_singleton.mpr hr⟩)

end Normal

/-- A folded expression is normal. -/
theorem normal_fold (e : Expr) : e.fold.Normal := by
  have hall : ∀ {es : List Expr}, (∀ e ∈ es, e.fold.Normal) → ∀ e ∈ foldAll es, e.Normal := by
    intro es h
    rw [foldAll_eq_map, List.forall_mem_map]
    exact h
  induction e using Expr.memberInduct with
  | lit pos value => exact .lit pos value
  | this | var | newObject => exact .of_constant? rfl fun _ hchild ↦ absurd hchild List.not_mem_nil
  | not pos operand ih =>
    rw [fold, foldedNot]
    split
    · exact .lit pos _
    · rename_i hbool
      exact Normal.not_iff.mpr ⟨ih, hbool⟩
  | binary pos op lhs rhs ihl ihr =>
    rw [fold, foldedBinary]
    split
    · exact .lit pos _
    · rename_i hreduce
      exact Normal.binary_iff.mpr ⟨ihl, ihr, hreduce⟩
  | index pos base idx ihb ihi =>
    exact .of_constant? rfl (List.forall_mem_cons.mpr ⟨ihb, List.forall_mem_singleton.mpr ihi⟩)
  | array pos elements ih => exact .of_constant? rfl (hall ih)
  | newArray pos elem size ih => exact .of_constant? rfl (List.forall_mem_singleton.mpr ih)
  | length pos base ih => exact .of_constant? rfl (List.forall_mem_singleton.mpr ih)
  | call pos method args ih => exact .of_constant? rfl (hall ih)
  | callOn pos receiver method args ihr iha =>
    exact .of_constant? rfl (List.forall_mem_cons.mpr ⟨ihr, hall iha⟩)

/-! ### What folding counts -/

theorem foldCountAll_eq_zero {es : List Expr} :
    foldCountAll es = 0 ↔ ∀ e ∈ es, e.foldCount = 0 := by
  induction es with
  | nil => exact ⟨fun _ e he ↦ absurd he List.not_mem_nil, fun _ ↦ rfl⟩
  | cons e es ih => rw [foldCountAll, Nat.add_eq_zero_iff, ih, List.forall_mem_cons]

theorem foldAll_eq_self {es : List Expr} (h : ∀ e ∈ es, e.fold = e) : foldAll es = es := by
  rw [foldAll_eq_map, List.map_congr_left h, List.map_id']

/-- What is counted is all that is changed. -/
theorem fold_of_foldCount {e : Expr} : e.foldCount = 0 → e.fold = e := by
  have hall : ∀ {es : List Expr}, (∀ e ∈ es, e.foldCount = 0 → e.fold = e) →
      foldCountAll es = 0 → foldAll es = es := by
    intro es ih h
    exact foldAll_eq_self fun e he ↦ ih e he (foldCountAll_eq_zero.mp h e he)
  induction e using Expr.memberInduct with
  | lit | this | var | newObject => exact fun _ ↦ rfl
  | not pos operand ih =>
    intro h
    rw [foldCount, Nat.add_eq_zero_iff] at h
    rw [fold, ih h.1]
    refine foldedNot_of_bool? ?_
    simpa [ih h.1] using h.2
  | binary pos op lhs rhs ihl ihr =>
    intro h
    rw [foldCount, Nat.add_eq_zero_iff] at h
    obtain ⟨hl, h⟩ := h
    -- An operator that its left operand decides is a change, whatever stands on the right.
    split at h
    · cases h
    · obtain ⟨hr, hreduce⟩ := Nat.add_eq_zero_iff.mp h
      rw [fold, ihl hl, ihr hr]
      refine foldedBinary_of_reduce ?_
      simpa [ihl hl, ihr hr] using hreduce
  | index pos base idx ihb ihi =>
    intro h
    obtain ⟨hb, hi⟩ := Nat.add_eq_zero_iff.mp h
    rw [fold, ihb hb, ihi hi]
  | array pos elements ih =>
    intro h
    rw [fold, hall ih h]
  | newArray pos elem size ih =>
    intro h
    rw [fold, ih h]
  | length pos base ih =>
    intro h
    rw [fold, ih h]
  | call pos method args ih =>
    intro h
    rw [fold, hall ih h]
  | callOn pos receiver method args ihr iha =>
    intro h
    obtain ⟨hr, ha⟩ := Nat.add_eq_zero_iff.mp h
    rw [fold, ihr hr, hall iha ha]

theorem foldCount_of_normal {e : Expr} : e.Normal → e.foldCount = 0 := by
  have hall : ∀ {es : List Expr}, (∀ e ∈ es, e.Normal → e.foldCount = 0) →
      (∀ e ∈ es, e.Normal) → foldCountAll es = 0 :=
    fun ih h ↦ foldCountAll_eq_zero.mpr fun e he ↦ ih e he (h e he)
  induction e using Expr.memberInduct with
  | lit | this | var | newObject => exact fun _ ↦ rfl
  | not pos operand ih =>
    intro h
    obtain ⟨hoperand, hbool⟩ := Normal.not_iff.mp h
    rw [foldCount, fold_of_foldCount (ih hoperand), ih hoperand, hbool]
    rfl
  | binary pos op lhs rhs ihl ihr =>
    intro h
    obtain ⟨hl, hr, hreduce⟩ := Normal.binary_iff.mp h
    have hdecided : lhs.literal?.bind op.decidedBy = none := (Option.or_eq_none_iff.mp hreduce).1
    rw [foldCount, fold_of_foldCount (ihl hl), fold_of_foldCount (ihr hr), ihl hl, ihr hr, hreduce,
      hdecided]
    rfl
  | index pos base idx ihb ihi =>
    intro h
    obtain ⟨hb, hi⟩ := List.forall_mem_cons.mp h.child
    rw [foldCount, ihb hb, ihi (hi idx List.mem_cons_self)]
  | array pos elements ih => exact fun h ↦ hall ih h.child
  | newArray pos elem size ih => exact fun h ↦ ih (h.child size List.mem_cons_self)
  | length pos base ih => exact fun h ↦ ih (h.child base List.mem_cons_self)
  | call pos method args ih => exact fun h ↦ hall ih h.child
  | callOn pos receiver method args ihr iha =>
    intro h
    obtain ⟨hr, ha⟩ := List.forall_mem_cons.mp h.child
    rw [foldCount, ihr hr, hall iha ha]

theorem foldCount_fold (e : Expr) : e.fold.foldCount = 0 := foldCount_of_normal e.normal_fold

@[simp] theorem fold_fold (e : Expr) : e.fold.fold = e.fold := fold_of_foldCount e.foldCount_fold

end Expr

/-! ## Statements -/

namespace Stmt

/-- The expressions are normal, and neither branches nor loops are settled. -/
inductive Normal : Stmt → Prop
  | block {pos : Position} {stmts : List Stmt} : (∀ stmt ∈ stmts, Normal stmt) →
    Normal (.block pos stmts)
  | ifElse {pos : Position} {cond : Expr} {thenBranch elseBranch : Stmt} : cond.Normal →
    cond.bool? = none → Normal thenBranch → Normal elseBranch →
    Normal (.ifElse pos cond thenBranch elseBranch)
  | whileLoop {pos : Position} {cond : Expr} {body : Stmt} : cond.Normal →
    cond.bool? ≠ some false → Normal body → Normal (.whileLoop pos cond body)
  | eval {pos : Position} {expr : Expr} : expr.Normal → Normal (.eval pos expr)
  | assign {pos : Position} {target : String} {value : Expr} : value.Normal →
    Normal (.assign pos target value)
  | store {pos : Position} {target : String} {index value : Expr} : index.Normal → value.Normal →
    Normal (.store pos target index value)
  | ret {pos : Position} {value : Option Expr} : (∀ e ∈ value, e.Normal) →
    Normal (.ret pos value)

/-- A folded statement is normal. -/
theorem normal_fold (stmt : Stmt) : stmt.fold.Normal := by
  induction stmt using Stmt.memberInduct with
  | block pos stmts ih =>
    rw [fold, foldAll_eq_map]
    exact .block (List.forall_mem_map.mpr ih)
  | ifElse pos cond thenBranch elseBranch ihThen ihElse =>
    rw [fold]
    split
    · exact ihThen
    · exact ihElse
    · rename_i hcond
      exact .ifElse cond.normal_fold hcond ihThen ihElse
  | whileLoop pos cond body ihBody =>
    rw [fold]
    split
    · exact .block fun stmt hstmt ↦ absurd hstmt List.not_mem_nil
    · rename_i hcond
      exact .whileLoop cond.normal_fold hcond ihBody
  | eval pos expr => exact .eval expr.normal_fold
  | assign pos target value => exact .assign value.normal_fold
  | store pos target index value => exact .store index.normal_fold value.normal_fold
  | ret pos value =>
    refine .ret fun e he ↦ ?_
    obtain ⟨e', -, rfl⟩ := Option.map_eq_some_iff.mp he
    exact e'.normal_fold

theorem foldCountAll_eq_zero {stmts : List Stmt} :
    foldCountAll stmts = 0 ↔ ∀ stmt ∈ stmts, stmt.foldCount = 0 := by
  induction stmts with
  | nil => exact ⟨fun _ stmt hs ↦ absurd hs List.not_mem_nil, fun _ ↦ rfl⟩
  | cons stmt stmts ih => rw [foldCountAll, Nat.add_eq_zero_iff, ih, List.forall_mem_cons]

theorem foldAll_eq_self {stmts : List Stmt} (h : ∀ stmt ∈ stmts, stmt.fold = stmt) :
    foldAll stmts = stmts := by
  rw [foldAll_eq_map, List.map_congr_left h, List.map_id']

theorem fold_of_foldCount {stmt : Stmt} : stmt.foldCount = 0 → stmt.fold = stmt := by
  induction stmt using Stmt.memberInduct with
  | block pos stmts ih =>
    intro h
    rw [fold, foldAll_eq_self fun stmt hs ↦ ih stmt hs (foldCountAll_eq_zero.mp h stmt hs)]
  | ifElse pos cond thenBranch elseBranch ihThen ihElse =>
    intro h
    obtain ⟨hcond, h⟩ := Nat.add_eq_zero_iff.mp h
    rw [fold]
    split at h
    -- A branch that is taken counts, so the condition is not settled.
    · omega
    · omega
    · obtain ⟨hthen, helse⟩ := Nat.add_eq_zero_iff.mp h
      rw [Expr.fold_of_foldCount hcond, ihThen hthen, ihElse helse]
  | whileLoop pos cond body ihBody =>
    intro h
    obtain ⟨hcond, h⟩ := Nat.add_eq_zero_iff.mp h
    rw [fold]
    split at h
    · cases h
    · rw [Expr.fold_of_foldCount hcond, ihBody h]
  | eval pos expr =>
    intro h
    rw [fold, Expr.fold_of_foldCount h]
  | assign pos target value =>
    intro h
    rw [fold, Expr.fold_of_foldCount h]
  | store pos target index value =>
    intro h
    obtain ⟨hi, hv⟩ := Nat.add_eq_zero_iff.mp h
    rw [fold, Expr.fold_of_foldCount hi, Expr.fold_of_foldCount hv]
  | ret pos value =>
    intro h
    cases value with
    | none => rfl
    | some value => rw [fold, Option.map_some, Expr.fold_of_foldCount h]

theorem foldCount_of_normal {stmt : Stmt} (h : stmt.Normal) : stmt.foldCount = 0 := by
  induction h with
  | block _ ih => exact foldCountAll_eq_zero.mpr ih
  | ifElse hcond hbool _ _ ihThen ihElse =>
    have hcount := Expr.foldCount_of_normal hcond
    rw [foldCount, hcount, Expr.fold_of_foldCount hcount, hbool, ihThen, ihElse]
    rfl
  | whileLoop hcond hbool _ ihBody =>
    have hcount := Expr.foldCount_of_normal hcond
    rw [foldCount, hcount, Expr.fold_of_foldCount hcount, ihBody]
    split
    · contradiction
    · rfl
  | eval hexpr => exact Expr.foldCount_of_normal hexpr
  | assign hvalue => exact Expr.foldCount_of_normal hvalue
  | store hindex hvalue =>
    rw [foldCount, Expr.foldCount_of_normal hindex, Expr.foldCount_of_normal hvalue]
  | @ret pos value hvalue =>
    cases value with
    | none => rfl
    | some value => exact Expr.foldCount_of_normal (hvalue value rfl)

end Stmt

/-! ## Programs -/

/-- The counts of a list add up to nothing just if each of them is nothing. -/
theorem foldr_add_eq_zero {α : Type} (f : α → Nat) (xs : List α) :
    xs.foldr (fun x n ↦ f x + n) 0 = 0 ↔ ∀ x ∈ xs, f x = 0 := by
  rw [← List.foldr_map, ← List.sum_eq_foldr, List.sum_eq_zero_iff_forall_eq_nat,
    List.forall_mem_map]

namespace Program

variable {p : Program}

theorem mapBodies_eq_self {f : MethodDecl → List Stmt} :
    p.mapBodies f = p ↔ ∀ m ∈ p.decl.methods, f m = m.body := by
  obtain ⟨imports, name, superclass, fields, methods, pos⟩ := p
  simp only [mapBodies, mk.injEq, ClassDecl.mk.injEq, true_and, and_true]
  have hbody : ∀ m : MethodDecl, { m with body := f m } = m ↔ f m = m.body :=
    fun m ↦ ⟨fun h ↦ congrArg MethodDecl.body h, fun h ↦ by rw [h]⟩
  conv_lhs => rhs; rw [← List.map_id methods]
  rw [List.map_inj_left]
  exact forall₂_congr fun m _ ↦ hbody m

/-- Every statement of every method is normal. -/
def Normal (p : Program) : Prop := ∀ m ∈ p.decl.methods, ∀ stmt ∈ m.body, stmt.Normal

theorem normal_fold (p : Program) : p.fold.Normal := by
  refine List.forall_mem_map.mpr fun m _ ↦ ?_
  show ∀ stmt ∈ Stmt.foldAll m.body, stmt.Normal
  rw [Stmt.foldAll_eq_map, List.forall_mem_map]
  exact fun stmt _ ↦ stmt.normal_fold

theorem foldCount_eq_zero :
    p.foldCount = 0 ↔ ∀ m ∈ p.decl.methods, ∀ stmt ∈ m.body, stmt.foldCount = 0 := by
  rw [foldCount, foldr_add_eq_zero]
  exact forall₂_congr fun m _ ↦ Stmt.foldCountAll_eq_zero

theorem foldCount_of_normal (h : p.Normal) : p.foldCount = 0 :=
  foldCount_eq_zero.mpr fun m hm stmt hstmt ↦ Stmt.foldCount_of_normal (h m hm stmt hstmt)

theorem fold_of_foldCount (h : p.foldCount = 0) : p.fold = p :=
  mapBodies_eq_self.mpr fun m hm ↦ Stmt.foldAll_eq_self fun stmt hstmt ↦
    Stmt.fold_of_foldCount (foldCount_eq_zero.mp h m hm stmt hstmt)

/-- One pass of folding reaches a normal form, so that a second one neither changes nor counts
anything. Folding counts nothing in just those programs that it does not change. -/
theorem fold_reaches_normal (p : Program) :
    p.fold.Normal ∧ p.fold.fold = p.fold ∧ p.fold.foldCount = 0 ∧
      (p.foldCount = 0 ↔ p.fold = p) := by
  have hcount : p.fold.foldCount = 0 := foldCount_of_normal p.normal_fold
  refine ⟨p.normal_fold, fold_of_foldCount hcount, hcount, fold_of_foldCount, fun h ↦ ?_⟩
  rwa [h] at hcount

end Program

end Tricode
