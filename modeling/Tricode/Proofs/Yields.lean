import Mathlib.Data.List.Forall2
import Tricode.Lowering.Stmt

/-!
# What lowering yields

`x.Yields c a c'` says that the step `x` succeeds from the counters `c` with the result `a` and
leaves the counters at `c'`. For every combinator of lowering there is one lemma that takes such a
success apart: which steps ran, from which counters, and what code was put together. Whatever is
proved of lowered code rests on these lemmas and never unfolds a combinator again.
-/

namespace Tricode

namespace Lower

/-- The step succeeds with the result `a` and leaves the counters at `c'`. -/
def Yields {α : Type} (x : Lower α) (c : Counters) (a : α) (c' : Counters) : Prop :=
  x.runFrom c = (.ok a, c')

section

variable {α β : Type} {c c' : Counters}

@[simp] theorem yields_pure {a b : α} : (pure a : Lower α).Yields c b c' ↔ b = a ∧ c' = c := by
  rw [Yields, runFrom_pure, Prod.mk.injEq, Except.ok.injEq, eq_comm, @eq_comm _ c]

@[simp] theorem yields_throw {fault : Fault} {a : α} :
    ¬(throw fault : Lower α).Yields c a c' := by
  rw [Yields, runFrom_throw, Prod.mk.injEq]
  rintro ⟨h, -⟩
  cases h

@[simp] theorem yields_bind {x : Lower α} {f : α → Lower β} {b : β} :
    (x >>= f).Yields c b c' ↔ ∃ a c₁, x.Yields c a c₁ ∧ (f a).Yields c₁ b c' := by
  rw [Yields, runFrom_bind]
  constructor
  · intro h
    rcases hx : x.runFrom c with ⟨_ | a, c₁⟩
    · rw [hx] at h
      cases h
    · rw [hx] at h
      exact ⟨a, c₁, hx, h⟩
  · rintro ⟨a, c₁, hx, hf⟩
    rw [Yields] at hx
    rw [hx]
    exact hf

@[simp] theorem yields_freshTemp {n : Nat} :
    freshTemp.Yields c n c' ↔ n = c.temps ∧ c' = { c with temps := c.temps + 1 } := by
  rw [Yields, runFrom_freshTemp, Prod.mk.injEq, Except.ok.injEq, eq_comm, @eq_comm _ _ c']

@[simp] theorem yields_freshIf {n : Nat} :
    freshIf.Yields c n c' ↔ n = c.ifs ∧ c' = { c with ifs := c.ifs + 1 } := by
  rw [Yields, runFrom_freshIf, Prod.mk.injEq, Except.ok.injEq, eq_comm, @eq_comm _ _ c']

@[simp] theorem yields_freshWhile {n : Nat} :
    freshWhile.Yields c n c' ↔ n = c.whiles ∧ c' = { c with whiles := c.whiles + 1 } := by
  rw [Yields, runFrom_freshWhile, Prod.mk.injEq, Except.ok.injEq, eq_comm, @eq_comm _ _ c']

@[simp] theorem yields_freshCond {n : Nat} :
    freshCond.Yields c n c' ↔ n = c.conds ∧ c' = { c with conds := c.conds + 1 } := by
  rw [Yields, runFrom_freshCond, Prod.mk.injEq, Except.ok.injEq, eq_comm, @eq_comm _ _ c']

end

/-! ## Expressions -/

section

variable {c c' : Counters} {l : Lowered}

theorem yields_intoTemp {ty : Ty} {code : Code} {value : Rvalue} :
    (intoTemp ty code value).Yields c l c' ↔
      l = ⟨.temp c.temps ty, code ++ [.assign (.temp c.temps ty) ty value]⟩ ∧
        c' = { c with temps := c.temps + 1 } := by
  simp only [intoTemp, yields_bind, yields_freshTemp, yields_pure]
  constructor
  · rintro ⟨id, c₁, ⟨rfl, rfl⟩, rfl, rfl⟩
    exact ⟨rfl, rfl⟩
  · rintro ⟨rfl, rfl⟩
    exact ⟨_, _, ⟨rfl, rfl⟩, rfl, rfl⟩

theorem yields_not {operand : Emit} (h : (Lower.not operand).Yields c l c') :
    ∃ inner c₁, (operand (some .boolean)).Yields c inner c₁ ∧
      l = ⟨.temp c₁.temps .boolean,
        inner.code ++ [.assign (.temp c₁.temps .boolean) .boolean (.not inner.operand)]⟩ ∧
      c' = { c₁ with temps := c₁.temps + 1 } := by
  simpa [Lower.not, yields_intoTemp] using h

theorem yields_arithmetic {op : BinOp} {lhs rhs : Emit}
    (h : (arithmetic op lhs rhs).Yields c l c') :
    ∃ left c₁ right c₂, (lhs (some .int)).Yields c left c₁ ∧
      (rhs (some .int)).Yields c₁ right c₂ ∧
      l = ⟨.temp c₂.temps .int, left.code ++ right.code ++
        [.assign (.temp c₂.temps .int) .int (.binary op left.operand right.operand)]⟩ ∧
      c' = { c₂ with temps := c₂.temps + 1 } := by
  simp only [arithmetic, yields_bind, yields_intoTemp] at h
  obtain ⟨left, c₁, hl, right, c₂, hr, rfl, rfl⟩ := h
  exact ⟨left, c₁, right, c₂, hl, hr, rfl, rfl⟩

theorem yields_compare {op : BinOp} {lhs rhs : Emit} {cond : Cond} {code : Code}
    (h : (compare op lhs rhs).Yields c (cond, code) c') :
    ∃ left c₁ right, (lhs (some .int)).Yields c left c₁ ∧
      (rhs (some .int)).Yields c₁ right c' ∧
      cond = .compare op left.operand right.operand ∧ code = left.code ++ right.code := by
  simp only [compare, yields_bind, yields_pure, Prod.mk.injEq] at h
  obtain ⟨left, c₁, hl, right, c₂, hr, ⟨rfl, rfl⟩, rfl⟩ := h
  exact ⟨left, c₁, right, hl, hr, rfl, rfl⟩

theorem yields_comparison {op : BinOp} {lhs rhs : Emit}
    (h : (comparison op lhs rhs).Yields c l c') :
    ∃ cond code c₁, (compare op lhs rhs).Yields c (cond, code) c₁ ∧
      l = ⟨.temp c₁.temps .boolean,
        code ++
          [.branch cond (.numbered .cmpTrue c₁.conds),
            setBool c₁.temps (.bool false),
            .goto (.numbered .cmpEnd c₁.conds),
            .label (.numbered .cmpTrue c₁.conds),
            setBool c₁.temps (.bool true),
            .label (.numbered .cmpEnd c₁.conds)]⟩ ∧
      c' = { c₁ with temps := c₁.temps + 1, conds := c₁.conds + 1 } := by
  simp only [comparison, yields_bind, Prod.exists, yields_freshCond, yields_freshTemp,
    yields_pure] at h
  obtain ⟨cond, code, c₁, hcmp, n, c₂, ⟨rfl, rfl⟩, id, c₃, ⟨rfl, rfl⟩, rfl, rfl⟩ := h
  exact ⟨cond, code, c₁, hcmp, rfl, rfl⟩

theorem yields_and {lhs rhs : Emit} (h : (Lower.and lhs rhs).Yields c l c') :
    ∃ left c₁ right, (lhs (some .boolean)).Yields c left c₁ ∧
      (rhs (some .boolean)).Yields
        { c₁ with temps := c₁.temps + 1, conds := c₁.conds + 1 } right c' ∧
      l = ⟨.temp c₁.temps .boolean,
        left.code ++
          [.branch (.truthy left.operand) (.numbered .andRhs c₁.conds),
            setBool c₁.temps (.bool false),
            .goto (.numbered .andEnd c₁.conds),
            .label (.numbered .andRhs c₁.conds)] ++
          right.code ++
          [setBool c₁.temps right.operand,
            .label (.numbered .andEnd c₁.conds)]⟩ := by
  simp only [Lower.and, yields_bind, yields_freshCond, yields_freshTemp, yields_pure] at h
  obtain ⟨left, c₁, hl, n, c₂, ⟨rfl, rfl⟩, id, c₃, ⟨rfl, rfl⟩, right, c₄, hr, rfl, rfl⟩ := h
  exact ⟨left, c₁, right, hl, hr, rfl⟩

theorem yields_or {lhs rhs : Emit} (h : (Lower.or lhs rhs).Yields c l c') :
    ∃ left c₁ right, (lhs (some .boolean)).Yields c left c₁ ∧
      (rhs (some .boolean)).Yields
        { c₁ with temps := c₁.temps + 1, conds := c₁.conds + 1 } right c' ∧
      l = ⟨.temp c₁.temps .boolean,
        left.code ++
          [.branch (.truthy left.operand) (.numbered .orTrue c₁.conds)] ++
          right.code ++
          [setBool c₁.temps right.operand,
            .goto (.numbered .orEnd c₁.conds),
            .label (.numbered .orTrue c₁.conds),
            setBool c₁.temps (.bool true),
            .label (.numbered .orEnd c₁.conds)]⟩ := by
  simp only [Lower.or, yields_bind, yields_freshCond, yields_freshTemp, yields_pure] at h
  obtain ⟨left, c₁, hl, n, c₂, ⟨rfl, rfl⟩, id, c₃, ⟨rfl, rfl⟩, right, c₄, hr, rfl, rfl⟩ := h
  exact ⟨left, c₁, right, hl, hr, rfl⟩

/-! ### Arrays -/

theorem yields_index {array idx : Emit} (h : (index array idx).Yields c l c') :
    ∃ base c₁ i c₂, (array (some .intArray)).Yields c base c₁ ∧
      (idx (some .int)).Yields c₁ i c₂ ∧
      l = ⟨.temp c₂.temps base.operand.ty.element, base.code ++ i.code ++
        [.assign (.temp c₂.temps base.operand.ty.element) base.operand.ty.element
          (.element base.operand i.operand)]⟩ ∧
      c' = { c₂ with temps := c₂.temps + 1 } := by
  simp only [index, yields_bind, yields_intoTemp] at h
  obtain ⟨base, c₁, hb, i, c₂, hi, rfl, rfl⟩ := h
  exact ⟨base, c₁, i, c₂, hb, hi, rfl, rfl⟩

theorem yields_length {array : Emit} (h : (length array).Yields c l c') :
    ∃ base c₁, (array (some .intArray)).Yields c base c₁ ∧
      l = ⟨.temp c₁.temps .int, base.code ++
        [.assign (.temp c₁.temps .int) .int
          (.call ⟨.arrayLength, base.operand, none, [], .int⟩)]⟩ ∧
      c' = { c₁ with temps := c₁.temps + 1 } := by
  simpa [length, yields_intoTemp] using h

theorem yields_newArray {elem : Ty} {size : Emit} (h : (newArray elem size).Yields c l c') :
    ∃ n c₁, (size (some .int)).Yields c n c₁ ∧
      l = ⟨.temp c₁.temps elem.arrayOf, n.code ++
        [.assign (.temp c₁.temps elem.arrayOf) elem.arrayOf (.newArray elem n.operand)]⟩ ∧
      c' = { c₁ with temps := c₁.temps + 1 } := by
  simpa [newArray, yields_intoTemp] using h

theorem yields_storeElements_cons {array : Operand} {elem : Ty} {i : Nat} {element : Emit}
    {elements : List Emit} {code : Code}
    (h : (storeElements array elem i (element :: elements)).Yields c code c') :
    ∃ value c₁ rest, (element (some elem)).Yields c value c₁ ∧
      (storeElements array elem (i + 1) elements).Yields c₁ rest c' ∧
      code = value.code ++
        .assign (.element array (.int (Int32.ofNat i)) elem) elem (.use value.operand) ::
          rest := by
  simp only [storeElements, yields_bind, yields_pure] at h
  obtain ⟨value, c₁, hv, rest, c₂, hr, rfl, rfl⟩ := h
  exact ⟨value, c₁, rest, hv, hr, rfl⟩

theorem yields_packArray {elem : Ty} {elements : List Emit}
    (h : (packArray elem elements).Yields c l c') :
    elements.length < 2147483648 ∧
      ∃ stores, (storeElements (.temp c.temps elem.arrayOf) elem 0 elements).Yields
          { c with temps := c.temps + 1 } stores c' ∧
        l = ⟨.temp c.temps elem.arrayOf,
          .assign (.temp c.temps elem.arrayOf) elem.arrayOf
            (.newArray elem (.int (Int32.ofNat elements.length))) :: stores⟩ := by
  rw [packArray] at h
  split at h
  · simp at h
  · rename_i hlen
    simp only [yields_bind, yields_pure, yields_freshTemp] at h
    obtain ⟨id, c₁, ⟨rfl, rfl⟩, stores, c₂, hs, rfl, rfl⟩ := h
    exact ⟨Nat.not_le.mp hlen, stores, hs, rfl⟩

/-! ### Objects and calls -/

theorem yields_construct {className : String} (h : (construct className).Yields c l c') :
    l = ⟨.temp c.temps (.named className),
      [.assign (.temp c.temps (.named className)) (.named className)
          (.call ⟨.new, .ofClass className, none, [], .named className⟩),
        .call ⟨.special, .temp c.temps (.named className), some "<init>", [], .void⟩]⟩ ∧
    c' = { c with temps := c.temps + 1 } := by
  simp only [construct, yields_bind, yields_freshTemp, yields_pure] at h
  obtain ⟨id, c₁, ⟨rfl, rfl⟩, rfl, rfl⟩ := h
  exact ⟨rfl, rfl⟩

theorem yields_inOrder_cons {step : Lower Lowered} {steps : List (Lower Lowered)}
    {operands : List Operand} {code : Code}
    (h : (inOrder (step :: steps)).Yields c (operands, code) c') :
    ∃ first c₁ rest restCode, step.Yields c first c₁ ∧
      (inOrder steps).Yields c₁ (rest, restCode) c' ∧
      operands = first.operand :: rest ∧ code = first.code ++ restCode := by
  simp only [inOrder, yields_bind, Prod.exists, yields_pure, Prod.mk.injEq] at h
  obtain ⟨first, c₁, hf, rest, restCode, c₂, hr, ⟨rfl, rfl⟩, rfl⟩ := h
  exact ⟨first, c₁, rest, restCode, hf, hr, rfl, rfl⟩

/-- Arguments each lowered for the type of the parameter at its place. -/
def eachFor (params : List Symbol) (args : List Emit) : List (Lower Lowered) :=
  args.zipIdx.map fun (arg, i) ↦ arg ((params[i]?).map Symbol.ty)

/-- What holds of arguments whatever is expected of them holds of them as arguments. -/
theorem forall₂_eachFor {β : Type} {R : Lower Lowered → β → Prop} (params : List Symbol)
    {args : List Emit} {bs : List β}
    (h : List.Forall₂ (fun emit b ↦ ∀ hint, R (emit hint) b) args bs) :
    List.Forall₂ R (eachFor params args) bs := by
  -- The parameters are counted from any number on, so that the induction can pass one by.
  have hfrom : ∀ n, List.Forall₂ R
      ((args.zipIdx n).map fun (arg, i) ↦ arg ((params[i]?).map Symbol.ty)) bs := by
    induction h with
    | nil => exact fun _ ↦ .nil
    | cons hhead htail ih => exact fun n ↦ .cons (hhead _) (ih (n + 1))
  exact hfrom 0

theorem ownArguments_eq_inOrder {sig : Signature} {args : List Emit}
    (h : sig.hasVarargs = false ∨ args.length = sig.params.length) :
    ownArguments sig args = inOrder (eachFor sig.params args) := by
  have hpacks : (sig.hasVarargs && args.length != sig.params.length) = false := by
    rcases h with h | h <;> simp [h]
  simp only [ownArguments, hpacks, Bool.false_eq_true, if_false, List.take_length, eachFor]
  cases sig.varargsElement <;> exact bind_pure _

theorem ownArguments_eq_packed {sig : Signature} {args : List Emit} {elem : Ty}
    (hvar : sig.hasVarargs = true) (hcount : args.length ≠ sig.params.length)
    (helem : sig.varargsElement = some elem) :
    ownArguments sig args = (do
      let (operands, code) ← inOrder (eachFor sig.params (args.take sig.fixedArity))
      let packed ← packArray elem (args.drop sig.fixedArity)
      pure (operands ++ [packed.operand], code ++ packed.code)) := by
  have hpacks : (sig.hasVarargs && args.length != sig.params.length) = true := by
    simp [hvar, hcount]
  have htake : args.take (min sig.fixedArity args.length) = args.take sig.fixedArity := by
    rw [← List.take_take, List.take_length]
  have hdrop : args.drop (min sig.fixedArity args.length) = args.drop sig.fixedArity := by
    rcases Nat.le_total sig.fixedArity args.length with hle | hle
    · rw [Nat.min_eq_left hle]
    · rw [Nat.min_eq_right hle, List.drop_length, List.drop_eq_nil_of_le hle]
  simp only [ownArguments, hpacks, if_true, htake, hdrop, helem, eachFor]

section

variable {sig : Signature} {args : List Emit} {operands : List Operand} {code : Code}
  (h : (ownArguments sig args).Yields c (operands, code) c')
include h

theorem yields_ownArguments_packed {elem : Ty} (hvar : sig.hasVarargs = true)
    (hcount : args.length ≠ sig.params.length) (helem : sig.varargsElement = some elem) :
    ∃ fixed fixedCode c₁ packed,
      (inOrder (eachFor sig.params (args.take sig.fixedArity))).Yields c (fixed, fixedCode) c₁ ∧
      (packArray elem (args.drop sig.fixedArity)).Yields c₁ packed c' ∧
      operands = fixed ++ [packed.operand] ∧ code = fixedCode ++ packed.code := by
  rw [ownArguments_eq_packed hvar hcount helem] at h
  simp only [yields_bind, Prod.exists, yields_pure, Prod.mk.injEq] at h
  obtain ⟨fixed, fixedCode, c₁, hfixed, packed, c₂, hpacked, ⟨rfl, rfl⟩, rfl⟩ := h
  exact ⟨fixed, fixedCode, c₁, packed, hfixed, hpacked, rfl, rfl⟩

/-- All arguments are lowered one by one, or the trailing ones are packed. -/
theorem yields_ownArguments
    (hvar : sig.hasVarargs = true → ∃ elem, sig.varargsElement = some elem) :
    (inOrder (eachFor sig.params args)).Yields c (operands, code) c' ∨
      ∃ elem fixed fixedCode c₁ packed,
        (inOrder (eachFor sig.params (args.take sig.fixedArity))).Yields c (fixed, fixedCode) c₁ ∧
        (packArray elem (args.drop sig.fixedArity)).Yields c₁ packed c' ∧
        operands = fixed ++ [packed.operand] ∧ code = fixedCode ++ packed.code := by
  by_cases hpacks : sig.hasVarargs = true ∧ args.length ≠ sig.params.length
  · obtain ⟨elem, helem⟩ := hvar hpacks.1
    exact .inr ⟨elem, yields_ownArguments_packed h hpacks.1 hpacks.2 helem⟩
  · rw [not_and_or, Bool.not_eq_true, not_not] at hpacks
    rw [ownArguments_eq_inOrder hpacks] at h
    exact .inl h

/-- Where the last parameter has no element type, trailing arguments may also be left out. -/
theorem exists_yields_ownArguments :
    ∃ n fixed fixedCode c₁,
      (inOrder (eachFor sig.params (args.take n))).Yields c (fixed, fixedCode) c₁ ∧
      (operands = fixed ∧ code = fixedCode ∧ c' = c₁ ∨
        ∃ elem packed, sig.varargsElement = some elem ∧
          (packArray elem (args.drop n)).Yields c₁ packed c' ∧
          operands = fixed ++ [packed.operand] ∧ code = fixedCode ++ packed.code) := by
  simp only [ownArguments, yields_bind, Prod.exists] at h
  obtain ⟨fixed, fixedCode, c₁, hfixed, hrest⟩ := h
  refine ⟨_, fixed, fixedCode, c₁, hfixed, ?_⟩
  split at hrest
  · rename_i elem helem
    split at hrest
    · rename_i hpacks
      simp only [yields_bind, yields_pure, Prod.mk.injEq] at hrest
      obtain ⟨packed, c₂, hpacked, ⟨rfl, rfl⟩, rfl⟩ := hrest
      exact .inr ⟨elem, packed, helem, by rwa [if_pos hpacks], rfl, rfl⟩
    · obtain ⟨heq, rfl⟩ := yields_pure.mp hrest
      cases heq
      exact .inl ⟨rfl, rfl, rfl⟩
  · obtain ⟨heq, rfl⟩ := yields_pure.mp hrest
    cases heq
    exact .inl ⟨rfl, rfl, rfl⟩

end

end

end Lower

namespace Scope

section

variable {s : Scope} {c c' : Counters} {l : Lowered}

theorem yields_lowerVar {pos : Position} {name : String} (h : (s.lowerVar pos name).Yields c l c') :
    (∃ symbol, s.lookup name = .stored .field symbol ∧
      l = ⟨.temp c.temps symbol.ty,
        [.assign (.temp c.temps symbol.ty) symbol.ty (.getField name symbol.ty)]⟩ ∧
      c' = { c with temps := c.temps + 1 }) ∨
    (∃ storage symbol, s.lookup name = .stored storage symbol ∧ storage ≠ .field ∧
      l = ⟨.var name symbol.ty, []⟩ ∧ c' = c) ∨
    (s.lookup name = .imported ∧ l = ⟨.ofClass name, []⟩ ∧ c' = c) := by
  unfold lowerVar at h
  split at h
  · rename_i symbol hlookup
    rw [Lower.yields_intoTemp] at h
    exact .inl ⟨symbol, hlookup, h⟩
  · rename_i storage symbol hstorage hlookup
    rw [Lower.yields_pure] at h
    exact .inr (.inl ⟨storage, symbol, hlookup, fun heq ↦ hstorage heq, h⟩)
  · rename_i hlookup
    rw [Lower.yields_pure] at h
    exact .inr (.inr ⟨hlookup, h⟩)
  · exact absurd h Lower.yields_throw

/-! ### Receivers -/

/-- The receiver is a value that a call is made on. The object itself and imported classes are
not looked at as values. -/
def isObject (s : Scope) : Expr → Bool
  | .this _ => false
  | .var _ name => s.lookup name != .imported
  | _ => true

theorem receiver_cases (s : Scope) (receiver : Expr) :
    (∃ pos, receiver = .this pos) ∨
    (∃ pos name, receiver = .var pos name ∧ s.lookup name = .imported) ∨
    s.isObject receiver = true := by
  cases receiver with
  | this pos => exact .inl ⟨pos, rfl⟩
  | var pos name =>
    by_cases h : s.lookup name = .imported
    · exact .inr (.inl ⟨pos, name, rfl, h⟩)
    · exact .inr (.inr (by simpa [isObject] using h))
  | _ => exact .inr (.inr rfl)

theorem dispatch_eq_objectDispatch {receiver : Expr} (h : s.isObject receiver = true)
    (pos : Position) (emit : Emit) (method : String) :
    s.dispatch pos receiver emit method = s.objectDispatch pos receiver emit method := by
  cases receiver with
  | this pos => cases h
  | var pos name =>
    have hne : s.lookup name ≠ .imported := by simpa [isObject] using h
    rw [dispatch, if_neg hne]
  | _ => rfl

theorem yields_objectDispatch {pos : Position} {receiver : Expr} {emit : Emit} {method : String}
    {d : Dispatch} (h : (s.objectDispatch pos receiver emit method).Yields c d c') :
    ∃ object, (emit (some (s.receiverHint receiver))).Yields c object c' ∧
      object.operand.ty.isClass = true ∧
      d = ⟨.virtual, object.operand,
        if object.operand.ty.name == s.table.className then s.table.method? method else none,
        object.code⟩ := by
  simp only [objectDispatch, Lower.yields_bind] at h
  obtain ⟨object, c₁, hobject, h⟩ := h
  split at h
  · rename_i hclass
    obtain ⟨rfl, rfl⟩ := Lower.yields_pure.mp h
    exact ⟨object, hobject, hclass, rfl⟩
  · exact absurd h Lower.yields_throw

/-! ### Calls -/

/-- What holds of each expression holds along a list of them, for the code and for what `f` makes
of the expressions. -/
theorem forall₂_lowerEach {β : Type} {R : Emit → β → Prop} {f : Expr → β} {es : List Expr}
    (h : ∀ e ∈ es, R (s.lowerExpr e) (f e)) : List.Forall₂ R (s.lowerEach es) (es.map f) := by
  rw [lowerEach_eq_map, List.forall₂_map_left_iff, List.forall₂_map_right_iff, List.forall₂_same]
  exact h

/-- Arguments to a method from outside are each lowered for their own type. -/
theorem zipWith_lowerEach (s : Scope) (args : List Expr) :
    List.zipWith (fun arg emit ↦ emit (s.argumentHint arg)) args (s.lowerEach args) =
      args.map fun arg ↦ s.lowerExpr arg (s.argumentHint arg) := by
  rw [lowerEach_eq_map, List.zipWith_map_right, List.zipWith_self]

theorem forall₂_zipWith_lowerEach {β : Type} {R : Lower Lowered → β → Prop} {f : Expr → β}
    {args : List Expr} (h : ∀ e ∈ args, ∀ hint, R (s.lowerExpr e hint) (f e)) :
    List.Forall₂ R
      (List.zipWith (fun arg emit ↦ emit (s.argumentHint arg)) args (s.lowerEach args))
      (args.map f) := by
  rw [zipWith_lowerEach, List.forall₂_map_left_iff, List.forall₂_map_right_iff, List.forall₂_same]
  exact fun e he ↦ h e he _

/-- The arguments of a call, for the method of the unit that answers it or for one from
outside. -/
def lowerArguments (s : Scope) (callee : Option Signature) (args : List Expr)
    (emits : List Emit) : Lower (List Operand × Code) :=
  match callee with
  | some sig => Lower.ownArguments sig emits
  | none => Lower.inOrder (List.zipWith (fun arg emit ↦ emit (s.argumentHint arg)) args emits)

theorem yields_lowerCall {receiver : Lower Dispatch} {method : String} {args : List Expr}
    {emits : List Emit} {retHint : Ty} {call : Call} {code : Code}
    (h : (s.lowerCall receiver method args emits retHint).Yields c (call, code) c') :
    ∃ d c₁ operands argCode, receiver.Yields c d c₁ ∧
      (s.lowerArguments d.callee args emits).Yields c₁ (operands, argCode) c' ∧
      call = ⟨d.kind, d.receiver, some method, operands,
        (d.callee.map Signature.returnType).getD retHint⟩ ∧
      code = d.code ++ argCode := by
  simp only [lowerCall, Lower.yields_bind] at h
  obtain ⟨d, c₁, hd, h⟩ := h
  cases hcallee : d.callee with
  | none =>
    simp only [hcallee, Lower.yields_bind, Prod.exists, Lower.yields_pure, Prod.mk.injEq] at h
    obtain ⟨operands, argCode, c₂, hargs, ⟨rfl, rfl⟩, rfl⟩ := h
    exact ⟨d, c₁, operands, argCode, hd, by rw [hcallee]; exact hargs, by simp [hcallee], rfl⟩
  | some sig =>
    simp only [hcallee, Lower.yields_bind, Prod.exists, Lower.yields_pure, Prod.mk.injEq] at h
    obtain ⟨operands, argCode, c₂, hargs, ⟨rfl, rfl⟩, rfl⟩ := h
    exact ⟨d, c₁, operands, argCode, hd, by rw [hcallee]; exact hargs, by simp [hcallee], rfl⟩

theorem yields_lowerCallValue {receiver : Lower Dispatch} {method : String} {args : List Expr}
    {emits : List Emit} {expected : Option Ty}
    (h : (s.lowerCallValue receiver method args emits expected).Yields c l c') :
    ∃ call code c₁,
      (s.lowerCall receiver method args emits (expected.getD .int)).Yields c (call, code) c₁ ∧
      l = ⟨.temp c₁.temps call.ret,
        code ++ [.assign (.temp c₁.temps call.ret) call.ret (.call call)]⟩ ∧
      c' = { c₁ with temps := c₁.temps + 1 } := by
  simp only [lowerCallValue, Lower.yields_bind, Prod.exists, Lower.yields_intoTemp] at h
  exact h

/-! ## Statements -/

theorem yields_lowerTruthy {e : Expr} {cond : Cond} {code : Code}
    (h : (s.lowerTruthy e).Yields c (cond, code) c') :
    ∃ value, (s.lowerExpr e (some .boolean)).Yields c value c' ∧
      cond = .truthy value.operand ∧ code = value.code := by
  simp only [lowerTruthy, Lower.yields_bind, Lower.yields_pure, Prod.mk.injEq] at h
  obtain ⟨value, c₁, hv, ⟨rfl, rfl⟩, rfl⟩ := h
  exact ⟨value, hv, rfl, rfl⟩

/-- A comparison steers a jump by itself, anything else by its value. -/
theorem lowerCond_cases (s : Scope) (cond : Expr) :
    (∃ pos op lhs rhs, cond = .binary pos op lhs rhs ∧ op.opClass = .relational ∧
      s.lowerCond cond = Lower.compare op (s.lowerExpr lhs) (s.lowerExpr rhs)) ∨
    s.lowerCond cond = s.lowerTruthy cond := by
  cases cond with
  | binary pos op lhs rhs =>
    by_cases h : op.opClass = .relational
    · exact .inl ⟨pos, op, lhs, rhs, rfl, h, by rw [lowerCond, if_pos h]⟩
    · exact .inr (by rw [lowerCond, if_neg h])
  | _ => exact .inr rfl

/-- The result of a call is dropped, and so is the operand of anything else. -/
theorem yields_lowerEval {pos : Position} {e : Expr} {code : Code}
    (h : (s.lowerEval pos e).Yields c code c') :
    (∃ p method args call before, e = .call p method args ∧
      (s.lowerCall (pure (s.ownDispatch method)) method args (s.lowerEach args) .void).Yields c
        (call, before) c' ∧
      code = before ++ [.call call]) ∨
    (∃ p receiver method args call before, e = .callOn p receiver method args ∧
      (s.lowerCall (s.dispatch pos receiver (s.lowerExpr receiver) method) method args
        (s.lowerEach args) .void).Yields c (call, before) c' ∧
      code = before ++ [.call call]) ∨
    ∃ value, (s.lowerExpr e none).Yields c value c' ∧ code = value.code := by
  unfold lowerEval at h
  split at h
  · rename_i p method args
    simp only [Lower.yields_bind, Prod.exists, Lower.yields_pure] at h
    obtain ⟨call, before, c₁, hcall, rfl, rfl⟩ := h
    exact .inl ⟨p, method, args, call, before, rfl, hcall, rfl⟩
  · rename_i p receiver method args
    simp only [Lower.yields_bind, Prod.exists, Lower.yields_pure] at h
    obtain ⟨call, before, c₁, hcall, rfl, rfl⟩ := h
    exact .inr (.inl ⟨p, receiver, method, args, call, before, rfl, hcall, rfl⟩)
  · simp only [Lower.yields_bind, Lower.yields_pure] at h
    obtain ⟨value, c₁, hvalue, rfl, rfl⟩ := h
    exact .inr (.inr ⟨value, hvalue, rfl⟩)

theorem yields_lowerAssign {pos : Position} {target : String} {value : Expr} {code : Code}
    (h : (s.lowerAssign pos target value).Yields c code c') :
    ∃ storage symbol v, s.lookup target = .stored storage symbol ∧
      (s.lowerExpr value (some symbol.ty)).Yields c v c' ∧
      code = v.code ++
        [if storage = .field then .putField target symbol.ty v.operand
          else .assign (.var target symbol.ty) symbol.ty (.use v.operand)] := by
  unfold lowerAssign at h
  split at h
  · rename_i storage symbol hlookup
    simp only [Lower.yields_bind, Lower.yields_pure] at h
    obtain ⟨v, c₁, hv, rfl, rfl⟩ := h
    exact ⟨storage, symbol, v, hlookup, hv, rfl⟩
  · exact absurd h Lower.yields_throw
  · exact absurd h Lower.yields_throw

theorem yields_lowerStore {pos : Position} {target : String} {index value : Expr} {code : Code}
    (h : (s.lowerStore pos target index value).Yields c code c') :
    ∃ array c₁ i c₂ v, (s.lowerVar pos target).Yields c array c₁ ∧
      array.operand.ty.isArray = true ∧
      (s.lowerExpr index (some .int)).Yields c₁ i c₂ ∧
      (s.lowerExpr value (some array.operand.ty.element)).Yields c₂ v c' ∧
      code = array.code ++ i.code ++ v.code ++
        [.assign (.element array.operand i.operand array.operand.ty.element)
          array.operand.ty.element (.use v.operand)] := by
  simp only [lowerStore, Lower.yields_bind] at h
  obtain ⟨array, c₁, harray, h⟩ := h
  split at h
  · simp only [Lower.yields_bind, Lower.yields_throw, false_and, exists_false] at h
  · rename_i hty
    rw [Bool.not_eq_true, Bool.not_eq_false'] at hty
    simp only [Lower.yields_bind, Lower.yields_pure] at h
    obtain ⟨i, c₂, hi, v, c₃, hv, rfl, rfl⟩ := h
    exact ⟨array, c₁, i, c₂, v, harray, hty, hi, hv, rfl⟩

theorem yields_lowerReturn_some {value : Expr} {code : Code}
    (h : (s.lowerReturn (some value)).Yields c code c') :
    ∃ v, (s.lowerExpr value (some s.method.returnType)).Yields c v c' ∧
      code = v.code ++ [.ret (some v.operand) s.method.returnType] := by
  simp only [lowerReturn, Lower.yields_bind, Lower.yields_pure] at h
  obtain ⟨v, c₁, hv, rfl, rfl⟩ := h
  exact ⟨v, hv, rfl⟩

theorem yields_lowerIf {pos : Position} {cond : Expr} {thenBranch elseBranch : Stmt}
    {code : Code} (h : (s.lowerStmt (.ifElse pos cond thenBranch elseBranch)).Yields c code c') :
    ∃ jump condCode c₁ elseCode c₂ thenCode,
      (s.lowerCond cond).Yields { c with ifs := c.ifs + 1 } (jump, condCode) c₁ ∧
      (s.lowerStmt elseBranch).Yields c₁ elseCode c₂ ∧
      (s.lowerStmt thenBranch).Yields c₂ thenCode c' ∧
      code = condCode ++
        [.branch jump (.numbered .ifBody c.ifs)] ++
        elseCode ++
        [.goto (.numbered .endIf c.ifs),
          .label (.numbered .ifBody c.ifs)] ++
        thenCode ++
        [.label (.numbered .endIf c.ifs)] := by
  simp only [lowerStmt, Lower.yields_bind, Lower.yields_freshIf, Prod.exists,
    Lower.yields_pure] at h
  obtain ⟨n, c₀, ⟨rfl, rfl⟩, jump, condCode, c₁, hc, elseCode, c₂, he, thenCode, c₃, ht, rfl,
    rfl⟩ := h
  exact ⟨jump, condCode, c₁, elseCode, c₂, thenCode, hc, he, ht, rfl⟩

theorem yields_lowerWhile {pos : Position} {cond : Expr} {body : Stmt} {code : Code}
    (h : (s.lowerStmt (.whileLoop pos cond body)).Yields c code c') :
    ∃ jump condCode c₁ bodyCode,
      (s.lowerCond cond).Yields { c with whiles := c.whiles + 1 } (jump, condCode) c₁ ∧
      (s.lowerStmt body).Yields c₁ bodyCode c' ∧
      code = [.label (.numbered .loop c.whiles)] ++
        condCode ++
        [.branch jump (.numbered .whileBody c.whiles),
          .goto (.numbered .endWhile c.whiles),
          .label (.numbered .whileBody c.whiles)] ++
        bodyCode ++
        [.goto (.numbered .loop c.whiles),
          .label (.numbered .endWhile c.whiles)] := by
  simp only [lowerStmt, Lower.yields_bind, Lower.yields_freshWhile, Prod.exists,
    Lower.yields_pure] at h
  obtain ⟨n, c₀, ⟨rfl, rfl⟩, jump, condCode, c₁, hc, bodyCode, c₂, hb, rfl, rfl⟩ := h
  exact ⟨jump, condCode, c₁, bodyCode, hc, hb, rfl⟩

theorem yields_lowerStmts_cons {stmt : Stmt} {stmts : List Stmt} {code : Code}
    (h : (s.lowerStmts (stmt :: stmts)).Yields c code c') :
    ∃ first c₁ rest, (s.lowerStmt stmt).Yields c first c₁ ∧
      (s.lowerStmts stmts).Yields c₁ rest c' ∧ code = first ++ rest := by
  simp only [lowerStmts, Lower.yields_bind, Lower.yields_pure] at h
  obtain ⟨first, c₁, hf, rest, c₂, hr, rfl, rfl⟩ := h
  exact ⟨first, c₁, rest, hf, hr, rfl⟩

end

end Scope

/-! ## Methods and units -/

namespace Table

variable {t : Table} {c c' : Counters}

theorem yields_lowerMethod {sig : Signature} {body : List Stmt} {m : MethodCode}
    (h : (t.lowerMethod sig body).Yields c m c') :
    ∃ code, (Scope.lowerStmts ⟨t, sig⟩ body).Yields c code c' ∧
      m.params = sig.params ∧ m.locals = sig.locals ∧ m.body = code.closed := by
  simp only [lowerMethod, Lower.yields_bind, Lower.yields_pure] at h
  obtain ⟨code, c₁, hcode, rfl, rfl⟩ := h
  exact ⟨code, hcode, rfl, rfl, rfl⟩

theorem yields_lowerMethods_cons {decl : MethodDecl} {decls : List MethodDecl} {sig : Signature}
    {sigs : List Signature} {methods : List MethodCode}
    (h : (t.lowerMethods (decl :: decls) (sig :: sigs)).Yields c methods c') :
    ∃ first c₁ rest, (t.lowerMethod sig decl.body).Yields c first c₁ ∧
      (t.lowerMethods decls sigs).Yields c₁ rest c' ∧ methods = first :: rest := by
  simp only [lowerMethods, Lower.yields_bind, Lower.yields_pure] at h
  obtain ⟨first, c₁, hfirst, rest, c₂, hrest, rfl, rfl⟩ := h
  exact ⟨first, c₁, rest, hfirst, hrest, rfl⟩

/-- The methods of a unit are lowered one by one, each from where the counters stand. -/
theorem yields_lowerMethods {decls : List MethodDecl} {sigs : List Signature}
    {methods : List MethodCode} (h : (t.lowerMethods decls sigs).Yields c methods c') :
    methods.length = min decls.length sigs.length ∧
      ∀ (i : Nat) (m : MethodCode), methods[i]? = some m →
        ∃ decl sig c₁ c₂, decls[i]? = some decl ∧ sigs[i]? = some sig ∧
          (t.lowerMethod sig decl.body).Yields c₁ m c₂ := by
  induction decls generalizing sigs methods c with
  | nil =>
    simp only [lowerMethods, Lower.yields_pure] at h
    obtain ⟨rfl, rfl⟩ := h
    simp
  | cons decl decls ih =>
    cases sigs with
    | nil =>
      simp only [lowerMethods, Lower.yields_pure] at h
      obtain ⟨rfl, rfl⟩ := h
      simp
    | cons sig sigs =>
      obtain ⟨first, c₁, rest, hfirst, hrest, rfl⟩ := yields_lowerMethods_cons h
      obtain ⟨hlen, hmem⟩ := ih hrest
      refine ⟨by simp only [List.length_cons]; omega, fun i m hi ↦ ?_⟩
      cases i with
      | zero =>
        rw [List.getElem?_cons_zero, Option.some.injEq] at hi
        subst hi
        exact ⟨decl, sig, c, c₁, rfl, rfl, hfirst⟩
      | succ i => exact hmem i m hi

theorem yields_lowerProgram {p : Program} {code : ClassCode}
    (h : (t.lowerProgram p).Yields c code c') :
    code.className = t.className ∧
      (t.lowerMethods p.decl.methods t.methods).Yields c code.methods c' := by
  simp only [lowerProgram, Lower.yields_bind, Lower.yields_pure] at h
  obtain ⟨methods, c₁, hmethods, rfl, rfl⟩ := h
  exact ⟨rfl, hmethods⟩

end Table

end Tricode
