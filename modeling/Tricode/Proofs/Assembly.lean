import Tricode.Proofs.Trees
import Tricode.Proofs.Yields

/-!
# How code is put together

Whatever the tree, lowering puts its code together in a few ways: pieces follow one another, a
fresh temporary takes the value of an operation, an instruction is run for its effect, and a few
control structures place labels around the code of their parts. `Assembled` lists these ways and
forgets the tree. What is to hold of all lowered code, whether checked or not, is then an induction
over ten cases and not over every form of expression and statement.

## Operands that are valid

A piece of code is run to make operands valid, and an instruction may read only such operands. The
list in `Assembled` records them. Variables and literals are valid at all times, so the list
matters for temporaries alone, and `Assembled.keep` lets it have any others.
-/

namespace Tricode

/-! ## What instructions read -/

def Operand.isTemp : Operand → Bool
  | temp _ _ => true
  | _ => false

/-- What a call reads. The receiver counts even where it is a class. -/
def Call.operands (c : Call) : List Operand := c.receiver :: c.args

/-- What the right-hand side of an assignment reads. -/
def Rvalue.operands : Rvalue → List Operand
  | use operand | not operand => [operand]
  | binary _ left right => [left, right]
  | call c => c.operands
  | getField _ _ => []
  | element array index => [array, index]
  | newArray _ size => [size]

/-- What a conditional jump reads. -/
def Cond.operands : Cond → List Operand
  | truthy operand => [operand]
  | compare _ left right => [left, right]

/-- What has to be read to find the place: the array and the index of an element. -/
def Place.operands : Place → List Operand
  | element array index _ => [array, index]
  | _ => []

namespace Instruction

/-- Every operand the instruction reads. -/
def operands : Instruction → List Operand
  | assign dest _ value => dest.operands ++ value.operands
  | call c => c.operands
  | putField _ _ value => [value]
  | branch cond _ => cond.operands
  | ret value _ => value.toList
  | goto _ | label _ => []

/-- Where the instruction may jump to. -/
def target? : Instruction → Option Label
  | goto target | branch _ target => some target
  | _ => none

/-- The temporary the instruction writes. -/
def written? : Instruction → Option (Nat × Ty)
  | assign (.temp id ty) _ _ => some (id, ty)
  | _ => none

/-- The instruction neither steers control nor writes a temporary. -/
def isPlain (i : Instruction) : Bool :=
  i.label?.isNone && i.target?.isNone && i.written?.isNone

theorem isPlain_iff {i : Instruction} :
    i.isPlain = true ↔ i.label? = none ∧ i.target? = none ∧ i.written? = none := by
  simp [isPlain, and_assoc]

end Instruction

/-! ## Assembled code -/

/-- The code was put together while the counters went from the first to the last, and once it has
run the operands are valid. -/
inductive Assembled : Counters → List Operand → Code → Counters → Prop
  | nil (c : Counters) : Assembled c [] [] c
  | append {c c₁ c' : Counters} {os os' : List Operand} {a b : Code} :
    Assembled c os a c₁ → Assembled c₁ os' b c' → Assembled c (os ++ os') (a ++ b) c'
  /-- Operands may be forgotten, and those that are no temporaries may be added. -/
  | keep {c c' : Counters} {os os' : List Operand} {code : Code} :
    Assembled c os code c' → (∀ o ∈ os', o.isTemp = true → o ∈ os) → Assembled c os' code c'
  | emit {c c' : Counters} {os : List Operand} {code : Code} (instruction : Instruction) :
    Assembled c os code c' → instruction.isPlain = true →
      (∀ o ∈ instruction.operands, o.isTemp = true → o ∈ os) →
      Assembled c os (code ++ [instruction]) c'
  | intoTemp {c c' : Counters} {code : Code} (value : Rvalue) (ty : Ty) :
    Assembled c value.operands code c' →
      Assembled c [.temp c'.temps ty] (code ++ [.assign (.temp c'.temps ty) ty value])
        { c' with temps := c'.temps + 1 }
  | comparison {c c' : Counters} {code : Code} {cond : Cond} :
    Assembled c cond.operands code c' →
      Assembled c [.temp c'.temps .boolean]
        (code ++
          [.branch cond (.numbered .cmpTrue c'.conds),
            Lower.setBool c'.temps (.bool false),
            .goto (.numbered .cmpEnd c'.conds),
            .label (.numbered .cmpTrue c'.conds),
            Lower.setBool c'.temps (.bool true),
            .label (.numbered .cmpEnd c'.conds)])
        { c' with temps := c'.temps + 1, conds := c'.conds + 1 }
  /-- The result is drawn before the right operand is lowered, so its number lies between those of
  the two operands. -/
  | and {c c₁ c' : Counters} {left right : Operand} {leftCode rightCode : Code} :
    Assembled c [left] leftCode c₁ →
      Assembled { c₁ with temps := c₁.temps + 1, conds := c₁.conds + 1 } [right] rightCode c' →
      Assembled c [.temp c₁.temps .boolean]
        (leftCode ++
          [.branch (.truthy left) (.numbered .andRhs c₁.conds),
            Lower.setBool c₁.temps (.bool false),
            .goto (.numbered .andEnd c₁.conds),
            .label (.numbered .andRhs c₁.conds)] ++
          rightCode ++
          [Lower.setBool c₁.temps right,
            .label (.numbered .andEnd c₁.conds)])
        c'
  | or {c c₁ c' : Counters} {left right : Operand} {leftCode rightCode : Code} :
    Assembled c [left] leftCode c₁ →
      Assembled { c₁ with temps := c₁.temps + 1, conds := c₁.conds + 1 } [right] rightCode c' →
      Assembled c [.temp c₁.temps .boolean]
        (leftCode ++
          [.branch (.truthy left) (.numbered .orTrue c₁.conds)] ++
          rightCode ++
          [Lower.setBool c₁.temps right,
            .goto (.numbered .orEnd c₁.conds),
            .label (.numbered .orTrue c₁.conds),
            Lower.setBool c₁.temps (.bool true),
            .label (.numbered .orEnd c₁.conds)])
        c'
  /-- The labels are drawn before all code, and the second branch is placed first. -/
  | ifElse {c c₁ c₂ c' : Counters} {cond : Cond} {condCode elseCode thenCode : Code} :
    Assembled { c with ifs := c.ifs + 1 } cond.operands condCode c₁ →
      Assembled c₁ [] elseCode c₂ → Assembled c₂ [] thenCode c' →
      Assembled c []
        (condCode ++
          [.branch cond (.numbered .ifBody c.ifs)] ++
          elseCode ++
          [.goto (.numbered .endIf c.ifs),
            .label (.numbered .ifBody c.ifs)] ++
          thenCode ++
          [.label (.numbered .endIf c.ifs)])
        c'
  | whileLoop {c c₁ c' : Counters} {cond : Cond} {condCode bodyCode : Code} :
    Assembled { c with whiles := c.whiles + 1 } cond.operands condCode c₁ →
      Assembled c₁ [] bodyCode c' →
      Assembled c []
        ([.label (.numbered .loop c.whiles)] ++
          condCode ++
          [.branch cond (.numbered .whileBody c.whiles),
            .goto (.numbered .endWhile c.whiles),
            .label (.numbered .whileBody c.whiles)] ++
          bodyCode ++
          [.goto (.numbered .loop c.whiles),
            .label (.numbered .endWhile c.whiles)])
        c'

namespace Assembled

variable {c c' : Counters} {os : List Operand} {code : Code}

/-- Operands that are no temporaries need no code. -/
theorem ready (c : Counters) (h : ∀ o ∈ os, o.isTemp = false) : Assembled c os [] c := by
  refine (Assembled.nil c).keep fun o ho htemp ↦ ?_
  rw [h o ho] at htemp
  cases htemp

theorem forget (h : Assembled c os code c') : Assembled c [] code c' :=
  h.keep fun _ ho ↦ absurd ho List.not_mem_nil

/-- An instruction that reads just the operands that are valid. -/
theorem run (instruction : Instruction) (h : Assembled c instruction.operands code c')
    (hplain : instruction.isPlain = true) : Assembled c [] (code ++ [instruction]) c' :=
  (h.emit instruction hplain fun _ ho _ ↦ ho).forget

end Assembled

/-! ## Expressions -/

/-- Whatever the step yields is assembled to make its operand valid. -/
def Lower.Assembles (x : Lower Lowered) : Prop :=
  ∀ {c : Counters} {l : Lowered} {c' : Counters}, x.Yields c l c' →
    Assembled c [l.operand] l.code c'

namespace Lower

variable {c c' : Counters}

theorem assembles_not {operand : Emit} (h : ∀ hint, (operand hint).Assembles) :
    (Lower.not operand).Assembles := by
  intro c l c' hy
  obtain ⟨inner, c₁, hinner, rfl, rfl⟩ := yields_not hy
  exact .intoTemp _ .boolean (h _ hinner)

section Binary

variable {op : BinOp} {lhs rhs : Emit} (hl : ∀ hint, (lhs hint).Assembles)
  (hr : ∀ hint, (rhs hint).Assembles)
include hl hr

theorem assembled_compare {cond : Cond} {code : Code}
    (hy : (compare op lhs rhs).Yields c (cond, code) c') : Assembled c cond.operands code c' := by
  obtain ⟨left, c₁, right, hleft, hright, rfl, rfl⟩ := yields_compare hy
  exact (hl _ hleft).append (hr _ hright)

theorem assembles_arithmetic : (arithmetic op lhs rhs).Assembles := by
  intro c l c' hy
  obtain ⟨left, c₁, right, c₂, hleft, hright, rfl, rfl⟩ := yields_arithmetic hy
  exact .intoTemp (.binary op _ _) .int ((hl _ hleft).append (hr _ hright))

theorem assembles_comparison : (comparison op lhs rhs).Assembles := by
  intro c l c' hy
  obtain ⟨cond, code, c₁, hcmp, rfl, rfl⟩ := yields_comparison hy
  exact .comparison (assembled_compare hl hr hcmp)

theorem assembles_and : (Lower.and lhs rhs).Assembles := by
  intro c l c' hy
  obtain ⟨left, c₁, right, hleft, hright, rfl⟩ := yields_and hy
  exact .and (hl _ hleft) (hr _ hright)

theorem assembles_or : (Lower.or lhs rhs).Assembles := by
  intro c l c' hy
  obtain ⟨left, c₁, right, hleft, hright, rfl⟩ := yields_or hy
  exact .or (hl _ hleft) (hr _ hright)

theorem assembles_binary : (binary op lhs rhs).Assembles := by
  cases op with
  | and => exact assembles_and hl hr
  | or => exact assembles_or hl hr
  | lt | gt => exact assembles_comparison hl hr
  | add | sub | mul | div | rem => exact assembles_arithmetic hl hr

end Binary

theorem assembles_index {array idx : Emit} (ha : ∀ hint, (array hint).Assembles)
    (hi : ∀ hint, (idx hint).Assembles) : (index array idx).Assembles := by
  intro c l c' hy
  obtain ⟨base, c₁, i, c₂, hbase, hidx, rfl, rfl⟩ := yields_index hy
  exact .intoTemp (.element _ _) _ ((ha _ hbase).append (hi _ hidx))

theorem assembles_length {array : Emit} (h : ∀ hint, (array hint).Assembles) :
    (length array).Assembles := by
  intro c l c' hy
  obtain ⟨base, c₁, hbase, rfl, rfl⟩ := yields_length hy
  exact .intoTemp _ .int (h _ hbase)

theorem assembles_newArray {elem : Ty} {size : Emit} (h : ∀ hint, (size hint).Assembles) :
    (newArray elem size).Assembles := by
  intro c l c' hy
  obtain ⟨n, c₁, hn, rfl, rfl⟩ := yields_newArray hy
  exact .intoTemp _ _ (h _ hn)

theorem assembles_construct (className : String) : (construct className).Assembles := by
  intro c l c' hy
  obtain ⟨rfl, rfl⟩ := yields_construct hy
  have hnew : Assembled c [.temp c.temps (.named className)] _ _ :=
    .intoTemp (.call ⟨.new, .ofClass className, none, [], .named className⟩) (.named className)
      (.ready c (by simp [Rvalue.operands, Call.operands, Operand.ofClass, Operand.isTemp]))
  exact hnew.emit _ rfl fun o ho _ ↦ ho

/-! ### Lists of expressions -/

/-- The array outlives the code that fills it, so the stores are assembled after that which made
the array valid. -/
theorem assembled_storeElements {array : Operand} {elem : Ty} {elements : List Emit}
    (h : ∀ emit ∈ elements, ∀ hint, (emit hint).Assembles) {c₀ : Counters} {before : Code} {i : Nat}
    {code : Code} (hbefore : Assembled c₀ [array] before c)
    (hy : (storeElements array elem i elements).Yields c code c') :
    Assembled c₀ [array] (before ++ code) c' := by
  induction elements generalizing i c before code with
  | nil =>
    obtain ⟨rfl, rfl⟩ := yields_pure.mp hy
    rwa [List.append_nil]
  | cons element elements ih =>
    obtain ⟨value, c₁, rest, hvalue, hrest, rfl⟩ := yields_storeElements_cons hy
    obtain ⟨hhead, htail⟩ := List.forall_mem_cons.mp h
    -- Of what the store reads, the array was valid and the value is now; the index is a literal.
    have hstore := (hbefore.append (hhead _ hvalue)).emit
      (.assign (.element array (.int (Int32.ofNat i)) elem) elem (.use value.operand))
      rfl fun o ho htemp ↦ by
        simp only [Instruction.operands, Place.operands, Rvalue.operands, List.cons_append,
          List.nil_append, List.mem_cons, List.not_mem_nil, or_false] at ho ⊢
        rcases ho with rfl | rfl | rfl
        · exact .inl rfl
        · cases htemp
        · exact .inr rfl
    have hkept : Assembled c₀ [array] _ c₁ := hstore.keep fun o ho _ ↦ List.mem_append_left _ ho
    have hall := ih htail hkept hrest
    rwa [List.append_assoc, List.append_assoc, List.singleton_append] at hall

theorem assembles_packArray {elem : Ty} {elements : List Emit}
    (h : ∀ emit ∈ elements, ∀ hint, (emit hint).Assembles) :
    (packArray elem elements).Assembles := by
  intro c l c' hy
  obtain ⟨-, stores, hstores, rfl⟩ := yields_packArray hy
  have hnew : Assembled c [.temp c.temps elem.arrayOf] _ _ :=
    .intoTemp (.newArray elem (.int (Int32.ofNat elements.length))) elem.arrayOf
      (.ready c (by simp [Rvalue.operands, Operand.int, Operand.ofLiteral, Operand.isTemp]))
  exact assembled_storeElements h hnew hstores

theorem assembled_inOrder {steps : List (Lower Lowered)} (h : ∀ step ∈ steps, step.Assembles)
    {operands : List Operand} {code : Code} (hy : (inOrder steps).Yields c (operands, code) c') :
    Assembled c operands code c' := by
  induction steps generalizing c operands code with
  | nil =>
    rw [inOrder, yields_pure, Prod.mk.injEq] at hy
    obtain ⟨⟨rfl, rfl⟩, rfl⟩ := hy
    exact .nil c'
  | cons step steps ih =>
    obtain ⟨first, c₁, rest, restCode, hfirst, hrest, rfl, rfl⟩ := yields_inOrder_cons hy
    obtain ⟨hhead, htail⟩ := List.forall_mem_cons.mp h
    exact (hhead hfirst).append (ih htail hrest)

theorem assembles_of_mem_eachFor {params : List Symbol} {args : List Emit}
    (h : ∀ emit ∈ args, ∀ hint, (emit hint).Assembles) :
    ∀ step ∈ eachFor params args, step.Assembles := by
  intro step hstep
  obtain ⟨⟨emit, i⟩, hmem, rfl⟩ := List.mem_map.mp hstep
  exact h emit (List.fst_mem_of_mem_zipIdx hmem) _

theorem assembled_ownArguments {sig : Signature} {args : List Emit}
    (h : ∀ emit ∈ args, ∀ hint, (emit hint).Assembles) {operands : List Operand} {code : Code}
    (hy : (ownArguments sig args).Yields c (operands, code) c') :
    Assembled c operands code c' := by
  obtain ⟨n, fixed, fixedCode, c₁, hfixed, hrest⟩ := exists_yields_ownArguments hy
  have hsteps := assembled_inOrder (assembles_of_mem_eachFor fun emit hemit ↦
    h emit (List.mem_of_mem_take hemit)) hfixed
  rcases hrest with ⟨rfl, rfl, rfl⟩ | ⟨elem, packed, -, hpacked, rfl, rfl⟩
  · exact hsteps
  · exact hsteps.append (assembles_packArray (fun emit hemit ↦
      h emit (List.mem_of_mem_drop hemit)) hpacked)

end Lower

namespace Scope

variable {s : Scope} {c c' : Counters}

theorem assembles_lowerVar (s : Scope) (pos : Position) (name : String) :
    (s.lowerVar pos name).Assembles := by
  intro c l c' hy
  rcases yields_lowerVar hy with ⟨symbol, -, rfl, rfl⟩ | ⟨storage, symbol, -, -, rfl, rfl⟩ |
    ⟨-, rfl, rfl⟩
  · exact .intoTemp (.getField name symbol.ty) symbol.ty (.nil c)
  · exact .ready _ (by simp [Operand.isTemp])
  · exact .ready _ (by simp [Operand.ofClass, Operand.isTemp])

/-! ### Calls -/

section

variable {receiver : Lower Dispatch} {method : String} {args : List Expr} {emits : List Emit}
  (hreceiver : ∀ {c d c'}, receiver.Yields c d c' → Assembled c [d.receiver] d.code c')
  (hargs : ∀ emit ∈ emits, ∀ hint, (emit hint).Assembles)
include hreceiver hargs

theorem assembled_lowerCall {retHint : Ty} {call : Call} {code : Code}
    (hy : (s.lowerCall receiver method args emits retHint).Yields c (call, code) c') :
    Assembled c call.operands code c' := by
  obtain ⟨d, c₁, operands, argCode, hd, hoperands, rfl, rfl⟩ := yields_lowerCall hy
  refine (hreceiver hd).append ?_
  unfold lowerArguments at hoperands
  split at hoperands
  · exact Lower.assembled_ownArguments hargs hoperands
  · refine Lower.assembled_inOrder (fun step hstep ↦ ?_) hoperands
    obtain ⟨i, hi, rfl⟩ := List.mem_iff_getElem.mp hstep
    rw [List.getElem_zipWith]
    exact hargs _ (List.getElem_mem _) _

theorem assembles_lowerCallValue {hint : Option Ty} :
    (s.lowerCallValue receiver method args emits hint).Assembles := by
  intro c l c' hy
  obtain ⟨call, code, c₁, hcall, rfl, rfl⟩ := yields_lowerCallValue hy
  exact .intoTemp (.call call) call.ret (assembled_lowerCall hreceiver hargs hcall)

end

theorem assembled_ownDispatch {method : String} {d : Dispatch}
    (hy : (pure (s.ownDispatch method) : Lower Dispatch).Yields c d c') :
    Assembled c [d.receiver] d.code c' := by
  obtain ⟨rfl, rfl⟩ := Lower.yields_pure.mp hy
  unfold ownDispatch
  split <;> split <;>
    exact .ready _ (by simp [Operand.ofClass, thisOperand, Operand.this, Operand.isTemp])

theorem assembled_dispatch {pos : Position} {receiver : Expr} {method : String} {d : Dispatch}
    (hreceiver : ∀ hint, (s.lowerExpr receiver hint).Assembles)
    (hy : (s.dispatch pos receiver (s.lowerExpr receiver) method).Yields c d c') :
    Assembled c [d.receiver] d.code c' := by
  rcases s.receiver_cases receiver with ⟨p, rfl⟩ | ⟨p, name, rfl, hlookup⟩ | hobject
  · exact assembled_ownDispatch hy
  · rw [dispatch, if_pos hlookup] at hy
    obtain ⟨rfl, rfl⟩ := Lower.yields_pure.mp hy
    exact .ready _ (by simp [Operand.ofClass, Operand.isTemp])
  · rw [dispatch_eq_objectDispatch hobject] at hy
    obtain ⟨object, hemit, -, rfl⟩ := yields_objectDispatch hy
    exact hreceiver _ hemit

theorem assembles_of_mem_lowerEach {es : List Expr}
    (h : ∀ e ∈ es, ∀ hint, (s.lowerExpr e hint).Assembles) :
    ∀ emit ∈ s.lowerEach es, ∀ hint, (emit hint).Assembles := by
  intro emit hemit
  rw [lowerEach_eq_map] at hemit
  obtain ⟨e, he, rfl⟩ := List.mem_map.mp hemit
  exact h e he

theorem assembles_lowerExpr (s : Scope) (e : Expr) : ∀ hint, (s.lowerExpr e hint).Assembles := by
  induction e using Expr.memberInduct with
  | lit pos value =>
    intro hint c l c' hy
    obtain ⟨rfl, rfl⟩ := Lower.yields_pure.mp hy
    exact .ready _ (by simp [Operand.ofLiteral, Operand.isTemp])
  | this pos =>
    intro hint c l c' hy
    obtain ⟨rfl, rfl⟩ := Lower.yields_pure.mp hy
    exact .ready _ (by simp [thisOperand, Operand.this, Operand.isTemp])
  | var pos name => exact fun _ ↦ assembles_lowerVar s pos name
  | not pos operand ih => exact fun _ ↦ Lower.assembles_not ih
  | binary pos op lhs rhs ihl ihr => exact fun _ ↦ Lower.assembles_binary ihl ihr
  | index pos base idx ihb ihi => exact fun _ ↦ Lower.assembles_index ihb ihi
  | array pos elements ih => exact fun _ ↦ Lower.assembles_packArray (assembles_of_mem_lowerEach ih)
  | newArray pos elem size ih => exact fun _ ↦ Lower.assembles_newArray ih
  | newObject pos className => exact fun _ ↦ Lower.assembles_construct className
  | length pos base ih => exact fun _ ↦ Lower.assembles_length ih
  | call pos method args ih =>
    exact fun _ ↦ assembles_lowerCallValue assembled_ownDispatch (assembles_of_mem_lowerEach ih)
  | callOn pos receiver method args ihr iha =>
    exact fun _ ↦ assembles_lowerCallValue (assembled_dispatch ihr) (assembles_of_mem_lowerEach iha)

/-! ## Statements -/

theorem assembled_lowerCond {cond : Expr} {jump : Cond} {code : Code}
    (hy : (s.lowerCond cond).Yields c (jump, code) c') : Assembled c jump.operands code c' := by
  rcases s.lowerCond_cases cond with ⟨pos, op, lhs, rhs, rfl, -, heq⟩ | heq
  · rw [heq] at hy
    exact Lower.assembled_compare (s.assembles_lowerExpr lhs) (s.assembles_lowerExpr rhs) hy
  · rw [heq] at hy
    obtain ⟨value, hvalue, rfl, rfl⟩ := yields_lowerTruthy hy
    exact s.assembles_lowerExpr cond _ hvalue

theorem assembled_lowerEval {pos : Position} {e : Expr} {code : Code}
    (hy : (s.lowerEval pos e).Yields c code c') : Assembled c [] code c' := by
  have hargs : ∀ args : List Expr, ∀ emit ∈ s.lowerEach args, ∀ hint, (emit hint).Assembles :=
    fun _ ↦ assembles_of_mem_lowerEach fun e _ ↦ s.assembles_lowerExpr e
  rcases yields_lowerEval hy with ⟨p, method, args, call, before, rfl, hcall, rfl⟩ |
    ⟨p, receiver, method, args, call, before, rfl, hcall, rfl⟩ | ⟨value, hvalue, rfl⟩
  · exact .run (.call call) (assembled_lowerCall assembled_ownDispatch (hargs _) hcall) rfl
  · exact .run (.call call)
      (assembled_lowerCall (assembled_dispatch (s.assembles_lowerExpr receiver)) (hargs _) hcall)
      rfl
  · exact (s.assembles_lowerExpr _ _ hvalue).forget

theorem assembled_lowerAssign {pos : Position} {target : String} {value : Expr} {code : Code}
    (hy : (s.lowerAssign pos target value).Yields c code c') : Assembled c [] code c' := by
  obtain ⟨storage, symbol, v, -, hv, rfl⟩ := yields_lowerAssign hy
  have hvalue := s.assembles_lowerExpr value _ hv
  split
  · exact .run (.putField target symbol.ty v.operand) hvalue rfl
  · exact .run (.assign (.var target symbol.ty) symbol.ty (.use v.operand)) hvalue rfl

theorem assembled_lowerStore {pos : Position} {target : String} {index value : Expr} {code : Code}
    (hy : (s.lowerStore pos target index value).Yields c code c') : Assembled c [] code c' := by
  obtain ⟨array, c₁, i, c₂, v, harray, -, hi, hv, rfl⟩ := yields_lowerStore hy
  have hparts := ((s.assembles_lowerVar pos target harray).append
    (s.assembles_lowerExpr index _ hi)).append (s.assembles_lowerExpr value _ hv)
  exact .run (.assign (.element array.operand i.operand array.operand.ty.element)
    array.operand.ty.element (.use v.operand)) hparts rfl

theorem assembled_lowerReturn {value : Option Expr} {code : Code}
    (hy : (s.lowerReturn value).Yields c code c') : Assembled c [] code c' := by
  cases value with
  | none =>
    obtain ⟨rfl, rfl⟩ := Lower.yields_pure.mp hy
    exact .run (.ret none .void) (.nil _) rfl
  | some value =>
    obtain ⟨v, hv, rfl⟩ := yields_lowerReturn_some hy
    exact .run (.ret (some v.operand) s.method.returnType)
      (s.assembles_lowerExpr value _ hv) rfl

theorem assembled_lowerStmts_of_mem {stmts : List Stmt} {code : Code}
    (h : ∀ stmt ∈ stmts, ∀ {c c' : Counters} {code : Code},
      (s.lowerStmt stmt).Yields c code c' → Assembled c [] code c')
    (hy : (s.lowerStmts stmts).Yields c code c') : Assembled c [] code c' := by
  induction stmts generalizing c code with
  | nil =>
    obtain ⟨rfl, rfl⟩ := Lower.yields_pure.mp hy
    exact .nil _
  | cons stmt stmts ih =>
    obtain ⟨first, c₁, rest, hfirst, hrest, rfl⟩ := yields_lowerStmts_cons hy
    obtain ⟨hhead, htail⟩ := List.forall_mem_cons.mp h
    exact (hhead hfirst).append (ih htail hrest)

theorem assembled_lowerStmt {stmt : Stmt} : ∀ {c c' : Counters} {code : Code},
    (s.lowerStmt stmt).Yields c code c' → Assembled c [] code c' := by
  induction stmt using Stmt.memberInduct with
  | block pos stmts ih => exact fun hy ↦ assembled_lowerStmts_of_mem ih hy
  | ifElse pos cond thenBranch elseBranch ihThen ihElse =>
    intro c c' code hy
    obtain ⟨jump, condCode, c₁, elseCode, c₂, thenCode, hcond, helse, hthen, rfl⟩ :=
      yields_lowerIf hy
    exact .ifElse (assembled_lowerCond hcond) (ihElse helse) (ihThen hthen)
  | whileLoop pos cond body ihBody =>
    intro c c' code hy
    obtain ⟨jump, condCode, c₁, bodyCode, hcond, hbody, rfl⟩ := yields_lowerWhile hy
    exact .whileLoop (assembled_lowerCond hcond) (ihBody hbody)
  | eval pos expr => exact fun hy ↦ assembled_lowerEval hy
  | assign pos target value => exact fun hy ↦ assembled_lowerAssign hy
  | store pos target index value => exact fun hy ↦ assembled_lowerStore hy
  | ret pos value => exact fun hy ↦ assembled_lowerReturn hy

/-- All code of a body is assembled. -/
theorem assembled_lowerStmts {stmts : List Stmt} {code : Code}
    (hy : (s.lowerStmts stmts).Yields c code c') : Assembled c [] code c' :=
  assembled_lowerStmts_of_mem (fun _ _ ↦ assembled_lowerStmt) hy

end Scope

/-! ## Methods -/

/-- The bodies were assembled one after another, each from where the counters stood. -/
inductive AssembledEach : Counters → List MethodCode → Counters → Prop
  | nil (c : Counters) : AssembledEach c [] c
  | cons {c c₁ c' : Counters} {code : Code} {m : MethodCode} {ms : List MethodCode} :
    Assembled c [] code c₁ → m.body = code.closed → AssembledEach c₁ ms c' →
      AssembledEach c (m :: ms) c'

theorem Table.assembledEach_lowerMethods {t : Table} {c c' : Counters} {decls : List MethodDecl}
    {sigs : List Signature} {methods : List MethodCode}
    (hy : (t.lowerMethods decls sigs).Yields c methods c') : AssembledEach c methods c' := by
  induction decls generalizing sigs methods c with
  | nil =>
    obtain ⟨rfl, rfl⟩ := Lower.yields_pure.mp hy
    exact .nil _
  | cons decl decls ih =>
    cases sigs with
    | nil =>
      obtain ⟨rfl, rfl⟩ := Lower.yields_pure.mp hy
      exact .nil _
    | cons sig sigs =>
      obtain ⟨first, c₁, rest, hfirst, hrest, rfl⟩ := yields_lowerMethods_cons hy
      obtain ⟨code, hcode, -, -, hbody⟩ := yields_lowerMethod hfirst
      exact .cons (Scope.assembled_lowerStmts hcode) hbody (ih hrest)

end Tricode
