import Tricode.Proofs.Acceptance
import Tricode.Proofs.Allocation

/-!
# Arguments and parameters

A call hands over one operand for each parameter. Checking decides by the number of trailing
arguments whether they are elements of an array or the array itself, and lowering by the number of
all arguments whether to pack them. `Scope.ownArguments_fit` shows that the two agree: whenever
checking finds no fault with the arguments, each of them ends up where its type was asked for.

Steps that run one after another each have a result of their own, which `Lower.YieldsEach` lists.
-/

namespace Tricode

namespace Lower

/-- The steps succeed one after another, and these are their results. -/
inductive YieldsEach : List (Lower Lowered) → Counters → List Lowered → Counters → Prop
  | nil {c : Counters} : YieldsEach [] c [] c
  | cons {c c₁ c' : Counters} {step : Lower Lowered} {steps : List (Lower Lowered)} {l : Lowered}
    {ls : List Lowered} :
    step.Yields c l c₁ → YieldsEach steps c₁ ls c' → YieldsEach (step :: steps) c (l :: ls) c'

variable {c c' : Counters} {steps : List (Lower Lowered)} {ls : List Lowered}

theorem YieldsEach.length_eq (h : YieldsEach steps c ls c') : ls.length = steps.length := by
  induction h with
  | nil => rfl
  | cons _ _ ih => rw [List.length_cons, ih, List.length_cons]

theorem YieldsEach.append_inv {steps' : List (Lower Lowered)}
    (h : YieldsEach (steps ++ steps') c ls c') :
    ∃ ls₁ c₁ ls₂, YieldsEach steps c ls₁ c₁ ∧ YieldsEach steps' c₁ ls₂ c' ∧ ls = ls₁ ++ ls₂ := by
  induction steps generalizing c ls with
  | nil => exact ⟨[], c, ls, .nil, h, rfl⟩
  | cons step steps ih =>
    cases h with
    | cons hstep hsteps =>
      obtain ⟨ls₁, c₁, ls₂, h₁, h₂, rfl⟩ := ih hsteps
      exact ⟨_ :: ls₁, c₁, ls₂, .cons hstep h₁, h₂, rfl⟩

/-- Steps in order put together the operands and the code of their results. -/
theorem yields_inOrder {operands : List Operand} {code : Code} :
    (inOrder steps).Yields c (operands, code) c' ↔
      ∃ ls, YieldsEach steps c ls c' ∧ operands = ls.map Lowered.operand ∧
        code = ls.flatMap Lowered.code := by
  constructor
  · intro h
    induction steps generalizing c operands code with
    | nil =>
      rw [inOrder, yields_pure, Prod.mk.injEq] at h
      obtain ⟨⟨rfl, rfl⟩, rfl⟩ := h
      exact ⟨[], .nil, rfl, rfl⟩
    | cons step steps ih =>
      obtain ⟨first, c₁, rest, restCode, hfirst, hrest, rfl, rfl⟩ := yields_inOrder_cons h
      obtain ⟨ls, hls, rfl, rfl⟩ := ih hrest
      exact ⟨first :: ls, .cons hfirst hls, rfl, rfl⟩
  · rintro ⟨ls, h, rfl, rfl⟩
    induction h with
    | nil => exact yields_pure.mpr ⟨rfl, rfl⟩
    | @cons c c₁ c' step steps l ls hstep _ ih =>
      rw [inOrder, yields_bind]
      refine ⟨l, c₁, hstep, ?_⟩
      rw [yields_bind]
      exact ⟨_, _, ih, yields_pure.mpr ⟨rfl, rfl⟩⟩

/-- The code of values that are stored one after another, from the given index on. -/
def storing (array : Operand) (elem : Ty) (i : Nat) (values : List Lowered) : Code :=
  (values.zipIdx i).flatMap fun (value, k) ↦ value.code ++
    [.assign (.element array (.int (Int32.ofNat k)) elem) elem (.use value.operand)]

theorem yields_storeElements {array : Operand} {elem : Ty} {i : Nat} {elements : List Emit}
    {code : Code} (h : (storeElements array elem i elements).Yields c code c') :
    ∃ ls, YieldsEach (elements.map fun emit ↦ emit (some elem)) c ls c' ∧
      code = storing array elem i ls := by
  induction elements generalizing c i code with
  | nil =>
    obtain ⟨rfl, rfl⟩ := yields_pure.mp h
    exact ⟨[], .nil, rfl⟩
  | cons element elements ih =>
    obtain ⟨value, c₁, rest, hvalue, hrest, rfl⟩ := yields_storeElements_cons h
    obtain ⟨ls, hls, rfl⟩ := ih hrest
    refine ⟨value :: ls, .cons hvalue hls, ?_⟩
    simp only [storing, List.zipIdx_cons, List.flatMap_cons, List.append_assoc,
      List.singleton_append]

theorem eachFor_concat (params : List Symbol) (args : List Emit) (arg : Emit) :
    eachFor params (args ++ [arg]) =
      eachFor params args ++ [arg ((params[args.length]?).map Symbol.ty)] := by
  simp [eachFor, List.zipIdx_append]

end Lower

/-! ## Declared parameters -/

namespace MethodDecl

variable {decl : MethodDecl} {v : VarDecl}

theorem length_params_of_none (h : decl.varargs = none) :
    decl.signature.params.length = decl.signature.fixedArity := by
  simp [Signature.fixedArity, signature, h]

theorem length_params_of_some (h : decl.varargs = some v) :
    decl.signature.params.length = decl.signature.fixedArity + 1 := by
  simp [Signature.fixedArity, signature, h]

theorem hasVarargs_of_none (h : decl.varargs = none) : decl.signature.hasVarargs = false := by
  simp [signature, h]

theorem hasVarargs_of_some (h : decl.varargs = some v) : decl.signature.hasVarargs = true := by
  simp [signature, h]

theorem varargsSlot_of_some (h : decl.varargs = some v) :
    decl.signature.varargsSlot = some ⟨v.name, v.ty.resolve.arrayOf⟩ := by
  simp [Signature.varargsSlot, signature, h]

theorem getElem?_params_of_some (h : decl.varargs = some v) :
    decl.signature.params[decl.signature.fixedArity]? = some ⟨v.name, v.ty.resolve.arrayOf⟩ := by
  simp [Signature.fixedArity, signature, h]

end MethodDecl

namespace Scope

open Diagnostic (Clean)

variable {s : Scope} {sig : Signature} {pos : Position} {args : List Expr}

theorem acceptsCount_of_clean (h : Clean (s.argumentProblems sig pos (s.arguments args))) :
    sig.acceptsCount args.length = true := by
  unfold argumentProblems at h
  split at h
  · rename_i hcount
    rwa [arguments, List.length_map] at hcount
  · exact absurd h Diagnostic.not_clean_error_cons

/-- A single trailing argument is the whole array. -/
theorem accepts_of_clean {slot : Symbol} {fixed : List Expr} {arg : Expr}
    (h : Clean (s.argumentProblems sig pos (s.arguments (fixed ++ [arg]))))
    (hslot : sig.varargsSlot = some slot) (hfixed : fixed.length = sig.fixedArity) :
    (s.typeOf arg).accepts slot.ty = true := by
  have hdrop : (s.arguments (fixed ++ [arg])).drop sig.fixedArity = [⟨arg.pos, s.typeOf arg⟩] := by
    rw [arguments, List.map_append, ← hfixed, List.drop_left' (List.length_map _),
      List.map_singleton]
  unfold argumentProblems at h
  split at h
  · rw [hslot, hdrop] at h
    exact Diagnostic.clean_require.mp (Diagnostic.clean_append.mp h).2
  · exact absurd h Diagnostic.not_clean_error_cons

theorem length_lowerEach (s : Scope) (es : List Expr) : (s.lowerEach es).length = es.length := by
  rw [lowerEach_eq_map, List.length_map]

theorem length_eachFor_lowerEach (params : List Symbol) (args : List Expr) :
    (Lower.eachFor params (s.lowerEach args)).length = args.length := by
  rw [Lower.eachFor, List.length_map, List.length_zipIdx, length_lowerEach]

theorem length_of_yieldsEach {params : List Symbol} {c c' : Counters} {ls : List Lowered}
    (h : Lower.YieldsEach (Lower.eachFor params (s.lowerEach args)) c ls c') :
    ls.length = args.length := by
  rw [h.length_eq, length_eachFor_lowerEach]

/-- As many arguments as parameters: the last one stands in the place of the array. -/
theorem exists_concat_of_length {decl : MethodDecl} {v : VarDecl} (hvar : decl.varargs = some v)
    (h : args.length = decl.signature.params.length) :
    ∃ init arg, args = init ++ [arg] ∧ init.length = decl.signature.fixedArity := by
  rw [MethodDecl.length_params_of_some hvar] at h
  have hne : args ≠ [] := by
    rintro rfl
    cases h
  obtain ⟨init, arg, rfl⟩ := (List.eq_nil_or_concat' args).resolve_left hne
  rw [List.length_append, List.length_singleton] at h
  exact ⟨init, arg, rfl, Nat.succ.inj h⟩

/-- Arguments that are handed over as they are, the last one taken apart. -/
theorem yields_arguments_concat {params : List Symbol} {arg : Expr} {c c' : Counters}
    {operands : List Operand} {code : Code}
    (h : (Lower.inOrder (Lower.eachFor params (s.lowerEach (args ++ [arg])))).Yields c
      (operands, code) c') :
    ∃ fixed c₁ last,
      Lower.YieldsEach (Lower.eachFor params (s.lowerEach args)) c fixed c₁ ∧
      (s.lowerExpr arg ((params[args.length]?).map Symbol.ty)).Yields c₁ last c' ∧
      operands = fixed.map Lowered.operand ++ [last.operand] ∧
      code = fixed.flatMap Lowered.code ++ last.code := by
  have heach : s.lowerEach (args ++ [arg]) = s.lowerEach args ++ [s.lowerExpr arg] := by
    rw [lowerEach_eq_map, lowerEach_eq_map, List.map_append, List.map_singleton]
  rw [heach, Lower.eachFor_concat, length_lowerEach] at h
  obtain ⟨ls, hls, rfl, rfl⟩ := Lower.yields_inOrder.mp h
  obtain ⟨fixed, c₁, lasts, hfixed, hlasts, rfl⟩ := hls.append_inv
  cases hlasts with
  | cons hlast hnil =>
    cases hnil with
    | nil => exact ⟨fixed, c₁, _, hfixed, hlast, by simp, by simp⟩

/-- Steps that each assign just what is drawn for them do so together. -/
theorem drawn_of_yieldsEach {steps : List (Lower Lowered)} {ls : List Lowered} {c c' : Counters}
    (h : Lower.YieldsEach steps c ls c') (hsteps : ∀ step ∈ steps, step.Assembles) :
    c.temps ≤ c'.temps ∧ ∀ id, id ∈ Code.assigned (ls.flatMap Lowered.code) ↔
      c.temps ≤ id ∧ id < c'.temps := by
  have hassembled := Lower.assembled_inOrder hsteps (Lower.yields_inOrder.mpr ⟨ls, h, rfl, rfl⟩)
  exact ⟨hassembled.numbered.le.1, hassembled.mem_assigned⟩

/-- Arguments of which the trailing ones are packed. The array is drawn between the fixed arguments
and the elements, so none of them writes to it. -/
theorem yields_arguments_packed {elem : Ty} {c c' : Counters} {operands : List Operand}
    {code : Code} (hvar : sig.hasVarargs = true) (hcount : args.length ≠ sig.params.length)
    (helem : sig.varargsElement = some elem)
    (h : (Lower.ownArguments sig (s.lowerEach args)).Yields c (operands, code) c') :
    ∃ fixed c₁ trailing,
      Lower.YieldsEach (Lower.eachFor sig.params (s.lowerEach (args.take sig.fixedArity))) c
        fixed c₁ ∧
      Lower.YieldsEach ((args.drop sig.fixedArity).map fun arg ↦ s.lowerExpr arg (some elem))
        { c₁ with temps := c₁.temps + 1 } trailing c' ∧
      operands = fixed.map Lowered.operand ++ [.temp c₁.temps elem.arrayOf] ∧
      code = fixed.flatMap Lowered.code ++
        .assign (.temp c₁.temps elem.arrayOf) elem.arrayOf
          (.newArray elem (.int (Int32.ofNat (args.length - sig.fixedArity)))) ::
        Lower.storing (.temp c₁.temps elem.arrayOf) elem 0 trailing ∧
      args.length - sig.fixedArity < 2147483648 ∧
      c.temps ≤ c₁.temps ∧ c₁.temps ∉ Code.assigned (fixed.flatMap Lowered.code) ∧
      c₁.temps ∉ Code.assigned (trailing.flatMap Lowered.code) := by
  have htake : (s.lowerEach args).take sig.fixedArity = s.lowerEach (args.take sig.fixedArity) := by
    rw [lowerEach_eq_map, lowerEach_eq_map, List.map_take]
  have hdrop : (s.lowerEach args).drop sig.fixedArity = s.lowerEach (args.drop sig.fixedArity) := by
    rw [lowerEach_eq_map, lowerEach_eq_map, List.map_drop]
  obtain ⟨_, _, c₁, packed, hinOrder, hpacked, rfl, rfl⟩ :=
    Lower.yields_ownArguments_packed h hvar (by rwa [length_lowerEach]) helem
  rw [htake] at hinOrder
  rw [hdrop] at hpacked
  obtain ⟨fixed, hfixed, rfl, rfl⟩ := Lower.yields_inOrder.mp hinOrder
  obtain ⟨hbound, stores, hstores, rfl⟩ := Lower.yields_packArray hpacked
  obtain ⟨trailing, htrailing, rfl⟩ := Lower.yields_storeElements hstores
  rw [length_lowerEach, List.length_drop] at hbound
  have hemits : ∀ es, ∀ emit ∈ s.lowerEach es, ∀ hint, (emit hint).Assembles := fun es ↦
    assembles_of_mem_lowerEach fun e _ ↦ s.assembles_lowerExpr e
  obtain ⟨hle, hdrawn⟩ := drawn_of_yieldsEach hfixed (Lower.assembles_of_mem_eachFor (hemits _))
  obtain ⟨-, hdrawn'⟩ := drawn_of_yieldsEach htrailing fun step hstep ↦ by
    obtain ⟨emit, hemit, rfl⟩ := List.mem_map.mp hstep
    exact hemits _ emit hemit _
  rw [lowerEach_eq_map, List.map_map] at htrailing
  refine ⟨fixed, c₁, trailing, hfixed, htrailing, rfl, ?_, hbound, hle, ?_, ?_⟩
  · rw [length_lowerEach, List.length_drop]
  · rw [hdrawn]
    omega
  · rw [hdrawn']
    exact fun h ↦ Nat.not_succ_le_self _ h.1

/-- Arguments in which checking finds no fault fill the parameters one by one. Of a method with
any number of arguments the last parameter is filled by the last argument, if that is the array
already, and otherwise by a fresh array with the trailing arguments as its elements. -/
theorem ownArguments_fit {decl : MethodDecl} {c c' : Counters} {operands : List Operand}
    {code : Code}
    (hchecked : Clean (s.argumentProblems decl.signature pos (s.arguments args)))
    (hyields : (Lower.ownArguments decl.signature (s.lowerEach args)).Yields c
      (operands, code) c') :
    operands.length = decl.signature.params.length ∧
      ∃ fixed c₁,
        Lower.YieldsEach (Lower.eachFor decl.signature.params
          (s.lowerEach (args.take decl.signature.fixedArity))) c fixed c₁ ∧
        fixed.length = decl.signature.fixedArity ∧
        match decl.varargs with
        | none =>
          operands = fixed.map Lowered.operand ∧ code = fixed.flatMap Lowered.code ∧ c' = c₁
        | some v =>
          let slot := v.ty.resolve.arrayOf
          if args.length = decl.signature.params.length then
            ∃ arg last, args.getLast? = some arg ∧
              ((s.typeOf arg).isAny = true ∨ s.typeOf arg = slot) ∧
              (s.lowerExpr arg (some slot)).Yields c₁ last c' ∧
              operands = fixed.map Lowered.operand ++ [last.operand] ∧
              code = fixed.flatMap Lowered.code ++ last.code
          else
            ∃ trailing,
              Lower.YieldsEach ((args.drop decl.signature.fixedArity).map fun arg ↦
                s.lowerExpr arg (some slot.element)) { c₁ with temps := c₁.temps + 1 } trailing
                c' ∧
              operands = fixed.map Lowered.operand ++ [.temp c₁.temps slot] ∧
              code = fixed.flatMap Lowered.code ++
                .assign (.temp c₁.temps slot) slot (.newArray slot.element
                  (.int (Int32.ofNat (args.length - decl.signature.fixedArity)))) ::
                Lower.storing (.temp c₁.temps slot) slot.element 0 trailing ∧
              args.length - decl.signature.fixedArity < 2147483648 ∧
              c.temps ≤ c₁.temps ∧
              c₁.temps ∉ Code.assigned (fixed.flatMap Lowered.code) ∧
              c₁.temps ∉ Code.assigned (trailing.flatMap Lowered.code) := by
  have hcount := acceptsCount_of_clean hchecked
  cases hvar : decl.varargs with
  | none =>
    have hhas := MethodDecl.hasVarargs_of_none hvar
    have hlen : args.length = decl.signature.fixedArity := by
      simpa [Signature.acceptsCount, hhas] using hcount
    rw [Lower.ownArguments_eq_inOrder (.inl hhas)] at hyields
    obtain ⟨fixed, hfixed, rfl, rfl⟩ := Lower.yields_inOrder.mp hyields
    have hfixedLen := (length_of_yieldsEach hfixed).trans hlen
    refine ⟨?_, fixed, c', ?_, hfixedLen, rfl, rfl, rfl⟩
    · rw [List.length_map, hfixedLen, MethodDecl.length_params_of_none hvar]
    · rwa [← hlen, List.take_length]
  | some v =>
    have hhas := MethodDecl.hasVarargs_of_some hvar
    have hparams := MethodDecl.length_params_of_some hvar
    have hslot := MethodDecl.varargsSlot_of_some hvar
    by_cases heq : args.length = decl.signature.params.length
    · -- The array itself: checking has compared the last argument with the type of the parameter.
      obtain ⟨init, arg, rfl, hinit⟩ := exists_concat_of_length hvar heq
      rw [Lower.ownArguments_eq_inOrder (.inr (by rw [length_lowerEach, heq]))] at hyields
      obtain ⟨fixed, c₁, last, hfixed, hlast, rfl, rfl⟩ := yields_arguments_concat hyields
      rw [hinit, MethodDecl.getElem?_params_of_some hvar] at hlast
      have hfixedLen := (length_of_yieldsEach hfixed).trans hinit
      have hty := Ty.accepts_iff.mp (accepts_of_clean hchecked hslot hinit)
      refine ⟨by simp [hfixedLen, hparams], fixed, c₁, ?_, hfixedLen, ?_⟩
      · rwa [List.take_left' hinit]
      · dsimp only
        rw [if_pos heq]
        exact ⟨arg, last, List.getLast?_concat, hty, hlast, rfl, rfl⟩
    · have hle : decl.signature.fixedArity ≤ args.length := by
        simpa [Signature.acceptsCount, hhas] using hcount
      have helem : decl.signature.varargsElement = some v.ty.resolve.arrayOf.element := by
        rw [Signature.varargsElement, hslot, Option.map_some]
      obtain ⟨fixed, c₁, trailing, hfixed, htrailing, rfl, rfl, hrest⟩ :=
        yields_arguments_packed hhas heq helem hyields
      have hfixedLen := (length_of_yieldsEach hfixed).trans (List.length_take_of_le hle)
      refine ⟨by simp [hfixedLen, hparams], fixed, c₁, hfixed, hfixedLen, ?_⟩
      dsimp only
      rw [if_neg heq]
      exact ⟨trailing, htrailing, rfl, rfl, hrest⟩

/-- A method that takes a level and any number of codes. -/
def logDecl : MethodDecl where
  name := "log"
  isPublic := true
  isStatic := false
  returnType := .void
  params := [⟨.int, "level", .origin⟩]
  varargs := some ⟨.int, "codes", .origin⟩
  locals := []
  body := []
  pos := .origin

theorem pumpRun_log_fit :
    let args : List Expr := [.lit .origin (.int 4),
      .binary .origin .add (.var .origin "k") (.var .origin "bound"), .lit .origin (.int 9)]
    Clean (pumpRun.argumentProblems logDecl.signature .origin (pumpRun.arguments args)) ∧
      ∃ operands code, (Lower.ownArguments logDecl.signature (pumpRun.lowerEach args)).Yields
          ⟨5, 0, 0, 0⟩ (operands, code) ⟨7, 0, 0, 0⟩ ∧
        operands.length = 2 ∧
        ∃ (fixed : List Lowered) (c₁ : Nat) (trailing : List Lowered),
          operands = fixed.map Lowered.operand ++ [.temp c₁ .intArray] ∧
          code = fixed.flatMap Lowered.code ++
            .assign (.temp c₁ .intArray) .intArray (.newArray .int (.int 2)) ::
            Lower.storing (.temp c₁ .intArray) .int 0 trailing := by
  intro args
  have hchecked : Clean (pumpRun.argumentProblems logDecl.signature .origin
    (pumpRun.arguments args)) := by decide
  obtain ⟨⟨operands, code⟩, hyields⟩ : ∃ x, (Lower.ownArguments logDecl.signature
    (pumpRun.lowerEach args)).Yields ⟨5, 0, 0, 0⟩ x ⟨7, 0, 0, 0⟩ := ⟨_, rfl⟩
  obtain ⟨hlength, fixed, c₁, -, -, trailing, -, hoperands, hcode, -⟩ :=
    ownArguments_fit hchecked hyields
  exact ⟨hchecked, operands, code, hyields, hlength, fixed, c₁.temps, trailing, hoperands, hcode⟩

end Scope

end Tricode
