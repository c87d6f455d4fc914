import Tricode.Proofs.Footprint
import Tricode.Proofs.Temporaries

/-!
# Bodies that control can leave at the end

A body that does not end in a return is given one, without a value. In a method that has a result
this is the only return of that kind, since checking refuses any other. This file says when control
can come to it: when the body can complete, that is, when a branch without a return leads to its
end. Checking does not ask, so a method with a result may come back without one.

## Both directions

That control comes to the end is shown by walking there. `Code.Passes` says that from the start of
a piece of code control can come to its end, whatever the code stands in. It is kept by
everything that puts code together.

That control does not come there is shown by a certificate. After a return nothing has to be
written, so everything counts as written, and a certificate that says so of the end of a body
cannot be right if control comes there: there are always temporaries that no code writes.
-/

namespace Tricode

/-! ## Statements that can complete -/

namespace Stmt

mutual

/-- Some branch of the statement has no return. A loop may be left before its first round, so
nothing is asked of its body. -/
def canComplete : Stmt → Bool
  | block _ stmts => canCompleteAll stmts
  | ifElse _ _ thenBranch elseBranch => thenBranch.canComplete || elseBranch.canComplete
  | ret _ _ => false
  | _ => true

def canCompleteAll : List Stmt → Bool
  | [] => true
  | stmt :: stmts => stmt.canComplete && canCompleteAll stmts

end

end Stmt

/-! ## Walking through code -/

namespace Code

/-- Where the code is `before` followed by `after`, control can come to the place between them. -/
def Reaches (before after : Code) : Prop :=
  ∃ places, (before ++ after).Path places before.length

variable {before after part : Code} {i : Instruction}

theorem reaches_start (code : Code) : Reaches [] code := ⟨[], .start⟩

theorem Reaches.next (h : Reaches before (i :: after)) (hfalls : i.fallsThrough = true) :
    Reaches (before ++ [i]) after := by
  obtain ⟨places, hpath⟩ := h
  have hat : (before ++ i :: after)[before.length]? = some i := by simp
  rw [Reaches, List.append_assoc, List.singleton_append, List.length_append, List.length_singleton]
  exact ⟨_, hpath.step (.next hat hfalls)⟩

theorem Reaches.jump {l : Label} {before' after' : Code} (h : Reaches before (i :: after))
    (htarget : i.target? = some l)
    (hcode : before ++ i :: after = before' ++ .label l :: after') :
    Reaches before' (.label l :: after') := by
  obtain ⟨places, hpath⟩ := h
  have hat : (before ++ i :: after)[before.length]? = some i := by simp
  have hlabel : (before ++ i :: after)[before'.length]? = some (.label l) := by simp [hcode]
  have hflow := hpath.step (.jump hat htarget hlabel rfl)
  rw [hcode] at hflow
  exact ⟨_, hflow⟩

/-- Wherever the code stands, control can go from its start to its end. -/
def Passes (part : Code) : Prop :=
  ∀ ⦃before after : Code⦄, Reaches before (part ++ after) → Reaches (before ++ part) after

theorem passes_nil : Passes [] := by
  intro before after h
  rwa [List.append_nil]

theorem Passes.append {a b : Code} (ha : Passes a) (hb : Passes b) : Passes (a ++ b) := by
  intro before after h
  rw [List.append_assoc] at h
  rw [← List.append_assoc]
  exact hb (ha h)

theorem passes_single (h : i.fallsThrough = true) : Passes [i] := fun _ _ hreaches ↦ hreaches.next h

theorem passes_plain (h : ∀ i ∈ part, i.fallsThrough = true) : Passes part := by
  induction part with
  | nil => exact passes_nil
  | cons i part ih =>
    obtain ⟨hhead, htail⟩ := List.forall_mem_cons.mp h
    exact (passes_single hhead).append (ih htail)

/-- A jump over some code to the label behind it. -/
theorem passes_skip {l : Label} (htarget : i.target? = some l) (skipped : Code) :
    Passes (i :: skipped ++ [.label l]) := by
  intro before after h
  have hlabel : Reaches (before ++ i :: skipped) (.label l :: after) := by
    rw [List.append_assoc, List.cons_append] at h
    exact h.jump htarget (by simp)
  have hend := hlabel.next rfl
  rwa [List.append_assoc] at hend

variable {cond : Cond} {n : Nat} {condCode elseCode thenCode : Code}

/-- Control falls into the second branch and then jumps over the first. -/
theorem Passes.ifElse_of_else (hcond : Passes condCode) (helse : Passes elseCode) :
    Passes (condCode ++
      [.branch cond (.numbered .ifBody n)] ++
      elseCode ++
      [.goto (.numbered .endIf n),
        .label (.numbered .ifBody n)] ++
      thenCode ++
      [.label (.numbered .endIf n)]) := by
  have hbranch : Passes [.branch cond (.numbered .ifBody n)] := passes_single rfl
  have hend := passes_skip (i := .goto (.numbered .endIf n)) rfl
    (.label (.numbered .ifBody n) :: thenCode)
  simpa using (hcond.append (hbranch.append helse)).append hend

/-- Control jumps to the first branch, which is the last in the code. -/
theorem Passes.ifElse_of_then (hcond : Passes condCode) (hthen : Passes thenCode) :
    Passes (condCode ++
      [.branch cond (.numbered .ifBody n)] ++
      elseCode ++
      [.goto (.numbered .endIf n),
        .label (.numbered .ifBody n)] ++
      thenCode ++
      [.label (.numbered .endIf n)]) := by
  have hbody := passes_skip (i := .branch cond (.numbered .ifBody n)) rfl
    (elseCode ++ [.goto (.numbered .endIf n)])
  have hend : Passes [.label (.numbered .endIf n)] := passes_single rfl
  simpa using (hcond.append hbody).append (hthen.append hend)

/-- Control leaves the loop before the first round. -/
theorem Passes.whileLoop {bodyCode : Code} (hcond : Passes condCode) :
    Passes ([.label (.numbered .loop n)] ++
      condCode ++
      [.branch cond (.numbered .whileBody n),
        .goto (.numbered .endWhile n),
        .label (.numbered .whileBody n)] ++
      bodyCode ++
      [.goto (.numbered .loop n),
        .label (.numbered .endWhile n)]) := by
  have hloop : Passes [.label (.numbered .loop n)] := passes_single rfl
  have hbranch : Passes [.branch cond (.numbered .whileBody n)] := passes_single rfl
  have hend := passes_skip (i := .goto (.numbered .endWhile n)) rfl
    (.label (.numbered .whileBody n) :: bodyCode ++ [.goto (.numbered .loop n)])
  simpa using (hloop.append (hcond.append hbranch)).append hend

end Code

theorem Instruction.fallsThrough_of_isReturn {i : Instruction} (hreturn : i.isReturn = false)
    (htarget : i.target? = none) : i.fallsThrough = true := by
  cases i with
  | ret => cases hreturn
  | goto => cases htarget
  | _ => rfl

/-- Code without a return can be walked through. -/
theorem Assembled.passes {c c' : Counters} {os : List Operand} {code : Code}
    (h : Assembled c os code c') (hreturns : ∀ i ∈ code, i.isReturn = false) : code.Passes := by
  induction h with
  | nil => exact Code.passes_nil
  | append _ _ iha ihb =>
    obtain ⟨ha, hb⟩ := List.forall_mem_append.mp hreturns
    exact (iha ha).append (ihb hb)
  | keep _ _ ih => exact ih hreturns
  | emit instruction _ hplain _ ih =>
    obtain ⟨hcode, hlast⟩ := List.forall_mem_append.mp hreturns
    obtain ⟨-, htarget, -⟩ := Instruction.isPlain_iff.mp hplain
    rw [List.forall_mem_singleton] at hlast
    exact (ih hcode).append (Code.passes_plain
      (List.forall_mem_singleton.mpr (Instruction.fallsThrough_of_isReturn hlast htarget)))
  | intoTemp value ty _ ih =>
    obtain ⟨hcode, -⟩ := List.forall_mem_append.mp hreturns
    exact (ih hcode).append (Code.passes_plain (by simp [Instruction.fallsThrough]))
  | @comparison c c' code cond _ ih =>
    obtain ⟨hcode, -⟩ := List.forall_mem_append.mp hreturns
    -- The way through fails the test, and the jump to the end skips the other outcome.
    have hfalse : Code.Passes [.branch cond (.numbered .cmpTrue c'.conds),
        Lower.setBool c'.temps (.bool false)] :=
      Code.passes_plain (by simp [Lower.setBool, Instruction.fallsThrough])
    have hend := Code.passes_skip (i := .goto (.numbered .cmpEnd c'.conds)) rfl
      [.label (.numbered .cmpTrue c'.conds), Lower.setBool c'.temps (.bool true)]
    exact (ih hcode).append (hfalse.append hend)
  | @and c c₁ c' left right leftCode rightCode _ _ ihl _ =>
    simp only [List.forall_mem_append] at hreturns
    obtain ⟨⟨⟨hleft, -⟩, -⟩, -⟩ := hreturns
    -- A false left operand skips the right one.
    have hfalse : Code.Passes [.branch (.truthy left) (.numbered .andRhs c₁.conds),
        Lower.setBool c₁.temps (.bool false)] :=
      Code.passes_plain (by simp [Lower.setBool, Instruction.fallsThrough])
    have hend := Code.passes_skip (i := .goto (.numbered .andEnd c₁.conds)) rfl
      (.label (.numbered .andRhs c₁.conds) :: rightCode ++ [Lower.setBool c₁.temps right])
    simpa using (ihl hleft).append (hfalse.append hend)
  | @or c c₁ c' left right leftCode rightCode _ _ ihl ihr =>
    simp only [List.forall_mem_append] at hreturns
    obtain ⟨⟨⟨hleft, -⟩, hright⟩, -⟩ := hreturns
    -- A false left operand leads through the right one.
    have hbranch : Code.Passes [.branch (.truthy left) (.numbered .orTrue c₁.conds)] :=
      Code.passes_plain (by simp [Instruction.fallsThrough])
    have hset : Code.Passes [Lower.setBool c₁.temps right] :=
      Code.passes_plain (by simp [Lower.setBool, Instruction.fallsThrough])
    have hend := Code.passes_skip (i := .goto (.numbered .orEnd c₁.conds)) rfl
      [.label (.numbered .orTrue c₁.conds), Lower.setBool c₁.temps (.bool true)]
    simpa using ((ihl hleft).append hbranch).append ((ihr hright).append (hset.append hend))
  | ifElse _ _ _ ihCond ihElse _ =>
    simp only [List.forall_mem_append] at hreturns
    obtain ⟨⟨⟨⟨⟨hcond, -⟩, helse⟩, -⟩, -⟩, -⟩ := hreturns
    exact (ihCond hcond).ifElse_of_else (ihElse helse)
  | whileLoop _ _ ihCond _ =>
    simp only [List.forall_mem_append] at hreturns
    obtain ⟨⟨⟨⟨-, hcond⟩, -⟩, -⟩, -⟩ := hreturns
    exact (ihCond hcond).whileLoop

/-! ## Returns -/

/-- Only a return is mentioned as one. -/
theorem Scope.ret_mem_footprint {s : Scope} {ms : List Mention} {hasValue : Bool} :
    .ret hasValue ∈ s.footprint ms ↔ .ret hasValue ∈ ms := by
  constructor
  · rintro ⟨u, hu, hresolved⟩
    have hread : ∀ name, s.readReference? name ≠ some (.ret hasValue) := by
      intro name
      unfold readReference?
      split <;> simp
    cases u with
    | ret hasValue' =>
      obtain rfl : hasValue' = hasValue := Reference.ret.inj (Option.some.inj hresolved)
      exact hu
    | value name => exact absurd hresolved (hread name)
    | receiver name =>
      rw [reference?] at hresolved
      split at hresolved
      · cases hresolved
      · exact absurd hresolved (hread name)
    | dropped name | target name =>
      rw [reference?] at hresolved
      split at hresolved <;> cases hresolved
    | own method =>
      cases hkind : (s.ownDispatch method).kind <;>
        simp [reference?, CallKind.reference, hkind] at hresolved
    | this | object | elements | other => cases hresolved
  · exact fun h ↦ ⟨_, h, rfl⟩

theorem Expr.ret_notMem_mentions {e : Expr} {hasValue : Bool} : .ret hasValue ∉ e.mentions := by
  have hall : ∀ {es : List Expr}, (∀ e ∈ es, .ret hasValue ∉ e.mentions) →
      .ret hasValue ∉ mentionsAll es := by
    intro es h
    rw [mentionsAll_eq_flatMap, List.mem_flatMap]
    rintro ⟨e, he, hmem⟩
    exact h e he hmem
  have hreceiver : ∀ {receiver : Expr} {method : String}, .ret hasValue ∉ receiver.mentions →
      .ret hasValue ∉ receiver.asReceiver method receiver.mentions := by
    intro receiver method h
    cases receiver <;> simp [asReceiver, h]
  induction e using Expr.memberInduct with
  | lit | this | var | newObject => simp [mentions]
  | not p operand ih => exact ih
  | binary p op lhs rhs ihl ihr => simp [mentions, ihl, ihr]
  | index p base idx ihb ihi => simp [mentions, ihb, ihi]
  | array p elements ih => exact hall ih
  | newArray p elem size ih => simp [mentions, ih]
  | length p base ih => exact ih
  | call p method args ih => simp [mentions, hall ih]
  | callOn p receiver method args ihr iha => simp [mentions, hall iha, hreceiver ihr]

theorem Expr.ret_notMem_asStatement {e : Expr} {hasValue : Bool} :
    .ret hasValue ∉ e.asStatement e.mentions := by
  cases e with
  | this | var => simp [asStatement]
  | _ => exact ret_notMem_mentions

/-- Code without a return among its references has none among its instructions. -/
theorem Code.isReturn_eq_false {code : Code} (h : ∀ hasValue, .ret hasValue ∉ code.references) :
    ∀ i ∈ code, i.isReturn = false := by
  intro i hi
  cases i with
  | ret value ty =>
    exact absurd (List.mem_flatMap.mpr ⟨_, hi, List.mem_cons_self⟩) (h value.isSome)
  | _ => rfl

namespace Scope

variable {s : Scope} {c c' : Counters}

section

variable (hvarargs : ∀ {method sig}, s.table.method? method = some sig → sig.hasVarargs = true →
  ∃ elem, sig.varargsElement = some elem)
include hvarargs

theorem ret_mem_references_stmt {stmt : Stmt} {code : Code}
    (hy : (s.lowerStmt stmt).Yields c code c') {hasValue : Bool} :
    .ret hasValue ∈ code.references ↔ .ret hasValue ∈ stmt.mentions := by
  rw [← ret_mem_footprint (s := s), ← footprint_lowerStmt hvarargs stmt hy]
  exact (and_iff_left rfl).symm

theorem passes_lowerCond {cond : Expr} {jump : Cond} {code : Code}
    (hy : (s.lowerCond cond).Yields c (jump, code) c') : code.Passes := by
  refine (assembled_lowerCond hy).passes (Code.isReturn_eq_false fun hasValue hmem ↦ ?_)
  have hret : .ret hasValue ∈ s.footprint cond.mentions := by
    rw [← footprint_lowerCond hvarargs hy]
    exact ⟨List.mem_append_left _ hmem, rfl⟩
  exact Expr.ret_notMem_mentions (ret_mem_footprint.mp hret)

theorem passes_of_ret_notMem {stmt : Stmt} {code : Code}
    (hy : (s.lowerStmt stmt).Yields c code c') (h : ∀ hasValue, .ret hasValue ∉ stmt.mentions) :
    code.Passes := by
  refine (assembled_lowerStmt hy).passes (Code.isReturn_eq_false fun hasValue hmem ↦ ?_)
  exact h hasValue ((ret_mem_references_stmt hvarargs hy).mp hmem)

omit hvarargs in
theorem passes_lowerStmts_of {stmts : List Stmt} (h : ∀ stmt ∈ stmts, ∀ {c c' code},
      stmt.canComplete = true → (s.lowerStmt stmt).Yields c code c' → Code.Passes code) :
    ∀ {c c' code}, Stmt.canCompleteAll stmts = true → (s.lowerStmts stmts).Yields c code c' →
      Code.Passes code := by
  induction stmts with
  | nil =>
    intro c c' code _ hy
    obtain ⟨rfl, -⟩ := Lower.yields_pure.mp hy
    exact Code.passes_nil
  | cons stmt stmts ih =>
    intro c c' code hcompletes hy
    obtain ⟨first, c₁, rest, hfirst, hrest, rfl⟩ := yields_lowerStmts_cons hy
    obtain ⟨hhead, htail⟩ := List.forall_mem_cons.mp h
    rw [Stmt.canCompleteAll, Bool.and_eq_true] at hcompletes
    exact (hhead hcompletes.1 hfirst).append (ih htail hcompletes.2 hrest)

/-- Control can walk through the code of a statement that can complete. -/
theorem passes_lowerStmt {stmt : Stmt} : ∀ {c c' code}, stmt.canComplete = true →
    (s.lowerStmt stmt).Yields c code c' → Code.Passes code := by
  induction stmt using Stmt.memberInduct with
  | block p stmts ih => exact passes_lowerStmts_of ih
  | ifElse p cond thenBranch elseBranch ihThen ihElse =>
    intro c c' code hcompletes hy
    obtain ⟨jump, condCode, c₁, elseCode, c₂, thenCode, hcond, helse, hthen, rfl⟩ :=
      yields_lowerIf hy
    rw [Stmt.canComplete, Bool.or_eq_true] at hcompletes
    rcases hcompletes with h | h
    · exact (passes_lowerCond hvarargs hcond).ifElse_of_then (ihThen h hthen)
    · exact (passes_lowerCond hvarargs hcond).ifElse_of_else (ihElse h helse)
  | whileLoop p cond body _ =>
    intro c c' code _ hy
    obtain ⟨jump, condCode, c₁, bodyCode, hcond, hbody, rfl⟩ := yields_lowerWhile hy
    -- The loop can be left before its first round, whatever its body does.
    exact (passes_lowerCond hvarargs hcond).whileLoop
  | eval p expr =>
    intro c c' code _ hy
    exact passes_of_ret_notMem hvarargs hy fun _ ↦ Expr.ret_notMem_asStatement
  | assign p target value =>
    intro c c' code _ hy
    refine passes_of_ret_notMem hvarargs hy fun hasValue ↦ ?_
    simp [Stmt.mentions, Expr.ret_notMem_mentions]
  | store p target index value =>
    intro c c' code _ hy
    refine passes_of_ret_notMem hvarargs hy fun hasValue ↦ ?_
    simp [Stmt.mentions, Expr.ret_notMem_mentions]
  | ret p value =>
    intro c c' code hcompletes _
    cases hcompletes

end

/-! ## Statements that cannot complete -/

/-- What is written where a piece of code ends: as much as where it starts, and anything if control
does not come there. -/
def writtenAfter (completes : Bool) (known : Set Nat) : Set Nat :=
  if completes then known else Set.univ

theorem writtenAfter_subset {completes completes' : Bool} {known known' : Set Nat}
    (h : completes' = true → completes = true) (hle : known ⊆ known') :
    writtenAfter completes known ⊆ writtenAfter completes' known' := by
  cases completes' with
  | true =>
    rw [h rfl]
    exact hle
  | false => exact Set.subset_univ _

theorem certified_lowerStmts_of {stmts : List Stmt} (h : ∀ stmt ∈ stmts, ∀ {c c' code},
      (s.lowerStmt stmt).Yields c code c' → ∀ known,
        Code.Certified known code (writtenAfter stmt.canComplete known)) :
    ∀ {c c' code}, (s.lowerStmts stmts).Yields c code c' → ∀ known,
      Code.Certified known code (writtenAfter (Stmt.canCompleteAll stmts) known) := by
  induction stmts with
  | nil =>
    intro c c' code hy known
    obtain ⟨rfl, -⟩ := Lower.yields_pure.mp hy
    exact .nil known
  | cons stmt stmts ih =>
    intro c c' code hy known
    obtain ⟨first, c₁, rest, hfirst, hrest, rfl⟩ := yields_lowerStmts_cons hy
    obtain ⟨hhead, htail⟩ := List.forall_mem_cons.mp h
    refine ((hhead hfirst known).append (ih htail hrest _)).weaken ?_
    rw [Stmt.canCompleteAll]
    cases stmt.canComplete with
    | true => exact Set.Subset.rfl
    | false =>
      show writtenAfter true Set.univ ⊆ writtenAfter (Stmt.canCompleteAll stmts) Set.univ
      exact writtenAfter_subset (fun _ ↦ rfl) Set.Subset.rfl

/-- Past a statement that cannot complete, anything may count as written. -/
theorem certified_lowerStmt {stmt : Stmt} : ∀ {c c' code}, (s.lowerStmt stmt).Yields c code c' →
    ∀ known, Code.Certified known code (writtenAfter stmt.canComplete known) := by
  have hplain : ∀ {stmt : Stmt} {c c' : Counters} {code : Code},
      (s.lowerStmt stmt).Yields c code c' → ∀ known, code.Certified known known :=
    fun hy known ↦ ((assembled_lowerStmt hy).certified known).weaken Set.subset_union_left
  induction stmt using Stmt.memberInduct with
  | block p stmts ih => exact certified_lowerStmts_of ih
  | ifElse p cond thenBranch elseBranch ihThen ihElse =>
    intro c c' code hy known
    obtain ⟨jump, condCode, c₁, elseCode, c₂, thenCode, hcond, helse, hthen, rfl⟩ :=
      yields_lowerIf hy
    -- A branch that cannot complete puts no limit on what is written behind the conditional.
    refine .ifElse ((assembled_lowerCond hcond).certified known) Set.subset_union_right
      ((ihElse helse _).weaken ?_) ((ihThen hthen _).weaken ?_)
    · exact writtenAfter_subset (fun h ↦ by simp [Stmt.canComplete, h]) Set.subset_union_left
    · exact writtenAfter_subset (fun h ↦ by simp [Stmt.canComplete, h]) Set.subset_union_left
  | whileLoop p cond body ihBody =>
    -- The loop may be left before the first round, whatever its body does.
    intro c c' code hy known
    exact hplain hy known
  | eval | assign | store => exact hplain
  | ret p value =>
    intro c c' code hy known
    cases value with
    | none =>
      obtain ⟨rfl, -⟩ := Lower.yields_pure.mp hy
      exact (Code.Certified.nil known).snoc (by simp [Instruction.operands]) rfl rfl
        fun ρ ↦ Set.Subset.rfl
    | some value =>
      obtain ⟨v, hv, rfl⟩ := yields_lowerReturn_some hy
      exact ((s.assembles_lowerExpr value _ hv).certified known).snoc Set.subset_union_right rfl rfl
        fun ρ ↦ Set.Subset.rfl

end Scope

/-! ## The end of a body -/

namespace Code

variable {ρ : Certificate} {known out : Set Nat} {code : Code}

theorem knownAt_append_left (a b : Code) (ρ : Certificate) (known : Set Nat) :
    (a ++ b).knownAt ρ known a.length = a.knownAt ρ known a.length := by
  rw [knownAt, knownAt, List.take_left, List.take_length]

theorem Respects.subset_knownAt (h : code.Respects ρ known out) :
    out ⊆ code.knownAt ρ known code.length := by
  induction code generalizing known with
  | nil => exact h
  | cons i code ih => exact ih h.2

end Code

/-- Where no return in the code lacks a value, only the one that closes it does. -/
theorem Code.eq_length_of_closed {code : Code} (h : ∀ ty, .ret none ty ∉ code) {k : Nat} {ty : Ty}
    (hk : code.closed[k]? = some (.ret none ty)) :
    code.endsInReturn = false ∧ k = code.length := by
  rw [closed_eq] at hk
  cases hend : code.endsInReturn with
  | true =>
    rw [hend] at hk
    exact absurd (List.mem_of_getElem? hk) (h ty)
  | false =>
    rw [hend, if_neg Bool.false_ne_true, List.getElem?_append] at hk
    split at hk
    · exact absurd (List.mem_of_getElem? hk) (h ty)
    · have hlt := (List.getElem?_eq_some_iff.mp hk).1
      rw [List.length_singleton] at hlt
      exact ⟨rfl, by omega⟩

namespace Scope

variable {s : Scope} {c c' : Counters} {stmts : List Stmt} {code : Code}

/-- Control comes to the end of a body only if the body can complete. -/
theorem canCompleteAll_of_path (hy : (s.lowerStmts stmts).Yields c code c')
    (hend : code.endsInReturn = false) {before : List Nat}
    (hpath : code.closed.Path before code.length) : Stmt.canCompleteAll stmts = true := by
  by_contra hcompletes
  have hassembled := assembled_lowerStmts hy
  have hclosed : code.closed = code ++ [.ret none .void] := by rw [Code.closed_eq, hend]; rfl
  -- Otherwise every temporary would be written on the way to the end.
  have hcertified := certified_lowerStmts_of (fun _ _ ↦ certified_lowerStmt) hy ∅
  rw [Bool.not_eq_true] at hcompletes
  rw [hcompletes] at hcertified
  obtain ⟨ρ, hrespects⟩ := hcertified.exists_respects hassembled.numbered.nodup
  have hat : code.closed[code.length]? = some (.ret none .void) := by simp [hclosed]
  have hwritten := hrespects.closed.entry_subset_written hassembled.eq_of_text_eq_closed hpath hat
  -- No code writes the temporary that would be drawn next.
  have hnext : c'.temps ∈ code.closed.written before := by
    refine hwritten ?_
    show c'.temps ∈ code.closed.knownAt ρ ∅ code.length
    rw [hclosed, Code.knownAt_append_left]
    exact hrespects.subset_knownAt (Set.mem_univ _)
  obtain ⟨j, -, earlier, ty, hearlier, hwrites⟩ := hnext
  have hmem : (c'.temps, ty) ∈ code.temps := by
    rw [← Code.temps_closed]
    exact List.mem_flatMap.mpr ⟨earlier, List.mem_of_getElem? hearlier,
      List.mem_append_left _ (by rw [hwrites]; exact List.mem_singleton_self _)⟩
  exact absurd (hassembled.drawnTemps.1.drawn _ hmem).2 (Nat.lt_irrefl _)

/-- A body that can complete is given a return, and control can come to it. -/
theorem path_of_canCompleteAll
    (hvarargs : ∀ {method sig}, s.table.method? method = some sig → sig.hasVarargs = true →
      ∃ elem, sig.varargsElement = some elem)
    (hy : (s.lowerStmts stmts).Yields c code c') (h : Stmt.canCompleteAll stmts = true) :
    code.endsInReturn = false ∧ ∃ before, code.closed.Path before code.length := by
  have hpasses : code.Passes := passes_lowerStmts_of (fun _ _ ↦ passes_lowerStmt hvarargs) h hy
  have hreaches : ∀ after, ∃ before, (code ++ after).Path before code.length :=
    fun after ↦ hpasses (Code.reaches_start (code ++ after))
  have hend : code.endsInReturn = false := by
    rw [← Bool.not_eq_true]
    intro hend
    obtain ⟨before, hpath⟩ := hreaches []
    rw [List.append_nil] at hpath
    exact absurd (hpath.lt_length hend) (Nat.lt_irrefl _)
  refine ⟨hend, ?_⟩
  rw [Code.closed_eq, hend]
  exact hreaches _

/-- A statement that is accepted in a method with a result returns nothing but values. -/
theorem ret_false_notMem_mentions (hvoid : s.method.returnType.isVoid = false) {stmt : Stmt} :
    s.AcceptsStmt stmt → .ret false ∉ stmt.mentions := by
  induction stmt using Stmt.memberInduct with
  | block p stmts ih =>
    intro h
    rw [Stmt.mentions, Stmt.mentionsAll_eq_flatMap, List.mem_flatMap]
    rintro ⟨stmt, hstmt, hmem⟩
    exact ih stmt hstmt (acceptsStmt_block.mp h stmt hstmt) hmem
  | ifElse p cond thenBranch elseBranch ihThen ihElse =>
    intro h
    obtain ⟨-, -, hthen, helse⟩ := acceptsStmt_ifElse.mp h
    simp [Stmt.mentions, Expr.ret_notMem_mentions, ihThen hthen, ihElse helse]
  | whileLoop p cond body ihBody =>
    intro h
    obtain ⟨-, -, hbody⟩ := acceptsStmt_whileLoop.mp h
    simp [Stmt.mentions, Expr.ret_notMem_mentions, ihBody hbody]
  | eval p expr => exact fun _ ↦ Expr.ret_notMem_asStatement
  | assign p target value => simp [Stmt.mentions, Expr.ret_notMem_mentions]
  | store p target index value => simp [Stmt.mentions, Expr.ret_notMem_mentions]
  | ret p value =>
    intro h
    cases value with
    | none =>
      rw [acceptsStmt_ret_none, hvoid] at h
      cases h
    | some value => simp [Stmt.mentions, Expr.ret_notMem_mentions]

end Scope

/-! ## Units -/

namespace Program

variable {p : Program} {o : Options}

theorem Accepted.ret_false_notMem (haccepted : p.Accepted) {m : MethodDecl}
    (hm : m ∈ (p.prepared o).decl.methods) (hvoid : m.returnType.resolve.isVoid = false) :
    .ret false ∉ Stmt.mentionsAll m.body := by
  intro hmem
  refine haccepted.forall_mentions hm (P := (· ≠ .ret false)) ?_ _ hmem rfl
  rintro stmt haccepts u hu rfl
  exact Scope.ret_false_notMem_mentions hvoid haccepts hu

section

variable {code : ClassCode} {i : Nat} {m : MethodDecl} {mc : MethodCode}
variable (haccepted : p.Accepted) (hlower : p.lower p.table o = .ok code)
variable (hm : (p.prepared o).decl.methods[i]? = some m) (hmc : code.methods[i]? = some mc)
variable (hvoid : m.returnType.resolve.isVoid = false)
include haccepted hlower hm hmc hvoid

/-- In a method with a result, only the return that the body was given has no value. Control comes
to it just in case the body can complete. -/
theorem valueless_return_iff :
    (∀ k ty, mc.body[k]? = some (.ret none ty) → k + 1 = mc.body.length) ∧
      ((∃ before k ty, mc.body.Path before k ∧ mc.body[k]? = some (.ret none ty)) ↔
        Stmt.canCompleteAll m.body = true) := by
  obtain ⟨m', c, body, c', hm', hclosed, hy, hfootprint⟩ := exists_footprint_of_lower hlower hmc
  obtain rfl : m = m' := Option.some.inj (hm.symm.trans hm')
  have hvalues : ∀ ty, .ret none ty ∉ body := by
    intro ty hmem
    have hret : .ret false ∈ Scope.footprint ⟨p.table, m.signature⟩ (Stmt.mentionsAll m.body) := by
      rw [← hfootprint]
      exact ⟨List.mem_flatMap.mpr ⟨_, hmem, List.mem_cons_self⟩, rfl⟩
    exact haccepted.ret_false_notMem (List.mem_of_getElem? hm) hvoid
      (Scope.ret_mem_footprint.mp hret)
  rw [hclosed]
  refine ⟨fun k ty hk ↦ ?_, ?_, fun hcompletes ↦ ?_⟩
  · obtain ⟨hend, rfl⟩ := Code.eq_length_of_closed hvalues hk
    rw [Code.closed_eq, hend]
    simp
  · rintro ⟨before, k, ty, hpath, hk⟩
    obtain ⟨hend, rfl⟩ := Code.eq_length_of_closed hvalues hk
    exact Scope.canCompleteAll_of_path hy hend hpath
  · obtain ⟨hend, before, hpath⟩ :=
      Scope.path_of_canCompleteAll varargsElement_isSome hy hcompletes
    refine ⟨before, body.length, .void, hpath, ?_⟩
    rw [Code.closed_eq, hend]
    simp

end

/-- A unit with two methods that have a result. One returns it on one branch only, the other on
both. -/
def gauge : Program where
  imports := []
  decl := {
    name := "Gauge"
    superclass := none
    fields := [⟨.int, "level", .origin⟩]
    methods := [
      { name := "rise"
        isPublic := true
        isStatic := false
        returnType := .int
        params := [⟨.int, "n", .origin⟩]
        varargs := none
        locals := []
        body := [
          .whileLoop .origin (.binary .origin .lt (.var .origin "level") (.var .origin "n"))
            (.ret .origin (some (.var .origin "n"))),
          .ifElse .origin (.binary .origin .lt (.var .origin "n") (.lit .origin (.int 0)))
            (.ret .origin (some (.lit .origin (.int 0))))
            (.assign .origin "level" (.var .origin "n"))]
        pos := .origin },
      { name := "clamp"
        isPublic := true
        isStatic := false
        returnType := .int
        params := [⟨.int, "n", .origin⟩]
        varargs := none
        locals := []
        body := [
          .ifElse .origin (.binary .origin .lt (.var .origin "n") (.var .origin "level"))
            (.ret .origin (some (.var .origin "n")))
            (.block .origin [.assign .origin "level" (.var .origin "n"),
              .ret .origin (some (.var .origin "level"))])]
        pos := .origin }]
    pos := .origin }

theorem gauge_valueless_return : gauge.Accepted ∧ ∃ code rise clamp,
    gauge.lower gauge.table .default = .ok code ∧ code.methods = [rise, clamp] ∧
      rise.returnType = .int ∧ clamp.returnType = .int ∧
      (∃ before k ty, rise.body.Path before k ∧ rise.body[k]? = some (.ret none ty)) ∧
      ¬∃ before k ty, clamp.body.Path before k ∧ clamp.body[k]? = some (.ret none ty) := by
  have haccepted : gauge.Accepted := accepted_iff.mpr (by decide)
  obtain ⟨code, rise, clamp, hlower, hmethods, hrise, hclamp⟩ : ∃ code rise clamp,
      gauge.lower gauge.table .default = .ok code ∧ code.methods = [rise, clamp] ∧
        rise.returnType = .int ∧ clamp.returnType = .int := ⟨_, _, _, rfl, rfl, rfl, rfl⟩
  refine ⟨haccepted, code, rise, clamp, hlower, hmethods, hrise, hclamp, ?_, fun hreached ↦ ?_⟩
  · exact (valueless_return_iff (i := 0) haccepted hlower rfl (by rw [hmethods]; rfl) rfl).2.mpr rfl
  · have hcompletes := (valueless_return_iff (i := 1) haccepted hlower rfl
      (by rw [hmethods]; rfl) rfl).2.mp hreached
    cases hcompletes

/-- A unit whose method has a result and an empty body. -/
def blank : Program where
  imports := []
  decl := {
    name := "Blank"
    superclass := none
    fields := []
    methods := [{
      name := "get"
      isPublic := true
      isStatic := false
      returnType := .int
      params := []
      varargs := none
      locals := []
      body := []
      pos := .origin }]
    pos := .origin }

/-- Nothing is wrong with an empty body, and its method comes back without a result. -/
theorem blank_returns_nothing : blank.Accepted ∧ ∃ code mc,
    blank.lower blank.table .default = .ok code ∧ code.methods = [mc] ∧ mc.returnType = .int ∧
      mc.body.Path [] 0 ∧ mc.body[0]? = some (.ret none .void) :=
  ⟨accepted_iff.mpr (by decide), _, _, rfl, rfl, rfl, .start, rfl⟩

end Program

end Tricode
