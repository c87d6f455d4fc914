import Tricode.Proofs.AcceptedFaults
import Tricode.Proofs.CodeTypes

/-!
# The types of accepted code

Checking asks of every use of a value what the code needs of it, but lets values of unknown type
pass. Lowering then makes up a type for them. A call gets the one its use wants, so nothing is
amiss. An element of an array nobody knows is taken for an integer and a literal of such elements
for an array of integers, whatever they are used for.

There is one more way for types to disagree. Arrays do not nest: the array of an array type is
the array type itself, and an element of it is no array. So a literal whose elements are arrays is
accepted, and its elements do not fit where they are stored.

`Scope.mistyped` says when a use goes wrong in one of these two ways, in terms of checking alone.
The code of an accepted unit is well typed just when none does.
-/

namespace Tricode

open Diagnostic (Clean)

/-! ## Types alone -/

namespace Ty

variable {env : ClassEnv} {dest src : Ty}

theorem element_of_not_isArray {t : Ty} (h : t.isArray = false) : t.element = t := by
  cases t
  rw [element, ← h]

/-- The type of an accepted array literal is that of an array of any of its elements. -/
theorem ofElements_of_mem {types : List Ty} {t : Ty}
    (hrule : ∀ elem, common types = some elem → ∀ t ∈ types, t.accepts elem = true)
    (ht : t ∈ types) (hknown : t.isAny = false) : ofElements types = t.arrayOf := by
  have hcommon := common_of_mem hrule ht hknown
  have hnonempty : types.isEmpty = false := by
    rw [List.isEmpty_eq_false_iff]
    exact List.ne_nil_of_mem ht
  have hall : (types.all fun t' ↦ t'.accepts t) = true := List.all_eq_true.mpr (hrule t hcommon)
  simp only [ofElements, hnonempty, hcommon, hall, Bool.false_eq_true, if_false, if_true]

/-- No slot of another known type holds arrays. -/
theorem assignable_eq_false_of_isArray (hdest : dest.isAny = false) (hsrc : src.isAny = false)
    (hflat : dest.isArray = false) (harray : src.isArray = true) :
    assignable env dest src = false := by
  have hne : (dest == src) = false := by
    refine beq_eq_false_iff_ne.mpr ?_
    rintro rfl
    rw [hflat] at harray
    cases harray
  have hclass : src.isClass = false := by simp [isClass, isPrimitive, harray]
  simp [assignable, hdest, hsrc, hne, hclass]

end Ty

namespace Need

/-- The value goes to a slot that holds no arrays. -/
def isFlat : Need → Bool
  | fitting slot => !slot.isArray
  | exactly _ | anArray => false

@[simp] theorem met_wanted (env : Ty.ClassEnv) (need : Need) : need.met env need.wanted = true := by
  cases need with
  | exactly ty => exact beq_self_eq_true ty
  | anArray => rfl
  | fitting slot => exact Ty.assignable_self env slot

end Need

namespace Scope

variable {s : Scope} {pos : Position}

/-! ## Uses that go wrong -/

/-- The use does not go with the type that lowering makes up, or takes an array for its element. -/
def mistyped (s : Scope) (u : Use) : Bool :=
  if (s.typeOf u.expr).isAny then
    !u.expr.isCall && !u.need.met s.table.env u.expr.guessedTy
  else u.need.isFlat && (s.typeOf u.expr).isArray

/-- The expression is accepted. Unless its type is unknown, it has what the use asks for, if it is
not an array where there can be none. -/
structure AcceptsUse (s : Scope) (u : Use) : Prop where
  accepts : s.Accepts u.expr
  typeNames : "<any>" ∉ u.expr.typeNames
  known : (s.typeOf u.expr).isAny = false →
    u.need.met s.table.env (s.typeOf u.expr) = !(u.need.isFlat && (s.typeOf u.expr).isArray)

section

variable {e : Expr} (haccepts : s.Accepts e) (hnames : "<any>" ∉ e.typeNames)
include haccepts hnames

theorem acceptsUse_exactly {ty : Ty} (h : (s.typeOf e).accepts ty = true) :
    s.AcceptsUse ⟨.exactly ty, e⟩ where
  accepts := haccepts
  typeNames := hnames
  known := by
    intro hknown
    have hty : s.typeOf e = ty := by simpa [hknown] using Ty.accepts_iff.mp h
    simp [Need.met, Need.isFlat, hty]

theorem acceptsUse_anArray (h : (s.typeOf e).isAny = true ∨ (s.typeOf e).isArray = true) :
    s.AcceptsUse ⟨.anArray, e⟩ where
  accepts := haccepts
  typeNames := hnames
  known := by
    intro hknown
    have harray : (s.typeOf e).isArray = true := by simpa [hknown] using h
    simp [Need.met, Need.isFlat, harray]

/-- A value of just the type of the slot. -/
theorem acceptsUse_matching {slot : Ty} (h : (s.typeOf e).accepts slot = true) :
    s.AcceptsUse ⟨.fitting slot, e⟩ where
  accepts := haccepts
  typeNames := hnames
  known := by
    intro hknown
    have hty : s.typeOf e = slot := by simpa [hknown] using Ty.accepts_iff.mp h
    cases harray : slot.isArray <;> simp [Need.met, Need.isFlat, hty, harray]

theorem acceptsUse_assigned {slot : Ty} (hslot : slot.isAny = false)
    (h : Ty.assignable s.table.env slot (s.typeOf e) = true) :
    s.AcceptsUse ⟨.fitting slot, e⟩ where
  accepts := haccepts
  typeNames := hnames
  known := by
    intro hknown
    have hfits : (!slot.isArray && (s.typeOf e).isArray) = false := by
      by_contra hbad
      simp only [Bool.not_eq_false, Bool.and_eq_true, Bool.not_eq_true'] at hbad
      rw [Ty.assignable_eq_false_of_isArray hslot hknown hbad.1 hbad.2] at h
      cases h
    simp only [Need.met, Need.isFlat, hfits, h, Bool.not_false]

end

/-- An element of a literal has the type of the others, and is stored as an element of it. -/
theorem acceptsUse_element {elements : List Expr} (h : s.Accepts (.array pos elements)) {e : Expr}
    (he : e ∈ elements) (hnames : "<any>" ∉ e.typeNames) :
    s.AcceptsUse ⟨.fitting (s.literalElement elements), e⟩ where
  accepts := (accepts_array.mp h).1 e he
  typeNames := hnames
  known := by
    intro hknown
    have hmem : s.typeOf e ∈ s.typesOf elements := by
      rw [typesOf_eq_map]
      exact List.mem_map_of_mem he
    have hslot : s.literalElement elements = (s.typeOf e).element := by
      rw [literalElement, Ty.ofElements_of_mem (accepts_of_common h) hmem hknown]
      rfl
    rw [hslot]
    cases harray : (s.typeOf e).isArray with
    | false =>
      rw [Ty.element_of_not_isArray harray]
      simp [Need.met, Need.isFlat, harray]
    | true =>
      -- The slot has the type of the elements of `e`, not that of `e`.
      have hflat : Ty.assignable s.table.env (s.typeOf e).element (s.typeOf e) = false :=
        Ty.assignable_eq_false_of_isArray hknown hknown rfl harray
      simp [Need.met, Need.isFlat, hflat]

/-! ## Lists of uses -/

theorem forall_mem_storedUses {P : Use → Prop} {elem : Ty} {es : List Expr}
    (hown : ∀ e ∈ es, ∀ u ∈ s.uses e, P u) (hstored : ∀ e ∈ es, P ⟨.fitting elem, e⟩) :
    ∀ u ∈ storedUses elem es (s.usesEach es), P u := by
  intro u hu
  rw [storedUses, usesEach_eq_map, List.zipWith_map_left, List.zipWith_self,
    ← List.flatMap_def] at hu
  obtain ⟨e, he, hu⟩ := List.mem_flatMap.mp hu
  rcases List.mem_append.mp hu with hmem | hmem
  · exact hown e he u hmem
  · rw [List.mem_singleton.mp hmem]
    exact hstored e he

theorem forall_mem_argumentUses {P : Use → Prop} {callee : Option Signature} {args : List Expr}
    (hown : ∀ e ∈ args, ∀ u ∈ s.uses e, P u)
    (hpacked : ∀ {sig elem}, callee = some sig → sig.packs args.length = some elem →
      ∀ e ∈ args.drop sig.fixedArity, P ⟨.fitting elem, e⟩) :
    ∀ u ∈ argumentUses callee args (s.usesEach args), P u := by
  have hplain : ∀ u ∈ (s.usesEach args).flatten, P u := by
    intro u hu
    rw [usesEach_eq_map, ← List.flatMap_def] at hu
    obtain ⟨e, he, hu⟩ := List.mem_flatMap.mp hu
    exact hown e he u hu
  unfold argumentUses
  split
  · exact hplain
  · rename_i sig
    split
    · exact hplain
    · rename_i elem hpacks
      refine List.forall_mem_append.mpr ⟨fun u hu ↦ hplain u ?_, ?_⟩
      · exact (List.take_sublist _ _).flatten.subset hu
      · rw [usesEach_drop]
        exact forall_mem_storedUses (fun e he ↦ hown e (List.mem_of_mem_drop he))
          (hpacked rfl hpacks)

/-- Arguments that are packed have the type of an element of the array. A single one would be held
against the whole array, but is not packed. -/
theorem accepts_of_packs {implicitThis : Bool} {method : String} {args : List Expr}
    {sig : Signature} {elem : Ty}
    (h : Clean (s.ownCallProblems pos implicitThis method (s.arguments args) []))
    (hfind : s.table.method? method = some sig) (hpacks : sig.packs args.length = some elem) :
    ∀ e ∈ args.drop sig.fixedArity, (s.typeOf e).accepts elem = true := by
  obtain ⟨hcount, helem⟩ := Signature.packs_eq_some.mp hpacks
  obtain ⟨slot, hslot, rfl⟩ := Option.map_eq_some_iff.mp helem
  have hhas := Signature.hasVarargs_of_varargsElement helem
  have htrailing : Clean (trailingArgumentProblems sig slot
      (s.arguments (args.drop sig.fixedArity))) := by
    rw [ownCallProblems, hfind] at h
    have hargs := (Diagnostic.clean_append.mp h).2
    unfold argumentProblems at hargs
    split at hargs
    · rw [hslot] at hargs
      have hrest := (Diagnostic.clean_append.mp hargs).2
      rwa [arguments, ← List.map_drop] at hrest
    · exact absurd hargs Diagnostic.not_clean_error_cons
  -- One trailing argument makes as many arguments as parameters.
  have hsingle : (args.drop sig.fixedArity).length ≠ 1 := by
    have hparams : sig.params ≠ [] := by
      rintro hnil
      simp [Signature.varargsSlot, hnil] at hslot
    have hpos := List.length_pos_of_ne_nil hparams
    rw [List.length_drop, Signature.fixedArity, if_pos hhas]
    omega
  intro e he
  unfold trailingArgumentProblems at htrailing
  split at htrailing
  · rename_i arg heq
    have hlen := congrArg List.length heq
    rw [arguments, List.length_map] at hlen
    exact absurd hlen hsingle
  · have hmem : (⟨e.pos, s.typeOf e⟩ : Argument) ∈ s.arguments (args.drop sig.fixedArity) :=
      List.mem_map_of_mem he
    obtain ⟨i, hi⟩ := List.mem_iff_getElem?.mp hmem
    have hnumbered : ((⟨e.pos, s.typeOf e⟩ : Argument), i) ∈
        (s.arguments (args.drop sig.fixedArity)).zipIdx := List.mem_zipIdx_iff_getElem?.mpr hi
    exact Diagnostic.clean_require.mp (Diagnostic.clean_flatMap.mp htrailing _ hnumbered)

/-! ## The uses of accepted trees -/

section

variable (hknown : s.TypesKnown) (himport : s.table.isImported s.table.className = false)
  (hclass : s.table.className ≠ opaqueClass)
include hknown himport hclass

/-- A use of something accepted gets what it asks for unless it is one of those that go wrong. -/
theorem fits_eq_not_mistyped {u : Use} (h : s.AcceptsUse u) : s.fits u = !s.mistyped u := by
  unfold fits mistyped
  cases hany : (s.typeOf u.expr).isAny with
  | false =>
    rw [operandTy_of_known himport _ hany, h.known hany]
    rfl
  | true =>
    -- A call is given the type that is wanted, and that is always right.
    rcases operandTy_of_unknown hknown himport hclass (some u.need.wanted) h.accepts h.typeNames
      hany with ⟨hcall, hty⟩ | ⟨hcall, hty⟩
    · simp [hty, hcall]
    · simp [hty, hcall]

theorem acceptsUse_of_mem_uses {e : Expr} : s.Accepts e → "<any>" ∉ e.typeNames →
    ∀ u ∈ s.uses e, s.AcceptsUse u := by
  induction e using Expr.memberInduct with
  | lit | this | var | newObject => exact fun _ _ u hu ↦ absurd hu List.not_mem_nil
  | not pos operand ih =>
    intro h hnames
    obtain ⟨hoperand, hty⟩ := accepts_not.mp h
    refine List.forall_mem_append.mpr ⟨ih hoperand hnames, List.forall_mem_singleton.mpr ?_⟩
    exact acceptsUse_exactly hoperand hnames hty
  | binary pos op lhs rhs ihl ihr =>
    intro h hnames
    obtain ⟨hl, hr, htl, htr⟩ := accepts_binary.mp h
    rw [Expr.typeNames, List.mem_append, not_or] at hnames
    have hleft := ihl hl hnames.1
    have hright := ihr hr hnames.2
    have hluse := acceptsUse_exactly hl hnames.1 htl
    have hruse := acceptsUse_exactly hr hnames.2 htr
    have hrcopy := acceptsUse_matching hr hnames.2 htr
    rw [uses, operatorUses]
    cases op with
    | and | or =>
      refine List.forall_mem_append.mpr ⟨hleft, List.forall_mem_cons.mpr ⟨hluse, ?_⟩⟩
      exact List.forall_mem_append.mpr ⟨hright, List.forall_mem_singleton.mpr hrcopy⟩
    | _ =>
      refine List.forall_mem_append.mpr ⟨List.forall_mem_append.mpr ⟨hleft, hright⟩, ?_⟩
      exact List.forall_mem_cons.mpr ⟨hluse, List.forall_mem_singleton.mpr hruse⟩
  | index pos base idx ihb ihi =>
    intro h hnames
    obtain ⟨hb, hi, hint, harray⟩ := accepts_index.mp h
    rw [Expr.typeNames, List.mem_append, not_or] at hnames
    refine List.forall_mem_append.mpr
      ⟨List.forall_mem_append.mpr ⟨ihb hb hnames.1, ihi hi hnames.2⟩, ?_⟩
    exact List.forall_mem_cons.mpr ⟨acceptsUse_anArray hb hnames.1 harray,
      List.forall_mem_singleton.mpr (acceptsUse_exactly hi hnames.2 hint)⟩
  | array pos elements ih =>
    intro h hnames
    rw [Expr.typeNames, Expr.not_mem_typeNamesAll] at hnames
    exact forall_mem_storedUses
      (fun e he ↦ ih e he ((accepts_array.mp h).1 e he) (hnames e he))
      (fun e he ↦ acceptsUse_element h he (hnames e he))
  | newArray pos elem size ih =>
    intro h hnames
    obtain ⟨hsize, hint⟩ := accepts_newArray.mp h
    rw [Expr.typeNames, List.mem_cons, not_or] at hnames
    exact List.forall_mem_append.mpr ⟨ih hsize hnames.2,
      List.forall_mem_singleton.mpr (acceptsUse_exactly hsize hnames.2 hint)⟩
  | length pos base ih =>
    intro h hnames
    obtain ⟨hbase, harray⟩ := accepts_length.mp h
    exact List.forall_mem_append.mpr ⟨ih hbase hnames,
      List.forall_mem_singleton.mpr (acceptsUse_anArray hbase hnames harray)⟩
  | call pos method args ih =>
    intro h hnames
    obtain ⟨hargs, hclean⟩ := accepts_call.mp h
    rw [Expr.typeNames, Expr.not_mem_typeNamesAll] at hnames
    refine forall_mem_argumentUses (fun e he ↦ ih e he (hargs e he) (hnames e he)) ?_
    intro sig elem hfind hpacks e he
    have hmem := List.mem_of_mem_drop he
    exact acceptsUse_matching (hargs e hmem) (hnames e hmem)
      (accepts_of_packs hclean hfind hpacks e he)
  | callOn pos receiver method args ihr iha =>
    intro h hnames
    obtain ⟨hreceiver, hargs, -, hclean⟩ := accepts_callOn.mp h
    rw [Expr.typeNames, List.mem_append, not_or, Expr.not_mem_typeNamesAll] at hnames
    refine List.forall_mem_append.mpr ⟨ihr hreceiver hnames.1, ?_⟩
    refine forall_mem_argumentUses (fun e he ↦ iha e he (hargs e he) (hnames.2 e he)) ?_
    intro sig elem hcallee hpacks e he
    -- Lowering packs arguments only of calls that checking has held against the signature.
    have hown : s.table.responder (s.typeOf receiver) = .own := by
      refine (lowersToOwn_iff hknown himport hclass h fun hunknown ↦ ?_).mp ?_
      · exact (receiverTy_of_unknown hknown himport hclass hreceiver hnames.1 hunknown).imp
          And.right And.right
      · by_contra hforeign
        simp [loweredCallee, hforeign] at hcallee
    have hmem := List.mem_of_mem_drop he
    exact acceptsUse_matching (hargs e hmem) (hnames.2 e hmem)
      (accepts_of_packs (hclean hown) (method?_of_loweredCallee hcallee) hpacks e he)

theorem acceptsUse_of_mem_conditionUses {cond : Expr} (h : s.Accepts cond)
    (hty : (s.typeOf cond).accepts .boolean = true) (hnames : "<any>" ∉ cond.typeNames) :
    ∀ u ∈ s.conditionUses cond, s.AcceptsUse u :=
  List.forall_mem_append.mpr ⟨acceptsUse_of_mem_uses hknown himport hclass h hnames,
    List.forall_mem_singleton.mpr (acceptsUse_exactly h hnames hty)⟩

theorem acceptsUse_of_mem_stmtUses (hreturn : s.method.returnType.isAny = false) {stmt : Stmt} :
    s.AcceptsStmt stmt → "<any>" ∉ stmt.typeNames → ∀ u ∈ s.stmtUses stmt, s.AcceptsUse u := by
  have huses : ∀ {e}, s.Accepts e → "<any>" ∉ e.typeNames → ∀ u ∈ s.uses e, s.AcceptsUse u :=
    acceptsUse_of_mem_uses hknown himport hclass
  induction stmt using Stmt.memberInduct with
  | block pos stmts ih =>
    intro h hnames u hu
    rw [Stmt.typeNames, Stmt.not_mem_typeNamesAll] at hnames
    rw [stmtUses, stmtsUses_eq_flatMap] at hu
    obtain ⟨stmt, hstmt, hu⟩ := List.mem_flatMap.mp hu
    exact ih stmt hstmt (acceptsStmt_block.mp h stmt hstmt) (hnames stmt hstmt) u hu
  | ifElse pos cond thenBranch elseBranch ihThen ihElse =>
    intro h hnames
    obtain ⟨hcond, hty, hthen, helse⟩ := acceptsStmt_ifElse.mp h
    simp only [Stmt.typeNames, List.mem_append, not_or] at hnames
    obtain ⟨⟨hc, ht⟩, he⟩ := hnames
    refine List.forall_mem_append.mpr
      ⟨acceptsUse_of_mem_conditionUses hknown himport hclass hcond hty hc, ?_⟩
    exact List.forall_mem_append.mpr ⟨ihElse helse he, ihThen hthen ht⟩
  | whileLoop pos cond body ihBody =>
    intro h hnames
    obtain ⟨hcond, hty, hbody⟩ := acceptsStmt_whileLoop.mp h
    rw [Stmt.typeNames, List.mem_append, not_or] at hnames
    exact List.forall_mem_append.mpr
      ⟨acceptsUse_of_mem_conditionUses hknown himport hclass hcond hty hnames.1,
        ihBody hbody hnames.2⟩
  | eval pos expr => exact fun h hnames ↦ huses (acceptsStmt_eval.mp h) hnames
  | assign pos target value =>
    intro h hnames
    obtain ⟨hvalue, htarget, hassign⟩ := acceptsStmt_assign.mp h
    obtain ⟨storage, symbol, hlookup, hty⟩ := lookup_of_clean_targetProblems htarget
    rw [hty] at hassign
    rw [stmtUses, storageTy_of_lookup hlookup]
    exact List.forall_mem_append.mpr ⟨huses hvalue hnames, List.forall_mem_singleton.mpr
      (acceptsUse_assigned hvalue hnames (hknown.stored hlookup) hassign)⟩
  | store pos target index value =>
    intro h hnames
    obtain ⟨htarget, hindex, hvalue, hint, harray⟩ := acceptsStmt_store.mp h
    obtain ⟨storage, symbol, hlookup, hty⟩ := lookup_of_clean_targetProblems htarget
    have hsymbol := hknown.stored hlookup
    -- Checking lets any target of unknown type pass, but no variable has such a type.
    have hassign : Ty.assignable s.table.env symbol.ty.element (s.typeOf value) = true := by
      rw [hty, hsymbol] at harray
      simpa using (harray.resolve_left Bool.false_ne_true).2
    rw [Stmt.typeNames, List.mem_append, not_or] at hnames
    rw [stmtUses, storageTy_of_lookup hlookup]
    refine List.forall_mem_append.mpr ⟨List.forall_mem_append.mpr
      ⟨huses hindex hnames.1, huses hvalue hnames.2⟩, List.forall_mem_cons.mpr ⟨?_, ?_⟩⟩
    · exact acceptsUse_exactly hindex hnames.1 hint
    · exact List.forall_mem_singleton.mpr
        (acceptsUse_assigned hvalue hnames.2 hsymbol hassign)
  | ret pos value =>
    intro h hnames
    cases value with
    | none => exact fun u hu ↦ absurd hu List.not_mem_nil
    | some value =>
      obtain ⟨hvalue, -, hassign⟩ := acceptsStmt_ret_some.mp h
      exact List.forall_mem_append.mpr ⟨huses hvalue hnames,
        List.forall_mem_singleton.mpr (acceptsUse_assigned hvalue hnames hreturn hassign)⟩

end

end Scope

/-! ## Units -/

namespace Program

variable {p : Program}

/-- Some value in the unit is used in a way that does not go with the type it is given. -/
def HasMistyped (p : Program) : Prop :=
  ∃ m ∈ p.decl.methods, ∃ u ∈ Scope.stmtsUses ⟨p.table, m.signature⟩ m.body,
    Scope.mistyped ⟨p.table, m.signature⟩ u = true

instance (p : Program) : Decidable p.HasMistyped :=
  inferInstanceAs (Decidable (∃ m ∈ p.decl.methods,
    ∃ u ∈ Scope.stmtsUses ⟨p.table, m.signature⟩ m.body,
      Scope.mistyped ⟨p.table, m.signature⟩ u = true))

theorem Accepted.usesFit_iff (haccepted : p.Accepted) (hany : "<any>" ∉ p.typeNames)
    (hdots : p.DotFree) (hobject : p.decl.name ≠ "Object") :
    p.usesFit = true ↔ ¬p.HasMistyped := by
  have hfits : ∀ m ∈ p.decl.methods, ∀ u ∈ Scope.stmtsUses ⟨p.table, m.signature⟩ m.body,
      Scope.fits ⟨p.table, m.signature⟩ u = !Scope.mistyped ⟨p.table, m.signature⟩ u := by
    intro m hm u hu
    have hknown := typesKnown hany hm
    have himport := haccepted.className_not_imported hdots
    rw [Scope.stmtsUses_eq_flatMap] at hu
    obtain ⟨stmt, hstmt, hu⟩ := List.mem_flatMap.mp hu
    have haccepts := haccepted.acceptsStmt hm hstmt
    have hnames := not_mem_typeNames_body hany hm stmt hstmt
    exact Scope.fits_eq_not_mistyped hknown himport hobject
      (Scope.acceptsUse_of_mem_stmtUses hknown himport hobject (isAny_returnType hany hm) haccepts
        hnames u hu)
  simp only [usesFit, List.all_eq_true, HasMistyped, not_exists, not_and, Bool.not_eq_true]
  constructor
  · intro h m hm u hu
    have hfit := h m hm u hu
    rwa [hfits m hm u hu, Bool.not_eq_true'] at hfit
  · intro h m hm u hu
    rw [hfits m hm u hu, h m hm u hu]
    rfl

/-- The code of an accepted unit is well typed just when every use of a value goes with the type
that lowering gives it. Where names are in order, what goes wrong is that an element or a literal
of unknown type is not made of integers, or that an array is an element. -/
theorem Accepted.lower_wellTyped_iff (haccepted : p.Accepted) (hany : "<any>" ∉ p.typeNames)
    {code : ClassCode} (h : p.lower p.table .default = .ok code) :
    (code.wellTyped p.table.env = true ↔ p.usesFit = true) ∧
      (p.DotFree → p.decl.name ≠ "Object" →
        (code.wellTyped p.table.env = true ↔ ¬p.HasMistyped)) := by
  rw [wellTyped_of_lower h]
  exact ⟨Iff.rfl, haccepted.usesFit_iff hany⟩

/-- A unit that copies an element it was given by another class to a truth value. -/
def flagRead : Program where
  imports := [⟨["io"], .origin⟩]
  decl := {
    name := "Foo"
    superclass := none
    fields := []
    methods := [{
      name := "m"
      isPublic := true
      isStatic := false
      returnType := .void
      params := []
      varargs := none
      locals := [⟨.boolean, "b", .origin⟩]
      body := [
        .assign .origin "b" (.index .origin
          (.callOn .origin (.var .origin "io") "flags" []) (.lit .origin (.int 0)))]
      pos := .origin }]
    pos := .origin }

/-- The element is taken for an integer, though checking has nothing against the assignment. -/
theorem flagRead_not_wellTyped :
    flagRead.Accepted ∧ "<any>" ∉ flagRead.typeNames ∧ flagRead.DotFree ∧
      flagRead.decl.name ≠ "Object" ∧ flagRead.HasMistyped ∧
      ∃ code, flagRead.lower flagRead.table .default = .ok code ∧
        code.wellTyped flagRead.table.env = false := by
  have haccepted : flagRead.Accepted := accepted_iff.mpr (by decide)
  have hany : "<any>" ∉ flagRead.typeNames := by decide
  have hdots : flagRead.DotFree := by decide
  have hobject : flagRead.decl.name ≠ "Object" := by decide
  have hmistyped : flagRead.HasMistyped := by decide
  obtain ⟨code, hlower⟩ : ∃ code, flagRead.lower flagRead.table .default = .ok code := ⟨_, rfl⟩
  obtain ⟨-, hiff⟩ := haccepted.lower_wellTyped_iff hany hlower
  refine ⟨haccepted, hany, hdots, hobject, hmistyped, code, hlower, Bool.eq_false_iff.mpr ?_⟩
  exact fun hwell ↦ (hiff hdots hobject).mp hwell hmistyped

end Program

end Tricode
