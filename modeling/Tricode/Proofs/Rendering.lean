import Tricode.Proofs.Footprint
import Tricode.Proofs.Temporaries

/-!
# What the text of code gives away

Whoever reads code as text has to tell from the text of an operand what it stands for. Variables,
literals, temporaries and classes share one space of names there, and no pass keeps them apart.
This file says which operands of a method are shown alike.

Within a method a name has one type, and so has the number of a temporary, so an operand is known
from its name. An identifier does not look like a literal. But it may look like a temporary:
nothing keeps a variable from being called `tmp0`. That is the only way in which two operands are
shown alike, and in a unit without such identifiers the text gives away everything.
-/

namespace Tricode

/-! ## Terms -/

/-- What is shown of an operand. -/
inductive Term where
  /-- An operand with the tag of its type. -/
  | tagged (o : Operand)
  /-- The class of a static call or of an allocation, which is shown without a tag. -/
  | bare (className : String)
  deriving DecidableEq, Repr

namespace Term

def text : Term → String
  | tagged o => o.text
  | bare className => className

/-- A temporary and a variable that is called like it, and is of a type with the same tag. -/
def Clashes : Term → Term → Prop
  | tagged (.temp id ty), tagged (.var name ty') => name = tempName id ∧ ty'.suffix = ty.suffix
  | _, _ => False

theorem Clashes.text_eq {t u : Term} (h : t.Clashes u) : t.text = u.text := by
  rcases t with (⟨_, _⟩ | ⟨_, _⟩ | ⟨id, ty⟩) | _ <;>
    rcases u with (⟨_, _⟩ | ⟨name, ty'⟩ | ⟨_, _⟩) | _ <;> try exact h.elim
  obtain ⟨rfl, htag⟩ := h
  show suffixed (tempName id) ty = suffixed (tempName id) ty'
  rw [suffixed, suffixed, htag]

theorem dot_mem_text (o : Operand) : '.' ∈ (tagged o).text.toList := by
  simp [text, Operand.text, suffixed]

end Term

/-- The term that shows a reference. Fields and returns are shown by none. -/
def Reference.term? : Reference → Option Term
  | .value o | .slot o => some (.tagged o)
  | .owner o => some (.bare o.name)
  | _ => none

/-- The operands and places of the code as they are shown. -/
def Code.terms (code : Code) : List Term := code.references.filterMap Reference.term?

/-! ## Terms of a method -/

namespace Scope

variable {s : Scope} {names : List String}

/-- The type of what the name stands for. -/
def nameTy? (s : Scope) (name : String) : Option Ty :=
  if name = "this" then some (.named s.table.className)
  else match s.lookup name with
    | .stored _ symbol => some symbol.ty
    | .imported => some (.named name)
    | .unbound => none

/-- The term is one that a method shows whose unit has the identifiers `names`. -/
def Shows (s : Scope) (names : List String) : Term → Prop
  | .tagged (.var name ty) => s.nameTy? name = some ty ∧ (name = "this" ∨ name ∈ names)
  | .tagged (.literal lit ty) => ty = lit.ty
  | .tagged (.temp _ _) => True
  | .bare className => className ∈ names

section

variable (hnames : ∀ name ∈ names, isIdentifier name = true)
include hnames

theorem Shows.dot_notMem_name {o : Operand} (h : s.Shows names (.tagged o)) :
    '.' ∉ o.name.toList := by
  cases o with
  | literal lit ty => exact dot_notMem_codeText lit
  | temp id ty => exact dot_notMem_tempName id
  | var name ty =>
    rcases h.2 with rfl | hmem
    · exact show '.' ∉ "this".toList by decide
    · exact dot_notMem_of_isIdentifier (hnames name hmem)

theorem Shows.name_ne_codeText {name : String} {ty : Ty}
    (h : s.Shows names (.tagged (.var name ty))) (lit : Literal) : lit.codeText ≠ name := by
  rcases h.2 with rfl | hmem
  · exact codeText_ne_this lit
  · exact codeText_ne_of_isIdentifier (hnames name hmem) lit

/-- Operands of one method with the same name and the same tag are the same, but for a variable
called like a temporary. -/
theorem Shows.eq_or_clashes {o o' : Operand} (h : s.Shows names (.tagged o))
    (h' : s.Shows names (.tagged o')) (hname : o.name = o'.name) (htag : o.ty.suffix = o'.ty.suffix)
    (htemps : ∀ {id ty ty'}, o = .temp id ty → o' = .temp id ty' → ty = ty') :
    o = o' ∨ (Term.tagged o).Clashes (.tagged o') ∨ (Term.tagged o').Clashes (.tagged o) := by
  cases o with
  | literal lit ty =>
    cases o' with
    | literal lit' ty' =>
      obtain rfl : ty = lit.ty := h
      obtain rfl : ty' = lit'.ty := h'
      rw [Literal.eq_of_codeText_eq htag hname]
      exact .inl rfl
    | var name ty' => exact absurd hname (h'.name_ne_codeText hnames lit)
    | temp id ty' => exact absurd hname (codeText_ne_tempName id lit)
  | var name ty =>
    cases o' with
    | literal lit' ty' => exact absurd hname.symm (h.name_ne_codeText hnames lit')
    | var name' ty' =>
      -- In a scope a name stands for one thing, so it has one type.
      obtain rfl : name = name' := hname
      rw [Option.some.inj (h.1.symm.trans h'.1)]
      exact .inl rfl
    | temp id ty' => exact .inr (.inr ⟨hname, htag⟩)
  | temp id ty =>
    cases o' with
    | literal lit' ty' => exact absurd hname.symm (codeText_ne_tempName id lit')
    | var name' ty' => exact .inr (.inl ⟨hname.symm, htag.symm⟩)
    | temp id' ty' =>
      obtain rfl := tempName_injective hname
      rw [htemps rfl rfl]
      exact .inl rfl

omit hnames in
theorem Shows.not_clashes {t u : Term} (hfree : ∀ id, tempName id ∉ names) (h : s.Shows names u) :
    ¬t.Clashes u := by
  rcases t with (_ | _ | ⟨id, ty⟩) | _ <;> rcases u with (_ | ⟨name, ty'⟩ | _) | _ <;>
    try exact not_false
  rintro ⟨rfl, -⟩
  rcases h.2 with hthis | hmem
  · exact tempName_ne_this id hthis
  · exact hfree id hmem

/-- Terms of one method that are shown alike are the same, but for a variable called like a
temporary. -/
theorem Shows.text_eq_iff {t u : Term} (ht : s.Shows names t) (hu : s.Shows names u)
    (htemps : ∀ {id ty ty'}, t = .tagged (.temp id ty) → u = .tagged (.temp id ty') → ty = ty') :
    t.text = u.text ↔ t = u ∨ t.Clashes u ∨ u.Clashes t := by
  -- A tag starts with a dot, and a name without a tag has none.
  have hbare : ∀ {o : Operand} {className : String}, className ∈ names →
      (Term.tagged o).text ≠ (Term.bare className).text := by
    intro o className hmem heq
    have hdot := Term.dot_mem_text o
    rw [heq] at hdot
    exact dot_notMem_of_isIdentifier (hnames className hmem) hdot
  constructor
  · intro heq
    cases t with
    | tagged o =>
      cases u with
      | tagged o' =>
        obtain ⟨hname, htag⟩ :=
          (suffixed_inj (ht.dot_notMem_name hnames) (hu.dot_notMem_name hnames)).mp heq
        rw [Term.tagged.injEq]
        exact ht.eq_or_clashes hnames hu hname htag fun h h' ↦
          htemps (congrArg Term.tagged h) (congrArg Term.tagged h')
      | bare className => exact absurd heq (hbare hu)
    | bare className =>
      cases u with
      | tagged o' => exact absurd heq.symm (hbare ht)
      | bare className' => exact .inl (congrArg Term.bare heq)
  · rintro (rfl | hclash | hclash)
    · rfl
    · exact hclash.text_eq
    · exact hclash.text_eq.symm

end

section

variable {name : String} {r : Reference} {t : Term}

theorem shows_of_isInternal (h : r.isInternal = true) (ht : r.term? = some t) :
    s.Shows names t := by
  rcases r with (_ | _ | _) | (_ | _ | _) | _ | _ | _ | _ <;> cases ht <;> try cases h
  · exact beq_iff_eq.mp h
  · trivial
  · trivial

theorem shows_this : s.Shows names (.tagged s.thisOperand) := ⟨if_pos rfl, .inl rfl⟩

variable (hthis : "this" ∉ names)
include hthis

theorem shows_stored {storage : Storage} {symbol : Symbol} (hname : name ∈ names)
    (hlookup : s.lookup name = .stored storage symbol) :
    s.Shows names (.tagged (.var name symbol.ty)) :=
  ⟨by rw [nameTy?, if_neg (ne_of_mem_of_not_mem hname hthis), hlookup], .inr hname⟩

theorem shows_imported (hname : name ∈ names) (hlookup : s.lookup name = .imported) :
    s.Shows names (.tagged (.ofClass name)) :=
  ⟨by rw [nameTy?, if_neg (ne_of_mem_of_not_mem hname hthis), hlookup], .inr hname⟩

theorem shows_of_readReference? (hname : name ∈ names) (h : s.readReference? name = some r)
    (ht : r.term? = some t) : s.Shows names t := by
  unfold readReference? at h
  split at h <;> cases h <;> cases ht
  · next hlookup => exact shows_stored hthis hname hlookup
  · next hlookup => exact shows_imported hthis hname hlookup

/-- What a mention leaves in the code is shown under a name of the unit, or is the object the
method runs on. -/
theorem shows_of_reference? {u : Mention} (hclass : s.table.className ∈ names)
    (hu : u.identifiers ⊆ names) (h : s.reference? u = some r) (ht : r.term? = some t) :
    s.Shows names t := by
  cases u with
  | this =>
    cases h
    cases ht
    exact shows_this
  | value name => exact shows_of_readReference? hthis (hu (List.mem_singleton_self name)) h ht
  | receiver name =>
    have hname := hu (List.mem_singleton_self name)
    rw [reference?] at h
    split at h
    · cases h
      cases ht
      exact hname
    · exact shows_of_readReference? hthis hname h ht
  | dropped name =>
    rw [reference?] at h
    split at h <;> cases h
    cases ht
  | target name =>
    rw [reference?] at h
    split at h <;> cases h <;> cases ht
    next hlookup => exact shows_stored hthis (hu (List.mem_singleton_self name)) hlookup
  | object className =>
    cases h
    cases ht
    exact hu (List.mem_singleton_self className)
  | own method =>
    -- A static call shows the class, any other one the object.
    obtain rfl := Option.some.inj h
    unfold ownDispatch at ht
    split at ht <;> split at ht <;> cases ht
    · exact hclass
    · exact shows_this
    · exact shows_this
    · exact hclass
  | ret hasValue =>
    cases h
    cases ht
  | elements | other => cases h

end

end Scope

/-! ## Temporaries -/

theorem Instruction.written?_of_slot {i : Instruction} {id : Nat} {ty : Ty}
    (h : .slot (.temp id ty) ∈ i.references) : i.written? = some (id, ty) := by
  have hcall : ∀ c : Call, .slot (.temp id ty) ∉ c.references := by
    rintro ⟨kind, receiver, method, args, ret⟩
    cases kind <;> simp [Call.references, CallKind.reference]
  cases i with
  | assign dest ty' value =>
    rcases List.mem_append.mp h with hdest | hvalue
    · cases dest <;> simp_all [Place.references, written?]
    · cases value with
      | call c => exact absurd hvalue (hcall c)
      | _ => simp [Rvalue.references] at hvalue
  | call c => exact absurd h (hcall c)
  | branch cond target => cases cond <;> simp [references, Cond.references] at h
  | ret value ty' => cases value <;> simp [references] at h
  | putField | goto | label => simp [references] at h

theorem Code.mem_temps_of_mem_terms {code : Code} {id : Nat} {ty : Ty}
    (h : .tagged (.temp id ty) ∈ code.terms) : (id, ty) ∈ code.temps := by
  obtain ⟨r, hr, hterm⟩ := List.mem_filterMap.mp h
  obtain ⟨i, hi, hmem⟩ := List.mem_flatMap.mp hr
  refine List.mem_flatMap.mpr ⟨i, hi, List.mem_append.mpr ?_⟩
  cases r with
  | value o =>
    cases hterm
    exact .inr (Operand.mem_temps.mpr (Instruction.mem_operands.mpr (.inl hmem)))
  | slot o =>
    cases hterm
    exact .inl (by rw [Instruction.written?_of_slot hmem]; exact List.mem_singleton_self _)
  | owner | getField | putField | ret => cases hterm

/-! ## Units -/

namespace Program

variable {p : Program} {o : Options} {code : ClassCode} {i : Nat} {mc : MethodCode}

theorem identifiers_subset {m : MethodDecl} (hm : m ∈ (p.prepared o).decl.methods) {u : Mention}
    (hu : u ∈ Stmt.mentionsAll m.body) : u.identifiers ⊆ p.identifiers := by
  obtain ⟨source, hsource, -, hwithin⟩ := exists_within_of_prepared hm
  intro name hname
  have hmentioned := (Stmt.mentionsAll_sublist hwithin).subset hu
  refine List.mem_append_right _ (List.mem_flatMap.mpr ⟨source, hsource, ?_⟩)
  exact List.mem_append_right _ (List.mem_flatMap.mpr ⟨u, hmentioned, hname⟩)

theorem className_mem_identifiers (p : Program) : p.table.className ∈ p.identifiers := by
  show p.decl.name ∈ p.identifiers
  simp [identifiers]

theorem shows_of_lower (hthis : "this" ∉ p.identifiers) (hlower : p.lower p.table o = .ok code)
    {m : MethodDecl} (hm : (p.prepared o).decl.methods[i]? = some m)
    (hmc : code.methods[i]? = some mc) {t : Term} (ht : t ∈ mc.body.terms) :
    Scope.Shows ⟨p.table, m.signature⟩ p.identifiers t := by
  obtain ⟨r, hr, hterm⟩ := List.mem_filterMap.mp ht
  cases hinternal : r.isInternal with
  | true => exact Scope.shows_of_isInternal hinternal hterm
  | false =>
    have hret : r ≠ .ret false := by
      rintro rfl
      cases hterm
    obtain ⟨u, hu, hreference⟩ := (mem_references_iff hlower hm hmc hret hinternal).mp hr
    exact Scope.shows_of_reference? hthis p.className_mem_identifiers
      (identifiers_subset (List.mem_of_getElem? hm) hu) hreference hterm

theorem temp_ty_unique (hlower : p.lower p.table o = .ok code) (hmc : code.methods[i]? = some mc)
    {id : Nat} {ty ty' : Ty} (h : .tagged (.temp id ty) ∈ mc.body.terms)
    (h' : .tagged (.temp id ty') ∈ mc.body.terms) : ty = ty' := by
  obtain ⟨m, c, body, c', -, hbody, hy, -⟩ := exists_footprint_of_lower hlower hmc
  have hmem := Code.mem_temps_of_mem_terms h
  have hmem' := Code.mem_temps_of_mem_terms h'
  rw [hbody, Code.temps_closed] at hmem hmem'
  have heq := (Scope.assembled_lowerStmts hy).drawnTemps.1.unique _ hmem _ hmem' rfl
  exact congrArg Prod.snd heq

/-- What a method shows tells what it stands for, but for a temporary and a variable called like
it. -/
theorem shown_alike_iff (hnames : ∀ name ∈ p.identifiers, isIdentifier name = true)
    (hlower : p.lower p.table o = .ok code) (hmc : mc ∈ code.methods) {t u : Term}
    (ht : t ∈ mc.body.terms) (hu : u ∈ mc.body.terms) :
    (t.text = u.text ↔ t = u ∨ t.Clashes u ∨ u.Clashes t) ∧
      ((∀ id, tempName id ∉ p.identifiers) → t.text = u.text → t = u) := by
  obtain ⟨i, hi⟩ := List.getElem?_of_mem hmc
  obtain ⟨m, c, body, c', hm, -⟩ := exists_footprint_of_lower hlower hi
  have hthis : "this" ∉ p.identifiers := fun hmem ↦ absurd (hnames _ hmem) (by decide)
  have hshows := shows_of_lower hthis hlower hm hi ht
  have hshows' := shows_of_lower hthis hlower hm hi hu
  have hiff := hshows.text_eq_iff hnames hshows' (by
    rintro id ty ty' rfl rfl
    exact temp_ty_unique hlower hi ht hu)
  refine ⟨hiff, fun hfree heq ↦ ?_⟩
  rcases hiff.mp heq with rfl | hclash | hclash
  · rfl
  · exact absurd hclash (hshows'.not_clashes hfree)
  · exact absurd hclash (hshows.not_clashes hfree)

/-- A unit whose parameter is called like the first temporary. -/
def counter : Program where
  imports := []
  decl := {
    name := "Counter"
    superclass := none
    fields := []
    methods := [{
      name := "next"
      isPublic := true
      isStatic := false
      returnType := .int
      params := [⟨.int, "tmp0", .origin⟩]
      varargs := none
      locals := [⟨.int, "step", .origin⟩]
      body := [
        .assign .origin "step"
          (.binary .origin .add (.lit .origin (.int 1)) (.lit .origin (.int 2))),
        .ret .origin (some (.var .origin "tmp0"))]
      pos := .origin }]
    pos := .origin }

/-- The sum is held in the temporary, and the parameter is returned: both are `tmp0.i32`. -/
theorem counter_shown_alike : counter.Accepted ∧
    (∀ name ∈ counter.identifiers, isIdentifier name = true) ∧
    ∃ code mc t u, counter.lower counter.table .default = .ok code ∧ mc ∈ code.methods ∧
      t ∈ mc.body.terms ∧ u ∈ mc.body.terms ∧ t.text = u.text ∧ t ≠ u := by
  have haccepted : counter.Accepted := accepted_iff.mpr (by decide)
  have hnames : ∀ name ∈ counter.identifiers, isIdentifier name = true := by decide
  obtain ⟨code, mc, hlower, hmc, ht, hu⟩ : ∃ code mc,
      counter.lower counter.table .default = .ok code ∧ mc ∈ code.methods ∧
        .tagged (.temp 0 .int) ∈ mc.body.terms ∧ .tagged (.var "tmp0" .int) ∈ mc.body.terms :=
    ⟨_, _, rfl, List.mem_cons_self, by decide, by decide⟩
  have hclash : (Term.tagged (.temp 0 .int)).Clashes (.tagged (.var "tmp0" .int)) := ⟨rfl, rfl⟩
  obtain ⟨hiff, -⟩ := shown_alike_iff hnames hlower hmc ht hu
  exact ⟨haccepted, hnames, code, mc, _, _, hlower, hmc, ht, hu, hiff.mpr (.inr (.inl hclash)),
    by decide⟩

end Program

end Tricode
