import Mathlib.Data.List.TakeWhile
import Tricode.Proofs.Acceptance

/-!
# Names in scope

What a name stands for inside a method, taken apart, and what is true of every scope of an
accepted program under the conditions that later results put on names: that no type is called
like the unknown type, and that no import hides the class of the unit.
-/

namespace Tricode

namespace Scope

variable {s : Scope} {name : String}

/-! ## Looking up -/

theorem lookup_stored {storage : Storage} {symbol : Symbol}
    (h : s.lookup name = .stored storage symbol) :
    s.findVariable name = some (storage, symbol) := by
  unfold lookup at h
  split at h
  · rename_i hfind
    rw [Binding.stored.injEq] at h
    rw [hfind, h.1, h.2]
  · split at h <;> cases h

/-- A name that is stored, but in no field, is that of a local variable or a parameter. -/
theorem lookup_variable {storage : Storage} {symbol : Symbol}
    (h : s.lookup name = .stored storage symbol) (hstorage : storage ≠ .field) :
    s.method.localVar? name = some symbol ∨ s.method.param? name = some symbol := by
  have hfind := lookup_stored h
  simp only [findVariable, Option.or_eq_some_iff, Option.map_eq_some_iff, Prod.mk.injEq] at hfind
  rcases hfind with ⟨symbol', hlocal, -, rfl⟩ | ⟨-, ⟨symbol', hparam, -, rfl⟩ |
    ⟨-, symbol', -, hfield, -⟩⟩
  · exact .inl hlocal
  · exact .inr hparam
  · exact absurd hfield.symm hstorage

theorem lookup_localVar {symbol : Symbol} :
    s.lookup name = .stored .localVar symbol ↔ s.method.localVar? name = some symbol := by
  constructor
  · intro h
    have hfind := lookup_stored h
    simp only [findVariable, Option.or_eq_some_iff, Option.map_eq_some_iff, Prod.mk.injEq] at hfind
    rcases hfind with ⟨symbol', hlocal, -, rfl⟩ | ⟨-, ⟨_, -, hparam, -⟩ | ⟨-, _, -, hfield, -⟩⟩
    · exact hlocal
    · cases hparam
    · cases hfield
  · intro h
    rw [lookup, findVariable, h, Option.map_some, Option.some_or]

theorem lookup_field {symbol : Symbol} (h : s.lookup name = .stored .field symbol) :
    s.table.field? name = some symbol := by
  have hfind := lookup_stored h
  simp only [findVariable, Option.or_eq_some_iff, Option.map_eq_some_iff, Prod.mk.injEq] at hfind
  rcases hfind with ⟨_, -, hlocal, -⟩ | ⟨-, ⟨_, -, hparam, -⟩ | ⟨-, symbol', hfield, -, rfl⟩⟩
  · cases hlocal
  · cases hparam
  · exact hfield

theorem lookup_imported (h : s.lookup name = .imported) :
    s.method.localVar? name = none ∧ s.method.param? name = none ∧
      s.table.isImported name = true := by
  unfold lookup at h
  split at h
  · cases h
  · rename_i hfind
    split at h
    · rename_i himported
      simp only [findVariable, Option.or_eq_none_iff, Option.map_eq_none_iff] at hfind
      exact ⟨hfind.1, hfind.2.1, himported⟩
    · cases h

/-! ## Known types -/

/-- No variable the method can name has the unknown type. -/
def VariablesKnown (s : Scope) : Prop :=
  ∀ ⦃name storage symbol⦄, s.lookup name = .stored storage symbol → symbol.ty.isAny = false

/-- Nothing the method can name has the unknown type. -/
structure TypesKnown (s : Scope) : Prop where
  className : s.table.className ≠ "<any>"
  imported : s.table.isImported "<any>" = false
  stored : s.VariablesKnown
  returned : ∀ {method sig}, s.table.method? method = some sig → sig.returnType.isAny = false

end Scope

@[simp] theorem Ty.isAny_arrayOf (t : Ty) : t.arrayOf.isAny = t.isAny := rfl

@[simp] theorem Ty.isAny_element (t : Ty) : t.element.isAny = t.isAny := rfl

theorem Literal.isAny_ty (value : Literal) : value.ty.isAny = false := by
  cases value <;> rfl

theorem TypeExpr.isAny_resolve {t : TypeExpr} (h : t.typeName ≠ "<any>") :
    t.resolve.isAny = false :=
  beq_eq_false_iff_ne.mpr h

/-- A symbol of the method stands for one of its variables. -/
theorem MethodDecl.exists_variable {m : MethodDecl} {symbol : Symbol}
    (h : symbol ∈ m.signature.params ++ m.signature.locals) :
    ∃ d ∈ m.varDecls, symbol.name = d.name ∧ symbol.ty.name = d.typeName := by
  rcases List.mem_append.mp h with hparam | hlocal
  · rcases List.mem_append.mp hparam with hfixed | hvarargs
    · obtain ⟨d, hd, rfl⟩ := List.mem_map.mp hfixed
      exact ⟨d, List.mem_append_left _ (List.mem_append_left _ hd), rfl, rfl⟩
    · simp only [Option.mem_toList, Option.map_eq_some_iff] at hvarargs
      obtain ⟨d, hd, rfl⟩ := hvarargs
      have hmem : d ∈ m.varargs.toList := by simp [hd]
      exact ⟨d, List.mem_append_left _ (List.mem_append_right _ hmem), rfl, rfl⟩
  · obtain ⟨d, hd, rfl⟩ := List.mem_map.mp hlocal
    exact ⟨d, List.mem_append_right _ hd, rfl, rfl⟩

namespace Program

variable {p : Program} {m : MethodDecl}

/-- What a name finds stored was declared under that name. -/
theorem exists_varDecl (hm : m ∈ p.decl.methods) {name : String} {storage : Storage}
    {symbol : Symbol}
    (hlookup : Scope.lookup ⟨p.table, m.signature⟩ name = .stored storage symbol) :
    ∃ d ∈ p.varDecls, d.name = name ∧ d.typeName = symbol.ty.name := by
  have hnamed : ∀ {symbols : List Symbol} {symbol : Symbol},
      symbols.find? (fun s ↦ s.name == name) = some symbol → symbol.name = name :=
    fun h ↦ by simpa using List.find?_some h
  by_cases hstorage : storage = .field
  · subst hstorage
    have hfind := Scope.lookup_field hlookup
    obtain ⟨d, hd, rfl⟩ := List.mem_map.mp (List.mem_of_find?_eq_some hfind)
    exact ⟨d, List.mem_append_left _ hd, hnamed hfind, rfl⟩
  · obtain ⟨hmem, hname⟩ : symbol ∈ m.signature.params ++ m.signature.locals ∧
        symbol.name = name := by
      rcases Scope.lookup_variable hlookup hstorage with hfind | hfind
      · exact ⟨List.mem_append_right _ (List.mem_of_find?_eq_some hfind), hnamed hfind⟩
      · exact ⟨List.mem_append_left _ (List.mem_of_find?_eq_some hfind), hnamed hfind⟩
    obtain ⟨d, hd, hdname, hty⟩ := MethodDecl.exists_variable hmem
    exact ⟨d, List.mem_append_right _ (List.mem_flatMap.mpr ⟨m, hm, hd⟩), hdname.symm.trans hname,
      hty.symm⟩

theorem variablesKnown (h : ∀ d ∈ p.varDecls, d.typeName ≠ "<any>") (hm : m ∈ p.decl.methods) :
    Scope.VariablesKnown ⟨p.table, m.signature⟩ := by
  intro name storage symbol hlookup
  obtain ⟨d, hd, -, hty⟩ := exists_varDecl hm hlookup
  exact beq_eq_false_iff_ne.mpr (hty ▸ h d hd)

/-- The types of a method's own variables and of its result, and those in its body. -/
theorem not_mem_typeNames_method (h : "<any>" ∉ p.typeNames) (hm : m ∈ p.decl.methods) :
    "<any>" ∉ m.typeNames := by
  simp only [typeNames, List.mem_append, List.mem_flatMap, not_or, not_exists, not_and] at h
  exact h.2 m hm

theorem not_mem_typeNames_body (h : "<any>" ∉ p.typeNames) (hm : m ∈ p.decl.methods) :
    ∀ stmt ∈ m.body, "<any>" ∉ stmt.typeNames := by
  have hmethod := not_mem_typeNames_method h hm
  simp only [MethodDecl.typeNames, List.mem_append, not_or] at hmethod
  exact Stmt.not_mem_typeNamesAll.mp hmethod.2

theorem typeName_ne_of_not_mem (h : "<any>" ∉ p.typeNames) :
    ∀ d ∈ p.varDecls, d.typeName ≠ "<any>" := by
  intro d hd heq
  rcases List.mem_append.mp hd with hfield | hvar
  · refine h (List.mem_append_left _ (List.mem_append_right _ ?_))
    exact List.mem_map.mpr ⟨d, hfield, heq⟩
  · obtain ⟨m, hm, hd⟩ := List.mem_flatMap.mp hvar
    refine not_mem_typeNames_method h hm (List.mem_append_left _ (List.mem_cons_of_mem _ ?_))
    exact List.mem_map.mpr ⟨d, hd, heq⟩

theorem isAny_returnType (h : "<any>" ∉ p.typeNames) (hm : m ∈ p.decl.methods) :
    m.signature.returnType.isAny = false := by
  have hnames := not_mem_typeNames_method h hm
  simp only [MethodDecl.typeNames, List.mem_append, List.mem_cons, not_or] at hnames
  exact TypeExpr.isAny_resolve fun heq ↦ hnames.1.1 heq.symm

theorem typesKnown (h : "<any>" ∉ p.typeNames) (hm : m ∈ p.decl.methods) :
    Scope.TypesKnown ⟨p.table, m.signature⟩ := by
  have hstored := variablesKnown (typeName_ne_of_not_mem h) hm
  have hreturned : ∀ {method sig}, p.table.method? method = some sig →
      sig.returnType.isAny = false := by
    intro method sig hfind
    obtain ⟨m', hm', rfl⟩ := List.mem_map.mp (List.mem_of_find?_eq_some hfind)
    exact isAny_returnType h hm'
  simp only [typeNames, List.mem_append, List.mem_cons, List.mem_map, List.mem_flatMap, not_or,
    not_exists, not_and] at h
  obtain ⟨⟨⟨⟨hname, -⟩, himports⟩, -⟩, -⟩ := h
  refine ⟨fun heq ↦ hname heq.symm, ?_, hstored, hreturned⟩
  simpa [Table.isImported] using himports

end Program

/-! ## Imports -/

theorem lastSegment_of_dotFree {path : String} (h : '.' ∉ path.toList) :
    lastSegment path = path := by
  have hall : ∀ c ∈ path.toList.reverse, (c != '.') = true := by
    intro c hc
    rw [bne_iff_ne]
    rintro rfl
    exact h (List.mem_reverse.mp hc)
  rw [lastSegment, List.takeWhile_eq_self_iff.mpr hall, List.reverse_reverse,
    String.ofList_toList]

theorem lastSegment_append_dot (s t : String) : lastSegment (s ++ "." ++ t) = lastSegment t := by
  have hdot : (".".toList.reverse ++ s.toList.reverse).takeWhile (fun c ↦ c != '.') = [] := rfl
  rw [lastSegment, lastSegment, String.toList_append, String.toList_append, List.reverse_append,
    List.reverse_append, List.takeWhile_append, hdot, List.append_nil]
  split
  · rename_i hlen
    rw [ List.takeWhile_prefix _ |>.eq_of_length hlen]
  · rfl

/-- Both ways of naming an import agree after the last dot, if its name has one. -/
theorem Import.lastSegment_qualified_eq (i : Import) :
    lastSegment i.qualified = lastSegment i.name := by
  obtain ⟨path, pos⟩ := i
  rw [Import.qualified, Import.name]
  induction path with
  | nil => rfl
  | cons segment path ih =>
    cases path with
    | nil =>
      rw [String.intercalate_singleton]
      rfl
    | cons next path =>
      rw [String.intercalate_cons_cons, lastSegment_append_dot, ih, List.getLast?_cons_cons]

theorem Import.lastSegment_qualified {i : Import} (h : ∀ segment ∈ i.path, '.' ∉ segment.toList) :
    lastSegment i.qualified = i.name := by
  rw [i.lastSegment_qualified_eq, Import.name]
  cases hlast : i.path.getLast? with
  | none => rfl
  | some segment => exact lastSegment_of_dotFree (h segment (List.mem_of_getLast? hlast))

namespace Program

variable {p : Program}

theorem importNames_eq (h : p.DotFree) : p.table.importNames = p.imports.map Import.name := by
  rw [Table.importNames, table, List.map_map]
  exact List.map_congr_left fun i hi ↦ Import.lastSegment_qualified (h i hi)

/-- The class of an accepted unit is not hidden by an import. -/
theorem Accepted.className_not_imported (h : p.Accepted) (hdots : p.DotFree) :
    p.table.isImported p.table.className = false := by
  have hname := h.name_not_mem_imports
  rw [← importNames_eq hdots] at hname
  simpa [Table.isImported, table] using hname

/-! ## Parameters that take any number of arguments -/

/-- A method that takes any number of arguments has a parameter for them. -/
theorem varargsElement_isSome {method : String} {sig : Signature}
    (h : p.table.method? method = some sig) (hvar : sig.hasVarargs = true) :
    ∃ elem, sig.varargsElement = some elem := by
  obtain ⟨m, -, rfl⟩ := List.mem_map.mp (List.mem_of_find?_eq_some h)
  obtain ⟨v, hv⟩ := Option.isSome_iff_exists.mp hvar
  refine ⟨v.ty.resolve.element, ?_⟩
  simp [Signature.varargsElement, Signature.varargsSlot, MethodDecl.signature, hv]

end Program

end Tricode
