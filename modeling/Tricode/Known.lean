import Tricode.Syntax

/-!
# Known values

What is known of the local variables at one point of a method: for some of them, the literal they
hold. Only `Known.get?` is meant to be looked at, and each operation is described by what it does
to it.
-/

namespace Tricode

/-- The variables whose value is known, each with its value. -/
structure Known where
  entries : List (String × Literal)

namespace Known

/-- Nothing is known. -/
def none : Known := ⟨[]⟩

/-- The value of a variable, if it is known. -/
def get? (k : Known) (name : String) : Option Literal := k.entries.lookup name

/-- Nothing is known any more of the given names. -/
def forget (k : Known) (names : List String) : Known :=
  ⟨k.entries.filter fun entry ↦ !names.contains entry.1⟩

/-- After `name` was given a value that is known or not. -/
def assign (k : Known) (name : String) (value : Option Literal) : Known :=
  ⟨(value.map (name, ·)).toList ++ (k.forget [name]).entries⟩

/-- What two paths agree on where they meet. -/
def meet (k l : Known) : Known :=
  ⟨k.entries.filter fun entry ↦ k.get? entry.1 == l.get? entry.1⟩

/-! ## What the operations do -/

@[simp] theorem get?_none (name : String) : none.get? name = .none := rfl

theorem lookup_filter_key (p : String → Bool) (entries : List (String × Literal))
    (name : String) :
    (entries.filter fun entry ↦ p entry.1).lookup name =
      if p name then entries.lookup name else .none := by
  induction entries with
  | nil => simp
  | cons entry entries ih =>
    obtain ⟨key, value⟩ := entry
    by_cases hk : name = key
    · subst hk
      cases hp : p name <;> simp [hp, ih]
    · have hkey : (name == key) = false := by simpa using hk
      cases hp : p key <;> simp [hp, ih, List.lookup_cons, hkey]

@[simp] theorem get?_forget (k : Known) (names : List String) (name : String) :
    (k.forget names).get? name = if name ∈ names then .none else k.get? name := by
  rw [get?, forget, lookup_filter_key fun key ↦ !names.contains key]
  by_cases h : name ∈ names <;> simp [h, get?]

@[simp] theorem get?_assign (k : Known) (name : String) (value : Option Literal)
    (other : String) :
    (k.assign name value).get? other = if other = name then value else k.get? other := by
  have hforget : (k.forget [name]).entries.lookup other =
      if other = name then .none else k.get? other := by
    simpa [get?] using get?_forget k [name] other
  cases value with
  | none => simpa [get?, assign] using hforget
  | some value =>
    by_cases h : other = name
    · simp [get?, assign, h]
    · have hname : (other == name) = false := by simpa using h
      simpa [get?, assign, List.lookup_cons, hname, h] using hforget

@[simp] theorem get?_meet (k l : Known) (name : String) :
    (k.meet l).get? name = if k.get? name = l.get? name then k.get? name else .none := by
  rw [get?, meet, lookup_filter_key fun key ↦ k.get? key == l.get? key]
  by_cases h : k.get? name = l.get? name
  · rw [if_pos (beq_iff_eq.mpr h), if_pos h, get?]
  · rw [if_neg (mt beq_iff_eq.mp h), if_neg h]

section

variable {k l : Known} {name : String} {value : Literal}

theorem get?_of_forget {names : List String} (h : (k.forget names).get? name = some value) :
    k.get? name = some value := by
  rw [get?_forget] at h
  split at h
  · cases h
  · exact h

theorem get?_of_meet (h : (k.meet l).get? name = some value) :
    k.get? name = some value ∧ l.get? name = some value := by
  rw [get?_meet] at h
  split at h
  · rename_i heq
    exact ⟨h, heq ▸ h⟩
  · cases h

end

end Known

end Tricode
