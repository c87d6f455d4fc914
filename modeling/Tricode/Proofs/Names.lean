import Mathlib.Data.List.Basic
import Tricode.Code.Text

/-!
# Names in the text of code

Code names its literals, temporaries and variables, and shows each as its name, a dot and the tag
of its type. A reader who has only the text takes the name to be what stands before the first dot.
This file says how much of an operand such a name gives away.

Literals and temporaries have names that lowering makes up, from digits alone or from digits behind
a fixed stem. The names of variables and classes come from the unit. An identifier has no dot and
does not start like a number, so it is told apart from a literal, but nothing keeps an identifier
from looking like a temporary.
-/

namespace Tricode

/-! ## Numbers -/

theorem eq_of_toDigits_eq {m n : Nat} (h : Nat.toDigits 10 m = Nat.toDigits 10 n) : m = n := by
  simpa [Nat.ofDigitChars_ten_toDigits] using congrArg (Nat.ofDigitChars 10 · 0) h

theorem toList_toString_ofNat (n : Nat) : (toString (Int.ofNat n)).toList = Nat.toDigits 10 n :=
  Nat.toList_repr

theorem toList_toString_negSucc (n : Nat) :
    (toString (Int.negSucc n)).toList = '-' :: Nat.toDigits 10 (n + 1) := by
  show ("-" ++ (n + 1).repr).toList = _
  rw [String.toList_append, Nat.toList_repr]
  rfl

/-! ## Literals -/

namespace Literal

/-- A character a number is written with. -/
def isNumeral (c : Char) : Bool := c.isDigit || c == '-'

theorem isNumeral_of_mem_codeText {value : Literal} {c : Char} (h : c ∈ value.codeText.toList) :
    isNumeral c = true := by
  cases value with
  | bool b => cases b <;> simp_all [codeText, isNumeral]
  | int n =>
    rw [codeText] at h
    cases hn : n.toInt with
    | ofNat k =>
      rw [hn, toList_toString_ofNat] at h
      rw [isNumeral, Nat.isDigit_of_mem_toDigits (by decide) (by decide) h, Bool.true_or]
    | negSucc k =>
      rw [hn, toList_toString_negSucc] at h
      rcases List.mem_cons.mp h with rfl | hdigit
      · rfl
      · rw [isNumeral, Nat.isDigit_of_mem_toDigits (by decide) (by decide) hdigit, Bool.true_or]

theorem eq_of_toString_eq {m n : Int} (h : toString m = toString n) : m = n := by
  have hchars := congrArg String.toList h
  -- A sign is no digit, so the two are of the same sign.
  have hsign : ∀ {k : Nat} {digits : List Char}, Nat.toDigits 10 k ≠ '-' :: digits := by
    intro k digits heq
    have hminus : '-' ∈ Nat.toDigits 10 k := by rw [heq]; exact List.mem_cons_self
    exact absurd (Nat.isDigit_of_mem_toDigits (by decide) (by decide) hminus) (by decide)
  cases m with
  | ofNat j =>
    cases n with
    | ofNat k =>
      rw [toList_toString_ofNat, toList_toString_ofNat] at hchars
      rw [eq_of_toDigits_eq hchars]
    | negSucc k =>
      rw [toList_toString_ofNat, toList_toString_negSucc] at hchars
      exact absurd hchars hsign
  | negSucc j =>
    cases n with
    | ofNat k =>
      rw [toList_toString_ofNat, toList_toString_negSucc] at hchars
      exact absurd hchars.symm hsign
    | negSucc k =>
      rw [toList_toString_negSucc, toList_toString_negSucc, List.cons.injEq] at hchars
      rw [Nat.succ_inj.mp (eq_of_toDigits_eq hchars.2)]

/-- Among literals with one tag the text tells the value. -/
theorem eq_of_codeText_eq {value value' : Literal} (htag : value.ty.suffix = value'.ty.suffix)
    (h : value.codeText = value'.codeText) : value = value' := by
  cases value with
  | int n =>
    cases value' with
    | int n' => rw [Int32.toInt_inj.mp (eq_of_toString_eq h)]
    | bool b' => exact absurd htag (show Ty.int.suffix ≠ Ty.boolean.suffix by decide)
  | bool b =>
    cases value' with
    | int n' => exact absurd htag (show Ty.boolean.suffix ≠ Ty.int.suffix by decide)
    | bool b' => cases b <;> cases b' <;> simp_all [codeText]

end Literal

/-! ## Temporaries -/

theorem toList_tempName (id : Nat) :
    (tempName id).toList = 't' :: 'm' :: 'p' :: Nat.toDigits 10 id := by
  rw [tempName, String.toList_append, Nat.toString_eq_repr, Nat.toList_repr]
  rfl

theorem tempName_injective : Function.Injective tempName := by
  intro id id' h
  have hchars := congrArg String.toList h
  rw [toList_tempName, toList_tempName] at hchars
  simp only [List.cons.injEq, true_and] at hchars
  exact eq_of_toDigits_eq hchars

theorem tempName_ne_this (id : Nat) : tempName id ≠ "this" := by
  intro h
  have hchars := congrArg String.toList h
  rw [toList_tempName] at hchars
  simp at hchars

/-! ## Identifiers -/

/-- A character an identifier may start with. -/
def isInitial (c : Char) : Bool := c.isAlpha || c == '_' || c == '$'

/-- The name is an identifier: of letters, digits, underscores and dollar signs, and not starting
with a digit. The name `this` is taken. -/
def isIdentifier (name : String) : Bool :=
  name != "this" && (name.toList.head?.map isInitial).getD false &&
    name.toList.all fun c ↦ isInitial c || c.isDigit

theorem dot_notMem_of_isIdentifier {name : String} (h : isIdentifier name = true) :
    '.' ∉ name.toList := by
  intro hdot
  rw [isIdentifier, Bool.and_eq_true, List.all_eq_true] at h
  exact absurd (h.2 '.' hdot) (by decide)

/-- The digits come before the letters. -/
theorem isDigit_eq_false_of_isAlpha {c : Char} (h : c.isAlpha = true) : c.isDigit = false := by
  have hupper : c.isUpper = true → '9'.val < c.val := fun h ↦
    Nat.lt_of_lt_of_le (by decide) (of_decide_eq_true h).1
  have hlower : c.isLower = true → '9'.val < c.val := fun h ↦
    Nat.lt_of_lt_of_le (by decide) (of_decide_eq_true (Bool.and_eq_true_iff.mp h).1)
  have hletter : '9'.val < c.val := (Bool.or_eq_true_iff.mp h).elim hupper hlower
  exact Bool.and_eq_false_iff.mpr (.inr (decide_eq_false (UInt32.not_le.mpr hletter)))

theorem not_isNumeral_of_isInitial {c : Char} (h : isInitial c = true) :
    Literal.isNumeral c = false := by
  rw [isInitial, Bool.or_eq_true, Bool.or_eq_true, beq_iff_eq, beq_iff_eq] at h
  rcases h with (halpha | rfl) | rfl
  · have hminus : c ≠ '-' := by
      rintro rfl
      exact absurd halpha (by decide)
    rw [Literal.isNumeral, isDigit_eq_false_of_isAlpha halpha, Bool.false_or, beq_eq_false_iff_ne]
    exact hminus
  · decide
  · decide

/-- A literal is never taken for a name that starts like an identifier. -/
theorem codeText_ne_of_isInitial {name : String} {c : Char} (hhead : name.toList.head? = some c)
    (hc : isInitial c = true) (value : Literal) : value.codeText ≠ name := by
  rintro rfl
  have hnumeral := Literal.isNumeral_of_mem_codeText (List.mem_of_mem_head? hhead)
  rw [not_isNumeral_of_isInitial hc] at hnumeral
  cases hnumeral

theorem codeText_ne_of_isIdentifier {name : String} (h : isIdentifier name = true)
    (value : Literal) : value.codeText ≠ name := by
  rw [isIdentifier, Bool.and_eq_true, Bool.and_eq_true] at h
  cases hhead : name.toList.head? with
  | none => exact absurd h.1.2 (by simp [hhead])
  | some c => exact codeText_ne_of_isInitial hhead (by simpa [hhead] using h.1.2) value

theorem codeText_ne_this (value : Literal) : value.codeText ≠ "this" :=
  codeText_ne_of_isInitial (c := 't') rfl (by decide) value

theorem codeText_ne_tempName (id : Nat) (value : Literal) : value.codeText ≠ tempName id :=
  codeText_ne_of_isInitial (c := 't') (by rw [toList_tempName]; rfl) (by decide) value

/-! ## Tags -/

theorem dot_notMem_codeText (value : Literal) : '.' ∉ value.codeText.toList :=
  fun h ↦ absurd (Literal.isNumeral_of_mem_codeText h) (by decide)

theorem dot_notMem_tempName (id : Nat) : '.' ∉ (tempName id).toList := by
  intro h
  rw [toList_tempName] at h
  simp only [List.mem_cons, Char.reduceEq, false_or] at h
  exact absurd (Nat.isDigit_of_mem_toDigits (by decide) (by decide) h) (by decide)

/-- A name without a dot is what stands before the first one. -/
theorem suffixed_inj {name name' : String} {ty ty' : Ty} (h : '.' ∉ name.toList)
    (h' : '.' ∉ name'.toList) :
    suffixed name ty = suffixed name' ty' ↔ name = name' ∧ ty.suffix = ty'.suffix := by
  constructor
  · intro heq
    have hchars : name.toList ++ '.' :: ty.suffix.toList =
        name'.toList ++ '.' :: ty'.suffix.toList := by
      simpa [suffixed] using congrArg String.toList heq
    have hbefore : ∀ {name rest : List Char}, '.' ∉ name →
        (name ++ '.' :: rest).takeWhile (· != '.') = name := by
      intro name rest hdot
      rw [List.takeWhile_append_of_pos fun c hc ↦ bne_iff_ne.mpr (ne_of_mem_of_not_mem hc hdot),
        List.takeWhile_cons_of_neg (by simp), List.append_nil]
    have hname : name.toList = name'.toList := by
      rw [← hbefore h, hchars, hbefore h']
    rw [hname, List.append_cancel_left_eq, List.cons.injEq] at hchars
    exact ⟨String.toList_inj.mp hname, String.toList_inj.mp hchars.2⟩
  · rintro ⟨rfl, htag⟩
    rw [suffixed, suffixed, htag]

end Tricode
