import Mathlib.Data.List.TakeWhile
import Tricode.Json.Reader
import Tricode.Json.Writer
import Tricode.Proofs.Names

/-!
# Reading written JSON

The reader takes any layout and spelling, while the writer knows only one. What is written without
blanks is read back as the value it came from, `Json.read_render`, so nothing of a value is lost in
its text.

Every step of the reader leaves some text, so each fact is about a written piece with more text
behind it. Only numerals mind what comes next: a digit, a point or an exponent would be taken for a
part of them. What follows a value inside an array or an object is never one of these.

A numeral that is no integer is kept as its text, which need not be one that the reader would
take. Values with such numerals are left out.
-/

namespace Tricode

namespace Json

/-! ## Strings -/

/-- The text is read as the piece, whatever follows it. -/
def SpellsPiece (text : List Char) (piece : Piece) : Prop :=
  ∀ cs, pieces (text ++ cs) = (pieces cs).map fun (ps, rest) ↦ (piece :: ps, rest)

theorem spells_escaped {e c : Char} (hunit : e ≠ 'u') (h : escaped? e = some c) :
    SpellsPiece ['\\', e] (.char c) := by
  intro cs
  simp [pieces, hunit, h]
  cases pieces cs <;> rfl

theorem spells_unit {a b c d : Char} {n : Nat} (h : hexUnit? a b c d = some n) :
    SpellsPiece ['\\', 'u', a, b, c, d] (.unit n) := by
  intro cs
  simp only [List.cons_append, List.nil_append, pieces, h]
  cases pieces cs <;> rfl

theorem spells_char {c : Char} (hquote : c ≠ '"') (hslash : c ≠ '\\') (h : ¬c < ' ') :
    SpellsPiece [c] (.char c) := by
  intro cs
  rw [List.singleton_append, pieces.eq_def]
  dsimp only
  rw [if_neg hquote, if_neg hslash, if_neg h]
  cases pieces cs <;> rfl

theorem hexDigit?_hexDigitChar : ∀ n < 16, hexDigit? (hexDigitChar n) = some n := by
  decide

theorem hexUnit?_of_lt {n : Nat} (h : n < 256) :
    hexUnit? '0' '0' (hexDigitChar (n / 16)) (hexDigitChar (n % 16)) = some n := by
  have hzero : hexDigit? '0' = some 0 := rfl
  have hhigh := hexDigit?_hexDigitChar (n / 16) (by omega)
  have hlow := hexDigit?_hexDigitChar (n % 16) (by omega)
  simp only [hexUnit?, hzero, hhigh, hlow, bind, Option.bind, pure, Option.some.injEq]
  omega

/-- Control characters are spelled by their number, which is no half of a surrogate pair. -/
theorem content_unit {c : Char} (h : c < ' ') (ps : List Piece) :
    content (.unit c.toNat :: ps) = (content ps).map (c :: ·) := by
  have hlt : c.toNat < 32 := h
  have hleading : isLeading c.toNat = false := by simp [isLeading]; omega
  have htrailing : isTrailing c.toNat = false := by simp [isTrailing]; omega
  rw [content.eq_def]
  simp [hleading, htrailing]

/-- Every character is spelled as one piece that stands for it. -/
theorem spells_escape (c : Char) :
    ∃ piece, SpellsPiece (escape c) piece ∧
      ∀ ps, content (piece :: ps) = (content ps).map (c :: ·) := by
  by_cases hnamed : c ∈ ['"', '\\', '\n', '\r', '\t', '\x08', '\x0c']
  · refine ⟨.char c, ?_, fun _ ↦ rfl⟩
    simp only [List.mem_cons, List.not_mem_nil, or_false] at hnamed
    rcases hnamed with rfl | rfl | rfl | rfl | rfl | rfl | rfl <;>
      exact spells_escaped (by decide) rfl
  · simp only [List.mem_cons, List.not_mem_nil, or_false, not_or] at hnamed
    simp only [escape, hnamed, if_false]
    by_cases hcontrol : c < ' '
    · have hlt : c.toNat < 32 := hcontrol
      rw [if_pos hcontrol]
      exact ⟨.unit c.toNat, spells_unit (hexUnit?_of_lt (by omega)), content_unit hcontrol⟩
    · rw [if_neg hcontrol]
      exact ⟨.char c, spells_char hnamed.1 hnamed.2.1 hcontrol, fun _ ↦ rfl⟩

theorem pieces_quote (rest : List Char) : pieces ('"' :: rest) = some ([], rest) := by
  rw [pieces.eq_def]
  exact if_pos rfl

theorem pieces_escaped (cs rest : List Char) :
    ∃ ps, pieces (cs.flatMap escape ++ '"' :: rest) = some (ps, rest) ∧ content ps = some cs := by
  induction cs with
  | nil => exact ⟨[], pieces_quote rest, rfl⟩
  | cons c cs ih =>
    obtain ⟨ps, hpieces, hcontent⟩ := ih
    obtain ⟨piece, hspells, hchar⟩ := spells_escape c
    refine ⟨piece :: ps, ?_, ?_⟩
    · rw [List.flatMap_cons, List.append_assoc, hspells, hpieces]
      rfl
    · rw [hchar, hcontent]
      rfl

/-- A written name is read, with content or without, up to its closing quote. -/
theorem string_nameText (name : Option String) (rest : List Char) :
    ∃ cs, nameText name ++ rest = '"' :: cs ∧ string cs = some (name, rest) := by
  cases name with
  | none =>
    have hspells : SpellsPiece ['\\', 'u', 'd', '8', '0', '0'] (.unit 0xd800) :=
      spells_unit (by decide)
    refine ⟨['\\', 'u', 'd', '8', '0', '0'] ++ '"' :: rest, rfl, ?_⟩
    rw [string, hspells, pieces_quote]
    rfl
  | some s =>
    obtain ⟨ps, hpieces, hcontent⟩ := pieces_escaped s.toList rest
    refine ⟨s.toList.flatMap escape ++ '"' :: rest, by simp [nameText, quote], ?_⟩
    simp [string, hpieces, hcontent]

/-! ## Numerals -/

/-- A numeral in front of the text ends there. -/
def Stops (rest : List Char) : Prop :=
  ∀ c ∈ rest.head?, c.isDigit = false ∧ c ≠ '.' ∧ c ≠ 'e' ∧ c ≠ 'E'

theorem digits_append {ds rest : List Char} (hds : ∀ c ∈ ds, c.isDigit = true)
    (hrest : Stops rest) : digits (ds ++ rest) = (ds, rest) := by
  rw [digits, List.takeWhile_append_of_pos hds, List.dropWhile_append_of_pos hds]
  cases rest with
  | nil => simp
  | cons c cs => simp [hrest c rfl]

theorem fraction_of_stops {rest : List Char} (h : Stops rest) :
    fraction rest = some ([], rest) := by
  cases rest with
  | nil => rfl
  | cons c cs => simp [fraction, (h c rfl).2.1]

theorem exponent_of_stops {rest : List Char} (h : Stops rest) :
    exponent rest = some ([], rest) := by
  cases rest with
  | nil => rfl
  | cons c cs => simp [exponent, (h c rfl).2.2]

/-- No positive number is written with a zero in front. -/
theorem head?_toDigits {n : Nat} (h : 0 < n) : (Nat.toDigits 10 n).head? ≠ some '0' := by
  induction n using Nat.strongRecOn with
  | ind n ih =>
    by_cases hlt : n < 10
    · have hdigit : ∀ d < 10, 0 < d → [Nat.digitChar d].head? ≠ some '0' := by decide
      rw [Nat.toDigits_of_lt_base hlt]
      exact hdigit n hlt h
    · rw [Nat.toDigits_of_base_le (by decide) (Nat.not_lt.mp hlt),
        List.head?_append_of_ne_nil _ Nat.toDigits_ne_nil]
      exact ih (n / 10) (by omega) (by omega)

theorem isWhole_toDigits (n : Nat) : isWhole (Nat.toDigits 10 n) = true := by
  rcases Nat.eq_zero_or_pos n with rfl | hpos
  · rfl
  · have hne : Nat.toDigits 10 n ≠ [] := Nat.toDigits_ne_nil
    simp [isWhole, head?_toDigits hpos, hne]

theorem numeral_toDigits (n : Int) :
    numeral (decide (n < 0)) (Nat.toDigits 10 n.natAbs) [] [] = int n := by
  have hvalue : Nat.ofDigitChars 10 (Nat.toDigits 10 n.natAbs) 0 = n.natAbs :=
    Nat.ofDigitChars_ten_toDigits
  by_cases hneg : n < 0
  · have hzero : (n.natAbs == 0) = false := beq_eq_false_iff_ne.mpr (by omega)
    have habs : -(n.natAbs : Int) = n := by omega
    rw [decide_eq_true hneg, numeral, hvalue, hzero]
    exact congrArg int habs
  · have habs : (n.natAbs : Int) = n := by omega
    rw [decide_eq_false hneg, numeral, hvalue]
    exact congrArg int habs

theorem number_intText (n : Int) {rest : List Char} (hrest : Stops rest) :
    number (intText n ++ rest) = some (int n, rest) := by
  have hdigits : digits (Nat.toDigits 10 n.natAbs ++ rest) = (Nat.toDigits 10 n.natAbs, rest) :=
    digits_append (fun _ ↦ Nat.isDigit_of_mem_toDigits (by decide) (by decide)) hrest
  have hwhole := isWhole_toDigits n.natAbs
  have hnumeral := numeral_toDigits n
  by_cases hneg : n < 0
  · rw [decide_eq_true hneg] at hnumeral
    rw [intText, if_pos hneg, List.cons_append]
    simp only [number, hdigits, hwhole, if_true, fraction_of_stops hrest, exponent_of_stops hrest,
      Option.bind_eq_bind, Option.bind_some, hnumeral, Option.pure_def]
  · rw [decide_eq_false hneg] at hnumeral
    -- Without a sign the first digit decides, and it is no sign itself.
    obtain ⟨d, ds, hds⟩ :=
      List.exists_cons_of_ne_nil (Nat.toDigits_ne_nil (n := n.natAbs) (b := 10))
    have hminus : d ≠ '-' := by
      rintro rfl
      have hmem : '-' ∈ Nat.toDigits 10 n.natAbs := hds ▸ List.mem_cons_self
      cases Nat.isDigit_of_mem_toDigits (by decide) (by decide) hmem
    rw [intText, if_neg hneg, hds]
    rw [hds] at hdigits hwhole hnumeral
    rw [List.cons_append] at hdigits ⊢
    simp only [number, List.cons.injEq, hminus, false_and, imp_self, implies_true, hdigits, hwhole,
      if_true, fraction_of_stops hrest, exponent_of_stops hrest, Option.bind_eq_bind,
      Option.bind_some, hnumeral, Option.pure_def]

/-! ## Values -/

/-- All numerals in the value are integers. -/
inductive Integral : Json → Prop
  | null : Integral null
  | bool (b : Bool) : Integral (bool b)
  | int (n : Int) : Integral (int n)
  | str (s : String) : Integral (str s)
  | unpaired : Integral unpaired
  | arr {items : List Json} : (∀ j ∈ items, Integral j) → Integral (arr items)
  | obj {members : List (Option String × Json)} :
    (∀ m ∈ members, Integral m.2) → Integral (obj members)

theorem skipBlanks_cons {c : Char} {cs : List Char} (h : isBlank c = false) :
    skipBlanks (c :: cs) = c :: cs := by
  simp [skipBlanks, h]

theorem exists_intText (n : Int) :
    ∃ c cs, intText n = c :: cs ∧ Literal.isNumeral c = true := by
  unfold intText
  split
  · exact ⟨_, _, rfl, rfl⟩
  · obtain ⟨d, ds, hds⟩ :=
      List.exists_cons_of_ne_nil (Nat.toDigits_ne_nil (n := n.natAbs) (b := 10))
    have hmem : d ∈ Nat.toDigits 10 n.natAbs := hds ▸ List.mem_cons_self
    refine ⟨d, ds, hds, ?_⟩
    rw [Literal.isNumeral, Nat.isDigit_of_mem_toDigits (by decide) (by decide) hmem, Bool.true_or]

theorem ne_of_isNumeral {c d : Char} (hc : Literal.isNumeral c = true)
    (hd : Literal.isNumeral d = false) : c ≠ d := by
  rintro rfl
  rw [hc] at hd
  cases hd

theorem isBlank_of_isNumeral {c : Char} (h : Literal.isNumeral c = true) : isBlank c = false := by
  simp only [isBlank, Bool.or_eq_false_iff, beq_eq_false_iff_ne]
  exact ⟨⟨⟨ne_of_isNumeral h rfl, ne_of_isNumeral h rfl⟩, ne_of_isNumeral h rfl⟩,
    ne_of_isNumeral h rfl⟩

theorem value_numeral {c : Char} (h : Literal.isNumeral c = true) (bound : Nat)
    (cs : List Char) :
    value (bound + 1) (c :: cs) = number (c :: cs) := by
  rw [value, skipBlanks_cons (isBlank_of_isNumeral h)]
  dsimp only
  iterate 6 rw [if_neg (ne_of_isNumeral h rfl)]

/-- The text of the value is read as the value. Twice its length bounds the steps this takes. -/
def ReadsBack (j : Json) : Prop :=
  ∀ (bound : Nat) (rest : List Char), 2 * j.chars.length ≤ bound → Stops rest →
    value bound (j.chars ++ rest) = some (j, rest)

theorem value_nameText (name : Option String) (bound : Nat) (rest : List Char) :
    value (bound + 1) (nameText name ++ rest) = some (ofString name, rest) := by
  obtain ⟨cs, htext, hstring⟩ := string_nameText name rest
  rw [htext, value, skipBlanks_cons rfl]
  dsimp only
  rw [if_pos rfl, hstring]
  rfl

theorem stops_cons {c : Char} {cs : List Char}
    (h : (c.isDigit || c == '.' || c == 'e' || c == 'E') = false) : Stops (c :: cs) := by
  intro d hd
  obtain rfl : c = d := by simpa using hd
  simpa [and_assoc] using h

section

variable {bound : Nat} {cs cs' rest : List Char} {j : Json}

theorem items_last (h : value bound cs = some (j, ']' :: rest)) :
    items (bound + 1) cs = some ([j], rest) := by
  simp [items, h, skipBlanks_cons, isBlank]

theorem items_more {js : List Json} (h : value bound cs = some (j, ',' :: cs'))
    (hmore : items bound cs' = some (js, rest)) :
    items (bound + 1) cs = some (j :: js, rest) := by
  simp [items, h, skipBlanks_cons, isBlank, hmore]

theorem members_last {name : Option String} (h : value bound cs = some (j, '\x7d' :: rest)) :
    members (bound + 1) (nameText name ++ ':' :: cs) = some ([(name, j)], rest) := by
  obtain ⟨cs₁, htext, hstring⟩ := string_nameText name (':' :: cs)
  simp [members, htext, hstring, h, skipBlanks_cons, isBlank]

theorem members_more {name : Option String} {ms : List (Option String × Json)}
    (h : value bound cs = some (j, ',' :: cs')) (hmore : members bound cs' = some (ms, rest)) :
    members (bound + 1) (nameText name ++ ':' :: cs) = some ((name, j) :: ms, rest) := by
  obtain ⟨cs₁, htext, hstring⟩ := string_nameText name (':' :: cs)
  simp [members, htext, hstring, h, skipBlanks_cons, isBlank, hmore]

theorem value_arr {c : Char} {js : List Json} (hblank : isBlank c = false) (hclose : c ≠ ']')
    (h : items bound (c :: cs) = some (js, rest)) :
    value (bound + 1) ('[' :: c :: cs) = some (arr js, rest) := by
  simp [value, skipBlanks_cons (c := '[') rfl, skipBlanks_cons hblank, hclose, h]

theorem value_obj {ms : List (Option String × Json)}
    (h : members bound ('"' :: cs) = some (ms, rest)) :
    value (bound + 1) ('\x7b' :: '"' :: cs) = some (obj ms, rest) := by
  simp [value, skipBlanks_cons, isBlank, h]

end

/-- The items of an array, up to its closing bracket. -/
theorem items_chars {js : List Json} (h : ∀ x ∈ js, ReadsBack x) (rest : List Char) :
    ∀ (j : Json) (bound : Nat), ReadsBack j → 2 * (j.chars ++ itemsChars js).length ≤ bound →
      items bound (j.chars ++ (itemsChars js ++ rest)) = some (j :: js, rest) := by
  induction js with
  | nil =>
    intro j bound hj hbound
    rw [itemsChars, List.length_append, List.length_singleton] at hbound
    obtain ⟨bound, rfl⟩ := Nat.exists_eq_add_one_of_ne_zero (show bound ≠ 0 by omega)
    exact items_last (hj _ _ (by omega) (stops_cons rfl))
  | cons x xs ih =>
    intro j bound hj hbound
    obtain ⟨hx, hxs⟩ := List.forall_mem_cons.mp h
    simp only [itemsChars, List.cons_append, List.length_append, List.length_cons] at hbound
    obtain ⟨bound, rfl⟩ := Nat.exists_eq_add_one_of_ne_zero (show bound ≠ 0 by omega)
    simp only [itemsChars, List.cons_append, List.append_assoc]
    refine items_more (hj _ _ (by omega) (stops_cons rfl)) ?_
    exact ih hxs x bound hx (by rw [List.length_append]; omega)

/-- The members of an object, up to its closing brace. -/
theorem members_chars {ms : List (Option String × Json)} (h : ∀ m ∈ ms, ReadsBack m.2)
    (rest : List Char) :
    ∀ (name : Option String) (j : Json) (bound : Nat), ReadsBack j →
      2 * (nameText name ++ ':' :: j.chars ++ membersChars ms).length ≤ bound →
      members bound (nameText name ++ ':' :: (j.chars ++ (membersChars ms ++ rest))) =
        some ((name, j) :: ms, rest) := by
  induction ms with
  | nil =>
    intro name j bound hj hbound
    simp only [membersChars, List.length_append, List.length_cons] at hbound
    obtain ⟨bound, rfl⟩ := Nat.exists_eq_add_one_of_ne_zero (show bound ≠ 0 by omega)
    exact members_last (hj _ _ (by omega) (stops_cons rfl))
  | cons m ms ih =>
    intro name j bound hj hbound
    obtain ⟨name', x⟩ := m
    obtain ⟨hx, hms⟩ := List.forall_mem_cons.mp h
    simp only [membersChars, List.cons_append, List.length_append, List.length_cons] at hbound
    obtain ⟨bound, rfl⟩ := Nat.exists_eq_add_one_of_ne_zero (show bound ≠ 0 by omega)
    have hmore := ih hms name' x bound hx
      (by simp only [List.length_append, List.length_cons]; omega)
    simp only [membersChars, List.cons_append, List.append_assoc]
    exact members_more (hj _ _ (by omega) (stops_cons rfl)) hmore

theorem exists_chars {j : Json} (h : Integral j) :
    ∃ c cs, j.chars = c :: cs ∧ isBlank c = false ∧ c ≠ ']' := by
  cases h with
  | null => exact ⟨_, _, rfl, rfl, by decide⟩
  | bool b => cases b <;> exact ⟨_, _, rfl, rfl, by decide⟩
  | int n =>
    obtain ⟨c, cs, htext, hc⟩ := exists_intText n
    exact ⟨c, cs, htext, isBlank_of_isNumeral hc, ne_of_isNumeral hc rfl⟩
  | str s => exact ⟨_, _, rfl, rfl, by decide⟩
  | unpaired => exact ⟨_, _, rfl, rfl, by decide⟩
  | @arr items hitems => cases items <;> exact ⟨_, _, rfl, rfl, by decide⟩
  | @obj members hmembers => cases members <;> exact ⟨_, _, rfl, rfl, by decide⟩

/-- No text is empty, so there is always a step to take. -/
theorem readsBack_of_succ {j : Json} (h : Integral j)
    (hread : ∀ (bound : Nat) (rest : List Char), 2 * j.chars.length ≤ bound + 1 → Stops rest →
      value (bound + 1) (j.chars ++ rest) = some (j, rest)) : ReadsBack j := by
  intro bound rest hbound hrest
  cases bound with
  | zero =>
    obtain ⟨c, cs, htext, -⟩ := exists_chars h
    rw [htext] at hbound
    cases hbound
  | succ bound => exact hread bound rest hbound hrest

theorem readsBack_of_integral {j : Json} (h : Integral j) : ReadsBack j := by
  induction h with
  | null => exact readsBack_of_succ .null fun _ _ _ _ ↦ rfl
  | bool b =>
    refine readsBack_of_succ (.bool b) fun bound rest hbound hrest ↦ ?_
    cases b <;> rfl
  | int n =>
    refine readsBack_of_succ (.int n) fun bound rest hbound hrest ↦ ?_
    obtain ⟨c, cs, htext, hc⟩ := exists_intText n
    rw [chars, ← number_intText n hrest, htext, List.cons_append, value_numeral hc]
  | str s =>
    exact readsBack_of_succ (.str s) fun bound rest _ _ ↦ value_nameText (some s) bound rest
  | unpaired =>
    exact readsBack_of_succ .unpaired fun bound rest _ _ ↦ value_nameText none bound rest
  | @arr items hitems ih =>
    refine readsBack_of_succ (.arr hitems) fun bound rest hbound hrest ↦ ?_
    cases items with
    | nil => rfl
    | cons j js =>
      obtain ⟨hj, hjs⟩ := List.forall_mem_cons.mp ih
      obtain ⟨c, cs, htext, hblank, hclose⟩ := exists_chars (hitems j List.mem_cons_self)
      -- The opening bracket takes one step and has paid for two.
      simp only [chars, List.cons_append, List.length_cons] at hbound
      have hread := items_chars hjs rest j bound hj (by omega)
      simp only [chars, List.cons_append, List.append_assoc]
      rw [htext, List.cons_append] at hread ⊢
      exact value_arr hblank hclose hread
  | @obj members hmembers ih =>
    refine readsBack_of_succ (.obj hmembers) fun bound rest hbound hrest ↦ ?_
    cases members with
    | nil => rfl
    | cons m ms =>
      obtain ⟨name, j⟩ := m
      obtain ⟨hj, hms⟩ : ReadsBack j ∧ ∀ m ∈ ms, ReadsBack m.2 := List.forall_mem_cons.mp ih
      obtain ⟨cs, htext, -⟩ := string_nameText name (':' :: (j.chars ++ (membersChars ms ++ rest)))
      simp only [chars, List.cons_append, List.length_cons] at hbound
      have hread := members_chars hms rest name j bound hj (by omega)
      simp only [chars, List.cons_append, List.append_assoc]
      rw [htext] at hread ⊢
      exact value_obj hread

/-- A value whose numerals are integers is read back from its text. -/
theorem read_render {j : Json} (h : Integral j) : read j.render = some j := by
  have hstops : Stops [] := by
    intro c hc
    cases hc
  have hread := readsBack_of_integral h (2 * j.chars.length + 1) [] (Nat.le_succ _) hstops
  rw [List.append_nil] at hread
  have htext : j.render.toList = j.chars := String.toList_ofList
  rw [read, htext, hread]
  rfl

end Json

end Tricode
