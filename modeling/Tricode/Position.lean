/-!
# Source positions

Every node of a class tree carries the line and column at which its front end found it.
Diagnostics are listed by position and faults name one, so positions are compared
lexicographically and written as `line:column`.
-/

namespace Tricode

/-- A line and a column. A front end that reports no place reports `0:0`. -/
structure Position where
  line : UInt32
  column : UInt32
  deriving DecidableEq, Repr

namespace Position

/-- The place of a node that was built rather than read. -/
def origin : Position := ⟨0, 0⟩

instance : Inhabited Position := ⟨origin⟩

/-- A position as messages show it. -/
def text (p : Position) : String :=
  toString p.line.toNat ++ ":" ++ toString p.column.toNat

/-- Reading order: earlier lines first, and within a line from left to right. -/
def le (p q : Position) : Bool :=
  p.line < q.line || (p.line == q.line && p.column ≤ q.column)

theorem le_refl (p : Position) : p.le p = true := by
  simp [le]

theorem le_trans {p q r : Position} (hpq : p.le q = true) (hqr : q.le r = true) :
    p.le r = true := by
  simp only [le, Bool.or_eq_true, Bool.and_eq_true, decide_eq_true_eq, beq_iff_eq] at *
  rcases hpq with h | ⟨h, hc⟩ <;> rcases hqr with h' | ⟨h', hc'⟩
  · exact .inl (UInt32.lt_trans h h')
  · exact .inl (h' ▸ h)
  · exact .inl (h ▸ h')
  · exact .inr ⟨h.trans h', UInt32.le_trans hc hc'⟩

theorem le_total (p q : Position) : (p.le q || q.le p) = true := by
  simp only [le, Bool.or_eq_true, Bool.and_eq_true, decide_eq_true_eq, beq_iff_eq,
    UInt32.lt_iff_toNat_lt, UInt32.le_iff_toNat_le, ← UInt32.toNat_inj]
  omega

end Position

end Tricode
