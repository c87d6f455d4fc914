import Tricode.Check
import Tricode.Json.Reader
import Tricode.Json.Record
import Tricode.Lowering.Stmt
import Tricode.Propagate

/-!
# Compilation

The stages put together: a unit is checked, and unless a diagnostic stands in the way it is
lowered, after propagating and folding constants if the options ask for it.
-/

namespace Tricode

/-! ## Options -/

/-- What may be asked of a compilation. -/
structure Options where
  foldConstants : Bool
  warningsAsErrors : Bool
  deriving DecidableEq, Repr

namespace Options

/-- Nothing is folded, and only errors stand in the way. -/
def default : Options := ⟨false, false⟩

instance : Inhabited Options := ⟨default⟩

/-- The diagnostic stands in the way of lowering. -/
def isBlocking (o : Options) (d : Diagnostic) : Bool := d.isError || o.warningsAsErrors

/-- How many diagnostics stand in the way. -/
def blockingCount (o : Options) (ds : List Diagnostic) : Nat := ds.countP o.isBlocking

/-- Some diagnostic stands in the way. -/
def blocks (o : Options) (ds : List Diagnostic) : Bool := ds.any o.isBlocking

theorem blocks_iff_blockingCount (o : Options) (ds : List Diagnostic) :
    o.blocks ds = true ↔ 0 < o.blockingCount ds := by
  rw [blocks, blockingCount, List.any_eq_true, List.countP_pos_iff]

/-- Options as JSON: any of them may be absent. -/
def ofJson : Nat → Json → Option Options
  | 0, _ => none
  | _ + 1, j => do
    let fields ← Json.record ["fold_constants", "warnings_as_errors"] 0 j
    let foldConstants ← fields.getD "fold_constants" false Json.bool?
    let warningsAsErrors ← fields.getD "warnings_as_errors" false Json.bool?
    pure ⟨foldConstants, warningsAsErrors⟩

/-- The options a text spells. -/
def ofText (text : String) : Option Options := (Json.read text).bind (ofJson maxNesting)

end Options

/-! ## Stages -/

/-- Why there is no code. -/
inductive CompileError where
  /-- Diagnostics stood in the way. -/
  | blocked (count : Nat)
  | fault (fault : Fault)
  deriving DecidableEq, Repr

namespace CompileError

/-- The error as it is reported. -/
def message : CompileError → String
  | blocked count =>
    "semantic analysis reported " ++ toString count ++ " blocking diagnostic(s)"
  | fault f => f.message

end CompileError

/-- The code of a unit, with the diagnostics that did not stand in the way. -/
structure Compilation where
  code : ClassCode
  /-- What checking found and the options let pass. -/
  diagnostics : List Diagnostic

namespace Program

/-- The tree that is lowered under the given options. -/
def prepared (p : Program) (o : Options) : Program := if o.foldConstants then p.optimize else p

/-- The code of a program, without checking it. -/
def lower (p : Program) (t : Table) (o : Options) : Except Fault ClassCode :=
  ((t.lowerProgram (p.prepared o)).runFrom .zero).1

/-- Checks a unit and lowers it, unless a diagnostic stands in the way. -/
def compile (p : Program) (o : Options) : Except CompileError Compilation :=
  let diagnostics := p.check
  let count := o.blockingCount diagnostics
  if 0 < count then .error (.blocked count)
  else match p.lower p.table o with
    | .ok code => .ok ⟨code, diagnostics⟩
    | .error f => .error (.fault f)

end Program

end Tricode
