import Tricode.Proofs.Emission

/-!
# Static and virtual calls

A call to a method of the unit should be static just when the method is. Lowering looks at the
method only if the call is made on the object itself, written or not. A call on any other object
is virtual, also one to a static method: `Program.own_call_kind_iff`.
-/

namespace Tricode

/-- The call is made on the object itself. -/
def CallTarget.isOnSelf (t : CallTarget) : Bool :=
  match t.receiver with
  | none | some (.this _) => true
  | some _ => false

/-- How a method of the unit should be called. -/
def Signature.callKind (sig : Signature) : CallKind := if sig.isStatic then .static else .virtual

namespace Scope

variable {s : Scope} {c c' : Counters} {t : CallTarget} {pos : Position} {sig : Signature}
  {d : Dispatch}

theorem kind_ownDispatch {method : String} (h : s.table.method? method = some sig) :
    (s.ownDispatch method).kind = sig.callKind := by
  unfold ownDispatch Signature.callKind
  rw [h]
  dsimp only
  split <;> rfl

/-- A call that checking takes for one to the method is made as the method asks for on the object
itself, and is virtual on any other. -/
theorem kind_dispatchTo (himport : s.table.isImported s.table.className = false)
    (hsig : s.checkedCallee? t = some sig) (h : (s.dispatchTo pos t).Yields c d c') :
    d.kind = if t.isOnSelf then sig.callKind else .virtual := by
  obtain ⟨receiver, method⟩ := t
  cases receiver with
  | none =>
    obtain ⟨rfl, -⟩ := Lower.yields_pure.mp h
    exact kind_ownDispatch hsig
  | some receiver =>
    have hfind : s.table.method? method = some sig := method?_of_callee? hsig
    rcases s.receiver_cases receiver with ⟨p, rfl⟩ | ⟨p, name, rfl, hlookup⟩ | hobject
    · obtain ⟨rfl, -⟩ := Lower.yields_pure.mp h
      exact kind_ownDispatch hfind
    · exact absurd hlookup (lookup_ne_imported_of_callee? himport hsig)
    · have hself : CallTarget.isOnSelf ⟨some receiver, method⟩ = false := by
        cases receiver with
        | this => cases hobject
        | _ => rfl
      have hd : (s.dispatch pos receiver (s.lowerExpr receiver) method).Yields c d c' := h
      rw [dispatch_eq_objectDispatch hobject] at hd
      obtain ⟨object, -, -, rfl⟩ := yields_objectDispatch hd
      rw [hself]
      rfl

theorem Makes.kind {args : List Expr} {call : Call} {code : Code}
    (himport : s.table.isImported s.table.className = false)
    (hsig : s.checkedCallee? t = some sig) (h : s.Makes t args call code) :
    call.kind = if t.isOnSelf then sig.callKind else .virtual := by
  obtain ⟨pos, ret, c, before, c', hcall, -⟩ := h
  obtain ⟨d, c₁, operands, argCode, hd, -, rfl, -⟩ := yields_lowerCall hcall
  exact kind_dispatchTo himport hsig hd

end Scope

namespace Program

variable {p : Program} {o : Options} {code : ClassCode} {i : Nat} {mc : MethodCode}
  {m : MethodDecl}

/-- For every call of a unit that is accepted and lowered and that checking takes for one to a
method of the unit there is an instruction that makes it. Its kind is right unless the method is
static and the call is made on an object other than `this`: then it is virtual nevertheless. -/
theorem own_call_kind_iff (haccepted : p.Accepted) (hdots : p.DotFree)
    (hlower : p.lower p.table o = .ok code)
    (hm : (p.prepared o).decl.methods[i]? = some m) (hmc : code.methods[i]? = some mc)
    {t : CallTarget} {pos : Position} {args : List Expr} (hpart : m.HasPart (t.call pos args))
    {sig : Signature} (hsig : Scope.checkedCallee? ⟨p.table, m.signature⟩ t = some sig) :
    (∃ call, Scope.Makes ⟨p.table, m.signature⟩ t args call mc.body) ∧
      ∀ call, Scope.Makes ⟨p.table, m.signature⟩ t args call mc.body →
        call.kind = (if t.isOnSelf then sig.callKind else .virtual) ∧
        (call.kind = sig.callKind ↔ (sig.isStatic = true → t.isOnSelf = true)) := by
  refine ⟨exists_makes_of_hasPart hlower hm hmc hpart, fun call hmakes ↦ ?_⟩
  have hkind := hmakes.kind (haccepted.className_not_imported hdots) hsig
  refine ⟨hkind, ?_⟩
  rw [hkind, Signature.callKind]
  cases t.isOnSelf <;> cases sig.isStatic <;> simp

/-- A program that starts itself once more, on a fresh object. -/
def starter : Program where
  imports := []
  decl := {
    name := "Starter"
    superclass := none
    fields := []
    methods := [
      { name := "main"
        isPublic := true
        isStatic := true
        returnType := .void
        params := [⟨.array .string, "args", .origin⟩]
        varargs := none
        locals := []
        body := [.eval .origin (.callOn .origin (.newObject .origin "Starter") "main"
          [.var .origin "args"])]
        pos := .origin }]
    pos := .origin }

/-- The method is static, and yet it is called like one of the object. -/
theorem starter_call_kind :
    let t : CallTarget := ⟨some (.newObject .origin "Starter"), "main"⟩
    starter.Accepted ∧ starter.DotFree ∧ ∃ code m mc sig,
      starter.lower starter.table .default = .ok code ∧
      (starter.prepared .default).decl.methods[0]? = some m ∧ code.methods[0]? = some mc ∧
      m.HasPart (t.call .origin [.var .origin "args"]) ∧
      Scope.checkedCallee? ⟨starter.table, m.signature⟩ t = some sig ∧ sig.isStatic = true ∧
      ∃ call, Scope.Makes ⟨starter.table, m.signature⟩ t [.var .origin "args"] call mc.body ∧
        call.kind = .virtual := by
  intro t
  have haccepted : starter.Accepted := accepted_iff.mpr (by decide)
  have hdots : starter.DotFree := by decide
  obtain ⟨code, mc, hlower, hmc⟩ : ∃ code mc, starter.lower starter.table .default = .ok code ∧
      code.methods[0]? = some mc := ⟨_, _, rfl, rfl⟩
  obtain ⟨m, sig, hm, hpart, hsig, hstatic⟩ : ∃ m sig,
      (starter.prepared .default).decl.methods[0]? = some m ∧
      m.HasPart (t.call .origin [.var .origin "args"]) ∧
      Scope.checkedCallee? ⟨starter.table, m.signature⟩ t = some sig ∧ sig.isStatic = true :=
    ⟨_, _, rfl, ⟨_, List.mem_cons_self, .self⟩, rfl, rfl⟩
  obtain ⟨⟨call, hmakes⟩, hkind⟩ := own_call_kind_iff haccepted hdots hlower hm hmc hpart hsig
  exact ⟨haccepted, hdots, code, m, mc, sig, hlower, hm, hmc, hpart, hsig, hstatic, call, hmakes,
    (hkind call hmakes).1⟩

end Program

end Tricode
