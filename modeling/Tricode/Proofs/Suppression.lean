import Tricode.Proofs.Gaps

/-!
# One unknown name, one error

An accepted program with names that mean nothing in the place of some of its expressions is
reported for each of these names once and for nothing else, however deep the names stand and
whatever is around them. For expressions this is known; statements have no types, so for them only
the faults remain.

Diagnostics are sorted before they are reported. Sorting is stable, so that the warnings of the
program stay as they were, in the same order.
-/

namespace Tricode

open Diagnostic (Clean error require)

namespace Scope

variable {s : Scope} {pos : Position}

/-! ## Statements -/

/-- `stmt'` has the faults of `stmt`, and in its expressions those of the gaps. -/
structure SuppressesStmt (s : Scope) (stmt stmt' : Stmt) (gaps : List Gap) : Prop where
  pos : stmt'.pos = stmt.pos
  isReturn : stmt'.isReturn = stmt.isReturn
  stmtProblems : s.stmtProblems stmt' = s.stmtProblems stmt
  exprProblems : s.exprProblems stmt' = gaps.map Gap.diagnostic

theorem conditionProblems_eq_nil {construct : String} {cond : Expr}
    (h : (s.typeOf cond).accepts .boolean = true) : s.conditionProblems construct cond = [] := by
  rw [conditionProblems, if_pos h]

theorem targetProblems_eq_nil {target : String} (h : Clean (s.targetProblems pos target)) :
    s.targetProblems pos target = [] := by
  unfold targetProblems at h ⊢
  split at h
  · exact absurd h Diagnostic.not_clean_error_cons
  · exact problems_var_of_accepts h

theorem storeProblems_eq_nil {target : String} {index value : Expr}
    (hint : (s.typeOf index).accepts .int = true)
    (hrule : (s.targetTy target).isAny = true ∨ (s.targetTy target).isArray = true ∧
      Ty.assignable s.table.env (s.targetTy target).element (s.typeOf value) = true) :
    s.storeProblems pos target index value = [] := by
  rw [storeProblems, hint, Diagnostic.require_true, List.nil_append]
  cases hany : (s.targetTy target).isAny with
  | true => rfl
  | false =>
    obtain ⟨harray, hassignable⟩ := hrule.resolve_left (by simp [hany])
    simp [harray, hassignable]

theorem returnProblems_eq_nil {value : Expr} (hvoid : s.method.returnType.isVoid = false)
    (h : Ty.assignable s.table.env s.method.returnType (s.typeOf value) = true) :
    s.returnProblems pos (some value) = [] := by
  simp [returnProblems, hvoid, h]

end Scope

theorem unreachableWarnings_congr {stmts stmts' : List Stmt}
    (h : List.Forall₂ (fun a b ↦ b.pos = a.pos ∧ b.isReturn = a.isReturn) stmts stmts') :
    unreachableWarnings stmts' = unreachableWarnings stmts := by
  induction h with
  | nil => rfl
  | @cons stmt stmt' stmts stmts' hhead htail ih =>
    obtain ⟨-, hreturn⟩ := hhead
    cases hfirst : stmt.isReturn with
    | false =>
      rw [hfirst] at hreturn
      simpa [unreachableWarnings, firstUnreachable, hfirst, hreturn] using ih
    | true =>
      -- Whatever follows the first return is the statement that is warned of.
      rw [hfirst] at hreturn
      cases htail with
      | nil => simp [unreachableWarnings, firstUnreachable, hfirst, hreturn]
      | cons hnext _ => simp [unreachableWarnings, firstUnreachable, hfirst, hreturn, hnext.1]

namespace Scope

variable {s : Scope}

section

variable {stmts stmts' : List Stmt} {gs : List Gap}
  (h : Collects s.SuppressesStmt stmts stmts' gs)
include h

theorem unreachableWarnings_of_suppresses :
    unreachableWarnings stmts' = unreachableWarnings stmts :=
  unreachableWarnings_congr (h.forall₂ fun _ _ _ hs ↦ ⟨hs.pos, hs.isReturn⟩)

theorem stmtsProblems_of_suppresses : s.stmtsProblems stmts' = s.stmtsProblems stmts := by
  induction h with
  | nil => rfl
  | cons hhead _ ih => rw [stmtsProblems, stmtsProblems, hhead.stmtProblems, ih]

theorem exprsProblems_of_suppresses : s.exprsProblems stmts' = gs.map Gap.diagnostic := by
  rw [exprsProblems_eq_flatMap]
  exact h.flatMap_eq fun _ _ _ hs ↦ hs.exprProblems

end

/-- Gaps in an accepted statement are the only faults of its expressions, and the statement itself
has those it had. -/
theorem suppressesStmt_of_gapped {stmt : Stmt} : s.AcceptsStmt stmt →
    ∀ {stmt' gs}, s.GappedStmt stmt stmt' gs → s.SuppressesStmt stmt stmt' gs := by
  induction stmt using Stmt.memberInduct with
  | block pos stmts ih =>
    intro h stmt' gs hg
    cases hg with
    | block _ hstmts =>
      have hparts : Collects s.SuppressesStmt stmts _ gs := hstmts.imp_of_mem
        fun stmt hstmt _ _ hgapped ↦ ih stmt hstmt (acceptsStmt_block.mp h stmt hstmt) hgapped
      refine ⟨rfl, rfl, ?_, exprsProblems_of_suppresses hparts⟩
      rw [stmtProblems, stmtProblems, unreachableWarnings_of_suppresses hparts,
        stmtsProblems_of_suppresses hparts]
  | ifElse pos cond thenBranch elseBranch ihThen ihElse =>
    intro h stmt' gs hg
    obtain ⟨hcond, hty, hthen, helse⟩ := acceptsStmt_ifElse.mp h
    cases hg with
    | ifElse _ hgc hgt hge =>
      -- The condition is blurred at most, so it is still one.
      have hc := suppresses_of_gapped hcond hgc
      have ht := ihThen hthen hgt
      have he := ihElse helse hge
      refine ⟨rfl, rfl, ?_, ?_⟩
      · rw [stmtProblems, stmtProblems, ht.stmtProblems, he.stmtProblems,
          conditionProblems_eq_nil hty, conditionProblems_eq_nil (hc.blursTo.accepts hty)]
      · rw [exprProblems, hc.problems, ht.exprProblems, he.exprProblems, List.map_append,
          List.map_append]
  | whileLoop pos cond body ihBody =>
    intro h stmt' gs hg
    obtain ⟨hcond, hty, hbody⟩ := acceptsStmt_whileLoop.mp h
    cases hg with
    | whileLoop _ hgc hgb =>
      have hc := suppresses_of_gapped hcond hgc
      have hb := ihBody hbody hgb
      refine ⟨rfl, rfl, ?_, ?_⟩
      · rw [stmtProblems, stmtProblems, hb.stmtProblems, conditionProblems_eq_nil hty,
          conditionProblems_eq_nil (hc.blursTo.accepts hty)]
      · rw [exprProblems, hc.problems, hb.exprProblems, List.map_append]
  | eval pos expr =>
    intro h stmt' gs hg
    cases hg with
    | eval _ he =>
      exact ⟨rfl, rfl, rfl, (suppresses_of_gapped (acceptsStmt_eval.mp h) he).problems⟩
  | assign pos target value =>
    intro h stmt' gs hg
    obtain ⟨hvalue, htarget, hty⟩ := acceptsStmt_assign.mp h
    cases hg with
    | assign _ _ hgv =>
      have hv := suppresses_of_gapped hvalue hgv
      refine ⟨rfl, rfl, ?_, ?_⟩
      · rw [stmtProblems, stmtProblems, assignProblems, assignProblems, hty,
          hv.blursTo.assignable hty]
        rfl
      · rw [exprProblems, hv.problems, targetProblems_eq_nil htarget, List.append_nil]
  | store pos target index value =>
    intro h stmt' gs hg
    obtain ⟨htarget, hindex, hvalue, hint, hrule⟩ := acceptsStmt_store.mp h
    cases hg with
    | store _ _ hgi hgv =>
      have hi := suppresses_of_gapped hindex hgi
      have hv := suppresses_of_gapped hvalue hgv
      refine ⟨rfl, rfl, ?_, ?_⟩
      · rw [stmtProblems, stmtProblems, storeProblems_eq_nil hint hrule,
          storeProblems_eq_nil (hi.blursTo.accepts hint)
            (hrule.imp_right fun h ↦ ⟨h.1, hv.blursTo.assignable h.2⟩)]
      · rw [exprProblems, targetProblems_eq_nil htarget, hi.problems, hv.problems,
          List.map_append]
        rfl
  | ret pos value =>
    intro h stmt' gs hg
    cases hg with
    | retVoid => exact ⟨rfl, rfl, rfl, rfl⟩
    | ret _ hgv =>
      obtain ⟨hvalue, hvoid, hty⟩ := acceptsStmt_ret_some.mp h
      have hv := suppresses_of_gapped hvalue hgv
      refine ⟨rfl, rfl, ?_, hv.problems⟩
      rw [stmtProblems, stmtProblems, returnProblems_eq_nil hvoid hty,
        returnProblems_eq_nil hvoid (hv.blursTo.assignable hty)]

theorem gappedStmt_refl (s : Scope) (stmt : Stmt) : s.GappedStmt stmt stmt [] := by
  induction stmt using Stmt.memberInduct with
  | block pos stmts ih => exact .block pos (.refl ih)
  | ifElse pos cond thenBranch elseBranch ihThen ihElse =>
    exact .ifElse pos (s.gapped_refl cond) ihThen ihElse
  | whileLoop pos cond body ihBody => exact .whileLoop pos (s.gapped_refl cond) ihBody
  | eval pos expr => exact .eval pos (s.gapped_refl expr)
  | assign pos target value => exact .assign pos target (s.gapped_refl value)
  | store pos target index value =>
    exact .store pos target (s.gapped_refl index) (s.gapped_refl value)
  | ret pos value =>
    cases value with
    | none => exact .retVoid pos
    | some value => exact .ret pos (s.gapped_refl value)

/-- A body with gaps has the faults it had, all of them warnings, and then those of the gaps. -/
theorem bodyProblems_of_gapped {body body' : List Stmt} {gs : List Gap}
    (haccepts : ∀ stmt ∈ body, s.AcceptsStmt stmt) (h : Collects s.GappedStmt body body' gs) :
    s.bodyProblems body' = s.bodyProblems body ++ gs.map Gap.diagnostic := by
  have hparts : Collects s.SuppressesStmt body body' gs := h.imp_of_mem
    fun stmt hstmt _ _ hgapped ↦ suppressesStmt_of_gapped (haccepts stmt hstmt) hgapped
  -- The body is itself one without gaps, so its expressions have no faults at all.
  have hsame : Collects s.SuppressesStmt body body [] :=
    .refl fun stmt hstmt ↦ suppressesStmt_of_gapped (haccepts stmt hstmt) (s.gappedStmt_refl stmt)
  rw [bodyProblems, bodyProblems, unreachableWarnings_of_suppresses hparts,
    stmtsProblems_of_suppresses hparts, exprsProblems_of_suppresses hparts,
    exprsProblems_of_suppresses hsame, List.map_nil, List.append_nil]

end Scope

/-! ## Reports -/

namespace Diagnostic

/-- Sorting puts a diagnostic found first before all those that are not ahead of it. -/
theorem sort_cons (d : Diagnostic) (ds : List Diagnostic) :
    sort ds = (sort ds).filter (fun e ↦ !d.pos.le e.pos) ++
        (sort ds).filter (fun e ↦ d.pos.le e.pos) ∧
      sort (d :: ds) = (sort ds).filter (fun e ↦ !d.pos.le e.pos) ++
        d :: (sort ds).filter (fun e ↦ d.pos.le e.pos) := by
  have htrans : ∀ a b c : Diagnostic, a.pos.le b.pos = true → b.pos.le c.pos = true →
      a.pos.le c.pos = true := fun a b c ↦ Position.le_trans
  have htotal : ∀ a b : Diagnostic, (a.pos.le b.pos || b.pos.le a.pos) = true :=
    fun a b ↦ Position.le_total a.pos b.pos
  obtain ⟨ahead, behind, hcons, hds, hahead⟩ := List.mergeSort_cons htrans htotal d ds
  have hbehind : ∀ e ∈ behind, d.pos.le e.pos = true := by
    have hsorted := List.pairwise_mergeSort htrans htotal (d :: ds)
    rw [hcons] at hsorted
    exact fun e he ↦ List.rel_of_pairwise_cons (List.pairwise_append.mp hsorted).2.1 he
  have hfilter : (sort ds).filter (fun e ↦ !d.pos.le e.pos) = ahead := by
    rw [sort, hds, List.filter_append, List.filter_eq_self.mpr hahead,
      List.filter_eq_nil_iff.mpr fun e he ↦ by simp [hbehind e he], List.append_nil]
  have hfilter' : (sort ds).filter (fun e ↦ d.pos.le e.pos) = behind := by
    rw [sort, hds, List.filter_append, List.filter_eq_self.mpr hbehind,
      List.filter_eq_nil_iff.mpr fun e he ↦ by simpa using hahead e he, List.nil_append]
  rw [hfilter, hfilter']
  exact ⟨hds, hcons⟩

/-- Sorting is stable, so it makes no difference whether some diagnostics are dropped before or
after it. -/
theorem filter_sort (keep : Diagnostic → Bool) (ds : List Diagnostic) :
    (sort ds).filter keep = sort (ds.filter keep) := by
  induction ds with
  | nil => simp [sort]
  | cons d ds ih =>
    obtain ⟨hdropped, hkept⟩ := sort_cons d (ds.filter keep)
    have hcomm : ∀ q : Diagnostic → Bool,
        ((sort ds).filter q).filter keep = (sort (ds.filter keep)).filter q :=
      fun q ↦ by rw [List.filter_comm, ih]
    -- Both lists divide at the place of `d`, which is then dropped from both or from neither.
    rw [(sort_cons d ds).2, List.filter_append, List.filter_cons, List.filter_cons, hcomm, hcomm]
    cases keep d with
    | true => exact hkept.symm
    | false => exact hdropped.symm

end Diagnostic

/-- The errors among the diagnostics are those of the gaps, and all others are the warnings. -/
structure Reports (ds : List Diagnostic) (gaps : List Gap) (warnings : List Diagnostic) :
    Prop where
  errors : ds.filter Diagnostic.isError = gaps.map Gap.diagnostic
  warnings : ds.filter (fun d ↦ !d.isError) = warnings

namespace Reports

variable {ds ds' ws ws' : List Diagnostic} {gs gs' : List Gap}

theorem of_clean (h : Clean ds) : Reports ds [] ds :=
  ⟨List.filter_eq_nil_iff.mpr fun d hd ↦ by simp [h d hd],
    List.filter_eq_self.mpr fun d hd ↦ by simp [h d hd]⟩

theorem of_gaps (gs : List Gap) : Reports (gs.map Gap.diagnostic) gs [] :=
  ⟨List.filter_eq_self.mpr (List.forall_mem_map.mpr fun _ _ ↦ rfl),
    List.filter_eq_nil_iff.mpr (List.forall_mem_map.mpr fun _ _ ↦ Bool.false_ne_true)⟩

theorem append (h : Reports ds gs ws) (h' : Reports ds' gs' ws') :
    Reports (ds ++ ds') (gs ++ gs') (ws ++ ws') := by
  constructor
  · rw [List.filter_append, h.errors, h'.errors, List.map_append]
  · rw [List.filter_append, h.warnings, h'.warnings]

theorem sort (h : Reports ds gs ws) :
    (Diagnostic.sort ds).filter Diagnostic.isError = Diagnostic.sort (gs.map Gap.diagnostic) ∧
      (Diagnostic.sort ds).filter (fun d ↦ !d.isError) = Diagnostic.sort ws := by
  rw [Diagnostic.filter_sort, Diagnostic.filter_sort, h.errors, h.warnings]
  exact ⟨rfl, rfl⟩

end Reports

/-! ## Methods and programs -/

theorem MethodDecl.problems_of_gapped {t : Table} {m m' : MethodDecl} {gs : List Gap}
    (haccepts : ∀ stmt ∈ m.body, Scope.AcceptsStmt ⟨t, m.signature⟩ stmt)
    (h : Gapped t m m' gs) : m'.problems t = m.problems t ++ gs.map Gap.diagnostic := by
  obtain ⟨body, rfl, hbody⟩ := h
  rw [problems, problems, List.append_assoc (_ ++ _),
    ← Scope.bodyProblems_of_gapped haccepts hbody]
  rfl

theorem MethodDecl.signatures_of_gapped {t : Table} {ms ms' : List MethodDecl} {gs : List Gap}
    (h : Collects (Gapped t) ms ms' gs) : ms'.map signature = ms.map signature := by
  induction h with
  | nil => rfl
  | cons hhead _ ih =>
    obtain ⟨body, rfl, -⟩ := hhead
    rw [List.map_cons, List.map_cons, ih]
    rfl

namespace Program

variable {p p' : Program} {gaps : List Gap}

theorem reports_methodProblems (htable : p'.table = p.table) {ms ms' : List MethodDecl}
    {gs : List Gap} {seen : List String} (h : Collects (MethodDecl.Gapped p.table) ms ms' gs)
    (haccepts : ∀ m ∈ ms, ∀ stmt ∈ m.body, Scope.AcceptsStmt ⟨p.table, m.signature⟩ stmt)
    (hclean : Clean (methodProblems.go p seen ms)) :
    Reports (methodProblems.go p' seen ms') gs (methodProblems.go p seen ms) := by
  induction h generalizing seen with
  | nil => exact .of_clean hclean
  | @cons m m' ms ms' gs gs' hhead _ ih =>
    obtain ⟨hm, hms⟩ := List.forall_mem_cons.mp haccepts
    have hproblems := MethodDecl.problems_of_gapped hm hhead
    obtain ⟨body, rfl, -⟩ := hhead
    rw [methodProblems.go, Diagnostic.clean_append] at hclean
    obtain ⟨hown, hrest⟩ := hclean
    rw [methodProblems.go, methodProblems.go, htable, hproblems, ← List.append_assoc]
    have hfirst := (Reports.of_clean hown).append (.of_gaps gs)
    rw [List.nil_append, List.append_nil] at hfirst
    exact hfirst.append (ih hms hrest)

/-- Putting names that mean nothing in the place of expressions of an accepted program adds just
the errors that say so, one for each name and where the name stands, and leaves the warnings as
they were. -/
theorem check_of_gapped (haccepted : p.Accepted) (h : p.Gapped p' gaps) :
    Diagnostic.errorCount p'.check = gaps.length ∧
      p'.check.filter Diagnostic.isError = Diagnostic.sort (gaps.map Gap.diagnostic) ∧
      p'.check.filter (fun d ↦ !d.isError) = p.check.filter (fun d ↦ !d.isError) := by
  obtain ⟨methods, rfl, hmethods⟩ := h
  obtain ⟨himports, hfields, hclean⟩ := accepted_iff.mp haccepted
  -- Gaps are in bodies, and what the bodies are checked against is the same as before.
  have htable : Program.table { p with decl := { p.decl with methods := methods } } = p.table := by
    simp only [table, MethodDecl.signatures_of_gapped hmethods]
  have hreports := ((Reports.of_clean himports).append (.of_clean hfields)).append
    (reports_methodProblems htable hmethods (fun m hm _ ↦ haccepted.acceptsStmt hm) hclean)
  obtain ⟨herrors, hwarnings⟩ := hreports.sort
  refine ⟨?_, herrors, hwarnings.trans (Reports.of_clean haccepted).warnings.symm⟩
  rw [Diagnostic.errorCount, List.countP_eq_length_filter]
  refine (congrArg List.length herrors).trans ?_
  rw [Diagnostic.sort, List.length_mergeSort, List.length_map]
  rfl

/-- A unit whose method has an array literal, a call on a receiver and code after its return. -/
def meter (element receiver base : Expr) : Program where
  imports := []
  decl := {
    name := "Meter"
    superclass := none
    fields := []
    methods := [{
      name := "read"
      isPublic := true
      isStatic := false
      returnType := .int
      params := [⟨.int, "n", .origin⟩]
      varargs := none
      locals := [⟨.array .int, "a", .origin⟩]
      body := [
        .assign ⟨1, 1⟩ "a" (.array ⟨1, 5⟩ [element, .lit ⟨1, 9⟩ (.int 2)]),
        .store ⟨2, 1⟩ "a" (.lit ⟨2, 3⟩ (.int 0))
          (.callOn ⟨2, 8⟩ receiver "read"
            [.binary ⟨2, 18⟩ .add (.var ⟨2, 18⟩ "n") (.lit ⟨2, 22⟩ (.int 1))]),
        .ret ⟨3, 1⟩ (some (.index ⟨3, 8⟩ base (.lit ⟨3, 10⟩ (.int 0)))),
        .assign ⟨4, 1⟩ "n" (.lit ⟨4, 5⟩ (.int 1))]
      pos := .origin }]
    pos := .origin }

/-- Three names are unknown: an element, a receiver and an array. Each is reported, and so is the
code after the return. -/
theorem meter_check_of_gapped :
    ∃ p p' : Program, ∃ gaps : List Gap, p = meter (.var ⟨1, 6⟩ "n") (.this ⟨2, 8⟩)
        (.var ⟨3, 8⟩ "a") ∧
      p' = meter (.var ⟨1, 6⟩ "x") (.var ⟨2, 8⟩ "y") (.var ⟨3, 8⟩ "z") ∧
      gaps = [⟨⟨1, 6⟩, "x"⟩, ⟨⟨2, 8⟩, "y"⟩, ⟨⟨3, 8⟩, "z"⟩] ∧
      p.Accepted ∧ p.Gapped p' gaps ∧
      Diagnostic.errorCount p'.check = 3 ∧
      p'.check.filter Diagnostic.isError = Diagnostic.sort (gaps.map Gap.diagnostic) ∧
      p'.check.filter (fun d ↦ !d.isError) = p.check.filter (fun d ↦ !d.isError) := by
  have haccepted : (meter (.var ⟨1, 6⟩ "n") (.this ⟨2, 8⟩) (.var ⟨3, 8⟩ "a")).Accepted :=
    accepted_iff.mpr (by decide)
  obtain ⟨gaps, hgapped, hgaps⟩ : ∃ gaps,
      Gapped (meter (.var ⟨1, 6⟩ "n") (.this ⟨2, 8⟩) (.var ⟨3, 8⟩ "a"))
        (meter (.var ⟨1, 6⟩ "x") (.var ⟨2, 8⟩ "y") (.var ⟨3, 8⟩ "z")) gaps ∧
      gaps = [⟨⟨1, 6⟩, "x"⟩, ⟨⟨2, 8⟩, "y"⟩, ⟨⟨3, 8⟩, "z"⟩] :=
    ⟨_, ⟨_, rfl, .cons ⟨_, rfl,
      .cons (.assign _ _ (.array _
        (.cons (.gap (.var ⟨1, 6⟩ "n") ⟨rfl, rfl, rfl, rfl⟩) (.cons (.lit _ _) .nil))))
      (.cons (.store _ _ (.lit _ _) (.callOn _ _ (.gap (.this ⟨2, 8⟩) ⟨rfl, rfl, rfl, rfl⟩)
        (.cons (.binary _ _ (.var _ _) (.lit _ _)) .nil)))
      (.cons (.ret _ (.index _ (.gap (.var ⟨3, 8⟩ "a") ⟨rfl, rfl, rfl, rfl⟩) (.lit _ _)))
      (.cons (.assign _ _ (.lit _ _)) .nil)))⟩ .nil⟩, rfl⟩
  obtain ⟨hcount, herrors, hwarnings⟩ := check_of_gapped haccepted hgapped
  refine ⟨_, _, gaps, rfl, rfl, hgaps, haccepted, hgapped, ?_, herrors, hwarnings⟩
  rw [hcount, hgaps]
  rfl

end Program

end Tricode
