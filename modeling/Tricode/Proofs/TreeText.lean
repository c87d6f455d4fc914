import Tricode.Proofs.JsonText
import Tricode.Proofs.Trees
import Tricode.Syntax.Decode
import Tricode.Syntax.Encode

/-!
# Reading written trees

A class tree is found again in the JSON it was written as, and in the text of that JSON, if the
JSON does not nest too deep: `Program.ofText_toText`.

A function that finds a value in JSON is given the levels it may still enter. `Json.Decodes` says
exactly how many it takes for a written value, namely the depth of the JSON: with fewer there is no
answer. There is one such law for each way to put JSON together, by which the levels of the parts
give those of the whole. What a tree adds is only the list of its fields.
-/

namespace Tricode

namespace Json

/-! ## Levels -/

/-- What is found when `depth` levels are entered for it, while some levels are left. -/
def within {α : Type} (depth levels : Nat) (found : Option α) : Option α :=
  if depth ≤ levels then found else none

section

variable {α β : Type} {d e levels : Nat} {found : Option α}

@[simp] theorem within_zero : within 0 levels found = found := if_pos (Nat.zero_le _)

@[simp] theorem within_succ_zero : within (d + 1) 0 found = none := if_neg (Nat.not_succ_le_zero d)

@[simp] theorem within_succ : within (d + 1) (levels + 1) found = within d levels found := by
  simp only [within, Nat.add_le_add_iff_right]

@[simp] theorem within_map (f : α → β) :
    (within d levels found).map f = within d levels (found.map f) := by
  unfold within
  split <;> rfl

@[simp] theorem within_bind (f : α → Option β) :
    (within d levels found).bind f = within d levels (found.bind f) := by
  unfold within
  split <;> rfl

@[simp] theorem within_within :
    within d levels (within e levels found) = within (max d e) levels found := by
  simp only [within, Nat.max_le, ite_and]

end

/-- The function finds the value in the JSON just when the levels suffice for it. -/
def Decodes {α : Type} (decode : Nat → Json → Option α) (j : Json) (a : α) : Prop :=
  ∀ levels, decode levels j = within j.depth levels (some a)

section

variable {α : Type} {decode : Nat → Json → Option α} {a : α}

theorem decodes_of_succ {j : Json} {d : Nat} (hdepth : j.depth = d + 1)
    (hzero : decode 0 j = none)
    (hsucc : ∀ levels, decode (levels + 1) j = within d levels (some a)) : Decodes decode j a := by
  intro levels
  cases levels with
  | zero => rw [hdepth, hzero, within_succ_zero]
  | succ levels => rw [hdepth, hsucc, within_succ]

end

/-! ## Records -/

/-- How deep the fields of a record nest. -/
@[simp] def Fields.depth : Fields → Nat
  | [] => 0
  | (_, j) :: fields => max j.depth (depth fields)

theorem ofMembers_eq (fields : Fields) :
    ofMembers fields = obj (fields.map fun f ↦ (some f.1, f.2)) := rfl

theorem depth_ofMembers (fields : Fields) : (ofMembers fields).depth = fields.depth + 1 := by
  have hmembers : ∀ fields : Fields,
      depthMembers (fields.map fun f ↦ (some f.1, f.2)) = fields.depth := by
    intro fields
    induction fields with
    | nil => rfl
    | cons f fields ih => rw [List.map_cons, depthMembers, ih, Fields.depth]
  rw [ofMembers_eq, depth, hmembers]

theorem record_obj (names : List String) (least : Nat) (members : List (Option String × Json)) :
    record names least (obj members) =
      (members.mapM fun m : Option String × Json ↦ m.1.map (·, m.2)).bind fun named ↦
        if ((named.filter fun f ↦ names.contains f.1).map Prod.fst).Nodup then
          some (named.filter fun f ↦ names.contains f.1)
        else none := rfl

theorem record_ofMembers {names : List String} {fields : Fields} (least : Nat)
    (hnames : fields.map Prod.fst = names) (hnodup : names.Nodup) :
    record names least (ofMembers fields) = some fields := by
  have hnamed : ∀ fields : Fields,
      (fields.map fun f ↦ (some f.1, f.2)).mapM (fun m : Option String × Json ↦
        m.1.map (·, m.2)) = some fields := by
    intro fields
    induction fields with
    | nil => rfl
    | cons f fields ih =>
      rw [List.map_cons, List.mapM_cons, ih]
      rfl
  have hknown : fields.filter (fun f ↦ names.contains f.1) = fields := by
    refine List.filter_eq_self.mpr fun f hf ↦ List.contains_iff_mem.mpr ?_
    exact hnames ▸ List.mem_map_of_mem hf
  rw [ofMembers_eq, record_obj, hnamed, Option.bind_some, hknown]
  exact if_pos (hnames ▸ hnodup)

/-- What is found in a field that may be `null`. -/
def nullable {α : Type} (decode : Json → Option α) : Json → Option (Option α)
  | null => some none
  | j => (decode j).map some

section

variable {α : Type} {decode : Json → Option α}

@[simp] theorem nullable_null : nullable decode null = some none := rfl

theorem nullable_of_ne_null (decode : Json → Option α) {j : Json} (h : j ≠ null) :
    nullable decode j = (decode j).map some := by
  cases j with
  | null => exact absurd rfl h
  | _ => rfl

/-- A field that is written as `null` when its value is absent. -/
theorem nullable_option {f : α → Json} {o : Option α} {levels : Nat} (hnull : ∀ a, f a ≠ null)
    (h : ∀ a ∈ o, decode (f a) = within (f a).depth levels (some a)) :
    nullable decode (option f o) = within (option f o).depth levels (some o) := by
  cases o with
  | none => exact nullable_null.trans within_zero.symm
  | some a =>
    refine (nullable_of_ne_null decode (hnull a)).trans ?_
    rw [h a rfl, within_map]
    rfl

end

namespace Fields

variable {α : Type} {fields : Fields} {name other : String} {j : Json} {decode : Json → Option α}
  {absent : α}

-- Names are compared in the result and not in the pattern: to see that two of them do not match
-- is slow.
@[simp] theorem get_cons : get ((other, j) :: fields) name decode =
    bif name == other then decode j else fields.get name decode := by
  rw [get, List.lookup_cons, get]
  cases name == other <;> rfl

@[simp] theorem getD_cons : getD ((other, j) :: fields) name absent decode =
    bif name == other then decode j else fields.getD name absent decode := by
  rw [getD, List.lookup_cons, getD]
  cases name == other <;> rfl

@[simp] theorem get?_cons : get? ((other, j) :: fields) name decode =
    bif name == other then nullable decode j else fields.get? name decode := by
  rw [get?, List.lookup_cons, get?]
  cases name == other with
  | false => rfl
  | true => cases j <;> rfl

end Fields

section

variable {α : Type} {decode : Nat → Json → Option α} {a : α}

/-- A record is found if each of its fields is, with one level less. -/
theorem decodes_record {names : List String} {least : Nat} {body : Nat → Fields → Option α}
    {fields : Fields} (hzero : ∀ j, decode 0 j = none)
    (hsucc : ∀ levels j, decode (levels + 1) j = (record names least j).bind (body levels))
    (hnames : fields.map Prod.fst = names) (hnodup : names.Nodup)
    (hfields : ∀ levels, body levels fields = within fields.depth levels (some a)) :
    Decodes decode (ofMembers fields) a := by
  refine decodes_of_succ (depth_ofMembers fields) (hzero _) fun levels ↦ ?_
  rw [hsucc, record_ofMembers least hnames hnodup, Option.bind_some, hfields]

/-- A variant is found if its payload is, with one level less. -/
theorem decodes_tagged (decodeBody : Nat → Json → Option α) {tag : String} {body : Json}
    (hbody : Decodes decodeBody body a) (hzero : decode 0 (tagged tag body) = none)
    (hsucc : ∀ levels, decode (levels + 1) (tagged tag body) = decodeBody levels body) :
    Decodes decode (tagged tag body) a := by
  refine decodes_of_succ (depth_ofMembers [(tag, body)]) hzero fun levels ↦ ?_
  rw [hsucc, hbody levels, Fields.depth, Fields.depth, Nat.max_zero]

theorem Decodes.map {β : Type} {j : Json} (h : Decodes decode j a) (f : α → β) :
    Decodes (fun levels j ↦ (decode levels j).map f) j (f a) := by
  intro levels
  simp only [h levels, within_map, Option.map_some]

/-! ## Scalars -/

@[simp] theorem depth_null : null.depth = 0 := rfl

@[simp] theorem depth_str (s : String) : (str s).depth = 0 := rfl

@[simp] theorem depth_bool (b : Bool) : (bool b).depth = 0 := rfl

@[simp] theorem depth_int (n : Int) : (int n).depth = 0 := rfl

@[simp] theorem depth_nat (n : Nat) : (nat n).depth = 0 := rfl

@[simp] theorem str?_str (s : String) : (str s).str? = some s := rfl

@[simp] theorem bool?_bool (b : Bool) : (bool b).bool? = some b := rfl

@[simp] theorem uint32?_nat (n : UInt32) : (nat n.toNat).uint32? = some n := by
  have h := n.toNat_lt
  rw [nat, uint32?, if_pos (by omega), Int.toNat_natCast, UInt32.ofNat_toNat]

@[simp] theorem int32?_int (n : Int32) : (int n.toInt).int32? = some n := by
  have hle := n.le_toInt
  have hlt := n.toInt_lt
  rw [int32?, if_pos (by omega), Int32.ofInt_toInt]

theorem decodes_scalar {decode : Json → Option α} {j : Json} (hdepth : j.depth = 0)
    (h : decode j = some a) : Decodes (fun _ ↦ decode) j a := by
  intro levels
  simp only [h, hdepth, within_zero]

/-! ## Lists and optional fields -/

theorem mapM_map {f : α → Json} {as : List α} (h : ∀ a ∈ as, Decodes decode (f a) a)
    (levels : Nat) :
    (as.map f).mapM (decode levels) = within (depthItems (as.map f)) levels (some as) := by
  induction as with
  | nil => simp [depthItems]
  | cons a as ih =>
    obtain ⟨ha, has⟩ := List.forall_mem_cons.mp h
    simp [List.mapM_cons, ha levels, ih has, depthItems]

theorem decodes_list {f : α → Json} {as : List α} (h : ∀ a ∈ as, Decodes decode (f a) a) :
    Decodes (listAt decode) (Json.list f as) as :=
  decodes_of_succ rfl rfl (mapM_map h)

end

end Json

open Json (Decodes within)

/-! ## Positions, operators and types -/

namespace Position

theorem decodes_toJson (p : Position) : Decodes ofJson p.toJson p := by
  refine Json.decodes_record (fun _ ↦ rfl) (fun _ _ ↦ rfl) rfl (by decide) fun levels ↦ ?_
  simp

@[simp] theorem ofJson_toJson (p : Position) (levels : Nat) :
    ofJson levels p.toJson = within p.toJson.depth levels (some p) :=
  p.decodes_toJson levels

@[simp] theorem ofFields_cons {fields : Json.Fields} {levels : Nat} {name : String} {j : Json} :
    ofFields levels ((name, j) :: fields) =
      bif "span" == name then ofJson levels j else ofFields levels fields := by
  rw [ofFields, Json.Fields.getD_cons, ofFields]

end Position

theorem BinOp.decodes_toJson (op : BinOp) : Decodes ofJson op.toJson op := by
  intro levels
  cases op <;> cases levels <;> rfl

theorem TypeExpr.decodes_toJson (t : TypeExpr) : Decodes ofJson t.toJson t := by
  induction t with
  | int | boolean | void | string =>
    intro levels
    cases levels <;> rfl
  | array elem ih => exact Json.decodes_tagged _ (ih.map array) rfl fun _ ↦ rfl
  | named name =>
    have hname := Json.decodes_scalar (Json.depth_str name) (Json.str?_str name)
    exact Json.decodes_tagged _ (hname.map named) rfl fun _ ↦ rfl

/-! ## Expressions -/

namespace Expr

variable {pos : Position}

theorem toJsonAll_eq_map (es : List Expr) : toJsonAll es = es.map toJson := by
  induction es with
  | nil => rfl
  | cons e es ih => rw [toJsonAll, ih, List.map_cons]

theorem decodes_list {es : List Expr} (h : ∀ e ∈ es, Decodes ofJson e.toJson e) :
    Decodes listOfJson (.arr (toJsonAll es)) es := by
  rw [toJsonAll_eq_map]
  exact Json.decodes_of_succ rfl rfl (Json.mapM_map h)

theorem decodes_node {form : Json} {e : Expr}
    (h : Decodes (fun levels ↦ ofForm levels pos) form e) :
    Decodes ofJson (nodeJson pos form) e := by
  refine Json.decodes_record (fun _ ↦ rfl) (fun _ _ ↦ rfl) rfl (by decide) fun levels ↦ ?_
  have hform : ofForm levels pos form = within form.depth levels (some e) := h levels
  simp [hform, max_comm]

theorem decodes_tagged (decode : Nat → Json → Option Expr) {tag : String} {body : Json} {e : Expr}
    (hbody : Decodes decode body e)
    (hform : ∀ levels, ofForm (levels + 1) pos (Json.tagged tag body) = decode levels body) :
    Decodes ofJson (nodeJson pos (Json.tagged tag body)) e :=
  decodes_node (Json.decodes_tagged decode hbody rfl hform)

theorem toJson_ne_null (e : Expr) : e.toJson ≠ .null := by
  cases e <;> intro h <;> cases h

theorem decodes_toJson (e : Expr) : Decodes ofJson e.toJson e := by
  induction e using Expr.memberInduct with
  | lit pos value =>
    cases value with
    | int n =>
      have hn := Json.decodes_scalar (Json.depth_int n.toInt) (Json.int32?_int n)
      exact decodes_tagged _ (hn.map fun n ↦ lit pos (.int n)) fun _ ↦ rfl
    | bool b =>
      have hb := Json.decodes_scalar (Json.depth_bool b) (Json.bool?_bool b)
      exact decodes_tagged _ (hb.map fun b ↦ lit pos (.bool b)) fun _ ↦ rfl
  | this pos =>
    refine decodes_node fun levels ↦ ?_
    cases levels <;> rfl
  | var pos name =>
    have hname := Json.decodes_scalar (Json.depth_str name) (Json.str?_str name)
    exact decodes_tagged _ (hname.map (var pos)) fun _ ↦ rfl
  | not pos operand ih => exact decodes_tagged _ (ih.map (not pos)) fun _ ↦ rfl
  | binary pos op lhs rhs ihl ihr =>
    refine decodes_tagged (fun levels ↦ ofBinary levels pos) ?_ fun _ ↦ rfl
    refine Json.decodes_record (fun _ ↦ rfl) (fun _ _ ↦ rfl) rfl (by decide) fun levels ↦ ?_
    have hop := op.decodes_toJson levels
    simp [hop, ihl levels, ihr levels]
  | index pos base idx ihb ihi =>
    refine decodes_tagged (fun levels ↦ ofIndex levels pos) ?_ fun _ ↦ rfl
    refine Json.decodes_record (fun _ ↦ rfl) (fun _ _ ↦ rfl) rfl (by decide) fun levels ↦ ?_
    simp [ihb levels, ihi levels]
  | array pos elements ih => exact decodes_tagged _ ((decodes_list ih).map (array pos)) fun _ ↦ rfl
  | newArray pos elem size ih =>
    refine decodes_tagged (fun levels ↦ ofNewArray levels pos) ?_ fun _ ↦ rfl
    refine Json.decodes_record (fun _ ↦ rfl) (fun _ _ ↦ rfl) rfl (by decide) fun levels ↦ ?_
    have helem := elem.decodes_toJson levels
    simp [helem, ih levels]
  | newObject pos className =>
    have hname := Json.decodes_scalar (Json.depth_str className) (Json.str?_str className)
    exact decodes_tagged _ (hname.map (newObject pos)) fun _ ↦ rfl
  | length pos base ih => exact decodes_tagged _ (ih.map (length pos)) fun _ ↦ rfl
  | call pos method args ih =>
    refine decodes_tagged (fun levels ↦ ofCall levels pos) ?_ fun _ ↦ rfl
    refine Json.decodes_record (fun _ ↦ rfl) (fun _ _ ↦ rfl) rfl (by decide) fun levels ↦ ?_
    have hargs := decodes_list ih levels
    simp [hargs]
  | callOn pos receiver method args ihr ih =>
    refine decodes_tagged (fun levels ↦ ofCall levels pos) ?_ fun _ ↦ rfl
    refine Json.decodes_record (fun _ ↦ rfl) (fun _ _ ↦ rfl) rfl (by decide) fun levels ↦ ?_
    have hargs := decodes_list ih levels
    -- No receiver is written as `null`, which stands for a call without one.
    have hreceiver := fun decode : Json → Option Expr ↦
      Json.nullable_of_ne_null decode receiver.toJson_ne_null
    simp [hargs, hreceiver, ihr levels]

end Expr

/-! ## Statements -/

namespace Stmt

variable {pos : Position}

theorem toJsonAll_eq_map (stmts : List Stmt) : toJsonAll stmts = stmts.map toJson := by
  induction stmts with
  | nil => rfl
  | cons stmt stmts ih => rw [toJsonAll, ih, List.map_cons]

theorem decodes_list {stmts : List Stmt} (h : ∀ stmt ∈ stmts, Decodes ofJson stmt.toJson stmt) :
    Decodes listOfJson (.arr (toJsonAll stmts)) stmts := by
  rw [toJsonAll_eq_map]
  exact Json.decodes_of_succ rfl rfl (Json.mapM_map h)

theorem decodes_toJson (stmt : Stmt) : Decodes ofJson stmt.toJson stmt := by
  induction stmt using Stmt.memberInduct with
  | block pos stmts ih =>
    refine Json.decodes_tagged ofBlock ?_ rfl fun _ ↦ rfl
    refine Json.decodes_record (fun _ ↦ rfl) (fun _ _ ↦ rfl) rfl (by decide) fun levels ↦ ?_
    have hstmts := decodes_list ih levels
    simp [hstmts]
  | ifElse pos cond thenBranch elseBranch iht ihe =>
    refine Json.decodes_tagged ofIf ?_ rfl fun _ ↦ rfl
    refine Json.decodes_record (fun _ ↦ rfl) (fun _ _ ↦ rfl) rfl (by decide) fun levels ↦ ?_
    have hcond := cond.decodes_toJson levels
    simp [hcond, iht levels, ihe levels]
  | whileLoop pos cond body ih =>
    refine Json.decodes_tagged ofWhile ?_ rfl fun _ ↦ rfl
    refine Json.decodes_record (fun _ ↦ rfl) (fun _ _ ↦ rfl) rfl (by decide) fun levels ↦ ?_
    have hcond := cond.decodes_toJson levels
    simp [hcond, ih levels]
  | eval pos expr =>
    refine Json.decodes_tagged ofEval ?_ rfl fun _ ↦ rfl
    refine Json.decodes_record (fun _ ↦ rfl) (fun _ _ ↦ rfl) rfl (by decide) fun levels ↦ ?_
    have hexpr := expr.decodes_toJson levels
    simp [hexpr]
  | assign pos target value =>
    refine Json.decodes_tagged ofAssign ?_ rfl fun _ ↦ rfl
    refine Json.decodes_record (fun _ ↦ rfl) (fun _ _ ↦ rfl) rfl (by decide) fun levels ↦ ?_
    have hvalue := value.decodes_toJson levels
    simp [hvalue]
  | store pos target index value =>
    refine Json.decodes_tagged ofStore ?_ rfl fun _ ↦ rfl
    refine Json.decodes_record (fun _ ↦ rfl) (fun _ _ ↦ rfl) rfl (by decide) fun levels ↦ ?_
    have hindex := index.decodes_toJson levels
    have hvalue := value.decodes_toJson levels
    simp [hindex, hvalue]
  | ret pos value =>
    refine Json.decodes_tagged ofReturn ?_ rfl fun _ ↦ rfl
    refine Json.decodes_record (fun _ ↦ rfl) (fun _ _ ↦ rfl) rfl (by decide) fun levels ↦ ?_
    -- A return without a value is written with `null`, and no expression is.
    have hvalue := Json.nullable_option Expr.toJson_ne_null
      fun e (_ : e ∈ value) ↦ e.decodes_toJson levels
    simp [hvalue]

end Stmt

/-! ## Declarations -/

theorem VarDecl.decodes_toJson (d : VarDecl) : Decodes ofJson d.toJson d := by
  refine Json.decodes_record (fun _ ↦ rfl) (fun _ _ ↦ rfl) rfl (by decide) fun levels ↦ ?_
  have hty := d.ty.decodes_toJson levels
  simp [hty]

theorem VarDecl.toJson_ne_null (d : VarDecl) : d.toJson ≠ .null := by
  intro h
  cases h

theorem Import.decodes_toJson (i : Import) : Decodes ofJson i.toJson i := by
  refine Json.decodes_record (fun _ ↦ rfl) (fun _ _ ↦ rfl) rfl (by decide) fun levels ↦ ?_
  have hpath := Json.decodes_list fun segment (_ : segment ∈ i.path) ↦
    Json.decodes_scalar (Json.depth_str segment) (Json.str?_str segment)
  simp [hpath levels]

theorem VarDecl.decodes_list (ds : List VarDecl) :
    Decodes (Json.listAt ofJson) (Json.list toJson ds) ds :=
  Json.decodes_list fun d _ ↦ d.decodes_toJson

theorem MethodDecl.decodes_toJson (m : MethodDecl) : Decodes ofJson m.toJson m := by
  refine Json.decodes_record (fun _ ↦ rfl) (fun _ _ ↦ rfl) rfl (by decide) fun levels ↦ ?_
  have hbody := Stmt.decodes_list fun stmt (_ : stmt ∈ m.body) ↦ stmt.decodes_toJson
  have hreturn := m.returnType.decodes_toJson levels
  have hvars := fun ds ↦ VarDecl.decodes_list ds levels
  have hvarargs := Json.nullable_option VarDecl.toJson_ne_null
    fun d (_ : d ∈ m.varargs) ↦ d.decodes_toJson levels
  simp only [Json.Fields.get_cons, Json.Fields.getD_cons, Json.Fields.get?_cons,
    Position.ofFields_cons, Position.ofJson_toJson, String.reduceBEq, BEq.rfl, cond_false,
    cond_true, Json.str?_str, Json.bool?_bool, hreturn, hvars, hvarargs, hbody levels,
    Option.pure_def, Option.bind_eq_bind, Option.bind_some, Json.within_bind, Json.within_within]
  simp only [Json.Fields.depth, Json.depth_str, Json.depth_bool, Nat.max_zero, Nat.zero_max]

theorem ClassDecl.decodes_toJson (c : ClassDecl) : Decodes ofJson c.toJson c := by
  refine Json.decodes_record (fun _ ↦ rfl) (fun _ _ ↦ rfl) rfl (by decide) fun levels ↦ ?_
  have hsuper := fun name (_ : name ∈ c.superclass) ↦
    Json.decodes_scalar (Json.depth_str name) (Json.str?_str name) levels
  have hmethods := Json.decodes_list fun m (_ : m ∈ c.methods) ↦ m.decodes_toJson
  have hoption := Json.nullable_option (f := Json.str) (fun _ ↦ Json.noConfusion) hsuper
  have hvars := VarDecl.decodes_list c.fields levels
  simp [hoption, hvars, hmethods levels]

theorem Program.decodes_toJson (p : Program) : Decodes ofJson p.toJson p := by
  refine Json.decodes_record (fun _ ↦ rfl) (fun _ _ ↦ rfl) rfl (by decide) fun levels ↦ ?_
  have himports := Json.decodes_list fun i (_ : i ∈ p.imports) ↦ i.decodes_toJson
  have hdecl := p.decl.decodes_toJson levels
  simp [himports levels, hdecl]

/-! ## Texts -/

namespace Json

attribute [simp] Integral.null Integral.bool Integral.int Integral.str

@[simp] theorem integral_nat (n : Nat) : Integral (nat n) := .int n

@[simp] theorem integral_arr {js : List Json} : Integral (arr js) ↔ ∀ j ∈ js, Integral j := by
  constructor
  · intro h
    cases h with
    | arr h => exact h
  · exact .arr

@[simp] theorem integral_ofMembers {fields : Fields} :
    Integral (ofMembers fields) ↔ ∀ field ∈ fields, Integral field.2 := by
  constructor
  · intro h field hfield
    cases h with
    | obj h => exact h _ (List.mem_map_of_mem hfield)
  · intro h
    refine .obj fun m hm ↦ ?_
    obtain ⟨field, hfield, rfl⟩ := List.mem_map.mp hm
    exact h field hfield

@[simp] theorem integral_tagged {tag : String} {body : Json} :
    Integral (tagged tag body) ↔ Integral body := by
  simp [tagged]

theorem integral_option {α : Type} {f : α → Json} (h : ∀ a, Integral (f a)) (o : Option α) :
    Integral (option f o) := by
  cases o with
  | none => exact .null
  | some a => exact h a

end Json

open Json (Integral)

@[simp] theorem Position.integral_toJson (p : Position) : Integral p.toJson := by
  simp [toJson]

@[simp] theorem BinOp.integral_toJson (op : BinOp) : Integral op.toJson := .str op.tag

@[simp] theorem TypeExpr.integral_toJson (t : TypeExpr) : Integral t.toJson := by
  induction t with
  | array elem ih => simp [toJson, ih]
  | _ => simp [toJson]

@[simp] theorem Literal.integral_toJson (value : Literal) : Integral value.toJson := by
  cases value <;> simp [toJson]

@[simp] theorem Expr.integral_toJson (e : Expr) : Integral e.toJson := by
  induction e using Expr.memberInduct with
  | lit | this | var | newObject => simp [toJson, nodeJson]
  | not pos operand ih | newArray pos elem operand ih | length pos operand ih =>
    simp [toJson, nodeJson, ih]
  | binary pos op e₁ e₂ ih₁ ih₂ | index pos e₁ e₂ ih₁ ih₂ => simp [toJson, nodeJson, ih₁, ih₂]
  | array pos elements ih => simpa [toJson, nodeJson, toJsonAll_eq_map] using ih
  | call pos method args ih => simpa [toJson, nodeJson, callJson, toJsonAll_eq_map] using ih
  | callOn pos receiver method args ihr ih =>
    simpa [toJson, nodeJson, callJson, toJsonAll_eq_map, ihr] using ih

@[simp] theorem Stmt.integral_toJson (stmt : Stmt) : Integral stmt.toJson := by
  induction stmt using Stmt.memberInduct with
  | block pos stmts ih => simpa [toJson, nodeJson, toJsonAll_eq_map] using ih
  | ifElse pos cond thenBranch elseBranch iht ihe => simp [toJson, nodeJson, iht, ihe]
  | whileLoop pos cond body ih => simp [toJson, nodeJson, ih]
  | eval | assign | store => simp [toJson, nodeJson]
  | ret pos value => simp [toJson, nodeJson, Json.integral_option Expr.integral_toJson]

@[simp] theorem VarDecl.integral_toJson (d : VarDecl) : Integral d.toJson := by
  simp [toJson]

@[simp] theorem Import.integral_toJson (i : Import) : Integral i.toJson := by
  simp [toJson, Json.list]

@[simp] theorem MethodDecl.integral_toJson (m : MethodDecl) : Integral m.toJson := by
  simp [toJson, Json.list, Json.integral_option VarDecl.integral_toJson, Stmt.toJsonAll_eq_map]

@[simp] theorem ClassDecl.integral_toJson (c : ClassDecl) : Integral c.toJson := by
  simp [toJson, Json.list, Json.integral_option Integral.str]

namespace Program

theorem integral_toJson (p : Program) : Integral p.toJson := by
  simp [toJson, Json.list]

/-- The text of a program is read as that program, exactly when its JSON does not nest deeper than
the reader goes. -/
theorem ofText_toText (p : Program) :
    ofText p.toText = if p.toJson.depth ≤ maxNesting then some p else none := by
  rw [ofText, toText, Json.read_render p.integral_toJson, Option.bind_some,
    p.decodes_toJson maxNesting, within]

end Program

end Tricode
