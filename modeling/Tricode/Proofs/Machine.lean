import Tricode.Code
import Tricode.Proofs.Memory

/-!
# The meaning of three-address code

A machine that runs the code of one method. It has a program counter, a value for every
temporary, and the state a method body acts on: the variables, and the world outside.

An operand names a variable if the method declares one of that name. Otherwise it names the
object the method runs on, which is `this` with the type of the unit's class, or else a class.

A jump goes to the first place that carries its label, and code without a next instruction is
stuck. That the code lowering makes never gets stuck is not assumed here.
-/

namespace Tricode

/-- The place a label marks. -/
def Code.find? (code : Code) (l : Label) : Option Nat :=
  code.findIdx? fun instruction ↦ instruction == .label l

/-! ## The machine -/

/-- A method set up to run: who answers its calls, the object it runs on, the class it belongs to,
and its code. -/
structure Machine where
  oracle : Oracle
  self : Value
  className : String
  method : MethodCode

/-- The values of temporaries. -/
abbrev Temps := Nat → Value

/-- Where a machine stands. -/
structure Config where
  pc : Nat
  temps : Temps
  state : State

/-- What one instruction leads to. -/
inductive Step where
  | next (config : Config)
  | halt (ending : Ending) (state : State)

/-- The temporaries after one of them is written. -/
def Temps.set (temps : Temps) (id : Nat) (value : Value) : Temps :=
  fun other ↦ if other = id then value else temps other

namespace Machine

/-- The method declares a parameter or a local variable of that name. -/
def isVariable (M : Machine) (name : String) : Bool :=
  (M.method.params ++ M.method.locals).any fun symbol ↦ symbol.name == name

/-! ### Operands and right-hand sides -/

/-- The value of an operand. -/
def read (M : Machine) (store : Store) (temps : Temps) : Operand → Value
  | .literal value _ => .ofLiteral value
  | .temp id _ => temps id
  | .var name ty =>
    if M.isVariable name then store name
    else if name = "this" ∧ ty = .named M.className then M.self
    else .classRef name

/-- The result of a call. The machine is stuck where the kind of the call and its parts do not go
together. -/
def call (M : Machine) (store : Store) (temps : Temps) (c : Call) : Eval Value :=
  let args := c.args.map (M.read store temps)
  match c.kind, c.method with
  | .new, none =>
    match c.receiver with
    | .var name _ => Eval.ask M.oracle (.new name)
    | _ => throw .stuck
  | .static, some method =>
    match c.receiver with
    | .var name _ => Eval.ask M.oracle (.call (.ofClass name) method args)
    | _ => throw .stuck
  | .virtual, some method | .special, some method | .interface, some method =>
    Eval.ask M.oracle (.call (.object (M.read store temps c.receiver)) method args)
  | .arrayLength, none => Eval.length (M.read store temps c.receiver)
  | _, _ => throw .stuck

/-- The value that an assignment computes. -/
def rvalue (M : Machine) (store : Store) (temps : Temps) : Rvalue → Eval Value
  | .use operand => pure (M.read store temps operand)
  | .binary op left right => Eval.operate op (M.read store temps left) (M.read store temps right)
  | .not operand => Eval.negate (M.read store temps operand)
  | .call c => M.call store temps c
  | .getField field _ => Eval.getField field
  | .element array index => Eval.load (M.read store temps array) (M.read store temps index)
  | .newArray elem size => Eval.allocate elem (M.read store temps size)

/-- Whether a conditional jump is taken. -/
def condition (M : Machine) (store : Store) (temps : Temps) : Cond → Eval Bool
  | .truthy operand => Eval.test (M.read store temps operand)
  | .compare op left right => do
    let v ← Eval.operate op (M.read store temps left) (M.read store temps right)
    Eval.test v

/-! ### Steps -/

/-- The rest of a step after an action on the world. A trap ends the run. -/
def perform {α : Type} (m : Config) (ev : Eval α) (rest : α → World → Step) : Step :=
  match ev.runFrom m.state.world with
  | (.ok a, w) => rest a w
  | (.error trap, w) => .halt (.trapped trap) ⟨m.state.store, w⟩

/-- The instruction after this one. -/
def advance (m : Config) (w : World) : Step :=
  .next ⟨m.pc + 1, m.temps, ⟨m.state.store, w⟩⟩

/-- The first place that carries the label. The machine is stuck if there is none. -/
def jump (M : Machine) (m : Config) (l : Label) (w : World) : Step :=
  match M.method.body.find? l with
  | some pc => .next ⟨pc, m.temps, ⟨m.state.store, w⟩⟩
  | none => .halt (.trapped .stuck) ⟨m.state.store, w⟩

/-- A value goes to where it is assigned. -/
def write (M : Machine) (m : Config) (dest : Place) (value : Value) (w : World) : Step :=
  match dest with
  | .var name _ =>
    .next ⟨m.pc + 1, m.temps,
      ⟨fun other ↦ if other = name then value else m.state.store other, w⟩⟩
  | .temp id _ => .next ⟨m.pc + 1, Temps.set m.temps id value, ⟨m.state.store, w⟩⟩
  | .element array index _ =>
    perform ⟨m.pc, m.temps, ⟨m.state.store, w⟩⟩
      (Eval.update (M.read m.state.store m.temps array) (M.read m.state.store m.temps index) value)
      fun _ w' ↦ advance m w'

/-- What an instruction leads to. -/
def execute (M : Machine) (m : Config) : Instruction → Step
  | .assign dest _ value =>
    perform m (M.rvalue m.state.store m.temps value) (M.write m dest)
  | .call c => perform m (M.call m.state.store m.temps c) fun _ w ↦ advance m w
  | .putField field _ value =>
    perform m (Eval.putField field (M.read m.state.store m.temps value)) fun _ w ↦ advance m w
  | .goto target => M.jump m target m.state.world
  | .branch cond target =>
    perform m (M.condition m.state.store m.temps cond) fun taken w ↦
      if taken then M.jump m target w else advance m w
  | .label _ => advance m m.state.world
  | .ret value _ => .halt (.returned (value.map (M.read m.state.store m.temps))) m.state

/-- The instruction at the program counter is executed. The machine is stuck if there is none. -/
def step (M : Machine) (m : Config) : Step :=
  match M.method.body[m.pc]? with
  | some instruction => M.execute m instruction
  | none => .halt (.trapped .stuck) m.state

/-- At most `n` steps. -/
def run (M : Machine) : Nat → Config → Step
  | 0, m => .next m
  | n + 1, m =>
    match M.step m with
    | .next m' => M.run n m'
    | .halt ending st => .halt ending st

/-! ## Runs -/

/-- Some number of steps leads from `m` to `m'`. -/
def Reaches (M : Machine) (m m' : Config) : Prop := ∃ n, M.run n m = .next m'

/-- The run from `m` comes to an end, with the given ending and the state it leaves behind. -/
def Halts (M : Machine) (m : Config) (ending : Ending) (st : State) : Prop :=
  ∃ n, M.run n m = .halt ending st

/-- The machine is still running after `n` steps. -/
def RunsFor (M : Machine) (n : Nat) (m : Config) : Prop := ∃ m', M.run n m = .next m'

variable {M : Machine}

theorem run_add (n k : Nat) (m : Config) :
    M.run (n + k) m =
      match M.run n m with
      | .next m' => M.run k m'
      | .halt ending st => .halt ending st := by
  induction n generalizing m with
  | zero => rw [Nat.zero_add, run]
  | succ n ih =>
    rw [Nat.succ_add, run, run]
    cases M.step m with
    | next m' => exact ih m'
    | halt ending st => rfl

theorem run_one (m : Config) : M.run 1 m = M.step m := by
  rw [run]
  cases M.step m <;> rfl

theorem Reaches.refl (m : Config) : M.Reaches m m := ⟨0, rfl⟩

/-- Whatever a run from `m'` comes to, one from `m` comes to as well. -/
theorem Reaches.exists_run {m m' : Config} {outcome : Step} (h : M.Reaches m m')
    (h' : ∃ k, M.run k m' = outcome) : ∃ n, M.run n m = outcome := by
  obtain ⟨n, hn⟩ := h
  obtain ⟨k, hk⟩ := h'
  refine ⟨n + k, ?_⟩
  rw [run_add, hn]
  exact hk

theorem Reaches.trans {m m' m'' : Config} (h : M.Reaches m m') (h' : M.Reaches m' m'') :
    M.Reaches m m'' := h.exists_run h'

theorem Reaches.halts {m m' : Config} {ending : Ending} {st : State} (h : M.Reaches m m')
    (h' : M.Halts m' ending st) : M.Halts m ending st := h.exists_run h'

theorem reaches_of_step {m m' : Config} (h : M.step m = .next m') : M.Reaches m m' :=
  ⟨1, by rw [run_one, h]⟩

theorem halts_of_step {m : Config} {ending : Ending} {st : State}
    (h : M.step m = .halt ending st) : M.Halts m ending st :=
  ⟨1, by rw [run_one, h]⟩

theorem RunsFor.zero (m : Config) : M.RunsFor 0 m := ⟨m, rfl⟩

theorem RunsFor.mono {n k : Nat} {m : Config} (h : M.RunsFor n m) (hk : k ≤ n) :
    M.RunsFor k m := by
  obtain ⟨m', hm⟩ := h
  rw [← Nat.add_sub_cancel' hk, run_add] at hm
  cases hr : M.run k m with
  | next m'' => exact ⟨m'', hr⟩
  | halt ending st =>
    rw [hr] at hm
    cases hm

theorem Reaches.runsFor {n : Nat} {m m' : Config} (h : M.Reaches m m') (h' : M.RunsFor n m') :
    M.RunsFor n m := by
  obtain ⟨k, hk⟩ := h
  obtain ⟨m'', hm⟩ := h'
  have hrun : M.RunsFor (k + n) m := ⟨m'', by rw [run_add, hk]; exact hm⟩
  exact hrun.mono (Nat.le_add_left n k)

theorem RunsFor.of_step {n : Nat} {m m' : Config} (h : M.step m = .next m')
    (h' : M.RunsFor n m') : M.RunsFor (n + 1) m := by
  obtain ⟨m'', hm⟩ := h'
  exact ⟨m'', by rw [run, h]; exact hm⟩

/-- A machine that halts does so once, in one way. -/
theorem Halts.unique {m : Config} {e e' : Ending} {st st' : State} (h : M.Halts m e st)
    (h' : M.Halts m e' st') : e = e' ∧ st = st' := by
  obtain ⟨n, hn⟩ := h
  obtain ⟨k, hk⟩ := h'
  have hle : M.run (n + k) m = .halt e st := by rw [run_add, hn]
  rw [Nat.add_comm, run_add, hk, Step.halt.injEq] at hle
  exact ⟨hle.1.symm, hle.2.symm⟩

/-- A machine that halts does not run on forever. -/
theorem Halts.not_runsFor {m : Config} {e : Ending} {st : State} (h : M.Halts m e st) :
    ∃ n, ¬M.RunsFor n m := by
  obtain ⟨n, hn⟩ := h
  refine ⟨n, ?_⟩
  rintro ⟨m', hm⟩
  rw [hn] at hm
  cases hm

end Machine

/-- The method at place `i` of the unit, run on `self` from `st`, ends with `ending` in the state
`st'`. What the temporaries hold at the start is arbitrary. -/
def ClassCode.Terminates (c : ClassCode) (i : Nat) (oracle : Oracle) (self : Value)
    (temps : Temps) (st : State) (ending : Ending) (st' : State) : Prop :=
  ∃ m, c.methods[i]? = some m ∧
    Machine.Halts ⟨oracle, self, c.className, m⟩ ⟨0, temps, st⟩ ending st'

end Tricode
