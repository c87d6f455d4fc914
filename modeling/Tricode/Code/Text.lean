import Tricode.Code

/-!
# The text of three-address code

One class block with one block per method and one instruction per line. Operands are written as
`name.type`. Labels stand one level left of the code they mark.
-/

namespace Tricode

/-! ## Operands, places and labels -/

/-- A literal as code names it. A truth value is a digit. -/
def Literal.codeText : Literal → String
  | int n => toString n.toInt
  | bool b => if b then "1" else "0"

/-- The name of the temporary with the given number. -/
def tempName (id : Nat) : String := "tmp" ++ toString id

/-- A name with the tag of its type. -/
def suffixed (name : String) (ty : Ty) : String := name ++ "." ++ ty.suffix

namespace Operand

/-- The operand without the tag of its type. -/
def name : Operand → String
  | literal value _ => value.codeText
  | var name _ => name
  | temp id _ => tempName id

/-- An operand with the tag of its type. -/
def text (o : Operand) : String := suffixed o.name o.ty

end Operand

/-- An element of an array as it is read or written. -/
def elementText (array index : Operand) (ty : Ty) : String :=
  suffixed (array.name ++ "[" ++ index.text ++ "]") ty

/-- A place with the tag of its type. -/
def Place.text : Place → String
  | var name ty => suffixed name ty
  | temp id ty => suffixed (tempName id) ty
  | element array index ty => elementText array index ty

/-- What all labels of a kind start with. -/
def Mark.stem : Mark → String
  | ifBody => "ifbody"
  | endIf => "endif"
  | loop => "loop"
  | whileBody => "whilebody"
  | endWhile => "endwhile"
  | cmpTrue => "cmptrue"
  | cmpEnd => "cmpend"
  | andRhs => "andrhs"
  | andEnd => "andend"
  | orTrue => "ortrue"
  | orEnd => "orend"

namespace Label

/-- A stem and a number. -/
def numberedText (stem : String) (number : Nat) : String := stem ++ "_" ++ toString number

/-- The label as jumps name it. -/
def text : Label → String
  | numbered mark number => numberedText mark.stem number
  | named text => text

end Label

/-! ## Instructions -/

/-- The name of the operation. -/
def CallKind.mnemonic : CallKind → String
  | new => "new"
  | virtual => "invokevirtual"
  | static => "invokestatic"
  | special => "invokespecial"
  | interface => "invokeinterface"
  | arrayLength => "arraylength"

/-- A call as an operation with its operands and the tag of its result. -/
def callText (mnemonic : String) (operands : List String) (ret : Ty) : String :=
  suffixed (mnemonic ++ "(" ++ String.intercalate ", " operands ++ ")") ret

namespace Call

/-- A static call names its class without a tag. -/
def receiverText (c : Call) : String :=
  match c.kind with
  | .static => c.receiver.name
  | _ => c.receiver.text

/-- The call as an operation. One to a method has the name of the method in quotes. -/
def text (c : Call) : String :=
  match c.kind with
  | .new => callText c.kind.mnemonic [c.receiver.name] c.ret
  | .arrayLength => callText c.kind.mnemonic [c.receiver.text] c.ret
  | _ =>
    callText c.kind.mnemonic
      (c.receiverText :: ("\"" ++ c.method.getD "" ++ "\"") :: c.args.map Operand.text) c.ret

end Call

/-- An operator between its operands, with the tag of its result. -/
def binaryText (op : BinOp) (left right : Operand) : String :=
  left.text ++ " " ++ suffixed op.symbol op.resultTy ++ " " ++ right.text

/-- The right-hand side of an assignment. -/
def Rvalue.text : Rvalue → String
  | use o => o.text
  | binary op left right => binaryText op left right
  | not o => suffixed "!" .boolean ++ " " ++ o.text
  | call c => c.text
  | getField field ty => callText "getfield" ["this", suffixed field ty] ty
  | element array index => elementText array index array.ty.element
  | newArray elem size => callText "new" ["array", size.text] elem.arrayOf

/-- What stands between the parentheses of a conditional jump. -/
def Cond.text : Cond → String
  | truthy o => o.text
  | compare op left right => binaryText op left right

/-- An instruction without indentation. -/
def Instruction.text : Instruction → String
  | assign dest ty value => dest.text ++ " " ++ suffixed ":=" ty ++ " " ++ value.text ++ ";"
  | call c => c.text ++ ";"
  | putField field ty value =>
    callText "putfield" ["this", suffixed field ty, value.text] .void ++ ";"
  | goto target => "goto " ++ target.text ++ ";"
  | branch cond target => "if (" ++ cond.text ++ ") goto " ++ target.text ++ ";"
  | label l => l.text ++ ":"
  | ret (some value) ty => suffixed "ret" ty ++ " " ++ value.text ++ ";"
  | ret none _ => suffixed "ret" .void ++ ";"

/-! ## Methods and classes -/

/-- A line of text at a level of indentation. -/
def lineAt (level : Nat) (text : String) : String :=
  String.join (List.replicate level "    ") ++ text ++ "\n"

/-- A declared name with the tag of its type. -/
def Symbol.text (s : Symbol) : String := suffixed s.name s.ty

namespace MethodCode

/-- The line that opens a method. -/
def header (m : MethodCode) : String :=
  ".method " ++ (if m.isPublic then "public " else "") ++
    (if m.isStatic then "static " else "") ++ (if m.hasVarargs then "varargs " else "") ++
    suffixed (m.name ++ "(" ++ String.intercalate ", " (m.params.map Symbol.text) ++ ")")
      m.returnType ++ " \x7b"

/-- An instruction on a line of its own. -/
def instructionLine (i : Instruction) : String :=
  lineAt (if i.label?.isSome then 1 else 2) i.text

/-- The block of a method. -/
def text (m : MethodCode) : String :=
  lineAt 1 m.header ++ String.join (m.body.map instructionLine) ++ lineAt 1 "\x7d"

end MethodCode

namespace ClassCode

/-- Lines that end in a blank one, unless there are none. -/
def paragraph (lines : List String) : String :=
  if lines.isEmpty then "" else String.join lines ++ "\n"

/-- The line that opens a class. -/
def header (c : ClassCode) : String :=
  c.className ++ (c.superclass.elim "" fun super ↦ " extends " ++ super) ++ " \x7b"

/-- Every class has the constructor that only calls that of its superclass. -/
def constructorText (c : ClassCode) : String :=
  lineAt 1 (suffixed (".construct " ++ c.className ++ "()") .void ++ " \x7b") ++
    lineAt 2 "invokespecial(this, \"<init>\").V;" ++ lineAt 1 "\x7d"

/-- The text of a class: its imports and its block. -/
def text (c : ClassCode) : String :=
  paragraph (c.imports.map fun path ↦ lineAt 0 ("import " ++ path ++ ";")) ++
    lineAt 0 c.header ++
    paragraph (c.fields.map fun f ↦ lineAt 1 (".field public " ++ f.text ++ ";")) ++
    c.constructorText ++
    String.join (c.methods.map fun m ↦ "\n" ++ m.text) ++ lineAt 0 "\x7d"

end ClassCode

end Tricode
