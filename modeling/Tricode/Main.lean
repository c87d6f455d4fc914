import Tricode.CommandLine

/-!
# The program

Reads the arguments and carries the command out on the disk.
-/

namespace Tricode

/-- An error with the number and the text the system gives it. The number may come negated. -/
def FileError.ofCode (code : UInt32) (text : String) : FileError :=
  let number := (if code < 0x80000000 then code else 0 - code).toNat
  match number with
  | 2 => .notFound
  | 20 => .notDirectory
  | 21 => .isDirectory
  | 28 => .noSpace
  | 36 => .nameTooLong
  | _ => .other (text ++ " (os error " ++ toString number ++ ")")

/-- The error of a failed access to a file. -/
def FileError.ofError (e : IO.Error) : FileError :=
  match e with
  | .noFileOrDirectory _ code text | .interrupted _ code text
  | .alreadyExists _ code text | .invalidArgument _ code text
  | .permissionDenied _ code text | .resourceExhausted _ code text
  | .inappropriateType _ code text | .noSuchThing _ code text
  | .otherError code text | .resourceBusy code text | .resourceVanished code text
  | .unsupportedOperation code text | .hardwareFault code text
  | .unsatisfiedConstraints code text | .illegalOperation code text
  | .protocolError code text | .timeExpired code text => .ofCode code text
  | .unexpectedEof | .userError _ => .other (toString e)

/-- The disk as what provides files. -/
def disk : Files IO where
  read path := do
    try
      let bytes ← IO.FS.readBinFile path
      match String.fromUTF8? bytes with
      | some text => pure (.ok text)
      | none => pure (.error .notText)
    catch e => pure (.error (.ofError e))
  write path text := do
    try
      IO.FS.withFile path .write fun handle ↦ do
        handle.putStr text
        handle.flush
      pure (.ok ())
    catch e => pure (.error (.ofError e))

end Tricode

/-- Carries out the command that the arguments give, or shows how one is given. -/
def main (args : List String) : IO UInt32 := do
  match Tricode.Command.ofArguments? args with
  | none =>
    IO.eprint Tricode.Command.usage
    pure 2
  | some command =>
    let outcome ← command.run Tricode.disk
    IO.print outcome.output
    IO.eprint outcome.errors
    pure outcome.code.toUInt32
