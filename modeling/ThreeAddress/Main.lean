import ThreeAddress.Cli.Perform

/-!
# The program

The command line over the files and the terminal of the system.
-/

namespace ThreeAddress.Cli

/-- What went wrong with a file of the system. -/
def fileFault : IO.Error → FileFault
  | .noFileOrDirectory _ _ _ => .notFound
  | .inappropriateType _ code _ =>
    if code = 21 then .isDirectory else .notDirectory
  | .invalidArgument _ code _ =>
    if code = 22 then .zeroInName else .nameTooLong
  | .permissionDenied _ _ _ => .other "Permission denied (os error 13)"
  | e => .other (toString e)

instance : Files IO where
  readFile path := do
    try
      let bytes ← IO.FS.readBinFile path.text
      return match String.fromUTF8? bytes with
        | some text => .ok text
        | none => .error .notText
    catch e => return .error (fileFault e)
  writeFile path text := do
    try
      IO.FS.writeFile path.text text
      return .ok ()
    catch e => return .error (fileFault e)

/-- Shows a text at once. -/
def display (text : String) : IO Unit := do
  let out ← IO.getStdout
  out.putStr text
  out.flush

/-- The bytes of the next line of a stream, up to its line feed. -/
def readBytes (stream : IO.FS.Stream) : IO ByteArray :=
  let readByte (line : ByteArray) : IO (ByteArray ⊕ ByteArray) := do
    let next ← stream.read 1
    if next.isEmpty then return .inr line
    if next.data.contains 10 then return .inr (line ++ next)
    return .inl (line ++ next)
  repeatM readByte ByteArray.empty

instance : Terminal IO where
  readLine := do
    let line ← readBytes (← IO.getStdin)
    if line.isEmpty then return .error .inputEnded
    return match String.fromUTF8? line with
      | some answer => .ok answer
      | none => .error .notText
  say := display
  complain text := do (← IO.getStderr).putStr text

end ThreeAddress.Cli

def main (arguments : List String) : IO UInt32 := do
  let code ←
    (ThreeAddress.Cli.perform
      (ThreeAddress.Cli.parseArguments arguments) : IO Nat)
  return code.toUInt32
