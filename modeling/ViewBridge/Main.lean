import ViewBridge.Command.Run

namespace ViewBridge.Command

/-- The faults of the machine that have a cause of their own here, by their numbers. -/
def FileFault.ofCode? : UInt32 → Option FileFault
  | 2 => some .notFound
  | 20 => some .notDirectory
  | 21 => some .isDirectory
  | 36 => some .nameTooLong
  | _ => none

/-- The number of a fault. Some calls of the machine give it with the sign changed. -/
def errorCode? : IO.Error → Option UInt32
  | .noFileOrDirectory _ code _ | .inappropriateType _ code _ | .invalidArgument _ code _ =>
    some (if code < 0x80000000 then code else -code)
  | _ => none

def FileFault.ofError (error : IO.Error) : FileFault :=
  (errorCode? error >>= FileFault.ofCode?).getD (.other (toString error))

def textOfBytes (bytes : ByteArray) : Except FileFault String :=
  match String.fromUTF8? bytes with
  | some text => .ok text
  | none => .error .invalidText

/-- Runs an action on files and keeps its failure as a value. -/
def attempt {α : Type} (action : IO α) : IO (Except FileFault α) := do
  try return .ok (← action) catch error => return .error (.ofError error)

/-- Access to the files of the machine. -/
def disk : Files IO where
  input := do
    let bytes ← attempt (do (← IO.getStdin).readBinToEnd)
    return bytes >>= textOfBytes
  read path := do
    let bytes ← attempt (IO.FS.readBinFile path)
    return bytes >>= textOfBytes
  write path text := attempt (IO.FS.writeFile path text)

end ViewBridge.Command

def main (args : List String) : IO UInt32 := do
  let outcome ← ViewBridge.Command.run ViewBridge.Command.disk args
  (← IO.getStdout).putStr outcome.stdout
  (← IO.getStderr).putStr outcome.stderr
  return outcome.exit.toUInt32
