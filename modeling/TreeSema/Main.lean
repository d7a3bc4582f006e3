import TreeSema.Command.Duration
import TreeSema.Command.Run
import TreeSema.Text.Utf8

/-!
# The program

Files come from the disk and durations from the clock; all else is `Command.run`.
-/
namespace TreeSema.Command

/-- Reads a file from the disk. -/
def readDisk (path : String) : IO (Except FileFault Contents) := do
  try
    let bytes ← IO.FS.readBinFile path
    return .ok ⟨String.ofList (Text.decodeUtf8 bytes.toList), bytes.size⟩
  catch e =>
    match e with
    | .noFileOrDirectory .. => return .error .notFound
    -- opening a file names it, reading from one that is open does not
    | .inappropriateType (some _) .. => return .error .notDirectory
    | .inappropriateType none .. => return .error .isDirectory
    | .permissionDenied .. => return .error .denied
    | _ => return .error (.other e.toString)

def onDisk : Host IO where
  read := readDisk
  timed step := do
    let start ← IO.monoNanosNow
    let a ← step ()
    let stop ← IO.monoNanosNow
    return (a, duration (stop - start))

end TreeSema.Command

/-- Runs the program, writes what it reports and exits with its code. -/
def main (args : List String) : IO UInt32 := do
  let report ← TreeSema.Command.run TreeSema.Command.onDisk args
  IO.print report.out
  IO.eprint report.err
  return report.exit
