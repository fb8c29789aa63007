import BlockTree.Command.Run

/-!
# The command line

Reads the arguments, carries out the request on the disk, and ends with its code: one for an
error, two for arguments that cannot be carried out.
-/

namespace BlockTree.Command

def usageText : String :=
  "Usage: block-tree [-b BYTES] [--odd-policy promote|duplicate] [--hasher blake3|fnv64]\n" ++
  "                  COMMAND\n\n" ++
  "  root FILE                print the root digest of a file\n" ++
  "  verify FILE ROOT         check a file against a root digest\n" ++
  "  diff [-a] A B            print where two files differ\n" ++
  "  proof FILE BLOCK         print the audit path of a block\n" ++
  "  bench [-d N] [-t N] [-o FOLDER] [-s SESSION] [MAX_SIZE]\n" ++
  "                           time trees over growing buffers"

def versionText : String := "block-tree 0.1.0"

def UsageFault.message : UsageFault → String
  | .unknownArgument => "error: unexpected argument"
  | .invalidNumber => "error: a value is not a number of 64 bits"
  | .invalidValue => "error: a value is missing or not among the choices"
  | .unknownCommand => "error: unrecognized command"
  | .missingCommand => "error: a command is required"
  | .missingArgument => "error: a required argument was not given"
  | .repeatedArgument => "error: an option was given twice"
  | .unwantedValue => "error: an option takes no value"
  | .helpWanted => usageText
  | .versionWanted => versionText
  | .nothingGiven => usageText

def diskFault : IO.Error → FileFault
  | .noFileOrDirectory .. => .notFound
  | .alreadyExists .. => .exists
  | .inappropriateType .. => .isFolder
  | e => .other (toString e)

def attempt {α : Type} (action : IO α) : IO (Except FileFault α) := do
  match ← action.toBaseIO with
  | .ok a => return .ok a
  | .error e => return .error (diskFault e)

def diskHost : Host IO where
  timed _ _ work := do
    let start ← IO.monoNanosNow
    let result ← IO.lazyPure work
    let nanos := (← IO.monoNanosNow) - start
    return (result, ⟨nanos / nanosPerSecond, nanos % nanosPerSecond⟩)
  position trial h := do
    let n ← IO.rand 0 (trial.size - 1)
    return ⟨n % trial.size, Nat.mod_lt _ h⟩
  print line := IO.println line
  makeFolders path := if path = "" then return .ok () else attempt (IO.FS.createDirAll path)
  save path text := attempt (IO.FS.writeFile path text)
  read path := attempt (IO.FS.readBinFile path)
  usualFolder := do return (← IO.getEnv "TMPDIR").getD "/tmp"
  usualSession := do return toString (← IO.monoMsNow)

end BlockTree.Command

open BlockTree Command in
def main (args : List String) : IO UInt32 := do
  match Request.ofArgs args with
  | .error fault =>
    match fault with
    | .helpWanted | .versionWanted =>
      IO.println fault.message
      return 0
    | _ =>
      IO.eprintln fault.message
      return 2
  | .ok request =>
    match ← (request.run diskHost).run with
    | .ok code => return code.toUInt32
    | .error (.error e) =>
      IO.eprintln ("error: " ++ e.message)
      return 1
    | .error (.refused _) =>
      IO.eprintln "error: the request was refused"
      return 1
