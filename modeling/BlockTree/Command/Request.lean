import BlockTree.Block
import BlockTree.Command.Arguments
import BlockTree.Hasher.Kind

/-!
# Requests

What a user asks for: the shape of trees, an algorithm, and a task over files. The grammars of the
commands stand here, with the defaults of what is not given, and the errors in a task over files,
each found by itself and whether or not there are others, in the order in which they count: the
block size, the digest to compare with, files that cannot be read, files without bytes, and the
block asked for.
-/

namespace BlockTree

namespace Command

inductive Inspection
  | root (file : String)
  | verify (file digest : String)
  | diff (first second : String) (all : Bool)
  | proof (file : String) (block : Nat)
  deriving DecidableEq, Repr

def Inspection.files : Inspection → List String
  | .root file => [file]
  | .verify file _ => [file]
  | .diff first second _ => [first, second]
  | .proof file _ => [file]

structure BenchmarkTask where
  maxSize : Nat := 1048576
  division : Nat := 8
  trials : Nat := 10
  output : Option String := none
  session : Option String := none
  deriving DecidableEq, Repr

inductive Task
  | inspect (inspection : Inspection)
  | bench (task : BenchmarkTask)
  deriving DecidableEq, Repr

structure Request where
  shape : Shape
  kind : HashKind
  task : Task
  deriving DecidableEq, Repr

-- ---------------------------------------------------------------------------
-- Grammars
-- ---------------------------------------------------------------------------

def helpOption : OptionSpec := ⟨"help", some 'h', "help", .help⟩

def mainGrammar : Grammar where
  options :=
    [⟨"block-size", some 'b', "block-size", .takes .number⟩,
     ⟨"odd-policy", none, "odd-policy",
      .takes (.choice [OddPolicy.promote.name, OddPolicy.duplicate.name])⟩,
     ⟨"hasher", none, "hasher", .takes (.choice [HashKind.blake3.name, HashKind.fnv64.name])⟩,
     helpOption, ⟨"version", some 'V', "version", .version⟩]
  commands := ["root", "verify", "diff", "proof", "bench", "help"]

def rootGrammar : Grammar where
  options := [helpOption]
  places := [{ key := "file", kind := .path }]

def verifyGrammar : Grammar where
  options := [helpOption]
  places := [{ key := "file", kind := .path }, { key := "root", kind := .text }]

def diffGrammar : Grammar where
  options := [⟨"all", some 'a', "all", .flag⟩, helpOption]
  places := [{ key := "a", kind := .path }, { key := "b", kind := .path }]

def proofGrammar : Grammar where
  options := [helpOption]
  places := [{ key := "file", kind := .path }, { key := "block", kind := .number }]

def benchGrammar : Grammar where
  options :=
    [⟨"division", some 'd', "division", .takes .number⟩,
     ⟨"trials", some 't', "trials", .takes .number⟩,
     ⟨"output", some 'o', "output", .takes .text⟩,
     ⟨"session", some 's', "session", .takes .text⟩, helpOption]
  places := [{ key := "max-size", kind := .number, required := false }]

-- ---------------------------------------------------------------------------
-- From argument lists to requests
-- ---------------------------------------------------------------------------

namespace Scan

def number? (s : Scan) (key : String) : Option Nat :=
  (s.get? key).bind fun text => Text.Numeral.read? 10 text.toList

def textD (s : Scan) (key : String) : String :=
  (s.get? key).getD ""

def shape (s : Scan) : Shape where
  blockSize := (s.number? "block-size").getD ({} : Shape).blockSize
  oddPolicy := if s.get? "odd-policy" = some OddPolicy.duplicate.name then .duplicate else .promote

def hashKind (s : Scan) : HashKind :=
  if s.get? "hasher" = some HashKind.fnv64.name then .fnv64 else .blake3

end Scan

/-- Help about commands: each further word has to be a command of the one before. -/
def helpOn : List String → UsageFault
  | [] => .helpWanted
  | [command] => if command ∈ mainGrammar.commands then .helpWanted else .unknownCommand
  | _ => .unknownCommand

def Task.ofArgs (command : String) (args : List String) : Except UsageFault Task :=
  match command with
  | "root" => do
    let s ← Scan.complete rootGrammar args
    return .inspect (.root (s.textD "file"))
  | "verify" => do
    let s ← Scan.complete verifyGrammar args
    return .inspect (.verify (s.textD "file") (s.textD "root"))
  | "diff" => do
    let s ← Scan.complete diffGrammar args
    return .inspect (.diff (s.textD "a") (s.textD "b") (s.get? "all").isSome)
  | "proof" => do
    let s ← Scan.complete proofGrammar args
    return .inspect (.proof (s.textD "file") ((s.number? "block").getD 0))
  | "bench" => do
    let s ← Scan.complete benchGrammar args
    let usual : BenchmarkTask := {}
    return .bench {
      maxSize := (s.number? "max-size").getD usual.maxSize
      division := (s.number? "division").getD usual.division
      trials := (s.number? "trials").getD usual.trials
      output := s.get? "output"
      session := s.get? "session" }
  | _ => .error (helpOn args)

/-- The request that an argument list makes. What comes after the command is read, and its faults
are found, before the last value in front of the command is checked. -/
def Request.ofArgs (args : List String) : Except UsageFault Request := do
  let (s, command) ← Scan.run mainGrammar args {}
  match command with
  | none =>
    let s ← s.settle
    if s.settled = [] then throw .nothingGiven else throw .missingCommand
  | some (command, rest) =>
    let task ← Task.ofArgs command rest
    let s ← s.settle
    return { shape := s.shape, kind := s.hashKind, task }

-- ---------------------------------------------------------------------------
-- The errors in a task
-- ---------------------------------------------------------------------------

section

variable (shape : Shape) (kind : HashKind) (read : String → Except FileFault ByteArray)

def shapeErrors : List Error :=
  if shape.blockSize = 0 then [.invalidBlockSize] else []

def readErrors (file : String) : List Error :=
  match read file with
  | .error fault => [.file fault]
  | .ok _ => []

def contentErrors (file : String) : List Error :=
  match read file with
  | .error _ => []
  | .ok data => if data.size = 0 then [.emptyBuffer] else []

namespace Inspection

def digestErrors : Inspection → List Error
  | .verify _ digest =>
    let text := String.ofList (Text.trim digest.toList)
    match kind.algorithm.ofHex text with
    | .error fault => [.invalidDigest text fault]
    | .ok _ => []
  | _ => []

def blockErrors : Inspection → List Error
  | .proof file block =>
    match read file with
    | .error _ => []
    | .ok data =>
      let count := blockCount data.size shape.blockSize
      if count ≤ block then [.blockOutOfRange block count] else []
  | _ => []

def errors (i : Inspection) : List Error :=
  shapeErrors shape ++ i.digestErrors kind ++ i.files.flatMap (readErrors read) ++
    i.files.flatMap (contentErrors read) ++ i.blockErrors shape read

end Inspection

end

end Command

end BlockTree
