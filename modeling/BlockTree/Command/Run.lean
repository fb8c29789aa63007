import BlockTree.Benchmark
import BlockTree.Command.Request

/-!
# Carrying out requests

A request is carried out by a host, which gives access to files, the clock, chance and the printed
lines. A command reads its files one after the other, builds its trees, and prints each line as soon
as it has it; what was printed before a failure stays printed. A desk is a host whose files are a
`Folder`, whose printed lines are kept, and whose clock and choice of positions are given
beforehand.
-/

namespace BlockTree.Command

open Benchmark (orStop)

structure Host (m : Type → Type) extends BenchmarkHost m where
  read : String → m (Except FileFault ByteArray)
  usualFolder : m String
  usualSession : m String

-- ---------------------------------------------------------------------------
-- Commands that only read files
-- ---------------------------------------------------------------------------

section Inspections

variable {D : Type} {m : Type → Type} [Monad m]

def stepLine (alg : Algorithm D) : PathStep D → String
  | .left sibling => "L " ++ alg.toHex sibling
  | .right sibling => "R " ++ alg.toHex sibling

def Host.load (host : Host m) (file : String) : ExceptT Failure m ByteArray := do
  orStop (.error ∘ .file) (← host.read file)

def treeOver (H : Hasher D) (shape : Shape) (data : ByteArray) : ExceptT Failure m (Tree D) :=
  orStop .error (Tree.build H shape (.ofBytes data))

variable [DecidableEq D] (host : Host m) (alg : Algorithm D) (shape : Shape)

def runRoot (file : String) : ExceptT Failure m Nat := do
  let data ← host.load file
  let tree ← treeOver alg.toHasher shape data
  host.print (alg.toHex tree.root ++ "  " ++ toString tree.size ++ " bytes, " ++
    toString tree.blockCount ++ " blocks")
  return 0

/-- The digest is read, without the blanks around it, before the file is. -/
def runVerify (file digest : String) : ExceptT Failure m Nat := do
  let expected ← orStop .error (alg.read (String.ofList (Text.trim digest.toList)))
  let data ← host.load file
  let tree ← treeOver alg.toHasher shape data
  if tree.root = expected then
    host.print "OK"
    return 0
  else
    host.print ("MISMATCH: " ++ alg.toHex tree.root)
    return 1

/-- Both files are read before a tree is built. -/
def runDiff (first second : String) (all : Bool) : ExceptT Failure m Nat := do
  let firstData ← host.load first
  let secondData ← host.load second
  let a ← treeOver alg.toHasher shape firstData
  let b ← treeOver alg.toHasher shape secondData
  match a.compareWith b with
  | .equal =>
    host.print "identical"
    return 0
  | .differsAt offset =>
    if all then
      ((a.differingBlocks b).getD []).forM fun block =>
        host.print (toString (block * shape.blockSize))
    else
      host.print (toString offset)
    return 1
  | .incomparable =>
    host.print ("incomparable: " ++ toString a.blockCount ++ " blocks vs " ++
      toString b.blockCount ++ " blocks")
    return 2

/-- The path is printed first, then folded over the block again before the root is. -/
def runProof (file : String) (block : Nat) : ExceptT Failure m Nat := do
  let data ← host.load file
  let tree ← treeOver alg.toHasher shape data
  let path ← orStop .error (tree.path block)
  path.steps.forM fun step => host.print (stepLine alg step)
  let content ← orStop .refused (tree.block? block)
  if path.verify alg.toHasher (content.getD .empty) tree.root then
    host.print ("root " ++ alg.toHex tree.root)
    return 0
  else
    host.print "proof does not reproduce the root"
    return 1

def Inspection.perform : Inspection → ExceptT Failure m Nat
  | .root file => runRoot host alg shape file
  | .verify file digest => runVerify host alg shape file digest
  | .diff first second all => runDiff host alg shape first second all
  | .proof file block => runProof host alg shape file block

/-- Performs a task over files and answers the code at the end: zero if all is well, one for a
difference, two for what cannot be compared. An invalid shape comes before everything else. -/
def Inspection.run (host : Host m) (shape : Shape) (kind : HashKind) (i : Inspection) :
    ExceptT Failure m Nat := do
  orStop .error shape.check
  i.perform host kind.algorithm shape

end Inspections

-- ---------------------------------------------------------------------------
-- All requests
-- ---------------------------------------------------------------------------

section Requests

variable {m : Type → Type} [Monad m]

def BenchmarkTask.run (host : Host m) (shape : Shape) (kind : HashKind) (task : BenchmarkTask) :
    ExceptT Failure m Nat := do
  orStop .error shape.check
  let output ← match task.output with
    | some output => pure output
    | none => host.usualFolder
  let session ← match task.session with
    | some session => pure session
    | none => host.usualSession
  host.print ("Working directory: " ++ Text.Quoted.fileName output)
  let bench : Benchmark :=
    { maxSize := task.maxSize, division := task.division, trials := task.trials, output, session }
  let _ ← bench.run host.toBenchmarkHost kind.algorithm.toHasher shape
  return 0

def Request.run (host : Host m) (r : Request) : ExceptT Failure m Nat :=
  match r.task with
  | .inspect i => i.run host r.shape r.kind
  | .bench task => task.run host r.shape r.kind

end Requests

-- ---------------------------------------------------------------------------
-- Desks
-- ---------------------------------------------------------------------------

structure Desk where
  folder : Folder := {}
  printed : Array String := #[]

structure Script where
  elapsed : Trial → Phase → Duration
  position : (trial : Trial) → 0 < trial.size → Fin trial.size

/-- A script in which nothing takes time and the first byte always changes. -/
def Script.still : Script where
  elapsed _ _ := ⟨0, 0⟩
  position _ h := ⟨0, h⟩

def Desk.change (f : Folder → Except FileFault Folder) : StateM Desk (Except FileFault Unit) :=
  fun desk =>
    match f desk.folder with
    | .ok folder => (.ok (), { desk with folder })
    | .error fault => (.error fault, desk)

def Desk.host (script : Script) : Host (StateM Desk) where
  timed trial phase work := pure (work (), script.elapsed trial phase)
  position trial h := pure (script.position trial h)
  print line := modify fun desk => { desk with printed := desk.printed.push line }
  makeFolders path := Desk.change (·.makeFolders path)
  save path text := Desk.change (·.save path text.toUTF8)
  read path := do return (← get).folder.read path
  usualFolder := pure "/tmp"
  usualSession := pure "bench"

structure Outcome where
  result : Except Failure Nat
  lines : List String
  folder : Folder

def Request.outcome (script : Script) (folder : Folder) (r : Request) : Outcome :=
  let (result, desk) := (r.run (Desk.host script)).run.run { folder }
  ⟨result, desk.printed.toList, desk.folder⟩

end BlockTree.Command
