import BlockTree.Folder
import BlockTree.Report
import BlockTree.Tree

/-!
# Timing trees over growing buffers

A benchmark builds, verifies, rehashes and compares trees over buffers of several sizes, several
trials each, and reports the durations of each of the four phases under the size. The clock, the
choice of the byte that a trial changes, the disk and the printed lines belong to a host, so a
run is a function of what its host answers.
-/

namespace BlockTree

inductive Phase
  | build
  | verify
  | rehash
  | diff
  deriving DecidableEq, Repr

namespace Phase

def all : List Phase := [.build, .verify, .rehash, .diff]

def name : Phase → String
  | .build => "build"
  | .verify => "verify"
  | .rehash => "rehash"
  | .diff => "diff"

def label : Phase → String
  | .build => "    build:  "
  | .verify => "    verify: "
  | .rehash => "    rehash: "
  | .diff => "    diff:   "

end Phase

structure Trial where
  size : Nat
  number : Nat
  deriving DecidableEq, Repr

structure BenchmarkHost (m : Type → Type) where
  timed : {α : Type} → Trial → Phase → (Unit → α) → m (α × Duration)
  position : (trial : Trial) → 0 < trial.size → m (Fin trial.size)
  print : String → m Unit
  makeFolders : String → m (Except FileFault Unit)
  save : String → String → m (Except FileFault Unit)

structure Benchmark where
  maxSize : Nat
  division : Nat
  trials : Nat
  output : String
  session : String
  deriving DecidableEq, Repr

structure PhaseReports where
  build : Report := {}
  verify : Report := {}
  rehash : Report := {}
  diff : Report := {}
  deriving DecidableEq, Repr

namespace PhaseReports

def get (r : PhaseReports) : Phase → Report
  | .build => r.build
  | .verify => r.verify
  | .rehash => r.rehash
  | .diff => r.diff

def add (r : PhaseReports) (key : Int) (d : Duration) : Phase → PhaseReports
  | .build => { r with build := r.build.add key d }
  | .verify => { r with verify := r.verify.add key d }
  | .rehash => { r with rehash := r.rehash.add key d }
  | .diff => { r with diff := r.diff.add key d }

end PhaseReports

structure Finding where
  trial : Trial
  matched : Bool
  position : Nat
  comparison : Comparison
  deriving DecidableEq, Repr

structure BenchmarkLog where
  reports : PhaseReports := {}
  findings : Array Finding := #[]
  deriving DecidableEq, Repr

namespace Benchmark

def step (b : Benchmark) : Nat :=
  max 1 (b.maxSize / max 1 b.division)

theorem step_pos (b : Benchmark) : 0 < b.step :=
  Nat.le_max_left 1 _

def firstSizes (b : Benchmark) (limit : Nat) : List Nat :=
  (List.range' 1 (min limit (b.maxSize / b.step))).map (· * b.step)

/-- The sizes of the buffers: the multiples of the step up to the largest size. -/
def sizes (b : Benchmark) : List Nat :=
  (List.range' 1 (b.maxSize / b.step)).map (· * b.step)

theorem firstSizes_eq_take (b : Benchmark) (limit : Nat) :
    b.firstSizes limit = b.sizes.take limit := by
  simp [firstSizes, sizes, ← List.map_take, List.range'_eq_map_range, List.take_range]

def reportPath (b : Benchmark) (phase : Phase) : String :=
  PathName.join b.output (b.session ++ "-" ++ phase.name ++ ".csv")

def sizeLines (reports : PhaseReports) (size : Nat) : List String :=
  ("  n=" ++ toString size) ::
    Phase.all.map fun phase => phase.label ++ ((reports.get phase).summary size).line

variable {m : Type → Type} [Monad m] {D : Type} [DecidableEq D]

def orStop {E A : Type} (reason : E → Failure) (x : Except E A) : ExceptT Failure m A :=
  ExceptT.mk (pure (x.mapError reason))

def freshBytes (length : Nat) : Except Fault ByteArray :=
  if length < bufferLimit then .ok (List.replicate length 0).toByteArray else .error .tooLong

def copyOver (source data : ByteArray) : Except Fault ByteArray :=
  if data.size = source.size then .ok (source.copySlice 0 data 0 source.size)
  else .error .outOfView

/-- One trial: copies the reference over the data, builds a tree over the copy, verifies it,
changes one byte, rehashes, and compares with the unchanged tree. Leaves the changed data. -/
def runTrial (host : BenchmarkHost m) (H : Hasher D) (shape : Shape) (reference : ByteArray)
    (before : Tree D) (trial : Trial) (data : ByteArray) (log : BenchmarkLog) :
    ExceptT Failure m (ByteArray × BenchmarkLog) := do
  let data ← orStop .refused (copyOver reference data)
  let (built, buildTime) ← host.timed trial .build fun _ => Tree.build H shape (.ofBytes data)
  let tree ← orStop .error built
  let (matched, verifyTime) ← host.timed trial .verify fun _ => tree.verify H reference
  let position ←
    if h : 0 < trial.size then Fin.val <$> host.position trial h
    else throw (.refused .noPosition)
  let (_, tree) ← orStop .refused (tree.flip position 0xff)
  let (rehashed, rehashTime) ← host.timed trial .rehash fun _ => tree.rehash H
  let tree ← orStop .refused rehashed
  let (comparison, diffTime) ← host.timed trial .diff fun _ => before.compareWith tree
  let reports := log.reports.add trial.size buildTime .build
  let reports := reports.add trial.size verifyTime .verify
  let reports := reports.add trial.size rehashTime .rehash
  let reports := reports.add trial.size diffTime .diff
  return (tree.buffer.bytes,
    ⟨reports, log.findings.push { trial, matched, position, comparison }⟩)

def runSize (b : Benchmark) (host : BenchmarkHost m) (H : Hasher D) (shape : Shape) (size : Nat)
    (log : BenchmarkLog) : ExceptT Failure m BenchmarkLog := do
  let fresh ← orStop .refused (freshBytes size)
  let reference := SplitMix.fill fresh (UInt64.ofNat size)
  let before ← orStop .error (Tree.build H shape (.ofBytes reference))
  let (_, log) ← (List.range b.trials).foldlM
    (fun (data, log) number => runTrial host H shape reference before ⟨size, number⟩ data log)
    (reference, log)
  (sizeLines log.reports size).forM fun line => host.print line
  return log

def saveReports (b : Benchmark) (host : BenchmarkHost m) (reports : PhaseReports) :
    ExceptT Failure m Unit :=
  Phase.all.forM fun phase => do
    orStop (.error ∘ .file) (← host.save (b.reportPath phase) (reports.get phase).csv)
    host.print ("==> " ++ b.reportPath phase)

def run (b : Benchmark) (host : BenchmarkHost m) (H : Hasher D) (shape : Shape) :
    ExceptT Failure m BenchmarkLog := do
  orStop (.error ∘ .file) (← host.makeFolders b.output)
  let log ← b.sizes.foldlM (fun log size => b.runSize host H shape size log) {}
  b.saveReports host log.reports
  return log

end Benchmark

end BlockTree
