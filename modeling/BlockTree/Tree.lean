import BlockTree.AuditPath

/-!
# Hash trees over a buffer

A tree remembers the digests of its buffer as they were when it was built or last rehashed. The
buffer may be edited meanwhile: block contents follow the bytes, everything about digests follows
the remembered rows. Only the first `size` bytes belong to the tree, and edits and rehashing need
all of them to be visible. The calls of the hasher behind a build and behind a folded path are
listed beside the tree.
-/

namespace BlockTree

variable {D : Type}

def leafRow (H : Hasher D) (blockSize : Nat) (data : ByteArray) : Array D :=
  ((BlockCursor.ofSize data.size blockSize).toList.map fun b => H.leaf (b.bytes data)).toArray

theorem size_leafRow (H : Hasher D) (blockSize : Nat) (data : ByteArray) :
    (leafRow H blockSize data).size = blockCount data.size blockSize := by
  simp [leafRow, BlockCursor.length_toList, BlockCursor.remaining, BlockCursor.ofSize]

theorem leafRow_pos (H : Hasher D) {blockSize : Nat} {data : ByteArray} (hb : 0 < blockSize)
    (hd : 0 < data.size) : 0 < (leafRow H blockSize data).size := by
  rw [size_leafRow, blockCount]
  exact Nat.div_pos (by omega) hb

def Levels.ofBytes (H : Hasher D) (shape : Shape) (data : ByteArray) (hb : 0 < shape.blockSize)
    (hd : 0 < data.size) : Levels D :=
  Levels.build H shape.oddPolicy (leafRow H shape.blockSize data) (leafRow_pos H hb hd)

/-- A buffer with the rows of digests over its first `size` bytes. -/
structure Tree (D : Type) where
  buffer : Buffer
  size : Nat
  shape : Shape
  levels : Levels D
  size_pos : 0 < size
  blockSize_pos : 0 < shape.blockSize

inductive Comparison
  | equal
  | differsAt (offset : Nat)
  | incomparable
  deriving DecidableEq, Repr

def Comparison.offset? : Comparison → Option Nat
  | .differsAt offset => some offset
  | _ => none

namespace Tree

/-- Builds a tree over the visible bytes. A block size of zero is reported before an empty
buffer. -/
def build (H : Hasher D) (shape : Shape) (buffer : Buffer) : Except Error (Tree D) :=
  if hb : 0 < shape.blockSize then
    if hd : 0 < buffer.view.size then
      .ok {
        buffer, shape
        size := buffer.view.size
        levels := .ofBytes H shape buffer.view hb hd
        size_pos := hd
        blockSize_pos := hb }
    else .error .emptyBuffer
  else .error .invalidBlockSize

-- ---------------------------------------------------------------------------
-- What a tree holds
-- ---------------------------------------------------------------------------

def blockCount (t : Tree D) : Nat :=
  t.levels.leaves.size

def height (t : Tree D) : Nat :=
  t.levels.height

def root (t : Tree D) : D :=
  t.levels.top

def leaf? (t : Tree D) (index : Nat) : Option D :=
  t.levels.leaves[index]?

def row? (t : Tree D) (index : Nat) : Option (Array D) :=
  t.levels.toList[index]?

/-- The present bytes of a block; refused if the block is not all visible. -/
def block? (t : Tree D) (index : Nat) : Except Fault (Option ByteArray) :=
  if index < t.blockCount then
    let start := index * t.shape.blockSize
    some <$> t.buffer.slice start (min (start + t.shape.blockSize) t.size)
  else .ok none

def path (t : Tree D) (index : Nat) : Except Error (AuditPath D) :=
  if index < t.blockCount then
    .ok { block := index, steps := t.levels.pathSteps t.shape.oddPolicy index }
  else .error (.blockOutOfRange index t.blockCount)

def outline (alg : Algorithm D) (t : Tree D) : Text.Outline :=
  .record "MerkleTree"
    [("size", .leaf (toString t.size)), ("config", t.shape.outline),
     ("blocks", .leaf (toString t.blockCount)), ("root", alg.outline t.root)]

-- ---------------------------------------------------------------------------
-- Comparing
-- ---------------------------------------------------------------------------

section Comparing

variable [DecidableEq D]

def verify (H : Hasher D) (t : Tree D) (data : ByteArray) : Bool :=
  if h : data.size = t.size then
    (Levels.ofBytes H t.shape data t.blockSize_pos (h ▸ t.size_pos)).top = t.root
  else false

def comparable (a b : Tree D) : Bool :=
  a.shape = b.shape && a.blockCount = b.blockCount

omit [DecidableEq D] in
theorem comparable_iff {a b : Tree D} :
    a.comparable b = true ↔ a.shape = b.shape ∧ a.blockCount = b.blockCount := by
  simp [comparable]

/-- The first block in which two trees differ. Equal roots come before everything else. -/
def compareWith (a b : Tree D) : Comparison :=
  if a.root = b.root then .equal
  else if a.comparable b then
    .differsAt (a.levels.firstDifference b.levels * a.shape.blockSize)
  else .incomparable

def differingBlocks (a b : Tree D) : Option (List Nat) :=
  if a.root = b.root then some []
  else if a.comparable b then some (a.levels.differences b.levels)
  else none

end Comparing

-- ---------------------------------------------------------------------------
-- Editing
-- ---------------------------------------------------------------------------

def resize (t : Tree D) (length : Nat) : Tree D :=
  { t with buffer := t.buffer.resize length }

def write (t : Tree D) (start : Nat) (data : ByteArray) : Except Fault (Tree D) :=
  if h : t.size ≤ t.buffer.visible ∧ start + data.size ≤ t.size then
    .ok { t with
      buffer := t.buffer.splice start data
        (Nat.le_trans h.2 (Nat.le_trans h.1 t.buffer.visible_le)) }
  else .error .outOfView

def flip (t : Tree D) (start : Nat) (mask : UInt8) : Except Fault (UInt8 × Tree D) := do
  if h : start < t.buffer.bytes.size then
    let byte := t.buffer.bytes[start] ^^^ mask
    return (byte, ← t.write start [byte].toByteArray)
  else .error .outOfView

def fill (t : Tree D) (seed : UInt64) : Except Fault (Tree D) := do
  let old ← t.buffer.slice 0 t.size
  t.write 0 (SplitMix.fill old seed)

def rehash (H : Hasher D) (t : Tree D) : Except Fault (Tree D) :=
  if h : t.size ≤ t.buffer.visible then
    .ok { t with
      levels := .ofBytes H t.shape (t.buffer.bytes.extract 0 t.size) t.blockSize_pos (by
        have := t.buffer.visible_le
        have := t.size_pos
        simp
        omega) }
  else .error .outOfView

end Tree

-- ---------------------------------------------------------------------------
-- Calls of a build and of a proof
-- ---------------------------------------------------------------------------

def rowCalls (policy : OddPolicy) (row : Array D) : List (Call D) :=
  (List.range ((row.size + 1) / 2)).filterMap fun i =>
    match row[2 * i]?, row[2 * i + 1]?, policy with
    | some left, some right, _ => some (.combine left right)
    | some last, none, .duplicate => some (.combine last last)
    | _, _, _ => none

def Levels.calls (policy : OddPolicy) : Levels D → List (Call D)
  | .root _ => []
  | .row digests upper => rowCalls policy digests ++ upper.calls policy

def leafCalls (blockSize : Nat) (data : ByteArray) : List (Call D) :=
  (BlockCursor.ofSize data.size blockSize).toList.map fun b => .leaf (b.bytes data)

def buildCalls (H : Hasher D) (shape : Shape) (data : ByteArray) : List (Call D) :=
  leafCalls shape.blockSize data ++
    if h : 0 < (leafRow H shape.blockSize data).size then
      (Levels.build H shape.oddPolicy (leafRow H shape.blockSize data) h).calls shape.oddPolicy
    else []

def PathStep.call (current : D) : PathStep D → Call D
  | .left sibling => .combine sibling current
  | .right sibling => .combine current sibling

def stepCalls (H : Hasher D) (current : D) : List (PathStep D) → List (Call D)
  | [] => []
  | step :: steps => step.call current :: stepCalls H (step.apply H current) steps

def AuditPath.calls (path : AuditPath D) (H : Hasher D) (data : ByteArray) : List (Call D) :=
  .leaf data :: stepCalls H (H.leaf data) path.steps

theorem PathStep.digest_call (H : Hasher D) (current : D) (step : PathStep D) :
    (step.call current).digest H = step.apply H current := by
  cases step <;> rfl

end BlockTree
