import BlockTree.Text

/-!
# Blocks of a buffer

A buffer is cut into blocks of equal size; only the last may be shorter. The blocks are handed out
one by one in ascending order, each with its place. `toList_next?` says that taking the next block
takes the head off the list of the remaining ones. In the course of time a cursor is asked for
blocks or for their number, or it is copied, and from then on the copy is a cursor like the others.
-/

namespace BlockTree

structure Block where
  index : Nat
  start : Nat
  length : Nat
  deriving DecidableEq, Repr

def Block.range (b : Block) : Except Fault (Nat × Nat) :=
  if b.start + b.length < wordLimit then .ok (b.start, b.start + b.length) else .error .overflow

def Block.bytes (b : Block) (data : ByteArray) : ByteArray :=
  data.extract b.start (b.start + b.length)

def Block.slice (b : Block) (data : ByteArray) : Except Fault ByteArray := do
  let (_, stop) ← b.range
  if stop ≤ data.size then .ok (b.bytes data) else .error .outOfView

def Block.nth (size blockSize index : Nat) : Block where
  index := index
  start := index * blockSize
  length := min blockSize (size - index * blockSize)

def blockBytes (blockSize : Nat) (data : ByteArray) (index : Nat) : ByteArray :=
  (Block.nth data.size blockSize index).bytes data

def blockCount (size blockSize : Nat) : Nat :=
  (size + blockSize - 1) / blockSize

def blockList (blockSize : Nat) (data : ByteArray) : List ByteArray :=
  (List.range (blockCount data.size blockSize)).map (blockBytes blockSize data)

/-- The blocks of `size` bytes that are still to be handed out. -/
structure BlockCursor where
  size : Nat
  blockSize : Nat
  next : Nat
  count : Nat
  deriving DecidableEq, Repr

namespace BlockCursor

def ofSize (size blockSize : Nat) : BlockCursor where
  size := size
  blockSize := blockSize
  next := 0
  count := blockCount size blockSize

def start (size blockSize : Nat) : Except Fault BlockCursor :=
  if blockSize = 0 then .error .zeroDivisor else .ok (ofSize size blockSize)

def remaining (b : BlockCursor) : Nat :=
  b.count - b.next

def toList (b : BlockCursor) : List Block :=
  (List.range' b.next b.remaining).map (Block.nth b.size b.blockSize)

def next? (b : BlockCursor) : Option (Block × BlockCursor) :=
  if b.next < b.count then
    some (Block.nth b.size b.blockSize b.next, { b with next := b.next + 1 })
  else none

def skip (b : BlockCursor) (n : Nat) : BlockCursor :=
  { b with next := max b.next (min b.count (b.next + n)) }

/-- The block `n` places ahead, and what remains after it; nothing remains after a miss. -/
def pull (b : BlockCursor) (n : Nat) : Option Block × BlockCursor :=
  match (b.skip n).next? with
  | some (block, rest) => (some block, rest)
  | none => (none, b.skip n)

def last? (b : BlockCursor) : Option Block :=
  if b.next < b.count then some (Block.nth b.size b.blockSize (b.count - 1)) else none

def outline (b : BlockCursor) : Text.Outline :=
  .record "Blocks"
    [("size", .leaf (toString b.size)), ("block_size", .leaf (toString b.blockSize)),
     ("next", .leaf (toString b.next)), ("count", .leaf (toString b.count))]

theorem length_toList (b : BlockCursor) : b.toList.length = b.remaining := by
  simp [toList]

theorem toList_next? (b : BlockCursor) :
    b.toList = match b.next? with
      | some (block, rest) => block :: rest.toList
      | none => [] := by
  by_cases h : b.next < b.count
  · have : b.count - b.next = (b.count - (b.next + 1)) + 1 := by omega
    simp [next?, toList, remaining, h, this, List.range'_succ]
  · have : b.count - b.next = 0 := by omega
    simp [next?, toList, remaining, h, this]

theorem pull_zero_eq_next? (b : BlockCursor) (h : b.next ≤ b.count) :
    b.pull 0 = match b.next? with
      | some (block, rest) => (some block, rest)
      | none => (none, b) := by
  have : b.skip 0 = b := by
    cases b
    simp only [skip, BlockCursor.mk.injEq, true_and, and_true] at h ⊢
    omega
  simp [pull, this]

-- ---------------------------------------------------------------------------
-- Cursors in use
-- ---------------------------------------------------------------------------

inductive Use
  | next
  | nth (n : Nat)
  | length
  | bounds
  | last
  | rest

namespace Use

def Answer : Use → Type
  | next | nth _ | last => Option Block
  | length => Nat
  | bounds => Nat × Option Nat
  | rest => List Block

/-- The answer of a cursor, and the cursor afterwards. After the last block, or all that remain,
nothing remains. -/
def apply (c : BlockCursor) : (u : Use) → u.Answer × BlockCursor
  | next =>
    match c.next? with
    | some (block, after) => (some block, after)
    | none => (none, c)
  | nth n => c.pull n
  | length => (c.remaining, c)
  | bounds => ((c.remaining, some c.remaining), c)
  | last => (c.last?, c.skip c.remaining)
  | rest => (c.toList, c.skip c.remaining)

def onList (blocks : List Block) : (u : Use) → u.Answer × List Block
  | next => (blocks.head?, blocks.tail)
  | nth n => (blocks[n]?, blocks.drop (n + 1))
  | length => (blocks.length, blocks)
  | bounds => ((blocks.length, some blocks.length), blocks)
  | last => (blocks.getLast?, [])
  | rest => (blocks, [])

def takes : Use → Bool
  | length | bounds => false
  | _ => true

def blocks : (u : Use) → u.Answer → List Block
  | next, answer | nth _, answer | last, answer => Option.toList answer
  | length, _ | bounds, _ => []
  | rest, answer => answer

end Use

inductive Step
  | use (cursor : Nat) (u : Use)
  | copy (cursor : Nat)

end BlockCursor

end BlockTree
