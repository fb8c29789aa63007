import BlockTree.Tree

/-!
# Trees on machine words

The operations once more, done as a machine does them: numbers are words, rows and bytes are read
at places that have to be there. A sum, product or difference that is no word, a range that leaves
its bytes and a place that leaves its row have no result.
-/

namespace BlockTree.Checked

variable {D : Type}

-- ---------------------------------------------------------------------------
-- Words
-- ---------------------------------------------------------------------------

def add? (a b : Nat) : Option Nat :=
  if a + b < wordLimit then some (a + b) else none

def sub? (a b : Nat) : Option Nat :=
  if b ≤ a then some (a - b) else none

def mul? (a b : Nat) : Option Nat :=
  if a * b < wordLimit then some (a * b) else none

def divCeil? (a b : Nat) : Option Nat :=
  if b = 0 then none
  else if a % b = 0 then some (a / b)
  else add? (a / b) 1

def slice? (data : ByteArray) (start stop : Nat) : Option ByteArray :=
  if start ≤ stop ∧ stop ≤ data.size then some (data.extract start stop) else none

section Words

variable {a b : Nat}

@[simp] theorem add?_eq (h : a + b < wordLimit) : add? a b = some (a + b) :=
  if_pos h

@[simp] theorem sub?_eq (h : b ≤ a) : sub? a b = some (a - b) :=
  if_pos h

@[simp] theorem mul?_eq (h : a * b < wordLimit) : mul? a b = some (a * b) :=
  if_pos h

theorem slice?_eq {data : ByteArray} (hstart : a ≤ b) (hstop : b ≤ data.size) :
    slice? data a b = some (data.extract a b) :=
  if_pos ⟨hstart, hstop⟩

end Words

-- ---------------------------------------------------------------------------
-- Blocks
-- ---------------------------------------------------------------------------

def start? (size blockSize : Nat) : Option BlockCursor := do
  let count ← divCeil? size blockSize
  return { size, blockSize, next := 0, count }

def next? (c : BlockCursor) : Option (Option (Block × BlockCursor)) :=
  if c.count ≤ c.next then some none
  else do
    let start ← mul? c.next c.blockSize
    let rest ← sub? c.size start
    let next ← add? c.next 1
    return some (⟨c.next, start, min c.blockSize rest⟩, { c with next })

def remaining? (c : BlockCursor) : Option Nat :=
  sub? c.count c.next

def range? (b : Block) : Option (Nat × Nat) := do
  let stop ← add? b.start b.length
  return (b.start, stop)

def blockSlice? (b : Block) (data : ByteArray) : Option ByteArray := do
  let (start, stop) ← range? b
  slice? data start stop

-- ---------------------------------------------------------------------------
-- Rows
-- ---------------------------------------------------------------------------

theorem remaining_lt_of_next? {c rest : BlockCursor} {b : Block}
    (h : next? c = some (some (b, rest))) : rest.remaining < c.remaining := by
  unfold next? at h
  split at h
  · cases h
  · next hlt =>
    simp only [Option.bind_eq_bind, Option.bind_eq_some_iff] at h
    obtain ⟨start, -, left, -, next, hnext, hrest⟩ := h
    cases hrest
    unfold add? at hnext
    split at hnext <;> cases hnext
    simp only [BlockCursor.remaining]
    omega

def leaves? (H : Hasher D) (data : ByteArray) (c : BlockCursor) : Option (List D) :=
  match _hnext : next? c with
  | none => none
  | some none => some []
  | some (some (block, rest)) => do
    let bytes ← blockSlice? block data
    let digests ← leaves? H data rest
    return H.leaf bytes :: digests
termination_by c.remaining
decreasing_by exact remaining_lt_of_next? ‹_›

theorem leaves?_of_none (H : Hasher D) (data : ByteArray) {c : BlockCursor}
    (h : next? c = some none) : leaves? H data c = some [] := by
  rw [leaves?]
  split <;> simp_all

theorem leaves?_of_some (H : Hasher D) (data : ByteArray) {c rest : BlockCursor} {b : Block}
    (h : next? c = some (some (b, rest))) :
    leaves? H data c = do
      let bytes ← blockSlice? b data
      let digests ← leaves? H data rest
      return H.leaf bytes :: digests := by
  rw [leaves?]
  split <;> simp_all

def pairs : List D → List (List D)
  | left :: right :: rest => [left, right] :: pairs rest
  | [last] => [[last]]
  | [] => []

def parent? (H : Hasher D) (policy : OddPolicy) : List D → Option D
  | [left, right] => some (H.combine left right)
  | pair => do
    let last ← pair[0]?
    return policy.lift H last

def rowAbove? (H : Hasher D) (policy : OddPolicy) (row : Array D) : Option (Array D) := do
  let digests ← (pairs row.toList).mapM (parent? H policy)
  return digests.toArray

theorem length_pairs (row : List D) : (pairs row).length = (row.length + 1) / 2 := by
  induction row using pairs.induct with
  | case1 left right rest ih =>
    simp only [pairs, List.length_cons, ih]
    omega
  | case2 last => simp [pairs]
  | case3 => simp [pairs]

theorem length_of_mapM_eq_some {A B : Type} {f : A → Option B} {l : List A} {r : List B}
    (h : l.mapM f = some r) : r.length = l.length := by
  induction l generalizing r with
  | nil =>
    cases h
    rfl
  | cons a l ih =>
    simp only [List.mapM_cons, Option.bind_eq_bind, Option.bind_eq_some_iff] at h
    obtain ⟨b, -, bs, hbs, hr⟩ := h
    cases hr
    simp only [List.length_cons, ih hbs]

theorem size_rowAbove? {H : Hasher D} {policy : OddPolicy} {row above : Array D}
    (h : rowAbove? H policy row = some above) : above.size = (row.size + 1) / 2 := by
  simp only [rowAbove?, Option.bind_eq_bind, Option.bind_eq_some_iff] at h
  obtain ⟨digests, hdigests, habove⟩ := h
  cases habove
  simpa [length_pairs] using length_of_mapM_eq_some hdigests

def last? (rows : List (Array D)) : Option (Array D) := do
  rows[← sub? rows.length 1]?

theorem last?_append (rows : List (Array D)) (row : Array D) :
    last? (rows ++ [row]) = some row := by
  simp [last?]

def grow? (H : Hasher D) (policy : OddPolicy) (rows : List (Array D)) :
    Option (List (Array D)) :=
  match _hlast : last? rows with
  | none => none
  | some row =>
    if 1 < row.size then
      match _habove : rowAbove? H policy row with
      | none => none
      | some above => grow? H policy (rows ++ [above])
    else some rows
termination_by ((last? rows).map Array.size).getD 0
decreasing_by
  simp only [last?_append, _hlast, Option.map_some, Option.getD_some, size_rowAbove? _habove]
  omega

theorem grow?_eq_bind (H : Hasher D) (policy : OddPolicy) {rows : List (Array D)} {row : Array D}
    (h : last? rows = some row) :
    grow? H policy rows =
      if 1 < row.size then
        (rowAbove? H policy row).bind fun above => grow? H policy (rows ++ [above])
      else some rows := by
  rw [grow?]
  split
  · next hnone => cases hnone.symm.trans h
  · next last hlast =>
    cases hlast.symm.trans h
    split
    · split <;> simp_all
    · rfl

def rows? (H : Hasher D) (shape : Shape) (data : ByteArray) : Option (List (Array D)) := do
  let first ← start? data.size shape.blockSize
  let digests ← leaves? H data first
  grow? H shape.oddPolicy [digests.toArray]

-- ---------------------------------------------------------------------------
-- Walks
-- ---------------------------------------------------------------------------

/-- The step of node `i` of a row, whose sibling has the number that differs in the lowest bit. -/
def rowStep? (policy : OddPolicy) (row : Array D) (i : Nat) : Option (List (PathStep D)) :=
  let sibling := i ^^^ 1
  if sibling < row.size then do
    let digest ← row[sibling]?
    return [if i % 2 = 0 then .right digest else .left digest]
  else if policy = .duplicate then do
    let digest ← row[i]?
    return [.right digest]
  else some []

def climb? (policy : OddPolicy) : List (Array D) → Nat → Option (List (PathStep D))
  | [], _ => some []
  | row :: rows, i => do
    let step ← rowStep? policy row i
    let steps ← climb? policy rows (i / 2)
    return step ++ steps

/-- A walk down the lowest `k` rows of two trees, the upmost of them first. -/
def walk? {S : Type} (step : Array D → Array D → S → Option S) (rowsA rowsB : List (Array D)) :
    Nat → S → Option S
  | 0, state => some state
  | k + 1, state => do
    let rowA ← rowsA[k]?
    let rowB ← rowsB[k]?
    let state ← step rowA rowB state
    walk? step rowsA rowsB k state

section Steps

variable [DecidableEq D] (rowA rowB : Array D)

def descend? (i : Nat) : Option Nat := do
  let left ← mul? 2 i
  let right ← add? left 1
  if right < rowA.size then
    let a ← rowA[left]?
    let b ← rowB[left]?
    return if a = b then right else left
  else return left

def differing? (c : Nat) : Option (List Nat) :=
  if c < rowA.size then do
    let a ← rowA[c]?
    let b ← rowB[c]?
    return if a ≠ b then [c] else []
  else some []

def spread? : List Nat → Option (List Nat)
  | [] => some []
  | i :: nodes => do
    let left ← mul? 2 i
    let right ← add? (← mul? 2 i) 1
    let ofLeft ← differing? rowA rowB left
    let ofRight ← differing? rowA rowB right
    let rest ← spread? nodes
    return ofLeft ++ ofRight ++ rest

end Steps

-- ---------------------------------------------------------------------------
-- Trees
-- ---------------------------------------------------------------------------

def root? (rows : List (Array D)) : Option D := do
  let row ← last? rows
  row[0]?

def blockCount? (t : Tree D) : Option Nat := do
  let leaves ← t.levels.toList[0]?
  return leaves.size

def block? (t : Tree D) (i : Nat) : Option (Option ByteArray) := do
  let count ← blockCount? t
  if count ≤ i then return none
  else
    let start ← mul? i t.shape.blockSize
    let stop ← add? start t.shape.blockSize
    let bytes ← slice? t.buffer.view start (min stop t.size)
    return some bytes

def path? (t : Tree D) (i : Nat) : Option (Except Error (AuditPath D)) := do
  let count ← blockCount? t
  if count ≤ i then return .error (.blockOutOfRange i count)
  else
    let below ← sub? t.levels.toList.length 1
    let steps ← climb? t.shape.oddPolicy (t.levels.toList.take below) i
    return .ok ⟨i, steps⟩

def rehash? (H : Hasher D) (t : Tree D) : Option (List (Array D)) := do
  let data ← slice? t.buffer.view 0 t.size
  rows? H t.shape data

section Comparing

variable [DecidableEq D]

def verify? (H : Hasher D) (t : Tree D) (data : ByteArray) : Option Bool :=
  if data.size ≠ t.size then some false
  else do
    let rows ← rows? H t.shape data
    let rebuilt ← root? rows
    let root ← root? t.levels.toList
    return rebuilt = root

def comparable? (a b : Tree D) : Option Bool :=
  if a.shape = b.shape then do
    let countA ← blockCount? a
    let countB ← blockCount? b
    return countA = countB
  else some false

/-- What a comparison comes to if the roots are equal, by a walk, and if there is no walk. -/
def compare? {R : Type} (a b : Tree D) (equal : R) (walk : Option R) (incomparable : R) :
    Option R := do
  let rootA ← root? a.levels.toList
  let rootB ← root? b.levels.toList
  if rootA = rootB then return equal
  else if ← comparable? a b then walk
  else return incomparable

def compareWith? (a b : Tree D) : Option Comparison :=
  compare? a b .equal (do
    let below ← sub? a.levels.toList.length 1
    let i ← walk? descend? a.levels.toList b.levels.toList below 0
    let offset ← mul? i a.shape.blockSize
    return .differsAt offset) .incomparable

def differingBlocks? (a b : Tree D) : Option (Option (List Nat)) :=
  compare? a b (some []) (do
    let below ← sub? a.levels.toList.length 1
    let found ← walk? spread? a.levels.toList b.levels.toList below [0]
    return some found) none

end Comparing

end BlockTree.Checked
