import BlockTree.Block
import BlockTree.Hasher

/-!
# Rows of digests

A tree keeps its digests in rows: the leaves, and above each row of more than one digest a row in
which every two neighbours are combined, up to the root alone. Node `i` of a row has the nodes
`2 * i` and `2 * i + 1` of the row below as children. All walks between the leaves and the root
follow this structure. Two other accounts of the root stand beside it: over leaves that are padded
to a power of two, and split from the top down. Two trees of one shape and one number of blocks have
the same nodes, and collide where they make one digest by different calls.
-/

namespace BlockTree

variable {D : Type}

/-- Rows of digests from the leaves up, ending in the root. -/
inductive Levels (D : Type)
  | root (digest : D)
  | row (digests : Array D) (upper : Levels D)
  deriving Repr

def rowAbove (H : Hasher D) (policy : OddPolicy) (row : Array D) : Array D :=
  Array.ofFn (n := (row.size + 1) / 2) fun i =>
    if h : 2 * i.val + 1 < row.size then H.combine row[2 * i.val] row[2 * i.val + 1]
    else policy.lift H row[2 * i.val]

@[simp] theorem size_rowAbove (H : Hasher D) (policy : OddPolicy) (row : Array D) :
    (rowAbove H policy row).size = (row.size + 1) / 2 := by
  simp [rowAbove]

theorem size_rowAbove_pos (H : Hasher D) (policy : OddPolicy) {row : Array D} (h : 0 < row.size) :
    0 < (rowAbove H policy row).size := by
  rw [size_rowAbove]
  omega

namespace Levels

def build (H : Hasher D) (policy : OddPolicy) (leaves : Array D) (h : 0 < leaves.size) :
    Levels D :=
  if 1 < leaves.size then
    row leaves (build H policy (rowAbove H policy leaves) (size_rowAbove_pos H policy h))
  else root leaves[0]
termination_by leaves.size
decreasing_by simp; omega

def top : Levels D → D
  | root digest => digest
  | row _ upper => upper.top

def leaves : Levels D → Array D
  | root digest => #[digest]
  | row digests _ => digests

def toList : Levels D → List (Array D)
  | root digest => [#[digest]]
  | row digests upper => digests :: upper.toList

def height : Levels D → Nat
  | root _ => 1
  | row _ upper => upper.height + 1

theorem build_of_size_eq_one (H : Hasher D) (policy : OddPolicy) (leaves : Array D)
    (h : leaves.size = 1) :
    build H policy leaves (h ▸ Nat.one_pos) = root (leaves[0]) := by
  rw [build, if_neg (by omega)]

theorem build_of_one_lt (H : Hasher D) (policy : OddPolicy) (leaves : Array D)
    (h : 1 < leaves.size) :
    build H policy leaves (Nat.zero_lt_of_lt h) =
      row leaves (build H policy (rowAbove H policy leaves)
        (size_rowAbove_pos H policy (Nat.zero_lt_of_lt h))) := by
  rw [build, if_pos h]

theorem leaves_build (H : Hasher D) (policy : OddPolicy) (leaves : Array D) (h : 0 < leaves.size) :
    (build H policy leaves h).leaves = leaves := by
  by_cases h₁ : 1 < leaves.size
  · rw [build_of_one_lt H policy leaves h₁]
    rfl
  · have hs : leaves.size = 1 := by omega
    rw [build_of_size_eq_one H policy leaves hs]
    exact Array.ext (by simp [Levels.leaves, hs]) fun i hi hj => by
      have : i = 0 := by omega
      subst this
      rfl

@[simp] theorem length_toList (levels : Levels D) : levels.toList.length = levels.height := by
  induction levels with
  | root => rfl
  | row _ upper ih => simp [toList, height, ih]

theorem head?_toList (levels : Levels D) : levels.toList.head? = some levels.leaves := by
  cases levels <;> rfl

section Walks

variable [DecidableEq D]

/-- The leaf that a walk from the root reaches when it always takes the left child if that
differs, and the right one otherwise. -/
def firstDifference : Levels D → Levels D → Nat
  | row a upperA, row b upperB =>
    let i := firstDifference upperA upperB
    if 2 * i + 1 < a.size ∧ a[2 * i]? = b[2 * i]? then 2 * i + 1 else 2 * i
  | _, _ => 0

/-- The leaves that a walk from the root reaches when it takes every child that differs. -/
def differences : Levels D → Levels D → List Nat
  | row a upperA, row b upperB =>
    ((differences upperA upperB).flatMap fun i => [2 * i, 2 * i + 1]).filter fun c =>
      c < a.size ∧ a[c]? ≠ b[c]?
  | _, _ => [0]

end Walks

end Levels

-- ---------------------------------------------------------------------------
-- Padded perfect trees
-- ---------------------------------------------------------------------------

def isPowerOfTwo (n : Nat) : Bool :=
  n = 1 <<< n.log2

/-- One round of padding: if the list does not fill a number of parts of `2 ^ k` digests that is
even, its last part is repeated. -/
def padRound (digests : List D) (k : Nat) : List D :=
  if !isPowerOfTwo digests.length && digests.length / (1 <<< k) % 2 = 1 then
    digests ++ digests.drop (digests.length - 1 <<< k)
  else digests

/-- The list padded in rounds of parts of one digest, two digests, four digests and so on, until
its length is a power of two. -/
def pad (digests : List D) : List D :=
  (List.range digests.length).foldl padRound digests

def perfectRoot? (H : Hasher D) : Nat → List D → Option D
  | 0, digests => digests.head?
  | depth + 1, digests =>
    match perfectRoot? H depth (digests.take (1 <<< depth)),
      perfectRoot? H depth (digests.drop (1 <<< depth)) with
    | some left, some right => some (H.combine left right)
    | _, _ => none

-- ---------------------------------------------------------------------------
-- Roots from the top down
-- ---------------------------------------------------------------------------

def splitRoot? (H : Hasher D) (digests : List D) : Option D :=
  if 1 < digests.length then
    let p := splitPoint digests.length
    match splitRoot? H (digests.take p), splitRoot? H (digests.drop p) with
    | some left, some right => some (H.combine left right)
    | _, _ => none
  else digests.head?
termination_by digests.length
decreasing_by
  · have := splitPoint_lt (n := digests.length) (by assumption)
    simp only [List.length_take]
    omega
  · have := splitPoint_pos digests.length
    simp only [List.length_drop]
    omega

@[simp] theorem splitRoot?_nil (H : Hasher D) : splitRoot? H [] = none := by
  simp [splitRoot?]

@[simp] theorem splitRoot?_singleton (H : Hasher D) (d : D) : splitRoot? H [d] = some d := by
  simp [splitRoot?]

/-- The leaves below node `j` of row `k`: `2 ^ k` of them, or as many as are left. -/
def leavesBelow (leaves : List D) (k j : Nat) : List D :=
  leaves.extract (j * Nat.pow 2 k) (min ((j + 1) * Nat.pow 2 k) leaves.length)

theorem leavesBelow_eq (leaves : List D) (k j : Nat) :
    leavesBelow leaves k j = (leaves.drop (j * Nat.pow 2 k)).take (Nat.pow 2 k) := by
  rw [leavesBelow, List.extract_eq_take_drop, Nat.succ_mul j, List.take_eq_take_iff,
    List.length_drop]
  generalize j * Nat.pow 2 k = start, Nat.pow 2 k = width
  omega

theorem length_leavesBelow (leaves : List D) (k j : Nat) :
    (leavesBelow leaves k j).length = min (Nat.pow 2 k) (leaves.length - j * Nat.pow 2 k) := by
  rw [leavesBelow_eq, List.length_take, List.length_drop]

theorem leavesBelow_succ (leaves : List D) (k j : Nat) :
    leavesBelow leaves (k + 1) j =
      leavesBelow leaves k (2 * j) ++ leavesBelow leaves k (2 * j + 1) := by
  have hwidth : Nat.pow 2 (k + 1) = Nat.pow 2 k + Nat.pow 2 k := Nat.mul_two _
  have hstart : j * Nat.pow 2 (k + 1) = 2 * j * Nat.pow 2 k := by
    rw [hwidth, ← Nat.two_mul, ← Nat.mul_assoc, Nat.mul_comm j]
  simp only [leavesBelow_eq]
  rw [hstart, hwidth, List.take_add, List.drop_drop, Nat.succ_mul (2 * j)]

-- ---------------------------------------------------------------------------
-- Collisions between two trees
-- ---------------------------------------------------------------------------

/-- The call that makes the digest above two children, the right of which may be missing. A digest
that moves up unchanged needs none. -/
def OddPolicy.call? : OddPolicy → Option D → Option D → Option (Call D)
  | _, some left, some right => some (.combine left right)
  | .promote, some _, none => none
  | .duplicate, some last, none => some (.combine last last)
  | _, none, _ => none

def BlocksCollideAt (H : Hasher D) (blockSize : Nat) (a b : ByteArray) (i : Nat) : Prop :=
  (Call.leaf (blockBytes blockSize a i)).Collide H (.leaf (blockBytes blockSize b i))

/-- Whether two trees make node `i` of row `level` by calls that collide. -/
inductive Levels.CollideAt (H : Hasher D) (policy : OddPolicy) :
    Levels D → Levels D → (level i : Nat) → Prop
  | here {rowA rowB : Array D} {upperA upperB : Levels D} {i : Nat} {callA callB : Call D}
      (hA : policy.call? rowA[2 * i]? rowA[2 * i + 1]? = some callA)
      (hB : policy.call? rowB[2 * i]? rowB[2 * i + 1]? = some callB)
      (h : callA.Collide H callB) :
      CollideAt H policy (.row rowA upperA) (.row rowB upperB) 1 i
  | above {rowA rowB : Array D} {upperA upperB : Levels D} {level i : Nat}
      (h : CollideAt H policy upperA upperB level i) :
      CollideAt H policy (.row rowA upperA) (.row rowB upperB) (level + 1) i

end BlockTree
