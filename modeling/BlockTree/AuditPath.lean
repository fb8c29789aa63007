import BlockTree.Levels

/-!
# Audit paths

The digests beside the way from one block up to the root. Whoever holds the bytes of the block folds
the path over their digest and compares with the root. Folded over two byte strings a path has two
ways up, which come together where one step leads from two different digests to the same. On which
side the digests stand follows from the block's number, the number of blocks and the policy alone;
the other way round, the sides taken from the root down lead to one block.
-/

namespace BlockTree

variable {D : Type}

inductive PathStep (D : Type)
  | left (sibling : D)
  | right (sibling : D)
  deriving DecidableEq, Repr

def PathStep.apply (H : Hasher D) (current : D) : PathStep D → D
  | .left sibling => H.combine sibling current
  | .right sibling => H.combine current sibling

/-- The way from a block to the root. A row in which the node moved up unchanged has no step. -/
structure AuditPath (D : Type) where
  block : Nat
  steps : List (PathStep D)
  deriving DecidableEq, Repr

def AuditPath.root (path : AuditPath D) (H : Hasher D) (data : ByteArray) : D :=
  path.steps.foldl (PathStep.apply H) (H.leaf data)

@[simp] theorem AuditPath.root_nil (block : Nat) (H : Hasher D) (data : ByteArray) :
    (AuditPath.mk block []).root H data = H.leaf data := rfl

def AuditPath.verify [DecidableEq D] (path : AuditPath D) (H : Hasher D) (data : ByteArray)
    (root : D) : Bool :=
  path.root H data = root

def siblingIndex (i : Nat) : Nat :=
  if i % 2 = 0 then i + 1 else i - 1

/-- The step of node `i` of a row: its sibling; for a node without one, itself if it is combined
with itself, and nothing if it moves up unchanged. -/
def rowStep (policy : OddPolicy) (row : Array D) (i : Nat) : List (PathStep D) :=
  match row[siblingIndex i]?, policy with
  | some sibling, _ => [if i % 2 = 0 then .right sibling else .left sibling]
  | none, .promote => []
  | none, .duplicate => (row[i]?.map .right).toList

def Levels.pathSteps (policy : OddPolicy) : Levels D → Nat → List (PathStep D)
  | .root _, _ => []
  | .row digests upper, i => rowStep policy digests i ++ upper.pathSteps policy (i / 2)

-- ---------------------------------------------------------------------------
-- Where two contents come together
-- ---------------------------------------------------------------------------

namespace AuditPath

def digestAfter (path : AuditPath D) (H : Hasher D) (data : ByteArray) (k : Nat) : D :=
  (path.steps.take k).foldl (PathStep.apply H) (H.leaf data)

/-- Whether step `k` leads from different digests on the ways of two byte strings to the same. -/
def CollideAt (H : Hasher D) (path : AuditPath D) (a b : ByteArray) (k : Nat) : Prop :=
  ∃ step, path.steps[k]? = some step ∧ path.digestAfter H a k ≠ path.digestAfter H b k ∧
    step.apply H (path.digestAfter H a k) = step.apply H (path.digestAfter H b k)

end AuditPath

-- ---------------------------------------------------------------------------
-- The sides of a path
-- ---------------------------------------------------------------------------

inductive Side
  | left
  | right
  deriving DecidableEq, Repr

def PathStep.side {D : Type} : PathStep D → Side
  | .left _ => .left
  | .right _ => .right

def sides (policy : OddPolicy) (n i : Nat) : List Side :=
  if 1 < n then
    let here :=
      if i % 2 = 1 then [.left]
      else if i + 1 < n then [.right]
      else match policy with
        | .promote => []
        | .duplicate => [.right]
    here ++ sides policy ((n + 1) / 2) (i / 2)
  else []
termination_by n
decreasing_by omega

def Side.child (i : Nat) : Side → Nat
  | .left => 2 * i + 1
  | .right => 2 * i

/-- From node `i` of the row above down to a row of `n` nodes, by the next of the sides that are
left. To a node without a partner either side leads, or none if the node moved up unchanged. -/
def stepDown (policy : OddPolicy) (n i : Nat) (sides : List Side) : Option (Nat × List Side) :=
  if 2 * i + 1 < n then sides.head?.map fun side => (side.child i, sides.tail)
  else match policy with
    | .promote => some (2 * i, sides)
    | .duplicate => sides.head?.map fun _ => (2 * i, sides.tail)

def descend (policy : OddPolicy) (n : Nat) (sides : List Side) : Option (Nat × List Side) :=
  if 1 < n then
    (descend policy ((n + 1) / 2) sides).bind fun (i, rest) => stepDown policy n i rest
  else some (0, sides)
termination_by n
decreasing_by omega

/-- The block of `n` to which the sides of a path lead. None if they are too few or too many. -/
def ledTo? (policy : OddPolicy) (n : Nat) (sides : List Side) : Option Nat :=
  match descend policy n sides.reverse with
  | some (i, []) => some i
  | _ => none

end BlockTree
