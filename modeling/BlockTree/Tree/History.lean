import BlockTree.Tree

/-!
# Histories of trees

The operations that change a tree or its buffer, and what remains after any sequence of them; then
several trees at work, one of which is edited, copied together with its buffer, or asked something.
A refused operation leaves everything as it was. Beside the trees goes a record of the bytes that
each of them hashed at its latest build or rehash.
-/

namespace BlockTree

variable {D : Type}

-- ---------------------------------------------------------------------------
-- Edits of one tree
-- ---------------------------------------------------------------------------

inductive Edit
  | write (start : Nat) (data : ByteArray)
  | flip (start : Nat) (mask : UInt8)
  | fill (seed : UInt64)
  | resize (length : Nat)
  | rehash

def Edit.apply (H : Hasher D) (t : Tree D) : Edit → Except Fault (Tree D)
  | .write start data => t.write start data
  | .flip start mask => (·.2) <$> t.flip start mask
  | .fill seed => t.fill seed
  | .resize length => .ok (t.resize length)
  | .rehash => t.rehash H

/-- The tree after one operation, or the same tree if it is refused. -/
def Tree.after (H : Hasher D) (t : Tree D) (edit : Edit) : Tree D :=
  match edit.apply H t with
  | .ok changed => changed
  | .error _ => t

def Tree.run (H : Hasher D) (t : Tree D) (edits : List Edit) : Tree D :=
  edits.foldl (Tree.after H) t

def Edit.hashed (t : Tree D) (data : ByteArray) : Edit → ByteArray
  | .rehash => if t.size ≤ t.buffer.visible then t.buffer.bytes.extract 0 t.size else data
  | _ => data

/-- The states that a tree comes to, each with the bytes of its latest build or rehash. -/
inductive Tree.Reached (H : Hasher D) : Tree D → ByteArray → Prop
  | build {shape : Shape} {buffer : Buffer} {t : Tree D} (h : Tree.build H shape buffer = .ok t) :
      Reached H t buffer.view
  | edit {t : Tree D} {data : ByteArray} (e : Edit) (h : Reached H t data) :
      Reached H (t.after H e) (e.hashed t data)

/-- Whether the remembered rows are those over a byte string of the tree's size. -/
def Tree.Remembers (H : Hasher D) (t : Tree D) (data : ByteArray) : Prop :=
  ∃ h : 0 < data.size, data.size = t.size ∧
    t.levels = .ofBytes H t.shape data t.blockSize_pos h

-- ---------------------------------------------------------------------------
-- A tree and its copies at work
-- ---------------------------------------------------------------------------

inductive Query (D : Type)
  | size
  | shape
  | blockCount
  | height
  | root
  | leaf (index : Nat)
  | row (index : Nat)
  | path (index : Nat)
  | verify (data : ByteArray)
  | compareWith (other : Tree D)
  | differingBlocks (other : Tree D)
  | outline
  | view
  | block (index : Nat)

namespace Query

def Answer : Query D → Type
  | size | blockCount | height => Nat
  | shape => Shape
  | root => D
  | leaf _ => Option D
  | row _ => Option (Array D)
  | path _ => Except Error (AuditPath D)
  | verify _ => Bool
  | compareWith _ => Comparison
  | differingBlocks _ => Option (List Nat)
  | outline => Text.Outline
  | view => ByteArray
  | block _ => Option ByteArray

def ask [DecidableEq D] (alg : Algorithm D) (t : Tree D) : (q : Query D) → Except Fault q.Answer
  | size => .ok t.size
  | shape => .ok t.shape
  | blockCount => .ok t.blockCount
  | height => .ok t.height
  | root => .ok t.root
  | leaf index => .ok (t.leaf? index)
  | row index => .ok (t.row? index)
  | path index => .ok (t.path index)
  | verify data => .ok (t.verify alg.toHasher data)
  | compareWith other => .ok (t.compareWith other)
  | differingBlocks other => .ok (t.differingBlocks other)
  | outline => .ok (t.outline alg)
  | view => .ok t.buffer.view
  | block index => t.block? index

def ofDigests : Query D → Bool
  | view | block _ => false
  | _ => true

end Query

inductive Operation (D : Type)
  | edit (tree : Nat) (e : Edit)
  | copy (tree : Nat)
  | ask (tree : Nat) (q : Query D)

namespace Operation

/-- The trees after an operation. A copy comes last; without a tree of the number nothing is
done. -/
def apply [DecidableEq D] (alg : Algorithm D) (trees : List (Tree D)) :
    Operation D → Except Fault (List (Tree D))
  | edit tree e =>
    match trees[tree]? with
    | some t => trees.set tree <$> e.apply alg.toHasher t
    | none => .ok trees
  | copy tree => .ok (trees ++ trees[tree]?.toList)
  | ask tree q =>
    match trees[tree]? with
    | some t => (fun _ => trees) <$> q.ask alg t
    | none => .ok trees

def after [DecidableEq D] (alg : Algorithm D) (trees : List (Tree D)) (op : Operation D) :
    List (Tree D) :=
  match op.apply alg trees with
  | .ok changed => changed
  | .error _ => trees

def run [DecidableEq D] (alg : Algorithm D) (trees : List (Tree D)) (ops : List (Operation D)) :
    List (Tree D) :=
  ops.foldl (after alg) trees

/-- The record after an operation: a rehash that is not refused replaces the bytes of its tree, and
a copy has those of its original. -/
def record (trees : List (Tree D)) (hashed : List ByteArray) : Operation D → List ByteArray
  | edit tree e =>
    match trees[tree]?, hashed[tree]? with
    | some t, some data => hashed.set tree (e.hashed t data)
    | _, _ => hashed
  | copy tree => hashed ++ hashed[tree]?.toList
  | ask _ _ => hashed

def recordAll [DecidableEq D] (alg : Algorithm D) :
    List (Tree D) → List ByteArray → List (Operation D) → List ByteArray
  | _, hashed, [] => hashed
  | trees, hashed, op :: ops =>
    recordAll alg (op.after alg trees) (op.record trees hashed) ops

end Operation

end BlockTree
