import BlockTree.Error

/-!
# Hashers and the shape of trees

A hasher turns the bytes of a block into a digest and two digests into the digest of their parent.
Trees are built over any hasher; an algorithm is a hasher whose digests can also be written and read
as text. The shape of a tree is how many bytes a block has and what becomes of a digest without a
partner. What a root says about the bytes below it holds as far as the calls that were made have no
collision: `Unambiguous` asks that of the calls of a list only, never of the hasher as a whole. The
terms are a hasher of which no calls collide; where another hasher's calls do not either, its
digests tell the terms again: `Term.eq_of_digest_eq`.
-/

namespace BlockTree

/-- Two functions that make digests of type `D`: `leaf` of the bytes of a block, `combine` of
the digests of a left and a right child. -/
structure Hasher (D : Type) where
  leaf : ByteArray → D
  combine : D → D → D

/-- A hasher with a text form of its digests. `outline` is the digest as it shows in the
description of a tree. -/
structure Algorithm (D : Type) extends Hasher D where
  toHex : D → String
  ofHex : String → Except DigestFault D
  outline : D → Text.Outline

def Algorithm.read {D : Type} (alg : Algorithm D) (text : String) : Except Error D :=
  (alg.ofHex text).mapError (.invalidDigest text)

-- ---------------------------------------------------------------------------
-- Shapes
-- ---------------------------------------------------------------------------

/-- What the last digest of a row of odd length becomes in the row above. -/
inductive OddPolicy
  | promote
  | duplicate
  deriving DecidableEq, Repr

def OddPolicy.lift {D : Type} (H : Hasher D) : OddPolicy → D → D
  | .promote, d => d
  | .duplicate, d => H.combine d d

def OddPolicy.name : OddPolicy → String
  | .promote => "promote"
  | .duplicate => "duplicate"

def OddPolicy.outline : OddPolicy → Text.Outline
  | .promote => .leaf "Promote"
  | .duplicate => .leaf "Duplicate"

structure Shape where
  blockSize : Nat := 1024
  oddPolicy : OddPolicy := .promote
  deriving DecidableEq, Repr

def Shape.check (shape : Shape) : Except Error Unit :=
  if shape.blockSize = 0 then .error .invalidBlockSize else .ok ()

def Shape.outline (shape : Shape) : Text.Outline :=
  .record "TreeConfig"
    [("block_size", .leaf (toString shape.blockSize)), ("odd_policy", shape.oddPolicy.outline)]

-- ---------------------------------------------------------------------------
-- The left part
-- ---------------------------------------------------------------------------

/-- The largest power of two strictly below `n`, for `n > 1`. -/
def splitPoint (n : Nat) : Nat :=
  1 <<< (n - 1).log2

theorem splitPoint_eq (n : Nat) : splitPoint n = Nat.pow 2 (n - 1).log2 :=
  Nat.one_shiftLeft _

theorem splitPoint_pos (n : Nat) : 0 < splitPoint n := by
  rw [splitPoint_eq]
  exact Nat.two_pow_pos _

theorem splitPoint_lt {n : Nat} (h : 1 < n) : splitPoint n < n := by
  have h₁ : Nat.pow 2 (n - 1).log2 ≤ n - 1 := Nat.log2_self_le (by omega)
  rw [splitPoint_eq]
  omega

theorem splitPoint_eq_two_pow {k n : Nat} (hlt : Nat.pow 2 k < n) (hle : n ≤ Nat.pow 2 (k + 1)) :
    splitPoint n = Nat.pow 2 k := by
  have hpos : n - 1 ≠ 0 := by
    have htwo : 0 < Nat.pow 2 k := Nat.two_pow_pos k
    omega
  have hlow : Nat.pow 2 k ≤ n - 1 := by omega
  have hhigh : n - 1 < Nat.pow 2 (k + 1) := by omega
  have hlog : (n - 1).log2 = k := (Nat.log2_eq_iff hpos).mpr ⟨hlow, hhigh⟩
  calc splitPoint n = Nat.pow 2 (n - 1).log2 := splitPoint_eq n
    _ = Nat.pow 2 k := congrArg (Nat.pow 2) hlog

-- ---------------------------------------------------------------------------
-- Calls and collisions
-- ---------------------------------------------------------------------------

section

inductive Call (D : Type)
  | leaf (data : ByteArray)
  | combine (left right : D)

variable {D : Type}

instance [DecidableEq D] : DecidableEq (Call D)
  | .leaf a, .leaf b =>
    decidable_of_iff (a.data = b.data)
      ⟨fun h => congrArg Call.leaf (ByteArray.ext h), fun h => congrArg _ (Call.leaf.inj h)⟩
  | .combine left right, .combine left' right' =>
    decidable_of_iff (left = left' ∧ right = right')
      ⟨fun ⟨hl, hr⟩ => hl ▸ hr ▸ rfl, Call.combine.inj⟩
  | .leaf _, .combine _ _ => .isFalse nofun
  | .combine _ _, .leaf _ => .isFalse nofun

def Call.digest (H : Hasher D) : Call D → D
  | .leaf data => H.leaf data
  | .combine left right => H.combine left right

def Call.Collide (H : Hasher D) (a b : Call D) : Prop :=
  a ≠ b ∧ a.digest H = b.digest H

def Unambiguous (H : Hasher D) (calls : List (Call D)) : Prop :=
  ∀ a ∈ calls, ∀ b ∈ calls, a.digest H = b.digest H → a = b

def Call.Alike : Call D → Call D → Prop
  | .leaf _, .leaf _ => True
  | .combine _ _, .combine _ _ => True
  | _, _ => False

def UnambiguousAlike (H : Hasher D) (calls : List (Call D)) : Prop :=
  ∀ a ∈ calls, ∀ b ∈ calls, a.Alike b → a.digest H = b.digest H → a = b

theorem Unambiguous.alike {H : Hasher D} {calls : List (Call D)} (h : Unambiguous H calls) :
    UnambiguousAlike H calls :=
  fun a ha b hb _ => h a ha b hb

theorem Unambiguous.leaf_ne_combine {H : Hasher D} {calls : List (Call D)}
    (h : Unambiguous H calls) {data : ByteArray} {left right : D} (hleaf : .leaf data ∈ calls)
    (hcombine : .combine left right ∈ calls) : H.leaf data ≠ H.combine left right :=
  fun hsame => nomatch h _ hleaf _ hcombine hsame

instance [DecidableEq D] (H : Hasher D) (calls : List (Call D)) :
    Decidable (Unambiguous H calls) :=
  inferInstanceAs (Decidable (∀ a ∈ calls, ∀ b ∈ calls, a.digest H = b.digest H → a = b))

end

-- ---------------------------------------------------------------------------
-- A hasher without collisions
-- ---------------------------------------------------------------------------

/-- A digest that keeps the bytes or the children that it was made of. -/
inductive Term
  | leaf (data : ByteArray)
  | combine (left right : Term)
  deriving DecidableEq

namespace Term

def hasher : Hasher Term := ⟨leaf, combine⟩

theorem hasher_combine (left right : Term) :
    hasher.combine left right = combine left right := rfl

theorem digest_injective {a b : Call Term} (h : a.digest hasher = b.digest hasher) : a = b := by
  cases a <;> cases b <;> cases h <;> rfl

theorem not_collide (a b : Call Term) : ¬ a.Collide hasher b :=
  fun h => h.1 (digest_injective h.2)

theorem unambiguous (calls : List (Call Term)) : Unambiguous hasher calls :=
  fun _ _ _ _ hdigest => digest_injective hdigest

variable {D : Type} {H : Hasher D}

def digest (H : Hasher D) : Term → D
  | leaf data => H.leaf data
  | combine left right => H.combine (left.digest H) (right.digest H)

def call (H : Hasher D) : Term → Call D
  | leaf data => .leaf data
  | combine left right => .combine (left.digest H) (right.digest H)

def calls (H : Hasher D) : Term → List (Call D)
  | leaf data => [.leaf data]
  | combine left right =>
    .combine (left.digest H) (right.digest H) :: (left.calls H ++ right.calls H)

def blocks : Term → List ByteArray
  | leaf data => [data]
  | combine left right => left.blocks ++ right.blocks

theorem digest_call (t : Term) : (t.call H).digest H = t.digest H := by
  cases t <;> rfl

theorem call_mem_calls (t : Term) : t.call H ∈ t.calls H := by
  cases t <;> exact List.mem_cons_self

theorem call_eq_of_digest_eq {calls : List (Call D)} (h : Unambiguous H calls) {a b : Term}
    (ha : a.calls H ⊆ calls) (hb : b.calls H ⊆ calls) (hdigest : a.digest H = b.digest H) :
    a.call H = b.call H := by
  refine h _ (ha a.call_mem_calls) _ (hb b.call_mem_calls) ?_
  rw [digest_call, digest_call, hdigest]

theorem eq_of_digest_eq {calls : List (Call D)} (h : Unambiguous H calls) {a b : Term}
    (ha : a.calls H ⊆ calls) (hb : b.calls H ⊆ calls) (hdigest : a.digest H = b.digest H) :
    a = b := by
  induction a generalizing b with
  | leaf data =>
    have hcall := call_eq_of_digest_eq h ha hb hdigest
    cases b with
    | leaf other => rw [Call.leaf.inj hcall]
    | combine => cases hcall
  | combine left right ihl ihr =>
    have hcall := call_eq_of_digest_eq h ha hb hdigest
    cases b with
    | leaf => cases hcall
    | combine left' right' =>
      obtain ⟨hl, hr⟩ := Call.combine.inj hcall
      simp only [Term.calls, List.cons_subset, List.append_subset] at ha hb
      rw [ihl ha.2.1 hb.2.1 hl, ihr ha.2.2 hb.2.2 hr]

end Term

end BlockTree
