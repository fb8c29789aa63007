import BlockTree.Hasher

/-!
# The hashers at hand

FNV-1a with 64 bits and BLAKE3, the algorithms among which a user chooses by name. FNV-1a xors each
byte into the state and multiplies by the prime, modulo 2^64. BLAKE3 compresses chunks of 1024 bytes
block by block and joins the chunk values by a binary tree whose left part is the largest power of
two of chunks. Both make the digest of a parent as that of a block whose bytes are the digests of
the children, one after the other. These bytes tell the children, but nothing tells them from those
of a block: a `Joining` says so.
-/

namespace BlockTree

-- ---------------------------------------------------------------------------
-- FNV-1a with 64 bits
-- ---------------------------------------------------------------------------

namespace Fnv

def offsetBasis : UInt64 := 14695981039346656037

def prime : UInt64 := 1099511628211

def absorb (state : UInt64) (byte : UInt8) : UInt64 :=
  (state ^^^ byte.toUInt64) * prime

def update (state : UInt64) (bytes : List UInt8) : UInt64 :=
  bytes.foldl absorb state

@[simp] theorem update_cons (state : UInt64) (b : UInt8) (bytes : List UInt8) :
    update state (b :: bytes) = update (absorb state b) bytes := rfl

theorem update_append (state : UInt64) (first second : List UInt8) :
    update state (first ++ second) = update (update state first) second :=
  List.foldl_append

def leaf (data : ByteArray) : UInt64 :=
  update offsetBasis data.data.toList

def combine (left right : UInt64) : UInt64 :=
  update (update offsetBasis (wordBytes left)) (wordBytes right)

theorem combine_eq_leaf (left right : UInt64) :
    combine left right = leaf (wordBytes left ++ wordBytes right).toByteArray := by
  simp [combine, leaf, update_append]

def toHex (d : UInt64) : String :=
  String.ofList (Text.Hex.digits 16 d.toNat)

/-- Reads sixteen characters, counted in bytes, as a hexadecimal numeral. A numeral may start
with a plus sign, which counts as one of the sixteen. -/
def ofHex (text : String) : Except DigestFault UInt64 :=
  if text.utf8ByteSize ≠ 16 then .error (.digitCount 16)
  else match Text.Numeral.read? 16 text.toList with
    | some n => .ok (UInt64.ofNat n)
    | none => .error .notNumeral

def algorithm : Algorithm UInt64 where
  leaf := leaf
  combine := combine
  toHex := toHex
  ofHex := ofHex
  outline d := .leaf (toString d.toNat)

end Fnv

-- ---------------------------------------------------------------------------
-- BLAKE3
-- ---------------------------------------------------------------------------

namespace Blake3

abbrev Chain := Vector UInt32 8

abbrev Words := Vector UInt32 16

def initialChain : Chain :=
  #v[0x6a09e667, 0xbb67ae85, 0x3c6ef372, 0xa54ff53a, 0x510e527f, 0x9b05688c, 0x1f83d9ab, 0x5be0cd19]

def chunkLength : Nat := 1024

def blockLength : Nat := 64

-- ---------------------------------------------------------------------------
-- Compression
-- ---------------------------------------------------------------------------

def rotateRight (w : UInt32) (n : UInt32) : UInt32 :=
  (w >>> n) ||| (w <<< (32 - n))

def mix (v : Words) (a b c d : Fin 16) (x y : UInt32) : Words :=
  let v := v.set a (v[a] + v[b] + x)
  let v := v.set d (rotateRight (v[d] ^^^ v[a]) 16)
  let v := v.set c (v[c] + v[d])
  let v := v.set b (rotateRight (v[b] ^^^ v[c]) 12)
  let v := v.set a (v[a] + v[b] + y)
  let v := v.set d (rotateRight (v[d] ^^^ v[a]) 8)
  let v := v.set c (v[c] + v[d])
  v.set b (rotateRight (v[b] ^^^ v[c]) 7)

def mixAll (v m : Words) : Words :=
  let v := mix v 0 4 8 12 m[0] m[1]
  let v := mix v 1 5 9 13 m[2] m[3]
  let v := mix v 2 6 10 14 m[4] m[5]
  let v := mix v 3 7 11 15 m[6] m[7]
  let v := mix v 0 5 10 15 m[8] m[9]
  let v := mix v 1 6 11 12 m[10] m[11]
  let v := mix v 2 7 8 13 m[12] m[13]
  mix v 3 4 9 14 m[14] m[15]

def schedule : Vector (Fin 16) 16 :=
  #v[2, 6, 3, 10, 7, 0, 4, 13, 1, 11, 12, 5, 9, 14, 15, 8]

def rounds : Nat → Words → Words → Words
  | 0, v, _ => v
  | n + 1, v, m => rounds n (mixAll v m) (schedule.map fun i => m[i])

def flagChunkStart : UInt32 := 1
def flagChunkEnd : UInt32 := 2
def flagParent : UInt32 := 4
def flagRoot : UInt32 := 8

/-- The input of one compression: a chain, the words of a block, its number among the chunks,
its length in bytes, and the flags of its place. -/
structure Node where
  chain : Chain
  message : Words
  counter : UInt64
  length : UInt32
  flags : UInt32

def Node.compress (node : Node) : Chain :=
  let h := node.chain
  let v := rounds 7
    #v[h[0], h[1], h[2], h[3], h[4], h[5], h[6], h[7],
       initialChain[0], initialChain[1], initialChain[2], initialChain[3],
       node.counter.toUInt32, (node.counter >>> 32).toUInt32, node.length, node.flags]
    node.message
  #v[v[0] ^^^ v[8], v[1] ^^^ v[9], v[2] ^^^ v[10], v[3] ^^^ v[11],
     v[4] ^^^ v[12], v[5] ^^^ v[13], v[6] ^^^ v[14], v[7] ^^^ v[15]]

-- ---------------------------------------------------------------------------
-- Chunks and their tree
-- ---------------------------------------------------------------------------

def byteAt (data : ByteArray) (offset : Nat) : UInt32 :=
  if h : offset < data.size then data[offset].toUInt32 else 0

def wordsAt (data : ByteArray) (offset : Nat) : Words :=
  Vector.ofFn fun i =>
    let start := offset + 4 * i.val
    byteAt data start ||| (byteAt data (start + 1) <<< 8) |||
      (byteAt data (start + 2) <<< 16) ||| (byteAt data (start + 3) <<< 24)

/-- The last compression of a chunk: `blocks` full blocks from `offset` on, then a last block of
`rest` bytes. -/
def chunkNode (data : ByteArray) (counter : UInt64) :
    (blocks : Nat) → (rest : Nat) → (offset : Nat) → (flags : UInt32) → Chain → Node
  | 0, rest, offset, flags, chain =>
    { chain, message := wordsAt data offset, counter, length := UInt32.ofNat rest
      flags := flags ||| flagChunkEnd }
  | blocks + 1, rest, offset, flags, chain =>
    chunkNode data counter blocks rest (offset + blockLength) 0
      (Node.compress { chain, message := wordsAt data offset, counter, length := 64, flags })

/-- The last compression of the tree over `count` chunks from chunk `first` on. -/
def treeNode (data : ByteArray) (first count : Nat) : Node :=
  if 1 < count then
    let left := treeNode data first (splitPoint count)
    let right := treeNode data (first + splitPoint count) (count - splitPoint count)
    { chain := initialChain, message := left.compress ++ right.compress, counter := 0
      length := 64, flags := flagParent }
  else
    let offset := first * chunkLength
    let length := min chunkLength (data.size - offset)
    let blocks := (length - 1) / blockLength
    chunkNode data (UInt64.ofNat first) blocks (length - blocks * blockLength) offset
      flagChunkStart initialChain
termination_by count
decreasing_by
  · exact splitPoint_lt (by assumption)
  · have := splitPoint_pos count; omega

abbrev Digest := Vector UInt8 32

def chainBytes (chain : Chain) : Digest :=
  Vector.ofFn fun i =>
    (chain[i.val / 4] >>> (8 * UInt32.ofNat (i.val % 4))).toUInt8

def leaf (data : ByteArray) : Digest :=
  let node := treeNode data 0 ((data.size + chunkLength - 1) / chunkLength)
  chainBytes (Node.compress { node with flags := node.flags ||| flagRoot })

def joined (left right : Digest) : ByteArray :=
  (left.toList ++ right.toList).toByteArray

def combine (left right : Digest) : Digest :=
  leaf (joined left right)

theorem combine_eq_leaf (left right : Digest) : combine left right = leaf (joined left right) :=
  rfl

-- ---------------------------------------------------------------------------
-- Digests as text
-- ---------------------------------------------------------------------------

def toHex (d : Digest) : String :=
  String.ofList (Text.Hex.encode d.toList)

/-- Reads 64 characters, counted in bytes, as two digits per byte. Once all of them are digits
they make 32 bytes, so the last case does not arise. -/
def ofHex (text : String) : Except DigestFault Digest :=
  if text.utf8ByteSize ≠ 64 then .error (.byteCount 64 text.utf8ByteSize)
  else match Text.Hex.decode text.toList with
    | .error c => .error (.notHex c)
    | .ok bytes =>
      if h : bytes.length = 32 then .ok ⟨bytes.toArray, by simp [h]⟩
      else .error (.byteCount 64 text.utf8ByteSize)

def algorithm : Algorithm Digest where
  leaf := leaf
  combine := combine
  toHex := toHex
  ofHex := ofHex
  outline d := .wrap "Hash" (.leaf (Text.Quoted.plain (toHex d)))

end Blake3

-- ---------------------------------------------------------------------------
-- A choice of algorithm
-- ---------------------------------------------------------------------------

inductive HashKind
  | blake3
  | fnv64
  deriving DecidableEq, Repr

namespace HashKind

def name : HashKind → String
  | .blake3 => "blake3"
  | .fnv64 => "fnv64"

def Digest : HashKind → Type
  | .blake3 => Blake3.Digest
  | .fnv64 => UInt64

instance : (kind : HashKind) → DecidableEq kind.Digest
  | .blake3 => inferInstanceAs (DecidableEq (Vector UInt8 32))
  | .fnv64 => inferInstanceAs (DecidableEq UInt64)

def algorithm : (kind : HashKind) → Algorithm kind.Digest
  | .blake3 => Blake3.algorithm
  | .fnv64 => Fnv.algorithm

end HashKind

-- ---------------------------------------------------------------------------
-- Parents hashed like blocks
-- ---------------------------------------------------------------------------

section

variable {D : Type} {H : Hasher D}

/-- How a hasher makes the digest of a parent as that of a block. -/
structure Joining (H : Hasher D) where
  join : D → D → ByteArray
  combine_eq : ∀ left right, H.combine left right = H.leaf (join left right)
  join_inj : ∀ {left right left' right'}, join left right = join left' right' →
    left = left' ∧ right = right'

namespace Joining

variable (J : Joining H) {calls : List (Call D)} {a b : Call D}

def bytes : Call D → ByteArray
  | .leaf data => data
  | .combine left right => J.join left right

theorem leaf_bytes (call : Call D) : H.leaf (J.bytes call) = call.digest H := by
  cases call with
  | leaf data => rfl
  | combine left right => exact (J.combine_eq left right).symm

theorem eq_of_bytes_eq (halike : a.Alike b) (h : J.bytes a = J.bytes b) : a = b := by
  cases a with
  | leaf data =>
    cases b with
    | leaf other => exact congrArg Call.leaf h
    | combine => exact halike.elim
  | combine left right =>
    cases b with
    | leaf => exact halike.elim
    | combine left' right' =>
      obtain ⟨rfl, rfl⟩ := J.join_inj h
      rfl

def CollideAmong (calls : List (Call D)) : Prop :=
  ∃ a ∈ calls, ∃ b ∈ calls, J.bytes a ≠ J.bytes b ∧ H.leaf (J.bytes a) = H.leaf (J.bytes b)

variable {J}

theorem bytes_eq_of_not_collideAmong (h : ¬ J.CollideAmong calls) (ha : a ∈ calls)
    (hb : b ∈ calls) (hdigest : a.digest H = b.digest H) : J.bytes a = J.bytes b := by
  refine Decidable.byContradiction fun hne => h ⟨a, ha, b, hb, hne, ?_⟩
  rw [J.leaf_bytes, J.leaf_bytes, hdigest]

theorem unambiguousAlike (h : ¬ J.CollideAmong calls) : UnambiguousAlike H calls :=
  fun _ ha _ hb halike hdigest =>
    J.eq_of_bytes_eq halike (bytes_eq_of_not_collideAmong h ha hb hdigest)

end Joining

-- ---------------------------------------------------------------------------
-- The bytes of a digest
-- ---------------------------------------------------------------------------

theorem getElem?_wordBytes (w : UInt64) {i : Nat} (hi : i < 8) :
    (wordBytes w)[i]? = some (w >>> UInt64.ofNat (8 * i)).toUInt8 := by
  simp [wordBytes, hi]

theorem testBit_wordByte (w : UInt64) {i k : Nat} (hi : i < 8) (hk : k < 8) :
    (w >>> UInt64.ofNat (8 * i)).toUInt8.toNat.testBit k = w.toNat.testBit (8 * i + k) := by
  have hshift : 8 * i % 2 ^ 64 % 64 = 8 * i := by omega
  rw [UInt64.toNat_toUInt8, UInt64.toNat_shiftRight, UInt64.toNat_ofNat', hshift,
    Nat.testBit_mod_two_pow, Nat.testBit_shiftRight, decide_eq_true hk, Bool.true_and]

theorem wordBytes_injective {v w : UInt64} (h : wordBytes v = wordBytes w) : v = w := by
  refine UInt64.toNat_inj.mp (Nat.eq_of_testBit_eq fun k => ?_)
  rcases Nat.lt_or_ge k 64 with hk | hk
  · -- Bit `k` of a word is bit `k % 8` of its byte `k / 8`.
    have hi : k / 8 < 8 := by omega
    have hlow : k % 8 < 8 := Nat.mod_lt k (by decide)
    have hbyte := congrArg (fun bytes => bytes[k / 8]?) h
    simp only [getElem?_wordBytes _ hi, Option.some.injEq] at hbyte
    have hbit := congrArg (fun byte => byte.toNat.testBit (k % 8)) hbyte
    rwa [testBit_wordByte v hi hlow, testBit_wordByte w hi hlow, Nat.div_add_mod] at hbit
  · have hlimit : 2 ^ 64 ≤ 2 ^ k := Nat.pow_le_pow_right (by decide) hk
    rw [Nat.testBit_lt_two_pow (Nat.lt_of_lt_of_le v.toNat_lt hlimit),
      Nat.testBit_lt_two_pow (Nat.lt_of_lt_of_le w.toNat_lt hlimit)]

def Fnv.joining : Joining Fnv.algorithm.toHasher where
  join left right := (wordBytes left ++ wordBytes right).toByteArray
  combine_eq left right := by simp only [Fnv.algorithm, Fnv.combine_eq_leaf]
  join_inj h := by
    obtain ⟨hl, hr⟩ := List.append_inj (List.toByteArray_inj.mp h)
      ((length_wordBytes _).trans (length_wordBytes _).symm)
    exact ⟨wordBytes_injective hl, wordBytes_injective hr⟩

def Blake3.joining : Joining Blake3.algorithm.toHasher where
  join := Blake3.joined
  combine_eq := Blake3.combine_eq_leaf
  join_inj {left right left' right'} h := by
    obtain ⟨hl, hr⟩ := List.append_inj (List.toByteArray_inj.mp h)
      (left.length_toList.trans left'.length_toList.symm)
    exact ⟨Vector.toList_inj.mp hl, Vector.toList_inj.mp hr⟩

def HashKind.joining : (kind : HashKind) → Joining kind.algorithm.toHasher
  | .blake3 => Blake3.joining
  | .fnv64 => Fnv.joining

end

end BlockTree
