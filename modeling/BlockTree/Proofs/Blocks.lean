import BlockTree.Tree

/-!
# Blocks cover a byte string

Every byte stands in the block with the number of its position divided by the block size, so the
blocks of a byte string determine it: `eq_of_blockBytes_eq`. They do so whatever their size is,
since one after the other they are the byte string: `eq_of_blockList_eq`. The leaves of a tree are
the digests of these blocks, one for each: `getElem?_leafRow`.
-/

namespace BlockTree

-- ---------------------------------------------------------------------------
-- Byte strings by position
-- ---------------------------------------------------------------------------

theorem getElem?_extract (data : ByteArray) (start stop p : Nat) :
    (data.extract start stop).data[p]? =
      if start + p < stop then data.data[start + p]? else none := by
  simp only [ByteArray.data_extract, Array.getElem?_extract]
  split
  · rw [if_pos (by omega)]
  · split
    · exact (Array.getElem?_eq_none (by omega)).symm
    · rfl

theorem getElem?_extract_zero (data : ByteArray) (size p : Nat) :
    (data.extract 0 size).data[p]? = if p < size then data.data[p]? else none := by
  rw [getElem?_extract, Nat.zero_add]

theorem getElem?_copySlice {src dest : ByteArray} {start length : Nat} (hsrc : length ≤ src.size)
    (hdest : start + length ≤ dest.size) (p : Nat) :
    (src.copySlice 0 dest start length).data[p]? =
      if start ≤ p ∧ p < start + length then src.data[p - start]? else dest.data[p]? := by
  have hs : src.data.size = src.size := rfl
  have hd : dest.data.size = dest.size := rfl
  have hbefore : (dest.data.extract 0 start).size = start := by
    simp only [Array.size_extract]
    omega
  simp only [ByteArray.copySlice_eq_append, ByteArray.data_append, ByteArray.data_extract,
    Nat.zero_add, Nat.sub_zero, hs, hd, Nat.min_eq_left hsrc, Array.append_assoc]
  rcases Nat.lt_or_ge p start with hp | hstart
  · rw [if_neg (by omega), Array.getElem?_append_left (by omega), Array.getElem?_extract,
      if_pos (by omega), Nat.zero_add]
  · rw [Array.getElem?_append_right (by omega), hbefore]
    rcases Nat.lt_or_ge p (start + length) with hp | hstop
    · rw [if_pos ⟨hstart, hp⟩, Array.getElem?_append_left (by simp; omega),
        Array.getElem?_extract, if_pos (by omega), Nat.zero_add]
    · rw [if_neg (by omega), Array.getElem?_append_right (by simp; omega)]
      simp only [Array.getElem?_extract, Array.size_extract]
      split
      · congr 1
        omega
      · exact (Array.getElem?_eq_none (by omega)).symm

-- ---------------------------------------------------------------------------
-- Blocks
-- ---------------------------------------------------------------------------

theorem lt_blockCount_iff {size blockSize i : Nat} (hb : 0 < blockSize) :
    i < blockCount size blockSize ↔ i * blockSize < size := by
  rw [blockCount, Nat.lt_div_iff_mul_lt hb]
  omega

theorem div_lt_blockCount {size blockSize p : Nat} (hb : 0 < blockSize) (hp : p < size) :
    p / blockSize < blockCount size blockSize := by
  rw [lt_blockCount_iff hb]
  exact Nat.lt_of_le_of_lt (Nat.div_mul_le_self p blockSize) hp

theorem size_blockBytes (blockSize : Nat) (data : ByteArray) (i : Nat) :
    (blockBytes blockSize data i).size = min blockSize (data.size - i * blockSize) := by
  simp only [blockBytes, Block.nth, Block.bytes, ByteArray.size_extract]
  omega

theorem getElem_blockBytes {blockSize : Nat} {data : ByteArray} {i j : Nat}
    (hj : j < (blockBytes blockSize data i).size) (hpos : i * blockSize + j < data.size) :
    (blockBytes blockSize data i)[j] = data[i * blockSize + j] := by
  simp only [blockBytes, Block.nth, Block.bytes, ByteArray.getElem_extract]

theorem getElem?_blockBytes (blockSize : Nat) (data : ByteArray) (i j : Nat) :
    (blockBytes blockSize data i).data[j]? =
      if j < blockSize then data.data[i * blockSize + j]? else none := by
  have hsize : data.data.size = data.size := rfl
  simp only [blockBytes, Block.nth, Block.bytes, ByteArray.data_extract, Array.getElem?_extract]
  split
  · rw [if_pos (by omega)]
  · split
    · exact (Array.getElem?_eq_none (by omega)).symm
    · rfl

theorem blockBytes_congr {blockSize : Nat} {a b : ByteArray} {i : Nat}
    (h : ∀ p, p / blockSize = i → a.data[p]? = b.data[p]?) :
    blockBytes blockSize a i = blockBytes blockSize b i := by
  refine ByteArray.ext (Array.ext_getElem? fun j => ?_)
  rw [getElem?_blockBytes, getElem?_blockBytes]
  split
  · next hj =>
    refine h _ ?_
    rw [Nat.mul_comm, Nat.mul_add_div (Nat.zero_lt_of_lt hj), Nat.div_eq_of_lt hj, Nat.add_zero]
  · rfl

theorem mod_lt_size_blockBytes {blockSize : Nat} (hb : 0 < blockSize) {data : ByteArray} {p : Nat}
    (hp : p < data.size) : p % blockSize < (blockBytes blockSize data (p / blockSize)).size := by
  have hlt := Nat.mod_lt p hb
  have hsum := Nat.div_add_mod' p blockSize
  rw [size_blockBytes]
  omega

theorem getElem_eq_getElem_blockBytes {blockSize : Nat} {data : ByteArray} {p : Nat}
    (hp : p < data.size)
    (hmod : p % blockSize < (blockBytes blockSize data (p / blockSize)).size) :
    data[p] = (blockBytes blockSize data (p / blockSize))[p % blockSize] := by
  have hsum : p / blockSize * blockSize + p % blockSize = p := Nat.div_add_mod' p blockSize
  rw [getElem_blockBytes hmod (by omega)]
  congr 1
  exact hsum.symm

theorem eq_of_blockBytes_eq {blockSize : Nat} (hb : 0 < blockSize) {a b : ByteArray}
    (hsize : a.size = b.size)
    (h : ∀ i < blockCount a.size blockSize, blockBytes blockSize a i = blockBytes blockSize b i) :
    a = b := by
  refine ByteArray.ext_getElem hsize fun p hpa hpb => ?_
  have hblock : p / blockSize < blockCount a.size blockSize := div_lt_blockCount hb hpa
  rw [getElem_eq_getElem_blockBytes hpa (mod_lt_size_blockBytes hb hpa),
    getElem_eq_getElem_blockBytes hpb (mod_lt_size_blockBytes hb hpb)]
  simp only [h _ hblock]

theorem getElem?_leafRow {D : Type} (H : Hasher D) (blockSize : Nat) (data : ByteArray) {i : Nat}
    (hi : i < blockCount data.size blockSize) :
    (leafRow H blockSize data)[i]? = some (H.leaf (blockBytes blockSize data i)) := by
  have hnth : (List.range' 0 (blockCount data.size blockSize))[i]? = some i := by
    simp [hi]
  simp [leafRow, BlockCursor.toList, BlockCursor.ofSize, BlockCursor.remaining, blockBytes, hnth]

theorem getElem?_leafRow_congr {D : Type} (H : Hasher D) {blockSize i : Nat} {a b : ByteArray}
    (hcount : i < blockCount a.size blockSize ↔ i < blockCount b.size blockSize)
    (hblock : i < blockCount a.size blockSize →
      blockBytes blockSize a i = blockBytes blockSize b i) :
    (leafRow H blockSize a)[i]? = (leafRow H blockSize b)[i]? := by
  by_cases hi : i < blockCount a.size blockSize
  · rw [getElem?_leafRow H _ _ hi, getElem?_leafRow H _ _ (hcount.mp hi), hblock hi]
  · rw [Array.getElem?_eq_none (by rw [size_leafRow]; omega),
      Array.getElem?_eq_none (by rw [size_leafRow]; omega)]

@[simp] theorem length_blockList (blockSize : Nat) (data : ByteArray) :
    (blockList blockSize data).length = blockCount data.size blockSize := by
  simp [blockList]

theorem leafRow_eq {D : Type} (H : Hasher D) (blockSize : Nat) (data : ByteArray) :
    leafRow H blockSize data = ((blockList blockSize data).map H.leaf).toArray := by
  simp [leafRow, blockList, BlockCursor.toList, BlockCursor.ofSize, BlockCursor.remaining,
    List.range_eq_range', Function.comp_def, blockBytes]

theorem blockBytes_append {blockSize : Nat} {data : ByteArray} {i : Nat}
    (hi : i * blockSize < data.size) :
    blockBytes blockSize data i ++ data.extract ((i + 1) * blockSize) data.size =
      data.extract (i * blockSize) data.size := by
  simp only [blockBytes, Block.nth, Block.bytes, Nat.succ_mul]
  rcases Nat.le_total (i * blockSize + blockSize) data.size with hfull | hlast
  · have hlength : min blockSize (data.size - i * blockSize) = blockSize := by omega
    rw [hlength]
    exact (ByteArray.extract_eq_extract_append_extract _ (by omega) hfull).symm
  · have hlength : i * blockSize + min blockSize (data.size - i * blockSize) = data.size := by
      omega
    have hnone : data.extract (i * blockSize + blockSize) data.size = .empty :=
      ByteArray.extract_eq_empty_iff.mpr (by omega)
    rw [hlength, hnone, ByteArray.append_empty]

theorem foldr_blocks {blockSize : Nat} (hb : 0 < blockSize) {data : ByteArray} {first count : Nat}
    (h : first + count = blockCount data.size blockSize) :
    ((List.range' first count).map (blockBytes blockSize data)).foldr (· ++ ·) .empty =
      data.extract (first * blockSize) data.size := by
  induction count generalizing first with
  | zero =>
    have hend : ¬ first * blockSize < data.size := by
      rw [← lt_blockCount_iff hb]
      omega
    exact (ByteArray.extract_eq_empty_iff.mpr (by omega)).symm
  | succ count ih =>
    have hstart : first * blockSize < data.size := by
      rw [← lt_blockCount_iff hb]
      omega
    rw [List.range'_succ, List.map_cons, List.foldr_cons, ih (by omega)]
    exact blockBytes_append hstart

theorem foldr_blockList {blockSize : Nat} (hb : 0 < blockSize) (data : ByteArray) :
    (blockList blockSize data).foldr (· ++ ·) .empty = data := by
  rw [blockList, List.range_eq_range', foldr_blocks hb (Nat.zero_add _), Nat.zero_mul,
    ByteArray.extract_zero_size]

theorem eq_of_blockList_eq {blockSizeA blockSizeB : Nat} (hA : 0 < blockSizeA)
    (hB : 0 < blockSizeB) {a b : ByteArray} (h : blockList blockSizeA a = blockList blockSizeB b) :
    a = b := by
  rw [← foldr_blockList hA a, h, foldr_blockList hB b]

/-- While all bytes of a tree are visible, its blocks are those of its present bytes. -/
theorem Tree.block?_eq {D : Type} {t : Tree D} (hvisible : t.size ≤ t.buffer.visible) {i : Nat}
    (hi : i < t.blockCount) (hstart : i * t.shape.blockSize < t.size) :
    t.block? i =
      .ok (some (blockBytes t.shape.blockSize (t.buffer.bytes.extract 0 t.size) i)) := by
  have hle := t.buffer.visible_le
  have hstop : min (i * t.shape.blockSize + t.shape.blockSize) t.size ≤ t.buffer.visible := by
    omega
  rw [Tree.block?, if_pos hi]
  simp only [Buffer.slice, if_pos hstop, blockBytes, Block.nth, Block.bytes,
    ByteArray.extract_extract, ByteArray.size_extract, Functor.map, Except.map]
  congr 3 <;> omega

end BlockTree
