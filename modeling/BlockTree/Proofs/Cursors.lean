import Mathlib
import BlockTree.Hasher.Kind
import BlockTree.Proofs.History

/-!
# Cursors as lists of blocks

A cursor answers like the list of the blocks that remain, from which every use takes some off the
front: `BlockCursor.Use.apply_eq_onList`. So what one use hands out comes before all that a later
one does, and after a miss there is nothing. Asked for its next block until there is none, it hands
out exactly the blocks that remain: from the start as many as the rounded-up quotient, which cover
all bytes and no byte twice, and a tree of this size shows the bytes of the same blocks.
-/

namespace BlockTree

variable {D : Type} {H : Hasher D} {size blockSize i m n p : Nat} {data : ByteArray}

-- ---------------------------------------------------------------------------
-- Blocks that remain
-- ---------------------------------------------------------------------------

namespace BlockCursor

variable {c : BlockCursor} {b : Block} {blocks : List Block}

@[simp] theorem size_skip (c : BlockCursor) (n : Nat) : (c.skip n).size = c.size := rfl

@[simp] theorem blockSize_skip (c : BlockCursor) (n : Nat) :
    (c.skip n).blockSize = c.blockSize := rfl

@[simp] theorem count_skip (c : BlockCursor) (n : Nat) : (c.skip n).count = c.count := rfl

theorem next_skip (h : c.next ≤ c.count) (n : Nat) :
    (c.skip n).next = min c.count (c.next + n) :=
  max_eq_right (le_min h (Nat.le_add_right _ _))

theorem skip_skip (c : BlockCursor) (m n : Nat) : (c.skip m).skip n = c.skip (m + n) := by
  simp only [skip, BlockCursor.mk.injEq, true_and, and_true]
  omega

theorem skip_zero (h : c.next ≤ c.count) : c.skip 0 = c := by
  simp only [skip, Nat.add_zero, min_eq_right h, max_self]

theorem skip_eq_skip (hm : c.remaining ≤ m) (hn : c.remaining ≤ n) : c.skip m = c.skip n := by
  simp only [remaining] at hm hn
  simp only [skip, BlockCursor.mk.injEq, true_and, and_true]
  omega

theorem getElem?_toList (c : BlockCursor) (i : Nat) :
    c.toList[i]? =
      if c.next + i < c.count then some (Block.nth c.size c.blockSize (c.next + i)) else none := by
  rw [toList, List.getElem?_map, remaining]
  split
  · rw [List.getElem?_range' (by omega)]
    simp
  · rw [List.getElem?_eq_none (by rw [List.length_range']; omega)]
    rfl

theorem pairwise_toList (c : BlockCursor) : c.toList.Pairwise fun a b => a.index < b.index :=
  List.pairwise_map.mpr List.pairwise_lt_range'

theorem toList_skip (h : c.next ≤ c.count) (n : Nat) : (c.skip n).toList = c.toList.drop n := by
  refine List.ext_getElem? fun i => ?_
  rw [List.getElem?_drop, getElem?_toList, getElem?_toList, next_skip h, count_skip, size_skip,
    blockSize_skip]
  by_cases hlt : c.next + (n + i) < c.count
  · rw [if_pos (by omega), if_pos hlt]
    congr 2
    omega
  · rw [if_neg (by omega), if_neg hlt]

theorem next?_eq_map (c : BlockCursor) :
    c.next? = c.toList[0]?.map fun b => (b, c.skip 1) := by
  rw [getElem?_toList, next?]
  by_cases hlt : c.next < c.count
  · rw [if_pos hlt, if_pos (show c.next + 0 < c.count from hlt), Option.map_some, skip,
      min_eq_right hlt, max_eq_right (Nat.le_succ _)]
    rfl
  · rw [if_neg hlt, if_neg (show ¬ c.next + 0 < c.count from hlt)]
    rfl

theorem next?_of_toList_eq_nil (hl : c.toList = []) : c.next? = none := by
  rw [next?_eq_map, hl]
  rfl

theorem next?_of_toList_eq_cons (hl : c.toList = b :: blocks) :
    c.next? = some (b, c.skip 1) ∧ (c.skip 1).toList = blocks := by
  have hnext : c.next? = some (b, c.skip 1) := by
    rw [next?_eq_map, hl]
    rfl
  rw [toList_next?, hnext] at hl
  exact ⟨hnext, (List.cons.inj hl).2⟩

theorem pull_eq (h : c.next ≤ c.count) (n : Nat) : c.pull n = (c.toList[n]?, c.skip (n + 1)) := by
  rw [pull, next?_eq_map, toList_skip h, List.getElem?_drop, skip_skip, Nat.add_zero]
  cases hn : c.toList[n]? with
  | some b => rfl
  | none =>
    -- Past the last block all skips come to the same place.
    have hmiss : c.remaining ≤ n := c.length_toList ▸ List.getElem?_eq_none_iff.mp hn
    exact congrArg (none, ·) (skip_eq_skip hmiss (Nat.le_succ_of_le hmiss))

theorem last?_eq (c : BlockCursor) : c.last? = c.toList.getLast? := by
  rw [List.getLast?_eq_getElem?, length_toList, getElem?_toList, last?, remaining]
  by_cases hlt : c.next < c.count
  · rw [if_pos hlt, if_pos (by omega)]
    congr 2
    omega
  · rw [if_neg hlt, if_neg (by omega)]

namespace Use

theorem apply_next (h : c.next ≤ c.count) : next.apply c = c.pull 0 :=
  (c.pull_zero_eq_next? h).symm

theorem exists_skip_of_apply (h : c.next ≤ c.count) (u : Use) : ∃ n, (u.apply c).2 = c.skip n := by
  cases u with
  | next => exact ⟨1, by rw [apply_next h, pull_eq h]⟩
  | nth n => exact ⟨n + 1, by rw [apply, pull_eq h]⟩
  | length => exact ⟨0, (skip_zero h).symm⟩
  | bounds => exact ⟨0, (skip_zero h).symm⟩
  | last => exact ⟨_, rfl⟩
  | rest => exact ⟨_, rfl⟩

/-- A cursor in use is the list of the blocks that remain. -/
theorem apply_eq_onList (h : c.next ≤ c.count) (u : Use) :
    (u.apply c).1 = (u.onList c.toList).1 ∧ (u.apply c).2.toList = (u.onList c.toList).2 := by
  have hall : (c.skip c.remaining).toList = [] := by
    rw [toList_skip h, ← c.length_toList, List.drop_length]
  cases u with
  | next =>
    rw [apply_next h, pull_eq h]
    exact ⟨List.head?_eq_getElem?.symm, (toList_skip h 1).trans List.drop_one⟩
  | nth n =>
    rw [apply, pull_eq h]
    exact ⟨rfl, toList_skip h (n + 1)⟩
  | length => exact ⟨c.length_toList.symm, rfl⟩
  | bounds => exact ⟨by rw [onList, c.length_toList]; rfl, rfl⟩
  | last => exact ⟨c.last?_eq, hall⟩
  | rest => exact ⟨rfl, hall⟩

theorem apply_of_not_takes (c : BlockCursor) {u : Use} (h : u.takes = false) :
    (u.apply c).2 = c := by
  cases u <;> first | rfl | cases h

section Lists

variable (u : Use) (l : List Block)

theorem blocks_append_sublist :
    (u.blocks (u.onList l).1 ++ (u.onList l).2).Sublist l := by
  cases u with
  | next => cases l <;> exact .refl _
  | nth n =>
    change (l[n]?.toList ++ l.drop (n + 1)).Sublist l
    rw [← List.drop_eq_getElem?_toList_append]
    exact List.drop_sublist n l
  | length => exact .refl l
  | bounds => exact .refl l
  | last =>
    change (l.getLast?.toList ++ []).Sublist l
    rw [List.append_nil]
    rcases List.eq_nil_or_concat l with rfl | ⟨front, b, rfl⟩
    · exact .refl _
    · rw [List.concat_eq_append, List.getLast?_concat]
      exact List.sublist_append_right front [b]
  | rest => exact (List.append_nil l).symm ▸ List.Sublist.refl l

theorem onList_snd_eq_nil {u : Use} {l : List Block} (htakes : u.takes = true)
    (hnone : u.blocks (u.onList l).1 = []) : (u.onList l).2 = [] := by
  cases u with
  | next =>
    have hnil : l = [] := List.head?_eq_none_iff.mp (Option.toList_eq_nil_iff.mp hnone)
    rw [hnil]
    rfl
  | nth n =>
    have hmiss : l.length ≤ n :=
      List.getElem?_eq_none_iff.mp (Option.toList_eq_nil_iff.mp hnone)
    exact List.drop_eq_nil_of_le (Nat.le_succ_of_le hmiss)
  | length | bounds => cases htakes
  | last | rest => rfl

end Lists

theorem blocks_sublist (h : c.next ≤ c.count) (u : Use) :
    (u.blocks (u.apply c).1).Sublist c.toList := by
  rw [(apply_eq_onList h u).1]
  exact (List.sublist_append_left _ _).trans (u.blocks_append_sublist c.toList)

section Twice

variable {d : BlockCursor} {u : Use} (h : c.next ≤ c.count) (hd : (u.apply c).2.skip n = d)
include h hd

theorem toList_of_skip_apply : d.next ≤ d.count ∧ d.toList = (u.onList c.toList).2.drop n := by
  obtain ⟨m, hm⟩ := exists_skip_of_apply h u
  have hafter : (u.apply c).2.next ≤ (u.apply c).2.count := by
    rw [hm]
    exact (next_skip h m).trans_le (min_le_left _ _)
  subst hd
  exact ⟨(next_skip hafter n).trans_le (min_le_left _ _),
    by rw [toList_skip hafter, (apply_eq_onList h u).2]⟩

/-- What one use hands out comes before all that a later one does. -/
theorem blocks_append_blocks_sublist (v : Use) :
    (u.blocks (u.apply c).1 ++ v.blocks (v.apply d).1).Sublist c.toList := by
  obtain ⟨hle, hlist⟩ := toList_of_skip_apply h hd
  have hlater : (v.blocks (v.apply d).1).Sublist (u.onList c.toList).2 :=
    (hlist ▸ blocks_sublist hle v).trans (List.drop_sublist n _)
  rw [(apply_eq_onList h u).1]
  exact (hlater.append_left _).trans (u.blocks_append_sublist c.toList)

theorem blocks_eq_nil_of_miss (htakes : u.takes = true) (hmiss : u.blocks (u.apply c).1 = [])
    (v : Use) : v.blocks (v.apply d).1 = [] := by
  obtain ⟨hle, hlist⟩ := toList_of_skip_apply h hd
  rw [(apply_eq_onList h u).1] at hmiss
  rw [onList_snd_eq_nil htakes hmiss, List.drop_nil] at hlist
  exact List.sublist_nil.mp (hlist ▸ blocks_sublist hle v)

end Twice

end Use

-- ---------------------------------------------------------------------------
-- Cursors
-- ---------------------------------------------------------------------------

/-- What a cursor hands out, one block after the other, on the way to another cursor. -/
inductive Yields : BlockCursor → List Block → BlockCursor → Prop
  | refl (c : BlockCursor) : Yields c [] c
  | cons {c rest last : BlockCursor} {b : Block} {blocks : List Block}
      (hnext : c.next? = some (b, rest)) (hrest : Yields rest blocks last) :
      Yields c (b :: blocks) last

theorem yields_toList (c : BlockCursor) : ∃ last, c.Yields c.toList last ∧ last.next? = none := by
  induction hl : c.toList generalizing c with
  | nil => exact ⟨c, .refl c, next?_of_toList_eq_nil hl⟩
  | cons b blocks ih =>
    obtain ⟨hnext, htail⟩ := next?_of_toList_eq_cons hl
    obtain ⟨last, hlast, hnone⟩ := ih (c.skip 1) htail
    exact ⟨last, .cons hnext hlast, hnone⟩

theorem length_toList_ofSize (size blockSize : Nat) :
    (ofSize size blockSize).toList.length = size ⌈/⌉ blockSize :=
  (length_toList _).trans (Nat.ceilDiv_eq_add_pred_div size blockSize).symm

theorem toList_ofSize (size blockSize : Nat) :
    (ofSize size blockSize).toList =
      (List.range' 0 (blockCount size blockSize)).map (Block.nth size blockSize) := rfl

theorem getElem?_toList_ofSize_eq_some {b : Block} :
    (ofSize size blockSize).toList[i]? = some b ↔
      i < blockCount size blockSize ∧ Block.nth size blockSize i = b := by
  rw [toList_ofSize, List.getElem?_map]
  by_cases hi : i < blockCount size blockSize
  · simp [hi]
  · simp [hi]

end BlockCursor

-- ---------------------------------------------------------------------------
-- Blocks
-- ---------------------------------------------------------------------------

theorem Block.length_nth_of_lt (hb : 0 < blockSize) (hi : i + 1 < blockCount size blockSize) :
    (Block.nth size blockSize i).length = blockSize := by
  rw [lt_blockCount_iff hb, Nat.succ_mul] at hi
  simp only [Block.nth]
  omega

theorem Block.length_nth_mem (hb : 0 < blockSize) (hi : i < blockCount size blockSize) :
    0 < (Block.nth size blockSize i).length ∧ (Block.nth size blockSize i).length ≤ blockSize := by
  rw [lt_blockCount_iff hb] at hi
  simp only [Block.nth]
  omega

theorem Block.nth_stop_le (hb : 0 < blockSize) (hi : i < blockCount size blockSize) :
    (Block.nth size blockSize i).start + (Block.nth size blockSize i).length ≤ size := by
  rw [lt_blockCount_iff hb] at hi
  simp only [Block.nth]
  omega

/-- A position lies in the block whose number is the position divided by the block size, and in no
other. -/
theorem Block.mem_nth_iff (hb : 0 < blockSize) (hp : p < size) :
    (Block.nth size blockSize i).start ≤ p ∧
      p < (Block.nth size blockSize i).start + (Block.nth size blockSize i).length ↔
      p / blockSize = i := by
  simp only [Block.nth]
  constructor
  · rintro ⟨hstart, hstop⟩
    exact Nat.div_eq_of_lt_le hstart (by rw [Nat.succ_mul]; omega)
  · rintro rfl
    have hsum := Nat.div_add_mod' p blockSize
    have hlt := Nat.mod_lt p hb
    omega

theorem Block.slice_nth (hb : 0 < blockSize) (hi : i < blockCount size blockSize)
    (hword : size < wordLimit) (hdata : size ≤ data.size) :
    (Block.nth size blockSize i).slice data =
      .ok (blockBytes blockSize (data.extract 0 size) i) := by
  have hstop := Block.nth_stop_le hb hi
  have hsize : (data.extract 0 size).size = size := by
    simp only [ByteArray.size_extract]
    omega
  have hrange : (Block.nth size blockSize i).range = .ok _ := if_pos (by omega)
  simp only [Block.slice, hrange, ok_bind, if_pos (Nat.le_trans hstop hdata), blockBytes, hsize,
    Block.bytes, ByteArray.extract_extract]
  congr 2 <;> omega

theorem mapM_slice_toList (hb : 0 < blockSize) (hword : size < wordLimit)
    (hdata : size ≤ data.size) :
    (BlockCursor.ofSize size blockSize).toList.mapM (·.slice data) =
      .ok (blockList blockSize (data.extract 0 size)) := by
  have hsize : (data.extract 0 size).size = size := by
    simp only [ByteArray.size_extract]
    omega
  rw [BlockCursor.toList_ofSize, List.mapM_map, blockList, hsize, List.range_eq_range']
  refine mapM_eq_ok fun i hi => Block.slice_nth hb ?_ hword hdata
  simpa using hi

-- ---------------------------------------------------------------------------
-- Trees
-- ---------------------------------------------------------------------------

namespace Tree

variable {t : Tree D} {content : ByteArray}

theorem Remembers.exists_block?_eq_slice (h : t.Remembers H content)
    (hvisible : t.size ≤ t.buffer.visible) (hword : t.size < wordLimit) (hi : i < t.blockCount) :
    ∃ bytes, t.block? i = .ok (some bytes) ∧
      (Block.nth t.size t.shape.blockSize i).slice t.buffer.view = .ok bytes := by
  have hcount : i < BlockTree.blockCount t.size t.shape.blockSize := by
    rwa [h.size_eq, ← h.blockCount_eq]
  refine ⟨_, block?_eq hvisible hi (h.start_lt_size hi), ?_⟩
  rw [Block.slice_nth t.blockSize_pos hcount hword (by rwa [Buffer.size_view]),
    Buffer.extract_view _ _ _ hvisible]

theorem UpToDate.leaf?_eq (h : t.UpToDate H) (hvisible : t.size ≤ t.buffer.visible)
    (hi : i < t.blockCount) :
    ∃ bytes, t.block? i = .ok (some bytes) ∧ t.leaf? i = some (H.leaf bytes) :=
  ⟨_, block?_eq hvisible hi (Remembers.start_lt_size h hi), Remembers.leaf?_eq h hi⟩

end Tree

/-- The blocks of some bytes, handed out until there are no more, are as many as the rounded-up
quotient. Each starts where it has to and all but the last are full, each position lies in one of
them, and their bytes one after the other are the bytes of any data that has as many. A tree of this
size has the same blocks, whatever more of its buffer is visible, and right after its build or a
rehash its leaves are their digests. -/
theorem blocks_cover (hsize : 0 < size) (hword : size < wordLimit) (hb : 0 < blockSize) :
    ∃ first blocks last, BlockCursor.start size blockSize = .ok first ∧
      first.Yields blocks last ∧ last.next? = none ∧
      blocks.length = size ⌈/⌉ blockSize ∧ 0 < blocks.length ∧
      (∀ i b, blocks[i]? = some b → b.index = i ∧ b.start = i * blockSize ∧
        (i + 1 < blocks.length → b.length = blockSize) ∧
        (i + 1 = blocks.length → 1 ≤ b.length ∧ b.length ≤ blockSize)) ∧
      (∀ p < size, ∃ b, blocks[p / blockSize]? = some b ∧ p = b.start + p % blockSize ∧
        p % blockSize < b.length ∧
        ∀ i other, blocks[i]? = some other → other.start ≤ p → p < other.start + other.length →
          i = p / blockSize) ∧
      (∀ data : ByteArray, size ≤ data.size → ∃ slices, blocks.mapM (·.slice data) = .ok slices ∧
        slices.foldr (· ++ ·) .empty = data.extract 0 size) ∧
      ∀ {D : Type} (H : Hasher D) (t : Tree D) (content : ByteArray), t.Reached H content →
        t.size = size → t.shape.blockSize = blockSize → t.size ≤ t.buffer.visible →
        t.blockCount = blocks.length ∧
        (∀ i b, blocks[i]? = some b →
          ∃ bytes, t.block? i = .ok (some bytes) ∧ b.slice t.buffer.view = .ok bytes) ∧
        (∀ i, blocks.length ≤ i → t.block? i = .ok none) ∧
        ((∃ shape buffer, Tree.build H shape buffer = .ok t) ∨
            (∃ before : Tree D, before.rehash H = .ok t) →
          ∀ i < blocks.length, ∃ bytes, t.block? i = .ok (some bytes) ∧
            t.leaf? i = some (H.leaf bytes)) := by
  obtain ⟨last, hyields, hlast⟩ := (BlockCursor.ofSize size blockSize).yields_toList
  have hstart : BlockCursor.start size blockSize = .ok (.ofSize size blockSize) :=
    if_neg (Nat.ne_of_gt hb)
  have hlength : (BlockCursor.ofSize size blockSize).toList.length = blockCount size blockSize :=
    BlockCursor.length_toList _
  have hpos : 0 < blockCount size blockSize := by
    rwa [lt_blockCount_iff hb, Nat.zero_mul]
  refine ⟨_, _, last, hstart, hyields, hlast, BlockCursor.length_toList_ofSize size blockSize,
    hlength ▸ hpos, fun i b hblock => ?_, fun p hp => ?_, fun data hdata => ?_, ?_⟩
  · obtain ⟨hi, rfl⟩ := BlockCursor.getElem?_toList_ofSize_eq_some.mp hblock
    rw [hlength]
    exact ⟨rfl, rfl, Block.length_nth_of_lt hb, fun _ => Block.length_nth_mem hb hi⟩
  · obtain ⟨hlow, hhigh⟩ := (Block.mem_nth_iff hb hp).mpr rfl
    have hsum : p / blockSize * blockSize + p % blockSize = p := Nat.div_add_mod' p blockSize
    have hfirst : (Block.nth size blockSize (p / blockSize)).start = p / blockSize * blockSize :=
      rfl
    refine ⟨_, BlockCursor.getElem?_toList_ofSize_eq_some.mpr ⟨div_lt_blockCount hb hp, rfl⟩,
      by omega, by omega, fun i other hother hlow' hhigh' => ?_⟩
    obtain ⟨-, rfl⟩ := BlockCursor.getElem?_toList_ofSize_eq_some.mp hother
    exact ((Block.mem_nth_iff hb hp).mp ⟨hlow', hhigh'⟩).symm
  · exact ⟨_, mapM_slice_toList hb hword hdata, foldr_blockList hb _⟩
  · rintro D H t content hreached rfl rfl hvisible
    have hrem := hreached.remembers
    have hcount : t.blockCount = blockCount t.size t.shape.blockSize := by
      rw [hrem.blockCount_eq, hrem.size_eq]
    rw [hlength, ← hcount]
    refine ⟨rfl, fun i b hblock => ?_, fun i hi => if_neg (Nat.not_lt.mpr hi),
      fun hfresh i hi => ?_⟩
    · obtain ⟨hi, rfl⟩ := BlockCursor.getElem?_toList_ofSize_eq_some.mp hblock
      exact hrem.exists_block?_eq_slice hvisible hword (hcount ▸ hi)
    · have hnow : t.UpToDate H := by
        rcases hfresh with ⟨shape, buffer, hbuild⟩ | ⟨before, hrehash⟩
        · exact Tree.upToDate_of_build hbuild
        · exact Tree.upToDate_of_rehash hrehash
      exact hnow.leaf?_eq hvisible hi

/-- Five bytes in blocks of two, in a buffer that shows seven bytes by the time it is read. -/
theorem blocks_cover_longer_buffer :
    ∃ t₀ t, Tree.build Fnv.algorithm.toHasher ⟨2, .promote⟩
        ⟨[1, 2, 3, 4, 5, 6, 7].toByteArray, 5, by decide⟩ = .ok t₀ ∧
      t = t₀.after Fnv.algorithm.toHasher (.resize 7) ∧ t.buffer.visible = 7 ∧
      ∃ first blocks last, BlockCursor.start 5 2 = .ok first ∧ first.Yields blocks last ∧
        last.next? = none ∧ blocks.length = 3 ∧ t.blockCount = 3 ∧
        (∀ i b, blocks[i]? = some b →
          ∃ bytes, t.block? i = .ok (some bytes) ∧ b.slice t.buffer.view = .ok bytes) ∧
        t.block? 3 = .ok none ∧
        ∀ i < 3, ∃ bytes, t₀.block? i = .ok (some bytes) ∧
          t₀.leaf? i = some (Fnv.algorithm.toHasher.leaf bytes) := by
  obtain ⟨t₀, t, ht₀, ht, hshape, hreached⟩ := Tree.exists_reached_after Fnv.algorithm.toHasher
    ⟨2, .promote⟩ ⟨[1, 2, 3, 4, 5, 6, 7].toByteArray, 5, by decide⟩ (by decide) (by decide)
    (.resize 7)
  obtain ⟨hshape₀, hbuffer, hrem₀⟩ := Tree.build_ok ht₀
  have hsize₀ : t₀.size = 5 := hrem₀.size_eq.trans (by decide)
  have hbytes : t.buffer = t₀.buffer.resize 7 := by
    rw [ht]
    rfl
  have hvisible : t.buffer.visible = 7 := by
    rw [hbytes, hbuffer]
    decide
  have hsize : t.size = 5 := ht ▸ hsize₀
  obtain ⟨first, blocks, last, hstart, hyields, hlast, hlength, -, -, -, -, htrees⟩ :=
    @blocks_cover 5 2 (by decide) (by decide) (by decide)
  have hthree : blocks.length = 3 := by
    rw [hlength, Nat.ceilDiv_eq_add_pred_div]
  obtain ⟨hcount, hblocks, hnone, -⟩ :=
    htrees _ t _ hreached hsize (by rw [hshape]) (by omega)
  obtain ⟨-, -, -, hfresh⟩ := htrees _ t₀ _ (.build ht₀) hsize₀ (by rw [hshape₀]) (by
    rw [hsize₀, hbuffer])
  refine ⟨t₀, t, ht₀, ht, hvisible, first, blocks, last, hstart, hyields, hlast, hthree,
    hcount.trans hthree, hblocks, hnone 3 (Nat.le_of_eq hthree), fun i hi => ?_⟩
  exact hfresh (.inl ⟨_, _, ht₀⟩) i (hthree ▸ hi)

end BlockTree
