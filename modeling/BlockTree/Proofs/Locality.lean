import Mathlib
import BlockTree.Proofs.RowSizes

/-!
# Digests depend on few bytes

Row `k` of a tree is what `k` steps make of the leaves, so the digest of node `j` comes from the
leaves `j * 2 ^ k` up to `(j + 1) * 2 ^ k` and from no others, as far as they are there:
`getElem?_iterate_rowAbove_congr`. Which blocks stand below a node depends on how many there are
only where the row comes to its end, so a node with all its blocks is the same in every tree that
has these blocks (`Tree.exists_node?_eq`), and in trees of as many blocks so is every other node.
-/

namespace BlockTree

-- ---------------------------------------------------------------------------
-- Nodes as roots of parts
-- ---------------------------------------------------------------------------

section

variable {D : Type} {H : Hasher D} {policy : OddPolicy} {k j : Nat}

theorem getElem?_iterate_rowAbove_congr {a b : Array D}
    (h : ∀ i, j * 2 ^ k ≤ i → i < (j + 1) * 2 ^ k → a[i]? = b[i]?) :
    ((rowAbove H policy)^[k] a)[j]? = ((rowAbove H policy)^[k] b)[j]? := by
  induction k generalizing j with
  | zero => simpa using h j
  | succ k ih =>
    have hstart : j * 2 ^ (k + 1) = 2 * j * 2 ^ k := by ring
    have hmiddle : (2 * j + 1) * 2 ^ k = 2 * j * 2 ^ k + 2 ^ k := by ring
    have hstop : (j + 1) * 2 ^ (k + 1) = (2 * j + 1 + 1) * 2 ^ k := by ring
    have hend : (2 * j + 1 + 1) * 2 ^ k = (2 * j + 1) * 2 ^ k + 2 ^ k := by ring
    have hleft := ih (j := 2 * j) fun i hi hi' => h i (by omega) (by omega)
    have hright := ih (j := 2 * j + 1) fun i hi hi' => h i (by omega) (by omega)
    simp only [Function.iterate_succ_apply', getElem?_rowAbove, hleft, hright]

theorem Levels.Built.row_eq_iterate {levels : Levels D} {row : Array D}
    (h : levels.Built H policy) (hrow : levels.toList[k]? = some row) :
    row = (rowAbove H policy)^[k] levels.leaves := by
  have hiterate := h.row_induction (P := fun k row => row = (rowAbove H policy)^[k] levels.leaves)
    (k := 0) rfl (fun k row _ hk => by rw [hk, Function.iterate_succ_apply']) hrow
  rwa [Nat.zero_add] at hiterate

namespace Tree

def node? (t : Tree D) (k j : Nat) : Option D :=
  (t.row? k).bind fun row => row[j]?

variable {t : Tree D} {data : ByteArray}

theorem node?_eq_of_row? {row : Array D} (hrow : t.row? k = some row) (j : Nat) :
    t.node? k j = row[j]? := by
  rw [node?, hrow, Option.bind_some]

theorem exists_row? (t : Tree D) (hk : k < t.height) : ∃ row, t.row? k = some row :=
  ⟨_, List.getElem?_eq_getElem (by rwa [Levels.length_toList])⟩

theorem Remembers.node?_eq (h : t.Remembers H data) (hk : k < t.height) (j : Nat) :
    t.node? k j =
      ((rowAbove H t.shape.oddPolicy)^[k] (leafRow H t.shape.blockSize data))[j]? := by
  obtain ⟨row, hrow⟩ := t.exists_row? hk
  rw [node?_eq_of_row? hrow, h.built.row_eq_iterate hrow, h.leaves_eq]

theorem Remembers.isSome_node? (h : t.Remembers H data) (k j : Nat) :
    (t.node? k j).isSome ↔ k < t.height ∧ j * 2 ^ k < t.blockCount := by
  by_cases hk : k < t.height
  · obtain ⟨row, hrow⟩ := t.exists_row? hk
    have hsize : row.size = BlockTree.blockCount t.blockCount (2 ^ k) := h.built.size_row hrow
    rw [node?_eq_of_row? hrow, ← lt_blockCount_iff (by positivity), ← hsize]
    simp [hk]
  · have hnone : t.row? k = none := List.getElem?_eq_none (by rwa [Levels.length_toList, ← not_lt])
    simp [node?, hnone, hk]

theorem Remembers.lt_height_of_le (h : t.Remembers H data)
    (hle : (j + 1) * 2 ^ k ≤ t.blockCount) : k < t.height := by
  obtain ⟨⟨hpos, hroom⟩, -⟩ := h.built.isLeast_height
  have hpow : 2 ^ k ≤ 2 ^ (t.height - 1) :=
    calc 2 ^ k ≤ (j + 1) * 2 ^ k := Nat.le_mul_of_pos_left _ j.succ_pos
      _ ≤ t.blockCount := hle
      _ ≤ 2 ^ (t.height - 1) := hroom
  have hk : k ≤ t.height - 1 := (Nat.pow_le_pow_iff_right Nat.one_lt_two).mp hpow
  have hheight : 0 < t.height := hpos
  omega

end Tree

end

-- ---------------------------------------------------------------------------
-- Bytes below a node
-- ---------------------------------------------------------------------------

namespace Tree

variable {D : Type} {H : Hasher D} {a b t u : Tree D} {dataA dataB data more : ByteArray}
variable {k j : Nat}

section TwoTrees

variable (ha : a.Remembers H dataA) (hb : b.Remembers H dataB) (hshape : a.shape = b.shape)

include ha hb hshape

theorem node?_eq_of_leaves (hkA : k < a.height) (hkB : k < b.height)
    (hleaves : ∀ i ∈ Set.Ico (j * 2 ^ k) ((j + 1) * 2 ^ k),
      (leafRow H a.shape.blockSize dataA)[i]? = (leafRow H a.shape.blockSize dataB)[i]?) :
    a.node? k j = b.node? k j := by
  rw [ha.node?_eq hkA, hb.node?_eq hkB, ← hshape]
  exact getElem?_iterate_rowAbove_congr fun i hi hi' => hleaves i ⟨hi, hi'⟩

theorem exists_node?_eq (hfullA : (j + 1) * 2 ^ k ≤ a.blockCount)
    (hfullB : (j + 1) * 2 ^ k ≤ b.blockCount)
    (hblocks : Set.EqOn (blockBytes a.shape.blockSize dataA) (blockBytes a.shape.blockSize dataB)
      (Set.Ico (j * 2 ^ k) ((j + 1) * 2 ^ k))) :
    ∃ d, a.node? k j = some d ∧ b.node? k j = some d := by
  have hkA := ha.lt_height_of_le hfullA
  have hsame : a.node? k j = b.node? k j := by
    refine node?_eq_of_leaves ha hb hshape hkA (hb.lt_height_of_le hfullB) fun i hi => ?_
    have hltA : i < BlockTree.blockCount dataA.size a.shape.blockSize :=
      ha.blockCount_eq ▸ Nat.lt_of_lt_of_le hi.2 hfullA
    have hltB : i < BlockTree.blockCount dataB.size a.shape.blockSize :=
      hshape ▸ hb.blockCount_eq ▸ Nat.lt_of_lt_of_le hi.2 hfullB
    exact getElem?_leafRow_congr H ⟨fun _ => hltB, fun _ => hltA⟩ fun _ => hblocks hi
  have hwidth : (j + 1) * 2 ^ k = j * 2 ^ k + 2 ^ k := Nat.succ_mul j _
  have hpos : 0 < 2 ^ k := Nat.two_pow_pos k
  obtain ⟨d, hd⟩ := Option.isSome_iff_exists.mp ((ha.isSome_node? k j).mpr ⟨hkA, by omega⟩)
  exact ⟨d, hd, hsame ▸ hd⟩

theorem node?_eq_of_blockCount_eq (hcount : a.blockCount = b.blockCount)
    (hblocks : Set.EqOn (blockBytes a.shape.blockSize dataA) (blockBytes a.shape.blockSize dataB)
      (Set.Ico (j * 2 ^ k) (min ((j + 1) * 2 ^ k) a.blockCount))) :
    a.node? k j = b.node? k j := by
  have hcountA := ha.blockCount_eq
  have hcountB := hb.blockCount_eq
  have hheight : a.height = b.height := (ha.built.size_eq_of_leaves_size_eq hb.built hcount).1
  by_cases hk : k < a.height
  · refine node?_eq_of_leaves ha hb hshape hk (hheight ▸ hk) fun i hi => ?_
    rw [← hshape] at hcountB
    refine getElem?_leafRow_congr H (by rw [← hcountA, ← hcountB, hcount]) fun hlt => ?_
    exact hblocks ⟨hi.1, lt_min hi.2 (hcountA ▸ hlt)⟩
  · -- Neither tree has the row.
    have hnoneA : ¬ (a.node? k j).isSome := fun h => hk ((ha.isSome_node? k j).mp h).1
    have hnoneB : ¬ (b.node? k j).isSome := fun h => hk (hheight ▸ ((hb.isSome_node? k j).mp h).1)
    simp only [Option.not_isSome_iff_eq_none] at hnoneA hnoneB
    rw [hnoneA, hnoneB]

end TwoTrees

/-- Edits of a tree that is up to date, and then a rehash: nodes are what they were if the edits are
about none of the blocks below them. -/
theorem UpToDate.node?_rehash (h : t.UpToDate H) {edits : List Edit} {K : Set ℕ}
    (hedits : ∀ e ∈ edits, ∀ p, e.Touches t.size p → p / t.shape.blockSize ∈ K)
    (hrehash : (t.run H edits).rehash H = .ok u)
    (hdisjoint : Disjoint K (Set.Ico (j * 2 ^ k) (min ((j + 1) * 2 ^ k) t.blockCount))) :
    u.node? k j = t.node? k j := by
  obtain ⟨hsize, hshape⟩ := t.run_keeps H edits
  have hnow := upToDate_of_rehash hrehash
  obtain ⟨-, levels, rfl, -⟩ := rehash_ok hrehash
  have hcount := h.blockCount_eq.trans (congrArg (BlockTree.blockCount · _)
    (h.size_eq.symm.trans (hsize.symm.trans hnow.size_eq)))
  refine (node?_eq_of_blockCount_eq h hnow hshape.symm ?_ fun i hi => ?_).symm
  · rw [hnow.blockCount_eq, hcount, ← hshape]
  · refine blockBytes_congr fun p hp => ?_
    have huntouched : ∀ e ∈ edits, ¬ e.Touches t.size p := fun e he htouches =>
      hdisjoint.le_bot ⟨hp ▸ hedits e he p htouches, hi⟩
    simp only [getElem?_extract_zero, hsize, t.run_untouched H huntouched]

theorem blockBytes_append_of_lt {blockSize i : Nat} (hwhole : blockSize ∣ data.size)
    (hi : i * blockSize < data.size) (more : ByteArray) :
    blockBytes blockSize (data ++ more) i = blockBytes blockSize data i := by
  obtain ⟨m, hm⟩ := hwhole
  refine blockBytes_congr fun p hp => ?_
  have hm' : i < m := by
    rw [hm, Nat.mul_comm] at hi
    exact Nat.lt_of_mul_lt_mul_left hi
  have hb : 0 < blockSize := Nat.pos_of_ne_zero fun hzero => by simp [hm, hzero] at hi
  have hlt : p < data.data.size :=
    calc p < m * blockSize := (Nat.div_lt_iff_lt_mul hb).mp (hp ▸ hm')
      _ = data.size := (Nat.mul_comm m blockSize).trans hm.symm
  rw [ByteArray.data_append, Array.getElem?_append_left hlt]

/-- In any two trees of one shape a node is the same if all blocks below it are there and the same,
and, if the trees have as many blocks, also where the last of them are missing. So edits, once they
are followed by a rehash, change no node but those above the blocks that they are about, and bytes
that come after a whole number of blocks change no node that has all its blocks. -/
theorem digests_local :
    (∀ {D : Type} (H : Hasher D) (a b : Tree D) (dataA dataB : ByteArray), a.Reached H dataA →
      b.Reached H dataB → a.shape = b.shape → ∀ k j,
      ((j + 1) * 2 ^ k ≤ a.blockCount → (j + 1) * 2 ^ k ≤ b.blockCount →
        Set.EqOn (blockBytes a.shape.blockSize dataA) (blockBytes a.shape.blockSize dataB)
          (Set.Ico (j * 2 ^ k) ((j + 1) * 2 ^ k)) →
        ∃ d, a.node? k j = some d ∧ b.node? k j = some d) ∧
      (a.blockCount = b.blockCount →
        Set.EqOn (blockBytes a.shape.blockSize dataA) (blockBytes a.shape.blockSize dataB)
          (Set.Ico (j * 2 ^ k) (min ((j + 1) * 2 ^ k) a.blockCount)) →
        a.node? k j = b.node? k j)) ∧
    (∀ {D : Type} (H : Hasher D) (t : Tree D),
      (∃ shape buffer, Tree.build H shape buffer = .ok t) ∨ (∃ s : Tree D, s.rehash H = .ok t) →
      ∀ (edits : List Edit) (K : Set ℕ),
      (∀ e ∈ edits, ∀ p, e.Touches t.size p → p / t.shape.blockSize ∈ K) →
      t.size ≤ (t.run H edits).buffer.visible →
      ∃ u, (t.run H edits).rehash H = .ok u ∧
        ∀ k j, Disjoint K (Set.Ico (j * 2 ^ k) (min ((j + 1) * 2 ^ k) t.blockCount)) →
          u.node? k j = t.node? k j) ∧
    (∀ {D : Type} (H : Hasher D) (a b : Tree D) (data more : ByteArray), a.Reached H data →
      b.Reached H (data ++ more) → a.shape = b.shape → a.shape.blockSize ∣ data.size → ∀ k j,
      (j + 1) * 2 ^ k ≤ a.blockCount → ∃ d, a.node? k j = some d ∧ b.node? k j = some d) := by
  refine ⟨?_, ?_, ?_⟩
  · intro D H a b dataA dataB ha hb hshape k j
    exact ⟨exists_node?_eq ha.remembers hb.remembers hshape,
      node?_eq_of_blockCount_eq ha.remembers hb.remembers hshape⟩
  · intro D H t horigin edits K hedits hvisible
    have hupToDate : t.UpToDate H := by
      rcases horigin with ⟨shape, buffer, hbuild⟩ | ⟨s, hrehash⟩
      · exact upToDate_of_build hbuild
      · exact upToDate_of_rehash hrehash
    obtain ⟨u, hu⟩ := rehash_eq_ok H (t := t.run H edits) (by rwa [(t.run_keeps H edits).1])
    exact ⟨u, hu, fun k j => hupToDate.node?_rehash hedits hu⟩
  · intro D H a b data more ha hb hshape hwhole k j hfull
    have hcountA := ha.remembers.blockCount_eq
    have hcountB := hb.remembers.blockCount_eq
    have hstart : ∀ i < a.blockCount, i * a.shape.blockSize < data.size := fun i hi =>
      ha.remembers.size_eq ▸ ha.remembers.start_lt_size hi
    refine exists_node?_eq ha.remembers hb.remembers hshape hfull ?_ fun i hi => ?_
    · refine hfull.trans ?_
      rw [hcountA, hcountB, ← hshape, BlockTree.blockCount, BlockTree.blockCount,
        ByteArray.size_append]
      exact Nat.div_le_div_right (by omega)
    · have hlt : i < a.blockCount := Nat.lt_of_lt_of_le hi.2 hfull
      exact (blockBytes_append_of_lt hwhole (hstart i hlt) more).symm

/-- Four blocks, after which a fifth one comes, and five that differ from these in the first one:
the right half of the four, all four, and the last of the five. A byte of the first block is
written, which leaves the last node of each row as it was. -/
theorem digests_local_half :
    ∃ a b c u, Tree.build Fnv.algorithm.toHasher ⟨2, .duplicate⟩
        (.ofBytes [1, 2, 3, 4, 5, 6, 7, 8].toByteArray) = .ok a ∧
      Tree.build Fnv.algorithm.toHasher ⟨2, .duplicate⟩
        (.ofBytes [1, 2, 3, 4, 5, 6, 7, 8, 9].toByteArray) = .ok b ∧
      Tree.build Fnv.algorithm.toHasher ⟨2, .duplicate⟩
        (.ofBytes [1, 0, 3, 4, 5, 6, 7, 8, 9].toByteArray) = .ok c ∧
      (b.run Fnv.algorithm.toHasher [.write 1 [0].toByteArray]).rehash Fnv.algorithm.toHasher =
        .ok u ∧
      (∃ d, a.node? 1 1 = some d ∧ c.node? 1 1 = some d) ∧
      (∃ d, a.node? 2 0 = some d ∧ b.node? 2 0 = some d) ∧
      b.node? 2 1 = c.node? 2 1 ∧ u.node? 1 1 = b.node? 1 1 ∧ u.node? 2 1 = b.node? 2 1 := by
  obtain ⟨localNodes, afterEdits, afterMore⟩ := digests_local
  obtain ⟨a, ha, hshapeA, -⟩ := exists_build_ofBytes Fnv.algorithm.toHasher ⟨2, .duplicate⟩
    [1, 2, 3, 4, 5, 6, 7, 8].toByteArray (by decide) (by decide)
  obtain ⟨b, hb, hshapeB, -⟩ := exists_build_ofBytes Fnv.algorithm.toHasher ⟨2, .duplicate⟩
    [1, 2, 3, 4, 5, 6, 7, 8, 9].toByteArray (by decide) (by decide)
  obtain ⟨c, hc, hshapeC, -⟩ := exists_build_ofBytes Fnv.algorithm.toHasher ⟨2, .duplicate⟩
    [1, 0, 3, 4, 5, 6, 7, 8, 9].toByteArray (by decide) (by decide)
  have hreachedA : a.Reached Fnv.algorithm.toHasher [1, 2, 3, 4, 5, 6, 7, 8].toByteArray := by
    simpa using Reached.build ha
  have hreachedB : b.Reached Fnv.algorithm.toHasher [1, 2, 3, 4, 5, 6, 7, 8, 9].toByteArray := by
    simpa using Reached.build hb
  have hreachedC : c.Reached Fnv.algorithm.toHasher [1, 0, 3, 4, 5, 6, 7, 8, 9].toByteArray := by
    simpa using Reached.build hc
  have hcountA : a.blockCount = 4 :=
    hreachedA.remembers.blockCount_eq.trans (by rw [hshapeA]; decide)
  have hcountB : b.blockCount = 5 :=
    hreachedB.remembers.blockCount_eq.trans (by rw [hshapeB]; decide)
  have hcountC : c.blockCount = 5 :=
    hreachedC.remembers.blockCount_eq.trans (by rw [hshapeC]; decide)
  have hsizeB : b.size = 9 := hreachedB.remembers.size_eq
  have hvisible : b.size ≤ b.buffer.visible := by
    rw [(build_ofBytes_ok hb).2.1, hsizeB]
    decide
  obtain ⟨u, hu, hnodes⟩ := afterEdits _ b (.inl ⟨_, _, hb⟩) [.write 1 [0].toByteArray] {0}
    (by simp [Edit.Touches, hshapeB])
    (by simpa [run, visible_after_write] using hvisible)
  refine ⟨a, b, c, u, ha, hb, hc, hu, ?_, ?_, ?_, ?_, ?_⟩
  · refine (localNodes _ a c _ _ hreachedA hreachedC (hshapeA.trans hshapeC.symm) 1 1).1
      (by rw [hcountA]; decide) (by rw [hcountC]; decide) ?_
    rw [hshapeA]
    rintro i ⟨hstart, hstop⟩
    interval_cases i <;> decide
  · exact afterMore _ a b _ [9].toByteArray hreachedA hreachedB (hshapeA.trans hshapeB.symm)
      (by rw [hshapeA]; decide) 2 0 (by rw [hcountA]; decide)
  · refine (localNodes _ b c _ _ hreachedB hreachedC (hshapeB.trans hshapeC.symm) 2 1).2
      (hcountB.trans hcountC.symm) ?_
    rw [hshapeB, hcountB]
    rintro i ⟨hstart, hstop⟩
    obtain rfl : i = 4 := by omega
    decide
  · exact hnodes 1 1 (by simp)
  · exact hnodes 2 1 (by simp)

end Tree

end BlockTree
