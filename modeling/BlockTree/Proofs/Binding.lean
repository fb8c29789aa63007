import BlockTree.Proofs.History

/-!
# What a root binds

Every digest of a tree that is not lifted unchanged is made by one of the calls of its build. If
other bytes of the same size are verified against a tree, the two stand block by block and node by
node beside each other, so either they are the same bytes or two calls at one place collide. The
walk from the root into every child that differs finds a node if its parent was found and its
digests differ (`Levels.mem_differences_row`); order, absence of other nodes and, where the trees do
not collide, completeness follow by induction on the rows.
-/

namespace BlockTree

variable {D : Type} {H : Hasher D} {policy : OddPolicy}

-- ---------------------------------------------------------------------------
-- The calls behind a tree and behind a path
-- ---------------------------------------------------------------------------

theorem mem_rowCalls {row : Array D} {i : Nat} {call : Call D}
    (h : policy.call? row[2 * i]? row[2 * i + 1]? = some call) : call ∈ rowCalls policy row := by
  refine List.mem_filterMap.mpr ⟨i, ?_, ?_⟩
  · have hleft : 2 * i < row.size := by
      cases hl : row[2 * i]? with
      | none => simp [hl, OddPolicy.call?] at h
      | some l => exact (Array.getElem?_eq_some_iff.mp hl).1
    exact List.mem_range.mpr (by omega)
  · cases hl : row[2 * i]? <;> cases hr : row[2 * i + 1]? <;> cases policy <;>
      simp_all [OddPolicy.call?]

theorem leafCalls_eq (blockSize : Nat) (data : ByteArray) :
    leafCalls blockSize data = (blockList blockSize data).map (Call.leaf (D := D)) := by
  simp [leafCalls, blockList, BlockCursor.toList, BlockCursor.ofSize, BlockCursor.remaining,
    List.range_eq_range', Function.comp_def, blockBytes]

theorem mem_leafCalls {blockSize : Nat} {data : ByteArray} {i : Nat}
    (hi : i < blockCount data.size blockSize) :
    (.leaf (blockBytes blockSize data i) : Call D) ∈ leafCalls blockSize data := by
  rw [leafCalls_eq]
  exact List.mem_map_of_mem (List.mem_map_of_mem (List.mem_range.mpr hi))

theorem Tree.Remembers.buildCalls_eq {t : Tree D} {data : ByteArray} (h : t.Remembers H data) :
    buildCalls H t.shape data =
      leafCalls t.shape.blockSize data ++ t.levels.calls t.shape.oddPolicy := by
  obtain ⟨hpos, -, hlevels⟩ := h
  rw [buildCalls, dif_pos (leafRow_pos H t.blockSize_pos hpos), hlevels]
  rfl

theorem Tree.Remembers.leaf_mem_buildCalls {t : Tree D} {data : ByteArray} (h : t.Remembers H data)
    {i : Nat} (hi : i < t.blockCount) :
    .leaf (blockBytes t.shape.blockSize data i) ∈ buildCalls H t.shape data := by
  rw [h.buildCalls_eq]
  exact List.mem_append_left _ (mem_leafCalls (h.blockCount_eq ▸ hi))

theorem Tree.Remembers.levels_calls_subset {t : Tree D} {data : ByteArray}
    (h : t.Remembers H data) :
    t.levels.calls t.shape.oddPolicy ⊆ buildCalls H t.shape data := by
  rw [h.buildCalls_eq]
  exact List.subset_append_right _ _

theorem stepCalls_append (d : D) (first second : List (PathStep D)) :
    stepCalls H d (first ++ second) =
      stepCalls H d first ++ stepCalls H (first.foldl (PathStep.apply H) d) second := by
  induction first generalizing d with
  | nil => rfl
  | cons step rest ih => simp [stepCalls, ih]

-- ---------------------------------------------------------------------------
-- Other bytes of the same size
-- ---------------------------------------------------------------------------

theorem blockBytes_eq_of_leafRow_eq {blockSize : Nat} {a b : ByteArray} (hsize : a.size = b.size)
    (hrow : leafRow H blockSize a = leafRow H blockSize b) {i : Nat}
    (hi : i < blockCount a.size blockSize) (hno : ¬ BlocksCollideAt H blockSize a b i) :
    blockBytes blockSize a i = blockBytes blockSize b i := by
  have hleaf : (leafRow H blockSize a)[i]? = (leafRow H blockSize b)[i]? := by rw [hrow]
  rw [getElem?_leafRow H _ _ hi, getElem?_leafRow H _ _ (hsize ▸ hi)] at hleaf
  exact Call.leaf.inj (Call.eq_of_not_collide hno (Option.some.inj hleaf))

namespace Tree

variable [DecidableEq D] {t : Tree D} {data : ByteArray}

theorem verify_eq_true_iff {other : ByteArray} : t.verify H other = true ↔
    ∃ h : other.size = t.size,
      (Levels.ofBytes H t.shape other t.blockSize_pos (h ▸ t.size_pos)).top = t.root := by
  unfold verify
  split
  · next h => simp [h]
  · next h => simp [h]

/-- Where neither blocks nor nodes collide, nothing but the bytes of the latest build or rehash
is verified. -/
theorem Remembers.eq_of_verify (h : t.Remembers H data) {other : ByteArray}
    (hverify : t.verify H other = true)
    (hblocks : ∀ i < t.blockCount, ¬ BlocksCollideAt H t.shape.blockSize data other i)
    (hnodes : ∀ hpos level i, ¬ Levels.CollideAt H t.shape.oddPolicy t.levels
      (.ofBytes H t.shape other t.blockSize_pos hpos) level i) : other = data := by
  obtain ⟨hsize, htop⟩ := verify_eq_true_iff.mp hverify
  have hsize' : data.size = other.size := h.size_eq.symm.trans hsize.symm
  have hpos : 0 < other.size := hsize ▸ t.size_pos
  have hleaves : (Levels.ofBytes H t.shape other t.blockSize_pos hpos).leaves =
      leafRow H t.shape.blockSize other := Levels.leaves_build H _ _ _
  have hpaired : Levels.Paired H t.shape.oddPolicy t.levels
      (.ofBytes H t.shape other t.blockSize_pos hpos) := by
    refine h.built.paired (Levels.built_build H _ _ _) ?_
    rw [h.leaves_eq, hleaves, size_leafRow, size_leafRow, hsize']
  have hrow := hpaired.leaves_eq htop.symm (hnodes hpos)
  rw [h.leaves_eq, hleaves] at hrow
  refine (eq_of_blockBytes_eq t.blockSize_pos hsize' fun i hi => ?_).symm
  exact blockBytes_eq_of_leafRow_eq hsize' hrow hi (hblocks i (h.blockCount_eq ▸ hi))

theorem Remembers.verify_self (h : t.Remembers H data) : t.verify H data = true := by
  obtain ⟨hpos, hsize, hlevels⟩ := h
  refine verify_eq_true_iff.mpr ⟨hsize, ?_⟩
  rw [root, hlevels]

/-- A tree verifies the bytes of its latest build or rehash and none of another size. If it
verifies others, a block or a node of the two collides; so without a collision it refuses all
others. -/
theorem verify_binds (h : t.Reached H data) (other : ByteArray) :
    t.verify H data = true ∧
    (other.size ≠ data.size → t.verify H other = false) ∧
    (t.verify H other = true → other ≠ data →
      (∃ i < t.blockCount, BlocksCollideAt H t.shape.blockSize data other i) ∨
      ∃ hpos level i, Levels.CollideAt H t.shape.oddPolicy t.levels
        (.ofBytes H t.shape other t.blockSize_pos hpos) level i) ∧
    ((∀ i < t.blockCount, ¬ BlocksCollideAt H t.shape.blockSize data other i) →
      (∀ hpos level i, ¬ Levels.CollideAt H t.shape.oddPolicy t.levels
        (.ofBytes H t.shape other t.blockSize_pos hpos) level i) →
      other ≠ data → t.verify H other = false) := by
  have hrem := h.remembers
  refine ⟨hrem.verify_self, fun hsize => ?_, fun hverify hne => ?_, fun hblocks hnodes hne => ?_⟩
  · exact dif_neg fun heq => hsize (heq.trans hrem.choose_spec.1.symm)
  · refine Classical.byContradiction fun hno => ?_
    rw [not_or] at hno
    refine hne (hrem.eq_of_verify hverify (fun i hi hc => ?_) fun hpos level i hc => ?_)
    · exact hno.1 ⟨i, hi, hc⟩
    · exact hno.2 ⟨hpos, level, i, hc⟩
  · exact Bool.eq_false_iff.mpr fun hverify => hne (hrem.eq_of_verify hverify hblocks hnodes)

/-- The last byte changed or left out, in a tree that was written to since its build. -/
theorem verify_binds_stale :
    ∃ t₀ t, Tree.build Term.hasher ⟨2, .promote⟩
        (.ofBytes [1, 2, 3, 4, 5].toByteArray) = .ok t₀ ∧
      t = t₀.after Term.hasher (.write 0 [9].toByteArray) ∧
      t.verify Term.hasher [1, 2, 3, 4, 5].toByteArray = true ∧
      t.verify Term.hasher [1, 2, 3, 4, 6].toByteArray = false ∧
      t.verify Term.hasher [1, 2, 3, 4].toByteArray = false := by
  obtain ⟨t₀, ht₀⟩ : ∃ t₀, Tree.build Term.hasher ⟨2, .promote⟩
      (.ofBytes [1, 2, 3, 4, 5].toByteArray) = .ok t₀ := build_eq_ok _ (by decide) (by decide)
  obtain ⟨t, ht⟩ : ∃ t, t = t₀.after Term.hasher (.write 0 [9].toByteArray) := ⟨_, rfl⟩
  have hreached : t.Reached Term.hasher [1, 2, 3, 4, 5].toByteArray :=
    ht ▸ (Reached.build ht₀).edit (.write 0 [9].toByteArray)
  obtain ⟨hsame, -, -, hother⟩ := verify_binds hreached [1, 2, 3, 4, 6].toByteArray
  obtain ⟨-, hshort, -⟩ := verify_binds hreached [1, 2, 3, 4].toByteArray
  refine ⟨t₀, t, ht₀, ht, hsame, hother (fun i _ => ?_) (fun _ => ?_) (by decide),
    hshort (by decide)⟩
  · exact Term.not_collide _ _
  · exact Levels.not_collideAt_term _ _ _

end Tree

-- ---------------------------------------------------------------------------
-- The blocks in which two trees differ
-- ---------------------------------------------------------------------------

theorem exists_child_ne {rowA rowB : Array D} {i : Nat}
    (h : (rowAbove H policy rowA)[i]? ≠ (rowAbove H policy rowB)[i]?) :
    ∃ c, c / 2 = i ∧ rowA[c]? ≠ rowB[c]? := by
  by_cases hleft : rowA[2 * i]? = rowB[2 * i]?
  · refine ⟨2 * i + 1, by omega, fun hright => h ?_⟩
    rw [getElem?_rowAbove, getElem?_rowAbove, hleft, hright]
  · exact ⟨2 * i, by omega, hleft⟩

theorem lt_size_of_getElem?_ne {rowA rowB : Array D} (hsize : rowA.size = rowB.size) {i : Nat}
    (h : rowA[i]? ≠ rowB[i]?) : i < rowA.size := by
  refine Nat.lt_of_not_le fun hle => h ?_
  rw [Array.getElem?_eq_none hle, Array.getElem?_eq_none (hsize ▸ hle)]

theorem exists_ne_of_getElem?_ne {rowA rowB : Array D} (hsize : rowA.size = rowB.size) {i : Nat}
    (h : rowA[i]? ≠ rowB[i]?) : ∃ x y, rowA[i]? = some x ∧ rowB[i]? = some y ∧ x ≠ y := by
  have hlt := lt_size_of_getElem?_ne hsize h
  have hA : rowA[i]? = some rowA[i] := Array.getElem?_eq_getElem hlt
  have hB : rowB[i]? = some rowB[i] := Array.getElem?_eq_getElem (hsize ▸ hlt)
  refine ⟨_, _, hA, hB, fun heq => h ?_⟩
  rw [hA, hB, heq]

namespace Levels

variable [DecidableEq D] {a b : Levels D}

theorem mem_differences_row {rowA rowB : Array D} {upperA upperB : Levels D} {c : Nat} :
    c ∈ differences (row rowA upperA) (row rowB upperB) ↔
      c / 2 ∈ differences upperA upperB ∧ c < rowA.size ∧ rowA[c]? ≠ rowB[c]? := by
  simp only [differences, List.mem_filter, List.mem_flatMap, List.mem_cons, List.not_mem_nil,
    or_false, Bool.decide_and, Bool.and_eq_true, decide_eq_true_eq]
  constructor
  · rintro ⟨⟨i, hi, rfl | rfl⟩, hc⟩
    · exact ⟨by rwa [show 2 * i / 2 = i by omega], hc⟩
    · exact ⟨by rwa [show (2 * i + 1) / 2 = i by omega], hc⟩
  · rintro ⟨hi, hc⟩
    exact ⟨⟨c / 2, hi, by omega⟩, hc⟩

theorem differences_sorted (a b : Levels D) : (differences a b).Pairwise (· < ·) := by
  induction a generalizing b with
  | root => exact List.pairwise_singleton _ _
  | row rowA upperA ih =>
    cases b with
    | root => exact List.pairwise_singleton _ _
    | row rowB upperB =>
      -- The children of ascending nodes ascend, and leaving some out keeps them so.
      refine List.Pairwise.filter _ (List.pairwise_flatMap.mpr ⟨fun i _ => ?_, ?_⟩)
      · simp
      · refine (ih upperB).imp fun {i j} hij x hx y hy => ?_
        simp only [List.mem_cons, List.not_mem_nil, or_false] at hx hy
        omega

theorem Paired.ne_of_mem_differences (h : Paired H policy a b) (htop : a.top ≠ b.top) {c : Nat}
    (hc : c ∈ differences a b) : c < a.leaves.size ∧ a.leaves[c]? ≠ b.leaves[c]? := by
  cases h with
  | root digestA digestB =>
    obtain rfl : c = 0 := by simpa [differences] using hc
    refine ⟨Nat.one_pos, fun heq => htop ?_⟩
    exact Option.some.inj heq
  | row => exact (mem_differences_row.mp hc).2

theorem Paired.exists_mem_differences (h : Paired H policy a b) (htop : a.top ≠ b.top) :
    ∃ c, c ∈ differences a b := by
  induction h with
  | root => exact ⟨0, List.mem_singleton_self 0⟩
  | row _ hsize hA hB hupper ih =>
    obtain ⟨i, hi⟩ := ih htop
    have hne := (hupper.ne_of_mem_differences htop hi).2
    rw [hA, hB] at hne
    obtain ⟨c, rfl, hc⟩ := exists_child_ne hne
    exact ⟨c, mem_differences_row.mpr ⟨hi, lt_size_of_getElem?_ne hsize hc, hc⟩⟩

/-- Where two trees do not collide, every leaf that differs is found: the nodes above it differ
up to the root, so the walk comes down to it. -/
theorem Paired.mem_differences_of_ne (h : Paired H policy a b)
    (hno : ∀ level i, ¬ CollideAt H policy a b level i) {c : Nat}
    (hc : a.leaves[c]? ≠ b.leaves[c]?) : c ∈ differences a b := by
  induction h generalizing c with
  | root digestA digestB =>
    have hsize : (#[digestA] : Array D).size = (#[digestB] : Array D).size := rfl
    obtain rfl : c = 0 := Nat.lt_one_iff.mp (lt_size_of_getElem?_ne hsize hc)
    exact List.mem_singleton_self 0
  | @row rowA rowB upperA upperB _ hsize hA hB _ ih =>
    have hparent : upperA.leaves[c / 2]? ≠ upperB.leaves[c / 2]? := by
      rw [hA, hB]
      exact fun heq => hc (getElem?_eq_of_above hsize heq (CollideAt.not_here hno _))
    exact mem_differences_row.mpr
      ⟨ih (CollideAt.not_above hno) hparent, lt_size_of_getElem?_ne hsize hc, hc⟩

end Levels

namespace Tree

variable {a b : Tree D} {dataA dataB : ByteArray}

theorem Reached.paired (ha : a.Reached H dataA) (hb : b.Reached H dataB)
    (hshape : a.shape = b.shape) (hcount : a.blockCount = b.blockCount) :
    Levels.Paired H a.shape.oddPolicy a.levels b.levels :=
  ha.remembers.built.paired (hshape ▸ hb.remembers.built) hcount

variable [DecidableEq D]

/-- The blocks in which two comparable trees are said to differ come in ascending order, do
differ, are found whenever the roots differ, and are all of them unless the trees collide. -/
theorem differingBlocks_exact (ha : a.Reached H dataA) (hb : b.Reached H dataB)
    (hshape : a.shape = b.shape) (hcount : a.blockCount = b.blockCount) :
    ∃ found, a.differingBlocks b = some found ∧
      found.Pairwise (· < ·) ∧
      (∀ i ∈ found, i < a.blockCount ∧
        ∃ x y, a.leaf? i = some x ∧ b.leaf? i = some y ∧ x ≠ y) ∧
      (a.root ≠ b.root → found ≠ []) ∧
      ((∀ level i, ¬ Levels.CollideAt H a.shape.oddPolicy a.levels b.levels level i) →
        ∀ i, a.leaf? i ≠ b.leaf? i → i ∈ found) := by
  have hpaired := ha.paired hb hshape hcount
  by_cases hroot : a.root = b.root
  · refine ⟨[], if_pos hroot, .nil, by simp, fun hne => absurd hroot hne, fun hno i hi => ?_⟩
    exact absurd (congrArg (·[i]?) (hpaired.leaves_eq hroot hno)) hi
  · refine ⟨a.levels.differences b.levels, ?_, Levels.differences_sorted _ _, fun i hi => ?_,
      fun _ hnil => ?_, fun hno i hi => hpaired.mem_differences_of_ne hno hi⟩
    · simp [differingBlocks, hroot, comparable, hshape, hcount]
    · obtain ⟨hlt, hne⟩ := hpaired.ne_of_mem_differences hroot hi
      have hltB : i < b.levels.leaves.size := hpaired.size_leaves_eq ▸ hlt
      refine ⟨hlt, _, _, Array.getElem?_eq_getElem hlt, Array.getElem?_eq_getElem hltB, ?_⟩
      intro heq
      rw [Array.getElem?_eq_getElem hlt, Array.getElem?_eq_getElem hltB, heq] at hne
      exact hne rfl
    · obtain ⟨c, hc⟩ := hpaired.exists_mem_differences hroot
      simp [hnil] at hc

/-- Two trees of three blocks over five and six bytes, the first of which was written to since its
build. -/
theorem differingBlocks_exact_stale :
    ∃ a₀ a b, Tree.build Term.hasher ⟨2, .duplicate⟩
        (.ofBytes [1, 2, 3, 4, 5].toByteArray) = .ok a₀ ∧
      a = a₀.after Term.hasher (.write 0 [9].toByteArray) ∧
      Tree.build Term.hasher ⟨2, .duplicate⟩
        (.ofBytes [1, 2, 0, 4, 5, 6].toByteArray) = .ok b ∧
      ∃ found, a.differingBlocks b = some found ∧ found.Pairwise (· < ·) ∧
        0 ∉ found ∧ 1 ∈ found ∧ 2 ∈ found := by
  obtain ⟨a₀, ha₀⟩ : ∃ a₀, Tree.build Term.hasher ⟨2, .duplicate⟩
      (.ofBytes [1, 2, 3, 4, 5].toByteArray) = .ok a₀ := build_eq_ok _ (by decide) (by decide)
  obtain ⟨b, hb⟩ : ∃ b, Tree.build Term.hasher ⟨2, .duplicate⟩
      (.ofBytes [1, 2, 0, 4, 5, 6].toByteArray) = .ok b := build_eq_ok _ (by decide) (by decide)
  obtain ⟨a, ha⟩ : ∃ a, a = a₀.after Term.hasher (.write 0 [9].toByteArray) := ⟨_, rfl⟩
  have hreachedA : a.Reached Term.hasher [1, 2, 3, 4, 5].toByteArray :=
    ha ▸ (Reached.build ha₀).edit (.write 0 [9].toByteArray)
  have hreachedB : b.Reached Term.hasher [1, 2, 0, 4, 5, 6].toByteArray := .build hb
  have hshapeA : a.shape = ⟨2, .duplicate⟩ := by
    rw [ha, (a₀.after_keeps _ _).2, (build_ok ha₀).1]
  have hshapeB : b.shape = ⟨2, .duplicate⟩ := (build_ok hb).1
  have hcountA : a.blockCount = 3 := by
    rw [hreachedA.remembers.blockCount_eq, hshapeA]
    decide
  have hcountB : b.blockCount = 3 := by
    rw [hreachedB.remembers.blockCount_eq, hshapeB]
    decide
  have hleafA : ∀ i < 3, a.leaf? i = some (.leaf (blockBytes 2 [1, 2, 3, 4, 5].toByteArray i)) := by
    intro i hi
    rw [hreachedA.remembers.leaf?_eq (hcountA ▸ hi), hshapeA]
    rfl
  have hleafB :
      ∀ i < 3, b.leaf? i = some (.leaf (blockBytes 2 [1, 2, 0, 4, 5, 6].toByteArray i)) := by
    intro i hi
    rw [hreachedB.remembers.leaf?_eq (hcountB ▸ hi), hshapeB]
    rfl
  obtain ⟨found, hfound, hsorted, hdiffer, -, hall⟩ := differingBlocks_exact hreachedA hreachedB
    (hshapeA.trans hshapeB.symm) (hcountA.trans hcountB.symm)
  have hall := hall (Levels.not_collideAt_term _ _ _)
  refine ⟨a₀, a, b, ha₀, ha, hb, found, hfound, hsorted, fun h0 => ?_, hall 1 ?_, hall 2 ?_⟩
  · obtain ⟨-, x, y, hx, hy, hne⟩ := hdiffer 0 h0
    rw [hleafA 0 (by decide)] at hx
    rw [hleafB 0 (by decide)] at hy
    refine hne (Option.some.inj (hx.symm.trans (Eq.trans ?_ hy)))
    decide
  · rw [hleafA 1 (by decide), hleafB 1 (by decide)]
    decide
  · rw [hleafA 2 (by decide), hleafB 2 (by decide)]
    decide

end Tree

end BlockTree
