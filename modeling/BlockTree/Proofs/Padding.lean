import BlockTree.Proofs.Commitment

/-!
# Combining with itself pads

Where an odd last digest is combined with itself, node `j` of row `k` is the root of the perfect
tree over the padded leaves below it: `Pads` says so of a row. The step to the row above keeps it,
because a round of padding repeats just the leaves below a last digest without a partner. So a whole
group of leaves is repeated where it is the group's digest that has none. Over terms the root is
perfect and has the padded blocks at its leaves, so two such roots with the same padded blocks are
the same.
-/

namespace BlockTree

-- ---------------------------------------------------------------------------
-- Padded rows
-- ---------------------------------------------------------------------------

theorem one_shiftLeft_eq (k : Nat) : 1 <<< k = Nat.pow 2 k :=
  Nat.one_shiftLeft k

-- ---------------------------------------------------------------------------
-- Rounds of padding
-- ---------------------------------------------------------------------------

section Rounds

variable {A : Type} {items : List A} {k m : Nat}

theorem isPowerOfTwo_two_pow (k : Nat) : isPowerOfTwo (Nat.pow 2 k) = true := by
  simp [isPowerOfTwo, Nat.one_shiftLeft, Nat.log2_two_pow]

theorem mul_two_pow_ne (hodd : m % 2 = 1) (hone : 1 < m) (k j : Nat) :
    m * Nat.pow 2 k ≠ Nat.pow 2 j := by
  have hzero : Nat.pow 2 0 = 1 := rfl
  have hsucc : ∀ i, Nat.pow 2 (i + 1) = 2 * Nat.pow 2 i := fun _ => Nat.pow_succ'
  induction k generalizing j with
  | zero =>
    cases j with
    | zero =>
      rw [hzero]
      omega
    | succ j =>
      rw [hzero, hsucc]
      omega
  | succ k ih =>
    rw [hsucc, Nat.mul_left_comm]
    cases j with
    | zero => omega
    | succ j =>
      have hne := ih j
      rw [hsucc]
      omega

theorem length_div_one_shiftLeft (hlength : items.length = m * Nat.pow 2 k) :
    items.length / 1 <<< k = m := by
  have hpos : 0 < Nat.pow 2 k := Nat.two_pow_pos k
  rw [one_shiftLeft_eq, hlength, Nat.mul_div_cancel _ hpos]

theorem padRound_of_even (hlength : items.length = m * Nat.pow 2 k) (heven : m % 2 = 0) :
    padRound items k = items := by
  simp [padRound, length_div_one_shiftLeft hlength, heven]

theorem padRound_of_odd (hlength : items.length = m * Nat.pow 2 k) (hodd : m % 2 = 1)
    (hone : 1 < m) : padRound items k = items ++ items.drop (items.length - Nat.pow 2 k) := by
  have hnot : isPowerOfTwo items.length = false := by
    rw [hlength, isPowerOfTwo, one_shiftLeft_eq]
    exact decide_eq_false (mul_two_pow_ne hodd hone _ _)
  rw [padRound, length_div_one_shiftLeft hlength, hnot, hodd, one_shiftLeft_eq]
  rfl

theorem length_padRound (hlength : items.length = m * Nat.pow 2 k) (hone : 1 < m) :
    (padRound items k).length = (m + 1) / 2 * Nat.pow 2 (k + 1) := by
  have hwidth : Nat.pow 2 (k + 1) = 2 * Nat.pow 2 k := Nat.pow_succ'
  rw [hwidth, ← Nat.mul_assoc]
  rcases Nat.mod_two_eq_zero_or_one m with heven | hodd
  · have hhalf : (m + 1) / 2 * 2 = m := by omega
    rw [padRound_of_even hlength heven, hlength, hhalf]
  · have hhalf : (m + 1) / 2 * 2 = m + 1 := by omega
    have hle : Nat.pow 2 k ≤ m * Nat.pow 2 k := Nat.le_mul_of_pos_left _ (by omega)
    rw [padRound_of_odd hlength hodd hone, List.length_append, List.length_drop, hlength, hhalf,
      Nat.succ_mul]
    omega

theorem prefix_padRound (items : List A) (k : Nat) : items <+: padRound items k := by
  unfold padRound
  split
  · exact List.prefix_append _ _
  · exact List.prefix_refl _

theorem prefix_foldl_padRound (items : List A) (rounds : List Nat) :
    items <+: rounds.foldl padRound items := by
  induction rounds generalizing items with
  | nil => exact List.prefix_refl _
  | cons k rest ih => exact (prefix_padRound items k).trans (ih _)

theorem foldl_padRound_of_isPowerOfTwo (h : isPowerOfTwo items.length = true)
    (rounds : List Nat) : rounds.foldl padRound items = items := by
  induction rounds with
  | nil => rfl
  | cons k rest ih =>
    have hround : padRound items k = items := by simp [padRound, h]
    rw [List.foldl_cons, hround, ih]

theorem pad_eq_foldl_foldl (hk : k ≤ items.length) : ∃ rounds : List Nat,
    pad items = rounds.foldl padRound ((List.range k).foldl padRound items) := by
  obtain ⟨rest, hrest⟩ := Nat.le.dest hk
  exact ⟨_, by rw [pad, ← hrest, List.range_add, List.foldl_append]⟩

theorem pad_eq_foldl (hk : k ≤ items.length)
    (h : isPowerOfTwo ((List.range k).foldl padRound items).length = true) :
    pad items = (List.range k).foldl padRound items := by
  obtain ⟨rounds, hrounds⟩ := pad_eq_foldl_foldl hk
  rw [hrounds, foldl_padRound_of_isPowerOfTwo h]

theorem foldl_padRound_prefix_pad (hk : k ≤ items.length) :
    (List.range k).foldl padRound items <+: pad items := by
  obtain ⟨rounds, hrounds⟩ := pad_eq_foldl_foldl hk
  rw [hrounds]
  exact prefix_foldl_padRound _ rounds

end Rounds

variable {D : Type} {H : Hasher D} {leaves digests : List D} {k j m : Nat}

-- ---------------------------------------------------------------------------
-- The leaves below a node
-- ---------------------------------------------------------------------------

theorem leavesBelow_of_isPrefix (h : leaves <+: digests)
    (hle : (j + 1) * Nat.pow 2 k ≤ leaves.length) :
    leavesBelow digests k j = leavesBelow leaves k j := by
  obtain ⟨more, rfl⟩ := h
  rw [Nat.succ_mul] at hle
  rw [leavesBelow_eq, leavesBelow_eq, List.drop_append_of_le_length (by omega),
    List.take_append_of_le_length (by rw [List.length_drop]; omega)]

theorem leavesBelow_padRound_of_lt (hlength : digests.length = m * Nat.pow 2 k) (hj : j < m) :
    leavesBelow (padRound digests k) k j = leavesBelow digests k j := by
  refine leavesBelow_of_isPrefix (prefix_padRound _ _) ?_
  rw [hlength]
  exact Nat.mul_le_mul_right _ hj

/-- A round repeats the leaves below the last digest. -/
theorem leavesBelow_padRound_of_odd (hlength : digests.length = m * Nat.pow 2 k)
    (hodd : m % 2 = 1) (hone : 1 < m) :
    leavesBelow (padRound digests k) k m = leavesBelow digests k (m - 1) := by
  have hlast : (m - 1) * Nat.pow 2 k = digests.length - Nat.pow 2 k := by
    rw [hlength, Nat.sub_one_mul]
  rw [padRound_of_odd hlength hodd hone, leavesBelow_eq, leavesBelow_eq, ← hlength, List.drop_left,
    hlast]

-- ---------------------------------------------------------------------------
-- Roots of perfect trees
-- ---------------------------------------------------------------------------

@[simp] theorem perfectRoot?_nil (H : Hasher D) (k : Nat) : perfectRoot? H k [] = none := by
  induction k with
  | zero => rfl
  | succ k ih => simp [perfectRoot?, ih]

theorem perfectRoot?_leavesBelow_succ {a b : D}
    (ha : perfectRoot? H k (leavesBelow digests k (2 * j)) = some a)
    (hb : perfectRoot? H k (leavesBelow digests k (2 * j + 1)) = some b) :
    perfectRoot? H (k + 1) (leavesBelow digests (k + 1) j) = some (H.combine a b) := by
  -- There are leaves to the right, so those to the left are as many as they can be.
  have hleft : (leavesBelow digests k (2 * j)).length = Nat.pow 2 k := by
    have hright : leavesBelow digests k (2 * j + 1) ≠ [] := by
      intro hnil
      rw [hnil, perfectRoot?_nil] at hb
      cases hb
    have hpos := List.length_pos_iff.mpr hright
    rw [length_leavesBelow, Nat.succ_mul] at hpos
    rw [length_leavesBelow]
    omega
  rw [leavesBelow_succ, perfectRoot?, one_shiftLeft_eq, ← hleft, List.take_left, List.drop_left, ha,
    hb]

-- ---------------------------------------------------------------------------
-- Rows over padded leaves
-- ---------------------------------------------------------------------------

/-- Whether each node of row `k` is the root of the perfect tree over the leaves below it, and no
leaves are left over. -/
structure Pads (H : Hasher D) (digests : List D) (k : Nat) (row : Array D) : Prop where
  length_eq : digests.length = row.size * Nat.pow 2 k
  getElem?_eq : ∀ j < row.size, row[j]? = perfectRoot? H k (leavesBelow digests k j)

theorem pads_leaves (H : Hasher D) (row : Array D) : Pads H row.toList 0 row where
  length_eq := by simp
  getElem?_eq j _ := by
    have hone : Nat.pow 2 0 = 1 := rfl
    rw [leavesBelow_eq, hone, Nat.mul_one, List.take_one, List.head?_drop, Array.getElem?_toList]
    cases row[j]? <;> rfl

theorem Pads.above {row : Array D} (h : Pads H digests k row) (hsize : 1 < row.size) :
    Pads H (padRound digests k) (k + 1) (rowAbove H .duplicate row) := by
  have hlength := h.length_eq
  refine ⟨by rw [size_rowAbove, length_padRound hlength hsize], fun j hj => ?_⟩
  rw [size_rowAbove] at hj
  have hleft : row[2 * j]? = some row[2 * j] := Array.getElem?_eq_getElem (by omega)
  have hrootLeft : perfectRoot? H k (leavesBelow (padRound digests k) k (2 * j)) =
      some row[2 * j] := by
    rw [leavesBelow_padRound_of_lt hlength (by omega), ← h.getElem?_eq _ (by omega), hleft]
  rw [getElem?_rowAbove, hleft]
  by_cases hboth : 2 * j + 1 < row.size
  · have hright : row[2 * j + 1]? = some row[2 * j + 1] := Array.getElem?_eq_getElem hboth
    have hrootRight : perfectRoot? H k (leavesBelow (padRound digests k) k (2 * j + 1)) =
        some row[2 * j + 1] := by
      rw [leavesBelow_padRound_of_lt hlength hboth, ← h.getElem?_eq _ hboth, hright]
    rw [hright, perfectRoot?_leavesBelow_succ hrootLeft hrootRight]
    rfl
  · -- The last digest has no partner: what the round repeated is the leaves below it.
    have hlast : 2 * j + 1 = row.size := by omega
    have hnone : row[2 * j + 1]? = none := Array.getElem?_eq_none (by omega)
    have hrootRight : perfectRoot? H k (leavesBelow (padRound digests k) k (2 * j + 1)) =
        some row[2 * j] := by
      rw [hlast, leavesBelow_padRound_of_odd hlength (by omega) hsize, ← hrootLeft,
        leavesBelow_padRound_of_lt hlength (by omega), ← hlast, Nat.add_sub_cancel]
    rw [hnone, perfectRoot?_leavesBelow_succ hrootLeft hrootRight]
    rfl

namespace Levels

variable {levels : Levels D}

theorem Built.height_le {policy : OddPolicy} (h : levels.Built H policy) :
    levels.height ≤ levels.leaves.size := by
  induction h with
  | root => exact Nat.le_refl 1
  | @row digests upper hsize habove _ ih =>
    rw [habove, size_rowAbove] at ih
    simp only [height, leaves]
    omega

theorem Built.pads (h : levels.Built H .duplicate) {row : Array D}
    (hrow : levels.toList[k]? = some row) :
    Pads H ((List.range k).foldl padRound levels.leaves.toList) k row := by
  have hpads := h.row_induction (k := 0)
    (P := fun k row => Pads H ((List.range k).foldl padRound levels.leaves.toList) k row)
    (pads_leaves H _) (fun k row hsize hk => by
      rw [List.range_succ, List.foldl_append]
      exact hk.above hsize) hrow
  rwa [Nat.zero_add] at hpads

theorem Built.perfectRoot?_pad (h : levels.Built H .duplicate) :
    (pad levels.leaves.toList).length = Nat.pow 2 (levels.height - 1) ∧
      perfectRoot? H (levels.height - 1) (pad levels.leaves.toList) = some levels.top := by
  have htop := h.pads (getElem?_toList_last levels)
  have hlength := htop.length_eq
  have hroot := htop.getElem?_eq 0 Nat.one_pos
  rw [List.size_toArray, List.length_singleton, Nat.one_mul] at hlength
  rw [leavesBelow_eq, Nat.zero_mul, List.drop_zero, List.take_of_length_le (Nat.le_of_eq hlength)]
    at hroot
  have hheight : levels.height - 1 ≤ levels.leaves.toList.length :=
    Nat.le_trans (Nat.sub_le _ 1) h.height_le
  rw [pad_eq_foldl hheight (hlength ▸ isPowerOfTwo_two_pow _)]
  exact ⟨hlength, hroot.symm⟩

theorem Built.getElem?_row_eq (h : levels.Built H .duplicate) {row : Array D}
    (hrow : levels.toList[k]? = some row) (hk : k < levels.height) (hj : j < row.size) :
    (leavesBelow (pad levels.leaves.toList) k j).length = Nat.pow 2 k ∧
      row[j]? = perfectRoot? H k (leavesBelow (pad levels.leaves.toList) k j) := by
  have hpads := h.pads hrow
  have hpad : (List.range k).foldl padRound levels.leaves.toList <+: pad levels.leaves.toList :=
    foldl_padRound_prefix_pad (Nat.le_of_lt (Nat.lt_of_lt_of_le hk h.height_le))
  have hle : (j + 1) * Nat.pow 2 k ≤
      ((List.range k).foldl padRound levels.leaves.toList).length := by
    rw [hpads.length_eq]
    exact Nat.mul_le_mul_right _ hj
  rw [leavesBelow_of_isPrefix hpad hle]
  refine ⟨?_, hpads.getElem?_eq j hj⟩
  rw [Nat.succ_mul] at hle
  rw [length_leavesBelow]
  omega

end Levels

namespace Tree

/-- A tree whose odd digests are combined with themselves has, in each row, the roots of perfect
trees over the padded leaves, and so has the root over all padded leaves. -/
theorem build_duplicate_pads (H : Hasher D) (blockSize : Nat) (buffer : Buffer)
    (hb : 0 < blockSize) (hd : 0 < buffer.view.size) :
    ∃ t padded, Tree.build H ⟨blockSize, .duplicate⟩ buffer = .ok t ∧
      padded = pad (leafRow H blockSize buffer.view).toList ∧
      padded.length = Nat.pow 2 (t.height - 1) ∧
      perfectRoot? H (t.height - 1) padded = some t.root ∧
      ∀ k < t.height, ∃ row, t.row? k = some row ∧ ∀ j < row.size,
        (leavesBelow padded k j).length = Nat.pow 2 k ∧
          row[j]? = perfectRoot? H k (leavesBelow padded k j) := by
  obtain ⟨t, ht⟩ : ∃ t, Tree.build H ⟨blockSize, .duplicate⟩ buffer = .ok t :=
    Tree.build_eq_ok H hb hd
  obtain ⟨hshape, -, hrem⟩ := build_ok ht
  have hbuilt := hrem.built
  have hleaves := hrem.leaves_eq
  rw [hshape] at hbuilt hleaves
  obtain ⟨hlength, hroot⟩ := hbuilt.perfectRoot?_pad
  rw [hleaves] at hlength hroot
  refine ⟨t, _, ht, rfl, hlength, hroot, fun k hk => ?_⟩
  have hlen : k < t.levels.toList.length := by rwa [Levels.length_toList]
  refine ⟨t.levels.toList[k], List.getElem?_eq_getElem hlen, fun j hj => ?_⟩
  rw [← hleaves]
  exact hbuilt.getElem?_row_eq (List.getElem?_eq_getElem hlen) hk hj

/-- Of six blocks the last two are repeated together. -/
theorem build_duplicate_pads_six :
    ∃ t, Tree.build Term.hasher ⟨1, .duplicate⟩ (.ofBytes [1, 2, 3, 4, 5, 6].toByteArray) = .ok t ∧
      t.root = .combine
        (.combine (.combine (.leaf [1].toByteArray) (.leaf [2].toByteArray))
          (.combine (.leaf [3].toByteArray) (.leaf [4].toByteArray)))
        (.combine (.combine (.leaf [5].toByteArray) (.leaf [6].toByteArray))
          (.combine (.leaf [5].toByteArray) (.leaf [6].toByteArray))) := by
  obtain ⟨t, padded, ht, hpadded, hlength, hroot, -⟩ := build_duplicate_pads Term.hasher 1
    (.ofBytes [1, 2, 3, 4, 5, 6].toByteArray) (by decide) (by decide)
  have hsize : padded.length = Nat.pow 2 3 := by
    rw [hpadded]
    decide +kernel
  have hheight : t.height - 1 = 3 :=
    (Nat.pow_right_inj (by decide)).mp (hlength.symm.trans hsize)
  rw [hheight, hpadded] at hroot
  refine ⟨t, ht, Option.some.inj (hroot.symm.trans ?_)⟩
  decide +kernel

end Tree

-- ---------------------------------------------------------------------------
-- Terms over padded blocks
-- ---------------------------------------------------------------------------

theorem padRound_map {A B : Type} (f : A → B) (items : List A) (k : Nat) :
    padRound (items.map f) k = (padRound items k).map f := by
  simp only [padRound, List.length_map]
  split
  · rw [List.map_append, List.map_drop]
  · rfl

theorem pad_map {A B : Type} (f : A → B) (items : List A) :
    pad (items.map f) = (pad items).map f := by
  have hrounds : ∀ (rounds : List Nat) (items : List A),
      rounds.foldl padRound (items.map f) = (rounds.foldl padRound items).map f := by
    intro rounds
    induction rounds with
    | nil => exact fun _ => rfl
    | cons k rest ih =>
      intro items
      rw [List.foldl_cons, List.foldl_cons, padRound_map, ih]
  rw [pad, pad, List.length_map, hrounds]

-- ---------------------------------------------------------------------------
-- Perfect terms
-- ---------------------------------------------------------------------------

/-- Whether all leaves of a term are at one depth. -/
inductive Perfect : Nat → Term → Prop
  | leaf {data : ByteArray} : Perfect 0 (.leaf data)
  | combine {depth : Nat} {left right : Term} (hleft : Perfect depth left)
      (hright : Perfect depth right) : Perfect (depth + 1) (.combine left right)

namespace Perfect

variable {depth other : Nat} {a b : Term}

theorem length_blocks (h : Perfect depth a) : a.blocks.length = 1 <<< depth := by
  induction h with
  | leaf => rfl
  | combine _ _ ihl ihr =>
    rw [Term.blocks, List.length_append, ihl, ihr, Nat.shiftLeft_succ]
    omega

theorem length_blocks_combine_ne_one (ha : Perfect depth a) (hb : Perfect depth b) :
    (Term.combine a b).blocks.length ≠ 1 := by
  rw [(Perfect.combine ha hb).length_blocks, Nat.shiftLeft_succ]
  omega

theorem eq_of_blocks_eq (ha : Perfect depth a) (hb : Perfect other b)
    (h : a.blocks = b.blocks) : a = b := by
  induction ha generalizing other b with
  | leaf =>
    cases hb with
    | leaf => rw [List.singleton_inj.mp h]
    | combine hl hr =>
      have hlength := congrArg List.length h
      exact absurd hlength (length_blocks_combine_ne_one hl hr).symm
  | combine hl hr ihl ihr =>
    cases hb with
    | leaf =>
      have hlength := congrArg List.length h
      exact absurd hlength (length_blocks_combine_ne_one hl hr)
    | combine hl' hr' =>
      have hlength := congrArg List.length h
      simp only [Term.blocks, List.length_append, hl.length_blocks, hr.length_blocks,
        hl'.length_blocks, hr'.length_blocks] at hlength
      obtain ⟨hleft, hright⟩ := List.append_inj h (by
        rw [hl.length_blocks, hl'.length_blocks]
        omega)
      rw [ihl hl' hleft, ihr hr' hright]

end Perfect

theorem perfect_of_perfectRoot? {depth : Nat} {blocks : List ByteArray} {root : Term}
    (hlength : blocks.length = Nat.pow 2 depth)
    (h : perfectRoot? Term.hasher depth (blocks.map Term.leaf) = some root) :
    Perfect depth root ∧ root.blocks = blocks := by
  induction depth generalizing blocks root with
  | zero =>
    obtain ⟨block, rfl⟩ := List.length_eq_one_iff.mp hlength
    obtain rfl : Term.leaf block = root := Option.some.inj h
    exact ⟨.leaf, rfl⟩
  | succ depth ih =>
    have hwidth : Nat.pow 2 (depth + 1) = 2 * Nat.pow 2 depth := Nat.pow_succ'
    rw [perfectRoot?, one_shiftLeft_eq, ← List.map_take, ← List.map_drop] at h
    split at h
    · next left right hleft hright =>
      obtain ⟨hperfect, hblocks⟩ := ih (by rw [List.length_take]; omega) hleft
      obtain ⟨hperfect', hblocks'⟩ := ih (by rw [List.length_drop]; omega) hright
      obtain rfl : Term.combine left right = root := Option.some.inj h
      refine ⟨.combine hperfect hperfect', ?_⟩
      rw [Term.blocks, hblocks, hblocks', List.take_append_drop]
    · cases h

/-- The root term is perfect, and the padded blocks are at its leaves. -/
theorem Tree.rootTerm_duplicate {shape : Shape} {data : ByteArray}
    (hpolicy : shape.oddPolicy = .duplicate) (hb : 0 < shape.blockSize) (hd : 0 < data.size) :
    (∃ depth, Perfect depth (rootTerm shape data hb hd)) ∧
      (rootTerm shape data hb hd).blocks = pad (blockList shape.blockSize data) := by
  have hbuilt : (Levels.ofBytes Term.hasher shape data hb hd).Built Term.hasher .duplicate :=
    hpolicy ▸ Levels.built_build _ _ _ _
  obtain ⟨hlength, hroot⟩ := hbuilt.perfectRoot?_pad
  rw [Levels.leaves_ofBytes_term, pad_map] at hlength hroot
  rw [List.length_map] at hlength
  obtain ⟨hperfect, hblocks⟩ := perfect_of_perfectRoot? hlength hroot
  exact ⟨⟨_, hperfect⟩, hblocks⟩

end BlockTree
