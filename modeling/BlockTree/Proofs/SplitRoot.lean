import BlockTree.Proofs.History

/-!
# Promotion splits at powers of two

Where an odd last digest moves up unchanged, node `j` of row `k` is the root, split from the top
down, over the leaves that stand `2 ^ k` to a node: `Splits` says so of a row, and the step to the
row above keeps it because two such runs of leaves split where they meet.
-/

namespace BlockTree

variable {D : Type} {H : Hasher D}

theorem splitRoot?_of_one_lt {digests : List D} (h : 1 < digests.length) :
    splitRoot? H digests =
      match splitRoot? H (digests.take (splitPoint digests.length)),
        splitRoot? H (digests.drop (splitPoint digests.length)) with
      | some left, some right => some (H.combine left right)
      | _, _ => none := by
  rw [splitRoot?]
  exact if_pos h

theorem exists_splitRoot? (H : Hasher D) {digests : List D} (h : digests ≠ []) :
    ∃ root, splitRoot? H digests = some root := by
  induction hn : digests.length using Nat.strongRecOn generalizing digests with
  | ind n ih =>
    subst hn
    by_cases hlen : 1 < digests.length
    · have hp := splitPoint_lt hlen
      have hpos := splitPoint_pos digests.length
      obtain ⟨left, hleft⟩ := ih (splitPoint digests.length) hp
        (List.length_pos_iff.mp (by rw [List.length_take]; omega))
        (List.length_take_of_le (Nat.le_of_lt hp))
      obtain ⟨right, hright⟩ := ih (digests.length - splitPoint digests.length) (by omega)
        (List.length_pos_iff.mp (by rw [List.length_drop]; omega)) List.length_drop
      exact ⟨H.combine left right, by rw [splitRoot?_of_one_lt hlen, hleft, hright]⟩
    · rw [splitRoot?, if_neg hlen]
      exact ⟨digests.head h, List.head?_eq_some_head h⟩

theorem splitRoot?_append {left right : List D} {k : Nat} (hleft : left.length = Nat.pow 2 k)
    (hright : right ≠ []) (hle : right.length ≤ Nat.pow 2 k) :
    ∃ a b, splitRoot? H left = some a ∧ splitRoot? H right = some b ∧
      splitRoot? H (left ++ right) = some (H.combine a b) := by
  have hpos := List.length_pos_iff.mpr hright
  have htwo : 0 < Nat.pow 2 k := Nat.two_pow_pos k
  have hsplit : splitPoint (left ++ right).length = left.length := by
    rw [hleft]
    have hsucc : Nat.pow 2 (k + 1) = Nat.pow 2 k * 2 := rfl
    refine splitPoint_eq_two_pow ?_ ?_ <;> rw [List.length_append] <;> omega
  obtain ⟨a, ha⟩ := exists_splitRoot? H (List.length_pos_iff.mp (hleft ▸ htwo))
  obtain ⟨b, hb⟩ := exists_splitRoot? H hright
  refine ⟨a, b, ha, hb, ?_⟩
  rw [splitRoot?_of_one_lt (by rw [List.length_append]; omega), hsplit, List.take_left,
    List.drop_left, ha, hb]

/-- Whether each node of row `k` is the root, split from the top down, over the leaves below it.
There is no node where there are no leaves below. -/
def Splits (H : Hasher D) (leaves : List D) (k : Nat) (row : Array D) : Prop :=
  ∀ j, row[j]? = splitRoot? H (leavesBelow leaves k j)

theorem splits_leaves (H : Hasher D) (row : Array D) : Splits H row.toList 0 row := by
  intro j
  have hone : Nat.pow 2 0 = 1 := rfl
  rw [leavesBelow_eq, hone, Nat.mul_one, List.take_one, List.head?_drop, Array.getElem?_toList]
  cases row[j]? with
  | none => exact (splitRoot?_nil H).symm
  | some d => exact (splitRoot?_singleton H d).symm

theorem Splits.above {leaves : List D} {k : Nat} {row : Array D} (h : Splits H leaves k row) :
    Splits H leaves (k + 1) (rowAbove H .promote row) := by
  intro j
  rw [getElem?_rowAbove, h, h, leavesBelow_succ]
  by_cases hright : leavesBelow leaves k (2 * j + 1) = []
  · -- No right child: the left one moves up, if it is there.
    rw [hright, List.append_nil, splitRoot?_nil]
    cases splitRoot? H (leavesBelow leaves k (2 * j)) <;> rfl
  · -- There are leaves to the right, so those to the left are as many as they can be.
    have hlen := length_leavesBelow leaves k (2 * j + 1)
    have hpos := List.length_pos_iff.mpr hright
    have hleft : (leavesBelow leaves k (2 * j)).length = Nat.pow 2 k := by
      rw [Nat.succ_mul (2 * j)] at hlen
      rw [length_leavesBelow]
      omega
    obtain ⟨a, b, ha, hb, hab⟩ :=
      splitRoot?_append (H := H) hleft hright (hlen ▸ Nat.min_le_left _ _)
    rw [ha, hb, hab]
    rfl

theorem Splits.root_eq {leaves : List D} {k : Nat} {root : D} (h : Splits H leaves k #[root]) :
    splitRoot? H leaves = some root := by
  have hnone : leavesBelow leaves k 1 = [] := by
    refine Classical.byContradiction fun hne => ?_
    obtain ⟨d, hd⟩ := exists_splitRoot? H hne
    exact nomatch (h 1).trans hd
  have hle : leaves.length ≤ Nat.pow 2 k := by
    have hlen := length_leavesBelow leaves k 1
    have htwo : 0 < Nat.pow 2 k := Nat.two_pow_pos k
    rw [hnone, List.length_nil] at hlen
    omega
  have hall : leavesBelow leaves k 0 = leaves := by
    rw [leavesBelow_eq, Nat.zero_mul, List.drop_zero, List.take_of_length_le hle]
  rw [← hall]
  exact (h 0).symm

theorem Levels.Built.splits {levels : Levels D} (h : levels.Built H .promote) {k : Nat}
    {row : Array D} (hrow : levels.toList[k]? = some row) :
    Splits H levels.leaves.toList k row := by
  have := h.row_induction (P := Splits H levels.leaves.toList) (splits_leaves H _)
    (fun _ _ _ hk => hk.above) hrow
  rwa [Nat.zero_add] at this

namespace Tree

/-- A tree whose odd digests move up unchanged has, in each row, the roots that are split from the
top down over the leaves below, and so has the root over all leaves. -/
theorem build_promote_splits (H : Hasher D) (blockSize : Nat) (buffer : Buffer)
    (hb : 0 < blockSize) (hd : 0 < buffer.view.size) :
    ∃ t, Tree.build H ⟨blockSize, .promote⟩ buffer = .ok t ∧
      (∀ k < t.height, ∃ row, t.row? k = some row ∧ ∀ j, row[j]? =
        splitRoot? H (leavesBelow (leafRow H blockSize buffer.view).toList k j)) ∧
      splitRoot? H (leafRow H blockSize buffer.view).toList = some t.root := by
  obtain ⟨t, ht⟩ : ∃ t, Tree.build H ⟨blockSize, .promote⟩ buffer = .ok t :=
    Tree.build_eq_ok H hb hd
  obtain ⟨hshape, -, hrem⟩ := build_ok ht
  have hbuilt := hrem.built
  have hleaves := hrem.leaves_eq
  rw [hshape] at hbuilt hleaves
  refine ⟨t, ht, fun k hk => ?_, ?_⟩
  · have hlen : k < t.levels.toList.length := by rwa [Levels.length_toList]
    refine ⟨t.levels.toList[k], List.getElem?_eq_getElem hlen, ?_⟩
    have := hbuilt.splits (List.getElem?_eq_getElem hlen)
    rwa [hleaves] at this
  · have := (hbuilt.splits (Levels.getElem?_toList_last t.levels)).root_eq
    rwa [hleaves] at this

/-- The last of five blocks moves up twice. -/
theorem build_promote_splits_five :
    ∃ t, Tree.build Term.hasher ⟨1, .promote⟩ (.ofBytes [1, 2, 3, 4, 5].toByteArray) = .ok t ∧
      t.root = .combine
        (.combine (.combine (.leaf [1].toByteArray) (.leaf [2].toByteArray))
          (.combine (.leaf [3].toByteArray) (.leaf [4].toByteArray)))
        (.leaf [5].toByteArray) := by
  obtain ⟨t, ht, -, hroot⟩ := build_promote_splits Term.hasher 1
    (.ofBytes [1, 2, 3, 4, 5].toByteArray) (by decide) (by decide)
  refine ⟨t, ht, Option.some.inj (hroot.symm.trans ?_)⟩
  decide +kernel

end Tree

end BlockTree
