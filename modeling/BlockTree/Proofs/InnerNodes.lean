import BlockTree.Proofs.Forgery

/-!
# Nodes passed off as blocks

A path does not tell how far below the root its bytes are. Where a parent is hashed like a block of
the joined digests of its children, these bytes are accepted with the steps from the parent up
(`Levels.Combines.exists_steps`), which are fewer than those of the blocks below it. Without a
collision only this, or a block that itself is two joined digests, makes an accepted path shorter or
longer than those of the tree: `Tree.accepted_steps_counted`.
-/

namespace BlockTree

variable {D : Type} {H : Hasher D} {policy : OddPolicy}

-- ---------------------------------------------------------------------------
-- Nodes above the blocks
-- ---------------------------------------------------------------------------

/-- Whether the digest of node `i` of a row above the lowest one is combined from `left` and
`right`. -/
inductive Levels.Combines (policy : OddPolicy) :
    Levels D → (level i : Nat) → (left right : D) → Prop
  | here {digests : Array D} {upper : Levels D} {i : Nat} {left right : D}
      (hnode : policy.call? digests[2 * i]? digests[2 * i + 1]? = some (.combine left right)) :
      Combines policy (row digests upper) 1 i left right
  | above {digests : Array D} {upper : Levels D} {level i : Nat} {left right : D}
      (h : Combines policy upper level i left right) :
      Combines policy (row digests upper) (level + 1) i left right

theorem above_of_call? {left right : Option D} {l r : D}
    (h : policy.call? left right = some (.combine l r)) :
    policy.above H left right = some (H.combine l r) := by
  cases left <;> cases right <;> cases policy <;> cases h <;> rfl

theorem lt_size_of_call? {row : Array D} {i : Nat} {left right : D}
    (h : policy.call? row[2 * i]? row[2 * i + 1]? = some (.combine left right)) :
    2 * i < row.size := by
  cases hl : row[2 * i]? with
  | none =>
    rw [hl] at h
    cases policy <;> cases h
  | some l => exact (Array.getElem?_eq_some_iff.mp hl).1

theorem length_rowStep_of_call? {row : Array D} {i child : Nat} {left right : D}
    (h : policy.call? row[2 * i]? row[2 * i + 1]? = some (.combine left right))
    (hchild : child < row.size) (hparent : child / 2 = i) :
    (rowStep policy row child).length = 1 := by
  have hl : row[2 * i]? = some row[2 * i] := Array.getElem?_eq_getElem (lt_size_of_call? h)
  have hside : child = 2 * i ∨ child = 2 * i + 1 := by omega
  cases hr : row[2 * i + 1]? with
  | some r =>
    rcases hside with rfl | rfl
    · rw [rowStep_even (by omega) hr]
      rfl
    · rw [rowStep_odd (by omega) hl]
      rfl
  | none =>
    -- The child without a sibling is combined with itself, so it did not move up unchanged.
    have hend : row.size ≤ 2 * i + 1 := Array.getElem?_eq_none_iff.mp hr
    obtain rfl : child = 2 * i := by omega
    rw [rowStep_last (by omega) hl hr]
    rw [hl, hr] at h
    cases policy with
    | promote => cases h
    | duplicate => rfl

theorem RowLeads.length_eq {row : Array D} {i : Nat} {here : List (PathStep D)}
    (h : RowLeads policy row i here) : here.length = (rowStep policy row i).length := by
  cases h with
  | own => rfl
  | turned hpolicy hd halone =>
    subst hpolicy
    rw [rowStep_duplicate_alone hd halone]
    rfl

namespace Levels

variable {levels : Levels D} {level i : Nat} {left right : D} {steps : List (PathStep D)}

theorem Leads.length_eq (h : levels.Leads policy i steps) :
    steps.length = (levels.pathSteps policy i).length := by
  induction h with
  | root => rfl
  | row hhere _ ih => rw [pathSteps, List.length_append, List.length_append, hhere.length_eq, ih]

theorem LeadsFrom.combines (h : levels.LeadsFrom policy level i left right steps) :
    levels.Combines policy level i left right := by
  induction h with
  | here hnode => exact .here hnode
  | above _ ih => exact .above ih

theorem Combines.exists_below (hbuilt : levels.Built H policy)
    (h : levels.Combines policy level i left right) :
    ∃ block < levels.leaves.size, block >>> level = i := by
  induction h with
  | @here digests upper i left right hnode =>
    exact ⟨2 * i, lt_size_of_call? hnode, by rw [Nat.shiftRight_eq_div_pow]; omega⟩
  | @above digests upper level i left right _ ih =>
    cases hbuilt with
    | row _ hleaves hupper =>
      obtain ⟨block, hblock, hshift⟩ := ih hupper
      rw [hleaves, size_rowAbove] at hblock
      refine ⟨2 * block, show 2 * block < digests.size by omega, ?_⟩
      rw [Nat.shiftRight_succ_inside, Nat.mul_div_cancel_left block Nat.two_pos, hshift]

/-- The path of every block below a node is longer than the way from the node up. -/
theorem LeadsFrom.length_lt (hbuilt : levels.Built H policy)
    (h : levels.LeadsFrom policy level i left right steps) {block : Nat}
    (hblock : block < levels.leaves.size) (hbelow : block >>> level = i) :
    steps.length < (levels.pathSteps policy block).length := by
  induction h generalizing block with
  | @here digests upper i left right steps hnode habove =>
    have hparent : block / 2 = i := by
      rwa [Nat.shiftRight_succ_inside, Nat.shiftRight_zero] at hbelow
    rw [pathSteps, List.length_append, length_rowStep_of_call? hnode hblock hparent, hparent,
      habove.length_eq]
    omega
  | @above digests upper level i left right steps _ ih =>
    cases hbuilt with
    | row _ hleaves hupper =>
      have hparent : block / 2 < upper.leaves.size := by
        have : block < digests.size := hblock
        rw [hleaves, size_rowAbove]
        omega
      have hlonger := ih hupper hparent (by rwa [← Nat.shiftRight_succ_inside])
      rw [pathSteps, List.length_append]
      omega

/-- The digests of two children, combined, lead to the root with the steps from their parent up. -/
theorem Combines.exists_steps (hbuilt : levels.Built H policy)
    (h : levels.Combines policy level i left right) :
    ∃ steps, levels.LeadsFrom policy level i left right steps ∧
      steps.foldl (PathStep.apply H) (H.combine left right) = levels.top := by
  induction h with
  | @here digests upper i left right hnode =>
    cases hbuilt with
    | row _ hleaves hupper =>
      have hnodeDigest : upper.leaves[i]? = some (H.combine left right) := by
        rw [hleaves, getElem?_rowAbove, above_of_call? hnode]
      exact ⟨_, .here hnode
        (hupper.leads_pathSteps (Array.getElem?_eq_some_iff.mp hnodeDigest).1),
        hupper.foldl_pathSteps hnodeDigest⟩
  | above _ ih =>
    cases hbuilt with
    | row _ _ hupper =>
      obtain ⟨steps, hfrom, hfold⟩ := ih hupper
      exact ⟨steps, .above hfrom, hfold⟩

/-- The root of more than one block is combined from two children. -/
theorem Built.combines_top (hbuilt : levels.Built H policy) (hsize : 1 < levels.leaves.size) :
    ∃ left right, levels.Combines policy (levels.height - 1) 0 left right ∧
      levels.top = H.combine left right := by
  induction hbuilt with
  | root => exact absurd hsize (Nat.lt_irrefl 1)
  | @row digests upper hone hleaves hupper ih =>
    cases hupper with
    | root digest =>
      have hcount := congrArg Array.size hleaves
      rw [size_rowAbove] at hcount
      have htwo : digests.size = 2 := by
        have : (digests.size + 1) / 2 = 1 := hcount.symm
        omega
      have hl : digests[0]? = some digests[0] := Array.getElem?_eq_getElem _
      have hr : digests[1]? = some digests[1] := Array.getElem?_eq_getElem _
      have hnode : policy.call? digests[2 * 0]? digests[2 * 0 + 1]? =
          some (.combine digests[0] digests[1]) := by
        rw [hl, hr]
        cases policy <;> rfl
      refine ⟨_, _, .here hnode, Option.some.inj ?_⟩
      rw [← above_of_call? hnode, ← getElem?_rowAbove, ← hleaves]
      rfl
    | row hone' hleaves' hupper' =>
      obtain ⟨left, right, hnode, htop⟩ := ih hone'
      exact ⟨left, right, .above hnode, htop⟩

end Levels

namespace Tree

variable [DecidableEq D] {t : Tree D} {content data : ByteArray} {path : AuditPath D}

/-- What is accepted by as many steps as a block's path, by fewer or by more. -/
theorem Remembers.counted_steps_of_verify (J : Joining H) (h : t.Remembers H content)
    (hnone : ¬ J.CollideAmong (buildCalls H t.shape content ++ path.calls H data))
    (hverify : path.verify H data t.root = true) :
    (∃ i < t.blockCount, data = blockBytes t.shape.blockSize content i ∧
      path.steps.length = (t.levels.pathSteps t.shape.oddPolicy i).length) ∨
    (∃ level j left right, t.levels.Combines t.shape.oddPolicy level j left right ∧
      data = J.join left right ∧ (∃ i < t.blockCount, i >>> level = j) ∧
      ∀ i < t.blockCount, i >>> level = j →
        path.steps.length < (t.levels.pathSteps t.shape.oddPolicy i).length) ∨
    ∃ i < t.blockCount, ∃ left right,
      blockBytes t.shape.blockSize content i = J.join left right ∧
      (t.levels.pathSteps t.shape.oddPolicy i).length < path.steps.length := by
  have hdata : Call.leaf data ∈ path.calls H data := List.mem_cons_self
  rcases h.ways_of_verify (Joining.unambiguousAlike hnone) hverify with
    ⟨i, hi, hblock, hleads⟩ | ⟨level, j, left, right, hfrom, hmeet⟩ |
      ⟨i, hi, below, above, left, right, hpath, hbelow, hcombine, hmeet, hleads⟩
  · exact .inl ⟨i, hi, hblock, hleads.length_eq⟩
  · have hnode : .combine left right ∈ buildCalls H t.shape content :=
      h.levels_calls_subset hfrom.mem_calls
    have hbytes : data = J.join left right :=
      Joining.bytes_eq_of_not_collideAmong hnone (List.mem_append_right _ hdata)
        (List.mem_append_left _ hnode) hmeet
    exact .inr (.inl ⟨level, j, left, right, hfrom.combines, hbytes,
      hfrom.combines.exists_below h.built, fun i hi hbelow => hfrom.length_lt h.built hi hbelow⟩)
  · have hbytes : blockBytes t.shape.blockSize content i = J.join left right :=
      Joining.bytes_eq_of_not_collideAmong hnone
        (List.mem_append_left _ (h.leaf_mem_buildCalls hi))
        (List.mem_append_right _ hcombine) hmeet.symm
    have hlonger := List.length_pos_iff.mpr hbelow
    refine .inr (.inr ⟨i, hi, left, right, hbytes, ?_⟩)
    rw [hpath, List.length_append, ← hleads.length_eq]
    omega

/-- With either algorithm, an accepted path has as many steps as that of a block, for whose bytes
it is accepted, but for three exceptions. For the joined digests of the children of a node above the
blocks there are fewer than in the path of every block below the node, and such steps there always
are. Where a block itself is two joined digests there may be more. Or different bytes that were
hashed have the same digest. So with no step at all just those bytes are accepted that have the
digest of the joined digests of the root's children. -/
theorem accepted_steps_counted (kind : HashKind) {t : Tree kind.Digest}
    (h : t.Reached kind.algorithm.toHasher content) (hcount : 2 ≤ t.blockCount) :
    (∀ (path : AuditPath kind.Digest) (data : ByteArray),
      path.verify kind.algorithm.toHasher data t.root = true →
      (∃ i own, t.path i = .ok own ∧ data = blockBytes t.shape.blockSize content i ∧
        path.steps.length = own.steps.length) ∨
      (∃ level j left right, t.levels.Combines t.shape.oddPolicy level j left right ∧
        data = kind.joining.join left right ∧
        (∃ i own, t.path i = .ok own ∧ i >>> level = j) ∧
        ∀ i own, t.path i = .ok own → i >>> level = j →
          path.steps.length < own.steps.length) ∨
      (∃ i own left right, t.path i = .ok own ∧
        blockBytes t.shape.blockSize content i = kind.joining.join left right ∧
        own.steps.length < path.steps.length) ∨
      kind.joining.CollideAmong (buildCalls kind.algorithm.toHasher t.shape content ++
        path.calls kind.algorithm.toHasher data)) ∧
    (∀ level j left right, t.levels.Combines t.shape.oddPolicy level j left right →
      ∃ steps, ∀ block, (AuditPath.mk block steps).verify kind.algorithm.toHasher
        (kind.joining.join left right) t.root = true) ∧
    ∃ left right, t.levels.Combines t.shape.oddPolicy (t.height - 1) 0 left right ∧
      ∀ block data, (AuditPath.mk block []).verify kind.algorithm.toHasher data t.root = true ↔
        kind.algorithm.leaf data = kind.algorithm.leaf (kind.joining.join left right) := by
  have hrem := h.remembers
  refine ⟨?_, ?_, ?_⟩
  · intro path data hverify
    by_cases hcollide : kind.joining.CollideAmong
        (buildCalls kind.algorithm.toHasher t.shape content ++
          path.calls kind.algorithm.toHasher data)
    · exact .inr (.inr (.inr hcollide))
    · rcases hrem.counted_steps_of_verify kind.joining hcollide hverify with
        ⟨i, hi, hdata, hlength⟩ | ⟨level, j, left, right, hnode, hdata, ⟨i, hi, hbelow⟩, hlonger⟩ |
          ⟨i, hi, left, right, hblock, hlength⟩
      · exact .inl ⟨i, _, path_eq_ok hi, hdata, hlength⟩
      · refine .inr (.inl ⟨level, j, left, right, hnode, hdata, ⟨i, _, path_eq_ok hi, hbelow⟩, ?_⟩)
        intro k own hown hbelow
        obtain ⟨hk, rfl⟩ := path_ok hown
        exact hlonger k hk hbelow
      · exact .inr (.inr (.inl ⟨i, _, left, right, path_eq_ok hi, hblock, hlength⟩))
  · intro level j left right hnode
    obtain ⟨steps, -, hfold⟩ := hnode.exists_steps hrem.built
    rw [kind.joining.combine_eq] at hfold
    exact ⟨steps, fun _ => decide_eq_true hfold⟩
  · obtain ⟨left, right, hnode, htop⟩ := hrem.built.combines_top hcount
    rw [kind.joining.combine_eq] at htop
    refine ⟨left, right, hnode, fun block data => ?_⟩
    rw [AuditPath.verify, AuditPath.root_nil, Tree.root, htop]
    exact decide_eq_true_iff

/-- Without a step the joined digests of the root's children are accepted, in a tree of three blocks
whose first one was overwritten since its build. -/
theorem accepted_steps_counted_three :
    ∃ t₀ t, Tree.build Fnv.algorithm.toHasher ⟨1, .duplicate⟩
        (.ofBytes [1, 2, 3].toByteArray) = .ok t₀ ∧
      t = t₀.after Fnv.algorithm.toHasher (.write 0 [9].toByteArray) ∧ t.blockCount = 3 ∧
      ∃ left right, t.levels.Combines .duplicate (t.height - 1) 0 left right ∧
        (AuditPath.mk 0 []).verify Fnv.algorithm.toHasher (Fnv.joining.join left right) t.root =
          true := by
  obtain ⟨t₀, t, ht₀, ht, hshape, hreached⟩ := exists_reached_after Fnv.algorithm.toHasher
    ⟨1, .duplicate⟩ (.ofBytes [1, 2, 3].toByteArray) (by decide) (by decide)
    (.write 0 [9].toByteArray)
  replace hreached : t.Reached Fnv.algorithm.toHasher [1, 2, 3].toByteArray := hreached
  have hcount : t.blockCount = 3 := by
    rw [hreached.remembers.blockCount_eq, hshape]
    decide
  have htwo : 2 ≤ t.blockCount := by
    rw [hcount]
    decide
  obtain ⟨-, -, left, right, hnode, hiff⟩ := accepted_steps_counted .fnv64 hreached htwo
  rw [hshape] at hnode
  exact ⟨t₀, t, ht₀, ht, hcount, left, right, hnode, (hiff 0 _).mpr rfl⟩

/-- The path of each of two blocks has one step. Without a step, the joined digests of the blocks
are accepted, and so are nine bytes that happen to have the same digest. With two steps a byte is
accepted below a block that is two joined digests. -/
theorem steps_not_counted :
    (∃ t, Tree.build Fnv.algorithm.toHasher ⟨1, .promote⟩ (.ofBytes [1, 2].toByteArray) = .ok t ∧
      t.blockCount = 2 ∧
      (∀ i < 2, ∃ own, t.path i = .ok own ∧ own.steps.length = 1) ∧
      (AuditPath.mk 0 []).verify Fnv.algorithm.toHasher
        (Fnv.joining.join (Fnv.leaf [1].toByteArray) (Fnv.leaf [2].toByteArray)) t.root = true ∧
      (AuditPath.mk 0 []).verify Fnv.algorithm.toHasher
        [161, 137, 80, 6, 139, 99, 27, 90, 4].toByteArray t.root = true) ∧
    ∃ t, Tree.build Fnv.algorithm.toHasher ⟨16, .promote⟩
        (.ofBytes (Fnv.joining.join (Fnv.leaf [1].toByteArray) (Fnv.leaf [2].toByteArray) ++
          [3].toByteArray)) = .ok t ∧
      t.blockCount = 2 ∧
      (∀ i < 2, ∃ own, t.path i = .ok own ∧ own.steps.length = 1) ∧
      (AuditPath.mk 0 [.right (Fnv.leaf [2].toByteArray), .right (Fnv.leaf [3].toByteArray)]).verify
        Fnv.algorithm.toHasher [1].toByteArray t.root = true := by
  constructor
  · obtain ⟨t, ht, hshape, hlevels⟩ := exists_build_ofBytes Fnv.algorithm.toHasher ⟨1, .promote⟩
      [1, 2].toByteArray (by decide) (by decide)
    have hcount : t.blockCount = 2 := by
      rw [Tree.blockCount, hlevels]
      decide +kernel
    have hone : ∀ i < 2, (t.levels.pathSteps t.shape.oddPolicy i).length = 1 := by
      rw [hlevels, hshape]
      decide +kernel
    refine ⟨t, ht, hcount, fun i hi => ⟨_, path_eq_ok (hcount ▸ hi), hone i hi⟩, ?_, ?_⟩
    · rw [Tree.root, hlevels]
      decide +kernel
    · rw [Tree.root, hlevels]
      decide +kernel
  · obtain ⟨t, ht, hshape, hlevels⟩ := exists_build_ofBytes Fnv.algorithm.toHasher ⟨16, .promote⟩
      (Fnv.joining.join (Fnv.leaf [1].toByteArray) (Fnv.leaf [2].toByteArray) ++ [3].toByteArray)
      (by decide) (by decide +kernel)
    have hcount : t.blockCount = 2 := by
      rw [Tree.blockCount, hlevels]
      decide +kernel
    have hone : ∀ i < 2, (t.levels.pathSteps t.shape.oddPolicy i).length = 1 := by
      rw [hlevels, hshape]
      decide +kernel
    refine ⟨t, ht, hcount, fun i hi => ⟨_, path_eq_ok (hcount ▸ hi), hone i hi⟩, ?_⟩
    rw [Tree.root, hlevels]
    decide +kernel

end Tree

end BlockTree
