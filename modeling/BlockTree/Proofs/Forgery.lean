import BlockTree.Proofs.AuditPath
import BlockTree.Proofs.Binding

/-!
# No audit path is forged

Steps that fold over some bytes to the root of a tree are followed from the root down. Where equal
digests of calls of one function come only from equal calls, the last step made the digest of a node
by the call that the tree made it with, so it went to one of the node's children, unless there is no
step and the bytes have the digest of the node: `exists_child_of_foldl`. Row after row the steps
turn out to be those of a path of the tree: `Levels.Built.leads_of_foldl`. Where a block and a node
never have the same digest, they are those from a block with these bytes.
-/

namespace BlockTree

variable {D : Type} {H : Hasher D} {policy : OddPolicy}

-- ---------------------------------------------------------------------------
-- Steps that lead to the root
-- ---------------------------------------------------------------------------

/-- Whether steps lead from node `i` of a row to the row above: they are the step of that node, or
its digest on the left where it is combined with itself. -/
inductive RowLeads (policy : OddPolicy) (row : Array D) (i : Nat) : List (PathStep D) → Prop
  | own : RowLeads policy row i (rowStep policy row i)
  | turned {d : D} (hpolicy : policy = .duplicate) (hd : row[i]? = some d)
      (halone : row[siblingIndex i]? = none) : RowLeads policy row i [.left d]

inductive Levels.Leads (policy : OddPolicy) : Levels D → Nat → List (PathStep D) → Prop
  | root {digest : D} : Leads policy (root digest) 0 []
  | row {digests : Array D} {upper : Levels D} {i : Nat} {here above : List (PathStep D)}
      (hhere : RowLeads policy digests i here) (habove : Leads policy upper (i / 2) above) :
      Leads policy (row digests upper) i (here ++ above)

/-- Whether steps lead to the root from node `i` of a row above the lowest one, the digest of which
is combined from `left` and `right`. -/
inductive Levels.LeadsFrom (policy : OddPolicy) :
    Levels D → (level i : Nat) → (left right : D) → List (PathStep D) → Prop
  | here {digests : Array D} {upper : Levels D} {i : Nat} {left right : D}
      {steps : List (PathStep D)}
      (hnode : policy.call? digests[2 * i]? digests[2 * i + 1]? = some (.combine left right))
      (habove : Leads policy upper i steps) :
      LeadsFrom policy (row digests upper) 1 i left right steps
  | above {digests : Array D} {upper : Levels D} {level i : Nat} {left right : D}
      {steps : List (PathStep D)} (h : LeadsFrom policy upper level i left right steps) :
      LeadsFrom policy (row digests upper) (level + 1) i left right steps

/-- Whether steps are those of a path from node `i` of the lowest row, save that in a row where
the node on the way is combined with itself its digest may stand on the left instead of the
right. -/
def Levels.UpToTurns (levels : Levels D) (i : Nat) (steps path : List (PathStep D)) : Prop :=
  ∀ k, steps[k]? = path[k]? ∨
    ∃ row d, levels.toList[k]? = some row ∧ row[i >>> k]? = some d ∧
      row[siblingIndex (i >>> k)]? = none ∧
      path[k]? = some (.right d) ∧ steps[k]? = some (.left d)

-- ---------------------------------------------------------------------------
-- One row down
-- ---------------------------------------------------------------------------

theorem RowLeads.of_rowStep {row : Array D} {i : Nat} {here : List (PathStep D)}
    (h : rowStep policy row i = here) : RowLeads policy row i here :=
  h ▸ .own

section Descent

variable {calls : List (Call D)} {data : ByteArray} {steps : List (PathStep D)}

theorem final_call (H : Hasher D) (d : D) (steps : List (PathStep D)) :
    steps = [] ∨ ∃ below step, steps = below ++ [step] ∧
      step.call (below.foldl (PathStep.apply H) d) ∈ stepCalls H d steps ∧
      (step.call (below.foldl (PathStep.apply H) d)).digest H =
        steps.foldl (PathStep.apply H) d := by
  rcases steps.eq_nil_or_concat with rfl | ⟨below, step, hconcat⟩
  · exact .inl rfl
  · obtain rfl : steps = below ++ [step] := hconcat.trans List.concat_eq_append
    refine .inr ⟨below, step, rfl, ?_, ?_⟩
    · rw [stepCalls_append]
      exact List.mem_append_right _ (List.mem_singleton_self _)
    · rw [List.foldl_append]
      exact step.digest_call H _

/-- Steps that fold to the digest of a block are none, from the bytes of the block, or they come
through two digests that are combined to it. -/
theorem eq_or_combine_of_foldl_eq_leaf (hcalls : UnambiguousAlike H calls)
    (hleaf : .leaf data ∈ calls) {block : ByteArray} (hmem : .leaf block ∈ calls)
    (hfold : steps.foldl (PathStep.apply H) (H.leaf data) = H.leaf block) :
    (steps = [] ∧ data = block) ∨
      (steps ≠ [] ∧ ∃ left right, .combine left right ∈ stepCalls H (H.leaf data) steps ∧
        H.combine left right = H.leaf block) := by
  rcases final_call H (H.leaf data) steps with rfl | ⟨below, step, rfl, hlast, hdigest⟩
  · exact .inl ⟨rfl, Call.leaf.inj (hcalls _ hleaf _ hmem trivial hfold)⟩
  · refine .inr ⟨by simp, ?_⟩
    cases step with
    | left sibling => exact ⟨_, _, hlast, hdigest.trans hfold⟩
    | right sibling => exact ⟨_, _, hlast, hdigest.trans hfold⟩

/-- Steps that fold to the digest above two children are none, or they come through the one or the
other. -/
theorem exists_last_step (hcalls : UnambiguousAlike H calls)
    (hsteps : stepCalls H (H.leaf data) steps ⊆ calls) {left right : D}
    (hmem : .combine left right ∈ calls)
    (hfold : steps.foldl (PathStep.apply H) (H.leaf data) = H.combine left right) :
    (steps = [] ∧ H.leaf data = H.combine left right) ∨
    ∃ below,
      (steps = below ++ [.left left] ∧
        below.foldl (PathStep.apply H) (H.leaf data) = right) ∨
      (steps = below ++ [.right right] ∧
        below.foldl (PathStep.apply H) (H.leaf data) = left) := by
  rcases final_call H (H.leaf data) steps with rfl | ⟨below, step, rfl, hlast, hdigest⟩
  · exact .inl ⟨rfl, hfold⟩
  · refine .inr ⟨below, ?_⟩
    cases step with
    | left sibling =>
      have hsame := hcalls _ (hsteps hlast) _ hmem trivial (hdigest.trans hfold)
      obtain ⟨rfl, hbelow⟩ := Call.combine.inj hsame
      exact .inl ⟨rfl, hbelow⟩
    | right sibling =>
      have hsame := hcalls _ (hsteps hlast) _ hmem trivial (hdigest.trans hfold)
      obtain ⟨hbelow, rfl⟩ := Call.combine.inj hsame
      exact .inr ⟨rfl, hbelow⟩

theorem exists_child_of_foldl (hcalls : UnambiguousAlike H calls)
    (hsteps : stepCalls H (H.leaf data) steps ⊆ calls) {row : Array D}
    (hrow : rowCalls policy row ⊆ calls) {j : Nat}
    (hfold : (rowAbove H policy row)[j]? =
      some (steps.foldl (PathStep.apply H) (H.leaf data))) :
    (steps = [] ∧ ∃ left right,
      policy.call? row[2 * j]? row[2 * j + 1]? = some (.combine left right) ∧
      H.leaf data = H.combine left right) ∨
    ∃ i below here, i / 2 = j ∧ steps = below ++ here ∧
      row[i]? = some (below.foldl (PathStep.apply H) (H.leaf data)) ∧
      RowLeads policy row i here := by
  have heven : 2 * j % 2 = 0 := by omega
  have hmem := @mem_rowCalls D policy row j
  rw [getElem?_rowAbove] at hfold
  cases hl : row[2 * j]? with
  | none =>
    rw [hl] at hfold
    cases hfold
  | some left =>
    cases hr : row[2 * j + 1]? with
    | some right =>
      rw [hl, hr] at hfold hmem
      have hcall : policy.call? (some left) (some right) = some (.combine left right) := by
        cases policy <;> rfl
      rcases exists_last_step hcalls hsteps (hrow (hmem hcall)) (Option.some.inj hfold).symm with
        ⟨hnil, hmeet⟩ | ⟨below, ⟨rfl, hbelow⟩ | ⟨rfl, hbelow⟩⟩
      · exact .inl ⟨hnil, left, right, hcall, hmeet⟩
      · have hodd : (2 * j + 1) % 2 = 1 := by omega
        exact .inr ⟨2 * j + 1, below, _, by omega, rfl, by rw [hr, hbelow],
          .of_rowStep (rowStep_odd hodd hl)⟩
      · exact .inr ⟨2 * j, below, _, by omega, rfl, by rw [hl, hbelow],
          .of_rowStep (rowStep_even heven hr)⟩
    | none =>
      rw [hl, hr] at hfold hmem
      cases policy with
      | promote =>
        exact .inr ⟨2 * j, steps, [], by omega, (List.append_nil _).symm, hl.trans hfold,
          .of_rowStep (rowStep_last heven hl hr)⟩
      | duplicate =>
        -- The node is both children of the one above it, so either side leads down to it.
        have halone : row[siblingIndex (2 * j)]? = none := by
          rwa [siblingIndex, if_pos heven]
        rcases exists_last_step hcalls hsteps (hrow (hmem rfl)) (Option.some.inj hfold).symm with
          ⟨hnil, hmeet⟩ | ⟨below, ⟨rfl, hbelow⟩ | ⟨rfl, hbelow⟩⟩
        · exact .inl ⟨hnil, left, left, rfl, hmeet⟩
        · exact .inr ⟨2 * j, below, _, by omega, rfl, by rw [hl, hbelow],
            .turned rfl hl halone⟩
        · exact .inr ⟨2 * j, below, _, by omega, rfl, by rw [hl, hbelow],
            .of_rowStep (rowStep_last heven hl hr)⟩

-- ---------------------------------------------------------------------------
-- From the root to the blocks
-- ---------------------------------------------------------------------------

/-- Steps that fold to the root come from a block, or they start at a node above the blocks whose
digest the bytes have. -/
theorem Levels.Built.leads_of_foldl {levels : Levels D} (h : levels.Built H policy)
    (hcalls : UnambiguousAlike H calls) (hsteps : stepCalls H (H.leaf data) steps ⊆ calls)
    (hlevels : levels.calls policy ⊆ calls)
    (hfold : steps.foldl (PathStep.apply H) (H.leaf data) = levels.top) :
    (∃ i below above, steps = below ++ above ∧
      levels.leaves[i]? = some (below.foldl (PathStep.apply H) (H.leaf data)) ∧
      levels.Leads policy i above) ∨
    ∃ level i left right, levels.LeadsFrom policy level i left right steps ∧
      H.leaf data = H.combine left right := by
  induction h with
  | root digest =>
    refine .inl ⟨0, steps, [], (List.append_nil _).symm, ?_, .root⟩
    rw [hfold]
    rfl
  | @row digests upper _ habove _ ih =>
    have hrow : rowCalls policy digests ⊆ calls :=
      fun _ hc => hlevels (List.mem_append_left _ hc)
    have hupper : upper.calls policy ⊆ calls := fun _ hc => hlevels (List.mem_append_right _ hc)
    rcases ih hupper hfold with
      ⟨j, through, above, rfl, hj, hleads⟩ | ⟨level, j, left, right, hfrom, hmeet⟩
    · -- The steps come through a node of the upper rows, and up to it through one of its children.
      rw [habove] at hj
      rw [stepCalls_append] at hsteps
      have hthrough : stepCalls H (H.leaf data) through ⊆ calls :=
        fun _ hc => hsteps (List.mem_append_left _ hc)
      rcases exists_child_of_foldl hcalls hthrough hrow hj with
        ⟨rfl, left, right, hcall, hmeet⟩ | ⟨i, below, here, rfl, rfl, hi, hhere⟩
      · exact .inr ⟨1, j, left, right, .here hcall hleads, hmeet⟩
      · exact .inl ⟨i, below, here ++ above, List.append_assoc _ _ _, hi, .row hhere hleads⟩
    · exact .inr ⟨level + 1, j, left, right, .above hfrom, hmeet⟩

theorem Levels.LeadsFrom.mem_calls {levels : Levels D} {level i : Nat} {left right : D}
    (h : levels.LeadsFrom policy level i left right steps) :
    .combine left right ∈ levels.calls policy := by
  induction h with
  | here hnode => exact List.mem_append_left _ (mem_rowCalls hnode)
  | above _ ih => exact List.mem_append_right _ ih

end Descent

-- ---------------------------------------------------------------------------
-- Which steps lead to the root
-- ---------------------------------------------------------------------------

theorem Levels.Built.leads_pathSteps {levels : Levels D} {i : Nat}
    (hbuilt : levels.Built H policy) (hi : i < levels.leaves.size) :
    levels.Leads policy i (levels.pathSteps policy i) := by
  induction hbuilt generalizing i with
  | root =>
    obtain rfl : i = 0 := Nat.lt_one_iff.mp hi
    exact .root
  | @row digests upper _ hleaves _ ih =>
    refine .row .own (ih ?_)
    replace hi : i < digests.size := hi
    rw [hleaves, size_rowAbove]
    omega

theorem Levels.Leads.eq_pathSteps {levels : Levels D} {i : Nat} {steps : List (PathStep D)}
    (h : levels.Leads .promote i steps) : steps = levels.pathSteps .promote i := by
  induction h with
  | root => rfl
  | row hhere _ ih =>
    cases hhere with
    | own => rw [pathSteps, ih]
    | turned hpolicy => cases hpolicy

theorem rowStep_duplicate_alone {row : Array D} {i : Nat} {d : D} (hd : row[i]? = some d)
    (halone : row[siblingIndex i]? = none) : rowStep .duplicate row i = [.right d] := by
  simp [rowStep, halone, hd]

theorem RowLeads.single {row : Array D} {i : Nat} {here : List (PathStep D)}
    (h : RowLeads .duplicate row i here) (hi : i < row.size) :
    ∃ step own, here = [step] ∧ rowStep .duplicate row i = [own] ∧
      (step = own ∨ ∃ d, row[i]? = some d ∧ row[siblingIndex i]? = none ∧
        own = .right d ∧ step = .left d) := by
  cases h with
  | own =>
    cases hsibling : row[siblingIndex i]? with
    | some sibling =>
      simp only [rowStep, hsibling]
      exact ⟨_, _, rfl, rfl, .inl rfl⟩
    | none =>
      have hown := rowStep_duplicate_alone (Array.getElem?_eq_getElem hi) hsibling
      exact ⟨_, _, hown, hown, .inl rfl⟩
  | turned _ hd halone =>
    exact ⟨_, _, rfl, rowStep_duplicate_alone hd halone, .inr ⟨_, hd, halone, rfl, rfl⟩⟩

theorem Levels.Leads.upToTurns {levels : Levels D} (hbuilt : levels.Built H .duplicate) {i : Nat}
    {steps : List (PathStep D)} (h : levels.Leads .duplicate i steps)
    (hi : i < levels.leaves.size) :
    levels.UpToTurns i steps (levels.pathSteps .duplicate i) := by
  induction h with
  | root => exact fun k => .inl rfl
  | @row digests upper i here above hhere _ ih =>
    cases hbuilt with
    | row _ hleaves hupper =>
      replace hi : i < digests.size := hi
      have hparent : i / 2 < upper.leaves.size := by
        rw [hleaves, size_rowAbove]
        omega
      obtain ⟨step, own, rfl, hown, hstep⟩ := hhere.single hi
      intro k
      rw [pathSteps, hown]
      cases k with
      | zero =>
        rcases hstep with rfl | ⟨d, hd, halone, rfl, rfl⟩
        · exact .inl rfl
        · exact .inr ⟨digests, d, rfl, hd, halone, rfl, rfl⟩
      | succ k =>
        rw [Nat.shiftRight_succ_inside]
        exact ih hupper hparent k

namespace Tree

variable {t : Tree D} {content data : ByteArray} {path : AuditPath D}

/-- The steps of a path that is accepted lead to the root from a block with these bytes, or they
start at a node above the blocks, or they come to a block through digests below it. -/
theorem Remembers.ways_of_verify [DecidableEq D] (h : t.Remembers H content)
    (hcalls : UnambiguousAlike H (buildCalls H t.shape content ++ path.calls H data))
    (hverify : path.verify H data t.root = true) :
    (∃ i < t.blockCount, data = blockBytes t.shape.blockSize content i ∧
      t.levels.Leads t.shape.oddPolicy i path.steps) ∨
    (∃ level i left right, t.levels.LeadsFrom t.shape.oddPolicy level i left right path.steps ∧
      H.leaf data = H.combine left right) ∨
    ∃ i < t.blockCount, ∃ below above left right, path.steps = below ++ above ∧ below ≠ [] ∧
      .combine left right ∈ path.calls H data ∧
      H.combine left right = H.leaf (blockBytes t.shape.blockSize content i) ∧
      t.levels.Leads t.shape.oddPolicy i above := by
  have hfold : path.steps.foldl (PathStep.apply H) (H.leaf data) = t.levels.top :=
    of_decide_eq_true hverify
  have hdata : Call.leaf data ∈ path.calls H data := List.mem_cons_self
  have hsteps : stepCalls H (H.leaf data) path.steps ⊆ path.calls H data :=
    fun _ hc => List.mem_cons_of_mem _ hc
  rcases h.built.leads_of_foldl hcalls (fun _ hc => List.mem_append_right _ (hsteps hc))
      (fun _ hc => List.mem_append_left _ (h.levels_calls_subset hc)) hfold with
    ⟨i, below, above, hpath, hi, hleads⟩ | hinner
  · have hlt : i < t.blockCount := (Array.getElem?_eq_some_iff.mp hi).1
    have hleaf : t.levels.leaves[i]? = some (H.leaf (blockBytes t.shape.blockSize content i)) :=
      h.leaf?_eq hlt
    rw [hleaf] at hi
    rw [hpath, stepCalls_append] at hsteps
    rcases eq_or_combine_of_foldl_eq_leaf hcalls (List.mem_append_right _ hdata)
        (List.mem_append_left _ (h.leaf_mem_buildCalls hlt)) (Option.some.inj hi).symm with
      ⟨rfl, hblock⟩ | ⟨hbelow, left, right, hcombine, hmeet⟩
    · exact .inl ⟨i, hlt, hblock, by rwa [hpath]⟩
    · exact .inr (.inr ⟨i, hlt, below, above, left, right, hpath, hbelow,
        hsteps (List.mem_append_left _ hcombine), hmeet, hleads⟩)
  · exact .inr (.inl hinner)

theorem Remembers.leads_of_verify [DecidableEq D] (h : t.Remembers H content)
    (hcalls : Unambiguous H (buildCalls H t.shape content ++ path.calls H data))
    (hverify : path.verify H data t.root = true) :
    ∃ i < t.blockCount, data = blockBytes t.shape.blockSize content i ∧
      t.levels.Leads t.shape.oddPolicy i path.steps := by
  rcases h.ways_of_verify hcalls.alike hverify with
    hblock | ⟨level, i, left, right, hfrom, hmeet⟩ |
      ⟨i, hi, _, _, left, right, -, -, hcombine, hmeet, -⟩
  · exact hblock
  · -- Without a step the digest of a block would be that of a node.
    have hdata : Call.leaf data ∈ path.calls H data := List.mem_cons_self
    exact absurd hmeet (hcalls.leaf_ne_combine (List.mem_append_right _ hdata)
      (List.mem_append_left _ (h.levels_calls_subset hfrom.mem_calls)))
  · exact absurd hmeet.symm (hcalls.leaf_ne_combine
      (List.mem_append_left _ (h.leaf_mem_buildCalls hi)) (List.mem_append_right _ hcombine))

/-- Steps that are accepted for some bytes are those of the path of a block with these bytes:
exactly where odd digests move up unchanged, and up to turns to the left where they are combined
with themselves. -/
theorem accepted_path_is_own [DecidableEq D] (h : t.Reached H content)
    (hcalls : Unambiguous H (buildCalls H t.shape content ++ path.calls H data))
    (hverify : path.verify H data t.root = true) :
    ∃ i < t.blockCount, ∃ own, t.path i = .ok own ∧
      data = blockBytes t.shape.blockSize content i ∧
      (t.shape.oddPolicy = .promote → path.steps = own.steps) ∧
      (t.shape.oddPolicy = .duplicate → t.levels.UpToTurns i path.steps own.steps) := by
  have hrem := h.remembers
  have hbuilt := hrem.built
  obtain ⟨i, hi, hdata, hleads⟩ := hrem.leads_of_verify hcalls hverify
  refine ⟨i, hi, _, path_eq_ok hi, hdata, fun hpolicy => ?_, fun hpolicy => ?_⟩
  · rw [hpolicy] at hleads ⊢
    exact hleads.eq_pathSteps
  · rw [hpolicy] at hbuilt hleads ⊢
    exact hleads.upToTurns hbuilt hi

/-- The last of three blocks, its own digest turned to the left of it, in a tree whose first block
was overwritten since its build. -/
theorem accepted_path_is_own_turned :
    ∃ t₀ t, Tree.build Term.hasher ⟨2, .duplicate⟩
        (.ofBytes [1, 2, 3, 4, 5].toByteArray) = .ok t₀ ∧
      t = t₀.after Term.hasher (.write 0 [9].toByteArray) ∧
      ∃ path : AuditPath Term, path.steps =
          [.left (.leaf [5].toByteArray),
            .left (.combine (.leaf [1, 2].toByteArray) (.leaf [3, 4].toByteArray))] ∧
        path.verify Term.hasher [5].toByteArray t.root = true ∧
        ∃ i < t.blockCount, ∃ own, t.path i = .ok own ∧
          [5].toByteArray = blockBytes 2 [1, 2, 3, 4, 5].toByteArray i ∧
          t.levels.UpToTurns i path.steps own.steps := by
  obtain ⟨t₀, t, ht₀, ht, hshape, hreached⟩ := exists_reached_after Term.hasher ⟨2, .duplicate⟩
    (.ofBytes [1, 2, 3, 4, 5].toByteArray) (by decide) (by decide) (.write 0 [9].toByteArray)
  replace hreached : t.Reached Term.hasher [1, 2, 3, 4, 5].toByteArray := hreached
  have hlevels := hreached.remembers.levels_eq hshape (by decide) (by decide)
  obtain ⟨path, hpath⟩ : ∃ path : AuditPath Term, path = ⟨0, [.left (.leaf [5].toByteArray),
      .left (.combine (.leaf [1, 2].toByteArray) (.leaf [3, 4].toByteArray))]⟩ := ⟨_, rfl⟩
  have hverify : path.verify Term.hasher [5].toByteArray t.root = true := by
    rw [hpath, Tree.root, hlevels]
    decide +kernel
  obtain ⟨i, hi, own, hown, hdata, -, hturns⟩ :=
    accepted_path_is_own hreached (Term.unambiguous _) hverify
  rw [hshape] at hdata hturns
  exact ⟨t₀, t, ht₀, ht, path, by rw [hpath], hverify, i, hi, own, hown, hdata, hturns rfl⟩

end Tree

end BlockTree
