import BlockTree.Levels

/-!
# Rows above rows

What one row says about the next. `getElem?_rowAbove` reads each digest of the row above off its two
children, and `Levels.Built` is the invariant that all proofs about levels go through: every row
stands above the one below it. `Levels.Built.row_induction` carries what one step up keeps to every
row of a tree. Downwards, two rows of one size with the same digest above two children agree there
or the calls for that digest collide, so two trees with the same root have the same leaves or
collide somewhere: `Levels.Paired.leaves_eq`.
-/

namespace BlockTree

variable {D : Type} {H : Hasher D} {policy : OddPolicy}

def OddPolicy.above (H : Hasher D) (policy : OddPolicy) : Option D → Option D → Option D
  | some left, some right => some (H.combine left right)
  | some last, none => some (policy.lift H last)
  | none, _ => none

theorem getElem?_rowAbove (H : Hasher D) (policy : OddPolicy) (row : Array D) (i : Nat) :
    (rowAbove H policy row)[i]? = policy.above H row[2 * i]? row[2 * i + 1]? := by
  rcases Nat.lt_or_ge (2 * i + 1) row.size with hboth | hlast
  · have hi : i < (row.size + 1) / 2 := by omega
    have hleft : 2 * i < row.size := by omega
    simp [rowAbove, OddPolicy.above, hi, hleft, hboth]
  · rcases Nat.lt_or_ge (2 * i) row.size with hleft | hnone
    · have hi : i < (row.size + 1) / 2 := by omega
      simp [rowAbove, OddPolicy.above, hi, hleft, Nat.not_lt.mpr hlast]
    · have hi : ¬ i < (row.size + 1) / 2 := by omega
      have hleft : row[2 * i]? = none := Array.getElem?_eq_none hnone
      simp [rowAbove, OddPolicy.above, hi, hleft]

def pairUp (H : Hasher D) (policy : OddPolicy) : List D → List D
  | left :: right :: rest => H.combine left right :: pairUp H policy rest
  | [last] => [policy.lift H last]
  | [] => []

theorem getElem?_pairUp (H : Hasher D) (policy : OddPolicy) (row : List D) (i : Nat) :
    (pairUp H policy row)[i]? = policy.above H row[2 * i]? row[2 * i + 1]? := by
  induction row using pairUp.induct generalizing i with
  | case1 left right rest ih =>
    cases i with
    | zero => rfl
    | succ i => exact ih i
  | case2 last =>
    cases i with
    | zero => rfl
    | succ i => rfl
  | case3 => rfl

theorem toList_rowAbove (H : Hasher D) (policy : OddPolicy) (row : Array D) :
    (rowAbove H policy row).toList = pairUp H policy row.toList := by
  refine List.ext_getElem? fun i => ?_
  simp only [getElem?_pairUp, Array.getElem?_toList, getElem?_rowAbove]

namespace Levels

theorem height_pos (levels : Levels D) : 0 < levels.height := by
  cases levels <;> exact Nat.succ_pos _

theorem height_sub_one_add_one (levels : Levels D) : levels.height - 1 + 1 = levels.height :=
  Nat.succ_pred_eq_of_pos levels.height_pos

/-- Rows of which each is the row above the one below it. -/
inductive Built (H : Hasher D) (policy : OddPolicy) : Levels D → Prop
  | root (digest : D) : Built H policy (root digest)
  | row {digests : Array D} {upper : Levels D} (hsize : 1 < digests.size)
      (hleaves : upper.leaves = rowAbove H policy digests) (hupper : Built H policy upper) :
      Built H policy (row digests upper)

theorem built_build (H : Hasher D) (policy : OddPolicy) (leaves : Array D)
    (h : 0 < leaves.size) : (build H policy leaves h).Built H policy := by
  induction hn : leaves.size using Nat.strongRecOn generalizing leaves with
  | ind n ih =>
    subst hn
    by_cases hsize : 1 < leaves.size
    · rw [build_of_one_lt H policy leaves hsize]
      have hpos := size_rowAbove_pos H policy h
      have hlt : (rowAbove H policy leaves).size < leaves.size := by
        rw [size_rowAbove]
        omega
      exact .row hsize (leaves_build H policy _ hpos) (ih _ hlt _ hpos rfl)
    · rw [build_of_size_eq_one H policy leaves (by omega)]
      exact .root _

namespace Built

variable {levels : Levels D}

/-- What holds of the lowest row and is kept by the step to the row above holds of every row. -/
theorem row_induction {P : Nat → Array D → Prop} (h : levels.Built H policy) {k : Nat}
    (hleaves : P k levels.leaves)
    (hstep : ∀ k row, 1 < row.size → P k row → P (k + 1) (rowAbove H policy row)) {m : Nat}
    {row : Array D} (hrow : levels.toList[m]? = some row) : P (k + m) row := by
  induction h generalizing k m with
  | root digest =>
    cases m with
    | zero => simpa [toList] using (Option.some.inj hrow) ▸ hleaves
    | succ m => simp [toList] at hrow
  | @row digests upper hsize habove _ ih =>
    cases m with
    | zero =>
      obtain rfl : digests = row := Option.some.inj hrow
      exact hleaves
    | succ m =>
      have hnext : P (k + 1) upper.leaves := habove ▸ hstep k digests hsize hleaves
      have := ih hnext (by simpa [toList] using hrow)
      rwa [Nat.add_assoc, Nat.add_comm 1 m] at this

end Built

/-- Two trees with as many leaves, row beside row. -/
inductive Paired (H : Hasher D) (policy : OddPolicy) : Levels D → Levels D → Prop
  | root (digestA digestB : D) : Paired H policy (root digestA) (root digestB)
  | row {rowA rowB : Array D} {upperA upperB : Levels D} (hone : 1 < rowA.size)
      (hsize : rowA.size = rowB.size) (hA : upperA.leaves = rowAbove H policy rowA)
      (hB : upperB.leaves = rowAbove H policy rowB) (hupper : Paired H policy upperA upperB) :
      Paired H policy (row rowA upperA) (row rowB upperB)

theorem Built.paired {a b : Levels D} (ha : a.Built H policy) (hb : b.Built H policy)
    (hsize : a.leaves.size = b.leaves.size) : Paired H policy a b := by
  induction ha generalizing b with
  | root digest =>
    cases hb with
    | root digest' => exact .root _ _
    | row hone => exact absurd hsize (Nat.ne_of_lt hone)
  | @row rowA upperA hone hA _ ih =>
    cases hb with
    | root digest' => exact absurd hsize (Nat.ne_of_gt hone)
    | row _ hB hupper =>
      refine .row hone hsize hA hB (ih hupper ?_)
      rw [hA, hB, size_rowAbove, size_rowAbove]
      exact congrArg (fun n => (n + 1) / 2) hsize

theorem Paired.size_leaves_eq {a b : Levels D} (h : Paired H policy a b) :
    a.leaves.size = b.leaves.size := by
  cases h with
  | root => rfl
  | row _ hsize => exact hsize

theorem getElem?_toList_last (levels : Levels D) :
    levels.toList[levels.height - 1]? = some #[levels.top] := by
  induction levels with
  | root => rfl
  | row _ upper ih =>
    cases upper with
    | root => rfl
    | row => simpa [toList, height, top] using ih

end Levels

-- ---------------------------------------------------------------------------
-- Equal digests above, equal digests below
-- ---------------------------------------------------------------------------

theorem Call.eq_of_not_collide {a b : Call D} (hno : ¬ a.Collide H b)
    (hdigest : a.digest H = b.digest H) : a = b :=
  Classical.byContradiction fun hne => hno ⟨hne, hdigest⟩

theorem OddPolicy.above_inj {left left' right right' : Option D}
    (hleft : left = none ↔ left' = none) (hright : right = none ↔ right' = none)
    (hpair : left = none → right = none)
    (habove : policy.above H left right = policy.above H left' right')
    (hno : ∀ callA callB, policy.call? left right = some callA →
      policy.call? left' right' = some callB → ¬ callA.Collide H callB) :
    left = left' ∧ right = right' := by
  cases left with
  | none =>
    obtain rfl : left' = none := hleft.mp rfl
    obtain rfl : right = none := hpair rfl
    obtain rfl : right' = none := hright.mp rfl
    exact ⟨rfl, rfl⟩
  | some a =>
    obtain ⟨b, rfl⟩ : ∃ b, left' = some b := Option.ne_none_iff_exists'.mp (by simp [← hleft])
    cases right with
    | some a' =>
      obtain ⟨b', rfl⟩ : ∃ b', right' = some b' :=
        Option.ne_none_iff_exists'.mp (by simp [← hright])
      have hcall : Call.combine a a' = Call.combine b b' :=
        Call.eq_of_not_collide (hno _ _ (by cases policy <;> rfl) (by cases policy <;> rfl))
          (Option.some.inj habove)
      cases hcall
      exact ⟨rfl, rfl⟩
    | none =>
      obtain rfl : right' = none := hright.mp rfl
      cases policy with
      | promote => exact ⟨habove, rfl⟩
      | duplicate =>
        have hcall : Call.combine a a = Call.combine b b :=
          Call.eq_of_not_collide (hno _ _ rfl rfl) (Option.some.inj habove)
        cases hcall
        exact ⟨rfl, rfl⟩

section Rows

variable {rowA rowB : Array D} {i : Nat}

theorem getElem?_eq_none_iff_of_size_eq (hsize : rowA.size = rowB.size) (i : Nat) :
    rowA[i]? = none ↔ rowB[i]? = none := by
  rw [Array.getElem?_eq_none_iff, Array.getElem?_eq_none_iff, hsize]

theorem children_eq (hsize : rowA.size = rowB.size)
    (habove : (rowAbove H policy rowA)[i]? = (rowAbove H policy rowB)[i]?)
    (hno : ∀ callA callB, policy.call? rowA[2 * i]? rowA[2 * i + 1]? = some callA →
      policy.call? rowB[2 * i]? rowB[2 * i + 1]? = some callB → ¬ callA.Collide H callB) :
    rowA[2 * i]? = rowB[2 * i]? ∧ rowA[2 * i + 1]? = rowB[2 * i + 1]? := by
  rw [getElem?_rowAbove, getElem?_rowAbove] at habove
  refine OddPolicy.above_inj (getElem?_eq_none_iff_of_size_eq hsize _)
    (getElem?_eq_none_iff_of_size_eq hsize _) (fun hleft => ?_) habove hno
  rw [Array.getElem?_eq_none_iff] at hleft ⊢
  omega

theorem getElem?_eq_of_above (hsize : rowA.size = rowB.size)
    (habove : (rowAbove H policy rowA)[i / 2]? = (rowAbove H policy rowB)[i / 2]?)
    (hno : ∀ callA callB,
      policy.call? rowA[2 * (i / 2)]? rowA[2 * (i / 2) + 1]? = some callA →
      policy.call? rowB[2 * (i / 2)]? rowB[2 * (i / 2) + 1]? = some callB →
      ¬ callA.Collide H callB) :
    rowA[i]? = rowB[i]? := by
  obtain ⟨hleft, hright⟩ := children_eq hsize habove hno
  rcases Nat.mod_two_eq_zero_or_one i with heven | hodd
  · rwa [show 2 * (i / 2) = i by omega] at hleft
  · rwa [show 2 * (i / 2) + 1 = i by omega] at hright

end Rows

namespace Levels

variable {a b : Levels D}

theorem CollideAt.not_here {rowA rowB : Array D} {upperA upperB : Levels D}
    (hno : ∀ level i, ¬ CollideAt H policy (row rowA upperA) (row rowB upperB) level i) (i : Nat)
    (callA callB : Call D) (hA : policy.call? rowA[2 * i]? rowA[2 * i + 1]? = some callA)
    (hB : policy.call? rowB[2 * i]? rowB[2 * i + 1]? = some callB) : ¬ callA.Collide H callB :=
  fun h => hno 1 i (.here hA hB h)

theorem CollideAt.not_above {rowA rowB : Array D} {upperA upperB : Levels D}
    (hno : ∀ level i, ¬ CollideAt H policy (row rowA upperA) (row rowB upperB) level i)
    (level i : Nat) : ¬ CollideAt H policy upperA upperB level i :=
  fun h => hno (level + 1) i (.above h)

theorem CollideAt.exists_collide {level i : Nat} (h : CollideAt H policy a b level i) :
    ∃ callA callB : Call D, callA.Collide H callB := by
  induction h with
  | here _ _ h => exact ⟨_, _, h⟩
  | above _ ih => exact ih

theorem not_collideAt_term (policy : OddPolicy) (a b : Levels Term) (level i : Nat) :
    ¬ CollideAt Term.hasher policy a b level i := by
  intro h
  obtain ⟨callA, callB, hc⟩ := h.exists_collide
  exact Term.not_collide callA callB hc

/-- Two trees with as many leaves and the same root have the same leaves unless they collide. -/
theorem Paired.leaves_eq (h : Paired H policy a b) (htop : a.top = b.top)
    (hno : ∀ level i, ¬ CollideAt H policy a b level i) : a.leaves = b.leaves := by
  induction h with
  | root digestA digestB => exact congrArg (#[·]) htop
  | row hone hsize hA hB _ ih =>
    have hrows := ih htop (CollideAt.not_above hno)
    rw [hA, hB] at hrows
    refine Array.ext_getElem? fun i => ?_
    exact getElem?_eq_of_above hsize (congrArg (·[i / 2]?) hrows) (CollideAt.not_here hno _)

end Levels

end BlockTree
