import Mathlib
import BlockTree.Proofs.Forgery
import BlockTree.Proofs.Locality

/-!
# The shape of audit paths

Taken from the root down, the sides of steps that lead to the root go back to the node that the
steps start from: `Levels.Leads.descend_eq`. So what an accepted path proves about its bytes it
proves about the block to which its sides lead; the number that the path carries takes no part. The
way up from block `i` comes through node `i >>> k` of row `k`, and each row but the last has one
step, save those in which the node moves up unchanged. On which sides the steps stand follows from
the numbers alone: `Levels.Built.map_side_pathSteps`.
-/

namespace BlockTree

variable {D : Type} {H : Hasher D} {policy : OddPolicy} {i k : Nat}

-- ---------------------------------------------------------------------------
-- The sides of a path tell the block
-- ---------------------------------------------------------------------------

theorem RowLeads.stepDown_eq {row : Array D} {i : Nat} {here : List (PathStep D)}
    (h : RowLeads policy row i here) (hi : i < row.size) (below : List Side) :
    stepDown policy row.size (i / 2) ((here.map PathStep.side).reverse ++ below) =
      some (i, below) := by
  rcases Nat.mod_two_eq_zero_or_one i with heven | hodd
  · have htwice : 2 * (i / 2) = i := by omega
    unfold stepDown
    rw [htwice]
    cases hnext : row[i + 1]? with
    | some sibling =>
      rw [if_pos (Array.getElem?_eq_some_iff.mp hnext).1]
      cases h with
      | own =>
        rw [rowStep_even heven hnext]
        simp [PathStep.side, Side.child, htwice]
      | turned _ _ halone => simp [siblingIndex, heven, hnext] at halone
    | none =>
      rw [if_neg (Nat.not_lt.mpr (Array.getElem?_eq_none_iff.mp hnext))]
      cases h with
      | own =>
        rw [rowStep_last heven (Array.getElem?_eq_getElem hi) hnext]
        cases policy <;> rfl
      | turned hpolicy =>
        rw [hpolicy]
        rfl
  · have htwice : 2 * (i / 2) + 1 = i := by omega
    have hsibling := Array.getElem?_eq_getElem (show i - 1 < row.size by omega)
    unfold stepDown
    rw [htwice, if_pos hi]
    cases h with
    | own =>
      rw [rowStep_odd hodd hsibling]
      simp [PathStep.side, Side.child, htwice]
    | turned _ _ halone => simp [siblingIndex, hodd, hsibling] at halone

namespace Levels

variable {levels : Levels D} {steps : List (PathStep D)}

theorem Leads.descend_eq (hbuilt : levels.Built H policy) (h : levels.Leads policy i steps)
    (hi : i < levels.leaves.size) (below : List Side) :
    descend policy levels.leaves.size ((steps.map PathStep.side).reverse ++ below) =
      some (i, below) := by
  induction h generalizing below with
  | root =>
    rw [descend]
    exact if_neg (Nat.lt_irrefl 1)
  | @row digests upper i here above hhere _ ih =>
    cases hbuilt with
    | row hsize hleaves hupper =>
      replace hi : i < digests.size := hi
      have hupperSize : upper.leaves.size = (digests.size + 1) / 2 := by
        rw [hleaves, size_rowAbove]
      have hparent : i / 2 < upper.leaves.size := by omega
      have habove := ih hupper hparent ((here.map PathStep.side).reverse ++ below)
      rw [hupperSize] at habove
      simp only [leaves]
      rw [descend, if_pos hsize, List.map_append, List.reverse_append, List.append_assoc, habove]
      exact hhere.stepDown_eq hi below

theorem Leads.ledTo?_eq (hbuilt : levels.Built H policy) (h : levels.Leads policy i steps)
    (hi : i < levels.leaves.size) :
    ledTo? policy levels.leaves.size (steps.map PathStep.side) = some i := by
  have hdescend := h.descend_eq hbuilt hi []
  rw [List.append_nil] at hdescend
  rw [ledTo?, hdescend]

end Levels

namespace Tree

variable [DecidableEq D] {t : Tree D} {content data : ByteArray} {path : AuditPath D}

/-- Bytes for which a path is accepted are those of the block to which its sides lead, which is
the block of its number if the sides are those of that block's path. Paths that differ in the
number alone are accepted alike. -/
theorem directions_authenticate_block (h : t.Reached H content)
    (hcalls : Unambiguous H (buildCalls H t.shape content ++ path.calls H data))
    (hverify : path.verify H data t.root = true) :
    (∃ i < t.blockCount,
      ledTo? t.shape.oddPolicy t.blockCount (path.steps.map PathStep.side) = some i ∧
      data = blockBytes t.shape.blockSize content i) ∧
    (∀ own, t.path path.block = .ok own →
      path.steps.map PathStep.side = own.steps.map PathStep.side →
      data = blockBytes t.shape.blockSize content path.block) ∧
    ∀ block, (AuditPath.mk block path.steps).verify H data t.root = true := by
  have hrem := h.remembers
  obtain ⟨i, hi, hdata, hleads⟩ := hrem.leads_of_verify hcalls hverify
  have hled := hleads.ledTo?_eq hrem.built hi
  refine ⟨⟨i, hi, hled, hdata⟩, ?_, fun _ => hverify⟩
  intro own hown hsides
  obtain ⟨hblock, rfl⟩ := path_ok hown
  have hledOwn := (hrem.built.leads_pathSteps hblock).ledTo?_eq hrem.built hblock
  rw [hsides] at hled
  obtain rfl : i = path.block := Option.some.inj (hled.symm.trans hledOwn)
  exact hdata

/-- The last of three blocks, its own digest on the right of it, in a tree whose first block was
overwritten since its build. -/
theorem directions_authenticate_block_last :
    ∃ t₀ t, Tree.build Term.hasher ⟨2, .duplicate⟩
        (.ofBytes [1, 2, 3, 4, 5].toByteArray) = .ok t₀ ∧
      t = t₀.after Term.hasher (.write 0 [9].toByteArray) ∧
      ∃ path : AuditPath Term, path = ⟨2, [.right (.leaf [5].toByteArray),
          .left (.combine (.leaf [1, 2].toByteArray) (.leaf [3, 4].toByteArray))]⟩ ∧
        (∃ own, t.path 2 = .ok own ∧
          path.steps.map PathStep.side = own.steps.map PathStep.side) ∧
        [5].toByteArray = blockBytes 2 [1, 2, 3, 4, 5].toByteArray 2 ∧
        (AuditPath.mk 0 path.steps).verify Term.hasher [5].toByteArray t.root = true := by
  obtain ⟨t₀, t, ht₀, ht, hshape, hreached⟩ := exists_reached_after Term.hasher ⟨2, .duplicate⟩
    (.ofBytes [1, 2, 3, 4, 5].toByteArray) (by decide) (by decide) (.write 0 [9].toByteArray)
  replace hreached : t.Reached Term.hasher [1, 2, 3, 4, 5].toByteArray := hreached
  have hlevels := hreached.remembers.levels_eq hshape (by decide) (by decide)
  obtain ⟨path, hpath⟩ : ∃ path : AuditPath Term, path = ⟨2, [.right (.leaf [5].toByteArray),
      .left (.combine (.leaf [1, 2].toByteArray) (.leaf [3, 4].toByteArray))]⟩ := ⟨_, rfl⟩
  have hown : t.path 2 = .ok ⟨2, t.levels.pathSteps t.shape.oddPolicy 2⟩ := by
    refine path_eq_ok ?_
    rw [Tree.blockCount, hlevels]
    decide +kernel
  have hsides : path.steps.map PathStep.side =
      (t.levels.pathSteps t.shape.oddPolicy 2).map PathStep.side := by
    rw [hpath, hlevels, hshape]
    decide +kernel
  have hverify : path.verify Term.hasher [5].toByteArray t.root = true := by
    rw [hpath, Tree.root, hlevels]
    decide +kernel
  obtain ⟨-, hblock, hnumber⟩ := directions_authenticate_block hreached
    (Term.unambiguous _) hverify
  rw [hpath, hshape] at hblock
  refine ⟨t₀, t, ht₀, ht, path, hpath, ⟨_, hown, hsides⟩, ?_, hnumber 0⟩
  exact hblock _ hown (hpath ▸ hsides)

/-- The path of the first of two blocks is accepted under any number, though no calls collide. -/
theorem path_number_unbound :
    ∃ t, Tree.build Fnv.algorithm.toHasher ⟨1, .promote⟩ (.ofBytes [1, 2].toByteArray) = .ok t ∧
      t.blockCount = 2 ∧
      ∃ steps, Unambiguous Fnv.algorithm.toHasher
          (buildCalls Fnv.algorithm.toHasher t.shape [1, 2].toByteArray ++
            (AuditPath.mk 1 steps).calls Fnv.algorithm.toHasher [1].toByteArray) ∧
        (AuditPath.mk 1 steps).verify Fnv.algorithm.toHasher [1].toByteArray t.root = true ∧
        (AuditPath.mk 7 steps).verify Fnv.algorithm.toHasher [1].toByteArray t.root = true ∧
        [1].toByteArray ≠ blockBytes 1 [1, 2].toByteArray 1 := by
  obtain ⟨t, ht⟩ : ∃ t, Tree.build Fnv.algorithm.toHasher ⟨1, .promote⟩
      (.ofBytes [1, 2].toByteArray) = .ok t := build_eq_ok _ (by decide) (by decide)
  obtain ⟨hshape, -, hrem⟩ := build_ok ht
  rw [Buffer.view_ofBytes] at hrem
  have hlevels := hrem.levels_eq hshape (by decide) (by decide)
  refine ⟨t, ht, ?_, [.right (Fnv.leaf [2].toByteArray)], ?_, ?_, ?_, by decide⟩
  · rw [hrem.blockCount_eq, hshape]
    decide
  · rw [hshape]
    decide +kernel
  · rw [Tree.root, hlevels]
    decide +kernel
  · rw [Tree.root, hlevels]
    decide +kernel

end Tree

-- ---------------------------------------------------------------------------
-- The steps row by row
-- ---------------------------------------------------------------------------

def Levels.stepsAt (policy : OddPolicy) (levels : Levels D) (i k : Nat) : List (PathStep D) :=
  match levels.toList[k]? with
  | some digests => rowStep policy digests (i >>> k)
  | none => []

theorem Levels.pathSteps_eq_flatMap (policy : OddPolicy) (levels : Levels D) (i : Nat) :
    levels.pathSteps policy i =
      (List.range (levels.height - 1)).flatMap (levels.stepsAt policy i) := by
  induction levels generalizing i with
  | root => rfl
  | row digests upper ih =>
    have hupper : ∀ k, (row digests upper).stepsAt policy i (k + 1) =
        upper.stepsAt policy (i / 2) k := fun k => by
      simp only [stepsAt, toList, List.getElem?_cons_succ, Nat.shiftRight_succ_inside]
    have hheight : (row digests upper).height - 1 = upper.height - 1 + 1 :=
      upper.height_sub_one_add_one.symm
    rw [hheight, List.range_succ_eq_map, List.flatMap_cons, List.flatMap_map, pathSteps, ih]
    simp only [Nat.succ_eq_add_one, hupper]
    rfl

theorem Levels.Built.shiftRight_lt_size {levels : Levels D} {row : Array D}
    (h : levels.Built H policy) (hi : i < levels.leaves.size)
    (hrow : levels.toList[k]? = some row) : i >>> k < row.size := by
  have := h.row_induction (P := fun k row => i >>> k < row.size) (k := 0) hi (fun k row _ hk => by
    rw [size_rowAbove, Nat.shiftRight_succ]
    omega) hrow
  rwa [Nat.zero_add] at this

-- ---------------------------------------------------------------------------
-- Sides
-- ---------------------------------------------------------------------------

theorem map_side_rowStep {row : Array D} (hi : i < row.size) :
    (rowStep policy row i).map PathStep.side =
      if i % 2 = 1 then [.left]
      else if i + 1 < row.size then [.right]
      else match policy with
        | .promote => []
        | .duplicate => [.right] := by
  rcases Nat.mod_two_eq_zero_or_one i with heven | hodd
  · by_cases hnext : i + 1 < row.size
    · simp [rowStep_even heven (Array.getElem?_eq_getElem hnext), heven, hnext, PathStep.side]
    · rw [rowStep_last heven (Array.getElem?_eq_getElem hi) (Array.getElem?_eq_none (by omega))]
      cases policy <;> simp [heven, hnext, PathStep.side]
  · have hbefore : i - 1 < row.size := by omega
    simp [rowStep_odd hodd (Array.getElem?_eq_getElem hbefore), hodd, PathStep.side]

theorem Levels.Built.map_side_pathSteps {levels : Levels D} (h : levels.Built H policy)
    (hi : i < levels.leaves.size) :
    (levels.pathSteps policy i).map PathStep.side = sides policy levels.leaves.size i := by
  induction h generalizing i with
  | root =>
    unfold sides
    exact (if_neg (Nat.lt_irrefl 1)).symm
  | @row digests upper hsize habove _ ih =>
    replace hi : i < digests.size := hi
    have hparent : i / 2 < upper.leaves.size := by
      rw [habove, size_rowAbove]
      omega
    have hrest := ih hparent
    rw [habove, size_rowAbove] at hrest
    unfold sides
    rw [if_pos (show 1 < (Levels.row digests upper).leaves.size from hsize), pathSteps,
      List.map_append]
    exact congrArg₂ (· ++ ·) (map_side_rowStep hi) hrest

-- ---------------------------------------------------------------------------
-- Numbers of steps
-- ---------------------------------------------------------------------------

theorem length_flatMap_add_countP {α : Type} {f : Nat → List α} {p : Nat → Bool} {n : Nat}
    (h : ∀ k < n, (f k).length = if p k then 0 else 1) :
    ((List.range n).flatMap f).length + (List.range n).countP p = n := by
  induction n with
  | zero => rfl
  | succ n ih =>
    have hlast := h n (Nat.lt_succ_self n)
    have hrest := ih fun k hk => h k (Nat.lt_succ_of_lt hk)
    simp only [List.range_succ, List.flatMap_append, List.flatMap_singleton, List.length_append,
      List.countP_append, List.countP_singleton]
    split at hlast <;> simp_all <;> omega

namespace Tree

/-- Whether the node in row `k` on the way up from block `i` is the last one and has no partner. -/
def standsAlone (t : Tree D) (i k : Nat) : Bool :=
  (i >>> k) % 2 = 0 && (t.node? k (i >>> k + 1)).isNone

variable {t : Tree D} {content : ByteArray}

/-- The steps of a row: the sibling of the node, on its side; for a node without one nothing, or
itself on the right. -/
theorem Remembers.stepsAt_cases (h : t.Remembers H content) (hi : i < t.blockCount)
    (hk : k < t.height) :
    ((i >>> k) % 2 = 1 ∧ ∃ d, t.node? k (i >>> k - 1) = some d ∧
      t.levels.stepsAt t.shape.oddPolicy i k = [.left d]) ∨
    ((i >>> k) % 2 = 0 ∧ ∃ d, t.node? k (i >>> k + 1) = some d ∧
      t.levels.stepsAt t.shape.oddPolicy i k = [.right d]) ∨
    ((i >>> k) % 2 = 0 ∧ t.node? k (i >>> k + 1) = none ∧ ∃ d, t.node? k (i >>> k) = some d ∧
      t.levels.stepsAt t.shape.oddPolicy i k =
        match t.shape.oddPolicy with
        | .promote => []
        | .duplicate => [.right d]) := by
  obtain ⟨row, hrow⟩ := t.exists_row? hk
  have hlt : i >>> k < row.size := h.built.shiftRight_lt_size hi hrow
  have hsteps : t.levels.stepsAt t.shape.oddPolicy i k =
      rowStep t.shape.oddPolicy row (i >>> k) := by
    unfold Levels.stepsAt
    rw [show t.levels.toList[k]? = some row from hrow]
  simp only [node?_eq_of_row? hrow, hsteps]
  generalize i >>> k = m at hlt
  rcases Nat.mod_two_eq_zero_or_one m with heven | hodd
  · cases hnext : row[m + 1]? with
    | some d => exact .inr (.inl ⟨heven, d, rfl, rowStep_even heven hnext⟩)
    | none =>
      have hd := Array.getElem?_eq_getElem hlt
      exact .inr (.inr ⟨heven, rfl, _, hd, rowStep_last heven hd hnext⟩)
  · have hbefore : m - 1 < row.size := by omega
    have hd := Array.getElem?_eq_getElem hbefore
    exact .inl ⟨hodd, _, hd, rowStep_odd hodd hd⟩

theorem Remembers.length_stepsAt (h : t.Remembers H content) (hi : i < t.blockCount)
    (hk : k < t.height) :
    (t.levels.stepsAt t.shape.oddPolicy i k).length =
      if t.shape.oddPolicy = .promote ∧ t.standsAlone i k = true then 0 else 1 := by
  unfold standsAlone
  rcases h.stepsAt_cases hi hk with
    ⟨hodd, d, -, hsteps⟩ | ⟨heven, d, hd, hsteps⟩ | ⟨heven, hnone, d, -, hsteps⟩
  · simp [hsteps, hodd]
  · simp [hsteps, hd]
  · rw [hsteps]
    cases t.shape.oddPolicy <;> simp [heven, hnone]

theorem Remembers.ledTo?_sides (h : t.Remembers H content) (hi : i < t.blockCount) :
    ledTo? t.shape.oddPolicy t.blockCount (sides t.shape.oddPolicy t.blockCount i) = some i := by
  have hled := (h.built.leads_pathSteps hi).ledTo?_eq h.built hi
  rwa [h.built.map_side_pathSteps hi] at hled

/-- The path of a block has in each row below the root the sibling of the node on its way up: on the
left of a node with an odd number, on the right of one with an even number. A last node without a
sibling is its own one or has no step, as the policy says, and so paths have a step for each row
but those in which the node moves up unchanged. On which sides the steps stand follows from the
number of the block, the number of blocks and the policy alone, and tells the block. -/
theorem path_shape (h : t.Reached H content) (hi : i < t.blockCount) :
    ∃ path, t.path i = .ok path ∧
      (∃ stepsAt : ℕ → List (PathStep D),
        path.steps = (List.range (t.height - 1)).flatMap stepsAt ∧
        ∀ k < t.height - 1,
          ((i >>> k) % 2 = 1 → ∃ d, t.node? k (i >>> k - 1) = some d ∧ stepsAt k = [.left d]) ∧
          ((i >>> k) % 2 = 0 → ∀ d, t.node? k (i >>> k + 1) = some d → stepsAt k = [.right d]) ∧
          ((i >>> k) % 2 = 0 → t.node? k (i >>> k + 1) = none →
            ∃ d, t.node? k (i >>> k) = some d ∧
              stepsAt k = match t.shape.oddPolicy with
                | .promote => []
                | .duplicate => [.right d])) ∧
      (t.shape.oddPolicy = .duplicate → path.steps.length = t.height - 1) ∧
      (t.shape.oddPolicy = .promote →
        path.steps.length = t.height - 1 - (List.range (t.height - 1)).countP (t.standsAlone i)) ∧
      path.steps.map PathStep.side = sides t.shape.oddPolicy t.blockCount i ∧
      ledTo? t.shape.oddPolicy t.blockCount (path.steps.map PathStep.side) = some i ∧
      ∀ other own, t.path other = .ok own →
        own.steps.map PathStep.side = path.steps.map PathStep.side → other = i := by
  have hrem := h.remembers
  have hsteps : t.levels.pathSteps t.shape.oddPolicy i =
      (List.range (t.height - 1)).flatMap (t.levels.stepsAt t.shape.oddPolicy i) :=
    t.levels.pathSteps_eq_flatMap _ i
  have hsides := hrem.built.map_side_pathSteps hi
  have hled := hrem.ledTo?_sides hi
  have hbelow : ∀ k < t.height - 1, k < t.height := fun k hk =>
    Nat.lt_of_lt_of_le hk (Nat.sub_le _ 1)
  refine ⟨_, path_eq_ok hi, ⟨_, hsteps, fun k hk => ?_⟩, fun hpolicy => ?_, fun hpolicy => ?_,
    hsides, ?_, ?_⟩
  · rcases hrem.stepsAt_cases hi (hbelow k hk) with
      ⟨hodd, hleft⟩ | ⟨heven, d, hd, hright⟩ | ⟨heven, hnone, hlast⟩
    · exact ⟨fun _ => hleft, fun heven => by omega, fun heven => by omega⟩
    · refine ⟨fun hodd => by omega, fun _ d' hd' => ?_, fun _ hnone => ?_⟩
      · obtain rfl := Option.some.inj (hd.symm.trans hd')
        exact hright
      · cases hd.symm.trans hnone
    · refine ⟨fun hodd => by omega, fun _ d hd => ?_, fun _ _ => hlast⟩
      cases hnone.symm.trans hd
  · have hcount := length_flatMap_add_countP (p := fun _ => false) fun k hk =>
      (hrem.length_stepsAt hi (hbelow k hk)).trans (by simp [hpolicy])
    simpa only [hsteps, List.countP_false, Function.const_apply, Nat.add_zero] using hcount
  · have hcount := length_flatMap_add_countP (p := t.standsAlone i) fun k hk =>
      (hrem.length_stepsAt hi (hbelow k hk)).trans (by simp [hpolicy])
    simp only [hsteps]
    omega
  · exact (congrArg _ hsides).trans hled
  · intro other own hown hsame
    obtain ⟨hother, rfl⟩ := path_ok hown
    have hsidesOther := (hrem.built.map_side_pathSteps hother).symm.trans (hsame.trans hsides)
    have hledOther := hrem.ledTo?_sides hother
    exact Option.some.inj (hledOther.symm.trans ((congrArg _ hsidesOther).trans hled))

/-- The last of five blocks, which stands alone in the two lowest rows, in a tree whose first block
was overwritten since its build: where it moves up unchanged its path has one step, and else
three. -/
theorem path_shape_last :
    ∃ t₀ t u₀ u, Tree.build Fnv.algorithm.toHasher ⟨1, .promote⟩
        (.ofBytes [1, 2, 3, 4, 5].toByteArray) = .ok t₀ ∧
      t = t₀.after Fnv.algorithm.toHasher (.write 0 [9].toByteArray) ∧
      Tree.build Fnv.algorithm.toHasher ⟨1, .duplicate⟩
        (.ofBytes [1, 2, 3, 4, 5].toByteArray) = .ok u₀ ∧
      u = u₀.after Fnv.algorithm.toHasher (.write 0 [9].toByteArray) ∧
      ∃ path path', t.path 4 = .ok path ∧ path.steps.map PathStep.side = [.left] ∧
        u.path 4 = .ok path' ∧ path'.steps.map PathStep.side = [.right, .right, .left] ∧
        path'.steps.length = u.height - 1 ∧
        ∀ other own, t.path other = .ok own →
          own.steps.map PathStep.side = [.left] → other = 4 := by
  obtain ⟨t₀, t, ht₀, ht, hshape, hreached⟩ := exists_reached_after Fnv.algorithm.toHasher
    ⟨1, .promote⟩ (.ofBytes [1, 2, 3, 4, 5].toByteArray) (by decide) (by decide)
    (.write 0 [9].toByteArray)
  obtain ⟨u₀, u, hu₀, hu, hshape', hreached'⟩ := exists_reached_after Fnv.algorithm.toHasher
    ⟨1, .duplicate⟩ (.ofBytes [1, 2, 3, 4, 5].toByteArray) (by decide) (by decide)
    (.write 0 [9].toByteArray)
  replace hreached : t.Reached Fnv.algorithm.toHasher [1, 2, 3, 4, 5].toByteArray := hreached
  replace hreached' : u.Reached Fnv.algorithm.toHasher [1, 2, 3, 4, 5].toByteArray := hreached'
  have hcount : t.blockCount = 5 := by
    rw [hreached.remembers.blockCount_eq, hshape]
    decide
  have hcount' : u.blockCount = 5 := by
    rw [hreached'.remembers.blockCount_eq, hshape']
    decide
  obtain ⟨path, hpath, -, -, -, hsides, -, honly⟩ := path_shape hreached (i := 4) (by omega)
  obtain ⟨path', hpath', -, hlength, -, hsides', -⟩ := path_shape hreached' (i := 4) (by omega)
  rw [hshape, hcount] at hsides
  rw [hshape', hcount'] at hsides'
  have hleft : path.steps.map PathStep.side = [.left] := hsides.trans (by decide +kernel)
  refine ⟨t₀, t, u₀, u, ht₀, ht, hu₀, hu, path, path', hpath, hleft, hpath',
    hsides'.trans (by decide +kernel), hlength (by rw [hshape']), fun other own hown hsame => ?_⟩
  exact honly other own hown (hsame.trans hleft.symm)

end Tree

end BlockTree
