import Mathlib
import BlockTree.Proofs.Command.Steps

/-!
# Audit paths lead to the root

Folding the step of a row over the digest of a node gives the digest of its parent: `foldl_rowStep`.
Row after row the fold stays on the way up, so a whole path ends in the root, and the command that
prints a path always ends with it. Two byte strings fold to one root only if their ways come
together: at the leaf, or at a step that leads from two different digests to the same. So the path
of a block refuses all other bytes unless it finds a collision.
-/

namespace BlockTree

variable {D : Type} {H : Hasher D} {policy : OddPolicy}

section RowStep

variable {row : Array D} {i : Nat} {d sibling : D}

theorem rowStep_odd (hodd : i % 2 = 1) (hsibling : row[i - 1]? = some sibling) :
    rowStep policy row i = [.left sibling] := by
  simp [rowStep, siblingIndex, hodd, hsibling]

theorem rowStep_even (heven : i % 2 = 0) (hsibling : row[i + 1]? = some sibling) :
    rowStep policy row i = [.right sibling] := by
  simp [rowStep, siblingIndex, heven, hsibling]

theorem rowStep_last (heven : i % 2 = 0) (hd : row[i]? = some d) (hlast : row[i + 1]? = none) :
    rowStep policy row i = match policy with
      | .promote => []
      | .duplicate => [.right d] := by
  cases policy <;> simp [rowStep, siblingIndex, heven, hd, hlast]

theorem foldl_rowStep (hd : row[i]? = some d) :
    (rowAbove H policy row)[i / 2]? =
      some ((rowStep policy row i).foldl (PathStep.apply H) d) := by
  rw [getElem?_rowAbove]
  rcases Nat.mod_two_eq_zero_or_one i with heven | hodd
  · rw [show 2 * (i / 2) = i by omega, hd]
    cases hsibling : row[i + 1]? with
    | some sibling =>
      rw [rowStep_even heven hsibling]
      rfl
    | none =>
      rw [rowStep_last heven hd hsibling]
      cases policy <;> rfl
  · -- A node on the right always has the sibling on its left.
    have hlt : i < row.size := (Array.getElem?_eq_some_iff.mp hd).1
    obtain ⟨sibling, hsibling⟩ : ∃ sibling, row[i - 1]? = some sibling :=
      ⟨_, Array.getElem?_eq_getElem (by omega)⟩
    rw [show 2 * (i / 2) = i - 1 by omega, show i - 1 + 1 = i by omega, hd, hsibling,
      rowStep_odd hodd hsibling]
    rfl

end RowStep

namespace Levels

variable {levels : Levels D}

theorem Built.foldl_pathSteps (h : levels.Built H policy) {i : Nat} {d : D}
    (hd : levels.leaves[i]? = some d) :
    (levels.pathSteps policy i).foldl (PathStep.apply H) d = levels.top := by
  induction h generalizing i d with
  | root digest =>
    obtain ⟨hlt, rfl⟩ := Array.getElem?_eq_some_iff.mp hd
    obtain rfl : i = 0 := Nat.lt_one_iff.mp hlt
    rfl
  | @row digests upper _ habove _ ih =>
    rw [pathSteps, List.foldl_append]
    exact ih (habove ▸ foldl_rowStep hd)

end Levels

namespace Tree

variable {t : Tree D} {data : ByteArray}

theorem Remembers.root_path (h : t.Remembers H data) {i : Nat} (hi : i < t.blockCount)
    {path : AuditPath D} (hpath : t.path i = .ok path) :
    path.block = i ∧ path.root H (blockBytes t.shape.blockSize data i) = t.root := by
  rw [Tree.path, if_pos hi] at hpath
  obtain rfl := Except.ok.inj hpath
  exact ⟨rfl, h.built.foldl_pathSteps (h.leaf?_eq hi)⟩

theorem path_eq_ok {i : Nat} (hi : i < t.blockCount) :
    t.path i = .ok ⟨i, t.levels.pathSteps t.shape.oddPolicy i⟩ :=
  if_pos hi

theorem path_ok {i : Nat} {path : AuditPath D} (h : t.path i = .ok path) :
    i < t.blockCount ∧ path = ⟨i, t.levels.pathSteps t.shape.oddPolicy i⟩ := by
  unfold Tree.path at h
  split at h
  · next hi => exact ⟨hi, (Except.ok.inj h).symm⟩
  · cases h

end Tree

-- ---------------------------------------------------------------------------
-- Honest paths are accepted
-- ---------------------------------------------------------------------------

open Command

/-- Every tree over some bytes can be built. In each state that it comes to, each of its blocks
has a path, which leads from the bytes of the block at the latest build or rehash to the root and
is accepted. The command that prints a path ends with the root and the code zero. -/
theorem honest_path_accepted :
    (∀ {D : Type} (H : Hasher D) (shape : Shape) (buffer : Buffer), 0 < shape.blockSize →
      0 < buffer.view.size → ∃ t, Tree.build H shape buffer = .ok t) ∧
    (∀ {D : Type} [DecidableEq D] (H : Hasher D) (t : Tree D) (data : ByteArray),
      t.Reached H data → ∀ i < t.blockCount, ∃ path, t.path i = .ok path ∧ path.block = i ∧
        path.root H (blockBytes t.shape.blockSize data i) = t.root ∧
        path.verify H (blockBytes t.shape.blockSize data i) t.root = true) ∧
    (∀ (script : Script) (folder : Folder) (shape : Shape) (kind : HashKind) (file : String)
      (block : Nat) (data : ByteArray), 0 < shape.blockSize → folder.read file = .ok data →
      0 < data.size → block < blockCount data.size shape.blockSize →
      ∃ t path, Tree.build kind.algorithm.toHasher shape (.ofBytes data) = .ok t ∧
        t.path block = .ok path ∧
        (Request.mk shape kind (.inspect (.proof file block))).outcome script folder =
          ⟨.ok 0, path.steps.map (stepLine kind.algorithm) ++
            ["root " ++ kind.algorithm.toHex t.root], folder⟩) := by
  refine ⟨fun H shape buffer hb hd => Tree.build_eq_ok H hb hd, ?_, ?_⟩
  · intro D _ H t data ht i hi
    have hpath := Tree.path_eq_ok hi
    obtain ⟨hblock, hroot⟩ := ht.remembers.root_path hi hpath
    exact ⟨_, hpath, hblock, hroot, decide_eq_true hroot⟩
  · intro script folder shape kind file block data hb hread hd hblock
    obtain ⟨t, ht, -⟩ := Tree.exists_build_ofBytes kind.algorithm.toHasher shape data hb hd
    obtain ⟨rfl, -, hrem⟩ := Tree.build_ofBytes_ok ht
    have hi : block < t.blockCount := hrem.blockCount_eq ▸ hblock
    have hpath := Tree.path_eq_ok hi
    have hverify := decide_eq_true (hrem.root_path hi hpath).2
    refine ⟨t, _, ht, hpath, Request.outcome_of_perform hb ?_⟩
    refine (runProof_run script hread ht hpath (block?_of_build ht hi)).trans ?_
    rw [AuditPath.verify, hverify, if_pos rfl]

/-- The last of three blocks, which is combined with itself, in a tree whose first block was
overwritten and then hidden since its build. -/
theorem honest_path_accepted_stale :
    ∃ t₀ t, Tree.build Fnv.algorithm.toHasher ⟨2, .duplicate⟩
        (.ofBytes [1, 2, 3, 4, 5].toByteArray) = .ok t₀ ∧
      t = t₀.run Fnv.algorithm.toHasher [.write 0 [9].toByteArray, .resize 1] ∧
      (∃ path, t.path 2 = .ok path ∧
        path.verify Fnv.algorithm.toHasher [5].toByteArray t.root = true) ∧
      ((Request.mk ⟨2, .duplicate⟩ .fnv64 (.inspect (.proof "f" 2))).outcome .still
        ⟨[(["f"], .file [1, 2, 3, 4, 5].toByteArray)]⟩).result = .ok 0 := by
  obtain ⟨t₀, ht₀⟩ := honest_path_accepted.1 Fnv.algorithm.toHasher ⟨2, .duplicate⟩
    (.ofBytes [1, 2, 3, 4, 5].toByteArray) (by decide) (by decide)
  obtain ⟨t, ht⟩ : ∃ t, t = t₀.run Fnv.algorithm.toHasher [.write 0 [9].toByteArray, .resize 1] :=
    ⟨_, rfl⟩
  have hreached : t.Reached Fnv.algorithm.toHasher [1, 2, 3, 4, 5].toByteArray :=
    ht ▸ ((Tree.Reached.build ht₀).edit (.write 0 [9].toByteArray)).edit (.resize 1)
  have hshape : t.shape = ⟨2, .duplicate⟩ := by
    rw [ht, (t₀.run_keeps _ _).2, (Tree.build_ok ht₀).1]
  have hcount : 2 < t.blockCount := by
    rw [hreached.remembers.blockCount_eq, hshape]
    decide
  have hbytes : blockBytes t.shape.blockSize [1, 2, 3, 4, 5].toByteArray 2 = [5].toByteArray := by
    rw [hshape]
    decide
  obtain ⟨path, hpath, -, -, hverify⟩ := honest_path_accepted.2.1 _ _ _ hreached 2 hcount
  rw [hbytes] at hverify
  obtain ⟨_, _, _, _, hrun⟩ := honest_path_accepted.2.2 .still
    ⟨[(["f"], .file [1, 2, 3, 4, 5].toByteArray)]⟩ ⟨2, .duplicate⟩ .fnv64 "f" 2
    [1, 2, 3, 4, 5].toByteArray (by decide) (by cbv) (by decide) (by decide)
  exact ⟨t₀, t, ht₀, ht, ⟨path, hpath, hverify⟩, by rw [hrun]⟩

-- ---------------------------------------------------------------------------
-- Other bytes under the path of a block
-- ---------------------------------------------------------------------------

/-- Steps that lead from two different digests to the same one have a step that does. -/
theorem exists_step_of_foldl_eq {steps : List (PathStep D)} {x y : D} (hne : x ≠ y)
    (h : steps.foldl (PathStep.apply H) x = steps.foldl (PathStep.apply H) y) :
    ∃ k step, steps[k]? = some step ∧
      (steps.take k).foldl (PathStep.apply H) x ≠ (steps.take k).foldl (PathStep.apply H) y ∧
      step.apply H ((steps.take k).foldl (PathStep.apply H) x) =
        step.apply H ((steps.take k).foldl (PathStep.apply H) y) := by
  induction steps generalizing x y with
  | nil => exact absurd h hne
  | cons step rest ih =>
    by_cases hstep : step.apply H x = step.apply H y
    · exact ⟨0, step, rfl, hne, hstep⟩
    · obtain ⟨k, later, hlater, hbefore, hafter⟩ := ih hstep h
      exact ⟨k + 1, later, hlater, hbefore, hafter⟩

namespace AuditPath

variable {path : AuditPath D} {a b : ByteArray}

theorem leaf_eq_or_collideAt (h : path.root H a = path.root H b) :
    H.leaf a = H.leaf b ∨ ∃ k, path.CollideAt H a b k := by
  by_cases hleaf : H.leaf a = H.leaf b
  · exact .inl hleaf
  · obtain ⟨k, step, hstep, hbefore, hafter⟩ := exists_step_of_foldl_eq hleaf h
    exact .inr ⟨k, step, hstep, hbefore, hafter⟩

theorem not_collideAt_term (path : AuditPath Term) (a b : ByteArray) (k : Nat) :
    ¬ path.CollideAt Term.hasher a b k := by
  rintro ⟨step, -, hne, hmeet⟩
  cases step with
  | left => exact hne (Term.combine.inj hmeet).2
  | right => exact hne (Term.combine.inj hmeet).1

end AuditPath

namespace Tree

variable [DecidableEq D] {t : Tree D} {content : ByteArray} {i : Nat}

/-- The path of a block accepts other bytes than those of the latest build or rehash only if their
digest is the leaf of the block or a step of the path leads from two different digests to the
same. So without such a collision it accepts the present bytes of the block just if these have not
changed. -/
theorem own_path_rejects_other (h : t.Reached H content) (hi : i < t.blockCount) :
    ∃ path, t.path i = .ok path ∧
      (∀ data, path.verify H data t.root = true →
        data ≠ blockBytes t.shape.blockSize content i →
        t.leaf? i = some (H.leaf data) ∨
          ∃ k, path.CollideAt H data (blockBytes t.shape.blockSize content i) k) ∧
      ∀ present, t.block? i = .ok (some present) →
        (t.leaf? i = some (H.leaf present) → present = blockBytes t.shape.blockSize content i) →
        (∀ k, ¬ path.CollideAt H present (blockBytes t.shape.blockSize content i) k) →
        (path.verify H present t.root = true ↔
          present = blockBytes t.shape.blockSize content i) := by
  have hrem := h.remembers
  obtain ⟨path, hpath⟩ : ∃ path, t.path i = .ok path := ⟨_, path_eq_ok hi⟩
  obtain ⟨-, hroot⟩ := hrem.root_path hi hpath
  have hmeet : ∀ data, path.verify H data t.root = true →
      t.leaf? i = some (H.leaf data) ∨
        ∃ k, path.CollideAt H data (blockBytes t.shape.blockSize content i) k := by
    intro data hverify
    have hsame : path.root H data = t.root := of_decide_eq_true hverify
    rcases AuditPath.leaf_eq_or_collideAt (hsame.trans hroot.symm) with hleaf | hcollide
    · exact .inl (hleaf ▸ hrem.leaf?_eq hi)
    · exact .inr hcollide
  refine ⟨path, hpath, fun data hverify _ => hmeet data hverify, ?_⟩
  intro present _ hleaf hnone
  constructor
  · intro hverify
    rcases hmeet present hverify with hsame | ⟨k, hk⟩
    · exact hleaf hsame
    · exact absurd hk (hnone k)
  · rintro rfl
    exact decide_eq_true hroot

/-- The first of three blocks, of which a byte was overwritten, and the last one, which is as it
was at the build. -/
theorem own_path_rejects_other_written :
    ∃ t₀ t, Tree.build Term.hasher ⟨2, .duplicate⟩
        (.ofBytes [1, 2, 3, 4, 5].toByteArray) = .ok t₀ ∧
      t = t₀.after Term.hasher (.write 0 [9].toByteArray) ∧
      (∃ path, t.path 0 = .ok path ∧ t.block? 0 = .ok (some [9, 2].toByteArray) ∧
        path.verify Term.hasher [9, 2].toByteArray t.root = false) ∧
      ∃ path, t.path 2 = .ok path ∧ t.block? 2 = .ok (some [5].toByteArray) ∧
        path.verify Term.hasher [5].toByteArray t.root = true := by
  obtain ⟨t₀, t, ht₀, ht, hshape, hreached⟩ := exists_reached_after Term.hasher ⟨2, .duplicate⟩
    (.ofBytes [1, 2, 3, 4, 5].toByteArray) (by decide) (by decide) (.write 0 [9].toByteArray)
  replace hreached : t.Reached Term.hasher [1, 2, 3, 4, 5].toByteArray := hreached
  have hrem := hreached.remembers
  have hcount : t.blockCount = 3 := by
    rw [hrem.blockCount_eq, hshape]
    decide
  have hsize : t.size = 5 := hrem.choose_spec.1.symm
  have hbuffer : t.buffer = ⟨[9, 2, 3, 4, 5].toByteArray, 5, by decide⟩ := by
    obtain ⟨-, hbuffer₀, hsize₀, hsame, -⟩ := build_ok ht₀
    obtain ⟨_, hwrite⟩ : ∃ h, t₀.write 0 [9].toByteArray =
        .ok { t₀ with buffer := t₀.buffer.splice 0 [9].toByteArray h } :=
      write_eq_ok (by rw [← hsame, hbuffer₀]; decide) (by rw [← hsame]; decide)
    rw [ht, Tree.after, Edit.apply, hwrite]
    simp only [hbuffer₀]
    congr 1
  have hbytes : t.buffer.bytes.extract 0 5 = [9, 2, 3, 4, 5].toByteArray :=
    (congrArg (fun buffer : Buffer => buffer.bytes.extract 0 5) hbuffer).trans (by decide)
  have hblock : ∀ i < 3, t.block? i = .ok (some (blockBytes 2 [9, 2, 3, 4, 5].toByteArray i)) := by
    intro i hi
    have hvisible : t.size ≤ t.buffer.visible :=
      Nat.le_of_eq (hsize.trans (congrArg Buffer.visible hbuffer).symm)
    have hpresent := block?_eq hvisible (hcount ▸ hi) (hrem.start_lt_size (hcount ▸ hi))
    rw [hshape, hsize, hbytes] at hpresent
    exact hpresent
  -- No two terms collide, so each path tells whether its block has changed.
  have hpath : ∀ i < 3, ∃ path, t.path i = .ok path ∧
      (path.verify Term.hasher (blockBytes 2 [9, 2, 3, 4, 5].toByteArray i) t.root = true ↔
        blockBytes 2 [9, 2, 3, 4, 5].toByteArray i =
          blockBytes 2 [1, 2, 3, 4, 5].toByteArray i) := by
    intro i hi
    obtain ⟨path, hpath, -, hiff⟩ := own_path_rejects_other hreached (hcount ▸ hi)
    rw [hshape] at hiff
    refine ⟨path, hpath, hiff _ (hblock i hi) ?_ (path.not_collideAt_term _ _)⟩
    rw [hrem.leaf?_eq (hcount ▸ hi), hshape]
    exact fun hleaf => (Term.leaf.inj (Option.some.inj hleaf)).symm
  obtain ⟨first, hfirst, hchanged⟩ := hpath 0 (by decide)
  obtain ⟨last, hlast, hsame⟩ := hpath 2 (by decide)
  refine ⟨t₀, t, ht₀, ht, ⟨first, hfirst, hblock 0 (by decide), ?_⟩,
    last, hlast, hblock 2 (by decide), ?_⟩
  · exact Bool.eq_false_iff.mpr fun hverify => absurd (hchanged.mp hverify) (by decide)
  · exact hsame.mpr (by decide)

end Tree

end BlockTree
