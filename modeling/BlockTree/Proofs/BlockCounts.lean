import Mathlib
import BlockTree.Proofs.Command.Steps
import BlockTree.Proofs.Digits
import BlockTree.Proofs.Padding

/-!
# Trees over different numbers of blocks

Where odd digests move up unchanged, a root tells how many blocks it is over. Where they are
combined with themselves, it tells the padded blocks only, so a tree over more blocks has the same
root if the further ones repeat the tail. Roots are compared before anything else, and such trees
pass for equal.
-/

namespace BlockTree

/-- Whether two byte strings have the same blocks once they are padded, as combining odd digests
with themselves does. -/
def Shape.PadsAlike (shape : Shape) (a b : ByteArray) : Prop :=
  shape.oddPolicy = .duplicate ∧
    pad (blockList shape.blockSize a) = pad (blockList shape.blockSize b)

instance (shape : Shape) (a b : ByteArray) : Decidable (shape.PadsAlike a b) :=
  inferInstanceAs (Decidable (_ ∧ _))

variable {D : Type} {H : Hasher D}

namespace Tree

variable {shape : Shape} {data other : ByteArray} {t u : Tree D}

theorem rootTerm_eq_iff (hb : 0 < shape.blockSize) (hd : 0 < data.size) (ho : 0 < other.size)
    (hcount : BlockTree.blockCount data.size shape.blockSize ≠
      BlockTree.blockCount other.size shape.blockSize) :
    rootTerm shape data hb hd = rootTerm shape other hb ho ↔ shape.PadsAlike data other := by
  cases hpolicy : shape.oddPolicy with
  | promote =>
    constructor
    · intro hterms
      have hblocks := congrArg Term.blocks hterms
      rw [blocks_rootTerm_promote hpolicy, blocks_rootTerm_promote hpolicy] at hblocks
      have hlength := congrArg List.length hblocks
      rw [length_blockList, length_blockList] at hlength
      exact absurd hlength hcount
    · intro h
      exact absurd (hpolicy.symm.trans h.1) (by decide)
  | duplicate =>
    obtain ⟨⟨depth, hperfect⟩, hblocks⟩ := rootTerm_duplicate hpolicy hb hd
    obtain ⟨⟨depth', hperfect'⟩, hblocks'⟩ := rootTerm_duplicate hpolicy hb ho
    constructor
    · intro hterms
      refine ⟨hpolicy, ?_⟩
      rw [← hblocks, ← hblocks', hterms]
    · intro h
      refine hperfect.eq_of_blocks_eq hperfect' ?_
      rw [hblocks, hblocks', h.2]

theorem Remembers.root_eq_iff_padsAlike (ht : t.Remembers H data) (hu : u.Remembers H other)
    (hd : 0 < data.size) (ho : 0 < other.size) (hshapeT : t.shape = shape)
    (hshapeU : u.shape = shape) (hcount : t.blockCount ≠ u.blockCount)
    (hcalls : Unambiguous H (buildCalls H shape data ++ buildCalls H shape other)) :
    t.root = u.root ↔ shape.PadsAlike data other := by
  have hroot := ht.root_eq_iff hu hd ho (by rw [hshapeT, hshapeU]; exact hcalls)
  rw [ht.blockCount_eq, hu.blockCount_eq, hshapeT, hshapeU] at hcount
  simp only [hshapeT, hshapeU] at hroot
  exact hroot.trans (rootTerm_eq_iff _ hd ho hcount)

variable [DecidableEq D]

theorem compareWith_of_blockCount_ne (h : t.blockCount ≠ u.blockCount) :
    t.compareWith u = if t.root = u.root then .equal else .incomparable := by
  simp [compareWith, comparable, h]

theorem differingBlocks_of_blockCount_ne (h : t.blockCount ≠ u.blockCount) :
    t.differingBlocks u = if t.root = u.root then some [] else none := by
  simp [differingBlocks, comparable, h]

/-- What a comparison of two trees over different numbers of blocks says. -/
theorem build_of_blockCount_ne (H : Hasher D) (shape : Shape) (a b : Buffer)
    (hb : 0 < shape.blockSize) (hA : 0 < a.view.size) (hB : 0 < b.view.size)
    (hcount : BlockTree.blockCount a.view.size shape.blockSize ≠
      BlockTree.blockCount b.view.size shape.blockSize)
    (hcalls : Unambiguous H (buildCalls H shape a.view ++ buildCalls H shape b.view)) :
    ∃ t u, Tree.build H shape a = .ok t ∧ Tree.build H shape b = .ok u ∧
      (t.root = u.root ↔ shape.PadsAlike a.view b.view) ∧
      t.compareWith u = (if shape.PadsAlike a.view b.view then .equal else .incomparable) ∧
      t.differingBlocks u = if shape.PadsAlike a.view b.view then some [] else none := by
  obtain ⟨t, ht⟩ : ∃ t, Tree.build H shape a = .ok t := build_eq_ok H hb hA
  obtain ⟨u, hu⟩ : ∃ u, Tree.build H shape b = .ok u := build_eq_ok H hb hB
  obtain ⟨hshapeT, -, hremT⟩ := build_ok ht
  obtain ⟨hshapeU, -, hremU⟩ := build_ok hu
  have hne : t.blockCount ≠ u.blockCount := by
    rw [hremT.blockCount_eq, hremU.blockCount_eq, hshapeT, hshapeU]
    exact hcount
  have hroot := hremT.root_eq_iff_padsAlike hremU hA hB hshapeT hshapeU hne hcalls
  refine ⟨t, u, ht, hu, hroot, ?_, ?_⟩
  · simp only [compareWith_of_blockCount_ne hne, hroot]
  · simp only [differingBlocks_of_blockCount_ne hne, hroot]

end Tree

open Command

/-- Trees over different numbers of blocks, without a collision among the calls of their builds,
are told apart by their roots, by both comparisons and by the commands, unless their blocks are
padded alike; then they pass for equal everywhere. -/
theorem different_counts_told_apart [DecidableEq D] (H : Hasher D) {shape : Shape} {a b : Buffer}
    (hb : 0 < shape.blockSize) (hA : 0 < a.view.size) (hB : 0 < b.view.size)
    (hcount : blockCount a.view.size shape.blockSize ≠ blockCount b.view.size shape.blockSize) :
    (Unambiguous H (buildCalls H shape a.view ++ buildCalls H shape b.view) →
      ∃ t u, Tree.build H shape a = .ok t ∧ Tree.build H shape b = .ok u ∧
        (t.root = u.root ↔ shape.PadsAlike a.view b.view) ∧
        t.compareWith u = (if shape.PadsAlike a.view b.view then .equal else .incomparable) ∧
        t.differingBlocks u = if shape.PadsAlike a.view b.view then some [] else none) ∧
    ∀ (script : Script) (folder : Folder) (kind : HashKind) (first second : String),
      folder.read first = .ok a.view → folder.read second = .ok b.view →
      Unambiguous kind.algorithm.toHasher (buildCalls kind.algorithm.toHasher shape a.view ++
        buildCalls kind.algorithm.toHasher shape b.view) →
      ∃ t u, Tree.build kind.algorithm.toHasher shape (.ofBytes a.view) = .ok t ∧
        Tree.build kind.algorithm.toHasher shape (.ofBytes b.view) = .ok u ∧
        (∀ all, (Request.mk shape kind (.inspect (.diff first second all))).outcome script folder =
          if shape.PadsAlike a.view b.view then ⟨.ok 0, ["identical"], folder⟩
          else ⟨.ok 2, ["incomparable: " ++ toString t.blockCount ++ " blocks vs " ++
            toString u.blockCount ++ " blocks"], folder⟩) ∧
        ∀ digest, kind.algorithm.read (String.ofList (Text.trim digest.toList)) = .ok t.root →
          (Request.mk shape kind (.inspect (.verify second digest))).outcome script folder =
            if shape.PadsAlike a.view b.view then ⟨.ok 0, ["OK"], folder⟩
            else ⟨.ok 1, ["MISMATCH: " ++ kind.algorithm.toHex u.root], folder⟩ := by
  refine ⟨Tree.build_of_blockCount_ne H shape a b hb hA hB hcount, ?_⟩
  intro script folder kind first second hfirst hsecond hcalls
  have hpair := Tree.build_of_blockCount_ne kind.algorithm.toHasher shape (.ofBytes a.view)
    (.ofBytes b.view)
  simp only [Buffer.view_ofBytes] at hpair
  obtain ⟨t, u, ht, hu, hroot, hcompare, -⟩ := hpair hb hA hB hcount hcalls
  refine ⟨t, u, ht, hu, ?_, ?_⟩
  · intro all
    split at hcompare
    · next halike =>
      rw [if_pos halike]
      exact Request.outcome_of_perform hb
        (runDiff_run_of_equal script hfirst hsecond ht hu hcompare all)
    · next halike =>
      rw [if_neg halike]
      exact Request.outcome_of_perform hb
        (runDiff_run_of_incomparable script hfirst hsecond ht hu hcompare all)
  · intro digest hdigest
    by_cases halike : shape.PadsAlike a.view b.view
    · rw [if_pos halike]
      exact Request.outcome_of_perform hb
        ((runVerify_run script hdigest hsecond hu).trans (if_pos (hroot.mpr halike).symm))
    · rw [if_neg halike]
      exact Request.outcome_of_perform hb ((runVerify_run script hdigest hsecond hu).trans
        (if_neg fun heq => halike (hroot.mp heq.symm)))

/-- Three blocks, and the same three with the last one twice more: the first are padded to four
blocks and the others to eight. -/
theorem different_counts_told_apart_twice :
    ∃ t u, Tree.build HashKind.fnv64.algorithm.toHasher ⟨1, .duplicate⟩
        (.ofBytes [1, 2, 3].toByteArray) = .ok t ∧
      Tree.build HashKind.fnv64.algorithm.toHasher ⟨1, .duplicate⟩
        (.ofBytes [1, 2, 3, 3, 3].toByteArray) = .ok u ∧
      t.root ≠ u.root ∧ t.compareWith u = .incomparable ∧ t.differingBlocks u = none ∧
      ∃ folder, folder = ⟨[(["a"], .file [1, 2, 3].toByteArray),
          (["b"], .file [1, 2, 3, 3, 3].toByteArray)]⟩ ∧
        ((Request.mk ⟨1, .duplicate⟩ .fnv64 (.inspect (.diff "a" "b" true))).outcome .still
          folder).result = .ok 2 ∧
        ((Request.mk ⟨1, .duplicate⟩ .fnv64 (.inspect (.verify "b"
          (HashKind.fnv64.algorithm.toHex t.root)))).outcome .still folder).result = .ok 1 := by
  have hapart : ¬ Shape.PadsAlike ⟨1, .duplicate⟩ [1, 2, 3].toByteArray
      [1, 2, 3, 3, 3].toByteArray := by decide
  have hcalls : Unambiguous HashKind.fnv64.algorithm.toHasher
      (buildCalls HashKind.fnv64.algorithm.toHasher ⟨1, .duplicate⟩ [1, 2, 3].toByteArray ++
        buildCalls HashKind.fnv64.algorithm.toHasher ⟨1, .duplicate⟩
          [1, 2, 3, 3, 3].toByteArray) := by decide +kernel
  have htold := different_counts_told_apart HashKind.fnv64.algorithm.toHasher
    (a := .ofBytes [1, 2, 3].toByteArray) (b := .ofBytes [1, 2, 3, 3, 3].toByteArray)
    (show 0 < (⟨1, .duplicate⟩ : Shape).blockSize by decide) (by decide) (by decide) (by decide)
  simp only [Buffer.view_ofBytes, if_neg hapart] at htold
  obtain ⟨hcompared, hcommands⟩ := htold
  obtain ⟨t, u, ht, hu, hroot, hcompare, hblocks⟩ := hcompared hcalls
  obtain ⟨folder, hfolder⟩ : ∃ folder : Folder, folder = ⟨[(["a"], .file [1, 2, 3].toByteArray),
      (["b"], .file [1, 2, 3, 3, 3].toByteArray)]⟩ := ⟨_, rfl⟩
  obtain ⟨t', _, ht', -, hdiff, hverify⟩ := hcommands .still folder .fnv64 "a" "b"
    (by rw [hfolder]; cbv) (by rw [hfolder]; cbv) hcalls
  obtain rfl : t = t' := Except.ok.inj (ht.symm.trans ht')
  refine ⟨t, u, ht, hu, fun heq => hapart (hroot.mp heq), hcompare, hblocks, folder, hfolder,
    ?_, ?_⟩
  · rw [hdiff]
  · rw [hverify _ (HashKind.fnv64.writesHex.read_toHex t.root)]

/-- Three blocks, and the same three with the last one once more. The roots are equal though no
calls collide, so the trees pass for equal and the files for identical. -/
theorem repeated_tail_passes_for_identical :
    ∃ t u, Tree.build HashKind.fnv64.algorithm.toHasher ⟨1, .duplicate⟩
        (.ofBytes [1, 2, 3].toByteArray) = .ok t ∧
      Tree.build HashKind.fnv64.algorithm.toHasher ⟨1, .duplicate⟩
        (.ofBytes [1, 2, 3, 3].toByteArray) = .ok u ∧
      t.blockCount = 3 ∧ u.blockCount = 4 ∧
      Unambiguous HashKind.fnv64.algorithm.toHasher
        (buildCalls HashKind.fnv64.algorithm.toHasher ⟨1, .duplicate⟩ [1, 2, 3].toByteArray ++
          buildCalls HashKind.fnv64.algorithm.toHasher ⟨1, .duplicate⟩
            [1, 2, 3, 3].toByteArray) ∧
      t.root = u.root ∧ t.compareWith u = .equal ∧ t.differingBlocks u = some [] ∧
      ∃ folder, folder = ⟨[(["a"], .file [1, 2, 3].toByteArray),
          (["b"], .file [1, 2, 3, 3].toByteArray)]⟩ ∧
        (Request.mk ⟨1, .duplicate⟩ .fnv64 (.inspect (.diff "a" "b" false))).outcome .still
          folder = ⟨.ok 0, ["identical"], folder⟩ ∧
        (Request.mk ⟨1, .duplicate⟩ .fnv64 (.inspect (.verify "b"
          (HashKind.fnv64.algorithm.toHex t.root)))).outcome .still folder =
          ⟨.ok 0, ["OK"], folder⟩ := by
  obtain ⟨t, ht⟩ : ∃ t, Tree.build HashKind.fnv64.algorithm.toHasher ⟨1, .duplicate⟩
      (.ofBytes [1, 2, 3].toByteArray) = .ok t := Tree.build_eq_ok _ (by decide) (by decide)
  obtain ⟨u, hu⟩ : ∃ u, Tree.build HashKind.fnv64.algorithm.toHasher ⟨1, .duplicate⟩
      (.ofBytes [1, 2, 3, 3].toByteArray) = .ok u := Tree.build_eq_ok _ (by decide) (by decide)
  obtain ⟨hshapeT, -, hremT⟩ := Tree.build_ok ht
  obtain ⟨hshapeU, -, hremU⟩ := Tree.build_ok hu
  rw [Buffer.view_ofBytes] at hremT hremU
  have hcountT : t.blockCount = 3 := by
    rw [hremT.blockCount_eq, hshapeT]
    decide
  have hcountU : u.blockCount = 4 := by
    rw [hremU.blockCount_eq, hshapeU]
    decide
  have hcalls : Unambiguous HashKind.fnv64.algorithm.toHasher
      (buildCalls HashKind.fnv64.algorithm.toHasher ⟨1, .duplicate⟩ [1, 2, 3].toByteArray ++
        buildCalls HashKind.fnv64.algorithm.toHasher ⟨1, .duplicate⟩ [1, 2, 3, 3].toByteArray) := by
    decide +kernel
  have hne : t.blockCount ≠ u.blockCount := by
    rw [hcountT, hcountU]
    decide
  have hroot : t.root = u.root :=
    (hremT.root_eq_iff_padsAlike hremU (by decide) (by decide) hshapeT hshapeU hne hcalls).mpr
      (by decide)
  have hcompare : t.compareWith u = .equal := if_pos hroot
  obtain ⟨folder, hfolder⟩ : ∃ folder : Folder, folder = ⟨[(["a"], .file [1, 2, 3].toByteArray),
      (["b"], .file [1, 2, 3, 3].toByteArray)]⟩ := ⟨_, rfl⟩
  have hreadA : folder.read "a" = .ok [1, 2, 3].toByteArray := by
    rw [hfolder]
    cbv
  have hreadB : folder.read "b" = .ok [1, 2, 3, 3].toByteArray := by
    rw [hfolder]
    cbv
  refine ⟨t, u, ht, hu, hcountT, hcountU, hcalls, hroot, hcompare, if_pos hroot, folder, hfolder,
    ?_, ?_⟩
  · exact Request.outcome_of_perform (by decide)
      (runDiff_run_of_equal .still hreadA hreadB ht hu hcompare false)
  · have hdigest := HashKind.fnv64.writesHex.read_toHex t.root
    exact Request.outcome_of_perform (by decide)
      ((runVerify_run .still hdigest hreadB hu).trans (if_pos hroot.symm))

end BlockTree
