import BlockTree.Proofs.AuditPath
import BlockTree.Proofs.Binding

/-!
# The two ways to compare trees agree

The walk to the first difference keeps to the head of the list that the walk into all differences
finds: below a node that differs, the first child that differs is the one it takes
(`head?_filter_children`). Neither walk depends on which of the trees comes first. So what is said
of two files has one code and one first line.
-/

namespace BlockTree

variable {D : Type} {H : Hasher D} {policy : OddPolicy}

section Rows

variable [DecidableEq D] {rowA rowB : Array D}

/-- Of the children of nodes of which the first one differs, the first to differ is the left child
of that node or, if this is the same, the right one. -/
theorem head?_filter_children {i : Nat} {rest : List Nat} (hsize : rowA.size = rowB.size)
    (hne : (rowAbove H policy rowA)[i]? ≠ (rowAbove H policy rowB)[i]?) :
    (((i :: rest).flatMap fun i => [2 * i, 2 * i + 1]).filter fun c =>
        c < rowA.size ∧ rowA[c]? ≠ rowB[c]?).head? =
      some (if 2 * i + 1 < rowA.size ∧ rowA[2 * i]? = rowB[2 * i]? then 2 * i + 1
        else 2 * i) := by
  rw [List.flatMap_cons, List.cons_append, List.cons_append]
  by_cases hleft : rowA[2 * i]? = rowB[2 * i]?
  · -- A node that differs has a child that differs, so there is a right one and it does.
    have hright : rowA[2 * i + 1]? ≠ rowB[2 * i + 1]? := by
      obtain ⟨c, hc, hdiffer⟩ := exists_child_ne hne
      rcases (show c = 2 * i ∨ c = 2 * i + 1 by omega) with rfl | rfl
      · exact absurd hleft hdiffer
      · exact hdiffer
    have hlt := lt_size_of_getElem?_ne hsize hright
    rw [List.filter_cons_of_neg (by simp [hleft]),
      List.filter_cons_of_pos (by exact decide_eq_true ⟨hlt, hright⟩), List.head?_cons,
      if_pos ⟨hlt, hleft⟩]
  · have hlt := lt_size_of_getElem?_ne hsize hleft
    rw [List.filter_cons_of_pos (by exact decide_eq_true ⟨hlt, hleft⟩), List.head?_cons,
      if_neg fun h => hleft h.2]

end Rows

namespace Levels

variable [DecidableEq D] {a b : Levels D}

theorem Paired.head?_differences (h : Paired H policy a b) (htop : a.top ≠ b.top) :
    (differences a b).head? = some (firstDifference a b) := by
  induction h with
  | root => rfl
  | @row rowA rowB upperA upperB _ hsize hA hB hupper ih =>
    obtain ⟨rest, hrest⟩ := List.head?_eq_some_iff.mp (ih htop)
    have hne : upperA.leaves[firstDifference upperA upperB]? ≠
        upperB.leaves[firstDifference upperA upperB]? :=
      (hupper.ne_of_mem_differences htop (hrest ▸ List.mem_cons_self)).2
    rw [hA, hB] at hne
    unfold differences
    rw [hrest, head?_filter_children hsize hne]
    rfl

theorem Paired.firstDifference_comm (h : Paired H policy a b) :
    firstDifference a b = firstDifference b a := by
  induction h with
  | root => rfl
  | row _ hsize _ _ _ ih => simp only [firstDifference, ih, hsize, eq_comm]

theorem Paired.differences_comm (h : Paired H policy a b) :
    differences a b = differences b a := by
  induction h with
  | root => rfl
  | row _ hsize _ _ _ ih => simp only [differences, ih, hsize, ne_comm]

end Levels

namespace Tree

variable {a b : Tree D} {dataA dataB : ByteArray}

theorem comparable_comm (a b : Tree D) : a.comparable b = b.comparable a := by
  rw [Bool.eq_iff_iff, comparable_iff, comparable_iff, @eq_comm _ a.shape,
    @eq_comm _ a.blockCount]

theorem Reached.paired_of_comparable (ha : a.Reached H dataA) (hb : b.Reached H dataB)
    (h : a.comparable b = true) : Levels.Paired H a.shape.oddPolicy a.levels b.levels :=
  ha.paired hb (comparable_iff.mp h).1 (comparable_iff.mp h).2

variable [DecidableEq D]

theorem Reached.compareWith_comm (ha : a.Reached H dataA) (hb : b.Reached H dataB) :
    a.compareWith b = b.compareWith a := by
  unfold compareWith
  by_cases hroot : a.root = b.root
  · rw [if_pos hroot, if_pos hroot.symm]
  · rw [if_neg hroot, if_neg (Ne.symm hroot), comparable_comm b a]
    cases h : a.comparable b with
    | false => rfl
    | true => rw [(ha.paired_of_comparable hb h).firstDifference_comm, (comparable_iff.mp h).1]

theorem Reached.differingBlocks_comm (ha : a.Reached H dataA) (hb : b.Reached H dataB) :
    a.differingBlocks b = b.differingBlocks a := by
  unfold differingBlocks
  by_cases hroot : a.root = b.root
  · rw [if_pos hroot, if_pos hroot.symm]
  · rw [if_neg hroot, if_neg (Ne.symm hroot), comparable_comm b a]
    cases h : a.comparable b with
    | false => rfl
    | true => rw [(ha.paired_of_comparable hb h).differences_comm]

theorem Reached.differingBlocks_eq (ha : a.Reached H dataA) (hb : b.Reached H dataB) :
    match a.compareWith b with
    | .equal => a.differingBlocks b = some []
    | .incomparable => a.differingBlocks b = none
    | .differsAt offset => ∃ k rest, a.differingBlocks b = some (k :: rest) ∧
        offset = k * a.shape.blockSize := by
  unfold compareWith differingBlocks
  by_cases hroot : a.root = b.root
  · simp [hroot]
  · cases h : a.comparable b with
    | false => simp [hroot]
    | true =>
      obtain ⟨rest, hrest⟩ := List.head?_eq_some_iff.mp
        ((ha.paired_of_comparable hb h).head?_differences hroot)
      simp [hroot, hrest]

theorem Reached.compareWith_iff (ha : a.Reached H dataA) (hb : b.Reached H dataB) :
    (a.compareWith b = .equal ↔ a.differingBlocks b = some []) ∧
    (a.compareWith b = .incomparable ↔ a.differingBlocks b = none) ∧
    ∀ offset, a.compareWith b = .differsAt offset ↔
      ∃ k rest, a.differingBlocks b = some (k :: rest) ∧ offset = k * a.shape.blockSize := by
  have hfound := ha.differingBlocks_eq hb
  cases hcompare : a.compareWith b with
  | equal =>
    rw [hcompare] at hfound
    simp [hfound]
  | incomparable =>
    rw [hcompare] at hfound
    simp [hfound]
  | differsAt offset =>
    rw [hcompare] at hfound
    obtain ⟨k, rest, hfound, rfl⟩ := hfound
    simp [hfound, eq_comm]

theorem Reached.leaf?_ne_of_mem (ha : a.Reached H dataA) (hb : b.Reached H dataB) {found : List Nat}
    (hfound : a.differingBlocks b = some found) {k : Nat} (hk : k ∈ found) :
    (∃ x y, a.leaf? k = some x ∧ b.leaf? k = some y ∧ x ≠ y) ∧
      k * a.shape.blockSize < a.size ∧ k * a.shape.blockSize < b.size := by
  unfold differingBlocks at hfound
  split at hfound
  · cases Option.some.inj hfound
    cases hk
  · next hroot =>
    split at hfound
    · next hcomparable =>
      cases Option.some.inj hfound
      obtain ⟨hshape, hcount⟩ := comparable_iff.mp hcomparable
      obtain ⟨hlt, hne⟩ := (ha.paired hb hshape hcount).ne_of_mem_differences hroot hk
      refine ⟨exists_ne_of_getElem?_ne hcount hne, ha.remembers.start_lt_size hlt, ?_⟩
      rw [hshape]
      exact hb.remembers.start_lt_size (Nat.lt_of_lt_of_eq hlt hcount)
    · cases hfound

theorem blockCount_ne_of_incomparable (hshape : a.shape = b.shape)
    (h : a.compareWith b = .incomparable) : a.blockCount ≠ b.blockCount := by
  intro hcount
  have hcomparable : a.comparable b = true := comparable_iff.mpr ⟨hshape, hcount⟩
  unfold compareWith at h
  rw [hcomparable] at h
  split at h <;> cases h

def headline (a b : Tree D) : String :=
  match a.compareWith b with
  | .equal => "identical"
  | .differsAt offset => toString offset
  | .incomparable =>
    "incomparable: " ++ toString a.blockCount ++ " blocks vs " ++ toString b.blockCount ++ " blocks"

end Tree

def Comparison.code : Comparison → Nat
  | .equal => 0
  | .differsAt _ => 1
  | .incomparable => 2

namespace Command

theorem not_prefix_toString (n : Nat) : ¬ "incomparable".toList <+: (toString n).toList := by
  intro hstart
  have hmem : 'i' ∈ Nat.toDigits 10 n := by
    simpa [Nat.repr] using hstart.subset (show 'i' ∈ "incomparable".toList by decide)
  exact absurd (Nat.isDigit_of_mem_toDigits (by decide) (by decide) hmem) (by decide)

section

variable [DecidableEq D] {t u : Tree D}

theorem incomparable_of_prefix {line : String} {rest : List String}
    (hrest : ∀ line ∈ rest, ∃ n : Nat, line = toString n) (hline : line ∈ t.headline u :: rest)
    (hstart : "incomparable".toList <+: line.toList) :
    t.compareWith u = .incomparable ∧
      line = "incomparable: " ++ toString t.blockCount ++ " blocks vs " ++
        toString u.blockCount ++ " blocks" := by
  rcases List.mem_cons.mp hline with rfl | hnumber
  · unfold Tree.headline at hstart ⊢
    cases hcompare : t.compareWith u with
    | equal =>
      rw [hcompare] at hstart
      exact absurd hstart (show ¬ "incomparable".toList <+: "identical".toList by decide)
    | differsAt offset =>
      rw [hcompare] at hstart
      exact absurd hstart (not_prefix_toString offset)
    | incomparable => exact ⟨rfl, rfl⟩
  · obtain ⟨n, rfl⟩ := hrest line hnumber
    exact absurd hstart (not_prefix_toString n)

end

def diffOutcome (script : Script) (folder : Folder) (shape : Shape) (kind : HashKind)
    (first second : String) (all : Bool) : Outcome :=
  (Request.mk shape kind (.inspect (.diff first second all))).outcome script folder

/-- A comparison of two files starts with the line about their trees; numbers may follow. -/
theorem diffOutcome_eq {script : Script} {folder : Folder} {shape : Shape} {kind : HashKind}
    {first second : String} {dataA dataB : ByteArray} {t u : Tree kind.Digest}
    (hb : 0 < shape.blockSize) (hfirst : folder.read first = .ok dataA)
    (hsecond : folder.read second = .ok dataB)
    (ht : Tree.build kind.algorithm.toHasher shape (.ofBytes dataA) = .ok t)
    (hu : Tree.build kind.algorithm.toHasher shape (.ofBytes dataB) = .ok u) (all : Bool) :
    ∃ rest, diffOutcome script folder shape kind first second all =
        ⟨.ok (t.compareWith u).code, t.headline u :: rest, folder⟩ ∧
      (all = false → rest = []) ∧ ∀ line ∈ rest, ∃ n : Nat, line = toString n := by
  have hfound := (Tree.Reached.build ht).differingBlocks_eq (.build hu)
  obtain ⟨rfl, -, -⟩ := Tree.build_ok ht
  unfold Tree.headline
  cases hcompare : t.compareWith u with
  | equal =>
    exact ⟨[], Request.outcome_of_perform hb
      (runDiff_run_of_equal script hfirst hsecond ht hu hcompare all), fun _ => rfl, nofun⟩
  | incomparable =>
    exact ⟨[], Request.outcome_of_perform hb
      (runDiff_run_of_incomparable script hfirst hsecond ht hu hcompare all), fun _ => rfl, nofun⟩
  | differsAt offset =>
    rw [hcompare] at hfound
    obtain ⟨k, rest, hfound, rfl⟩ := hfound
    cases all with
    | false =>
      exact ⟨[], Request.outcome_of_perform hb
        (runDiff_run_of_differsAt script hfirst hsecond ht hu hcompare hfound false),
        fun _ => rfl, nofun⟩
    | true =>
      refine ⟨rest.map fun block => toString (block * t.shape.blockSize),
        Request.outcome_of_perform hb
          (runDiff_run_of_differsAt script hfirst hsecond ht hu hcompare hfound true), nofun, ?_⟩
      intro line hline
      obtain ⟨block, -, rfl⟩ := List.mem_map.mp hline
      exact ⟨_, rfl⟩

end Command

open Command

/-- Both comparisons of two trees, in whatever state they are, come to the same: the first block
that differs heads the list of all that do, its digest differs, and it starts within both trees.
Neither depends on the order of the trees. Two files are compared with one code and one first line,
whether all differences are listed or not, with one code in either order, and they are called
incomparable only if they have different numbers of blocks. -/
theorem comparisons_agree :
    (∀ {D : Type} [DecidableEq D] (H : Hasher D) (a b : Tree D) (dataA dataB : ByteArray),
      a.Reached H dataA → b.Reached H dataB →
      (a.compareWith b = .equal ↔ a.differingBlocks b = some []) ∧
      (a.compareWith b = .incomparable ↔ a.differingBlocks b = none) ∧
      (∀ offset, a.compareWith b = .differsAt offset ↔
        ∃ k rest, a.differingBlocks b = some (k :: rest) ∧ offset = k * a.shape.blockSize) ∧
      (∀ k rest, a.differingBlocks b = some (k :: rest) →
        (∃ x y, a.leaf? k = some x ∧ b.leaf? k = some y ∧ x ≠ y) ∧
          k * a.shape.blockSize < a.size ∧ k * a.shape.blockSize < b.size) ∧
      a.compareWith b = b.compareWith a ∧ a.differingBlocks b = b.differingBlocks a) ∧
    (∀ (script : Script) (folder : Folder) (shape : Shape) (kind : HashKind)
      (first second : String) (dataA dataB : ByteArray), folder.read first = .ok dataA →
      folder.read second = .ok dataB → 0 < dataA.size → 0 < dataB.size → ∃ result headline,
        (0 < shape.blockSize → ∃ code line, result = .ok code ∧ headline = some line) ∧
        ∀ all,
          (diffOutcome script folder shape kind first second all).result = result ∧
          (diffOutcome script folder shape kind second first all).result = result ∧
          (diffOutcome script folder shape kind first second all).lines.head? = headline ∧
          (diffOutcome script folder shape kind first second false).lines = headline.toList ∧
          ∀ line ∈ (diffOutcome script folder shape kind first second all).lines,
            "incomparable".toList <+: line.toList →
            blockCount dataA.size shape.blockSize ≠ blockCount dataB.size shape.blockSize ∧
              line = "incomparable: " ++ toString (blockCount dataA.size shape.blockSize) ++
                " blocks vs " ++ toString (blockCount dataB.size shape.blockSize) ++
                " blocks") := by
  refine ⟨?_, ?_⟩
  · intro D _ H a b dataA dataB ha hb
    obtain ⟨hequal, hincomparable, hdiffers⟩ := ha.compareWith_iff hb
    exact ⟨hequal, hincomparable, hdiffers,
      fun k rest h => ha.leaf?_ne_of_mem hb h List.mem_cons_self, ha.compareWith_comm hb,
      ha.differingBlocks_comm hb⟩
  · intro script folder shape kind first second dataA dataB hfirst hsecond hA hB
    by_cases hb : 0 < shape.blockSize
    · obtain ⟨t, ht, -⟩ :=
        Tree.exists_build_ofBytes kind.algorithm.toHasher shape dataA hb hA
      obtain ⟨u, hu, -⟩ :=
        Tree.exists_build_ofBytes kind.algorithm.toHasher shape dataB hb hB
      refine ⟨.ok (t.compareWith u).code, some (t.headline u), fun _ => ⟨_, _, rfl, rfl⟩,
        fun all => ?_⟩
      obtain ⟨rest, hrun, -, hrest⟩ := diffOutcome_eq hb hfirst hsecond ht hu all
      obtain ⟨_, hswapped, -⟩ := diffOutcome_eq hb hsecond hfirst hu ht all
      obtain ⟨_, hsingle, hnone, -⟩ := diffOutcome_eq hb hfirst hsecond ht hu false
      rw [hrun, hswapped, hsingle, hnone rfl]
      refine ⟨rfl, ?_, rfl, rfl, fun line hline hstart => ?_⟩
      · exact congrArg (Except.ok ·.code) ((Tree.Reached.build hu).compareWith_comm (.build ht))
      · obtain ⟨hincomparable, rfl⟩ := incomparable_of_prefix hrest hline hstart
        obtain ⟨hshapeT, -, hremT⟩ := Tree.build_ok ht
        obtain ⟨hshapeU, -, hremU⟩ := Tree.build_ok hu
        rw [Buffer.view_ofBytes] at hremT hremU
        have hcount := Tree.blockCount_ne_of_incomparable (hshapeT.trans hshapeU.symm) hincomparable
        rw [hremT.blockCount_eq, hremU.blockCount_eq, hshapeT, hshapeU] at hcount ⊢
        exact ⟨hcount, rfl⟩
    · have hzero : shape.blockSize = 0 := Nat.eq_zero_of_not_pos hb
      refine ⟨.error (.error .invalidBlockSize), none, fun h => absurd h hb, fun all => ?_⟩
      simp [diffOutcome, Request.outcome_of_blockSize_eq_zero hzero]

/-- Two trees of three blocks over five and six bytes, the first of which was written to since its
build, and two files with these bytes. -/
theorem comparisons_agree_stale :
    ∃ a₀ a b, Tree.build Fnv.algorithm.toHasher ⟨2, .duplicate⟩
        (.ofBytes [1, 2, 3, 4, 5].toByteArray) = .ok a₀ ∧
      a = a₀.after Fnv.algorithm.toHasher (.write 0 [9].toByteArray) ∧
      Tree.build Fnv.algorithm.toHasher ⟨2, .duplicate⟩
        (.ofBytes [1, 2, 0, 4, 5, 6].toByteArray) = .ok b ∧
      a.differingBlocks b = some [1, 2] ∧ b.differingBlocks a = some [1, 2] ∧
      a.compareWith b = .differsAt 2 ∧ b.compareWith a = .differsAt 2 ∧
      ∃ folder, folder = ⟨[(["a"], .file [1, 2, 3, 4, 5].toByteArray),
          (["b"], .file [1, 2, 0, 4, 5, 6].toByteArray)]⟩ ∧
        ∃ code line,
          (diffOutcome .still folder ⟨2, .duplicate⟩ .fnv64 "a" "b" true).result = .ok code ∧
          (diffOutcome .still folder ⟨2, .duplicate⟩ .fnv64 "b" "a" false).result = .ok code ∧
          (diffOutcome .still folder ⟨2, .duplicate⟩ .fnv64 "a" "b" true).lines.head? = some line ∧
          (diffOutcome .still folder ⟨2, .duplicate⟩ .fnv64 "a" "b" false).lines = [line] := by
  obtain ⟨a₀, a, ha₀, ha, hshapeA, hreachedA⟩ := Tree.exists_reached_after Fnv.algorithm.toHasher
    ⟨2, .duplicate⟩ (.ofBytes [1, 2, 3, 4, 5].toByteArray) (by decide) (by decide)
    (.write 0 [9].toByteArray)
  replace hreachedA : a.Reached Fnv.algorithm.toHasher [1, 2, 3, 4, 5].toByteArray := hreachedA
  obtain ⟨b, hb⟩ : ∃ b, Tree.build Fnv.algorithm.toHasher ⟨2, .duplicate⟩
      (.ofBytes [1, 2, 0, 4, 5, 6].toByteArray) = .ok b :=
    Tree.build_eq_ok _ (by decide) (by decide)
  have hshapeB : b.shape = ⟨2, .duplicate⟩ := (Tree.build_ok hb).1
  have hreachedB : b.Reached Fnv.algorithm.toHasher [1, 2, 0, 4, 5, 6].toByteArray := .build hb
  have hlevelsA := hreachedA.remembers.levels_eq hshapeA (by decide) (by decide)
  have hlevelsB := hreachedB.remembers.levels_eq hshapeB (by decide) (by decide)
  have hfound : a.differingBlocks b = some [1, 2] := by
    simp only [Tree.differingBlocks, Tree.root, Tree.comparable, Tree.blockCount, hlevelsA,
      hlevelsB, hshapeA, hshapeB]
    decide +kernel
  obtain ⟨-, -, hdiffers, -, hcompare, hblocks⟩ :=
    comparisons_agree.1 _ a b _ _ hreachedA hreachedB
  have hfirst : a.compareWith b = .differsAt 2 :=
    (hdiffers 2).mpr ⟨1, [2], hfound, by simp [hshapeA]⟩
  obtain ⟨folder, hfolder⟩ : ∃ folder : Folder, folder =
      ⟨[(["a"], .file [1, 2, 3, 4, 5].toByteArray),
        (["b"], .file [1, 2, 0, 4, 5, 6].toByteArray)]⟩ := ⟨_, rfl⟩
  obtain ⟨result, headline, hcode, hlines⟩ := comparisons_agree.2 .still folder ⟨2, .duplicate⟩
    .fnv64 "a" "b" [1, 2, 3, 4, 5].toByteArray [1, 2, 0, 4, 5, 6].toByteArray
    (by rw [hfolder]; cbv) (by rw [hfolder]; cbv) (by decide) (by decide)
  obtain ⟨code, line, rfl, rfl⟩ := hcode (by decide)
  exact ⟨a₀, a, b, ha₀, ha, hb, hfound, hblocks ▸ hfound, hfirst, hcompare ▸ hfirst, folder,
    hfolder, code, line, (hlines true).1, (hlines false).2.1, (hlines true).2.2.1,
    (hlines true).2.2.2.1⟩

end BlockTree
