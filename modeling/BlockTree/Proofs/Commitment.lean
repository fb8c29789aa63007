import BlockTree.Hasher.Kind
import BlockTree.Proofs.Binding

/-!
# A root commits to the list of blocks

Building the rows of a tree over terms instead of digests keeps what each digest was made of. The
root of the terms has the root as its digest and only calls of the build as its calls, so where the
calls of two builds do not collide, the roots agree just if the roots of the terms do:
`Tree.root_eq_iff`. Where an odd last digest moves up unchanged, each row of terms has the same
bytes at its leaves, one block after the other, and whoever knows the term of a root knows the
blocks.
-/

namespace BlockTree

variable {D : Type} {H : Hasher D} {policy : OddPolicy} {calls : List (Call D)}

-- ---------------------------------------------------------------------------
-- A row of terms
-- ---------------------------------------------------------------------------

theorem OddPolicy.above_map_digest (policy : OddPolicy) (left right : Option Term) :
    policy.above H (left.map (Term.digest H)) (right.map (Term.digest H)) =
      (policy.above Term.hasher left right).map (Term.digest H) := by
  cases left <;> cases right <;> cases policy <;> rfl

theorem rowAbove_map_digest (terms : Array Term) :
    rowAbove H policy (terms.map (Term.digest H)) =
      (rowAbove Term.hasher policy terms).map (Term.digest H) := by
  refine Array.ext_getElem? fun i => ?_
  simp only [getElem?_rowAbove, Array.getElem?_map, OddPolicy.above_map_digest]

theorem calls_combine_subset {left right : Term} (hleft : left.calls H ⊆ calls)
    (hright : right.calls H ⊆ calls)
    (hcall : .combine (left.digest H) (right.digest H) ∈ calls) :
    (Term.combine left right).calls H ⊆ calls := by
  simp only [Term.calls, List.cons_subset, List.append_subset]
  exact ⟨hcall, hleft, hright⟩

theorem calls_rowAbove {terms : Array Term} (hterms : ∀ x ∈ terms, x.calls H ⊆ calls)
    (hrow : rowCalls policy (terms.map (Term.digest H)) ⊆ calls) :
    ∀ x ∈ rowAbove Term.hasher policy terms, x.calls H ⊆ calls := by
  intro x hx
  obtain ⟨i, hi⟩ := Array.mem_iff_getElem?.mp hx
  have hcall := @mem_rowCalls D policy (terms.map (Term.digest H)) i
  rw [Array.getElem?_map, Array.getElem?_map] at hcall
  rw [getElem?_rowAbove] at hi
  cases hl : terms[2 * i]? with
  | none =>
    rw [hl] at hi
    cases hi
  | some left =>
    have hleft := hterms left (Array.mem_of_getElem? hl)
    cases hr : terms[2 * i + 1]? with
    | some right =>
      have hright := hterms right (Array.mem_of_getElem? hr)
      rw [hl, hr] at hi hcall
      obtain rfl : Term.combine left right = x := Option.some.inj hi
      exact calls_combine_subset hleft hright (hrow (hcall (by cases policy <;> rfl)))
    | none =>
      rw [hl, hr] at hi hcall
      cases policy with
      | promote =>
        obtain rfl : left = x := Option.some.inj hi
        exact hleft
      | duplicate =>
        obtain rfl : Term.combine left left = x := Option.some.inj hi
        exact calls_combine_subset hleft hleft (hrow (hcall rfl))

-- ---------------------------------------------------------------------------
-- The blocks of a row
-- ---------------------------------------------------------------------------

/-- Where a last term moves up unchanged, the row above has the same blocks. -/
theorem flatMap_blocks_pairUp (row : List Term) :
    (pairUp Term.hasher .promote row).flatMap Term.blocks = row.flatMap Term.blocks := by
  induction row using pairUp.induct with
  | case1 left right rest ih => simp [pairUp, Term.hasher_combine, Term.blocks, ih]
  | case2 last => rfl
  | case3 => rfl

theorem flatMap_blocks_leaves (blocks : List ByteArray) :
    (blocks.map Term.leaf).flatMap Term.blocks = blocks := by
  induction blocks with
  | nil => rfl
  | cons block rest ih => simp [Term.blocks, ih]

-- ---------------------------------------------------------------------------
-- The root of the terms
-- ---------------------------------------------------------------------------

theorem Levels.Built.top_eq_digest {terms : Levels Term} (hterms : terms.Built Term.hasher policy)
    {levels : Levels D} (h : levels.Built H policy)
    (hleaves : levels.leaves = terms.leaves.map (Term.digest H))
    (hcalls : ∀ x ∈ terms.leaves, x.calls H ⊆ calls) (hlevels : levels.calls policy ⊆ calls) :
    levels.top = terms.top.digest H ∧ terms.top.calls H ⊆ calls := by
  have hsizes : levels.leaves.size = terms.leaves.size := by rw [hleaves, Array.size_map]
  induction hterms generalizing levels with
  | root term =>
    cases h with
    | root digest =>
      have hdigest : digest = term.digest H := by simpa [leaves] using hleaves
      exact ⟨hdigest, hcalls term (by simp [leaves])⟩
    | row hsize => exact absurd hsizes (Nat.ne_of_gt hsize)
  | @row row upper hsize habove _ ih =>
    cases h with
    | root digest => exact absurd hsizes (Nat.ne_of_lt hsize)
    | @row digests upperD _ haboveD hupperD =>
      obtain rfl : digests = row.map (Term.digest H) := hleaves
      rw [Levels.calls, List.append_subset] at hlevels
      have hmap : upperD.leaves = upper.leaves.map (Term.digest H) := by
        rw [haboveD, habove, rowAbove_map_digest]
      have hupperCalls : ∀ x ∈ upper.leaves, x.calls H ⊆ calls := by
        rw [habove]
        exact calls_rowAbove hcalls hlevels.1
      have hupper := ih hupperD hmap hupperCalls hlevels.2 (by rw [hmap, Array.size_map])
      exact hupper

theorem Levels.leaves_ofBytes_term (shape : Shape) (data : ByteArray) (hb : 0 < shape.blockSize)
    (hd : 0 < data.size) :
    (ofBytes Term.hasher shape data hb hd).leaves =
      ((blockList shape.blockSize data).map Term.leaf).toArray :=
  (leaves_build _ _ _ _).trans (leafRow_eq _ _ _)

namespace Tree

variable {t u : Tree D} {data other : ByteArray}

def rootTerm (shape : Shape) (data : ByteArray) (hb : 0 < shape.blockSize) (hd : 0 < data.size) :
    Term :=
  (Levels.ofBytes Term.hasher shape data hb hd).top

theorem Remembers.root_eq_digest (h : t.Remembers H data) (hd : 0 < data.size) :
    t.root = (rootTerm t.shape data t.blockSize_pos hd).digest H ∧
      (rootTerm t.shape data t.blockSize_pos hd).calls H ⊆ buildCalls H t.shape data := by
  have hterms := Levels.leaves_ofBytes_term t.shape data t.blockSize_pos hd
  rw [h.buildCalls_eq]
  refine (Levels.built_build Term.hasher _ _ _).top_eq_digest h.built ?_ ?_ ?_
  · rw [h.leaves_eq, leafRow_eq]
    refine Eq.trans ?_ (congrArg (Array.map (Term.digest H)) hterms).symm
    simp [Function.comp_def, Term.digest]
  · intro x hx
    replace hx : x ∈ ((blockList t.shape.blockSize data).map Term.leaf).toArray := hterms ▸ hx
    obtain ⟨block, hblock, rfl⟩ := List.mem_map.mp (List.mem_toArray.mp hx)
    simpa [Term.calls, leafCalls_eq] using .inl hblock
  · exact List.subset_append_right _ _

/-- Where the calls of two builds do not collide, the roots are equal just if the trees are made of
the same calls. -/
theorem Remembers.root_eq_iff (ht : t.Remembers H data) (hu : u.Remembers H other)
    (hd : 0 < data.size) (ho : 0 < other.size)
    (hcalls : Unambiguous H (buildCalls H t.shape data ++ buildCalls H u.shape other)) :
    t.root = u.root ↔
      rootTerm t.shape data t.blockSize_pos hd = rootTerm u.shape other u.blockSize_pos ho := by
  obtain ⟨hroot, hsub⟩ := ht.root_eq_digest hd
  obtain ⟨hrootOther, hsubOther⟩ := hu.root_eq_digest ho
  rw [hroot, hrootOther]
  constructor
  · intro hdigest
    exact Term.eq_of_digest_eq hcalls (fun _ hc => List.mem_append_left _ (hsub hc))
      (fun _ hc => List.mem_append_right _ (hsubOther hc)) hdigest
  · exact congrArg (Term.digest H)

-- ---------------------------------------------------------------------------
-- The blocks of a promoted root
-- ---------------------------------------------------------------------------

variable {shape : Shape} {data : ByteArray}

theorem blocks_rootTerm_promote (hpolicy : shape.oddPolicy = .promote) (hb : 0 < shape.blockSize)
    (hd : 0 < data.size) : (rootTerm shape data hb hd).blocks = blockList shape.blockSize data := by
  have hbuilt : (Levels.ofBytes Term.hasher shape data hb hd).Built Term.hasher .promote :=
    hpolicy ▸ Levels.built_build _ _ _ _
  have hrow := hbuilt.row_induction (k := 0)
    (P := fun _ row => row.toList.flatMap Term.blocks = blockList shape.blockSize data) ?_ ?_
    (Levels.getElem?_toList_last _)
  · simpa [rootTerm] using hrow
  · rw [Levels.leaves_ofBytes_term]
    exact flatMap_blocks_leaves _
  · intro k row _ hrow
    rw [toList_rowAbove, flatMap_blocks_pairUp, hrow]

/-- Two trees whose odd digests move up unchanged, with the same root and no collision among the
calls of their builds, have the same blocks, even if they were built with blocks of different
sizes; so they are over the same bytes. -/
theorem promote_root_determines_blocks (H : Hasher D) (sizeA sizeB : Nat) (a b : Buffer)
    (hsizeA : 0 < sizeA) (hsizeB : 0 < sizeB) (hA : 0 < a.view.size) (hB : 0 < b.view.size) :
    ∃ t u, Tree.build H ⟨sizeA, .promote⟩ a = .ok t ∧ Tree.build H ⟨sizeB, .promote⟩ b = .ok u ∧
      (t.root = u.root →
        Unambiguous H (buildCalls H ⟨sizeA, .promote⟩ a.view ++
          buildCalls H ⟨sizeB, .promote⟩ b.view) →
        blockList sizeA a.view = blockList sizeB b.view ∧ t.blockCount = u.blockCount ∧
          a.view = b.view) := by
  obtain ⟨t, ht⟩ : ∃ t, Tree.build H ⟨sizeA, .promote⟩ a = .ok t := build_eq_ok H hsizeA hA
  obtain ⟨u, hu⟩ : ∃ u, Tree.build H ⟨sizeB, .promote⟩ b = .ok u := build_eq_ok H hsizeB hB
  obtain ⟨hshapeT, -, hremT⟩ := build_ok ht
  obtain ⟨hshapeU, -, hremU⟩ := build_ok hu
  refine ⟨t, u, ht, hu, ?_⟩
  intro hroot hcalls
  rw [← hshapeT, ← hshapeU] at hcalls
  have hterms := (hremT.root_eq_iff hremU hA hB hcalls).mp hroot
  have hblocks := congrArg Term.blocks hterms
  rw [blocks_rootTerm_promote (by rw [hshapeT]), blocks_rootTerm_promote (by rw [hshapeU]),
    hshapeT, hshapeU] at hblocks
  refine ⟨hblocks, ?_, eq_of_blockList_eq hsizeA hsizeB hblocks⟩
  rw [hremT.blockCount_eq, hremU.blockCount_eq, hshapeT, hshapeU, ← length_blockList,
    ← length_blockList, hblocks]

/-- Five bytes as one block of at most five or eight, the second time over the part of a longer
buffer that is seen; cut into blocks of two they have another root. -/
theorem promote_root_determines_blocks_part :
    ∃ t u, Tree.build Fnv.algorithm.toHasher ⟨5, .promote⟩
        (.ofBytes [1, 2, 3, 4, 5].toByteArray) = .ok t ∧
      Tree.build Fnv.algorithm.toHasher ⟨8, .promote⟩
        ((Buffer.ofBytes [1, 2, 3, 4, 5, 6].toByteArray).resize 5) = .ok u ∧
      t.root = u.root ∧ t.blockCount = u.blockCount ∧
      [1, 2, 3, 4, 5].toByteArray =
        ((Buffer.ofBytes [1, 2, 3, 4, 5, 6].toByteArray).resize 5).view ∧
      ∃ w, Tree.build Fnv.algorithm.toHasher ⟨2, .promote⟩
        (.ofBytes [1, 2, 3, 4, 5].toByteArray) = .ok w ∧ u.root ≠ w.root := by
  obtain ⟨t, u, ht, hu, hdetermines⟩ := promote_root_determines_blocks Fnv.algorithm.toHasher 5 8
    (.ofBytes [1, 2, 3, 4, 5].toByteArray)
    ((Buffer.ofBytes [1, 2, 3, 4, 5, 6].toByteArray).resize 5)
    (by decide) (by decide) (by decide) (by decide)
  obtain ⟨u', w, hu', hw, happart⟩ := promote_root_determines_blocks Fnv.algorithm.toHasher 8 2
    ((Buffer.ofBytes [1, 2, 3, 4, 5, 6].toByteArray).resize 5)
    (.ofBytes [1, 2, 3, 4, 5].toByteArray)
    (by decide) (by decide) (by decide) (by decide)
  obtain rfl : u = u' := Except.ok.inj (hu.symm.trans hu')
  obtain ⟨hshapeT, -, hremT⟩ := build_ok ht
  obtain ⟨hshapeU, -, hremU⟩ := build_ok hu
  have hroot : t.root = u.root := by
    rw [Tree.root, Tree.root, hremT.levels_eq hshapeT (by decide) (by decide),
      hremU.levels_eq hshapeU (by decide) (by decide)]
    decide +kernel
  obtain ⟨-, hcount, hview⟩ := hdetermines hroot (by decide +kernel)
  rw [Buffer.view_ofBytes] at hview
  refine ⟨t, u, ht, hu, hroot, hcount, hview, w, hw, fun hsame => ?_⟩
  have hblocks := congrArg List.length (happart hsame (by decide +kernel)).1
  rw [length_blockList, length_blockList] at hblocks
  exact absurd hblocks (by decide)

end Tree

end BlockTree
