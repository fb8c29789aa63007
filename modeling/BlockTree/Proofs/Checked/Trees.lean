import Mathlib.Data.Nat.Bitwise
import BlockTree.Proofs.Checked.Blocks

/-!
# Trees in machine words

Putting rows on top of each other as a machine does it gives the rows of a tree: `Checked.grow?_eq`.
The way up from a leaf and the walks down two trees beside each other read these rows at places that
are there, since the number of a node stays below the size of its row; for walks down this is the
invariant `P` of `Levels.Built.walk?_eq`. So whatever state a tree is in, each operation done in
machine words has a result, and it is the result of the operation: `operations_in_range`. Only the
end of a block can come near the last word, since a whole block size is added to its start before
the end of the buffer cuts it short.
-/

namespace BlockTree

variable {D S : Type} {H : Hasher D} {policy : OddPolicy} {i : Nat} {data : ByteArray}

-- ---------------------------------------------------------------------------
-- Rows on top of each other
-- ---------------------------------------------------------------------------

namespace Checked

theorem mapM_pairs (H : Hasher D) (policy : OddPolicy) (row : List D) :
    (pairs row).mapM (parent? H policy) = some (pairUp H policy row) := by
  induction row using pairUp.induct with
  | case1 left right rest ih =>
    rw [pairs, List.mapM_cons, ih]
    rfl
  | case2 last => rfl
  | case3 => rfl

theorem rowAbove?_eq (H : Hasher D) (policy : OddPolicy) (row : Array D) :
    rowAbove? H policy row = some (rowAbove H policy row) := by
  rw [rowAbove?, mapM_pairs, ← toList_rowAbove]
  rfl

theorem grow?_eq (H : Hasher D) (policy : OddPolicy) (rows : List (Array D)) {row : Array D}
    (h : 0 < row.size) :
    grow? H policy (rows ++ [row]) = some (rows ++ (Levels.build H policy row h).toList) := by
  induction hn : row.size using Nat.strongRecOn generalizing rows row with
  | ind n ih =>
    subst hn
    rw [grow?_eq_bind H policy (last?_append rows row)]
    by_cases hsize : 1 < row.size
    · have hpos := size_rowAbove_pos H policy h
      have hlt : (rowAbove H policy row).size < row.size := by
        rw [size_rowAbove]
        omega
      simp only [Option.bind_some, if_pos hsize, rowAbove?_eq,
        ih _ hlt (rows ++ [row]) hpos rfl]
      rw [Levels.build_of_one_lt H policy row hsize, Levels.toList, List.append_assoc,
        List.singleton_append]
    · have hone : row.size = 1 := by omega
      have hleaves := Levels.leaves_build H policy row h
      rw [Levels.build_of_size_eq_one H policy row hone, Levels.leaves] at hleaves
      rw [if_neg hsize, Levels.build_of_size_eq_one H policy row hone, Levels.toList, hleaves]

end Checked

-- ---------------------------------------------------------------------------
-- The way up
-- ---------------------------------------------------------------------------

theorem xor_one_eq_siblingIndex (i : Nat) : i ^^^ 1 = siblingIndex i := by
  unfold siblingIndex
  split
  · next heven => exact Nat.xor_one_of_even (Nat.even_iff.mpr heven)
  · next hodd => exact Nat.xor_one_of_odd (Nat.odd_iff.mpr (by omega))

theorem Checked.rowStep?_eq (policy : OddPolicy) {row : Array D} {i : Nat} (hi : i < row.size) :
    rowStep? policy row i = some (rowStep policy row i) := by
  unfold rowStep? rowStep
  rw [xor_one_eq_siblingIndex]
  by_cases hsibling : siblingIndex i < row.size
  · simp [hsibling]
  · cases policy <;> simp [hsibling, hi]

namespace Levels

theorem take_toList_row (digests : Array D) (upper : Levels D) :
    (row digests upper).toList.take ((row digests upper).height - 1) =
      digests :: upper.toList.take (upper.height - 1) := by
  rw [height, Nat.add_sub_cancel, ← upper.height_sub_one_add_one, toList, List.take_succ_cons,
    Nat.add_sub_cancel]

theorem Built.climb?_eq {levels : Levels D} (h : levels.Built H policy) {i : Nat}
    (hi : i < levels.leaves.size) :
    Checked.climb? policy (levels.toList.take (levels.height - 1)) i =
      some (levels.pathSteps policy i) := by
  induction h generalizing i with
  | root => rfl
  | @row digests upper hsize habove _ ih =>
    replace hi : i < digests.size := hi
    have hparent : i / 2 < upper.leaves.size := by
      rw [habove, size_rowAbove]
      omega
    rw [take_toList_row, Checked.climb?, Checked.rowStep?_eq policy hi, ih hparent]
    rfl

end Levels

-- ---------------------------------------------------------------------------
-- Walks down
-- ---------------------------------------------------------------------------

theorem Checked.walk?_cons (step : Array D → Array D → S → Option S) (rowA rowB : Array D)
    (rowsA rowsB : List (Array D)) (k : Nat) (state : S) :
    walk? step (rowA :: rowsA) (rowB :: rowsB) (k + 1) state =
      (walk? step rowsA rowsB k state).bind (step rowA rowB) := by
  induction k generalizing state with
  | zero => simp [walk?]
  | succ k ih =>
    rw [walk?, walk?]
    simp only [List.getElem?_cons_succ, Option.bind_eq_bind, Option.bind_assoc, ih]

/-- A walk down two trees with as many leaves, whose step keeps to the nodes of its rows, comes to
what the same steps come to on the rows themselves. -/
theorem Levels.Built.walk?_eq {H' : Hasher D} {policy' : OddPolicy} {a b : Levels D}
    {step : Array D → Array D → S → Option S} {start : S} {result : Levels D → Levels D → S}
    {P : Nat → S → Prop} (ha : a.Built H policy) (hb : b.Built H' policy')
    (hsize : a.leaves.size = b.leaves.size) (hword : a.leaves.size < wordLimit)
    (hstart : P 1 start) (hroot : ∀ x y, result (.root x) (.root y) = start)
    (hstep : ∀ rowA rowB upperA upperB, rowA.size = rowB.size → rowA.size < wordLimit →
      P ((rowA.size + 1) / 2) (result upperA upperB) →
      step rowA rowB (result upperA upperB) = some (result (.row rowA upperA) (.row rowB upperB)) ∧
        P rowA.size (result (.row rowA upperA) (.row rowB upperB))) :
    Checked.walk? step a.toList b.toList (a.height - 1) start = some (result a b) ∧
      P a.leaves.size (result a b) := by
  induction ha generalizing b with
  | root x =>
    cases hb with
    | root y =>
      rw [hroot]
      exact ⟨rfl, hstart⟩
    | row hone => exact absurd hsize (Nat.ne_of_lt hone)
  | @row rowA upperA hone hA _ ih =>
    cases hb with
    | root y => exact absurd hsize (Nat.ne_of_gt hone)
    | @row rowB upperB _ hB hupperB =>
      -- As many leaves make as many digests in each row above, so the rows of both trees end alike.
      replace hsize : rowA.size = rowB.size := hsize
      replace hword : rowA.size < wordLimit := hword
      have habove : upperA.leaves.size = (rowA.size + 1) / 2 := by rw [hA, size_rowAbove]
      obtain ⟨hwalk, hwithin⟩ := ih hupperB (by rw [habove, hB, size_rowAbove, hsize]) (by omega)
      rw [habove] at hwithin
      obtain ⟨hresult, hkeeps⟩ := hstep rowA rowB upperA upperB hsize hword hwithin
      refine ⟨?_, hkeeps⟩
      rw [toList, toList, height, Nat.add_sub_cancel, ← upperA.height_sub_one_add_one,
        Checked.walk?_cons, hwalk]
      exact hresult

-- ---------------------------------------------------------------------------
-- Comparing
-- ---------------------------------------------------------------------------

section Comparing

variable [DecidableEq D]

namespace Checked

section Steps

variable {rowA rowB : Array D} (hsize : rowA.size = rowB.size)

include hsize

theorem descend?_eq (hword : rowA.size < wordLimit) (hi : i < (rowA.size + 1) / 2) :
    descend? rowA rowB i =
      some (if 2 * i + 1 < rowA.size ∧ rowA[2 * i]? = rowB[2 * i]? then 2 * i + 1 else 2 * i) := by
  rw [descend?, mul?_eq (by omega)]
  simp only [Option.bind_eq_bind, Option.bind_some, add?_eq (show 2 * i + 1 < wordLimit by omega)]
  by_cases hright : 2 * i + 1 < rowA.size
  · have hA : rowA[2 * i]? = some rowA[2 * i] := Array.getElem?_eq_getElem (by omega)
    have hB : rowB[2 * i]? = some rowB[2 * i] := Array.getElem?_eq_getElem (by omega)
    simp [hright, hA, hB]
  · simp [hright]

theorem differing?_eq (c : Nat) :
    differing? rowA rowB c =
      some ([c].filter fun c => c < rowA.size ∧ rowA[c]? ≠ rowB[c]?) := by
  unfold differing?
  by_cases hc : c < rowA.size
  · have hB : rowB[c]? = some rowB[c] := Array.getElem?_eq_getElem (by omega)
    by_cases heq : rowA[c] = rowB[c] <;> simp [hc, hB, heq]
  · simp [hc]

theorem spread?_eq (hword : rowA.size < wordLimit) {nodes : List Nat}
    (hnodes : ∀ i ∈ nodes, i < (rowA.size + 1) / 2) :
    spread? rowA rowB nodes =
      some ((nodes.flatMap fun i => [2 * i, 2 * i + 1]).filter fun c =>
        c < rowA.size ∧ rowA[c]? ≠ rowB[c]?) := by
  induction nodes with
  | nil => rfl
  | cons i nodes ih =>
    obtain ⟨hi, hrest⟩ := List.forall_mem_cons.mp hnodes
    have hpair : [2 * i, 2 * i + 1] = [2 * i] ++ [2 * i + 1] := rfl
    rw [spread?, mul?_eq (by omega)]
    simp only [Option.bind_eq_bind, Option.bind_some, differing?_eq hsize, ih hrest,
      add?_eq (show 2 * i + 1 < wordLimit by omega), List.flatMap_cons, hpair, List.filter_append]
    rfl

end Steps

end Checked

namespace Levels.Built

variable {H' : Hasher D} {policy' : OddPolicy} {a b : Levels D} (ha : a.Built H policy)
  (hb : b.Built H' policy') (hsize : a.leaves.size = b.leaves.size)
  (hword : a.leaves.size < wordLimit)

include ha hb hsize hword

theorem walk?_descend :
    Checked.walk? Checked.descend? a.toList b.toList (a.height - 1) 0 =
        some (firstDifference a b) ∧
      firstDifference a b < a.leaves.size := by
  refine ha.walk?_eq (P := fun n i => i < n) hb hsize hword Nat.one_pos (fun _ _ => rfl) ?_
  intro rowA rowB upperA upperB hrows hlimit hi
  refine ⟨Checked.descend?_eq hrows hlimit hi, ?_⟩
  simp only [firstDifference]
  split <;> omega

theorem walk?_spread :
    Checked.walk? Checked.spread? a.toList b.toList (a.height - 1) [0] =
      some (differences a b) := by
  refine (ha.walk?_eq (P := fun n nodes => ∀ i ∈ nodes, i < n) hb hsize hword ?_
    (fun _ _ => rfl) ?_).1
  · exact fun i hi => by simp [List.mem_singleton.mp hi]
  · intro rowA rowB upperA upperB hrows hlimit hnodes
    refine ⟨Checked.spread?_eq hrows hlimit hnodes, fun c hc => ?_⟩
    simp only [differences, List.mem_filter, decide_eq_true_eq] at hc
    exact hc.2.1

end Levels.Built

end Comparing

-- ---------------------------------------------------------------------------
-- Trees
-- ---------------------------------------------------------------------------

namespace Checked

theorem lt_wordLimit {n : Nat} (h : n < bufferLimit) : n < wordLimit :=
  Nat.lt_of_lt_of_le h (by decide)

theorem rows?_eq (H : Hasher D) {shape : Shape} (hb : 0 < shape.blockSize) (hd : 0 < data.size)
    (hword : data.size < wordLimit) :
    rows? H shape data = some (Levels.ofBytes H shape data hb hd).toList := by
  have hcursor := BlockCursor.inRange_ofSize hb hword
  simp only [rows?, start?_eq hb hword, leaves?_eq H hcursor rfl, Option.bind_eq_bind,
    Option.bind_some]
  exact grow?_eq H shape.oddPolicy [] (leafRow_pos H hb hd)

theorem root?_eq (levels : Levels D) : root? levels.toList = some levels.top := by
  simp only [root?, last?, Levels.length_toList, sub?_eq levels.height_pos, Option.bind_eq_bind,
    Option.bind_some, Levels.getElem?_toList_last]
  rfl

theorem root?_tree (t : Tree D) : root? t.levels.toList = some t.root :=
  root?_eq t.levels

theorem blockCount?_eq (t : Tree D) : blockCount? t = some t.blockCount := by
  have hleaves : t.levels.toList[0]? = some t.levels.leaves := by
    rw [← List.head?_eq_getElem?, Levels.head?_toList]
  rw [blockCount?, hleaves]
  rfl

theorem add?_blockSize {size blockSize : Nat} (hsize : size < bufferLimit)
    (hword : blockSize < wordLimit) (hstart : i * blockSize < size) :
    add? (i * blockSize) blockSize = some (i * blockSize + blockSize) := by
  refine add?_eq ?_
  cases i with
  | zero => simpa using hword
  | succ i =>
    -- From the second block on, the block size is no more than the start.
    have htwice : wordLimit = bufferLimit + bufferLimit := by decide
    rw [Nat.succ_mul] at hstart ⊢
    omega

/-- In larger buffers they need not be. -/
example : bufferLimit < wordLimit - 1 ∧ 1 * bufferLimit < wordLimit - 1 ∧
    add? (1 * bufferLimit) bufferLimit = none := by
  decide

end Checked

namespace Tree

open Checked

variable {t : Tree D}

theorem checked_rehash (H : Hasher D) (hsize : t.size < bufferLimit)
    (hvisible : t.size ≤ t.buffer.visible) :
    ∃ u, t.rehash H = .ok u ∧ Checked.rehash? H t = some u.levels.toList := by
  obtain ⟨u, hu⟩ := rehash_eq_ok H hvisible
  obtain ⟨-, levels, rfl, hpos, rfl⟩ := rehash_ok hu
  have hdata : (t.buffer.bytes.extract 0 t.size).size < wordLimit := by
    have hlimit := lt_wordLimit hsize
    simp only [ByteArray.size_extract]
    omega
  refine ⟨_, hu, ?_⟩
  rw [Checked.rehash?, slice?_eq (Nat.zero_le _) (by rwa [Buffer.size_view]),
    Buffer.extract_view _ _ _ hvisible]
  exact rows?_eq H t.blockSize_pos hpos hdata

theorem checked_comparable (a b : Tree D) : comparable? a b = some (a.comparable b) := by
  unfold comparable? comparable
  by_cases hshape : a.shape = b.shape
  · simp [hshape, blockCount?_eq]
  · simp [hshape]

section Comparing

variable [DecidableEq D]

theorem checked_verify (H : Hasher D) (hsize : t.size < bufferLimit) (data : ByteArray) :
    Checked.verify? H t data = some (t.verify H data) := by
  unfold Checked.verify? Tree.verify
  by_cases hsame : data.size = t.size
  · have hdata : data.size < wordLimit := hsame ▸ lt_wordLimit hsize
    rw [if_neg (not_not_intro hsame), dif_pos hsame,
      rows?_eq H t.blockSize_pos (hsame ▸ t.size_pos) hdata]
    simp only [Option.bind_eq_bind, Option.bind_some, root?_eq]
    rfl
  · rw [if_pos hsame, dif_neg hsame]

theorem checked_compare {R : Type} {a b : Tree D} {equal incomparable result : R}
    {walk : Option R} (hwalk : a.comparable b = true → walk = some result) :
    Checked.compare? a b equal walk incomparable =
      some (if a.root = b.root then equal
        else if a.comparable b then result
        else incomparable) := by
  unfold compare?
  simp only [root?_tree, checked_comparable, Option.bind_eq_bind, Option.bind_some]
  by_cases hroot : a.root = b.root
  · rw [if_pos hroot, if_pos hroot]
    rfl
  · rw [if_neg hroot, if_neg hroot]
    cases hcomparable : a.comparable b with
    | true => exact hwalk hcomparable
    | false => rfl

end Comparing

section Remembered

variable {content : ByteArray} (h : t.Remembers H content)

include h

theorem Remembers.blockCount_lt_wordLimit (hsize : t.size < bufferLimit) :
    t.blockCount < wordLimit := by
  have hcount : t.blockCount ≤ t.size := by
    rw [h.blockCount_eq, h.size_eq]
    exact blockCount_le_size t.blockSize_pos
  exact Nat.lt_of_le_of_lt hcount (lt_wordLimit hsize)

theorem Remembers.checked_block (hsize : t.size < bufferLimit)
    (hword : t.shape.blockSize < wordLimit) (hvisible : t.size ≤ t.buffer.visible) (i : Nat) :
    ∃ bytes, t.block? i = .ok bytes ∧ Checked.block? t i = some bytes := by
  by_cases hi : i < t.blockCount
  · have hstart := h.start_lt_size hi
    have hslice := t.buffer.slice_eq_ok (i * t.shape.blockSize)
      (min (i * t.shape.blockSize + t.shape.blockSize) t.size) (by omega)
    have hbytes : slice? t.buffer.view (i * t.shape.blockSize)
        (min (i * t.shape.blockSize + t.shape.blockSize) t.size) = some _ :=
      slice?_eq (by omega) (by rw [Buffer.size_view]; omega)
    refine ⟨_, (if_pos hi).trans (congrArg (some <$> ·) hslice), ?_⟩
    rw [Checked.block?, blockCount?_eq]
    simp only [Option.bind_eq_bind, Option.bind_some, if_neg (Nat.not_le.mpr hi),
      mul?_eq (Nat.lt_trans hstart (lt_wordLimit hsize)),
      add?_blockSize hsize hword hstart, hbytes]
    rfl
  · refine ⟨none, if_neg hi, ?_⟩
    rw [Checked.block?, blockCount?_eq]
    exact if_pos (Nat.not_lt.mp hi)

theorem Remembers.checked_path (i : Nat) : Checked.path? t i = some (t.path i) := by
  rw [Checked.path?, blockCount?_eq, Tree.path]
  by_cases hi : i < t.blockCount
  · simp only [Option.bind_eq_bind, Option.bind_some, if_pos hi, if_neg (Nat.not_le.mpr hi),
      Levels.length_toList, sub?_eq t.levels.height_pos, h.built.climb?_eq hi]
    rfl
  · simp only [Option.bind_eq_bind, Option.bind_some, if_neg hi, if_pos (Nat.not_lt.mp hi)]
    rfl

variable [DecidableEq D] {H' : Hasher D} {u : Tree D} {other : ByteArray}
  (hu : u.Remembers H' other) (hsize : t.size < bufferLimit)

include hu hsize

theorem Remembers.checked_compareWith :
    Checked.compareWith? t u = some (t.compareWith u) := by
  refine checked_compare fun hcomparable => ?_
  obtain ⟨-, hcount⟩ := comparable_iff.mp hcomparable
  obtain ⟨hwalk, hi⟩ := h.built.walk?_descend hu.built hcount (h.blockCount_lt_wordLimit hsize)
  have hoffset := mul?_eq (Nat.lt_trans (h.start_lt_size hi) (lt_wordLimit hsize))
  simp only [Levels.length_toList, sub?_eq t.levels.height_pos, hwalk, hoffset,
    Option.bind_eq_bind, Option.bind_some]
  rfl

theorem Remembers.checked_differingBlocks :
    Checked.differingBlocks? t u = some (t.differingBlocks u) := by
  refine checked_compare fun hcomparable => ?_
  obtain ⟨-, hcount⟩ := comparable_iff.mp hcomparable
  have hwalk := h.built.walk?_spread hu.built hcount (h.blockCount_lt_wordLimit hsize)
  simp only [Levels.length_toList, sub?_eq t.levels.height_pos, hwalk, Option.bind_eq_bind,
    Option.bind_some]
  rfl

end Remembered

end Tree

/-- In machine words no operation leaves its range. Cutting any number of bytes that is a word into
blocks never does, wherever the cursor has come to, nor does building rows over a buffer. A tree
over a buffer, in whatever state, is verified, rehashed and compared with any other tree, and its
blocks and paths are read at any number, as if numbers had no limit; only blocks and rehashing need
its bytes to be visible. -/
theorem operations_in_range [DecidableEq D] (H : Hasher D) :
    (∀ size < wordLimit, ∀ blockSize < wordLimit, 0 < blockSize →
      ∃ first, BlockCursor.start size blockSize = .ok first ∧
        Checked.start? size blockSize = some first ∧
        ∀ blocks c, first.Yields blocks c →
          Checked.next? c = some c.next? ∧ Checked.remaining? c = some c.remaining ∧
          ∀ b ∈ blocks, Checked.range? b = some (b.start, b.start + b.length)) ∧
    (∀ (shape : Shape) (data : ByteArray) (hb : 0 < shape.blockSize) (hd : 0 < data.size),
      shape.blockSize < wordLimit → data.size < bufferLimit →
      Checked.rows? H shape data = some (Levels.ofBytes H shape data hb hd).toList) ∧
    ∀ (t : Tree D) (content : ByteArray), t.Reached H content →
      t.size < bufferLimit → t.shape.blockSize < wordLimit →
      (∀ data, Checked.verify? H t data = some (t.verify H data)) ∧
      (∀ i, Checked.path? t i = some (t.path i)) ∧
      (t.size ≤ t.buffer.visible →
        (∀ i, ∃ bytes, t.block? i = .ok bytes ∧ Checked.block? t i = some bytes) ∧
        ∃ u, t.rehash H = .ok u ∧ Checked.rehash? H t = some u.levels.toList) ∧
      ∀ (H' : Hasher D) (u : Tree D) (other : ByteArray), u.Reached H' other →
        Checked.compareWith? t u = some (t.compareWith u) ∧
        Checked.differingBlocks? t u = some (t.differingBlocks u) := by
  refine ⟨fun size hsize blockSize _ hb => ?_, fun shape data hb hd _ hsize => ?_,
    fun t content hreached hsize hword => ?_⟩
  · have hstart : BlockCursor.start size blockSize = .ok (.ofSize size blockSize) :=
      if_neg (Nat.ne_of_gt hb)
    refine ⟨_, hstart, Checked.start?_eq hb hsize, fun blocks c hyields => ?_⟩
    obtain ⟨hrange, hblocks⟩ := hyields.inRange (BlockCursor.inRange_ofSize hb hsize)
    exact ⟨hrange.checked_next, hrange.checked_remaining,
      fun b hmem => Checked.range?_eq (Nat.lt_of_le_of_lt (hblocks b hmem) hsize)⟩
  · exact Checked.rows?_eq H hb hd (Checked.lt_wordLimit hsize)
  · have hrem := hreached.remembers
    refine ⟨t.checked_verify H hsize, hrem.checked_path, fun hvisible => ?_,
      fun H' u other hother => ?_⟩
    · exact ⟨hrem.checked_block hsize hword hvisible, t.checked_rehash H hsize hvisible⟩
    · exact ⟨hrem.checked_compareWith hother.remembers hsize,
        hrem.checked_differingBlocks hother.remembers hsize⟩

/-- The widest blocks of the most bytes, of which there are two, and two trees of three blocks, the
first of which was written to since its build. -/
theorem operations_in_range_widest :
    ∃ t₀ t u, Tree.build Fnv.algorithm.toHasher ⟨2, .duplicate⟩
        (.ofBytes [1, 2, 3, 4, 5].toByteArray) = .ok t₀ ∧
      t = t₀.after Fnv.algorithm.toHasher (.write 0 [9].toByteArray) ∧
      Tree.build Fnv.algorithm.toHasher ⟨2, .duplicate⟩
        (.ofBytes [1, 2, 0, 4, 5, 6].toByteArray) = .ok u ∧
      (∃ bytes, t.block? 2 = .ok bytes ∧ Checked.block? t 2 = some bytes) ∧
      Checked.path? t 3 = some (.error (.blockOutOfRange 3 3)) ∧
      Checked.compareWith? t u = some (.differsAt 2) ∧
      Checked.differingBlocks? t u = some (some [1, 2]) ∧
      ∃ first, Checked.start? (wordLimit - 1) (wordLimit - 2) = some first ∧
        first.remaining = 2 ∧
        ∀ blocks c, first.Yields blocks c → Checked.next? c = some c.next? := by
  obtain ⟨t₀, t, ht₀, ht, hshape, hreached⟩ := Tree.exists_reached_after Fnv.algorithm.toHasher
    ⟨2, .duplicate⟩ (.ofBytes [1, 2, 3, 4, 5].toByteArray) (by decide) (by decide)
    (.write 0 [9].toByteArray)
  replace hreached : t.Reached Fnv.algorithm.toHasher [1, 2, 3, 4, 5].toByteArray := hreached
  obtain ⟨u, hu, hshapeU, hlevelsU⟩ := Tree.exists_build_ofBytes Fnv.algorithm.toHasher
    ⟨2, .duplicate⟩ [1, 2, 0, 4, 5, 6].toByteArray (by decide) (by decide)
  have hlevels := hreached.remembers.levels_eq hshape (by decide) (by decide)
  have hcount : t.blockCount = 3 := by
    rw [hreached.remembers.blockCount_eq, hshape]
    decide
  have hsize : t.size = 5 := hreached.remembers.size_eq.trans (by decide)
  have hcompare : t.compareWith u = .differsAt 2 := by
    simp only [Tree.compareWith, Tree.root, Tree.comparable, Tree.blockCount, hlevels, hlevelsU,
      hshape, hshapeU]
    decide +kernel
  have hfound : t.differingBlocks u = some [1, 2] := by
    simp only [Tree.differingBlocks, Tree.root, Tree.comparable, Tree.blockCount, hlevels,
      hlevelsU, hshape, hshapeU]
    decide +kernel
  obtain ⟨hcursor, -, htrees⟩ := operations_in_range Fnv.algorithm.toHasher
  obtain ⟨first, hfirst, hchecked, hsteps⟩ :=
    hcursor (wordLimit - 1) (by decide) (wordLimit - 2) (by decide) (by decide)
  obtain ⟨-, hpaths, hreads, hothers⟩ :=
    htrees t _ hreached (by rw [hsize]; decide) (by rw [hshape]; decide)
  obtain ⟨hchecked₁, hchecked₂⟩ := hothers _ u _ (.build hu)
  have hpath : t.path 3 = .error (.blockOutOfRange 3 3) := by
    rw [Tree.path, hcount]
    rfl
  have htwo : first.remaining = 2 := by
    cases hfirst
    decide
  refine ⟨t₀, t, u, ht₀, ht, hu, (hreads ?_).1 2, (hpaths 3).trans (congrArg some hpath),
    hchecked₁.trans (congrArg some hcompare), hchecked₂.trans (congrArg some hfound), first,
    hchecked, htwo, fun blocks c hc => (hsteps blocks c hc).1⟩
  rw [ht, Tree.visible_after_write, ← ht, hsize, (Tree.build_ofBytes_ok ht₀).2.1]
  decide

end BlockTree
