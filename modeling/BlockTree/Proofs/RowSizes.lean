import Mathlib
import BlockTree.Hasher.Kind
import BlockTree.Proofs.History

/-!
# Rows halve

A row has half as many digests as the one below it, rounded up. So row `k` over `n` leaves has
`n / 2 ^ k` digests, rounded up, and the rows end with the first `k` for which this is one:
`Levels.Built.map_size_row`, `Levels.Built.height_eq`. The hasher, the policy and the contents have
no part in it, so trees over as many blocks have the same shape.
-/

namespace BlockTree

theorem half_of_div_two_pow (n k : Nat) :
    ((n + 2 ^ k - 1) / 2 ^ k + 1) / 2 = (n + 2 ^ (k + 1) - 1) / 2 ^ (k + 1) := by
  have hpos : 0 < 2 ^ k := Nat.two_pow_pos k
  have hsucc : 2 ^ (k + 1) = 2 ^ k * 2 := pow_succ 2 k
  rw [← Nat.add_div_right _ hpos, Nat.div_div_eq_div_mul, ← hsucc]
  congr 1
  omega

variable {D : Type} {H : Hasher D} {policy : OddPolicy}

namespace Levels.Built

variable {levels : Levels D} {k : Nat} {row upper : Array D}

theorem size_row (h : levels.Built H policy) (hrow : levels.toList[k]? = some row) :
    row.size = (levels.leaves.size + 2 ^ k - 1) / 2 ^ k := by
  have hsize := h.row_induction
    (P := fun k row => row.size = (levels.leaves.size + 2 ^ k - 1) / 2 ^ k) (k := 0)
    (by simp) (fun k row _ hk => by rw [size_rowAbove, hk, half_of_div_two_pow]) hrow
  rwa [Nat.zero_add] at hsize

theorem one_lt_size_row_iff (h : levels.Built H policy) (hrow : levels.toList[k]? = some row) :
    1 < row.size ↔ k + 1 < levels.height := by
  induction h generalizing k with
  | root digest =>
    cases k with
    | zero =>
      obtain rfl : #[digest] = row := Option.some.inj hrow
      simp [height]
    | succ k => cases hrow
  | @row digests upper hsize _ _ ih =>
    cases k with
    | zero =>
      obtain rfl : digests = row := Option.some.inj hrow
      have hpos := upper.height_pos
      simp only [height]
      omega
    | succ k =>
      simp only [height, Nat.add_lt_add_iff_right]
      exact ih hrow

theorem eq_rowAbove (h : levels.Built H policy) (hrow : levels.toList[k]? = some row)
    (hupper : levels.toList[k + 1]? = some upper) : upper = rowAbove H policy row := by
  induction h generalizing k with
  | root => cases hupper
  | @row digests above _ habove _ ih =>
    cases k with
    | zero =>
      obtain rfl : digests = row := Option.some.inj hrow
      have hhead : above.toList.head? = some upper := by
        rw [List.head?_eq_getElem?]
        exact hupper
      rw [← habove]
      exact Option.some.inj (hhead.symm.trans above.head?_toList)
    | succ k => exact ih hrow hupper

theorem height_eq (h : levels.Built H policy) :
    levels.height = Nat.clog 2 levels.leaves.size + 1 := by
  induction h with
  | root digest => rfl
  | @row digests upper hsize habove _ ih =>
    have hclog : Nat.clog 2 digests.size = Nat.clog 2 ((digests.size + 1) / 2) + 1 :=
      Nat.clog_of_two_le Nat.one_lt_two hsize
    rw [height, ih, habove, size_rowAbove, leaves, hclog]

/-- The rows end as soon as there is room for all leaves below one digest. -/
theorem isLeast_height (h : levels.Built H policy) :
    IsLeast {height | 0 < height ∧ levels.leaves.size ≤ 2 ^ (height - 1)} levels.height := by
  rw [h.height_eq]
  refine ⟨⟨Nat.succ_pos _, Nat.le_pow_clog Nat.one_lt_two _⟩, ?_⟩
  rintro height ⟨hpos, hle⟩
  have hclog : Nat.clog 2 levels.leaves.size ≤ height - 1 :=
    (Nat.clog_le_iff_le_pow Nat.one_lt_two).mpr hle
  omega

theorem map_size_row (h : levels.Built H policy) (k : Nat) :
    levels.toList[k]?.map Array.size =
      if k < levels.height then some ((levels.leaves.size + 2 ^ k - 1) / 2 ^ k) else none := by
  rcases Nat.lt_or_ge k levels.height with hk | hk
  · have hlt : k < levels.toList.length := by rwa [length_toList]
    have hrow := List.getElem?_eq_getElem hlt
    rw [if_pos hk, hrow, Option.map_some, h.size_row hrow]
  · have hnone : levels.toList[k]? = none := List.getElem?_eq_none (by rwa [length_toList])
    rw [if_neg (Nat.not_lt.mpr hk), hnone, Option.map_none]

theorem size_eq_of_leaves_size_eq {D' : Type} {H' : Hasher D'} {policy' : OddPolicy}
    {other : Levels D'} (h : levels.Built H policy) (hother : other.Built H' policy')
    (hsize : levels.leaves.size = other.leaves.size) :
    levels.height = other.height ∧
      ∀ k : Nat, levels.toList[k]?.map Array.size = other.toList[k]?.map Array.size := by
  have hheight : levels.height = other.height := by rw [h.height_eq, hother.height_eq, hsize]
  refine ⟨hheight, fun k => ?_⟩
  rw [h.map_size_row, hother.map_size_row, hsize, hheight]

end Levels.Built

namespace Tree

/-- Every tree over some bytes can be built. In each state that it comes to, its height is the least
that has room for its blocks, each row has half as many digests as the row below, rounded up, down
from one for each block to the root alone, and every digest above the leaves is that of its two
children, or that of one lifted. Two trees over as many blocks have the same shape, whatever their
hashers, policies and contents. -/
theorem rows_halve :
    (∀ {D : Type} (H : Hasher D) (shape : Shape) (buffer : Buffer), 0 < shape.blockSize →
      0 < buffer.view.size → ∃ t, Tree.build H shape buffer = .ok t) ∧
    (∀ {D : Type} (H : Hasher D) (t : Tree D) (data : ByteArray), t.Reached H data →
      t.blockCount = BlockTree.blockCount data.size t.shape.blockSize ∧
      IsLeast {height | 0 < height ∧ t.blockCount ≤ 2 ^ (height - 1)} t.height ∧
      t.height = Nat.clog 2 t.blockCount + 1 ∧
      (∀ k, (t.row? k).map Array.size =
        if k < t.height then some ((t.blockCount + 2 ^ k - 1) / 2 ^ k) else none) ∧
      (∀ k row, t.row? k = some row → (1 < row.size ↔ k + 1 < t.height)) ∧
      t.row? (t.height - 1) = some #[t.root] ∧
      ∀ k row upper, t.row? k = some row → t.row? (k + 1) = some upper → ∀ i < upper.size,
        ∃ left, row[2 * i]? = some left ∧
          (∀ right, row[2 * i + 1]? = some right → upper[i]? = some (H.combine left right)) ∧
          (row[2 * i + 1]? = none → upper[i]? = some (t.shape.oddPolicy.lift H left))) ∧
    (∀ {D D' : Type} (H : Hasher D) (H' : Hasher D') (t : Tree D) (u : Tree D')
      (data other : ByteArray), t.Reached H data → u.Reached H' other →
      t.blockCount = u.blockCount →
      t.height = u.height ∧ ∀ k, (t.row? k).map Array.size = (u.row? k).map Array.size) := by
  refine ⟨fun H shape buffer hb hd => build_eq_ok H hb hd, ?_, ?_⟩
  · intro D H t data ht
    have hbuilt := ht.remembers.built
    refine ⟨ht.remembers.blockCount_eq, hbuilt.isLeast_height, hbuilt.height_eq,
      hbuilt.map_size_row, fun k row hrow => hbuilt.one_lt_size_row_iff hrow,
      t.levels.getElem?_toList_last, fun k row upper hrow hupper i hi => ?_⟩
    obtain rfl := hbuilt.eq_rowAbove hrow hupper
    rw [size_rowAbove] at hi
    have hleft : row[2 * i]? = some row[2 * i] := Array.getElem?_eq_getElem (by omega)
    refine ⟨row[2 * i], hleft, fun right hright => ?_, fun hnone => ?_⟩
    · rw [getElem?_rowAbove, hleft, hright]
      rfl
    · rw [getElem?_rowAbove, hleft, hnone]
      rfl
  · intro D D' H H' t u data other ht hu hcount
    exact ht.remembers.built.size_eq_of_leaves_size_eq hu.remembers.built hcount

/-- Five blocks in a tree that was written to since its build: the last one is combined with itself.
A tree over terms whose last of five blocks moves up has the same shape. -/
theorem rows_halve_five :
    ∃ t₀ t u, Tree.build Fnv.algorithm.toHasher ⟨2, .duplicate⟩
        (.ofBytes [1, 2, 3, 4, 5, 6, 7, 8, 9].toByteArray) = .ok t₀ ∧
      t = t₀.after Fnv.algorithm.toHasher (.write 0 [9].toByteArray) ∧
      Tree.build Term.hasher ⟨1, .promote⟩ (.ofBytes [1, 2, 3, 4, 5].toByteArray) = .ok u ∧
      t.blockCount = 5 ∧ t.height = 4 ∧ (t.row? 1).map Array.size = some 3 ∧ u.height = 4 ∧
      (u.row? 1).map Array.size = some 3 ∧
      ∃ row upper last, t.row? 0 = some row ∧ t.row? 1 = some upper ∧ row[4]? = some last ∧
        upper[2]? = some (Fnv.combine last last) := by
  obtain ⟨t₀, t, ht₀, ht, hshape, hreached⟩ := exists_reached_after Fnv.algorithm.toHasher
    ⟨2, .duplicate⟩ (.ofBytes [1, 2, 3, 4, 5, 6, 7, 8, 9].toByteArray) (by decide) (by decide)
    (.write 0 [9].toByteArray)
  replace hreached : t.Reached Fnv.algorithm.toHasher [1, 2, 3, 4, 5, 6, 7, 8, 9].toByteArray :=
    hreached
  obtain ⟨u, hu⟩ := rows_halve.1 Term.hasher ⟨1, .promote⟩ (.ofBytes [1, 2, 3, 4, 5].toByteArray)
    (by decide) (by decide)
  obtain ⟨hcount, -, hheight, hsizes, -, -, habove⟩ := rows_halve.2.1 _ t _ hreached
  obtain ⟨hcountU, -⟩ := rows_halve.2.1 _ u _ (.build hu)
  rw [hshape] at hcount
  rw [(build_ok hu).1] at hcountU
  have hfive : t.blockCount = 5 := hcount.trans (by decide)
  have hfiveU : u.blockCount = 5 := hcountU.trans (by decide)
  have hfour : t.height = 4 := by
    rw [hheight, hfive]
    rfl
  have hthree : (t.row? 1).map Array.size = some 3 := by
    rw [hsizes, hfour, hfive]
    rfl
  obtain ⟨hheights, hrows⟩ :=
    rows_halve.2.2 _ _ t u _ _ hreached (.build hu) (hfive.trans hfiveU.symm)
  refine ⟨t₀, t, u, ht₀, ht, hu, hfive, hfour, hthree, hheights ▸ hfour, hrows 1 ▸ hthree, ?_⟩
  obtain ⟨row, hrow, hsize⟩ : ∃ row, t.row? 0 = some row ∧ row.size = 5 := by
    have hsize := hsizes 0
    rw [hfour, hfive] at hsize
    exact Option.map_eq_some_iff.mp hsize
  obtain ⟨upper, hupper, hupperSize⟩ := Option.map_eq_some_iff.mp hthree
  obtain ⟨last, hlast, -, hlift⟩ := habove 0 row upper hrow hupper 2 (by omega)
  refine ⟨row, upper, last, hrow, hupper, hlast, ?_⟩
  rw [hlift (Array.getElem?_eq_none (by omega)), hshape]
  rfl

end Tree

end BlockTree
