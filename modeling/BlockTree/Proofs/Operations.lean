import Mathlib.Data.List.Forall2
import BlockTree.Hasher.Kind
import BlockTree.Proofs.History

/-!
# What operations keep

Of a tree that was built, and of all its copies, the size, the shape and the bytes past the size
stay as they were, and the rows are those over the bytes on record: `Tree.Follows`. One operation
keeps this (`Operation.follows_after`), so any number of them do. What is seen of the digests after
a rehash is what a tree shows that is built over the same bytes.
-/

namespace BlockTree

variable {D : Type} {H : Hasher D} {origin t u : Tree D} {data : ByteArray}

-- ---------------------------------------------------------------------------
-- Hidden bytes and rehashed ones
-- ---------------------------------------------------------------------------

theorem Edit.apply_of_hidden (H : Hasher D) (hhidden : t.buffer.visible < t.size) {e : Edit}
    (he : ∀ length, e ≠ .resize length) : e.apply H t = .error .outOfView := by
  have hwrite : ∀ start data, t.write start data = .error .outOfView :=
    fun start data => dif_neg fun h => Nat.not_le.mpr hhidden h.1
  cases e with
  | write start data => exact hwrite start data
  | flip start mask =>
    simp only [apply, Tree.flip, hwrite]
    split <;> rfl
  | fill seed =>
    have hslice : t.buffer.slice 0 t.size = .error .outOfView := if_neg (Nat.not_le.mpr hhidden)
    simp only [apply, Tree.fill, hslice]
    rfl
  | resize length => exact absurd rfl (he length)
  | rehash => exact dif_neg (Nat.not_le.mpr hhidden)

theorem Tree.rehash_eq_build (H : Hasher D) (hvisible : t.size ≤ t.buffer.visible) :
    ∃ fresh, Tree.build H t.shape (.ofBytes (t.buffer.bytes.extract 0 t.size)) = .ok fresh ∧
      t.rehash H = .ok { fresh with buffer := t.buffer } := by
  have hsize : (t.buffer.bytes.extract 0 t.size).size = t.size := by
    have := t.buffer.visible_le
    simp only [ByteArray.size_extract]
    omega
  obtain ⟨fresh, hfresh, hshape, hlevels⟩ := exists_build_ofBytes H t.shape
    (t.buffer.bytes.extract 0 t.size) t.blockSize_pos (hsize.symm ▸ t.size_pos)
  obtain ⟨-, -, hrem⟩ := build_ofBytes_ok hfresh
  have hfreshSize : t.size = fresh.size := hsize.symm.trans hrem.size_eq.symm
  refine ⟨fresh, hfresh, ?_⟩
  rw [rehash, dif_pos hvisible, ← hlevels]
  simp only [hfreshSize, hshape]

theorem Query.ask_of_digests [DecidableEq D] (alg : Algorithm D) (t : Tree D) (buffer : Buffer)
    {q : Query D} (hq : q.ofDigests = true) : q.ask alg { t with buffer } = q.ask alg t := by
  cases q <;> first | rfl | cases hq

-- ---------------------------------------------------------------------------
-- The trees and the record beside them
-- ---------------------------------------------------------------------------

/-- What holds of a tree that comes from another one: its size, its shape and the bytes past its
size are the same, and its rows are those over the bytes on record. -/
structure Tree.Follows (H : Hasher D) (t origin : Tree D) (data : ByteArray) : Prop where
  remembers : t.Remembers H data
  size_eq : t.size = origin.size
  shape_eq : t.shape = origin.shape
  tail_eq : ∀ p, origin.size ≤ p → t.buffer.bytes.data[p]? = origin.buffer.bytes.data[p]?

theorem Tree.Follows.after (h : t.Follows H origin data) (e : Edit) :
    (t.after H e).Follows H origin (e.hashed t data) := by
  obtain ⟨hsize, hshape⟩ := t.after_keeps H e
  constructor
  · exact h.remembers.after e
  · exact hsize.trans h.size_eq
  · exact hshape.trans h.shape_eq
  · intro p hp
    rw [t.after_tail H e (h.size_eq ▸ hp), h.tail_eq p hp]

section Forall₂

variable {α β : Type} {R : α → β → Prop} {as : List α} {bs : List β} {a : α} {b : β} {i : Nat}

theorem exists_of_forall₂ (h : List.Forall₂ R as bs) (ha : as[i]? = some a) :
    ∃ b, bs[i]? = some b ∧ R a b := by
  obtain ⟨hi, rfl⟩ := List.getElem?_eq_some_iff.mp ha
  have hi' : i < bs.length := h.length_eq ▸ hi
  exact ⟨bs[i], List.getElem?_eq_getElem hi', h.get hi hi'⟩

theorem forall₂_set (h : List.Forall₂ R as bs) (hab : R a b) (i : Nat) :
    List.Forall₂ R (as.set i a) (bs.set i b) := by
  induction h generalizing i with
  | nil => exact .nil
  | cons hhead htail ih =>
    cases i with
    | zero => exact .cons hab htail
    | succ i => exact .cons hhead (ih i)

theorem forall₂_copy (h : List.Forall₂ R as bs) (i : Nat) :
    List.Forall₂ R (as ++ as[i]?.toList) (bs ++ bs[i]?.toList) := by
  refine List.rel_append h ?_
  cases ha : as[i]? with
  | some a =>
    obtain ⟨b, hb, hab⟩ := exists_of_forall₂ h ha
    simpa [hb] using hab
  | none =>
    have hb : bs[i]? = none := by
      rw [List.getElem?_eq_none_iff, ← h.length_eq]
      exact List.getElem?_eq_none_iff.mp ha
    simp [hb]

end Forall₂

namespace Operation

variable [DecidableEq D] (alg : Algorithm D) {trees : List (Tree D)} {hashed : List ByteArray}

theorem after_edit {i : Nat} (ht : trees[i]? = some t) (e : Edit) :
    after alg trees (.edit i e) = trees.set i (t.after alg.toHasher e) := by
  obtain ⟨hi, rfl⟩ := List.getElem?_eq_some_iff.mp ht
  simp only [after, apply, ht, Tree.after]
  cases e.apply alg.toHasher trees[i] with
  | ok changed => rfl
  | error fault => exact (List.set_getElem_self hi).symm

theorem after_ask (i : Nat) (q : Query D) : after alg trees (.ask i q) = trees := by
  simp only [after, apply]
  cases trees[i]? with
  | none => rfl
  | some t => cases h : q.ask alg t <;> simp only [h] <;> rfl

theorem follows_after (h : List.Forall₂ (fun t => t.Follows alg.toHasher origin) trees hashed)
    (op : Operation D) :
    List.Forall₂ (fun t => t.Follows alg.toHasher origin) (op.after alg trees)
      (op.record trees hashed) := by
  cases op with
  | edit i e =>
    cases ht : trees[i]? with
    | some t =>
      obtain ⟨data, hdata, hfollows⟩ := exists_of_forall₂ h ht
      rw [after_edit alg ht, record, ht, hdata]
      exact forall₂_set h (hfollows.after e) i
    | none =>
      simpa only [after, apply, record, ht] using h
  | copy i => exact forall₂_copy h i
  | ask i q =>
    rw [after_ask]
    exact h

theorem follows_run (h : List.Forall₂ (fun t => t.Follows alg.toHasher origin) trees hashed)
    (ops : List (Operation D)) :
    List.Forall₂ (fun t => t.Follows alg.toHasher origin) (run alg trees ops)
      (recordAll alg trees hashed ops) := by
  induction ops generalizing trees hashed with
  | nil => exact h
  | cons op rest ih => exact ih (follows_after alg h op)

/-- After any operations on a built tree and its copies, refused ones among them, each of the trees
has the size and the shape that the first one was built with, and the bytes past the size are
untouched. The rows are those over the bytes of the latest build or rehash. A rehash, where all
bytes of the tree are visible, makes it like a tree built over them in everything that is seen of
its digests. Where they are not all visible, it is refused like every edit of the bytes, and no
tree changes. -/
theorem run_invariant {shape : Shape} {buffer : Buffer} {t₀ : Tree D}
    (h : Tree.build alg.toHasher shape buffer = .ok t₀) (ops : List (Operation D))
    (hrun : run alg [t₀] ops = trees) :
    (∀ t ∈ trees, t.size = t₀.size ∧ t.shape = shape ∧
      ∀ p, t₀.size ≤ p → t.buffer.bytes.data[p]? = buffer.bytes.data[p]?) ∧
    List.Forall₂ (Tree.Remembers alg.toHasher) trees
      (recordAll alg [t₀] [buffer.view] ops) ∧
    (∀ i t, trees[i]? = some t → t.size ≤ t.buffer.visible →
      ∃ fresh, Tree.build alg.toHasher shape (.ofBytes (t.buffer.bytes.extract 0 t.size)) =
          .ok fresh ∧
        (edit i .rehash).apply alg trees = .ok (trees.set i { fresh with buffer := t.buffer }) ∧
        (∀ q : Query D, q.ofDigests = true →
          q.ask alg { fresh with buffer := t.buffer } = q.ask alg fresh) ∧
        ∀ other : Tree D,
          other.compareWith { fresh with buffer := t.buffer } = other.compareWith fresh ∧
          other.differingBlocks { fresh with buffer := t.buffer } =
            other.differingBlocks fresh) ∧
    ∀ i t, trees[i]? = some t → t.buffer.visible < t.size →
      ∀ e, (∀ length, e ≠ .resize length) →
        (edit i e).apply alg trees = .error .outOfView ∧ after alg trees (.edit i e) = trees := by
  subst hrun
  obtain ⟨rfl, rfl, hrem⟩ := Tree.build_ok h
  have hfollows : t₀.Follows alg.toHasher t₀ t₀.buffer.view := ⟨hrem, rfl, rfl, fun _ _ => rfl⟩
  have hall := follows_run alg (.cons hfollows .nil) ops
  have hkept : ∀ (i : Nat) (t : Tree D), (run alg [t₀] ops)[i]? = some t →
      ∃ data, t.Follows alg.toHasher t₀ data := by
    intro i t ht
    obtain ⟨data, -, hdata⟩ := exists_of_forall₂ hall ht
    exact ⟨data, hdata⟩
  refine ⟨?_, hall.imp fun _ _ hdata => hdata.remembers, ?_, ?_⟩
  · intro t ht
    obtain ⟨i, hi⟩ := List.mem_iff_getElem?.mp ht
    obtain ⟨data, hdata⟩ := hkept i t hi
    exact ⟨hdata.size_eq, hdata.shape_eq, hdata.tail_eq⟩
  · intro i t ht hvisible
    obtain ⟨data, hdata⟩ := hkept i t ht
    obtain ⟨fresh, hfresh, hrehash⟩ := t.rehash_eq_build alg.toHasher hvisible
    rw [hdata.shape_eq] at hfresh
    refine ⟨fresh, hfresh, ?_, fun q => Query.ask_of_digests alg fresh t.buffer,
      fun other => ⟨rfl, rfl⟩⟩
    simp only [apply, ht, Edit.apply, hrehash]
    rfl
  · intro i t ht hhidden e he
    have hrefused : (edit i e).apply alg (run alg [t₀] ops) = .error .outOfView := by
      simp only [apply, ht, Edit.apply_of_hidden alg.toHasher hhidden he]
      rfl
    refine ⟨hrefused, ?_⟩
    rw [after, hrefused]

/-- A tree over the visible five of six bytes, rehashed and overwritten again after a copy of it
was made. Three bytes of the copy are left visible, so its rehash and a look at its last block are
refused. -/
theorem run_invariant_copy :
    ∃ t₀ t u, Tree.build Fnv.algorithm.toHasher ⟨2, .duplicate⟩
        ((Buffer.ofBytes [1, 2, 3, 4, 5, 6].toByteArray).resize 5) = .ok t₀ ∧
      run Fnv.algorithm [t₀] [.copy 0, .edit 0 (.write 0 [9].toByteArray), .edit 0 .rehash,
        .edit 0 (.write 1 [8].toByteArray), .edit 1 (.resize 3), .edit 1 .rehash,
        .ask 1 (.block 2)] = [t, u] ∧
      t.Remembers Fnv.algorithm.toHasher [9, 2, 3, 4, 5].toByteArray ∧
      u.Remembers Fnv.algorithm.toHasher [1, 2, 3, 4, 5].toByteArray ∧
      t.size = 5 ∧ u.size = 5 ∧ t.buffer.bytes.data[5]? = some 6 ∧
      (∃ changed, (edit 0 .rehash).apply Fnv.algorithm [t, u] = .ok changed) ∧
      (edit 1 .rehash).apply Fnv.algorithm [t, u] = .error .outOfView := by
  -- The tree is given outright, so that its run can be evaluated.
  obtain ⟨t₀, ht₀, heval⟩ : ∃ t₀, Tree.build Fnv.algorithm.toHasher ⟨2, .duplicate⟩
        ((Buffer.ofBytes [1, 2, 3, 4, 5, 6].toByteArray).resize 5) = .ok t₀ ∧
      ∀ ops, ops = [.copy 0, .edit 0 (.write 0 [9].toByteArray), .edit 0 .rehash,
          .edit 0 (.write 1 [8].toByteArray), .edit 1 (.resize 3), .edit 1 .rehash,
          .ask 1 (.block 2)] →
        recordAll Fnv.algorithm [t₀] [[1, 2, 3, 4, 5].toByteArray] ops =
          [[9, 2, 3, 4, 5].toByteArray, [1, 2, 3, 4, 5].toByteArray] ∧
        (run Fnv.algorithm [t₀] ops).map (fun t => t.buffer.visible) = [5, 3] := by
    refine ⟨_, by rw [Tree.build, dif_pos (by decide), dif_pos (by decide)], ?_⟩
    rintro _ rfl
    constructor <;> decide +kernel
  obtain ⟨hrecord, hvisible⟩ := heval _ rfl
  obtain ⟨t, rest, hrun, ht, hrest⟩ := List.map_eq_cons_iff.mp hvisible
  obtain ⟨u, rfl, hu⟩ := List.map_eq_singleton_iff.mp hrest
  obtain ⟨hkept, hrows, hshown, hhidden⟩ := run_invariant Fnv.algorithm ht₀ _ hrun
  have hsize₀ : t₀.size = 5 := (Tree.build_ok ht₀).2.2.choose_spec.1.symm
  obtain ⟨hsizeT, -, htail⟩ := hkept t (by simp)
  obtain ⟨hsizeU, -, -⟩ := hkept u (by simp)
  rw [hsize₀] at hsizeT hsizeU htail
  have hview : ((Buffer.ofBytes [1, 2, 3, 4, 5, 6].toByteArray).resize 5).view =
      [1, 2, 3, 4, 5].toByteArray := by decide
  rw [hview, hrecord] at hrows
  obtain ⟨hremT, hrows⟩ := List.forall₂_cons.mp hrows
  obtain ⟨hremU, -⟩ := List.forall₂_cons.mp hrows
  obtain ⟨fresh, -, hrehash, -⟩ := hshown 0 t rfl (Nat.le_of_eq (hsizeT.trans ht.symm))
  refine ⟨t₀, t, u, ht₀, hrun, hremT, hremU, hsizeT, hsizeU, htail 5 (Nat.le_refl 5),
    ⟨_, hrehash⟩, ?_⟩
  exact (hhidden 1 u rfl (by rw [hsizeU, hu]; decide) .rehash (by simp)).1

end Operation

end BlockTree
