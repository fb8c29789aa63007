import BlockTree.Proofs.Blocks
import BlockTree.Proofs.Rows
import BlockTree.Tree.History

/-!
# What a tree remembers

Whatever is done to a tree, its rows are those over the bytes of its latest build or rehash:
`Tree.Reached.remembers`. An operation either leaves everything but the buffer as it was, or it is a
rehash, which leaves everything but the rows: `Edit.apply_cases`. An edit changes no byte but those
it is about (`Edit.apply_untouched`), so what a rehash after any number of them makes of a byte that
none touches is what it was.
-/

namespace BlockTree

variable {D : Type} {H : Hasher D} {t u : Tree D} {data : ByteArray} {p : Nat}

namespace Tree

-- ---------------------------------------------------------------------------
-- Each operation
-- ---------------------------------------------------------------------------

theorem write_eq_ok {start : Nat} (hvisible : t.size ≤ t.buffer.visible)
    (hfit : start + data.size ≤ t.size) :
    ∃ h, t.write start data = .ok { t with buffer := t.buffer.splice start data h } :=
  ⟨_, dif_pos ⟨hvisible, hfit⟩⟩

theorem flip_eq_ok {p : Nat} (hvisible : t.size ≤ t.buffer.visible) (hp : p < t.size)
    (mask : UInt8) :
    ∃ byte u, t.flip p mask = .ok (byte, u) ∧ u.size = t.size ∧
      u.buffer.visible = t.buffer.visible ∧ u.buffer.bytes.size = t.buffer.bytes.size := by
  have hbytes : p < t.buffer.bytes.size :=
    Nat.lt_of_lt_of_le hp (Nat.le_trans hvisible t.buffer.visible_le)
  have hfit : p + [t.buffer.bytes[p] ^^^ mask].toByteArray.size ≤ t.size := by
    simpa using Nat.succ_le_of_lt hp
  obtain ⟨h, hwrite⟩ := write_eq_ok hvisible hfit
  refine ⟨t.buffer.bytes[p] ^^^ mask,
    { t with buffer := t.buffer.splice p [t.buffer.bytes[p] ^^^ mask].toByteArray h }, ?_, rfl, rfl,
    Buffer.size_splice _ _ _ h⟩
  simp only [flip, dif_pos hbytes, hwrite]
  rfl

theorem write_ok {start : Nat} (h : t.write start data = .ok u) :
    ∃ buffer, u = { t with buffer } := by
  unfold write at h
  split at h
  · exact ⟨_, (Except.ok.inj h).symm⟩
  · cases h

theorem flip_ok {start : Nat} {mask byte : UInt8} (h : t.flip start mask = .ok (byte, u)) :
    ∃ buffer, u = { t with buffer } := by
  unfold flip at h
  split at h
  · obtain ⟨v, hw, hv⟩ := bind_eq_ok.mp h
    obtain ⟨-, rfl⟩ := Prod.mk.inj (pure_eq_ok.mp hv)
    exact write_ok hw
  · cases h

theorem fill_ok {seed : UInt64} (h : t.fill seed = .ok u) : ∃ buffer, u = { t with buffer } := by
  obtain ⟨old, -, hw⟩ := bind_eq_ok.mp h
  exact write_ok hw

theorem rehash_ok (h : t.rehash H = .ok u) :
    t.size ≤ t.buffer.visible ∧ ∃ levels, u = { t with levels } ∧
      ∃ hpos : 0 < (t.buffer.bytes.extract 0 t.size).size,
        levels = .ofBytes H t.shape (t.buffer.bytes.extract 0 t.size) t.blockSize_pos hpos := by
  unfold rehash at h
  split at h
  · next hvisible => exact ⟨hvisible, _, (Except.ok.inj h).symm, _, rfl⟩
  · cases h

theorem build_ok {shape : Shape} {buffer : Buffer} (h : Tree.build H shape buffer = .ok t) :
    t.shape = shape ∧ t.buffer = buffer ∧ t.Remembers H buffer.view := by
  unfold Tree.build at h
  split at h
  · split at h
    · next hb hd =>
      cases h
      exact ⟨rfl, rfl, hd, rfl, rfl⟩
    · cases h
  · cases h

theorem build_ofBytes_ok {shape : Shape} (h : Tree.build H shape (.ofBytes data) = .ok t) :
    t.shape = shape ∧ t.buffer = .ofBytes data ∧ t.Remembers H data := by
  simpa only [Buffer.view_ofBytes] using build_ok h

theorem build_eq_ok (H : Hasher D) {shape : Shape} {buffer : Buffer} (hb : 0 < shape.blockSize)
    (hd : 0 < buffer.view.size) : ∃ t, Tree.build H shape buffer = .ok t := by
  exact ⟨_, by rw [Tree.build, dif_pos hb, dif_pos hd]⟩

end Tree

-- ---------------------------------------------------------------------------
-- Histories
-- ---------------------------------------------------------------------------

theorem Edit.apply_cases (data : ByteArray) {e : Edit} (h : e.apply H t = .ok u) :
    (e.hashed t data = data ∧ ∃ buffer, u = { t with buffer }) ∨
      (e = .rehash ∧ t.rehash H = .ok u) := by
  cases e with
  | write start bytes => exact .inl ⟨rfl, Tree.write_ok h⟩
  | flip start mask =>
    obtain ⟨⟨byte, v⟩, hf, rfl⟩ := map_eq_ok.mp h
    exact .inl ⟨rfl, Tree.flip_ok hf⟩
  | fill seed => exact .inl ⟨rfl, Tree.fill_ok h⟩
  | resize length => exact .inl ⟨rfl, _, (Except.ok.inj h).symm⟩
  | rehash => exact .inr ⟨rfl, h⟩

theorem Tree.after_keeps (H : Hasher D) (t : Tree D) (e : Edit) :
    (t.after H e).size = t.size ∧ (t.after H e).shape = t.shape := by
  unfold Tree.after
  cases he : e.apply H t with
  | error => exact ⟨rfl, rfl⟩
  | ok changed =>
    rcases Edit.apply_cases .empty he with ⟨-, buffer, rfl⟩ | ⟨-, hr⟩
    · exact ⟨rfl, rfl⟩
    · obtain ⟨-, levels, rfl, -⟩ := Tree.rehash_ok hr
      exact ⟨rfl, rfl⟩

theorem Tree.run_keeps (H : Hasher D) (t : Tree D) (edits : List Edit) :
    (t.run H edits).size = t.size ∧ (t.run H edits).shape = t.shape := by
  induction edits generalizing t with
  | nil => exact ⟨rfl, rfl⟩
  | cons e rest ih =>
    obtain ⟨hsize, hshape⟩ := t.after_keeps H e
    obtain ⟨hsize', hshape'⟩ := ih (t.after H e)
    exact ⟨hsize'.trans hsize, hshape'.trans hshape⟩

theorem Edit.hashed_of_error {e : Edit} {fault : Fault} (h : e.apply H t = .error fault) :
    e.hashed t data = data := by
  cases e with
  | rehash =>
    simp only [Edit.apply, Tree.rehash] at h
    split at h
    · cases h
    · next hvisible => exact if_neg hvisible
  | _ => rfl

namespace Tree

theorem Remembers.after (h : t.Remembers H data) (e : Edit) :
    (t.after H e).Remembers H (e.hashed t data) := by
  unfold Tree.after
  cases he : e.apply H t with
  | error fault =>
    rw [Edit.hashed_of_error he]
    exact h
  | ok changed =>
    rcases Edit.apply_cases data he with ⟨hdata, buffer, rfl⟩ | ⟨rfl, hr⟩
    · rw [hdata]
      exact h
    · obtain ⟨hvisible, levels, rfl, hpos, hlevels⟩ := rehash_ok hr
      have hhashed : Edit.rehash.hashed t data = t.buffer.bytes.extract 0 t.size :=
        if_pos hvisible
      have hle := t.buffer.visible_le
      rw [hhashed]
      refine ⟨hpos, ?_, hlevels⟩
      simp only [ByteArray.size_extract]
      omega

theorem Reached.remembers (h : t.Reached H data) : t.Remembers H data := by
  induction h with
  | build h => exact (build_ok h).2.2
  | edit e _ ih => exact ih.after e

theorem exists_reached_after (H : Hasher D) (shape : Shape) (buffer : Buffer)
    (hb : 0 < shape.blockSize) (hd : 0 < buffer.view.size) (e : Edit) :
    ∃ t₀ t, Tree.build H shape buffer = .ok t₀ ∧ t = t₀.after H e ∧ t.shape = shape ∧
      t.Reached H (e.hashed t₀ buffer.view) := by
  obtain ⟨t₀, ht₀⟩ := build_eq_ok H hb hd
  refine ⟨t₀, _, ht₀, rfl, ?_, (Reached.build ht₀).edit e⟩
  rw [(t₀.after_keeps H e).2, (build_ok ht₀).1]

-- ---------------------------------------------------------------------------
-- The rows that are remembered
-- ---------------------------------------------------------------------------

theorem Remembers.size_eq (h : t.Remembers H data) : t.size = data.size := h.choose_spec.1.symm

theorem Remembers.built (h : t.Remembers H data) : t.levels.Built H t.shape.oddPolicy := by
  obtain ⟨hpos, -, hlevels⟩ := h
  rw [hlevels]
  exact Levels.built_build H _ _ _

theorem Remembers.leaves_eq (h : t.Remembers H data) :
    t.levels.leaves = leafRow H t.shape.blockSize data := by
  obtain ⟨hpos, -, hlevels⟩ := h
  rw [hlevels]
  exact Levels.leaves_build H _ _ _

theorem Remembers.levels_eq (h : t.Remembers H data) {shape : Shape} (hshape : t.shape = shape)
    (hb : 0 < shape.blockSize) (hd : 0 < data.size) :
    t.levels = .ofBytes H shape data hb hd := by
  subst hshape
  obtain ⟨_, -, hlevels⟩ := h
  exact hlevels

theorem exists_build_ofBytes (H : Hasher D) (shape : Shape) (data : ByteArray)
    (hb : 0 < shape.blockSize) (hd : 0 < data.size) :
    ∃ t, Tree.build H shape (.ofBytes data) = .ok t ∧ t.shape = shape ∧
      t.levels = .ofBytes H shape data hb hd := by
  obtain ⟨t, ht⟩ : ∃ t, Tree.build H shape (.ofBytes data) = .ok t :=
    build_eq_ok H hb (by rwa [Buffer.view_ofBytes])
  obtain ⟨hshape, -, hrem⟩ := build_ofBytes_ok ht
  exact ⟨t, ht, hshape, hrem.levels_eq hshape hb hd⟩

theorem Remembers.blockCount_eq (h : t.Remembers H data) :
    t.blockCount = BlockTree.blockCount data.size t.shape.blockSize := by
  rw [Tree.blockCount, h.leaves_eq, size_leafRow]

theorem Remembers.start_lt_size (h : t.Remembers H data) {i : Nat} (hi : i < t.blockCount) :
    i * t.shape.blockSize < t.size := by
  rwa [h.size_eq, ← lt_blockCount_iff t.blockSize_pos, ← h.blockCount_eq]

theorem Remembers.leaf?_eq (h : t.Remembers H data) {i : Nat} (hi : i < t.blockCount) :
    t.leaf? i = some (H.leaf (blockBytes t.shape.blockSize data i)) := by
  rw [leaf?, h.leaves_eq, getElem?_leafRow H _ _ (h.blockCount_eq ▸ hi)]

end Tree

-- ---------------------------------------------------------------------------
-- Bytes that edits leave alone
-- ---------------------------------------------------------------------------

/-- Whether an edit of a tree of some size is about the byte at a position. -/
def Edit.Touches (size p : Nat) : Edit → Prop
  | .write start data => start ≤ p ∧ p < start + data.size
  | .flip start _ => p = start
  | .fill _ => p < size
  | .resize _ => False
  | .rehash => False

theorem Buffer.getElem?_splice (b : Buffer) {start : Nat} (h : start + data.size ≤ b.bytes.size)
    (p : Nat) :
    (b.splice start data h).bytes.data[p]? =
      if start ≤ p ∧ p < start + data.size then data.data[p - start]? else b.bytes.data[p]? :=
  getElem?_copySlice (Nat.le_refl _) h p

namespace Tree

theorem write_untouched {start : Nat} (h : t.write start data = .ok u)
    (hp : ¬ (start ≤ p ∧ p < start + data.size)) :
    u.buffer.bytes.data[p]? = t.buffer.bytes.data[p]? := by
  unfold write at h
  split at h
  · next hfits =>
    cases h
    rw [t.buffer.getElem?_splice, if_neg hp]
  · cases h

theorem write_fits {start : Nat} (h : t.write start data = .ok u) :
    start + data.size ≤ t.size := by
  unfold write at h
  split at h
  · next hfits => exact hfits.2
  · cases h

end Tree

namespace Edit

variable {e : Edit}

/-- An edit is refused, or it is a write of some bytes, all of which it is about and all of which
belong to the tree, or it changes no byte. -/
theorem write_or_keeps (h : e.apply H t = .ok u) :
    (∃ start bytes, t.write start bytes = .ok u ∧
      ∀ p, start ≤ p → p < start + bytes.size → e.Touches t.size p) ∨
    u.buffer.bytes = t.buffer.bytes := by
  cases e with
  | write start bytes => exact .inl ⟨start, bytes, h, fun p hstart hstop => ⟨hstart, hstop⟩⟩
  | flip start mask =>
    obtain ⟨⟨byte, v⟩, hflip, rfl⟩ := map_eq_ok.mp h
    unfold Tree.flip at hflip
    split at hflip
    · obtain ⟨w, hwrite, hw⟩ := bind_eq_ok.mp hflip
      obtain ⟨-, rfl⟩ := Prod.mk.inj (pure_eq_ok.mp hw)
      refine .inl ⟨start, _, hwrite, fun p hstart hstop => ?_⟩
      have hone : [t.buffer.bytes[start] ^^^ mask].toByteArray.size = 1 := by simp
      exact Nat.le_antisymm (by omega) hstart
    · cases hflip
  | fill seed =>
    obtain ⟨old, -, hwrite⟩ := bind_eq_ok.mp h
    have hfits := Tree.write_fits hwrite
    exact .inl ⟨0, _, hwrite, fun p _ hstop => Nat.lt_of_lt_of_le hstop hfits⟩
  | resize length =>
    cases h
    exact .inr rfl
  | rehash =>
    obtain ⟨-, levels, rfl, -⟩ := Tree.rehash_ok h
    exact .inr rfl

theorem apply_untouched (h : e.apply H t = .ok u) (hp : ¬ e.Touches t.size p) :
    u.buffer.bytes.data[p]? = t.buffer.bytes.data[p]? := by
  rcases write_or_keeps h with ⟨start, bytes, hwrite, htouches⟩ | hkeeps
  · exact Tree.write_untouched hwrite fun hin => hp (htouches p hin.1 hin.2)
  · rw [hkeeps]

theorem apply_tail (h : e.apply H t = .ok u) (hp : t.size ≤ p) :
    u.buffer.bytes.data[p]? = t.buffer.bytes.data[p]? := by
  rcases write_or_keeps h with ⟨start, bytes, hwrite, -⟩ | hkeeps
  · have hfits := Tree.write_fits hwrite
    exact Tree.write_untouched hwrite fun hin => by omega
  · rw [hkeeps]

end Edit

namespace Tree

theorem after_untouched (H : Hasher D) (t : Tree D) {e : Edit} (hp : ¬ e.Touches t.size p) :
    (t.after H e).buffer.bytes.data[p]? = t.buffer.bytes.data[p]? := by
  unfold after
  cases he : e.apply H t with
  | error => rfl
  | ok changed => exact Edit.apply_untouched he hp

theorem visible_after_write (H : Hasher D) (t : Tree D) (start : Nat) (data : ByteArray) :
    (t.after H (.write start data)).buffer.visible = t.buffer.visible := by
  unfold after
  cases he : Edit.apply H t (.write start data) with
  | error => rfl
  | ok changed =>
    simp only [Edit.apply, write] at he
    split at he <;> cases he
    rfl

theorem after_tail (H : Hasher D) (t : Tree D) (e : Edit) (hp : t.size ≤ p) :
    (t.after H e).buffer.bytes.data[p]? = t.buffer.bytes.data[p]? := by
  unfold after
  cases he : e.apply H t with
  | error => rfl
  | ok changed => exact Edit.apply_tail he hp

theorem run_untouched (H : Hasher D) (t : Tree D) {edits : List Edit}
    (hp : ∀ e ∈ edits, ¬ e.Touches t.size p) :
    (t.run H edits).buffer.bytes.data[p]? = t.buffer.bytes.data[p]? := by
  induction edits generalizing t with
  | nil => rfl
  | cons e rest ih =>
    have hrest : ∀ e' ∈ rest, ¬ e'.Touches (t.after H e).size p := by
      rw [(t.after_keeps H e).1]
      exact fun e' he' => hp e' (List.mem_cons_of_mem _ he')
    exact (ih _ hrest).trans (t.after_untouched H (hp e List.mem_cons_self))

def UpToDate (H : Hasher D) (t : Tree D) : Prop :=
  t.Remembers H (t.buffer.bytes.extract 0 t.size)

theorem upToDate_of_build {shape : Shape} {buffer : Buffer}
    (h : Tree.build H shape buffer = .ok t) : t.UpToDate H := by
  obtain ⟨-, rfl, hrem⟩ := build_ok h
  have hsize : t.size = t.buffer.visible := hrem.size_eq.trans t.buffer.size_view
  unfold UpToDate
  rwa [hsize]

theorem upToDate_of_rehash (h : t.rehash H = .ok u) : u.UpToDate H := by
  obtain ⟨hvisible, levels, rfl, hpos, hlevels⟩ := rehash_ok h
  have hle := t.buffer.visible_le
  refine ⟨hpos, ?_, hlevels⟩
  simp only [ByteArray.size_extract]
  omega

theorem rehash_eq_ok (H : Hasher D) (hvisible : t.size ≤ t.buffer.visible) :
    ∃ u, t.rehash H = .ok u :=
  ⟨_, dif_pos hvisible⟩

end Tree

end BlockTree
