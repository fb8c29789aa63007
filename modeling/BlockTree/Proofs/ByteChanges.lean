import Mathlib
import BlockTree.Hasher.Kind
import BlockTree.Proofs.Binding

/-!
# FNV digests tell single byte changes

Each step of FNV-1a can be undone: the prime is odd, so it has an inverse modulo 2^64. So a byte
string permutes the states, and two states that differ once differ ever after. Byte strings that
differ in one byte have different digests, without any assumption on the hash:
`Fnv.leaf_ne_of_differOnlyAt`.
-/

namespace BlockTree

/-- Whether two byte strings of one size differ at a position and at no other. -/
def DifferOnlyAt (p : Nat) (a b : ByteArray) : Prop :=
  a.size = b.size ∧ ∀ q, a.data[q]? ≠ b.data[q]? ↔ q = p

variable {a b x y data other : ByteArray} {p i : Nat}

theorem DifferOnlyAt.getElem?_eq (h : DifferOnlyAt p a b) {q : Nat} (hq : q ≠ p) :
    a.data.toList[q]? = b.data.toList[q]? := by
  simpa only [Array.getElem?_toList] using not_not.mp (mt (h.2 q).mp hq)

theorem DifferOnlyAt.lt_size (h : DifferOnlyAt p a b) : p < a.size := by
  by_contra hp
  have ha : a.data.size ≤ p := not_lt.mp hp
  have hb : b.data.size ≤ p := Nat.le_trans (Nat.le_of_eq h.1.symm) ha
  refine (h.2 p).mpr rfl ?_
  rw [Array.getElem?_eq_none ha, Array.getElem?_eq_none hb]

theorem DifferOnlyAt.exists_split (h : DifferOnlyAt p a b) : ∃ before after u v, u ≠ v ∧
    a.data.toList = before ++ u :: after ∧ b.data.toList = before ++ v :: after := by
  have hpa : p < a.data.toList.length := h.lt_size
  have hpb : p < b.data.toList.length := Nat.lt_of_lt_of_eq h.lt_size h.1
  have hbefore : b.data.toList.take p = a.data.toList.take p := by
    refine List.ext_getElem? fun q => ?_
    rw [List.getElem?_take, List.getElem?_take]
    split
    · next hq => exact (h.getElem?_eq (Nat.ne_of_lt hq)).symm
    · rfl
  have hafter : b.data.toList.drop (p + 1) = a.data.toList.drop (p + 1) := by
    refine List.ext_getElem? fun q => ?_
    rw [List.getElem?_drop, List.getElem?_drop]
    exact (h.getElem?_eq (by omega)).symm
  refine ⟨a.data.toList.take p, a.data.toList.drop (p + 1), a.data.toList[p], b.data.toList[p],
    ?_, ?_, ?_⟩
  · intro hsame
    refine (h.2 p).mpr rfl ?_
    rw [← Array.getElem?_toList, ← Array.getElem?_toList, List.getElem?_eq_getElem hpa,
      List.getElem?_eq_getElem hpb, hsame]
  · rw [List.getElem_cons_drop, List.take_append_drop]
  · rw [← hbefore, ← hafter, List.getElem_cons_drop, List.take_append_drop]

namespace Fnv

-- ---------------------------------------------------------------------------
-- States
-- ---------------------------------------------------------------------------

def primeInverse : UInt64 := 0xce965057aff6957b

theorem prime_mul_primeInverse : prime * primeInverse = 1 := by decide

theorem primeInverse_mul_prime : primeInverse * prime = 1 := by decide

def release (state : UInt64) (byte : UInt8) : UInt64 :=
  state * primeInverse ^^^ byte.toUInt64

theorem release_absorb (state : UInt64) (byte : UInt8) :
    release (absorb state byte) byte = state := by
  rw [release, absorb, UInt64.mul_assoc, prime_mul_primeInverse, UInt64.mul_one, UInt64.xor_assoc,
    UInt64.xor_self, UInt64.xor_zero]

theorem absorb_release (state : UInt64) (byte : UInt8) :
    absorb (release state byte) byte = state := by
  rw [absorb, release, UInt64.xor_assoc, UInt64.xor_self, UInt64.xor_zero, UInt64.mul_assoc,
    primeInverse_mul_prime, UInt64.mul_one]

theorem absorb_bijective (byte : UInt8) : Function.Bijective (absorb · byte) :=
  Function.bijective_iff_has_inverse.mpr
    ⟨(release · byte), fun state => release_absorb state byte,
      fun state => absorb_release state byte⟩

theorem update_bijective (bytes : List UInt8) : Function.Bijective (update · bytes) := by
  induction bytes with
  | nil => exact Function.bijective_id
  | cons byte rest ih => exact ih.comp (absorb_bijective byte)

theorem absorb_injective (state : UInt64) : Function.Injective (absorb state) := by
  intro b c h
  have hxor : state ^^^ b.toUInt64 = state ^^^ c.toUInt64 := by
    have hunmul := congrArg (· * primeInverse) h
    simpa only [absorb, UInt64.mul_assoc, prime_mul_primeInverse, UInt64.mul_one] using hunmul
  have hword : b.toUInt64 = c.toUInt64 := by
    simpa only [← UInt64.xor_assoc, UInt64.xor_self, UInt64.zero_xor] using
      congrArg (state ^^^ ·) hxor
  exact UInt8.toUInt64_inj.mp hword

-- ---------------------------------------------------------------------------
-- Digests
-- ---------------------------------------------------------------------------

theorem leaf_append (x s : ByteArray) : leaf (x ++ s) = update (leaf x) s.data.toList := by
  rw [leaf, ByteArray.data_append, Array.toList_append, update_append, leaf]

theorem leaf_append_eq_iff (s : ByteArray) : leaf (x ++ s) = leaf (y ++ s) ↔ leaf x = leaf y := by
  rw [leaf_append, leaf_append]
  exact (update_bijective s.data.toList).injective.eq_iff

/-- The bytes before the place lead to one state, the two bytes there to two states, and the bytes
after it keep these apart. -/
theorem leaf_ne_of_differOnlyAt (h : DifferOnlyAt p a b) : leaf a ≠ leaf b := by
  obtain ⟨before, after, u, v, hne, ha, hb⟩ := h.exists_split
  rw [leaf, leaf, ha, hb, update_append, update_append, update_cons, update_cons]
  exact fun hsame => hne (absorb_injective _ ((update_bijective after).injective hsame))

end Fnv

-- ---------------------------------------------------------------------------
-- Trees
-- ---------------------------------------------------------------------------

variable {D : Type} {H : Hasher D}

theorem blockBytes_zero_of_le {blockSize : Nat} (h : data.size ≤ blockSize) :
    blockBytes blockSize data 0 = data := by
  simp only [blockBytes, Block.nth, Block.bytes, Nat.zero_mul, Nat.zero_add, Nat.sub_zero,
    Nat.min_eq_right h, ByteArray.extract_zero_size]

theorem Levels.top_ofBytes_of_le {shape : Shape} (hb : 0 < shape.blockSize) (hd : 0 < data.size)
    (h : data.size ≤ shape.blockSize) : (Levels.ofBytes H shape data hb hd).top = H.leaf data := by
  have hcount : blockCount data.size shape.blockSize = 1 := by
    rw [blockCount]
    exact Nat.div_eq_of_lt_le (by omega) (by omega)
  have hfirst := getElem?_leafRow H shape.blockSize data (i := 0) (by omega)
  rw [blockBytes_zero_of_le h] at hfirst
  rw [ofBytes, build_of_size_eq_one _ _ _ (by rw [size_leafRow, hcount]), top]
  exact Option.some.inj ((Array.getElem?_eq_getElem _).symm.trans hfirst)

/-- Of the blocks, only the one in which the position lies differs, at the place of the position in
it. -/
theorem DifferOnlyAt.block {blockSize : Nat} (h : DifferOnlyAt p a b) (hb : 0 < blockSize) :
    DifferOnlyAt (p % blockSize) (blockBytes blockSize a (p / blockSize))
      (blockBytes blockSize b (p / blockSize)) := by
  constructor
  · rw [size_blockBytes, size_blockBytes, h.1]
  · intro q
    have hsum := Nat.div_add_mod' p blockSize
    have hlt := Nat.mod_lt p hb
    rw [getElem?_blockBytes, getElem?_blockBytes]
    split
    · rw [h.2]
      omega
    · simp only [ne_eq, not_true_eq_false, false_iff]
      omega

namespace Tree

variable {t u : Tree D}

theorem Remembers.verify_eq_true_iff_of_le [DecidableEq D] (h : t.Remembers H data)
    (hsingle : t.size ≤ t.shape.blockSize) (hsize : other.size = t.size) :
    t.verify H other = true ↔ H.leaf other = H.leaf data := by
  obtain ⟨hpos, hdata, hlevels⟩ := h
  have hroot : t.root = H.leaf data := by
    rw [root, hlevels]
    exact Levels.top_ofBytes_of_le _ hpos (hdata ▸ hsingle)
  have htop := Levels.top_ofBytes_of_le (H := H) t.blockSize_pos (hsize ▸ t.size_pos)
    (hsize ▸ hsingle)
  rw [verify_eq_true_iff, hroot]
  constructor
  · rintro ⟨_, hsame⟩
    exact htop.symm.trans hsame
  · exact fun hsame => ⟨hsize, htop.trans hsame⟩

theorem differOnlyAt_of_write {byte : UInt8} (h : t.write p [byte].toByteArray = .ok u)
    (hbyte : t.buffer.bytes.data[p]? ≠ some byte) :
    DifferOnlyAt p (t.buffer.bytes.extract 0 t.size) (u.buffer.bytes.extract 0 t.size) := by
  have hfits := write_fits h
  have hsize : [byte].toByteArray.size = 1 := by simp
  unfold write at h
  split at h
  · next hall =>
    cases h
    have hbytes : t.size ≤ t.buffer.bytes.size := Nat.le_trans hall.1 t.buffer.visible_le
    constructor
    · simp only [ByteArray.size_extract, Buffer.size_splice]
    · intro q
      rw [getElem?_extract_zero, getElem?_extract_zero]
      by_cases hq : q = p
      · subst hq
        rw [if_pos (by omega), if_pos (by omega), Buffer.getElem?_splice, if_pos (by omega)]
        simp [hbyte]
      · have hother : ¬ (p ≤ q ∧ q < p + [byte].toByteArray.size) := by omega
        rw [Buffer.getElem?_splice, if_neg hother]
        simp [hq]
  · cases h

theorem leaf?_of_rehash (h : t.rehash H = .ok u)
    (hi : i < BlockTree.blockCount t.size t.shape.blockSize) :
    u.leaf? i = some (H.leaf (blockBytes t.shape.blockSize
      (t.buffer.bytes.extract 0 t.size) i)) := by
  have hnow := upToDate_of_rehash h
  obtain ⟨-, levels, rfl, -⟩ := rehash_ok h
  refine Remembers.leaf?_eq hnow ?_
  rwa [hnow.blockCount_eq, ← hnow.size_eq]

end Tree

namespace Fnv

/-- FNV digests and single bytes. A byte string permutes the states, so byte strings of one size
that differ in one byte have different digests, and the bytes that follow change nothing about
whether digests are equal. A tree of one block verifies no byte string that differs in one byte from
what it hashed. In a tree of any number of blocks, a block that differs in one byte from what was
hashed gets another digest at the next rehash. Writing a byte other than the one that is there gives
its block another digest than a rehash alone would give, which for a tree that is up to date is the
digest that it has. -/
theorem byte_change_detected :
    (∀ bytes, Function.Bijective (update · bytes)) ∧
    (∀ p a b, DifferOnlyAt p a b → leaf a ≠ leaf b) ∧
    (∀ x y s, leaf (x ++ s) = leaf (y ++ s) ↔ leaf x = leaf y) ∧
    (∀ (t : Tree UInt64) (data : ByteArray), t.Reached algorithm.toHasher data →
      t.size ≤ t.shape.blockSize → ∀ p other, DifferOnlyAt p data other →
      t.verify algorithm.toHasher other = false) ∧
    (∀ (t : Tree UInt64) (data : ByteArray), t.Reached algorithm.toHasher data →
      t.size ≤ t.buffer.visible → ∀ i p,
      DifferOnlyAt p (blockBytes t.shape.blockSize data i)
        (blockBytes t.shape.blockSize (t.buffer.bytes.extract 0 t.size) i) →
      ∃ v d e, t.rehash algorithm.toHasher = .ok v ∧ t.leaf? i = some d ∧ v.leaf? i = some e ∧
        d ≠ e) ∧
    ∀ t : Tree UInt64, t.size ≤ t.buffer.visible → ∀ p < t.size, ∀ byte,
      t.buffer.bytes.data[p]? ≠ some byte →
      ∃ r u v d e, t.rehash algorithm.toHasher = .ok r ∧
        t.write p [byte].toByteArray = .ok u ∧ u.rehash algorithm.toHasher = .ok v ∧
        r.leaf? (p / t.shape.blockSize) = some d ∧ v.leaf? (p / t.shape.blockSize) = some e ∧
        d ≠ e ∧ (t.UpToDate algorithm.toHasher → t.leaf? (p / t.shape.blockSize) = some d) := by
  refine ⟨update_bijective, fun p a b => leaf_ne_of_differOnlyAt, fun x y => leaf_append_eq_iff,
    ?_, ?_, ?_⟩
  · intro t data hreached hsingle p other hdiffer
    have hrem := hreached.remembers
    have hsize : other.size = t.size := hdiffer.1.symm.trans hrem.size_eq.symm
    refine Bool.eq_false_iff.mpr fun hverify => ?_
    have hleaf := (hrem.verify_eq_true_iff_of_le hsingle hsize).mp hverify
    exact leaf_ne_of_differOnlyAt hdiffer hleaf.symm
  · intro t data hreached hvisible i p hdiffer
    have hrem := hreached.remembers
    obtain ⟨v, hv⟩ := Tree.rehash_eq_ok algorithm.toHasher hvisible
    have hi : i < blockCount t.size t.shape.blockSize := by
      have hp := hdiffer.lt_size
      rw [size_blockBytes] at hp
      rw [lt_blockCount_iff t.blockSize_pos, hrem.size_eq]
      omega
    have hd := hrem.leaf?_eq (i := i) (by rwa [hrem.blockCount_eq, ← hrem.size_eq])
    exact ⟨v, _, _, hv, hd, Tree.leaf?_of_rehash hv hi, leaf_ne_of_differOnlyAt hdiffer⟩
  · intro t hvisible p hp byte hbyte
    have hfit : p + [byte].toByteArray.size ≤ t.size := by simpa using hp
    obtain ⟨r, hr⟩ := Tree.rehash_eq_ok algorithm.toHasher hvisible
    obtain ⟨h, hu⟩ := Tree.write_eq_ok hvisible hfit
    obtain ⟨v, hv⟩ := Tree.rehash_eq_ok algorithm.toHasher
      (t := { t with buffer := t.buffer.splice p [byte].toByteArray h }) hvisible
    have hdiffer := (Tree.differOnlyAt_of_write hu hbyte).block t.blockSize_pos
    have hi : p / t.shape.blockSize < blockCount t.size t.shape.blockSize :=
      div_lt_blockCount t.blockSize_pos hp
    have hd := Tree.leaf?_of_rehash hr hi
    have he := Tree.leaf?_of_rehash hv hi
    refine ⟨r, _, v, _, _, hr, hu, hv, hd, he, leaf_ne_of_differOnlyAt hdiffer, fun hnow => ?_⟩
    refine Tree.Remembers.leaf?_eq hnow ?_
    rwa [Tree.Remembers.blockCount_eq hnow, ← Tree.Remembers.size_eq hnow]

/-- Three bytes in one block, of which the middle one is asked for as another one and is then
written. -/
theorem byte_change_detected_middle :
    ∃ t u v d e, Tree.build algorithm.toHasher ⟨4, .promote⟩ (.ofBytes [1, 2, 3].toByteArray) =
        .ok t ∧
      leaf [1, 2, 3].toByteArray ≠ leaf [1, 9, 3].toByteArray ∧
      t.verify algorithm.toHasher [1, 9, 3].toByteArray = false ∧
      t.write 1 [9].toByteArray = .ok u ∧ u.rehash algorithm.toHasher = .ok v ∧
      t.leaf? 0 = some d ∧ v.leaf? 0 = some e ∧ d ≠ e ∧ u.leaf? 0 ≠ v.leaf? 0 := by
  obtain ⟨-, hleaf, -, hverify, hedited, hwrite⟩ := byte_change_detected
  obtain ⟨t, ht⟩ : ∃ t, Tree.build algorithm.toHasher ⟨4, .promote⟩
      (.ofBytes [1, 2, 3].toByteArray) = .ok t := Tree.build_eq_ok _ (by decide) (by decide)
  obtain ⟨hshape, hbuffer, hrem⟩ := Tree.build_ofBytes_ok ht
  have hsize : t.size = 3 := hrem.size_eq
  have hvisible : t.size ≤ t.buffer.visible := by
    rw [hsize, hbuffer]
    decide
  have hbyte : t.buffer.bytes.data[1]? ≠ some 9 := by
    rw [hbuffer]
    decide
  have hpresent : t.buffer.bytes.extract 0 t.size = [1, 2, 3].toByteArray := by
    rw [hbuffer, hsize]
    decide
  have hblock : 1 / t.shape.blockSize = 0 := by
    rw [hshape]
    decide
  have hdiffer : DifferOnlyAt 1 [1, 2, 3].toByteArray [1, 9, 3].toByteArray := by
    refine ⟨rfl, fun q => ?_⟩
    rcases q with _ | _ | _ | q <;> simp
  have hreached : t.Reached algorithm.toHasher [1, 2, 3].toByteArray := by
    simpa using Tree.Reached.build ht
  obtain ⟨r, u, v, d, e, -, hu, hv, -, hve, hne, htd⟩ :=
    hwrite t hvisible 1 (by rw [hsize]; decide) 9 hbyte
  rw [hblock] at hve htd
  have hedit : t.after algorithm.toHasher (.write 1 [9].toByteArray) = u := by
    rw [Tree.after, Edit.apply, hu]
  have hblocks := (Tree.differOnlyAt_of_write hu hbyte).block t.blockSize_pos
  rw [hpresent, hblock] at hblocks
  obtain ⟨v', d', e', hv', hud', hve', hne'⟩ := hedited u [1, 2, 3].toByteArray
    (hedit ▸ hreached.edit (.write 1 [9].toByteArray))
    (by
      have hfit : 1 + [9].toByteArray.size ≤ t.size := by
        rw [hsize]
        decide
      obtain ⟨h, hwritten⟩ := Tree.write_eq_ok hvisible hfit
      obtain rfl := Except.ok.inj (hu.symm.trans hwritten)
      exact hvisible)
    0 (1 % t.shape.blockSize) (by
      obtain ⟨buffer, rfl⟩ := Tree.write_ok hu
      exact hblocks)
  obtain rfl : v = v' := Except.ok.inj (hv.symm.trans hv')
  refine ⟨t, u, v, d, e, ht, hleaf 1 _ _ hdiffer, ?_, hu, hv, htd (Tree.upToDate_of_build ht), hve,
    hne, ?_⟩
  · exact hverify t _ hreached (by rw [hsize, hshape]; decide) 1 _ hdiffer
  · rw [hud', hve']
    exact fun hsame => hne' (Option.some.inj hsame)

end Fnv

end BlockTree
