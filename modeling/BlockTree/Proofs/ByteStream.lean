import Mathlib.Algebra.Order.Ring.Nat
import BlockTree.Hasher.Kind
import BlockTree.Proofs.Blocks

/-!
# Streams by position

Filling writes at each position the byte that the stream of the seed has there, whatever the buffer
held and however long it is: `getElem?_fill`. So a shorter buffer gets the first bytes of a longer
one, and from a whole number of words on the stream is that of a later seed. The mixer permutes the
words, so no complete word stands twice in a stream or at the same place in two streams.
-/

namespace BlockTree

namespace SplitMix

-- ---------------------------------------------------------------------------
-- Shifts
-- ---------------------------------------------------------------------------

def unshift (s z : UInt64) : UInt64 :=
  z ^^^ z >>> s ^^^ z >>> s >>> s

/-- Whether three shifts leave nothing of a word. -/
def Wide (s : UInt64) : Prop :=
  22 ≤ s.toNat ∧ s.toNat < 64

instance (s : UInt64) : Decidable (Wide s) :=
  inferInstanceAs (Decidable (_ ∧ _))

variable {s : UInt64}

theorem shiftRight_thrice (hs : Wide s) (z : UInt64) : z >>> s >>> s >>> s = 0 := by
  refine UInt64.toNat_inj.mp ?_
  have hz : z.toNat < 2 ^ (s.toNat + s.toNat + s.toNat) := by
    have hbits : 64 ≤ s.toNat + s.toNat + s.toNat := by
      have := hs.1
      omega
    exact Nat.lt_of_lt_of_le z.toNat_lt (Nat.pow_le_pow_right (by decide) hbits)
  simp only [UInt64.toNat_shiftRight, Nat.mod_eq_of_lt hs.2, ← Nat.shiftRight_add]
  rw [Nat.shiftRight_eq_div_pow, Nat.div_eq_of_lt hz, UInt64.toNat_zero]

theorem unshift_xor (hs : Wide s) (z : UInt64) : unshift s (z ^^^ z >>> s) = z := by
  rw [unshift, UInt64.shiftRight_xor, UInt64.shiftRight_xor, shiftRight_thrice hs, UInt64.xor_zero,
    UInt64.xor_assoc, UInt64.xor_assoc, UInt64.xor_assoc, UInt64.xor_self, UInt64.xor_zero,
    UInt64.xor_self, UInt64.xor_zero]

theorem xor_unshift (hs : Wide s) (z : UInt64) : unshift s z ^^^ unshift s z >>> s = z := by
  rw [unshift, UInt64.shiftRight_xor, UInt64.shiftRight_xor, shiftRight_thrice hs, UInt64.xor_zero,
    UInt64.xor_assoc z, UInt64.xor_assoc z, UInt64.xor_self, UInt64.xor_zero]

-- ---------------------------------------------------------------------------
-- The inverse
-- ---------------------------------------------------------------------------

def unmix (x : UInt64) : UInt64 :=
  let z := unshift 31 x
  let z := unshift 27 (z * 0x319642b2d24d8ec3)
  let z := unshift 30 (z * 0x96de1b173f119089)
  z - 0x9e3779b97f4a7c15

theorem unmix_mix (x : UInt64) : unmix (mix x) = x := by
  have hfirst : (0xbf58476d1ce4e5b9 : UInt64) * 0x96de1b173f119089 = 1 := by decide
  have hsecond : (0x94d049bb133111eb : UInt64) * 0x319642b2d24d8ec3 = 1 := by decide
  rw [mix, unmix, unshift_xor (by decide), UInt64.mul_assoc, hsecond, UInt64.mul_one,
    unshift_xor (by decide), UInt64.mul_assoc, hfirst, UInt64.mul_one, unshift_xor (by decide),
    UInt64.add_sub_cancel]

theorem mix_unmix (x : UInt64) : mix (unmix x) = x := by
  have hfirst : (0x96de1b173f119089 : UInt64) * 0xbf58476d1ce4e5b9 = 1 := by decide
  have hsecond : (0x319642b2d24d8ec3 : UInt64) * 0x94d049bb133111eb = 1 := by decide
  rw [mix, unmix, UInt64.sub_add_cancel, xor_unshift (by decide), UInt64.mul_assoc, hfirst,
    UInt64.mul_one, xor_unshift (by decide), UInt64.mul_assoc, hsecond, UInt64.mul_one,
    xor_unshift (by decide)]

theorem mix_inj {x y : UInt64} : mix x = mix y ↔ x = y := by
  constructor
  · intro h
    rw [← unmix_mix x, h, unmix_mix]
  · exact congrArg mix

-- ---------------------------------------------------------------------------
-- Words of a stream
-- ---------------------------------------------------------------------------

theorem word_inj_seed {seed other : UInt64} {i : Nat} :
    word seed i = word other i ↔ seed = other := by
  rw [word, word, mix_inj, UInt64.add_left_inj]

theorem word_inj_index {seed : UInt64} {i j : Nat} :
    word seed i = word seed j ↔ i % wordLimit = j % wordLimit := by
  rw [word, word, mix_inj, UInt64.add_right_inj, ← UInt64.toNat_inj, UInt64.toNat_ofNat',
    UInt64.toNat_ofNat']
  rfl

variable {seed other : UInt64} {buffer a b : ByteArray} {p i j k : Nat}

-- ---------------------------------------------------------------------------
-- One word
-- ---------------------------------------------------------------------------

theorem getElem?_toByteArray_wordBytes (w : UInt64) (hi : i < 8) :
    (wordBytes w).toByteArray.data[i]? = some (w >>> UInt64.ofNat (8 * i)).toUInt8 := by
  rw [← Array.getElem?_toList, List.toList_data_toByteArray, getElem?_wordBytes w hi]

theorem toNat_byteAt (seed : UInt64) (p : Nat) :
    (byteAt seed p).toNat = (word seed (p / 8)).toNat / 256 ^ (p % 8) % 256 := by
  have hlt : p % 8 < 8 := Nat.mod_lt p (by decide)
  have hshift : 8 * (p % 8) % 2 ^ 64 % 64 = 8 * (p % 8) := by omega
  rw [byteAt, UInt64.toNat_toUInt8, UInt64.toNat_shiftRight, UInt64.toNat_ofNat', hshift,
    Nat.shiftRight_eq_div_pow, Nat.pow_mul]

theorem word_eq (seed : UInt64) (i : Nat) :
    word seed i = mix (UInt64.ofNat ((seed.toNat + i) % wordLimit)) := by
  refine congrArg mix (UInt64.toNat_inj.mp ?_)
  simp only [UInt64.toNat_add, UInt64.toNat_ofNat']
  simp only [wordLimit]
  omega

/-- A stream from a later word on is the stream of a later seed. -/
theorem byteAt_add (seed : UInt64) (k p : Nat) :
    byteAt seed (8 * k + p) = byteAt (UInt64.ofNat ((seed.toNat + k) % wordLimit)) p := by
  have hdiv : (8 * k + p) / 8 = k + p / 8 := by omega
  have hmod : (8 * k + p) % 8 = p % 8 := by omega
  have hword : word seed (k + p / 8) =
      word (UInt64.ofNat ((seed.toNat + k) % wordLimit)) (p / 8) := by
    rw [word_eq, word_eq]
    congr 2
    simp only [UInt64.toNat_ofNat', wordLimit]
    omega
  rw [byteAt, byteAt, hdiv, hmod, hword]

-- ---------------------------------------------------------------------------
-- Filling
-- ---------------------------------------------------------------------------

def writeWord (seed : UInt64) (buffer : ByteArray) (i : Nat) : ByteArray :=
  (wordBytes (word seed i)).toByteArray.copySlice 0 buffer (8 * i) (min 8 (buffer.size - 8 * i))

theorem fillFrom_of_lt (h : 8 * i < buffer.size) :
    fillFrom seed buffer i = fillFrom seed (writeWord seed buffer i) (i + 1) := by
  rw [fillFrom, if_pos h, writeWord]

theorem fillFrom_of_le (h : buffer.size ≤ 8 * i) : fillFrom seed buffer i = buffer := by
  rw [fillFrom, if_neg (Nat.not_lt.mpr h)]

theorem getElem?_writeWord (seed : UInt64) (h : 8 * i < buffer.size) (p : Nat) :
    (writeWord seed buffer i).data[p]? =
      if 8 * i ≤ p ∧ p < 8 * (i + 1) ∧ p < buffer.size then some (byteAt seed p)
      else buffer.data[p]? := by
  have hsize := size_wordBytes (word seed i)
  rw [writeWord, getElem?_copySlice (by omega) (by omega)]
  by_cases hp : 8 * i ≤ p ∧ p < 8 * (i + 1) ∧ p < buffer.size
  · have hdiv : p / 8 = i := by omega
    have hmod : p - 8 * i = p % 8 := by omega
    rw [if_pos (by omega), if_pos hp, hmod, getElem?_toByteArray_wordBytes _ (by omega), byteAt,
      hdiv]
  · rw [if_neg (by omega), if_neg hp]

theorem size_writeWord (seed : UInt64) (h : 8 * i < buffer.size) :
    (writeWord seed buffer i).size = buffer.size := by
  have hsize := size_wordBytes (word seed i)
  simp only [writeWord, ByteArray.copySlice_eq_append, ByteArray.size_append,
    ByteArray.size_extract, ByteArray.size_data]
  omega

/-- From a word on, each byte is that of the stream; the bytes before it stay. -/
theorem getElem?_fillFrom (seed : UInt64) (buffer : ByteArray) (i p : Nat) :
    (fillFrom seed buffer i).data[p]? =
      if 8 * i ≤ p ∧ p < buffer.size then some (byteAt seed p) else buffer.data[p]? := by
  induction hn : buffer.size - 8 * i using Nat.strongRecOn generalizing buffer i with
  | ind n ih =>
    rcases Nat.lt_or_ge (8 * i) buffer.size with h | h
    · have hsize := size_writeWord seed h
      rw [fillFrom_of_lt h, ih _ (by omega) _ _ rfl, getElem?_writeWord seed h, hsize]
      split
      · rw [if_pos (by omega)]
      · split
        · rw [if_pos (by omega)]
        · rw [if_neg (by omega)]
    · rw [fillFrom_of_le h, if_neg (by omega)]

theorem getElem?_fill (buffer : ByteArray) (seed : UInt64) (p : Nat) :
    (fill buffer seed).data[p]? = if p < buffer.size then some (byteAt seed p) else none := by
  rw [fill, getElem?_fillFrom, Nat.mul_zero]
  split
  · rw [if_pos (by omega)]
  · rw [if_neg (by omega), Array.getElem?_eq_none]
    exact Nat.not_lt.mp (by omega : ¬ p < buffer.size)

theorem size_fill (buffer : ByteArray) (seed : UInt64) : (fill buffer seed).size = buffer.size := by
  have hnone : ∀ p, (fill buffer seed).size ≤ p ↔ buffer.size ≤ p := by
    intro p
    rw [← ByteArray.size_data, ← Array.getElem?_eq_none_iff, getElem?_fill]
    split
    · simp only [reduceCtorEq, false_iff]
      omega
    · simp only [true_iff]
      omega
  exact Nat.le_antisymm ((hnone _).mpr (Nat.le_refl _)) ((hnone _).mp (Nat.le_refl _))

theorem fill_eq_extract (h : a.size ≤ b.size) :
    fill a seed = (fill b seed).extract 0 a.size := by
  refine ByteArray.ext (Array.ext_getElem? fun p => ?_)
  rw [getElem?_fill, getElem?_extract_zero, getElem?_fill]
  split
  · rw [if_pos (by omega)]
  · rfl

theorem extract_fill (h : b.size = a.size - 8 * k) :
    (fill a seed).extract (8 * k) a.size =
      fill b (UInt64.ofNat ((seed.toNat + k) % wordLimit)) := by
  refine ByteArray.ext (Array.ext_getElem? fun p => ?_)
  rw [getElem?_extract, getElem?_fill, getElem?_fill, byteAt_add]
  split
  · rw [if_pos (by omega)]
  · rw [if_neg (by omega)]

theorem extract_fill_word (h : 8 * (i + 1) ≤ a.size) :
    (fill a seed).extract (8 * i) (8 * (i + 1)) = (wordBytes (word seed i)).toByteArray := by
  refine ByteArray.ext (Array.ext_getElem? fun p => ?_)
  rw [getElem?_extract, getElem?_fill]
  split
  · next hp =>
    have hdiv : (8 * i + p) / 8 = i := by omega
    have hmod : (8 * i + p) % 8 = p := by omega
    rw [if_pos (by omega), getElem?_toByteArray_wordBytes _ (by omega), byteAt, hdiv, hmod]
  · rw [Array.getElem?_eq_none]
    rw [ByteArray.size_data, size_wordBytes]
    omega

theorem extract_fill_word_eq_iff (hi : 8 * (i + 1) ≤ a.size) (hj : 8 * (j + 1) ≤ b.size) :
    (fill a seed).extract (8 * i) (8 * (i + 1)) = (fill b other).extract (8 * j) (8 * (j + 1)) ↔
      word seed i = word other j := by
  rw [extract_fill_word hi, extract_fill_word hj]
  constructor
  · exact fun h => wordBytes_injective (List.toByteArray_inj.mp h)
  · exact fun h => by rw [h]

-- ---------------------------------------------------------------------------
-- Streams
-- ---------------------------------------------------------------------------

/-- Filling keeps the size of a buffer and writes at each position a byte that follows from the seed
and the position alone: of the mixed value of the seed plus the number of the word, modulo 2^64, the
digit to the base 256 that the position has within the word. So it does not matter what the buffer
held, a shorter buffer gets the first bytes of a longer one, and from any word on the bytes are
those that a buffer for the rest gets from the seed plus the number of that word. -/
theorem fill_by_position (seed : UInt64) (buffer : ByteArray) :
    (fill buffer seed).size = buffer.size ∧
    (∀ p < buffer.size, ∃ byte, (fill buffer seed).data[p]? = some byte ∧
      byte.toNat = (mix (UInt64.ofNat ((seed.toNat + p / 8) % wordLimit))).toNat /
        256 ^ (p % 8) % 256) ∧
    (∀ other : ByteArray, other.size = buffer.size → fill other seed = fill buffer seed) ∧
    (∀ longer : ByteArray, buffer.size ≤ longer.size →
      fill buffer seed = (fill longer seed).extract 0 buffer.size) ∧
    ∀ k, 8 * k ≤ buffer.size → ∀ rest : ByteArray, rest.size = buffer.size - 8 * k →
      (fill buffer seed).extract (8 * k) buffer.size =
        fill rest (UInt64.ofNat ((seed.toNat + k) % wordLimit)) := by
  refine ⟨size_fill buffer seed, fun p hp => ?_, fun other hsize => ?_,
    fun longer => fill_eq_extract, fun k _ rest => extract_fill⟩
  · refine ⟨byteAt seed p, ?_, ?_⟩
    · rw [getElem?_fill, if_pos hp]
    · rw [toNat_byteAt, word_eq]
  · rw [fill_eq_extract (Nat.le_of_eq hsize), hsize, ← size_fill buffer seed,
      ByteArray.extract_zero_size]

/-- Thirteen bytes from the last seed: the second word is the first one of the seed zero, cut off
after five bytes. -/
theorem fill_by_position_last :
    ∃ buffer rest : ByteArray, buffer.size = 13 ∧ rest.size = 5 ∧
      (∃ byte, (fill buffer 0xffffffffffffffff).data[12]? = some byte ∧
        byte.toNat = (mix 0).toNat / 256 ^ 4 % 256) ∧
      fill buffer 0xffffffffffffffff = (fill (buffer ++ rest) 0xffffffffffffffff).extract 0 13 ∧
      (fill buffer 0xffffffffffffffff).extract 8 13 = fill rest 0 := by
  obtain ⟨buffer, hbuffer⟩ : ∃ buffer : ByteArray, buffer.size = 13 :=
    ⟨(List.replicate 13 7).toByteArray, by decide⟩
  obtain ⟨rest, hrest⟩ : ∃ rest : ByteArray, rest.size = 5 :=
    ⟨(List.replicate 5 9).toByteArray, by decide⟩
  obtain ⟨-, hbytes, -, hprefix, htail⟩ := fill_by_position 0xffffffffffffffff buffer
  have hlonger : buffer.size ≤ (buffer ++ rest).size := by
    rw [ByteArray.size_append]
    omega
  refine ⟨buffer, rest, hbuffer, hrest, hbytes 12 (by omega), ?_, ?_⟩
  · rw [← hbuffer]
    exact hprefix _ hlonger
  · rw [← hbuffer]
    exact htail 1 (by omega) rest (by omega)

/-- The mixer has an inverse on both sides. So at each complete word, buffers that are filled from
different seeds differ, and in one filled buffer the complete words of different numbers differ, up
to as many as there are seeds. -/
theorem complete_words_differ :
    (∀ x, unmix (mix x) = x) ∧ (∀ x, mix (unmix x) = x) ∧
    (∀ seed other : UInt64, seed ≠ other → ∀ a b : ByteArray, a.size = b.size →
      ∀ i, 8 * (i + 1) ≤ a.size →
      (fill a seed).extract (8 * i) (8 * (i + 1)) ≠
        (fill b other).extract (8 * i) (8 * (i + 1))) ∧
    ∀ (seed : UInt64) (buffer : ByteArray) (i j : Nat), i ≠ j → i < wordLimit → j < wordLimit →
      8 * (i + 1) ≤ buffer.size → 8 * (j + 1) ≤ buffer.size →
      (fill buffer seed).extract (8 * i) (8 * (i + 1)) ≠
        (fill buffer seed).extract (8 * j) (8 * (j + 1)) := by
  refine ⟨unmix_mix, mix_unmix, fun seed other hne a b hsize i hi => ?_,
    fun seed buffer i j hne hi hj hwordI hwordJ => ?_⟩
  · rw [ne_eq, extract_fill_word_eq_iff hi (hsize ▸ hi), word_inj_seed]
    exact hne
  · rw [ne_eq, extract_fill_word_eq_iff hwordI hwordJ, word_inj_index, Nat.mod_eq_of_lt hi,
      Nat.mod_eq_of_lt hj]
    exact hne

/-- Two complete words from the last seed and from the seed zero, to which it wraps. -/
theorem complete_words_differ_wrapped :
    ∃ a b : ByteArray, a.size = 19 ∧ b.size = 19 ∧
      unmix (mix 0xffffffffffffffff) = 0xffffffffffffffff ∧
      (fill a 0xffffffffffffffff).extract 8 16 ≠ (fill b 0).extract 8 16 ∧
      (fill a 0xffffffffffffffff).extract 0 8 ≠ (fill a 0xffffffffffffffff).extract 8 16 := by
  obtain ⟨hinverse, -, hseeds, hindices⟩ := complete_words_differ
  obtain ⟨a, ha⟩ : ∃ a : ByteArray, a.size = 19 :=
    ⟨(List.replicate 19 7).toByteArray, by decide⟩
  refine ⟨a, a, ha, ha, hinverse _, ?_, ?_⟩
  · exact hseeds _ _ (by decide) a a rfl 1 (by omega)
  · exact hindices _ a 0 1 (by decide) (by decide) (by decide) (by omega) (by omega)

end SplitMix

end BlockTree
