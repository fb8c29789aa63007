import Mathlib
import BlockTree.Proofs.Digits

/-!
# Which texts are digests

A run of hexadecimal digits is read as a number below a power of sixteen, and as bytes if it is of
even length. Either is written by the same digits again, in lower case. A BLAKE3 digest is read from
64 hexadecimal digits and from nothing else. An FNV digest is read from 16 of them, and also from 15
after a plus sign, which counts as a zero: `Fnv.ofHex_plus`. A digest that is read is written as the
text was, in lower case, and what is written is read back in any mixture of cases.
-/

namespace BlockTree

namespace Text

variable {c : Char} {cs : List Char} {text : String} {n seen width : Nat}

-- ---------------------------------------------------------------------------
-- Single digits
-- ---------------------------------------------------------------------------

namespace Hex

/-- What holds of the digits among the characters up to the last small one holds of every digit. -/
theorem of_isSome {P : Char → Prop}
    (hall : ∀ n < 0x67, (value? (Char.ofNat n)).isSome → P (Char.ofNat n))
    (h : (value? c).isSome) : P c := by
  have hc := hall c.toNat (Nat.lt_succ_of_le (range_of_isSome h).2)
  rw [Char.ofNat_toNat] at hc
  exact hc h

theorem isSome_value?_iff : (value? c).isSome ↔ c ∈ lowerDigits ∨ c ∈ upperDigits := by
  constructor
  · exact of_isSome (P := fun c => c ∈ lowerDigits ∨ c ∈ upperDigits) (by decide)
  · have hall : (lowerDigits ++ upperDigits).all fun c => (value? c).isSome := by decide
    exact fun h => List.all_eq_true.mp hall c (List.mem_append.mpr h)

theorem digit_of_value? (h : value? c = some n) : n < 16 ∧ digit n = c.toLower := by
  have hall : ∀ v ∈ value? c, v < 16 ∧ digit v = c.toLower :=
    of_isSome (P := fun c => ∀ v ∈ value? c, v < 16 ∧ digit v = c.toLower) (by decide)
      (by rw [h]; rfl)
  exact hall n h

theorem getElem?_lowerDigits (h : n < 16) : lowerDigits[n]? = some (digit n) := by
  revert n
  decide

theorem isNumeral_iff :
    IsNumeral width text ↔ text.length = width ∧ ∀ c ∈ text.toList, (value? c).isSome := by
  simp only [IsNumeral, isSome_value?_iff]

theorem isNumeral_iff_of_isSome (h : ∀ c ∈ text.toList, (value? c).isSome) :
    IsNumeral width text ↔ text.utf8ByteSize = width := by
  have hsize : text.utf8ByteSize = text.length := by
    rw [← String.length_toList, ← utf8ByteSize_of_isSome h, String.ofList_toList]
  rw [isNumeral_iff, hsize]
  exact ⟨And.left, fun hlength => ⟨hlength, h⟩⟩

theorem isNumeral_zero_append_iff {rest : String} :
    IsNumeral (width + 1) ("0" ++ rest) ↔ IsNumeral width rest := by
  have hzero : (value? '0').isSome := by decide
  have hone : "0".length = 1 := rfl
  simp [isNumeral_iff, hzero, hone, Nat.add_comm 1]

end Hex

-- ---------------------------------------------------------------------------
-- Numbers
-- ---------------------------------------------------------------------------

namespace Numeral

theorem isSome_of_foldDigits (h : foldDigits 16 seen cs = some n) :
    ∀ c ∈ cs, (Hex.value? c).isSome := by
  induction cs generalizing seen with
  | nil => exact nofun
  | cons c rest ih =>
    rw [foldDigits] at h
    split at h
    · next d hd =>
      split at h
      · exact List.forall_mem_cons.mpr ⟨by rw [hd]; rfl, ih h⟩
      · cases h
    · cases h

theorem exists_foldDigits (h : ∀ c ∈ cs, (Hex.value? c).isSome) (seen : Nat) :
    ∃ n, foldDigits 16 seen cs = some n := by
  induction cs generalizing seen with
  | nil => exact ⟨seen, rfl⟩
  | cons c rest ih =>
    obtain ⟨d, hd⟩ := Option.isSome_iff_exists.mp (h c List.mem_cons_self)
    obtain ⟨n, hn⟩ := ih (fun c hc => h c (List.mem_cons_of_mem _ hc)) (16 * seen + d)
    exact ⟨n, by simp only [foldDigits, hd, (Hex.digit_of_value? hd).1, if_true, hn]⟩

theorem digits_of_foldDigits (h : foldDigits 16 0 cs = some n) :
    n < Nat.pow 16 cs.length ∧ Hex.digits cs.length n = cs.map Char.toLower := by
  -- The last digit is written first, so it is the last one that is split off.
  induction cs using List.reverseRecOn generalizing n with
  | nil =>
    cases h
    exact ⟨Nat.one_pos, rfl⟩
  | append_singleton init last ih =>
    rw [foldDigits_append] at h
    obtain ⟨m, hm, hlast⟩ := Option.bind_eq_some_iff.mp h
    obtain ⟨hlt, hdigits⟩ := ih hm
    obtain ⟨d, hd⟩ := Option.isSome_iff_exists.mp
      (isSome_of_foldDigits hlast last List.mem_cons_self)
    obtain ⟨hd16, hdigit⟩ := Hex.digit_of_value? hd
    simp only [foldDigits, hd, hd16, if_true, Option.some.injEq] at hlast
    have hquotient : n / 16 = m := by omega
    have hremainder : n % 16 = d := by omega
    have hpow : Nat.pow 16 (init.length + 1) = 16 * Nat.pow 16 init.length := Nat.pow_succ'
    rw [List.length_append, List.length_singleton]
    constructor
    · omega
    · rw [Hex.digits, hquotient, hremainder, hdigits, hdigit, List.map_append]
      rfl

theorem read?_plus {rest : List Char} (h : rest ≠ []) :
    read? 16 ('+' :: rest) = read? 16 ('0' :: rest) := by
  have hzero : Hex.value? '0' = some 0 := by decide
  have hplus : ofDigits? 16 rest = ofDigits? 16 ('0' :: rest) := by
    simp [ofDigits?, foldDigits, hzero, h]
  rw [read?_cons_of_ne (c := '0') (by decide), ← hplus]
  rfl

theorem read?_eq_some_iff (hsign : cs.head? ≠ some '+') :
    read? 16 cs = some n ↔ cs ≠ [] ∧ foldDigits 16 0 cs = some n ∧ n < wordLimit := by
  cases cs with
  | nil => simp [read?, ofDigits?]
  | cons c rest =>
    have hc : c ≠ '+' := fun hc => hsign (congrArg some hc)
    rw [read?_cons_of_ne hc, ofDigits?, List.isEmpty_cons, if_neg Bool.false_ne_true]
    cases foldDigits 16 0 (c :: rest) with
    | none => simp
    | some m =>
      by_cases hm : m < wordLimit
      · simp only [hm, if_true, Option.some.injEq, ne_eq, reduceCtorEq, not_false_eq_true,
          true_and]
        exact ⟨fun h => ⟨h, h ▸ hm⟩, And.left⟩
      · simp only [hm, if_false, Option.some.injEq, ne_eq, reduceCtorEq, not_false_eq_true,
          true_and, false_iff]
        exact fun h => hm (h.1 ▸ h.2)

end Numeral

-- ---------------------------------------------------------------------------
-- Bytes
-- ---------------------------------------------------------------------------

namespace Hex

theorem isSome_of_decode : ∀ {cs : List Char} {bytes : List UInt8},
    decode cs = .ok bytes → ∀ c ∈ cs, (value? c).isSome
  | [], _, _ => nofun
  | [last], _, h => by
    rw [decode] at h
    split at h
    · next hlast => simpa using hlast
    · cases h
  | high :: low :: rest, bytes, h => by
    rw [decode] at h
    split at h
    · cases h
    · cases h
    · next x y hhigh hlow =>
      cases hrest : decode rest with
      | error c =>
        rw [hrest] at h
        cases h
      | ok more =>
        simp only [List.forall_mem_cons, hhigh, hlow, Option.isSome_some, true_and]
        exact isSome_of_decode hrest

theorem exists_decode : ∀ {count : Nat} {cs : List Char}, cs.length = 2 * count →
    (∀ c ∈ cs, (value? c).isSome) →
    ∃ bytes, decode cs = .ok bytes ∧ encode bytes = cs.map Char.toLower
  | 0, [], _, _ => ⟨[], rfl, rfl⟩
  | count + 1, high :: low :: rest, hlength, h => by
    simp only [List.forall_mem_cons] at h
    obtain ⟨x, hx⟩ := Option.isSome_iff_exists.mp h.1
    obtain ⟨y, hy⟩ := Option.isSome_iff_exists.mp h.2.1
    obtain ⟨hx16, hxdigit⟩ := digit_of_value? hx
    obtain ⟨hy16, hydigit⟩ := digit_of_value? hy
    have hrest : rest.length = 2 * count := by
      simp only [List.length_cons] at hlength
      omega
    obtain ⟨bytes, hbytes, hencode⟩ := exists_decode hrest h.2.2
    have hbyte : (UInt8.ofNat (16 * x + y)).toNat = 16 * x + y :=
      UInt8.toNat_ofNat_of_lt' (show 16 * x + y < 256 by omega)
    have hquotient : (16 * x + y) / 16 % 16 = x := by omega
    have hremainder : (16 * x + y) % 16 = y := by omega
    refine ⟨UInt8.ofNat (16 * x + y) :: bytes, ?_, ?_⟩
    · rw [decode, hx, hy, hbytes]
      rfl
    · have hpair : digits 2 (16 * x + y) = [digit x, digit y] := by
        simp only [digits, hquotient, hremainder, List.nil_append, List.singleton_append]
      rw [encode, List.flatMap_cons, hbyte, hpair, ← encode, hencode, hxdigit, hydigit]
      rfl

-- ---------------------------------------------------------------------------
-- What is written
-- ---------------------------------------------------------------------------

theorem getElem?_digits {i : Nat} (hi : i < width) :
    (digits width n)[i]? = lowerDigits[n / 16 ^ (width - 1 - i) % 16]? := by
  induction width generalizing n with
  | zero => cases hi
  | succ width ih =>
    rw [digits]
    rcases Nat.lt_succ_iff_lt_or_eq.mp hi with hlt | rfl
    · have hpow : 16 * 16 ^ (width - 1 - i) = 16 ^ (width + 1 - 1 - i) := by
        rw [← Nat.pow_succ']
        congr 1
        omega
      rw [List.getElem?_append_left (by rwa [length_digits]), ih hlt, Nat.div_div_eq_div_mul, hpow]
    · rw [List.getElem?_append_right (by rw [length_digits]), length_digits, Nat.sub_self,
        Nat.add_sub_cancel, Nat.sub_self, Nat.pow_zero, Nat.div_one,
        getElem?_lowerDigits (Nat.mod_lt n (by decide))]
      rfl

theorem getElem?_encode {bytes : List UInt8} {i : Nat} {b : UInt8} (h : bytes[i]? = some b) :
    (encode bytes)[2 * i]? = lowerDigits[b.toNat / 16]? ∧
      (encode bytes)[2 * i + 1]? = lowerDigits[b.toNat % 16]? := by
  induction bytes generalizing i with
  | nil => cases h
  | cons first rest ih =>
    have hencode : encode (first :: rest) =
        digit (first.toNat / 16 % 16) :: digit (first.toNat % 16) :: encode rest := rfl
    cases i with
    | zero =>
      cases h
      have hhigh : b.toNat / 16 < 16 := by
        have := b.toNat_lt
        omega
      rw [hencode, getElem?_lowerDigits hhigh, getElem?_lowerDigits (Nat.mod_lt _ (by decide)),
        Nat.mod_eq_of_lt hhigh]
      exact ⟨rfl, rfl⟩
    | succ i =>
      rw [hencode]
      exact ih h

end Hex

end Text

open Text (Hex.IsNumeral)

variable {text : String}

-- ---------------------------------------------------------------------------
-- Algorithms
-- ---------------------------------------------------------------------------

/-- An algorithm that writes its digests as numerals of some width in lower case, and every such
numeral. -/
structure Algorithm.WritesNumerals {D : Type} (alg : Algorithm D) (width : Nat) : Prop
    extends alg.WritesHex where
  length_toHex : ∀ d, (alg.toHex d).length = width
  exists_toHex_eq : ∀ text, Hex.IsNumeral width text → ∃ d, alg.toHex d = text.toLower

namespace Algorithm

variable {D : Type} {alg : Algorithm D} {width : Nat} {d : D}

theorem read_eq_ok_iff : alg.read text = .ok d ↔ alg.ofHex text = .ok d := by
  rw [read]
  cases alg.ofHex text <;> simp [Except.mapError]

theorem exists_read_error (h : ¬ ∃ d, alg.read text = .ok d) :
    ∃ fault, alg.read text = .error (.invalidDigest text fault) := by
  simp only [read_eq_ok_iff] at h
  rw [read]
  cases hread : alg.ofHex text with
  | ok d => exact absurd ⟨d, hread⟩ h
  | error fault => exact ⟨fault, rfl⟩

namespace WritesNumerals

theorem toHex_injective (h : alg.WritesNumerals width) : Function.Injective alg.toHex := by
  intro d e hwritten
  have hread := h.ofHex_toHex d
  rw [hwritten, h.ofHex_toHex e] at hread
  exact (Except.ok.inj hread).symm

theorem exists_read (h : alg.WritesNumerals width) (hnumeral : Hex.IsNumeral width text) :
    ∃ d, alg.read text = .ok d ∧ alg.toHex d = text.toLower := by
  obtain ⟨d, hwritten⟩ := h.exists_toHex_eq text hnumeral
  refine ⟨d, ?_, hwritten⟩
  rw [read_eq_ok_iff, ← h.ofHex_toLower, ← hwritten]
  exact h.ofHex_toHex d

theorem toHex_of_read (h : alg.WritesNumerals width) (hnumeral : Hex.IsNumeral width text)
    (hread : alg.read text = .ok d) : alg.toHex d = text.toLower := by
  obtain ⟨e, he, hwritten⟩ := h.exists_read hnumeral
  obtain rfl : e = d := Except.ok.inj (he.symm.trans hread)
  exact hwritten

end WritesNumerals

end Algorithm

namespace Fnv

theorem writesNumerals : algorithm.WritesNumerals 16 where
  toWritesHex := writesHex
  length_toHex d := by
    simp only [algorithm, toHex, String.length_ofList, Text.Hex.length_digits]
  exists_toHex_eq text h := by
    obtain ⟨hlength, hdigits⟩ := Text.Hex.isNumeral_iff.mp h
    obtain ⟨n, hn⟩ := Text.Numeral.exists_foldDigits hdigits 0
    obtain ⟨hlt, hwritten⟩ := Text.Numeral.digits_of_foldDigits hn
    rw [String.length_toList, hlength] at hlt hwritten
    have hn : (UInt64.ofNat n).toNat = n := UInt64.toNat_ofNat_of_lt' hlt
    refine ⟨UInt64.ofNat n, ?_⟩
    calc toHex (UInt64.ofNat n) = String.ofList (Text.Hex.digits 16 n) := by rw [toHex, hn]
      _ = text.toLower := by rw [hwritten, ← Text.toList_toLower, String.ofList_toList]

theorem isNumeral_of_ofHex {d : UInt64} (hsign : text.toList.head? ≠ some '+')
    (h : ofHex text = .ok d) : Hex.IsNumeral 16 text := by
  unfold ofHex at h
  split at h
  · cases h
  · next hsize =>
    split at h
    · next n hread =>
      have hdigits := Text.Numeral.isSome_of_foldDigits
        ((Text.Numeral.read?_eq_some_iff hsign).mp hread).2.1
      exact (Text.Hex.isNumeral_iff_of_isSome hdigits).mpr (not_not.mp hsize)
    · cases h

/-- A plus sign counts as a zero. -/
theorem ofHex_plus (rest : String) : ofHex ("+" ++ rest) = ofHex ("0" ++ rest) := by
  have hsize : ("+" ++ rest).utf8ByteSize = ("0" ++ rest).utf8ByteSize := by
    rw [String.utf8ByteSize_append, String.utf8ByteSize_append]
    rfl
  rw [ofHex, ofHex, hsize]
  split
  · rfl
  · next hwidth =>
    have hrest : rest.toList ≠ [] := by
      rintro hnil
      rw [String.toList_eq_nil_iff.mp hnil] at hwidth
      exact hwidth (by decide)
    have hplus : ("+" ++ rest).toList = '+' :: rest.toList := by simp
    have hzero : ("0" ++ rest).toList = '0' :: rest.toList := by simp
    rw [hplus, hzero, Text.Numeral.read?_plus hrest]

end Fnv

namespace Blake3

theorem writesNumerals : algorithm.WritesNumerals 64 where
  toWritesHex := writesHex
  length_toHex d := by
    simp only [algorithm, toHex, String.length_ofList, Text.Hex.length_encode,
      Vector.length_toList]
  exists_toHex_eq text h := by
    obtain ⟨hlength, hdigits⟩ := Text.Hex.isNumeral_iff.mp h
    have hpairs : text.toList.length = 2 * 32 := String.length_toList.trans hlength
    obtain ⟨bytes, -, hwritten⟩ := Text.Hex.exists_decode hpairs hdigits
    have hbytes : bytes.toArray.size = 32 := by
      have hencoded := congrArg List.length hwritten
      rw [Text.Hex.length_encode, List.length_map, String.length_toList, hlength] at hencoded
      rw [List.size_toArray]
      omega
    refine ⟨⟨bytes.toArray, hbytes⟩, ?_⟩
    calc toHex ⟨bytes.toArray, hbytes⟩ = String.ofList (Text.Hex.encode bytes) := rfl
      _ = text.toLower := by rw [hwritten, ← Text.toList_toLower, String.ofList_toList]

theorem isNumeral_of_ofHex {d : Digest} (h : ofHex text = .ok d) : Hex.IsNumeral 64 text := by
  unfold ofHex at h
  split at h
  · cases h
  · next hsize =>
    split at h
    · cases h
    · next bytes hdecode =>
      exact (Text.Hex.isNumeral_iff_of_isSome (Text.Hex.isSome_of_decode hdecode)).mpr
        (not_not.mp hsize)

end Blake3

-- ---------------------------------------------------------------------------
-- Reading and writing
-- ---------------------------------------------------------------------------

theorem Fnv.exists_read_iff : (∃ d, algorithm.read text = .ok d) ↔
    Hex.IsNumeral 16 text ∨ ∃ rest, text = "+" ++ rest ∧ Hex.IsNumeral 15 rest := by
  simp only [Algorithm.read_eq_ok_iff]
  constructor
  · rintro ⟨d, hread⟩
    by_cases hsign : text.toList.head? = some '+'
    · obtain ⟨cs, hcs⟩ := List.head?_eq_some_iff.mp hsign
      obtain rfl : text = "+" ++ String.ofList cs := String.toList_injective (by simp [hcs])
      refine .inr ⟨_, rfl, Text.Hex.isNumeral_zero_append_iff.mp ?_⟩
      exact isNumeral_of_ofHex (by simp) ((ofHex_plus _).symm.trans hread)
    · exact .inl (isNumeral_of_ofHex hsign hread)
  · rintro (hnumeral | ⟨rest, rfl, hnumeral⟩)
    · obtain ⟨d, hread, -⟩ := writesNumerals.exists_read hnumeral
      exact ⟨d, Algorithm.read_eq_ok_iff.mp hread⟩
    · obtain ⟨d, hread, -⟩ :=
        writesNumerals.exists_read (Text.Hex.isNumeral_zero_append_iff.mpr hnumeral)
      exact ⟨d, (ofHex_plus rest).trans (Algorithm.read_eq_ok_iff.mp hread)⟩

theorem Fnv.toHex_of_read_plus {rest : String} {d : UInt64}
    (h : algorithm.read ("+" ++ rest) = .ok d) : toHex d = "0" ++ rest.toLower := by
  have hread : algorithm.read ("0" ++ rest) = .ok d :=
    Algorithm.read_eq_ok_iff.mpr ((ofHex_plus rest).symm.trans (Algorithm.read_eq_ok_iff.mp h))
  have hnumeral := isNumeral_of_ofHex (by simp) (Algorithm.read_eq_ok_iff.mp hread)
  have hlower : ("0" ++ rest).toLower = "0" ++ rest.toLower :=
    String.toList_injective (by simp [Text.toList_toLower])
  exact (writesNumerals.toHex_of_read hnumeral hread).trans hlower

theorem Blake3.exists_read_iff :
    (∃ d, algorithm.read text = .ok d) ↔ Hex.IsNumeral 64 text := by
  constructor
  · rintro ⟨d, hread⟩
    exact isNumeral_of_ofHex (Algorithm.read_eq_ok_iff.mp hread)
  · intro hnumeral
    obtain ⟨d, hread, -⟩ := writesNumerals.exists_read hnumeral
    exact ⟨d, hread⟩

/-- A BLAKE3 digest is read from 64 digits alone, and an FNV digest from 16 digits or from a plus
sign and 15 digits. The digest is written as the text was, in lower case and with a zero for the
sign. Every other text is refused as no digest. -/
theorem texts_of_digests (text : String) :
    ((∃ d, Fnv.algorithm.read text = .ok d) ↔
      Hex.IsNumeral 16 text ∨ ∃ rest, text = "+" ++ rest ∧ Hex.IsNumeral 15 rest) ∧
    (∀ d, Fnv.algorithm.read text = .ok d →
      (Hex.IsNumeral 16 text → Fnv.toHex d = text.toLower) ∧
      ∀ rest, text = "+" ++ rest → Fnv.toHex d = "0" ++ rest.toLower) ∧
    ((¬ ∃ d, Fnv.algorithm.read text = .ok d) →
      ∃ fault, Fnv.algorithm.read text = .error (.invalidDigest text fault)) ∧
    ((∃ d, Blake3.algorithm.read text = .ok d) ↔ Hex.IsNumeral 64 text) ∧
    (∀ d, Blake3.algorithm.read text = .ok d → Blake3.toHex d = text.toLower) ∧
    ((¬ ∃ d, Blake3.algorithm.read text = .ok d) →
      ∃ fault, Blake3.algorithm.read text = .error (.invalidDigest text fault)) := by
  refine ⟨Fnv.exists_read_iff, ?_, Algorithm.exists_read_error, Blake3.exists_read_iff, ?_,
    Algorithm.exists_read_error⟩
  · intro d hread
    constructor
    · exact fun hnumeral => Fnv.writesNumerals.toHex_of_read hnumeral hread
    · rintro rest rfl
      exact Fnv.toHex_of_read_plus hread
  · intro d hread
    exact Blake3.writesNumerals.toHex_of_read (Blake3.exists_read_iff.mp ⟨d, hread⟩) hread

/-- Leading zeros and letters in both cases, a sign, and a text of fewer characters than bytes. -/
theorem texts_of_digests_mixed :
    (∃ d, Fnv.algorithm.read "00000000DEADbeef" = .ok d ∧ Fnv.toHex d = "00000000deadbeef") ∧
    (∃ d, Fnv.algorithm.read ("+" ++ "00000000DEADbee") = .ok d ∧
      Fnv.toHex d = "0" ++ "00000000deadbee") ∧
    (∃ fault, Fnv.algorithm.read "é00000000000000" =
      .error (.invalidDigest "é00000000000000" fault)) ∧
    ∃ d, Blake3.algorithm.read
        "00000000DEADbeef00000000DEADbeef00000000DEADbeef00000000DEADbeef" = .ok d ∧
      Blake3.toHex d = "00000000deadbeef00000000deadbeef00000000deadbeef00000000deadbeef" := by
  refine ⟨?_, ?_, ?_, ?_⟩
  · obtain ⟨hread, hwritten, -⟩ := texts_of_digests "00000000DEADbeef"
    have hnumeral : Hex.IsNumeral 16 "00000000DEADbeef" := by decide +kernel
    obtain ⟨d, hd⟩ := hread.mpr (.inl hnumeral)
    exact ⟨d, hd, ((hwritten d hd).1 hnumeral).trans (by cbv)⟩
  · obtain ⟨hread, hwritten, -⟩ := texts_of_digests ("+" ++ "00000000DEADbee")
    have hnumeral : Hex.IsNumeral 15 "00000000DEADbee" := by decide +kernel
    obtain ⟨d, hd⟩ := hread.mpr (.inr ⟨_, rfl, hnumeral⟩)
    exact ⟨d, hd, ((hwritten d hd).2 _ rfl).trans (by cbv)⟩
  · obtain ⟨hread, -, hrefused, -⟩ := texts_of_digests "é00000000000000"
    refine hrefused (mt hread.mp ?_)
    rintro (hnumeral | ⟨rest, hrest, -⟩)
    · exact absurd hnumeral (by decide +kernel)
    · exact absurd (congrArg (·.toList.head?) hrest) (by simp)
  · obtain ⟨-, -, -, hread, hwritten, -⟩ := texts_of_digests
      "00000000DEADbeef00000000DEADbeef00000000DEADbeef00000000DEADbeef"
    obtain ⟨d, hd⟩ := hread.mpr (by decide +kernel)
    exact ⟨d, hd, (hwritten d hd).trans (by cbv)⟩

/-- Fifteen digits after a plus sign are no sixteen digits, and stand for a digest. -/
theorem signed_numeral_read :
    Fnv.algorithm.read "+00000000000002a" = .ok 42 ∧
      ¬ Hex.IsNumeral 16 "+00000000000002a" ∧ Fnv.toHex 42 ≠ "+00000000000002a".toLower := by
  refine ⟨?_, ?_, ?_⟩
  · decide +kernel
  · decide +kernel
  · decide +kernel

/-- A digest is written most significant digit first, or byte by byte with the high half first, in
lower case and always in full width, and what is written stands for this digest alone, in
whatever case. -/
theorem digests_read_back :
    (∀ d : UInt64, (Fnv.toHex d).length = 16 ∧
      (∀ i < 16, (Fnv.toHex d).toList[i]? =
        Text.Hex.lowerDigits[d.toNat / 16 ^ (15 - i) % 16]?) ∧
      ∀ text, text.toLower = (Fnv.toHex d).toLower → Fnv.algorithm.read text = .ok d) ∧
    (∀ d : Blake3.Digest, (Blake3.toHex d).length = 64 ∧
      (∀ i : Fin 32,
        (Blake3.toHex d).toList[2 * i.val]? = Text.Hex.lowerDigits[d[i].toNat / 16]? ∧
        (Blake3.toHex d).toList[2 * i.val + 1]? = Text.Hex.lowerDigits[d[i].toNat % 16]?) ∧
      ∀ text, text.toLower = (Blake3.toHex d).toLower → Blake3.algorithm.read text = .ok d) ∧
    Function.Injective Fnv.toHex ∧ Function.Injective Blake3.toHex := by
  refine ⟨?_, ?_, Fnv.writesNumerals.toHex_injective, Blake3.writesNumerals.toHex_injective⟩
  · intro d
    refine ⟨Fnv.writesNumerals.length_toHex d, ?_, ?_⟩
    · intro i hi
      rw [Fnv.toHex, String.toList_ofList]
      exact Text.Hex.getElem?_digits hi
    · intro text htext
      exact Algorithm.read_eq_ok_iff.mpr (Fnv.writesHex.ofHex_of_toLower_eq htext)
  · intro d
    refine ⟨Blake3.writesNumerals.length_toHex d, ?_, ?_⟩
    · intro i
      rw [Blake3.toHex, String.toList_ofList]
      exact Text.Hex.getElem?_encode (by simp)
    · intro text htext
      exact Algorithm.read_eq_ok_iff.mpr (Blake3.writesHex.ofHex_of_toLower_eq htext)

/-- A small number with all its zeros, and bytes of two letters, each read back with some letters in
capitals. -/
theorem digests_read_back_mixed :
    (Fnv.toHex 0x2af).toList[14]? = some 'a' ∧ (Fnv.toHex 0x2af).toList[15]? = some 'f' ∧
    Fnv.algorithm.read "00000000000002aF" = .ok 0x2af ∧
    (Blake3.toHex (.replicate 32 0xab)).toList[62]? = some 'a' ∧
    Blake3.algorithm.read "abABaBAbabABaBAbabABaBAbabABaBAbabABaBAbabABaBAbabABaBAbabABaBAb" =
      .ok (.replicate 32 0xab) := by
  obtain ⟨hfnv, hblake, -⟩ := digests_read_back
  obtain ⟨-, hdigits, hread⟩ := hfnv 0x2af
  obtain ⟨-, hdigits', hread'⟩ := hblake (.replicate 32 0xab)
  refine ⟨hdigits 14 (by decide), hdigits 15 (by decide), hread _ (by cbv), ?_, hread' _ (by cbv)⟩
  exact (hdigits' 31).1

end BlockTree
