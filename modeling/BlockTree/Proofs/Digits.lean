import Mathlib.Data.String.Basic
import BlockTree.Hasher.Kind

/-!
# Written digests are read back

Hexadecimal digits are no blanks, no signs and one byte each, and either case of a letter has the
same value. So the text of a digest gives the digest again, in whatever case and between whatever
blanks: `Algorithm.WritesHex.read_of_toLower_eq`.
-/

namespace BlockTree

namespace Text

-- ---------------------------------------------------------------------------
-- Texts made of digits
-- ---------------------------------------------------------------------------

section

variable {c : Char} {cs : List Char}

theorem Hex.range_of_isSome (h : (Hex.value? c).isSome) : 0x30 ≤ c.toNat ∧ c.toNat ≤ 0x66 := by
  have hle : ∀ a b : Char, a ≤ b → a.toNat ≤ b.toNat := fun _ _ hab => hab
  unfold Hex.value? at h
  split at h
  · next hrange => exact ⟨hle _ _ hrange.1, Nat.le_trans (hle _ _ hrange.2) (by decide)⟩
  · split at h
    · next hrange => exact ⟨Nat.le_trans (by decide) (hle _ _ hrange.1), hle _ _ hrange.2⟩
    · split at h
      · next hrange =>
        exact ⟨Nat.le_trans (by decide) (hle _ _ hrange.1),
          Nat.le_trans (hle _ _ hrange.2) (by decide)⟩
      · cases h

theorem not_isBlank_of_isSome (h : (Hex.value? c).isSome) : isBlank c = false := by
  obtain ⟨hlow, hhigh⟩ := Hex.range_of_isSome h
  simp [isBlank, blankRanges]
  omega

theorem dropWhile_isBlank_append {before : List Char} (hbefore : ∀ c ∈ before, isBlank c)
    (hc : isBlank c = false) (rest : List Char) :
    (before ++ c :: rest).dropWhile isBlank = c :: rest := by
  rw [List.dropWhile_append_of_pos hbefore, List.dropWhile_cons, hc]
  rfl

theorem trim_append {before after : List Char} (hbefore : ∀ c ∈ before, isBlank c)
    (hafter : ∀ c ∈ after, isBlank c) (h : ∀ c ∈ cs, isBlank c = false) :
    trim (before ++ cs ++ after) = cs := by
  rcases cs.eq_nil_or_concat with rfl | ⟨init, last, rfl⟩
  · have hnil : (before ++ [] ++ after).dropWhile isBlank = [] := by
      rw [List.append_nil, List.dropWhile_append_of_pos hbefore, ← List.append_nil after,
        List.dropWhile_append_of_pos hafter]
      rfl
    rw [trim, hnil]
    rfl
  · rw [List.concat_eq_append] at h ⊢
    have hlast : isBlank last = false := h last (by simp)
    have hreverse : ((init ++ [last]) ++ after).reverse =
        after.reverse ++ last :: init.reverse := by simp
    have hdrop : (before ++ ((init ++ [last]) ++ after)).dropWhile isBlank =
        (init ++ [last]) ++ after := by
      cases init with
      | nil => exact dropWhile_isBlank_append hbefore hlast _
      | cons c rest => exact dropWhile_isBlank_append hbefore (h c (by simp)) _
    rw [trim, List.append_assoc, hdrop, hreverse,
      dropWhile_isBlank_append (fun c hc => hafter c (List.mem_reverse.mp hc)) hlast]
    simp

theorem utf8ByteSize_of_isSome (h : ∀ c ∈ cs, (Hex.value? c).isSome) :
    (String.ofList cs).utf8ByteSize = cs.length := by
  rw [String.utf8ByteSize_ofList]
  induction cs with
  | nil => rfl
  | cons c rest ih =>
    have hsize : c.utf8Size = 1 := by
      have hhigh := (Hex.range_of_isSome (h c List.mem_cons_self)).2
      rw [Char.utf8Size_eq_one_iff, UInt32.le_iff_toNat_le]
      exact Nat.le_trans hhigh (by decide)
    rw [String.utf8Len_cons, hsize, ih fun c hc => h c (List.mem_cons_of_mem _ hc),
      List.length_cons]

end

-- ---------------------------------------------------------------------------
-- Written digits
-- ---------------------------------------------------------------------------

theorem Hex.isSome_of_mem_digits {width n : Nat} {c : Char} (h : c ∈ Hex.digits width n) :
    (Hex.value? c).isSome := by
  induction width generalizing n with
  | zero => cases h
  | succ width ih =>
    rcases List.mem_append.mp h with h | h
    · exact ih h
    · obtain rfl := List.mem_singleton.mp h
      rw [Hex.value?_digit (Nat.mod_lt n (by decide))]
      rfl

theorem Hex.isSome_of_mem_encode {bytes : List UInt8} {c : Char} (h : c ∈ Hex.encode bytes) :
    (Hex.value? c).isSome := by
  obtain ⟨_, -, hc⟩ := List.mem_flatMap.mp h
  exact isSome_of_mem_digits hc

theorem Hex.length_encode (bytes : List UInt8) :
    (Hex.encode bytes).length = 2 * bytes.length := by
  induction bytes with
  | nil => rfl
  | cons b rest ih =>
    simp only [encode, List.flatMap_cons, List.length_append, length_digits,
      List.length_cons] at ih ⊢
    omega

theorem Hex.decode_encode (bytes : List UInt8) : Hex.decode (Hex.encode bytes) = .ok bytes := by
  induction bytes with
  | nil => rfl
  | cons b rest ih =>
    have hhigh : b.toNat / 16 % 16 < 16 := Nat.mod_lt _ (by decide)
    have hlow : b.toNat % 16 < 16 := Nat.mod_lt _ (by decide)
    have hb : 16 * (b.toNat / 16 % 16) + b.toNat % 16 = b.toNat := by
      have := b.toNat_lt
      omega
    have hencode : encode (b :: rest) =
        digit (b.toNat / 16 % 16) :: digit (b.toNat % 16) :: encode rest := rfl
    rw [hencode, decode, value?_digit hhigh, value?_digit hlow, ih]
    simp [Except.map, hb]

namespace Numeral

theorem foldDigits_append (base seen : Nat) (first second : List Char) :
    foldDigits base seen (first ++ second) =
      (foldDigits base seen first).bind fun n => foldDigits base n second := by
  induction first generalizing seen with
  | nil => rfl
  | cons c rest ih =>
    simp only [List.cons_append, foldDigits]
    cases Hex.value? c with
    | none => rfl
    | some d =>
      simp only
      split
      · exact ih _
      · rfl

theorem foldDigits_digits (width n seen : Nat) :
    foldDigits 16 seen (Hex.digits width n) =
      some (Nat.pow 16 width * seen + n % Nat.pow 16 width) := by
  induction width generalizing n with
  | zero => simp [foldDigits, Hex.digits, Nat.mod_one]
  | succ width ih =>
    have hlast : n % 16 < 16 := Nat.mod_lt n (by decide)
    have hpow : Nat.pow 16 (width + 1) = 16 * Nat.pow 16 width := Nat.pow_succ'
    rw [Hex.digits, foldDigits_append, ih]
    simp only [Option.bind_some, foldDigits, Hex.value?_digit hlast, hlast, if_true]
    rw [hpow, Nat.mod_mul, Nat.mul_add, Nat.mul_assoc, Nat.add_assoc,
      Nat.add_comm (16 * _) (n % 16)]

theorem read?_digits {width n : Nat} (hwidth : 0 < width) (hn : n < Nat.pow 16 width)
    (hword : n < wordLimit) : read? 16 (Hex.digits width n) = some n := by
  have hvalue : ofDigits? 16 (Hex.digits width n) = some n := by
    have hnil : (Hex.digits width n).isEmpty = false := by
      rw [List.isEmpty_eq_false_iff, ← List.length_pos_iff, Hex.length_digits]
      exact hwidth
    rw [ofDigits?, hnil, foldDigits_digits, Nat.mod_eq_of_lt hn, Nat.mul_zero, Nat.zero_add]
    rfl
  -- The digits start with no sign, so they are read from the first one on.
  have hsign : ∀ rest, Hex.digits width n ≠ '+' :: rest := by
    intro rest hrest
    have hplus : '+' ∈ Hex.digits width n := hrest ▸ List.mem_cons_self
    exact absurd (Hex.isSome_of_mem_digits hplus) (by decide)
  simp only [read?, hvalue, hword, if_true]

end Numeral

-- ---------------------------------------------------------------------------
-- Letter case
-- ---------------------------------------------------------------------------

/-- What holds of a character beside itself, and of a capital letter beside the small one, holds of
every character beside that in lower case. -/
theorem toLower_cases {P : Char → Char → Prop} (hself : ∀ c, P c c)
    (hletter : ∀ n < 0x5b, 0x41 ≤ n → P (Char.ofNat n) (Char.ofNat n).toLower) (c : Char) :
    P c c.toLower := by
  by_cases hcapital : 0x41 ≤ c.toNat ∧ c.toNat < 0x5b
  · have hc := hletter c.toNat hcapital.2 hcapital.1
    rwa [Char.ofNat_toNat] at hc
  · have hsame : c.toLower = c :=
      dif_neg fun h => hcapital ⟨h.1, Nat.lt_succ_of_le h.2⟩
    rw [hsame]
    exact hself c

theorem utf8Size_toLower (c : Char) : c.toLower.utf8Size = c.utf8Size :=
  toLower_cases (P := fun c lower => lower.utf8Size = c.utf8Size) (fun _ => rfl) (by decide) c

theorem Hex.value?_toLower (c : Char) : Hex.value? c.toLower = Hex.value? c :=
  toLower_cases (P := fun c lower => Hex.value? lower = Hex.value? c) (fun _ => rfl) (by decide) c

theorem toLower_eq_plus_iff (c : Char) : c.toLower = '+' ↔ c = '+' :=
  toLower_cases (P := fun c lower => lower = '+' ↔ c = '+') (fun _ => Iff.rfl) (by decide) c

theorem toList_toLower (text : String) : text.toLower.toList = text.toList.map Char.toLower :=
  String.toList_map

theorem utf8ByteSize_toLower (text : String) : text.toLower.utf8ByteSize = text.utf8ByteSize := by
  have hsize : ∀ cs : List Char, String.utf8Len (cs.map Char.toLower) = String.utf8Len cs := by
    intro cs
    induction cs with
    | nil => rfl
    | cons c rest ih =>
      rw [List.map_cons, String.utf8Len_cons, String.utf8Len_cons, utf8Size_toLower, ih]
  rw [← String.ofList_toList (s := text.toLower), ← String.ofList_toList (s := text),
    toList_toLower, String.ofList_toList, String.utf8ByteSize_ofList, hsize,
    ← String.utf8ByteSize_ofList, String.ofList_toList]

theorem Hex.decode_map_toLower : ∀ cs : List Char,
    Hex.decode (cs.map Char.toLower) = (Hex.decode cs).mapError Char.toLower
  | [] => rfl
  | [last] => by
    simp only [List.map_cons, List.map_nil, decode, value?_toLower]
    split <;> rfl
  | high :: low :: rest => by
    simp only [List.map_cons, decode, value?_toLower, decode_map_toLower rest]
    cases value? high with
    | none => rfl
    | some h =>
      cases value? low with
      | none => rfl
      | some l => cases decode rest <;> rfl

namespace Numeral

theorem foldDigits_map_toLower (base seen : Nat) (cs : List Char) :
    foldDigits base seen (cs.map Char.toLower) = foldDigits base seen cs := by
  induction cs generalizing seen with
  | nil => rfl
  | cons c rest ih => simp only [List.map_cons, foldDigits, Hex.value?_toLower, ih]

theorem read?_cons_of_ne {c : Char} (h : c ≠ '+') (base : Nat) (rest : List Char) :
    read? base (c :: rest) = match ofDigits? base (c :: rest) with
      | some n => if n < wordLimit then some n else none
      | none => none := by
  unfold read?
  split
  · next heq => exact absurd (List.cons.inj heq).1 h
  · rfl

theorem read?_map_toLower (base : Nat) (cs : List Char) :
    read? base (cs.map Char.toLower) = read? base cs := by
  have hdigits : ∀ cs, ofDigits? base (cs.map Char.toLower) = ofDigits? base cs := by
    intro cs
    simp only [ofDigits?, List.isEmpty_map, foldDigits_map_toLower]
  cases cs with
  | nil => rfl
  | cons c rest =>
    by_cases hplus : c = '+'
    · have hlower : Char.toLower '+' = '+' := rfl
      simp only [hplus, List.map_cons, hlower, read?, hdigits]
    · have hlower : c.toLower ≠ '+' := mt (toLower_eq_plus_iff c).mp hplus
      rw [List.map_cons, read?_cons_of_ne hlower, read?_cons_of_ne hplus, ← List.map_cons, hdigits]

end Numeral

end Text

-- ---------------------------------------------------------------------------
-- Digests
-- ---------------------------------------------------------------------------

/-- An algorithm that writes its digests in hexadecimal digits and reads them back, in either
case. -/
structure Algorithm.WritesHex {D : Type} (alg : Algorithm D) : Prop where
  isSome : ∀ d, ∀ c ∈ (alg.toHex d).toList, (Text.Hex.value? c).isSome
  ofHex_toHex : ∀ d, alg.ofHex (alg.toHex d) = .ok d
  ofHex_toLower : ∀ text d, alg.ofHex text.toLower = .ok d ↔ alg.ofHex text = .ok d

namespace Algorithm.WritesHex

variable {D : Type} {alg : Algorithm D}

theorem ofHex_of_toLower_eq (h : alg.WritesHex) {d : D} {printed : String}
    (hprinted : printed.toLower = (alg.toHex d).toLower) : alg.ofHex printed = .ok d := by
  rw [← h.ofHex_toLower, hprinted, h.ofHex_toLower]
  exact h.ofHex_toHex d

/-- The text of a digest is read as this digest, in whatever case and between whatever blanks. -/
theorem read_of_toLower_eq (h : alg.WritesHex) {d : D} {before printed after : String}
    (hbefore : ∀ c ∈ before.toList, Text.isBlank c) (hafter : ∀ c ∈ after.toList, Text.isBlank c)
    (hprinted : printed.toLower = (alg.toHex d).toLower) :
    alg.read (String.ofList (Text.trim (before ++ printed ++ after).toList)) = .ok d := by
  have hdigit : ∀ c ∈ printed.toList, Text.isBlank c = false := by
    intro c hc
    have hlower : c.toLower ∈ ((alg.toHex d).toList.map Char.toLower) := by
      rw [← Text.toList_toLower, ← hprinted, Text.toList_toLower]
      exact List.mem_map_of_mem hc
    obtain ⟨written, hwritten, hsame⟩ := List.mem_map.mp hlower
    apply Text.not_isBlank_of_isSome
    rw [← Text.Hex.value?_toLower, ← hsame, Text.Hex.value?_toLower]
    exact h.isSome d written hwritten
  rw [String.toList_append, String.toList_append, Text.trim_append hbefore hafter hdigit,
    String.ofList_toList, read, h.ofHex_of_toLower_eq hprinted]
  rfl

theorem read_toHex (h : alg.WritesHex) (d : D) :
    alg.read (String.ofList (Text.trim (alg.toHex d).toList)) = .ok d := by
  have hblank : ∀ c ∈ "".toList, Text.isBlank c := nofun
  simpa using h.read_of_toLower_eq hblank hblank (Eq.refl (alg.toHex d).toLower)

end Algorithm.WritesHex

namespace Fnv

theorem isSome_of_mem_toHex {d : UInt64} {c : Char} (h : c ∈ (toHex d).toList) :
    (Text.Hex.value? c).isSome := by
  rw [toHex, String.toList_ofList] at h
  exact Text.Hex.isSome_of_mem_digits h

theorem ofHex_toHex (d : UInt64) : ofHex (toHex d) = .ok d := by
  have hsize : (toHex d).utf8ByteSize = 16 := by
    rw [toHex, Text.utf8ByteSize_of_isSome fun _ => Text.Hex.isSome_of_mem_digits,
      Text.Hex.length_digits]
  have hword : d.toNat < wordLimit := d.toNat_lt
  have hdigits : wordLimit = Nat.pow 16 16 := by decide
  have hread : Text.Numeral.read? 16 (toHex d).toList = some d.toNat := by
    rw [toHex, String.toList_ofList]
    exact Text.Numeral.read?_digits (by decide) (hdigits ▸ hword) hword
  simp [ofHex, hsize, hread]

theorem ofHex_toLower (text : String) : ofHex text.toLower = ofHex text := by
  rw [ofHex, ofHex, Text.utf8ByteSize_toLower, Text.toList_toLower,
    Text.Numeral.read?_map_toLower]

theorem writesHex : algorithm.WritesHex where
  isSome _ _ := isSome_of_mem_toHex
  ofHex_toHex d := by simpa only [algorithm] using ofHex_toHex d
  ofHex_toLower text d := by simp only [algorithm, ofHex_toLower]

end Fnv

namespace Blake3

theorem isSome_of_mem_toHex {d : Digest} {c : Char} (h : c ∈ (toHex d).toList) :
    (Text.Hex.value? c).isSome := by
  rw [toHex, String.toList_ofList] at h
  exact Text.Hex.isSome_of_mem_encode h

theorem ofHex_toHex (d : Digest) : ofHex (toHex d) = .ok d := by
  have hlength : d.toList.length = 32 := Vector.length_toList
  have hsize : (toHex d).utf8ByteSize = 64 := by
    rw [toHex, Text.utf8ByteSize_of_isSome fun _ => Text.Hex.isSome_of_mem_encode,
      Text.Hex.length_encode, hlength]
  have hdecode : Text.Hex.decode (toHex d).toList = .ok d.toList := by
    rw [toHex, String.toList_ofList, Text.Hex.decode_encode]
  simp [ofHex, hsize, hdecode, Vector.toList]

theorem ofHex_toLower (text : String) (d : Digest) :
    ofHex text.toLower = .ok d ↔ ofHex text = .ok d := by
  rw [ofHex, ofHex, Text.utf8ByteSize_toLower, Text.toList_toLower, Text.Hex.decode_map_toLower]
  cases Text.Hex.decode text.toList with
  | error c =>
    simp only [Except.mapError]
    split <;> exact ⟨nofun, nofun⟩
  | ok bytes => rfl

theorem writesHex : algorithm.WritesHex where
  isSome _ _ := isSome_of_mem_toHex
  ofHex_toHex := ofHex_toHex
  ofHex_toLower := ofHex_toLower

end Blake3

theorem HashKind.writesHex (kind : HashKind) : kind.algorithm.WritesHex := by
  cases kind with
  | blake3 => exact Blake3.writesHex
  | fnv64 => exact Fnv.writesHex

end BlockTree
