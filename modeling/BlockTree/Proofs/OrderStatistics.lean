import BlockTree.Proofs.Reports

/-!
# Summaries hold order statistics

A value comes before another one if its rank is less: `Binary64.before_iff`. Each kind of value has
its own range of ranks, and what a finite value is worth grows with its magnitude. The samples of a
summary are put in this order, so what stands there at a place is told by how many samples come
before it and after it: `standsAt_getD`. The extremes are the samples at the first and the last
place and the median is made of those in the middle, also where there are both zeros and values that
are no number.
-/

namespace BlockTree

namespace Binary64

variable {x y : Binary64}

-- ---------------------------------------------------------------------------
-- Magnitudes
-- ---------------------------------------------------------------------------

theorem fraction_lt (x : Binary64) : x.fraction < exponentUnit :=
  Nat.mod_lt _ (by decide)

theorem magnitude_eq (x : Binary64) : x.magnitude = x.exponent * exponentUnit + x.fraction :=
  (Nat.div_add_mod' _ _).symm

theorem exponent_le (x : Binary64) : x.exponent ≤ 2047 := by
  have hlt : x.magnitude < signUnit := Nat.mod_lt _ (by decide)
  simp only [exponent, exponentUnit]
  simp only [signUnit] at hlt
  omega

theorem units_lt (x : Binary64) : x.units < exponentUnit * Nat.pow 2 x.exponent := by
  have hfraction := x.fraction_lt
  rw [units]
  split
  · next hzero => rwa [hzero, Nat.pow_eq, Nat.pow_zero, Nat.mul_one]
  · next hne =>
    obtain ⟨e, he⟩ := Nat.exists_eq_succ_of_ne_zero hne
    have hpos : 0 < 2 ^ e := Nat.two_pow_pos e
    rw [he, Nat.succ_sub_one, Nat.pow_eq, Nat.pow_eq, Nat.pow_succ, Nat.mul_comm (2 ^ e),
      ← Nat.mul_assoc]
    exact Nat.mul_lt_mul_of_pos_right (by omega) hpos

theorem units_mono (h : x.magnitude < y.magnitude) : x.units < y.units := by
  have hx := x.fraction_lt
  have hy := y.fraction_lt
  rw [magnitude_eq, magnitude_eq] at h
  rcases Nat.lt_trichotomy x.exponent y.exponent with hlt | heq | hgt
  · have hne : y.exponent ≠ 0 := by omega
    calc x.units < exponentUnit * Nat.pow 2 x.exponent := x.units_lt
      _ ≤ exponentUnit * Nat.pow 2 (y.exponent - 1) :=
        Nat.mul_le_mul_left _ (Nat.pow_le_pow_right (by decide) (by omega))
      _ ≤ (y.fraction + exponentUnit) * Nat.pow 2 (y.exponent - 1) :=
        Nat.mul_le_mul_right _ (Nat.le_add_left _ _)
      _ = y.units := (if_neg hne).symm
  · rw [units, units, heq]
    have hfraction : x.fraction < y.fraction := by
      rw [heq] at h
      omega
    split
    · exact hfraction
    · exact Nat.mul_lt_mul_of_pos_right (by omega) (Nat.two_pow_pos _)
  · have hle : (y.exponent + 1) * exponentUnit ≤ x.exponent * exponentUnit :=
      Nat.mul_le_mul_right _ hgt
    rw [Nat.add_mul] at hle
    omega

theorem units_lt_iff : x.units < y.units ↔ x.magnitude < y.magnitude := by
  constructor
  · intro h
    rcases Nat.lt_trichotomy x.magnitude y.magnitude with hlt | heq | hgt
    · exact hlt
    · have hsame : x.units = y.units := by
        rw [units, units, exponent, exponent, fraction, fraction, heq]
      omega
    · have := units_mono hgt
      omega
  · exact units_mono

theorem units_eq_iff : x.units = y.units ↔ x.magnitude = y.magnitude := by
  have hlt := @units_lt_iff x y
  have hgt := @units_lt_iff y x
  omega

-- ---------------------------------------------------------------------------
-- Signs
-- ---------------------------------------------------------------------------

theorem sign_cases (x : Binary64) :
    (x.isNegative = true ∧ x.rank = -x.magnitude - 1 ∧ x.worth = -x.units) ∨
      (x.isNegative = false ∧ x.rank = x.magnitude ∧ x.worth = x.units) := by
  rw [rank, worth]
  cases x.isNegative with
  | true => exact .inl ⟨rfl, rfl, rfl⟩
  | false => exact .inr ⟨rfl, rfl, rfl⟩

-- ---------------------------------------------------------------------------
-- Kinds
-- ---------------------------------------------------------------------------

def infinite : Nat := 2047 * exponentUnit

theorem isNaN_iff : x.isNaN = true ↔ infinite < x.magnitude := by
  have hexponent := x.exponent_le
  have hfraction := x.fraction_lt
  rw [isNaN, magnitude_eq, infinite]
  simp only [exponentUnit, Bool.and_eq_true, decide_eq_true_eq] at *
  omega

theorem isInfinite_iff : x.isInfinite = true ↔ x.magnitude = infinite := by
  have hexponent := x.exponent_le
  have hfraction := x.fraction_lt
  rw [isInfinite, magnitude_eq, infinite]
  simp only [exponentUnit, Bool.and_eq_true, decide_eq_true_eq] at *
  omega

theorem rank_of_kind (x : Binary64) :
    match x.kind with
    | .negativeNaN => x.rank < -infinite - 1
    | .negativeInfinity => x.rank = -infinite - 1
    | .finite => -infinite - 1 < x.rank ∧ x.rank < infinite
    | .infinity => x.rank = infinite
    | .nan => infinite < x.rank := by
  have hnan := @isNaN_iff x
  have hinfinite := @isInfinite_iff x
  rw [kind]
  rcases x.sign_cases with ⟨hs, hr, -⟩ | ⟨hs, hr, -⟩
  all_goals
    cases hn : x.isNaN <;> cases hi : x.isInfinite <;>
      simp only [hn, hi, hs, Bool.false_eq_true, if_true, if_false, true_iff, false_iff] at * <;>
      omega

theorem fraction_of_infinite_lt (h : infinite < x.magnitude) :
    x.magnitude = infinite + x.fraction := by
  have hexponent := x.exponent_le
  have hfraction := x.fraction_lt
  rw [magnitude_eq] at h ⊢
  simp only [infinite, exponentUnit] at *
  omega

theorem rank_of_nan (h : infinite < x.rank) : x.rank = infinite + x.fraction := by
  rcases x.sign_cases with ⟨-, hr, -⟩ | ⟨-, hr, -⟩
  · omega
  · have := fraction_of_infinite_lt (x := x) (by omega)
    omega

theorem rank_of_negativeNaN (h : x.rank < -infinite - 1) :
    x.rank = -infinite - 1 - x.fraction := by
  rcases x.sign_cases with ⟨-, hr, -⟩ | ⟨-, hr, -⟩
  · have := fraction_of_infinite_lt (x := x) (by omega)
    omega
  · omega

-- ---------------------------------------------------------------------------
-- Finite values
-- ---------------------------------------------------------------------------

theorem rank_lt_of_worth_lt (h : x.worth < y.worth) : x.rank < y.rank := by
  have hxy := @units_lt_iff x y
  have hyx := @units_lt_iff y x
  rcases x.sign_cases with ⟨-, hx, hx'⟩ | ⟨-, hx, hx'⟩ <;>
    rcases y.sign_cases with ⟨-, hy, hy'⟩ | ⟨-, hy, hy'⟩ <;> omega

theorem units_eq_zero (h : x.units = 0) : x.magnitude = 0 :=
  units_eq_iff.mp (h.trans (rfl : zero.units = 0).symm)

theorem worth_lt_or_zeros (h : x.rank < y.rank) :
    x.worth < y.worth ∨ (x = negZero ∧ y = zero) := by
  have hxy := @units_lt_iff x y
  have hyx := @units_lt_iff y x
  refine (Decidable.em (x.worth < y.worth)).imp_right fun hworth => ?_
  have hzeros : x.units = 0 ∧ y.units = 0 := by
    rcases x.sign_cases with ⟨-, hx, hx'⟩ | ⟨-, hx, hx'⟩ <;>
      rcases y.sign_cases with ⟨-, hy, hy'⟩ | ⟨-, hy, hy'⟩ <;> omega
  have hx := units_eq_zero hzeros.1
  have hy := units_eq_zero hzeros.2
  have hranks : x.rank = -1 ∧ y.rank = 0 := by
    rcases x.sign_cases with ⟨-, hx', -⟩ | ⟨-, hx', -⟩ <;>
      rcases y.sign_cases with ⟨-, hy', -⟩ | ⟨-, hy', -⟩ <;> omega
  exact ⟨rank_inj hranks.1, rank_inj hranks.2⟩

-- ---------------------------------------------------------------------------
-- The total order
-- ---------------------------------------------------------------------------

theorem rank_lt_of_before (h : x.Before y) : x.rank < y.rank := by
  have hx := x.rank_of_kind
  have hy := y.rank_of_kind
  cases h with
  | kinds h =>
    cases hkx : x.kind <;> cases hky : y.kind <;> simp only [hkx, hky, Kind.place] at * <;> omega
  | negativeNaNs hkx hky h =>
    rw [hkx] at hx
    rw [hky] at hy
    rw [rank_of_negativeNaN hx, rank_of_negativeNaN hy]
    omega
  | finite _ _ h => exact rank_lt_of_worth_lt h
  | zeros => decide
  | nans hkx hky h =>
    rw [hkx] at hx
    rw [hky] at hy
    rw [rank_of_nan hx, rank_of_nan hy]
    omega

theorem before_of_rank_lt (hkind : x.kind = y.kind) (h : x.rank < y.rank) : x.Before y := by
  have hx := x.rank_of_kind
  have hy := y.rank_of_kind
  rw [← hkind] at hy
  cases hk : x.kind with
  | negativeNaN =>
    rw [hk] at hx hy
    rw [rank_of_negativeNaN hx, rank_of_negativeNaN hy] at h
    exact .negativeNaNs hk (hkind.symm.trans hk) (by omega)
  | negativeInfinity | infinity =>
    rw [hk] at hx hy
    simp only at hx hy
    omega
  | finite =>
    rcases worth_lt_or_zeros h with hworth | ⟨rfl, rfl⟩
    · exact .finite hk (hkind.symm.trans hk) hworth
    · exact .zeros
  | nan =>
    rw [hk] at hx hy
    rw [rank_of_nan hx, rank_of_nan hy] at h
    exact .nans hk (hkind.symm.trans hk) (by omega)

theorem Kind.place_inj {k l : Kind} (h : k.place = l.place) : k = l := by
  cases k <;> cases l <;> first | rfl | cases h

theorem before_iff : x.Before y ↔ x.rank < y.rank := by
  refine ⟨rank_lt_of_before, fun h => ?_⟩
  rcases Nat.lt_trichotomy x.kind.place y.kind.place with hlt | heq | hgt
  · exact .kinds hlt
  · exact before_of_rank_lt (Kind.place_inj heq) h
  · exact absurd (rank_lt_of_before (.kinds hgt)) (Int.not_lt.mpr (Int.le_of_lt h))

instance : DecidableRel Before :=
  fun _ _ => decidable_of_iff _ before_iff.symm

end Binary64

open Binary64 (Before totalLE)

variable {samples others : List Binary64} {place i : Nat} {x y default : Binary64}

-- ---------------------------------------------------------------------------
-- Places
-- ---------------------------------------------------------------------------

/-- Whether a value stands at a place, from zero on, when samples are put in order, each as often as
it occurs. -/
structure StandsAt (samples : List Binary64) (place : Nat) (x : Binary64) : Prop where
  mem : x ∈ samples
  before_le : samples.countP (fun y => y.Before x) ≤ place
  lt_upTo : place < samples.countP fun y => y = x ∨ y.Before x

theorem Binary64.eq_or_before_iff : y = x ∨ y.Before x ↔ y.rank ≤ x.rank := by
  rw [before_iff]
  constructor
  · rintro (rfl | hlt)
    · exact le_refl _
    · exact le_of_lt hlt
  · exact fun hle => (lt_or_eq_of_le hle).symm.imp_left rank_inj

theorem Binary64.not_before_iff : ¬ x.Before y ↔ y = x ∨ y.Before x := by
  rw [eq_or_before_iff, before_iff, not_lt]

namespace StandsAt

theorem perm (h : StandsAt samples place x) (hperm : samples.Perm others) :
    StandsAt others place x where
  mem := hperm.mem_iff.mp h.mem
  before_le := hperm.countP_eq _ ▸ h.before_le
  lt_upTo := hperm.countP_eq _ ▸ h.lt_upTo

theorem after_lt (h : StandsAt samples place x) :
    samples.countP (fun y => x.Before y) + place < samples.length := by
  have hupTo : samples.countP (fun y => ¬ decide (x.Before y) = true) =
      samples.countP fun y => y = x ∨ y.Before x := by
    refine List.countP_congr fun y _ => ?_
    rw [decide_eq_true_iff, decide_eq_true_iff, decide_eq_true_iff, Binary64.not_before_iff]
  have hlt := h.lt_upTo
  rw [List.length_eq_countP_add_countP fun y => decide (x.Before y), hupTo]
  omega

theorem not_before (hx : StandsAt samples place x) (hy : StandsAt samples place y) :
    ¬ x.Before y := by
  intro hbefore
  refine Nat.not_lt.mpr hy.before_le (Nat.lt_of_lt_of_le hx.lt_upTo ?_)
  refine List.countP_mono_left fun z _ hz => ?_
  rw [decide_eq_true_iff, Binary64.eq_or_before_iff] at hz
  rw [decide_eq_true_iff, Binary64.before_iff] at *
  exact lt_of_le_of_lt hz hbefore

theorem eq (hx : StandsAt samples place x) (hy : StandsAt samples place y) : x = y :=
  (Binary64.not_before_iff.mp (hy.not_before hx)).resolve_right (hx.not_before hy)

theorem least (h : StandsAt samples 0 x) (hy : y ∈ samples) : x = y ∨ x.Before y := by
  have hnone := List.countP_eq_zero.mp (Nat.le_zero.mp h.before_le) y hy
  rw [decide_eq_true_iff, Binary64.not_before_iff] at hnone
  exact hnone

theorem greatest (h : StandsAt samples (samples.length - 1) x) (hy : y ∈ samples) :
    y = x ∨ y.Before x := by
  have hafter := h.after_lt
  have hnone := List.countP_eq_zero.mp (by omega : samples.countP (fun y => x.Before y) = 0) y hy
  rw [decide_eq_true_iff, Binary64.not_before_iff] at hnone
  exact hnone

end StandsAt

/-- Where samples are sorted, as many come before one of them as stand to its left. -/
theorem standsAt_of_pairwise {before after : List Binary64}
    (h : (before ++ x :: after).Pairwise fun x y => x.rank ≤ y.rank) :
    StandsAt (before ++ x :: after) before.length x := by
  obtain ⟨-, hright, hleft⟩ := List.pairwise_append.mp h
  have hafter : ∀ y ∈ x :: after, x.rank ≤ y.rank :=
    List.forall_mem_cons.mpr ⟨le_refl _, (List.pairwise_cons.mp hright).1⟩
  constructor
  · exact List.mem_append_right _ List.mem_cons_self
  · have hnone : (x :: after).countP (fun y => y.Before x) = 0 := by
      refine List.countP_eq_zero.mpr fun y hy => ?_
      rw [decide_eq_true_iff, Binary64.before_iff, not_lt]
      exact hafter y hy
    rw [List.countP_append, hnone, Nat.add_zero]
    exact List.countP_le_length
  · have hall : before.countP (fun y => y = x ∨ y.Before x) = before.length := by
      refine List.countP_eq_length.mpr fun y hy => ?_
      rw [decide_eq_true_iff, Binary64.eq_or_before_iff]
      exact hleft y hy x List.mem_cons_self
    have hself : 0 < (x :: after).countP fun y => y = x ∨ y.Before x :=
      List.countP_pos_iff.mpr ⟨x, List.mem_cons_self, decide_eq_true (.inl rfl)⟩
    rw [List.countP_append, hall]
    exact Nat.lt_add_of_pos_right hself

theorem standsAt_getD (hi : i < samples.length) :
    StandsAt samples i ((samples.mergeSort totalLE).getD i default) := by
  have hsorted := pairwise_mergeSort_rank Binary64.totalLE_iff samples
  have hperm : (samples.mergeSort totalLE).Perm samples := List.mergeSort_perm samples _
  generalize samples.mergeSort totalLE = sorted at *
  have hlt : i < sorted.length := hperm.length_eq ▸ hi
  have hsplit : sorted = sorted.take i ++ sorted[i] :: sorted.drop (i + 1) := by
    rw [List.getElem_cons_drop, List.take_append_drop]
  rw [hsplit] at hsorted
  have hstands := standsAt_of_pairwise hsorted
  rw [← hsplit, List.length_take_of_le hlt.le] at hstands
  rw [List.getD_eq_getElem _ _ hlt]
  exact hstands.perm hperm

-- ---------------------------------------------------------------------------
-- Summaries
-- ---------------------------------------------------------------------------

namespace Summary

theorem ofSamples_of_ne_nil (h : samples ≠ []) :
    (ofSamples samples).min = (samples.mergeSort totalLE).getD 0 .nan ∧
      (ofSamples samples).max = (samples.mergeSort totalLE).getD (samples.length - 1) .nan ∧
      (ofSamples samples).median = medianOfSorted (samples.mergeSort totalLE) := by
  have hlength : (samples.mergeSort totalLE).length = samples.length := List.length_mergeSort _
  rw [ofSamples, ← hlength]
  cases hsorted : samples.mergeSort totalLE with
  | nil =>
    rw [hsorted] at hlength
    exact absurd (List.length_eq_zero_iff.mp hlength.symm) h
  | cons first rest =>
    refine ⟨rfl, ?_, rfl⟩
    change (first :: rest).getLastD first = _
    rw [List.getLastD_eq_getLast?, List.getLast?_eq_getElem?, List.getD_eq_getElem?_getD,
      List.getElem?_eq_getElem (by simp)]
    rfl

/-- The samples by their places: the number of them, those at the first and the last place, and for
the median the one in the middle or, of an even number, half the sum of the two there. Each place
has one value. -/
theorem order_statistics (h : samples ≠ []) :
    (ofSamples samples).count = samples.length ∧
    ((ofSamples samples).min ∈ samples ∧
      ∀ x ∈ samples, (ofSamples samples).min = x ∨ (ofSamples samples).min.Before x) ∧
    ((ofSamples samples).max ∈ samples ∧
      ∀ x ∈ samples, x = (ofSamples samples).max ∨ x.Before (ofSamples samples).max) ∧
    (samples.length % 2 = 1 → (ofSamples samples).median ∈ samples ∧
      samples.countP (fun x => x.Before (ofSamples samples).median) ≤ (samples.length - 1) / 2 ∧
      samples.countP (fun x => (ofSamples samples).median.Before x) ≤ (samples.length - 1) / 2) ∧
    (samples.length % 2 = 0 → ∃ x y, StandsAt samples (samples.length / 2 - 1) x ∧
      StandsAt samples (samples.length / 2) y ∧
      (ofSamples samples).median = (x + y) / .ofNat 2) ∧
    ∀ place < samples.length, ∃! x, StandsAt samples place x := by
  have hpos : 0 < samples.length := List.length_pos_iff.mpr h
  have hlength : (samples.mergeSort totalLE).length = samples.length := List.length_mergeSort _
  obtain ⟨hmin, hmax, hmedian⟩ := ofSamples_of_ne_nil h
  have hstands : ∀ {place}, place < samples.length →
      StandsAt samples place ((samples.mergeSort totalLE).getD place .nan) := standsAt_getD
  refine ⟨count_ofSamples samples, ?_, ?_, fun hodd => ?_, fun heven => ?_, fun place hplace => ?_⟩
  · have hfirst := hmin ▸ hstands hpos
    exact ⟨hfirst.mem, fun x => hfirst.least⟩
  · have hlast := hmax ▸ hstands (Nat.sub_lt hpos Nat.one_pos)
    exact ⟨hlast.mem, fun x => hlast.greatest⟩
  · rw [medianOfSorted, hlength, if_neg (by omega)] at hmedian
    have hmiddle := hmedian ▸ hstands (Nat.div_lt_self hpos Nat.one_lt_two)
    have hbefore := hmiddle.before_le
    have hafter := hmiddle.after_lt
    exact ⟨hmiddle.mem, by omega, by omega⟩
  · rw [medianOfSorted, hlength, if_pos heven] at hmedian
    exact ⟨_, _, hstands (by omega), hstands (by omega), hmedian⟩
  · exact ⟨_, hstands hplace, fun x hx => hx.eq (hstands hplace)⟩

/-- Both zeros between a negative and a positive value that are no number, in an odd number of
samples, and with one of these in an even number. -/
theorem order_statistics_zeros :
    ∃ odd even : List Binary64, odd = [.nan, .zero, ⟨0xfff8000000000000⟩, .negZero, .zero] ∧
      even = [.nan, .zero, .negZero, .zero] ∧ (ofSamples odd).count = 5 ∧
      (ofSamples odd).min = ⟨0xfff8000000000000⟩ ∧ (ofSamples odd).max = .nan ∧
      (ofSamples odd).median = .zero ∧ (ofSamples even).min = .negZero ∧
      (ofSamples even).median = (Binary64.zero + Binary64.zero) / .ofNat 2 := by
  refine ⟨_, _, rfl, rfl, ?_⟩
  obtain ⟨hcount, ⟨hmin, hleast⟩, ⟨hmax, hgreatest⟩, hodd, -, -⟩ := order_statistics
    (List.cons_ne_nil Binary64.nan [.zero, ⟨0xfff8000000000000⟩, .negZero, .zero])
  obtain ⟨-, ⟨hlow, hlowest⟩, -, -, heven, -⟩ := order_statistics
    (List.cons_ne_nil Binary64.nan [.zero, .negZero, .zero])
  obtain ⟨hmedian, hbefore, hafter⟩ := hodd rfl
  obtain ⟨x, y, hx, hy, hhalf⟩ := heven rfl
  refine ⟨hcount, ?_, ?_, ?_, ?_, ?_⟩
  · have hnone : ∀ m ∈ [.nan, .zero, ⟨0xfff8000000000000⟩, .negZero, .zero],
        ¬ Before m ⟨0xfff8000000000000⟩ := by decide
    exact (hleast _ (by decide)).resolve_right (hnone _ hmin)
  · have hnone : ∀ m ∈ [.nan, .zero, ⟨0xfff8000000000000⟩, .negZero, .zero],
        ¬ Before .nan m := by decide
    exact ((hgreatest _ (by decide)).resolve_right (hnone _ hmax)).symm
  · have honly : ∀ m ∈ [.nan, .zero, ⟨0xfff8000000000000⟩, .negZero, .zero],
        [.nan, .zero, ⟨0xfff8000000000000⟩, .negZero, .zero].countP (fun x => Before x m) ≤ 2 →
        [.nan, .zero, ⟨0xfff8000000000000⟩, .negZero, .zero].countP (fun x => Before m x) ≤ 2 →
        m = .zero := by decide
    exact honly _ hmedian hbefore hafter
  · have hnone : ∀ m ∈ [.nan, .zero, .negZero, .zero], ¬ Before m .negZero := by decide
    exact (hlowest _ (by decide)).resolve_right (hnone _ hlow)
  · have honly : ∀ place ∈ [1, 2], ∀ m ∈ [.nan, .zero, .negZero, .zero],
        [.nan, .zero, .negZero, .zero].countP (fun x => Before x m) ≤ place →
        place < [.nan, .zero, .negZero, .zero].countP (fun x => x = m ∨ Before x m) →
        m = .zero := by decide
    have hx := honly 1 (by decide) x hx.mem hx.before_le hx.lt_upTo
    have hy := honly 2 (by decide) y hy.mem hy.before_le hy.lt_upTo
    rw [hhalf, hx, hy]

end Summary

end BlockTree
