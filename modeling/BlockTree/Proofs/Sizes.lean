import BlockTree.Checked.Cursor

/-!
# The sizes of a benchmark

The sizes are the multiples of the step up to the largest size, so they ascend, and the last one
comes within a step of it. How many there are depends on two divisions, one inside the other, and on
what becomes of them where they come to nothing. The walk through the sizes in machine words has a
result, and it is the sizes (`Checked.sizes?_eq`): what carries it is how many multiples of the step
have been taken.
-/

namespace BlockTree

namespace Checked

-- ---------------------------------------------------------------------------
-- Spans
-- ---------------------------------------------------------------------------

namespace Span

variable {s : Span} {n : Nat}

theorem nth?_of_le (hword : s.last < wordLimit) (hspent : s.spent = false)
    (hle : s.first + n ≤ s.last) :
    s.nth? n = some (some (s.first + n),
      if s.first + n < s.last then { s with first := s.first + n + 1 } else s.spend) := by
  have hleft : ¬ (s.spent ∨ s.last < s.first) := by
    simp [hspent]
    omega
  have hplace : add? s.first n = some (s.first + n) := add?_eq (by omega)
  simp only [nth?, if_neg hleft, hplace]
  split
  · next hlt => simp [add?_eq (show s.first + n + 1 < wordLimit by omega)]
  · next hnot => simp [Nat.le_antisymm hle (Nat.le_of_not_lt hnot)]

theorem nth?_of_lt (h : s.spent = true ∨ s.last < s.first + n) :
    ∃ after, s.nth? n = some (none, after) := by
  unfold nth?
  split
  · exact ⟨_, rfl⟩
  · next hleft =>
    have hpast : s.last < s.first + n := h.resolve_left fun hspent => hleft (.inl hspent)
    split
    · exact ⟨_, rfl⟩
    · next place hplace =>
      unfold add? at hplace
      split at hplace <;> cases hplace
      exact ⟨s.spend, by simp [Nat.lt_asymm hpast, (Nat.ne_of_lt hpast).symm]⟩

end Span

-- ---------------------------------------------------------------------------
-- Strides
-- ---------------------------------------------------------------------------

namespace Strides

variable {s : Strides} {step last taken : Nat}

/-- Whether the multiples of a step up to a last word are walked through, and so many of them have
been taken. -/
structure HasTaken (s : Strides) (step last taken : Nat) : Prop where
  gap_eq : s.gap + 1 = step
  last_eq : s.span.last = last
  place_eq : s.span.spent = false → s.span.first + s.ahead = (taken + 1) * step
  lt_of_spent : s.span.spent = true → last < (taken + 1) * step

theorem hasTaken_start (last : Nat) (hstep : 0 < step) :
    ∃ s, start? { first := step, last } step = some s ∧ s.HasTaken step last 0 := by
  refine ⟨{ span := { first := step, last }, gap := step - 1 }, ?_, ?_⟩
  · simp [start?, sub?_eq hstep]
  · exact ⟨Nat.sub_add_cancel hstep, rfl, fun _ => by simp [ahead], fun h => by cases h⟩

namespace HasTaken

theorem next?_of_le (h : s.HasTaken step last taken) (hword : last < wordLimit)
    (hle : (taken + 1) * step ≤ last) :
    ∃ after, s.next? = some (some ((taken + 1) * step), after) ∧
      after.HasTaken step last (taken + 1) := by
  obtain ⟨hgap, rfl, hplace, hspent⟩ := h
  have hunspent : s.span.spent = false := by
    cases hs : s.span.spent with
    | false => rfl
    | true => exact absurd (hspent hs) (Nat.not_lt.mpr hle)
  have hplace := hplace hunspent
  have hnext : (taken + 1 + 1) * step = (taken + 1) * step + 1 + s.gap := by
    rw [Nat.succ_mul (taken + 1), ← hgap]
    omega
  have hnth := Span.nth?_of_le hword hunspent (hplace ▸ hle)
  rw [hplace] at hnth
  split at hnth
  · refine ⟨_, next?_of_nth? hnth, hgap, rfl, fun _ => ?_, fun hs => ?_⟩
    · simp [ahead, hnext]
    · exact absurd (hunspent.symm.trans hs) (by decide)
  · -- The last word is taken, whether or not there is a word behind it.
    refine ⟨_, next?_of_nth? hnth, hgap, rfl, fun hs => ?_, fun _ => ?_⟩
    · cases hs
    · simp only [hnext]
      omega

theorem next?_of_lt (h : s.HasTaken step last taken) (hlt : last < (taken + 1) * step) :
    ∃ after, s.next? = some (none, after) := by
  obtain ⟨-, rfl, hplace, -⟩ := h
  have hpast : s.span.spent = true ∨ s.span.last < s.span.first + s.ahead := by
    cases hs : s.span.spent with
    | true => exact .inl rfl
    | false => exact .inr (hplace hs ▸ hlt)
  obtain ⟨after, hnth⟩ := Span.nth?_of_lt hpast
  exact ⟨_, next?_of_nth? hnth⟩

theorem rest?_eq (h : s.HasTaken step last taken) (hword : last < wordLimit) :
    s.rest? = some ((List.range' (taken + 1) (last / step - taken)).map (· * step)) := by
  have hstep : 0 < step := h.gap_eq ▸ Nat.succ_pos s.gap
  induction hn : last / step - taken generalizing s taken with
  | zero =>
    have hlt : last < (taken + 1) * step := by
      rw [← Nat.div_lt_iff_lt_mul hstep]
      omega
    obtain ⟨after, hnext⟩ := h.next?_of_lt hlt
    exact rest?_of_none hnext
  | succ n ih =>
    have hle : (taken + 1) * step ≤ last := by
      rw [← Nat.le_div_iff_mul_le hstep]
      omega
    obtain ⟨after, hnext, hafter⟩ := h.next?_of_le hword hle
    rw [rest?_of_some hnext, ih hafter (by omega)]
    rfl

end HasTaken

end Strides

/-- In machine words the walk through the sizes never leaves its range, and comes to an end. -/
theorem sizes?_eq {b : Benchmark} (hword : b.maxSize < wordLimit) : sizes? b = some b.sizes := by
  have hdivisor : max 1 b.division ≠ 0 := by omega
  have hstep : sizeStep? b = some b.step := by simp [sizeStep?, div?, hdivisor, Benchmark.step]
  obtain ⟨s, hstart, htaken⟩ := Strides.hasTaken_start b.maxSize b.step_pos
  simp [sizes?, hstep, hstart, htaken.rest?_eq hword, Benchmark.sizes]

end Checked

-- ---------------------------------------------------------------------------
-- Sizes
-- ---------------------------------------------------------------------------

namespace Benchmark

variable {b : Benchmark}

@[simp] theorem length_sizes (b : Benchmark) : b.sizes.length = b.maxSize / b.step := by
  simp [sizes]

theorem mem_sizes {size : Nat} :
    size ∈ b.sizes ↔ 0 < size ∧ size ≤ b.maxSize ∧ b.step ∣ size := by
  simp only [sizes, List.mem_map, List.mem_range'_1]
  constructor
  · rintro ⟨i, ⟨hpos, hlt⟩, rfl⟩
    refine ⟨Nat.mul_pos hpos b.step_pos, ?_, Nat.dvd_mul_left b.step i⟩
    exact (Nat.le_div_iff_mul_le b.step_pos).mp (by omega)
  · rintro ⟨hpos, hle, i, rfl⟩
    rw [Nat.mul_comm] at hpos hle
    have hi : i ≤ b.maxSize / b.step := (Nat.le_div_iff_mul_le b.step_pos).mpr hle
    exact ⟨i, ⟨Nat.pos_of_mul_pos_right hpos, by omega⟩, Nat.mul_comm i b.step⟩

theorem pairwise_sizes (b : Benchmark) : b.sizes.Pairwise (· < ·) := by
  have hindices : (List.range' 1 (b.maxSize / b.step)).Pairwise (· < ·) := List.pairwise_lt_range'
  exact List.pairwise_map.mpr
    (hindices.imp fun hlt => Nat.mul_lt_mul_of_pos_right hlt b.step_pos)

theorem getLast?_sizes (h : 0 < b.maxSize) :
    ∃ last, b.sizes.getLast? = some last ∧ b.maxSize - last < b.step := by
  have hcount : 0 < b.maxSize / b.step := by
    refine Nat.div_pos ?_ b.step_pos
    have := Nat.div_le_self b.maxSize (max 1 b.division)
    simp only [step]
    omega
  refine ⟨b.maxSize / b.step * b.step, ?_, ?_⟩
  · have hlast : (List.range' 1 (b.maxSize / b.step)).getLast? = some (b.maxSize / b.step) := by
      rw [List.getLast?_range', if_neg (Nat.ne_of_gt hcount)]
      congr 1
      omega
    simp [sizes, hlast]
  · have hrest := Nat.mod_lt b.maxSize b.step_pos
    have hsum := Nat.div_add_mod' b.maxSize b.step
    omega

theorem le_length_sizes (b : Benchmark) :
    min b.maxSize (max 1 b.division) ≤ b.sizes.length := by
  rw [length_sizes, Nat.le_div_iff_mul_le b.step_pos, step]
  rcases Nat.lt_or_ge b.maxSize (max 1 b.division) with hfew | hmany
  · rw [Nat.min_eq_left (Nat.le_of_lt hfew), Nat.div_eq_of_lt hfew]
    simp
  · have hquotient : 1 ≤ b.maxSize / max 1 b.division := Nat.div_pos hmany (by omega)
    rw [Nat.min_eq_right hmany, Nat.max_eq_right hquotient]
    exact Nat.mul_div_le b.maxSize _

theorem length_sizes_lt (hpos : 0 < b.division) (hle : b.division ≤ b.maxSize) :
    b.sizes.length < 2 * b.division := by
  rw [length_sizes, Nat.div_lt_iff_lt_mul b.step_pos, step, Nat.max_eq_right hpos]
  have hquotient : 1 ≤ b.maxSize / b.division := Nat.div_pos hle hpos
  rw [Nat.max_eq_right hquotient]
  -- The quotient is at least one, so twice it is at least the next number.
  calc b.maxSize < b.division * (b.maxSize / b.division + 1) :=
        Nat.lt_mul_div_succ b.maxSize hpos
    _ ≤ b.division * (2 * (b.maxSize / b.division)) := Nat.mul_le_mul_left _ (by omega)
    _ = 2 * b.division * (b.maxSize / b.division) := by
        rw [← Nat.mul_assoc, Nat.mul_comm b.division]

/-- The sizes are the multiples of the step up to the largest size, and a machine comes to each of
them in turn and then to an end, wherever the next multiple would be. There are at least as many as
were aimed at, or as many as there can be, and fewer than twice as many. -/
theorem sizes_evenly_spaced (hword : b.maxSize < wordLimit) :
    let step := max 1 (b.maxSize / max 1 b.division)
    Checked.sizes? b = some b.sizes ∧
    b.sizes = (List.range' 1 (b.maxSize / step)).map (· * step) ∧
    (b.maxSize = 0 → b.sizes = []) ∧
    (∀ size, size ∈ b.sizes ↔ 0 < size ∧ size ≤ b.maxSize ∧ step ∣ size) ∧
    (0 < b.maxSize → ∃ last, b.sizes.getLast? = some last ∧ b.maxSize - last < step) ∧
    min b.maxSize (max 1 b.division) ≤ b.sizes.length ∧
    (1 ≤ b.division → b.division ≤ b.maxSize → b.sizes.length < 2 * b.division) := by
  refine ⟨Checked.sizes?_eq hword, rfl, fun hnone => ?_, fun size => mem_sizes, getLast?_sizes,
    b.le_length_sizes, length_sizes_lt⟩
  simp [sizes, hnone]

/-- Half the largest word is taken twice; three times as much is no word. -/
theorem sizes_evenly_spaced_widest :
    ∃ b : Benchmark, b.maxSize = wordLimit - 1 ∧ b.division = 2 ∧
      Checked.sizes? b = some [0x7fffffffffffffff, 0xfffffffffffffffe] ∧
      Checked.add? 0xfffffffffffffffe b.step = none ∧ b.sizes.length < 2 * b.division := by
  obtain ⟨b, hmax, hdivision⟩ : ∃ b : Benchmark, b.maxSize = wordLimit - 1 ∧ b.division = 2 :=
    ⟨{ maxSize := wordLimit - 1, division := 2, trials := 0, output := "", session := "" }, rfl,
      rfl⟩
  have hstep : b.step = 0x7fffffffffffffff := by
    rw [step, hmax, hdivision]
    decide
  obtain ⟨hchecked, -, -, -, -, -, hfew⟩ :=
    sizes_evenly_spaced (b := b) (by rw [hmax]; decide)
  refine ⟨b, hmax, hdivision, ?_, ?_, hfew (by rw [hdivision]; decide) ?_⟩
  · rw [hchecked, sizes, hstep, hmax]
    decide
  · rw [hstep]
    decide
  · rw [hdivision, hmax]
    decide

end Benchmark

end BlockTree
