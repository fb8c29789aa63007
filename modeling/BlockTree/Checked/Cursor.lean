import BlockTree.Benchmark
import BlockTree.Checked

/-!
# Cursors and sizes on machine words

A machine comes to every block by way of all those before it, and counts the rest by a difference
that may be no word. It comes to the sizes of a benchmark one by one too: it takes the first word of
a span and then the word so many places ahead, until it is past the end. The word behind the last
one may be no word, so a span tells apart that its last word is still to be taken and that it has
been.
-/

namespace BlockTree

-- ---------------------------------------------------------------------------
-- Cursors
-- ---------------------------------------------------------------------------

namespace Checked

open BlockCursor (Step Use)

def take? (c : BlockCursor) : Option (Option Block × BlockCursor) := do
  match ← next? c with
  | some (block, rest) => return (some block, rest)
  | none => return (none, c)

def nth? : Nat → BlockCursor → Option (Option Block × BlockCursor)
  | 0, c => take? c
  | n + 1, c => do
    match ← take? c with
    | (some _, rest) => nth? n rest
    | (none, rest) => return (none, rest)

def bounds? (c : BlockCursor) : Option (Nat × Option Nat) := do
  let left ← remaining? c
  return (left, some left)

def length? (c : BlockCursor) : Option Nat := do
  let (lower, upper) ← bounds? c
  if upper = some lower then return lower else none

def rest? (c : BlockCursor) : Option (List Block × BlockCursor) :=
  match _hnext : next? c with
  | none => none
  | some none => some ([], c)
  | some (some (block, rest)) => do
    let (blocks, last) ← rest? rest
    return (block :: blocks, last)
termination_by c.remaining
decreasing_by exact remaining_lt_of_next? ‹_›

theorem rest?_of_none {c : BlockCursor} (h : next? c = some none) : rest? c = some ([], c) := by
  rw [rest?]
  split <;> simp_all

theorem rest?_of_some {c rest : BlockCursor} {b : Block} (h : next? c = some (some (b, rest))) :
    rest? c = do
      let (blocks, last) ← rest? rest
      return (b :: blocks, last) := by
  rw [rest?]
  split <;> simp_all

def lastBlock? (c : BlockCursor) : Option (Option Block × BlockCursor) := do
  let (blocks, last) ← rest? c
  return (blocks.getLast?, last)

def use? (c : BlockCursor) : (u : Use) → Option (u.Answer × BlockCursor)
  | .next => take? c
  | .nth n => nth? n c
  | .length => do return (← length? c, c)
  | .bounds => do return (← bounds? c, c)
  | .last => lastBlock? c
  | .rest => rest? c

def step? (cursors : List BlockCursor) : Step → Option (List BlockCursor)
  | .use k u =>
    match cursors[k]? with
    | some c => do
      let (_, after) ← use? c u
      return cursors.set k after
    | none => some cursors
  | .copy k => some (cursors ++ cursors[k]?.toList)

def run? (cursors : List BlockCursor) (steps : List Step) : Option (List BlockCursor) :=
  steps.foldlM step? cursors

-- ---------------------------------------------------------------------------
-- Spans and strides
-- ---------------------------------------------------------------------------

def div? (a b : Nat) : Option Nat :=
  if b = 0 then none else some (a / b)

/-- The words from `first` to `last`, both included; none is left of a span that is spent. -/
structure Span where
  first : Nat
  last : Nat
  spent : Bool := false

namespace Span

def remaining (s : Span) : Nat :=
  if s.spent then 0 else s.last + 1 - s.first

def spend (s : Span) : Span :=
  { s with first := s.last, spent := true }

def nth? (s : Span) (n : Nat) : Option (Option Nat × Span) :=
  if s.spent ∨ s.last < s.first then some (none, s)
  else
    -- A place that is no word lies past the end like any other.
    match add? s.first n with
    | none => some (none, s.spend)
    | some place =>
      if place < s.last then do
        let first ← add? place 1
        return (some place, { s with first })
      else if place = s.last then some (some place, s.spend)
      else some (none, s.spend)

theorem remaining_lt_of_nth? {s after : Span} {n word : Nat}
    (h : s.nth? n = some (some word, after)) : after.remaining < s.remaining := by
  unfold nth? at h
  split at h
  · cases h
  · next hleft =>
    simp only [not_or, Bool.not_eq_true, Nat.not_lt] at hleft
    obtain ⟨hspent, hle⟩ := hleft
    split at h
    · cases h
    · next place hplace =>
      unfold add? at hplace
      split at hplace <;> cases hplace
      split at h
      · simp only [Option.bind_eq_bind, Option.bind_eq_some_iff] at h
        obtain ⟨first, hfirst, hafter⟩ := h
        cases hafter
        unfold add? at hfirst
        split at hfirst <;> cases hfirst
        simp only [remaining, hspent, Bool.false_eq_true, if_false]
        omega
      · split at h <;> cases h
        simp only [remaining, hspent, spend, Bool.false_eq_true, if_false, if_true]
        omega

end Span

/-- The first word of a span and those that follow it, `gap` words being passed over each time. -/
structure Strides where
  span : Span
  gap : Nat
  fresh : Bool := true

namespace Strides

def start? (span : Span) (stride : Nat) : Option Strides := do
  let gap ← sub? stride 1
  return { span, gap }

def ahead (s : Strides) : Nat :=
  if s.fresh then 0 else s.gap

def next? (s : Strides) : Option (Option Nat × Strides) := do
  let (word, span) ← s.span.nth? s.ahead
  return (word, { s with span, fresh := false })

theorem next?_of_nth? {s : Strides} {word : Option Nat} {span : Span}
    (h : s.span.nth? s.ahead = some (word, span)) :
    s.next? = some (word, { s with span, fresh := false }) := by
  rw [next?, h]
  rfl

theorem remaining_lt_of_next? {s after : Strides} {word : Nat}
    (h : s.next? = some (some word, after)) : after.span.remaining < s.span.remaining := by
  simp only [next?, Option.bind_eq_bind, Option.bind_eq_some_iff] at h
  obtain ⟨⟨found, span⟩, hnth, hafter⟩ := h
  cases hafter
  exact Span.remaining_lt_of_nth? hnth

def rest? (s : Strides) : Option (List Nat) :=
  match _hnext : s.next? with
  | none => none
  | some (none, _) => some []
  | some (some word, after) => do
    let words ← after.rest?
    return word :: words
termination_by s.span.remaining
decreasing_by exact remaining_lt_of_next? ‹_›

theorem rest?_of_none {s after : Strides} (h : s.next? = some (none, after)) :
    s.rest? = some [] := by
  rw [rest?]
  split <;> simp_all

theorem rest?_of_some {s after : Strides} {word : Nat} (h : s.next? = some (some word, after)) :
    s.rest? = do
      let words ← after.rest?
      return word :: words := by
  rw [rest?]
  split <;> simp_all

end Strides

-- ---------------------------------------------------------------------------
-- Benchmarks
-- ---------------------------------------------------------------------------

def sizeStep? (b : Benchmark) : Option Nat := do
  let quotient ← div? b.maxSize (max 1 b.division)
  return max 1 quotient

def sizes? (b : Benchmark) : Option (List Nat) := do
  let step ← sizeStep? b
  let strides ← Strides.start? { first := step, last := b.maxSize } step
  strides.rest?

end Checked

end BlockTree
