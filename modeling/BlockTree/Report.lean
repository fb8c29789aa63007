import BlockTree.Binary64
import BlockTree.Bytes

/-!
# Reports of repeated timings

Durations are collected as milliseconds under a numeric key. A summary holds the count, mean,
median, standard deviation and extremes of the samples of one key; a report writes one row per key,
in ascending order of the keys. In a second account a table of groups holds the samples, in whatever
order it likes and another one after each addition.
-/

namespace BlockTree

structure Duration where
  seconds : Nat
  nanos : Nat
  deriving DecidableEq, Repr

def nanosPerSecond : Nat := 1000000000

def Duration.ofParts (seconds nanos : Nat) : Except Fault Duration :=
  let carried := seconds + nanos / nanosPerSecond
  if carried < wordLimit then .ok ⟨carried, nanos % nanosPerSecond⟩ else .error .overflow

def Duration.milliseconds (d : Duration) : Binary64 :=
  (.ofNat d.seconds + .ofNat d.nanos / .ofNat nanosPerSecond) * .ofNat 1000

structure Summary where
  count : Nat
  mean : Binary64
  median : Binary64
  stdDev : Binary64
  min : Binary64
  max : Binary64
  deriving DecidableEq, Repr

namespace Summary

def empty : Summary :=
  ⟨0, .nan, .nan, .nan, .nan, .nan⟩

/-- The middle one of sorted samples, or half the sum of the two middle ones. -/
def medianOfSorted (sorted : List Binary64) : Binary64 :=
  let half := sorted.length / 2
  if sorted.length % 2 = 0 then
    (sorted.getD (half - 1) .nan + sorted.getD half .nan) / .ofNat 2
  else sorted.getD half .nan

/-- The summary of samples in any order. They are sorted in the total order first, so sums run
over them in ascending order. -/
def ofSamples (samples : List Binary64) : Summary :=
  match samples.mergeSort Binary64.totalLE with
  | [] => empty
  | first :: rest =>
    let sorted := first :: rest
    let count := Binary64.ofNat sorted.length
    let mean := Binary64.sum sorted / count
    let variance := Binary64.sum (sorted.map fun x => (x - mean) * (x - mean)) / count
    { count := sorted.length, mean, median := medianOfSorted sorted, stdDev := variance.sqrt
      min := first, max := sorted.getLastD first }

/-- Two standard deviations relative to a positive mean, in percent. -/
def spreadPercent (s : Summary) : Binary64 :=
  if s.mean.isPositive then (.ofNat 2 * s.stdDev / s.mean) * .ofNat 100 else .zero

def line (s : Summary) : String :=
  toString s.count ++ ": " ++ Decimal.fixed 3 s.mean ++ "ms ±" ++
    Decimal.fixed 1 s.spreadPercent ++ "% [" ++ Decimal.fixed 3 s.min ++ "|" ++
    Decimal.fixed 3 s.median ++ "|" ++ Decimal.fixed 3 s.max ++ "]"

def row (key : Int) (s : Summary) : String :=
  ",".intercalate
    (["\"" ++ toString key ++ "\"", toString s.count] ++
      [s.mean, s.median, s.stdDev, s.min, s.max].map (Decimal.fixed 3))

end Summary

structure Report where
  entries : Array (Int × Binary64) := #[]
  deriving DecidableEq, Repr

namespace Report

def add (r : Report) (key : Int) (d : Duration) : Report :=
  ⟨r.entries.push (key, d.milliseconds)⟩

def samples (r : Report) (key : Int) : List Binary64 :=
  (r.entries.toList.filter (·.1 = key)).map (·.2)

def summary (r : Report) (key : Int) : Summary :=
  .ofSamples (r.samples key)

def keys (r : Report) : List Int :=
  (r.entries.toList.map (·.1)).eraseDups.mergeSort (· ≤ ·)

def header : String := "N,COUNT,MEAN,MEDIAN,STDDEV,MIN,MAX"

def lines (r : Report) : List String :=
  header :: r.keys.map fun key => (r.summary key).row key

def csv (r : Report) : String :=
  String.join (r.lines.map (· ++ "\n"))

end Report

-- ---------------------------------------------------------------------------
-- Samples kept in a table
-- ---------------------------------------------------------------------------

def Report.ofAdds (adds : List (Int × Duration)) : Report :=
  adds.foldl (fun r (key, d) => r.add key d) {}

/-- Keys, each once, with their samples in the order of arrival. -/
abbrev Table := List (Int × List Binary64)

namespace Table

def samples (table : Table) (key : Int) : List Binary64 :=
  (table.lookup key).getD []

def add (table : Table) (key : Int) (d : Duration) : Table :=
  (key, table.samples key ++ [d.milliseconds]) :: table.filter (·.1 ≠ key)

def summary (table : Table) (key : Int) : Summary :=
  .ofSamples (table.samples key)

def lines (table : Table) : List String :=
  Report.header :: ((table.map (·.1)).mergeSort (· ≤ ·)).map fun key => (table.summary key).row key

def csv (table : Table) : String :=
  String.join (table.lines.map (· ++ "\n"))

inductive Filled : List (Int × Duration) → Table → Prop
  | empty : Filled [] []
  | add {adds : List (Int × Duration)} {table next : Table} {key : Int} {d : Duration}
      (h : Filled adds table) (hnext : next.Perm (table.add key d)) :
      Filled (adds ++ [(key, d)]) next

end Table

end BlockTree
