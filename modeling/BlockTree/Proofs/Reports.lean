import Mathlib
import BlockTree.Report

/-!
# Reports do not depend on the order of additions

Samples are sorted in a total order in which different values are never alike, so a summary follows
from which samples there are and how often: `Summary.ofSamples_eq_of_perm`. Keys are sorted too, so
a report follows from its groups of samples, and the order in which a table lists them does not
show: `Table.Groups.csv_eq`. Lines of fields are told apart again if no field has a comma or a line
feed in it, and numbers have neither, so what is written has as many lines and fields as the report
means it to have: `Report.fields_csv`.
-/

namespace BlockTree

-- ---------------------------------------------------------------------------
-- Fields of lines
-- ---------------------------------------------------------------------------

namespace Text

/-- The fields of a text, line by line. After a last line feed comes an empty line. -/
def fields (text : String) : List (List String) :=
  (text.toList.splitOn '\n').map fun line => (line.splitOn ',').map String.ofList

def IsField (text : String) : Prop :=
  ',' ∉ text.toList ∧ '\n' ∉ text.toList

instance (text : String) : Decidable (IsField text) :=
  inferInstanceAs (Decidable (_ ∧ _))

-- ---------------------------------------------------------------------------
-- Written fields are read back
-- ---------------------------------------------------------------------------

section

variable {c : Char} {line : List String}

theorem mem_intercalate {parts : List (List Char)} (h : c ∈ [','].intercalate parts) :
    c = ',' ∨ ∃ part ∈ parts, c ∈ part := by
  induction parts with
  | nil => cases h
  | cons part rest ih =>
    cases rest with
    | nil =>
      rw [List.intercalate_singleton] at h
      exact .inr ⟨part, List.mem_cons_self, h⟩
    | cons next rest =>
      rw [List.intercalate_cons_cons, List.mem_append, List.mem_append] at h
      rcases h with (h | h) | h
      · exact .inr ⟨part, List.mem_cons_self, h⟩
      · exact .inl (List.mem_singleton.mp h)
      · rcases ih h with hcomma | ⟨other, hother, hc⟩
        · exact .inl hcomma
        · exact .inr ⟨other, List.mem_cons_of_mem _ hother, hc⟩

theorem toList_intercalate_comma (line : List String) :
    (",".intercalate line).toList = [','].intercalate (line.map String.toList) :=
  String.toList_intercalate

theorem splitOn_comma (hline : line ≠ []) (h : ∀ field ∈ line, IsField field) :
    ((",".intercalate line).toList.splitOn ',').map String.ofList = line := by
  have hcomma : ∀ part ∈ line.map String.toList, ',' ∉ part := by
    intro part hpart hc
    obtain ⟨field, hfield, rfl⟩ := List.mem_map.mp hpart
    exact (h field hfield).1 hc
  rw [toList_intercalate_comma, List.splitOn_intercalate ',' hcomma (by simpa using hline),
    List.map_map]
  simp [Function.comp_def]

theorem lineFeed_not_mem (h : ∀ field ∈ line, IsField field) :
    '\n' ∉ (",".intercalate line).toList := by
  rw [toList_intercalate_comma]
  intro hc
  rcases mem_intercalate hc with hcomma | ⟨part, hpart, hc⟩
  · exact absurd hcomma (by decide)
  · obtain ⟨field, hfield, rfl⟩ := List.mem_map.mp hpart
    exact (h field hfield).2 hc

theorem fields_join {lines : List (List String)} (hlines : ∀ line ∈ lines, line ≠ [])
    (h : ∀ line ∈ lines, ∀ field ∈ line, IsField field) :
    fields (String.join (lines.map fun line => ",".intercalate line ++ "\n")) =
      lines ++ [[""]] := by
  induction lines with
  | nil => rfl
  | cons line rest ih =>
    rw [List.forall_mem_cons] at hlines h
    have hrest := ih hlines.2 h.2
    have htext :
        (String.join ((line :: rest).map fun line => ",".intercalate line ++ "\n")).toList =
          (",".intercalate line).toList ++
            '\n' :: (String.join (rest.map fun line => ",".intercalate line ++ "\n")).toList := by
      simp
    have hinside : ∀ c ∈ (",".intercalate line).toList, (· == '\n') c = false := by
      intro c hc
      exact beq_eq_false_iff_ne.mpr fun hfeed => lineFeed_not_mem h.1 (hfeed ▸ hc)
    rw [fields, htext, List.splitOn,
      List.splitOnP_append_cons_of_forall_mem hinside '\n' (beq_self_eq_true _), List.map_cons,
      splitOn_comma hlines.1 h.1]
    exact congrArg (line :: ·) hrest

end

-- ---------------------------------------------------------------------------
-- Numbers as fields
-- ---------------------------------------------------------------------------

theorem isField_append {a b : String} (ha : IsField a) (hb : IsField b) : IsField (a ++ b) := by
  simp only [IsField, String.toList_append, List.mem_append, not_or]
  exact ⟨⟨ha.1, hb.1⟩, ha.2, hb.2⟩

theorem isField_toString (n : Nat) : IsField (toString n) := by
  have hdigit : ∀ c ∈ (toString n).toList, c.isDigit := fun c hc =>
    Nat.isDigit_of_mem_toDigits (by decide) (by decide) (Nat.toList_repr ▸ hc)
  exact ⟨fun hc => absurd (hdigit _ hc) (by decide), fun hc => absurd (hdigit _ hc) (by decide)⟩

theorem isField_toString_int (n : Int) : IsField (toString n) := by
  cases n with
  | ofNat n => exact isField_toString n
  | negSucc n => exact isField_append (a := "-") (by decide) (isField_toString (n + 1))

theorem isField_pushn (count : Nat) : IsField ("".pushn '0' count) := by
  rw [String.pushn]
  induction count with
  | zero => decide
  | succ count ih =>
    rw [Nat.repeat, IsField, String.toList_push]
    simpa [IsField] using ih

theorem isField_placeText (places units : Nat) : IsField (Decimal.placeText places units) := by
  rw [Decimal.placeText]
  exact isField_append (isField_append (isField_append (isField_toString _) (by decide))
    (isField_pushn _)) (isField_toString _)

theorem isField_fixed (places : Nat) (x : Binary64) : IsField (Decimal.fixed places x) := by
  have hsign : IsField (if x.isNegative then "-" else "") := by
    split <;> decide
  unfold Decimal.fixed
  by_cases hnan : x.isNaN
  · rw [if_pos hnan]
    decide
  · rw [if_neg hnan]
    by_cases hinfinite : x.isInfinite
    · simp only [if_pos hinfinite]
      exact isField_append hsign (b := "inf") (by decide)
    · simp only [if_neg hinfinite]
      exact isField_append hsign (isField_placeText _ _)

end Text

-- ---------------------------------------------------------------------------
-- Summaries and reports
-- ---------------------------------------------------------------------------

-- ---------------------------------------------------------------------------
-- Sorted by rank
-- ---------------------------------------------------------------------------

section

variable {α : Type} {le : α → α → Bool} {rank : α → Int}

theorem pairwise_mergeSort_rank (hle : ∀ x y, le x y = true ↔ rank x ≤ rank y) (xs : List α) :
    (xs.mergeSort le).Pairwise fun x y => rank x ≤ rank y := by
  simp only [← hle]
  refine List.pairwise_mergeSort ?_ ?_ xs
  · intro x y z hxy hyz
    exact (hle x z).mpr (le_trans ((hle x y).mp hxy) ((hle y z).mp hyz))
  · intro x y
    rw [Bool.or_eq_true, hle, hle]
    exact le_total (rank x) (rank y)

end

theorem pairwise_mergeSort_of_nodup {keys : List Int} (h : keys.Nodup) :
    (keys.mergeSort (· ≤ ·)).Pairwise (· < ·) := by
  have hsorted : (keys.mergeSort (· ≤ ·)).Pairwise fun j k => id j ≤ id k :=
    pairwise_mergeSort_rank (fun _ _ => decide_eq_true_iff) keys
  have hnodup : (keys.mergeSort (· ≤ ·)).Nodup := (List.mergeSort_perm keys _).nodup_iff.mpr h
  exact (hsorted.and hnodup).imp fun h => lt_of_le_of_ne h.1 h.2

theorem Binary64.totalLE_iff (x y : Binary64) : x.totalLE y = true ↔ x.rank ≤ y.rank :=
  decide_eq_true_iff

/-- No two values have the same rank, so there is one way to sort. -/
theorem Binary64.mergeSort_eq_of_perm {samples others : List Binary64}
    (h : samples.Perm others) : samples.mergeSort totalLE = others.mergeSort totalLE := by
  have hsorted : (samples.mergeSort totalLE).Perm (others.mergeSort totalLE) :=
    ((List.mergeSort_perm samples _).trans h).trans (List.mergeSort_perm others _).symm
  exact hsorted.eq_of_pairwise (fun _ _ _ _ hxy hyx => rank_inj (le_antisymm hxy hyx))
    (pairwise_mergeSort_rank totalLE_iff samples) (pairwise_mergeSort_rank totalLE_iff others)

namespace Summary

theorem ofSamples_eq_of_perm {samples others : List Binary64} (h : samples.Perm others) :
    ofSamples samples = ofSamples others := by
  rw [ofSamples, ofSamples, Binary64.mergeSort_eq_of_perm h]

theorem count_ofSamples (samples : List Binary64) :
    (ofSamples samples).count = samples.length := by
  have hlength : (samples.mergeSort Binary64.totalLE).length = samples.length :=
    List.length_mergeSort samples
  rw [ofSamples]
  split
  · next hnil => exact (congrArg List.length hnil).symm.trans hlength
  · next first rest hcons => exact (congrArg List.length hcons).symm.trans hlength

end Summary

-- ---------------------------------------------------------------------------
-- Reports
-- ---------------------------------------------------------------------------

theorem nodup_eraseDups (keys : List Int) : keys.eraseDups.Nodup := by
  induction hn : keys.length using Nat.strongRecOn generalizing keys with
  | ind n ih =>
    cases keys with
    | nil => exact List.nodup_nil
    | cons key rest =>
      have hlt : (rest.filter fun k => !k == key).length < n :=
        Nat.lt_of_le_of_lt (List.length_filter_le _ _) (hn ▸ Nat.lt_succ_self _)
      rw [List.eraseDups_cons, List.nodup_cons, List.mem_eraseDups]
      exact ⟨by simp, ih _ hlt _ rfl⟩

namespace Report

variable {r : Report} {key other : Int} {d : Duration} {adds others : List (Int × Duration)}

theorem ofAdds_append_singleton (adds : List (Int × Duration)) (key : Int) (d : Duration) :
    ofAdds (adds ++ [(key, d)]) = (ofAdds adds).add key d := by
  simp only [ofAdds, List.foldl_append, List.foldl_cons, List.foldl_nil]

theorem entries_ofAdds (adds : List (Int × Duration)) :
    (ofAdds adds).entries.toList = adds.map fun a => (a.1, a.2.milliseconds) := by
  induction adds using List.reverseRecOn with
  | nil => rfl
  | append_singleton adds last ih =>
    rw [ofAdds_append_singleton, add, Array.toList_push, ih, List.map_append, List.map_singleton]

theorem samples_add (r : Report) (key : Int) (d : Duration) (other : Int) :
    (r.add key d).samples other =
      r.samples other ++ if key = other then [d.milliseconds] else [] := by
  rw [samples, add, Array.toList_push, List.filter_append, List.map_append, ← samples]
  split
  · next h => simp [h]
  · next h => simp [h]

theorem samples_ofAdds (adds : List (Int × Duration)) (key : Int) :
    (ofAdds adds).samples key = (adds.filter (·.1 = key)).map (·.2.milliseconds) := by
  rw [samples, entries_ofAdds, List.filter_map, List.map_map]
  rfl

theorem summary_eq_of_perm (h : adds.Perm others) (key : Int) :
    (ofAdds adds).summary key = (ofAdds others).summary key := by
  rw [summary, summary, samples_ofAdds, samples_ofAdds]
  exact Summary.ofSamples_eq_of_perm ((h.filter _).map _)

theorem count_summary_ofAdds (adds : List (Int × Duration)) (key : Int) :
    ((ofAdds adds).summary key).count = adds.countP (·.1 = key) := by
  rw [summary, Summary.count_ofSamples, samples_ofAdds, List.length_map,
    List.countP_eq_length_filter]

theorem mem_keys : key ∈ r.keys ↔ r.samples key ≠ [] := by
  rw [keys, List.mem_mergeSort, List.mem_eraseDups, samples, ne_eq, List.map_eq_nil_iff,
    List.filter_eq_nil_iff]
  simp

theorem mem_keys_ofAdds : key ∈ (ofAdds adds).keys ↔ ∃ d, (key, d) ∈ adds := by
  rw [mem_keys, samples_ofAdds, ne_eq, List.map_eq_nil_iff, List.filter_eq_nil_iff]
  simp

theorem pairwise_keys (r : Report) : r.keys.Pairwise (· < ·) :=
  pairwise_mergeSort_of_nodup (nodup_eraseDups _)

theorem csv_eq_of_perm (h : adds.Perm others) : (ofAdds adds).csv = (ofAdds others).csv := by
  have hkeys : (ofAdds adds).keys = (ofAdds others).keys := by
    refine (pairwise_keys _).eq_of_mem_iff (pairwise_keys _) fun key => ?_
    simp only [mem_keys_ofAdds, h.mem_iff]
  simp only [csv, lines, hkeys, summary_eq_of_perm h]

-- ---------------------------------------------------------------------------
-- Rows
-- ---------------------------------------------------------------------------

def headerFields : List String :=
  ["N", "COUNT", "MEAN", "MEDIAN", "STDDEV", "MIN", "MAX"]

def rowFields (key : Int) (s : Summary) : List String :=
  ["\"" ++ toString key ++ "\"", toString s.count] ++
    [s.mean, s.median, s.stdDev, s.min, s.max].map (Decimal.fixed 3)

theorem isField_of_mem_rowFields {s : Summary} {field : String} (h : field ∈ rowFields key s) :
    Text.IsField field := by
  rcases List.mem_append.mp h with h | h
  · rw [List.mem_pair] at h
    rcases h with rfl | rfl
    · exact Text.isField_append (Text.isField_append (by decide) (Text.isField_toString_int key))
        (by decide)
    · exact Text.isField_toString s.count
  · obtain ⟨x, -, rfl⟩ := List.mem_map.mp h
    exact Text.isField_fixed 3 x

theorem csv_eq_join (r : Report) : r.csv = String.join
    ((headerFields :: r.keys.map fun key => rowFields key (r.summary key)).map fun line =>
      ",".intercalate line ++ "\n") := by
  have hheader : header = ",".intercalate headerFields := rfl
  rw [csv, lines, hheader, List.map_cons, List.map_map, List.map_cons, List.map_map]
  rfl

theorem fields_csv (r : Report) : Text.fields r.csv =
    (headerFields :: r.keys.map fun key => rowFields key (r.summary key)) ++ [[""]] := by
  rw [csv_eq_join]
  refine Text.fields_join ?_ ?_
  · rw [List.forall_mem_cons, List.forall_mem_map]
    exact ⟨by decide, fun key _ => by simp [rowFields]⟩
  · rw [List.forall_mem_cons, List.forall_mem_map]
    exact ⟨by decide, fun key _ field => isField_of_mem_rowFields⟩

end Report

-- ---------------------------------------------------------------------------
-- Tables
-- ---------------------------------------------------------------------------

namespace Table

variable {table next : Table} {r : Report} {adds : List (Int × Duration)} {key : Int}

/-- Whether a table has the samples of a report and no empty group. -/
structure Groups (table : Table) (r : Report) : Prop where
  nodup : (table.map (·.1)).Nodup
  mem_iff : ∀ key samples, (key, samples) ∈ table ↔ samples = r.samples key ∧ samples ≠ []

namespace Groups

theorem perm (h : table.Groups r) (hperm : next.Perm table) : next.Groups r where
  nodup := (hperm.map _).nodup_iff.mpr h.nodup
  mem_iff key samples := hperm.mem_iff.trans (h.mem_iff key samples)

theorem samples_eq (h : table.Groups r) (key : Int) : table.samples key = r.samples key := by
  rw [samples]
  cases hlookup : table.lookup key with
  | some group =>
    obtain ⟨before, after, rfl, -⟩ := List.lookup_eq_some_iff.mp hlookup
    exact ((h.mem_iff key group).mp (by simp)).1
  | none =>
    by_contra hne
    have hmem := (h.mem_iff key _).mpr ⟨rfl, Ne.symm hne⟩
    simpa using List.lookup_eq_none_iff.mp hlookup _ hmem

theorem add (h : table.Groups r) (key : Int) (d : Duration) :
    (table.add key d).Groups (r.add key d) where
  nodup := by
    rw [Table.add, List.map_cons, List.nodup_cons]
    constructor
    · simp
    · exact h.nodup.sublist (List.filter_sublist.map _)
  mem_iff other samples := by
    rw [Table.add, List.mem_cons, List.mem_filter, Report.samples_add, h.samples_eq]
    by_cases hkey : key = other
    · subst hkey
      simp only [if_true, Prod.mk.injEq, true_and, ne_eq, not_true_eq_false, decide_false,
        Bool.false_eq_true, and_false, or_false]
      exact ⟨fun hsamples => ⟨hsamples, by simp [hsamples]⟩, And.left⟩
    · simp [hkey, Ne.symm hkey, h.mem_iff]

theorem summary_eq (h : table.Groups r) (key : Int) : table.summary key = r.summary key := by
  rw [Table.summary, Report.summary, h.samples_eq]

theorem mem_map_fst (h : table.Groups r) : key ∈ table.map (·.1) ↔ r.samples key ≠ [] := by
  rw [List.mem_map]
  constructor
  · rintro ⟨⟨_, samples⟩, hmem, rfl⟩
    obtain ⟨rfl, hne⟩ := (h.mem_iff _ samples).mp hmem
    exact hne
  · exact fun hne => ⟨(key, r.samples key), (h.mem_iff key _).mpr ⟨rfl, hne⟩, rfl⟩

theorem csv_eq (h : table.Groups r) : table.csv = r.csv := by
  have hkeys : (table.map (·.1)).mergeSort (· ≤ ·) = r.keys := by
    refine (pairwise_mergeSort_of_nodup h.nodup).eq_of_mem_iff r.pairwise_keys fun key => ?_
    rw [List.mem_mergeSort, h.mem_map_fst, Report.mem_keys]
  simp only [Table.csv, Report.csv, Table.lines, Report.lines, hkeys, h.summary_eq]

end Groups

theorem Filled.groups (h : Filled adds table) : table.Groups (.ofAdds adds) := by
  induction h with
  | empty => exact ⟨List.nodup_nil, by simp [Report.samples_ofAdds]⟩
  | add _ hnext ih =>
    rw [Report.ofAdds_append_singleton]
    exact (ih.add _ _).perm hnext

theorem exists_filled (adds : List (Int × Duration)) : ∃ table, Filled adds table := by
  induction adds using List.reverseRecOn with
  | nil => exact ⟨[], .empty⟩
  | append_singleton adds last ih =>
    obtain ⟨table, hfilled⟩ := ih
    exact ⟨_, hfilled.add (.refl _)⟩

end Table

-- ---------------------------------------------------------------------------
-- Orders of additions
-- ---------------------------------------------------------------------------

open Report (ofAdds)

/-- Additions in any order make the same report: the summary of each key is the same to the last
bit, and so is what is written, whatever table holds the samples. It is a header and then one row
for each key that was added, in ascending order of the numbers, with the number of its additions. A
summary follows from the additions of its own key, and is empty if there are none. -/
theorem report_order_free {adds others : List (Int × Duration)} (h : adds.Perm others) :
    (∀ key, (ofAdds adds).summary key = (ofAdds others).summary key) ∧
    (ofAdds adds).csv = (ofAdds others).csv ∧
    (∀ table, Table.Filled others table →
      (∀ key, table.summary key = (ofAdds adds).summary key) ∧ table.csv = (ofAdds adds).csv) ∧
    (∃ keys : List Int, keys.Pairwise (· < ·) ∧ (∀ key, key ∈ keys ↔ ∃ d, (key, d) ∈ adds) ∧
      Text.fields (ofAdds adds).csv =
        (["N", "COUNT", "MEAN", "MEDIAN", "STDDEV", "MIN", "MAX"] :: keys.map fun key =>
          let s := (ofAdds adds).summary key
          ["\"" ++ toString key ++ "\"", toString (adds.countP (·.1 = key))] ++
            [s.mean, s.median, s.stdDev, s.min, s.max].map (Decimal.fixed 3)) ++ [[""]]) ∧
    (∀ key, ((ofAdds adds).summary key).count = adds.countP (·.1 = key)) ∧
    (∀ key, (ofAdds adds).summary key = (ofAdds (adds.filter (·.1 = key))).summary key) ∧
    ∀ key, (∀ d, (key, d) ∉ adds) → (ofAdds adds).summary key = .empty := by
  refine ⟨Report.summary_eq_of_perm h, Report.csv_eq_of_perm h, ?_, ?_,
    Report.count_summary_ofAdds adds, ?_, ?_⟩
  · intro table hfilled
    have hgroups := hfilled.groups
    constructor
    · exact fun key => (hgroups.summary_eq key).trans (Report.summary_eq_of_perm h key).symm
    · exact hgroups.csv_eq.trans (Report.csv_eq_of_perm h).symm
  · refine ⟨(ofAdds adds).keys, Report.pairwise_keys _, fun key => Report.mem_keys_ofAdds, ?_⟩
    simp only [← Report.count_summary_ofAdds]
    exact Report.fields_csv (ofAdds adds)
  · intro key
    rw [Report.summary, Report.summary, Report.samples_ofAdds, Report.samples_ofAdds,
      List.filter_filter]
    simp only [Bool.and_self]
  · intro key hnone
    have hsamples : (ofAdds adds).samples key = [] := by
      by_contra hne
      obtain ⟨d, hmem⟩ := Report.mem_keys_ofAdds.mp (Report.mem_keys.mpr hne)
      exact hnone d hmem
    rw [Report.summary, hsamples, Summary.ofSamples, List.mergeSort_nil]

/-- Three keys, a negative one and two whose digits sort the other way round, one of them added
twice. -/
theorem report_order_free_three :
    ∃ adds others table, adds = [(10, ⟨0, 2⟩), (-3, ⟨1, 0⟩), (9, ⟨0, 7⟩), (10, ⟨0, 1⟩)] ∧
      others = [(10, ⟨0, 1⟩), (10, ⟨0, 2⟩), (9, ⟨0, 7⟩), (-3, ⟨1, 0⟩)] ∧
      Table.Filled others table ∧ (ofAdds adds).csv = (ofAdds others).csv ∧
      table.csv = (ofAdds adds).csv ∧
      (Text.fields (ofAdds adds).csv).map (·.take 2) =
        [["N", "COUNT"], ["\"-3\"", "1"], ["\"9\"", "1"], ["\"10\"", "2"], [""]] ∧
      (ofAdds adds).summary 10 = (ofAdds others).summary 10 ∧
      (ofAdds adds).summary 7 = .empty := by
  obtain ⟨adds, hadds⟩ : ∃ adds : List (Int × Duration),
      adds = [(10, ⟨0, 2⟩), (-3, ⟨1, 0⟩), (9, ⟨0, 7⟩), (10, ⟨0, 1⟩)] := ⟨_, rfl⟩
  obtain ⟨others, hothers⟩ : ∃ others : List (Int × Duration),
      others = [(10, ⟨0, 1⟩), (10, ⟨0, 2⟩), (9, ⟨0, 7⟩), (-3, ⟨1, 0⟩)] := ⟨_, rfl⟩
  obtain ⟨table, hfilled⟩ := Table.exists_filled others
  have hperm : adds.Perm others := by
    rw [hadds, hothers]
    decide
  obtain ⟨hsummary, hcsv, htables, ⟨keys, hsorted, hmem, hfields⟩, -, -, hnone⟩ :=
    report_order_free hperm
  obtain rfl : keys = [-3, 9, 10] := by
    refine hsorted.eq_of_mem_iff (by decide) fun key => ?_
    have hkeys : (∃ d, (key, d) ∈ adds) ↔ key ∈ adds.map (·.1) := by simp
    rw [hmem, hkeys, hadds]
    simp only [List.map_cons, List.map_nil, List.mem_cons, List.not_mem_nil, or_false]
    omega
  refine ⟨adds, others, table, hadds, hothers, hfilled, hcsv, (htables table hfilled).2, ?_,
    hsummary 10, hnone 7 (by simp [hadds])⟩
  rw [hfields, hadds]
  rfl

end BlockTree
