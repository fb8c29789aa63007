import BlockTree.Proofs.Folder
import BlockTree.Proofs.Sizes
import BlockTree.Proofs.Trials

/-!
# A whole benchmark

A benchmark that fails has failed to make its folder or to save a report, or has come to a size
that no buffer can have; it never comes upon an empty buffer, or upon a buffer without a position to
choose. Where all sizes can be had, the folder can be made and the reports can be saved, it goes
through all its sizes and trials and leaves a report of each phase with one row for each size:
`Benchmark.run_complete`. Memory is taken to last for every buffer below `bufferLimit` and for the
trees over it.
-/

namespace BlockTree.Benchmark

open Command
  (Script Desk run_bind run_forM_cons run_pure run_orStop run_print run_makeFolders run_save)

-- ---------------------------------------------------------------------------
-- Names of the reports
-- ---------------------------------------------------------------------------

section Names

variable (b : Benchmark)

theorem exists_reportPath_eq_append (phase : Phase) :
    ∃ text, b.reportPath phase = text ++ (phase.name ++ ".csv") := by
  have hfile : b.session ++ "-" ++ phase.name ++ ".csv" =
      b.session ++ "-" ++ (phase.name ++ ".csv") := String.append_assoc
  unfold reportPath PathName.join
  rw [hfile]
  split
  · exact ⟨_, rfl⟩
  · split
    · exact ⟨_, String.append_assoc.symm⟩
    · exact ⟨_, String.append_assoc.symm⟩

theorem exists_name_reportPath (phase : Phase) :
    ∃ stem, (PathName.ofString (b.reportPath phase)).names.getLast? =
      some (stem ++ (phase.name ++ ".csv")) := by
  obtain ⟨text, htext⟩ := b.exists_reportPath_eq_append phase
  rw [htext]
  exact PathName.exists_getLast?_names (by cases phase <;> decide) (by cases phase <;> decide) text

theorem phase_eq_of_append_eq {phase other : Phase} {stem stem' : String}
    (h : stem ++ (phase.name ++ ".csv") = stem' ++ (other.name ++ ".csv")) : phase = other := by
  have hlast : ∀ (stem : String) (phase : Phase),
      (stem ++ (phase.name ++ ".csv")).toList.reverse[4]? = phase.name.toList.getLast? := by
    intro stem phase
    cases phase <;> simp [Phase.name]
  have hletter : phase.name.toList.getLast? = other.name.toList.getLast? := by
    rw [← hlast stem phase, h, hlast]
  revert hletter
  cases phase <;> cases other <;> decide

theorem names_reportPath_ne {phase other : Phase} (h : phase ≠ other) :
    (PathName.ofString (b.reportPath phase)).names.getLast? ≠
      (PathName.ofString (b.reportPath other)).names.getLast? := by
  obtain ⟨stem, hstem⟩ := b.exists_name_reportPath phase
  obtain ⟨stem', hstem'⟩ := b.exists_name_reportPath other
  rw [hstem, hstem']
  intro hsame
  exact h (phase_eq_of_append_eq (Option.some.inj hsame))

end Names

-- ---------------------------------------------------------------------------
-- Saving the reports
-- ---------------------------------------------------------------------------

section Saving

variable (script : Script) (desk : Desk)

def files (b : Benchmark) (reports : PhaseReports) (phases : List Phase) :
    List (String × ByteArray) :=
  phases.map fun phase => (b.reportPath phase, (reports.get phase).csv.toUTF8)

theorem saveReports_run (b : Benchmark) (reports : PhaseReports) :
    match desk.folder.saveAll (b.files reports Phase.all) with
    | .ok folder => (b.saveReports (Desk.host script).toBenchmarkHost reports).run.run desk =
        (.ok (), Desk.printing { desk with folder } (Phase.all.map ("==> " ++ b.reportPath ·)))
    | .error fault => ∃ next,
        (b.saveReports (Desk.host script).toBenchmarkHost reports).run.run desk =
          (.error (.error (.file fault)), next) := by
  unfold saveReports
  generalize Phase.all = phases
  induction phases generalizing desk with
  | nil =>
    simp only [List.map_nil, Desk.printing_nil]
    rfl
  | cons phase rest ih =>
    rw [files, List.map_cons, Folder.saveAll, List.foldlM_cons, run_forM_cons]
    simp only [run_bind, run_save]
    cases hsave : desk.folder.save (b.reportPath phase) (reports.get phase).csv.toUTF8 with
    | error fault => exact ⟨desk, rfl⟩
    | ok folder =>
      have hprinted : ∀ folder : Folder, Desk.printing { desk with folder }
          (("==> " ++ b.reportPath phase) :: rest.map ("==> " ++ b.reportPath ·)) =
            Desk.printing { desk.printing ["==> " ++ b.reportPath phase] with folder }
              (rest.map ("==> " ++ b.reportPath ·)) :=
        fun folder => Desk.printing_append { desk with folder } [_] _
      simp only [run_orStop, mapError_ok, run_print, ok_bind, List.map_cons, hprinted]
      exact ih (Desk.printing { desk with folder } ["==> " ++ b.reportPath phase])

theorem pairwise_names_files (b : Benchmark) (reports : PhaseReports) :
    (b.files reports Phase.all).Pairwise fun file file' =>
      (PathName.ofString file.1).names.getLast? ≠ (PathName.ofString file'.1).names.getLast? := by
  have hphases : Phase.all.Pairwise (· ≠ ·) := by decide
  exact List.pairwise_map.mpr (hphases.imp fun hne => b.names_reportPath_ne hne)

end Saving

-- ---------------------------------------------------------------------------
-- Rows of the reports
-- ---------------------------------------------------------------------------

section Rows

variable (b : Benchmark) (script : Script) (phase : Phase) {size : Nat}

theorem samples_sizes (h : size ∈ b.sizes) :
    ((script.reports (b.sizes.flatMap b.trialsOf)).get phase).samples size =
      (List.range b.trials).map fun number =>
        (script.elapsed ⟨size, number⟩ phase).milliseconds := by
  rw [script.samples_reports, b.filter_flatMap_trialsOf b.pairwise_sizes.nodup h, trialsOf,
    List.map_map]
  rfl

theorem linesOf_sizes (h : size ∈ b.sizes) :
    b.linesOf script size = sizeLines (script.reports (b.sizes.flatMap b.trialsOf)) size := by
  rw [linesOf, sizeLines_reports script (b.sizes.flatMap b.trialsOf),
    b.filter_flatMap_trialsOf b.pairwise_sizes.nodup h]

theorem keys_sizes :
    ((script.reports (b.sizes.flatMap b.trialsOf)).get phase).keys =
      if b.trials = 0 then [] else b.sizes.map fun size : Nat => (size : Int) := by
  rw [script.get_reports]
  by_cases hnone : b.trials = 0
  · have htrials : b.sizes.flatMap b.trialsOf = [] := by simp [trialsOf, hnone]
    rw [if_pos hnone, htrials]
    simp [Script.timings, Report.ofAdds, Report.keys]
  · rw [if_neg hnone]
    have hsorted : (b.sizes.map fun size : Nat => (size : Int)).Pairwise (· < ·) :=
      List.pairwise_map.mpr (b.pairwise_sizes.imp Int.ofNat_lt.mpr)
    have hfirst : ∃ number, number < b.trials := ⟨0, Nat.pos_of_ne_zero hnone⟩
    refine (Report.pairwise_keys _).eq_of_mem_iff hsorted fun key => ?_
    rw [Report.mem_keys_ofAdds]
    simp [Script.timings, trialsOf, hfirst]

theorem fields_sizes :
    Text.fields ((script.reports (b.sizes.flatMap b.trialsOf)).get phase).csv =
      (["N", "COUNT", "MEAN", "MEDIAN", "STDDEV", "MIN", "MAX"] ::
        if b.trials = 0 then [] else b.sizes.map fun size : Nat =>
          let s := ((script.reports (b.sizes.flatMap b.trialsOf)).get phase).summary size
          ["\"" ++ toString size ++ "\"", toString b.trials] ++
            [s.mean, s.median, s.stdDev, s.min, s.max].map (Decimal.fixed 3)) ++ [[""]] := by
  rw [Report.fields_csv, keys_sizes]
  congr 2
  split
  · rfl
  · rw [List.map_map]
    refine List.map_congr_left fun size hsize => ?_
    have hcount : (((script.reports (b.sizes.flatMap b.trialsOf)).get phase).summary size).count =
        b.trials := by
      rw [Report.summary, Summary.count_ofSamples, b.samples_sizes script phase hsize]
      simp
    rw [← hcount]
    rfl

end Rows

-- ---------------------------------------------------------------------------
-- Whole runs
-- ---------------------------------------------------------------------------

/-- Whether the folder for the reports can be made and each report can be saved then. -/
def Writable (b : Benchmark) (folder : Folder) : Prop :=
  ∃ made, folder.makeFolders b.output = .ok made ∧
    ∀ phase, ∃ saved, made.save (b.reportPath phase) .empty = .ok saved

/-- Whether a report can be read where it is saved. -/
def Readable (b : Benchmark) (folder : Folder) (phase : Phase) : Prop :=
  ∃ made saved, folder.makeFolders b.output = .ok made ∧
    made.save (b.reportPath phase) .empty = .ok saved ∧
    saved.read (b.reportPath phase) = .ok .empty

variable {D : Type} [DecidableEq D]

section Run

variable (H : Hasher D) {shape : Shape} (hb : 0 < shape.blockSize) (script : Script)
  (desk : Desk)

include hb

omit hb in
theorem run_run_of_no_folder (b : Benchmark) {fault : FileFault}
    (hmade : desk.folder.makeFolders b.output = .error fault) :
    (b.run (Desk.host script).toBenchmarkHost H shape).run.run desk =
      (.error (.error (.file fault)), desk) := by
  unfold run
  simp only [run_bind, run_makeFolders, hmade, run_orStop]
  rfl

theorem run_run (b : Benchmark) {made : Folder}
    (hmade : desk.folder.makeFolders b.output = .ok made)
    (hsizes : ∀ size ∈ b.sizes, size < bufferLimit) :
    ∃ log : BenchmarkLog, log.Records script (b.sizes.flatMap b.trialsOf) ∧
      match made.saveAll (b.files log.reports Phase.all) with
      | .error fault => ∃ next, (b.run (Desk.host script).toBenchmarkHost H shape).run.run desk =
          (.error (.error (.file fault)), next)
      | .ok saved => (b.run (Desk.host script).toBenchmarkHost H shape).run.run desk =
          (.ok log, Desk.printing { desk with folder := saved }
            (b.sizes.flatMap (b.linesOf script) ++ Phase.all.map ("==> " ++ b.reportPath ·))) := by
  obtain ⟨log, hrun, hlog⟩ := runSizes_run b script H hb (fun size hsize => (mem_sizes.mp hsize).1)
    hsizes b.pairwise_sizes.nodup { desk with folder := made }
    (BenchmarkLog.records_empty script) (by simp)
  refine ⟨log, by rwa [List.nil_append] at hlog, ?_⟩
  have hsave := saveReports_run script (Desk.printing { desk with folder := made }
    (b.sizes.flatMap (b.linesOf script))) b log.reports
  rw [Desk.folder_printing] at hsave
  unfold run
  simp only [run_bind, run_makeFolders, hmade, run_orStop, mapError_ok, hrun]
  split at hsave
  · next saved hsaved =>
    simp only [hsaved, hsave, run_pure, Desk.printing_append]
    rfl
  · next fault hfault =>
    obtain ⟨next, hsave⟩ := hsave
    simp only [hfault, hsave]
    exact ⟨next, rfl⟩

omit hb in
theorem sizes_eq_append (b : Benchmark) (h : ∃ size ∈ b.sizes, bufferLimit ≤ size) :
    ∃ large rest, b.sizes = b.sizes.filter (· < bufferLimit) ++ large :: rest ∧
      bufferLimit ≤ large := by
  have hsorted := b.pairwise_sizes
  generalize b.sizes = sizes at h hsorted
  induction sizes with
  | nil => simp at h
  | cons size rest ih =>
    by_cases hsize : size < bufferLimit
    · obtain ⟨large, last, hrest, hlarge⟩ :=
        ih (by simpa [Nat.not_le.mpr hsize] using h) hsorted.of_cons
      refine ⟨large, last, ?_, hlarge⟩
      rw [List.filter_cons_of_pos (by simpa using hsize), List.cons_append, ← hrest]
    · refine ⟨size, rest, ?_, Nat.not_lt.mp hsize⟩
      have hnone : (size :: rest).filter (· < bufferLimit) = [] := by
        refine List.filter_eq_nil_iff.mpr fun other hother => ?_
        rcases List.mem_cons.mp hother with rfl | hother
        · simpa using hsize
        · have := List.rel_of_pairwise_cons hsorted hother
          simp only [decide_eq_true_eq]
          omega
      rw [hnone, List.nil_append]

/-- A run stops at its first size that no buffer can have, with no report saved. -/
theorem run_run_of_limit_le (b : Benchmark) {made : Folder}
    (hmade : desk.folder.makeFolders b.output = .ok made)
    (hsize : ∃ size ∈ b.sizes, bufferLimit ≤ size) :
    (b.run (Desk.host script).toBenchmarkHost H shape).run.run desk =
      (.error (.refused .tooLong), Desk.printing { desk with folder := made }
        ((b.sizes.filter (· < bufferLimit)).flatMap (b.linesOf script))) := by
  obtain ⟨large, rest, hsizes, hlarge⟩ := b.sizes_eq_append hsize
  have hsmall : ∀ size ∈ b.sizes.filter (· < bufferLimit), 0 < size ∧ size < bufferLimit := by
    intro size hmem
    obtain ⟨hmem, hlt⟩ := List.mem_filter.mp hmem
    exact ⟨(mem_sizes.mp hmem).1, of_decide_eq_true hlt⟩
  have hrun := runSizes_run_of_limit_le b script H hb rest (fun size h => (hsmall size h).1)
    (fun size h => (hsmall size h).2) hlarge (b.pairwise_sizes.nodup.filter _)
    { desk with folder := made }
  rw [← hsizes] at hrun
  unfold run
  simp only [run_bind, run_makeFolders, hmade, run_orStop, mapError_ok, hrun]

theorem failure_of_run {b : Benchmark} {failure : Failure}
    (h : ((b.run (Desk.host script).toBenchmarkHost H shape).run.run desk).1 = .error failure) :
    (∃ fault, failure = .error (.file fault)) ∨
      failure = .refused .tooLong ∧ ∃ size ∈ b.sizes, bufferLimit ≤ size := by
  cases hmade : desk.folder.makeFolders b.output with
  | error fault =>
    rw [run_run_of_no_folder H script desk b hmade] at h
    cases h
    exact .inl ⟨fault, rfl⟩
  | ok made =>
    by_cases hlarge : ∃ size ∈ b.sizes, bufferLimit ≤ size
    · rw [run_run_of_limit_le H hb script desk b hmade hlarge] at h
      cases h
      exact .inr ⟨rfl, hlarge⟩
    · obtain ⟨log, -, hrun⟩ := run_run H hb script desk b hmade (by simpa using hlarge)
      split at hrun
      · next fault _ =>
        obtain ⟨next, hrun⟩ := hrun
        rw [hrun] at h
        cases h
        exact .inl ⟨fault, rfl⟩
      · rw [hrun] at h
        cases h

end Run

/-- Where each report can be saved, all of them can, and each is read as it was saved. -/
theorem exists_saveAll_files {b : Benchmark} {made : Folder}
    (h : ∀ phase, ∃ saved, made.save (b.reportPath phase) .empty = .ok saved)
    (reports : PhaseReports) :
    ∃ saved, made.saveAll (b.files reports Phase.all) = .ok saved ∧
      ∀ phase saved', made.save (b.reportPath phase) .empty = .ok saved' →
        saved'.read (b.reportPath phase) = .ok .empty →
          saved.read (b.reportPath phase) = .ok (reports.get phase).csv.toUTF8 := by
  have haddresses : ∀ file ∈ b.files reports Phase.all,
      ∃ place name, made.Addresses file.1 place name := by
    intro file hfile
    obtain ⟨phase, -, rfl⟩ := List.mem_map.mp hfile
    obtain ⟨saved, hsaved⟩ := h phase
    obtain ⟨place, name, haddress, -⟩ := Folder.save_ok hsaved
    exact ⟨place, name, haddress⟩
  obtain ⟨saved, hsaved, -, -, hread⟩ :=
    Folder.exists_saveAll haddresses (b.pairwise_names_files reports)
  refine ⟨saved, hsaved, fun phase saved' hsave hempty => ?_⟩
  obtain ⟨place, name, haddress, rfl⟩ := Folder.save_ok hsave
  have hmem : (b.reportPath phase, (reports.get phase).csv.toUTF8) ∈
      b.files reports Phase.all := List.mem_map_of_mem (by cases phase <;> decide)
  cases place with
  | inside above => exact hread (b.reportPath phase, _) hmem above name haddress
  | outside => cases haddress.not_read_outside.symm.trans hempty

section Empty

variable {b : Benchmark} (houtput : b.output = "out") (hsession : b.session = "s")

include houtput hsession

theorem reportPath_eq (phase : Phase) : b.reportPath phase = "out/s-" ++ phase.name ++ ".csv" := by
  simp only [houtput, hsession, reportPath, PathName.join, PathName.startsWith_slash,
    PathName.endsWith_slash]
  cases phase <;> decide

theorem addresses_reportPath (phase : Phase) :
    Folder.Addresses ⟨[(["out"], .folder)]⟩ (b.reportPath phase) (.inside ["out"])
      ("s-" ++ phase.name ++ ".csv") := by
  have hparse : PathName.parse (b.reportPath phase) =
      .ok ⟨false, ["out", "s-" ++ phase.name ++ ".csv"], false⟩ := by
    rw [reportPath_eq houtput hsession, PathName.parse_of_relative]
    all_goals cases phase <;> decide
  refine ⟨⟨_, hparse, rfl, rfl, rfl⟩, rfl, ?_, ?_, fun above habove => ?_⟩
  · cases phase <;> decide
  · cases phase <;> decide
  · cases habove
    simp [Folder.entry?, List.lookup_cons]

theorem writable_empty : b.Writable {} ∧
    ({} : Folder).makeFolders b.output = .ok ⟨[(["out"], .folder)]⟩ := by
  have hmade : ({} : Folder).makeFolders b.output = .ok ⟨[(["out"], .folder)]⟩ := by
    rw [houtput]
    cbv
  exact ⟨⟨_, hmade, fun phase => ⟨_, (addresses_reportPath houtput hsession phase).save .empty⟩⟩,
    hmade⟩

end Empty

end BlockTree.Benchmark
