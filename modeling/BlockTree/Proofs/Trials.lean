import BlockTree.Proofs.Binding
import BlockTree.Proofs.ByteStream
import BlockTree.Proofs.Command.Steps
import BlockTree.Proofs.Reports

/-!
# Trials of a benchmark

A trial comes to its end whatever bytes the trials before it have left, and finds that the fresh
tree matches the reference: `Benchmark.runTrial_run`. What is found and reported after some trials
is told by the list of them, so a trial that ends puts itself at the end of this list.
-/

namespace BlockTree

open Command (Script Desk run_bind run_pure run_orStop run_forM_print run_timed run_position)

-- ---------------------------------------------------------------------------
-- What some trials leave
-- ---------------------------------------------------------------------------

namespace Command.Script

variable (script : Script) (trials : List Trial)

def timings (phase : Phase) : List (Int × Duration) :=
  trials.map fun trial => ((trial.size : Int), script.elapsed trial phase)

def reports : PhaseReports where
  build := .ofAdds (script.timings trials .build)
  verify := .ofAdds (script.timings trials .verify)
  rehash := .ofAdds (script.timings trials .rehash)
  diff := .ofAdds (script.timings trials .diff)

theorem get_reports (phase : Phase) :
    (script.reports trials).get phase = .ofAdds (script.timings trials phase) := by
  cases phase <;> rfl

theorem timings_append_singleton (trial : Trial) (phase : Phase) :
    script.timings (trials ++ [trial]) phase =
      script.timings trials phase ++ [((trial.size : Int), script.elapsed trial phase)] := by
  rw [timings, List.map_append, ← timings, List.map_singleton]

theorem samples_reports (size : Nat) (phase : Phase) :
    ((script.reports trials).get phase).samples size =
      (trials.filter (·.size = size)).map fun trial =>
        (script.elapsed trial phase).milliseconds := by
  rw [get_reports, Report.samples_ofAdds, timings, List.filter_map, List.map_map]
  congr 1
  exact List.filter_congr fun trial _ => by simp

end Command.Script

/-- Whether a log tells of these trials, in this order, and of a match in each of them. -/
structure BenchmarkLog.Records (script : Script) (log : BenchmarkLog) (trials : List Trial) :
    Prop where
  reports : log.reports = script.reports trials
  trials : log.findings.toList.map (·.trial) = trials
  findings : ∀ f ∈ log.findings.toList,
    f.matched = true ∧ ∃ h, f.position = script.position f.trial h

namespace BenchmarkLog

variable {script : Script} {log : BenchmarkLog} {trials : List Trial}

theorem records_empty (script : Script) : ({} : BenchmarkLog).Records script [] :=
  ⟨rfl, rfl, by simp⟩

def after (script : Script) (log : BenchmarkLog) (f : Finding) : BenchmarkLog where
  reports := Phase.all.foldl
    (fun reports phase => reports.add f.trial.size (script.elapsed f.trial phase) phase) log.reports
  findings := log.findings.push f

theorem Records.after (h : log.Records script trials) {f : Finding} (hmatched : f.matched = true)
    (hposition : ∃ hpos, f.position = script.position f.trial hpos) :
    (log.after script f).Records script (trials ++ [f.trial]) where
  reports := by
    rw [BenchmarkLog.after, h.reports]
    simp only [Phase.all, List.foldl_cons, List.foldl_nil, Script.reports, PhaseReports.add,
      script.timings_append_singleton, Report.ofAdds_append_singleton]
  trials := by
    rw [BenchmarkLog.after, Array.toList_push, List.map_append, h.trials, List.map_singleton]
  findings g hg := by
    rw [BenchmarkLog.after, Array.toList_push, List.mem_append, List.mem_singleton] at hg
    rcases hg with hg | rfl
    · exact h.findings g hg
    · exact ⟨hmatched, hposition⟩

end BenchmarkLog

-- ---------------------------------------------------------------------------
-- Steps of a trial
-- ---------------------------------------------------------------------------

namespace Benchmark

theorem copyOver_eq_ok {source data : ByteArray} (h : data.size = source.size) :
    copyOver source data = .ok source := by
  have hcopy : source.copySlice 0 data 0 source.size = source := by
    simp [ByteArray.copySlice_eq_append, h]
  rw [copyOver, if_pos h, hcopy]

variable {D : Type} [DecidableEq D]

/-- A trial succeeds whatever bytes it finds in place of the reference. -/
theorem runTrial_run (script : Script) (H : Hasher D) {shape : Shape} (hb : 0 < shape.blockSize)
    {reference data : ByteArray} (before : Tree D) (trial : Trial)
    (hpos : 0 < trial.size) (hreference : reference.size = trial.size)
    (hdata : data.size = trial.size) (log : BenchmarkLog) (desk : Desk) :
    ∃ left f, (runTrial (Desk.host script).toBenchmarkHost H shape reference before trial data
        log).run.run desk = (.ok (left, log.after script f), desk) ∧ left.size = trial.size ∧
      f.trial = trial ∧ f.matched = true ∧ f.position = script.position trial hpos := by
  have hcopy : copyOver reference data = .ok reference :=
    copyOver_eq_ok (hdata.trans hreference.symm)
  obtain ⟨t, hbuild, -, -⟩ :=
    Tree.exists_build_ofBytes H shape reference hb (hreference ▸ hpos)
  obtain ⟨-, hbuffer, hrem⟩ := Tree.build_ofBytes_ok hbuild
  have hsize : t.size = trial.size := hrem.size_eq.trans hreference
  have hvisible : t.buffer.visible = trial.size := by rw [hbuffer]; exact hreference
  have hbytes : t.buffer.bytes.size = trial.size := by rw [hbuffer]; exact hreference
  have hposition : (script.position trial hpos).val < t.size := by
    rw [hsize]
    exact (script.position trial hpos).isLt
  -- The copy has made the bytes those of the reference again, so from here on only their number
  -- is asked for: the changed byte lies in the tree, and all of the tree is there to be rehashed.
  obtain ⟨byte, u, hflip, husize, huvisible, hubytes⟩ :=
    Tree.flip_eq_ok (by rw [hsize, hvisible]) hposition 0xff
  obtain ⟨v, hrehash⟩ := Tree.rehash_eq_ok H (t := u) (by rw [husize, huvisible, hsize, hvisible])
  obtain ⟨-, levels, rfl, -⟩ := Tree.rehash_ok hrehash
  refine ⟨u.buffer.bytes, ⟨trial, true, (script.position trial hpos).val,
    before.compareWith { u with levels }⟩, ?_, hubytes.trans hbytes, rfl, rfl, rfl⟩
  simp only [runTrial, run_bind, run_orStop, run_timed, run_position, dif_pos hpos, hcopy,
    hbuild, hflip, hrehash, mapError_ok, hrem.verify_self, run_pure]
  rfl

-- ---------------------------------------------------------------------------
-- Trials of one size, then of each size
-- ---------------------------------------------------------------------------

def trialsOf (b : Benchmark) (size : Nat) : List Trial :=
  (List.range b.trials).map (⟨size, ·⟩)

def linesOf (b : Benchmark) (script : Script) (size : Nat) : List String :=
  sizeLines (script.reports (b.trialsOf size)) size

theorem filter_trialsOf (b : Benchmark) (size other : Nat) :
    (b.trialsOf size).filter (·.size = other) = if size = other then b.trialsOf size else [] := by
  split
  · next h => exact List.filter_eq_self.mpr (by simp [trialsOf, h])
  · next h => exact List.filter_eq_nil_iff.mpr (by simp [trialsOf, h])

theorem filter_flatMap_trialsOf (b : Benchmark) {sizes : List Nat} (hnodup : sizes.Nodup)
    {size : Nat} (hmem : size ∈ sizes) :
    (sizes.flatMap b.trialsOf).filter (·.size = size) = b.trialsOf size := by
  induction sizes with
  | nil => cases hmem
  | cons first rest ih =>
    rw [List.nodup_cons] at hnodup
    rw [List.flatMap_cons, List.filter_append, filter_trialsOf]
    by_cases hfirst : first = size
    · have hnone : (rest.flatMap b.trialsOf).filter (·.size = size) = [] := by
        refine List.filter_eq_nil_iff.mpr ?_
        intro trial htrial
        obtain ⟨other, hother, htrial⟩ := List.mem_flatMap.mp htrial
        obtain ⟨number, -, rfl⟩ := List.mem_map.mp htrial
        simpa [← hfirst] using ne_of_mem_of_not_mem hother hnodup.1
      rw [if_pos hfirst, hnone, List.append_nil, hfirst]
    · rw [if_neg hfirst, List.nil_append]
      exact ih hnodup.2 (List.mem_of_ne_of_mem (Ne.symm hfirst) hmem)

theorem sizeLines_reports (script : Script) (trials : List Trial) (size : Nat) :
    sizeLines (script.reports trials) size =
      sizeLines (script.reports (trials.filter (·.size = size))) size := by
  have hsummary : ∀ phase, ((script.reports trials).get phase).summary size =
      ((script.reports (trials.filter (·.size = size))).get phase).summary size := by
    intro phase
    rw [Report.summary, Report.summary, script.samples_reports, script.samples_reports,
      List.filter_filter]
    simp only [Bool.and_self]
  simp only [sizeLines, hsummary]

section Run

variable (b : Benchmark) (script : Script) (H : Hasher D) {shape : Shape}
  (hb : 0 < shape.blockSize)

include hb

theorem runTrials_run {reference : ByteArray} (before : Tree D) {size : Nat} (hpos : 0 < size)
    (hreference : reference.size = size) (numbers : List Nat) (desk : Desk) {data : ByteArray}
    (hdata : data.size = size) {log : BenchmarkLog} {trials : List Trial}
    (hlog : log.Records script trials) :
    ∃ left log', (numbers.foldlM (fun (data, log) number => runTrial
        (Desk.host script).toBenchmarkHost H shape reference before ⟨size, number⟩ data log)
        (data, log)).run.run desk = (.ok (left, log'), desk) ∧
      log'.Records script (trials ++ numbers.map (⟨size, ·⟩)) := by
  induction numbers generalizing data log trials with
  | nil => exact ⟨data, log, rfl, by rwa [List.map_nil, List.append_nil]⟩
  | cons number rest ih =>
    obtain ⟨left, f, hrun, hleft, htrial, hmatched, hposition⟩ :=
      runTrial_run script H hb before ⟨size, number⟩ hpos hreference hdata log desk
    have hafter := hlog.after hmatched (by rw [htrial]; exact ⟨hpos, hposition⟩)
    obtain ⟨last, log', hrest, hlog'⟩ := ih hleft hafter
    refine ⟨last, log', ?_, ?_⟩
    · rw [List.foldlM_cons, run_bind, hrun]
      exact hrest
    · rwa [htrial, List.append_assoc] at hlog'

/-- The lines about a size tell of its own trials. -/
theorem runSize_run {size : Nat} (hpos : 0 < size) (hsize : size < bufferLimit) (desk : Desk)
    {log : BenchmarkLog} {trials : List Trial} (hlog : log.Records script trials)
    (hnew : ∀ trial ∈ trials, trial.size ≠ size) :
    ∃ log', (b.runSize (Desk.host script).toBenchmarkHost H shape size log).run.run desk =
        (.ok log', desk.printing (b.linesOf script size)) ∧
      log'.Records script (trials ++ b.trialsOf size) := by
  have hfresh : freshBytes size = .ok (List.replicate size 0).toByteArray := if_pos hsize
  have hreference : (SplitMix.fill (List.replicate size 0).toByteArray
      (UInt64.ofNat size)).size = size := (SplitMix.size_fill _ _).trans (by simp)
  obtain ⟨before, hbuild, -, -⟩ := Tree.exists_build_ofBytes H shape
    (SplitMix.fill (List.replicate size 0).toByteArray (UInt64.ofNat size)) hb (by rwa [hreference])
  obtain ⟨left, log', hrun, hlog'⟩ := runTrials_run script H hb before hpos hreference
    (List.range b.trials) desk hreference hlog
  have hlines : sizeLines log'.reports size = b.linesOf script size := by
    -- No earlier trial has this size.
    have hown : (trials ++ b.trialsOf size).filter (·.size = size) = b.trialsOf size := by
      rw [List.filter_append, filter_trialsOf, if_pos rfl,
        List.filter_eq_nil_iff.mpr (by simpa using hnew), List.nil_append]
    rw [hlog'.reports, sizeLines_reports, ← trialsOf, hown, linesOf]
  refine ⟨log', ?_, hlog'⟩
  unfold runSize
  simp only [run_bind, run_orStop, hfresh, hbuild, mapError_ok, hrun, run_forM_print, run_pure,
    hlines, List.map_id']

theorem runSizes_run {sizes : List Nat} (hpos : ∀ size ∈ sizes, 0 < size)
    (hsizes : ∀ size ∈ sizes, size < bufferLimit) (hnodup : sizes.Nodup) (desk : Desk)
    {log : BenchmarkLog} {trials : List Trial} (hlog : log.Records script trials)
    (hnew : ∀ trial ∈ trials, trial.size ∉ sizes) :
    ∃ log', (sizes.foldlM (fun log size => b.runSize (Desk.host script).toBenchmarkHost H shape
        size log) log).run.run desk =
          (.ok log', desk.printing (sizes.flatMap (b.linesOf script))) ∧
      log'.Records script (trials ++ sizes.flatMap b.trialsOf) := by
  induction sizes generalizing desk log trials with
  | nil =>
    refine ⟨log, ?_, by rwa [List.flatMap_nil, List.append_nil]⟩
    rw [List.flatMap_nil, Desk.printing_nil]
    rfl
  | cons size rest ih =>
    rw [List.forall_mem_cons] at hpos hsizes
    rw [List.nodup_cons] at hnodup
    obtain ⟨log₁, hrun, hlog₁⟩ := runSize_run b script H hb hpos.1 hsizes.1 desk hlog
      fun trial htrial => List.ne_of_not_mem_cons (hnew trial htrial)
    have hnew₁ : ∀ trial ∈ trials ++ b.trialsOf size, trial.size ∉ rest := by
      intro trial htrial
      rcases List.mem_append.mp htrial with hold | hown
      · exact List.not_mem_of_not_mem_cons (hnew trial hold)
      · obtain ⟨number, -, rfl⟩ := List.mem_map.mp hown
        exact hnodup.1
    obtain ⟨log', hrest, hlog'⟩ := ih hpos.2 hsizes.2 hnodup.2
      (desk.printing (b.linesOf script size)) hlog₁ hnew₁
    refine ⟨log', ?_, ?_⟩
    · rw [List.foldlM_cons, run_bind, hrun, List.flatMap_cons, Desk.printing_append]
      exact hrest
    · rwa [List.append_assoc] at hlog'

omit hb in
theorem runSize_run_of_limit_le {size : Nat} (hsize : bufferLimit ≤ size) (log : BenchmarkLog)
    (desk : Desk) :
    (b.runSize (Desk.host script).toBenchmarkHost H shape size log).run.run desk =
      (.error (.refused .tooLong), desk) := by
  have hfresh : freshBytes size = .error .tooLong := if_neg (Nat.not_lt.mpr hsize)
  unfold runSize
  rw [run_bind, run_orStop, hfresh]
  rfl

theorem runSizes_run_of_limit_le {small : List Nat} {large : Nat} (rest : List Nat)
    (hpos : ∀ size ∈ small, 0 < size) (hsmall : ∀ size ∈ small, size < bufferLimit)
    (hlarge : bufferLimit ≤ large) (hnodup : small.Nodup) (desk : Desk) :
    ((small ++ large :: rest).foldlM (fun log size => b.runSize
        (Desk.host script).toBenchmarkHost H shape size log) {}).run.run desk =
      (.error (.refused .tooLong), desk.printing (small.flatMap (b.linesOf script))) := by
  obtain ⟨log, hrun, -⟩ := runSizes_run b script H hb hpos hsmall hnodup desk
    (BenchmarkLog.records_empty script) (by simp)
  rw [List.foldlM_append, run_bind, hrun]
  simp only [List.foldlM_cons, run_bind, runSize_run_of_limit_le b script H hlarge]

end Run

end Benchmark

end BlockTree
