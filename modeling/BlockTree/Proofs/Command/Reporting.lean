import Mathlib
import BlockTree.Proofs.Command.Steps
import BlockTree.Proofs.Digits

/-!
# What commands report

A command that only reads files stops with the first of the errors in its task, whatever others
there are, and has then printed nothing; without errors it ends with a code: `first_error_reported`.
`Settles` says of one step of a command that it stops with the first of the errors that are its own,
and `Settles.bind` puts the errors of later steps behind those of earlier ones. The command that
prints a root and the one that compares a file with a digest build the same tree, so the digest they
print, in either letter case and between blanks, is the one that the second accepts.
-/

namespace BlockTree

-- ---------------------------------------------------------------------------
-- Which error is reported
-- ---------------------------------------------------------------------------

namespace Command

open Benchmark (orStop)

/-- Whether a run on a desk stops with the first of some errors and leaves the desk as it was or, if
there are none, comes to a result and a desk of a kind. -/
inductive Settles {A : Type} (desk : Desk) (good : A → Desk → Prop) :
    List Error → Except Failure A × Desk → Prop
  | stops {e : Error} {rest : List Error} : Settles desk good (e :: rest) (.error (.error e), desk)
  | ends {a : A} {next : Desk} (h : good a next) : Settles desk good [] (.ok a, next)

/-- What a step without effect comes to: the same desk, and a result of a kind. -/
def Quiet {A : Type} (desk : Desk) (good : A → Prop) (a : A) (next : Desk) : Prop :=
  next = desk ∧ good a

namespace Settles

variable {A B : Type} {desk : Desk} {good : A → Prop} {fine : B → Desk → Prop}
  {errors later : List Error} {x : ExceptT Failure (StateM Desk) A}
  {f : A → ExceptT Failure (StateM Desk) B}

theorem bind (hx : Settles desk (Quiet desk good) errors (x.run.run desk))
    (hf : ∀ a, good a → Settles desk fine later ((f a).run.run desk)) :
    Settles desk fine (errors ++ later) ((x >>= f).run.run desk) := by
  rw [run_bind]
  cases hrun : x.run.run desk with
  | mk result next =>
    rw [hrun] at hx
    cases hx with
    | stops => exact .stops
    | ends h =>
      obtain ⟨rfl, ha⟩ := h
      exact hf _ ha

theorem bind_nil (hx : Settles desk (Quiet desk good) errors (x.run.run desk))
    (hf : ∀ a, good a → Settles desk fine [] ((f a).run.run desk)) :
    Settles desk fine errors ((x >>= f).run.run desk) :=
  errors.append_nil ▸ hx.bind hf

end Settles

-- ---------------------------------------------------------------------------
-- Steps of a command
-- ---------------------------------------------------------------------------

section Steps

variable (script : Script) (desk : Desk) {D : Type} {H : Hasher D} {shape : Shape}
  {kind : HashKind} {file : String} {data : ByteArray} {t : Tree D}

theorem settles_check (shape : Shape) :
    Settles desk (Quiet desk fun _ => 0 < shape.blockSize) (shapeErrors shape)
      ((orStop .error shape.check : ExceptT Failure (StateM Desk) _).run.run desk) := by
  rw [run_orStop]
  unfold shapeErrors Shape.check
  split
  · exact .stops
  · next hne => exact .ends ⟨rfl, Nat.pos_of_ne_zero hne⟩

theorem settles_read (kind : HashKind) (file digest : String) :
    Settles desk (Quiet desk fun _ => True) ((Inspection.verify file digest).digestErrors kind)
      ((orStop .error (kind.algorithm.read (String.ofList (Text.trim digest.toList))) :
        ExceptT Failure (StateM Desk) _).run.run desk) := by
  rw [run_orStop]
  simp only [Inspection.digestErrors, Algorithm.read]
  cases kind.algorithm.ofHex (String.ofList (Text.trim digest.toList)) with
  | error fault => exact .stops
  | ok d => exact .ends ⟨rfl, trivial⟩

theorem settles_load (file : String) :
    Settles desk (Quiet desk fun data => desk.folder.read file = .ok data)
      (readErrors desk.folder.read file)
      (((Desk.host script).load file).run.run desk) := by
  rw [run_load]
  unfold readErrors
  cases desk.folder.read file with
  | error fault => exact .stops
  | ok data => exact .ends ⟨rfl, rfl⟩

theorem settles_treeOver (H : Hasher D) (hb : 0 < shape.blockSize)
    (hread : desk.folder.read file = .ok data) :
    Settles desk (Quiet desk fun t => Tree.build H shape (.ofBytes data) = .ok t)
      (contentErrors desk.folder.read file)
      ((treeOver H shape data : ExceptT Failure (StateM Desk) _).run.run desk) := by
  rw [run_treeOver]
  simp only [contentErrors, hread]
  split
  · next hempty =>
    have hview : ¬ 0 < (Buffer.ofBytes data).view.size := by
      rw [Buffer.view_ofBytes, hempty]
      exact Nat.lt_irrefl 0
    rw [Tree.build, dif_pos hb, dif_neg hview]
    exact .stops
  · next hne =>
    obtain ⟨t, ht, -⟩ := Tree.exists_build_ofBytes H shape data hb (Nat.pos_of_ne_zero hne)
    rw [ht]
    exact .ends ⟨rfl, rfl⟩

theorem settles_path (hread : desk.folder.read file = .ok data)
    (ht : Tree.build H shape (.ofBytes data) = .ok t) (block : Nat) :
    Settles desk (Quiet desk fun _ => block < t.blockCount)
      ((Inspection.proof file block).blockErrors shape desk.folder.read)
      ((orStop .error (t.path block) : ExceptT Failure (StateM Desk) _).run.run desk) := by
  obtain ⟨rfl, -, hrem⟩ := Tree.build_ofBytes_ok ht
  rw [run_orStop]
  simp only [Inspection.blockErrors, hread, Tree.path, hrem.blockCount_eq]
  split
  · next hle =>
    rw [if_neg (Nat.not_lt.mpr hle)]
    exact .stops
  · next hlt =>
    rw [if_pos (Nat.lt_of_not_le hlt)]
    exact .ends ⟨rfl, Nat.lt_of_not_le hlt⟩

end Steps

-- ---------------------------------------------------------------------------
-- Whole commands
-- ---------------------------------------------------------------------------

def Ends (desk : Desk) (code : Nat) (next : Desk) : Prop :=
  code ≤ 2 ∧ next.folder = desk.folder

theorem settles_print (script : Script) {desk next : Desk} (hnext : next.folder = desk.folder)
    (line : String) {code : Nat} (hcode : code ≤ 2) :
    Settles desk (Ends desk) [] ((do (Desk.host script).print line; return code :
      ExceptT Failure (StateM Desk) Nat).run.run next) := by
  rw [run_bind, run_print]
  exact .ends ⟨hcode, hnext⟩

theorem settles_perform (script : Script) (desk : Desk) (kind : HashKind) {shape : Shape}
    (hb : 0 < shape.blockSize) (i : Inspection) :
    Settles desk (Ends desk)
      (i.digestErrors kind ++ (i.files.flatMap (readErrors desk.folder.read) ++
        (i.files.flatMap (contentErrors desk.folder.read) ++
          i.blockErrors shape desk.folder.read)))
      ((i.perform (Desk.host script) kind.algorithm shape).run.run desk) := by
  cases i with
  | root file =>
    simp only [Inspection.files, List.flatMap_singleton]
    refine (settles_load script desk file).bind fun data hread => ?_
    refine (settles_treeOver desk _ hb hread).bind fun t _ => ?_
    exact settles_print script rfl _ (Nat.zero_le 2)
  | verify file digest =>
    simp only [Inspection.files, List.flatMap_singleton]
    refine (settles_read desk kind file digest).bind fun expected _ => ?_
    refine (settles_load script desk file).bind fun data hread => ?_
    refine (settles_treeOver desk _ hb hread).bind fun t _ => ?_
    split
    · exact settles_print script rfl _ (Nat.zero_le 2)
    · exact settles_print script rfl _ (Nat.le_succ 1)
  | diff first second all =>
    simp only [Inspection.files, List.flatMap_cons, List.flatMap_nil, List.append_nil,
      List.append_assoc]
    refine (settles_load script desk first).bind fun data hfirst => ?_
    refine (settles_load script desk second).bind fun other hsecond => ?_
    refine (settles_treeOver desk _ hb hfirst).bind fun t _ => ?_
    refine (settles_treeOver desk _ hb hsecond).bind fun u _ => ?_
    cases t.compareWith u with
    | equal => exact settles_print script rfl _ (Nat.zero_le 2)
    | differsAt offset =>
      cases all with
      | false => exact settles_print script rfl _ (Nat.le_succ 1)
      | true =>
        simp only [if_true, run_bind, run_forM_print, run_pure]
        exact .ends ⟨Nat.le_succ 1, rfl⟩
    | incomparable => exact settles_print script rfl _ (Nat.le_refl 2)
  | proof file block =>
    simp only [Inspection.files, List.flatMap_singleton]
    refine (settles_load script desk file).bind fun data hread => ?_
    refine (settles_treeOver desk _ hb hread).bind fun t ht => ?_
    refine (settles_path desk hread ht block).bind_nil fun path hlt => ?_
    -- The steps are printed before the block is looked up, which does not fail.
    simp only [run_bind, run_forM_print, run_orStop, block?_of_build ht hlt, mapError_ok]
    split
    · exact settles_print script (desk.folder_printing _) _ (Nat.zero_le 2)
    · exact settles_print script (desk.folder_printing _) _ (Nat.le_succ 1)

theorem settles_run (script : Script) (desk : Desk) (shape : Shape) (kind : HashKind)
    (i : Inspection) :
    Settles desk (Ends desk) (i.errors shape kind desk.folder.read)
      ((i.run (Desk.host script) shape kind).run.run desk) := by
  simp only [Inspection.errors, List.append_assoc]
  exact (settles_check desk shape).bind fun _ hb => settles_perform script desk kind hb i

/-- A command that only reads files stops with the first of the errors in its task and has then
printed nothing. If there are none it ends with the code zero, one or two. -/
theorem first_error_reported (script : Script) (folder : Folder) (shape : Shape) (kind : HashKind)
    (i : Inspection) :
    match (i.errors shape kind folder.read).head? with
    | some e => (Request.mk shape kind (.inspect i)).outcome script folder =
        ⟨.error (.error e), [], folder⟩
    | none => ∃ code lines, code ≤ 2 ∧
        (Request.mk shape kind (.inspect i)).outcome script folder = ⟨.ok code, lines, folder⟩ := by
  have hsettles := settles_run script { folder } shape kind i
  unfold Request.outcome Request.run
  simp only
  generalize i.errors shape kind folder.read = errors,
    (i.run (Desk.host script) shape kind).run.run { folder } = run at hsettles ⊢
  cases hsettles with
  | stops => rfl
  | ends hend =>
    obtain ⟨hcode, hfolder⟩ := hend
    exact ⟨_, _, hcode, congrArg (Outcome.mk _ _) hfolder⟩

-- That the second file is missing counts before that the first one is empty.
example : (Inspection.diff "a" "b" false).errors ⟨0, .promote⟩ .fnv64
    (Folder.read ⟨[(["a"], .file .empty)]⟩) =
      [.invalidBlockSize, .file .notFound, .emptyBuffer] := by
  cbv

-- ---------------------------------------------------------------------------
-- A printed root is accepted
-- ---------------------------------------------------------------------------

def rootOutcome (script : Script) (folder : Folder) (shape : Shape) (kind : HashKind)
    (file : String) : Outcome :=
  (Request.mk shape kind (.inspect (.root file))).outcome script folder

def verifyOutcome (script : Script) (folder : Folder) (shape : Shape) (kind : HashKind)
    (file digest : String) : Outcome :=
  (Request.mk shape kind (.inspect (.verify file digest))).outcome script folder

section

variable (script : Script) {folder : Folder} {shape : Shape} {kind : HashKind} {file : String}
  {data : ByteArray} {t : Tree kind.Digest} (hb : 0 < shape.blockSize)
  (hread : folder.read file = .ok data)
  (ht : Tree.build kind.algorithm.toHasher shape (.ofBytes data) = .ok t)

include hb hread ht

theorem rootOutcome_eq :
    rootOutcome script folder shape kind file =
      ⟨.ok 0, [kind.algorithm.toHex t.root ++ "  " ++ toString data.size ++ " bytes, " ++
        toString (blockCount data.size shape.blockSize) ++ " blocks"], folder⟩ := by
  obtain ⟨rfl, -, hrem⟩ := Tree.build_ofBytes_ok ht
  rw [← hrem.blockCount_eq, ← hrem.size_eq]
  exact Request.outcome_of_perform hb (runRoot_run script hread ht)

theorem verifyOutcome_eq (digest : String) :
    verifyOutcome script folder shape kind file digest =
      match kind.algorithm.read (String.ofList (Text.trim digest.toList)) with
      | .error e => ⟨.error (.error e), [], folder⟩
      | .ok expected =>
        if t.root = expected then ⟨.ok 0, ["OK"], folder⟩
        else ⟨.ok 1, ["MISMATCH: " ++ kind.algorithm.toHex t.root], folder⟩ := by
  cases hdigest : kind.algorithm.read (String.ofList (Text.trim digest.toList)) with
  | error e =>
    refine Request.outcome_of_perform hb ((runVerify_run_of_rejected script hdigest).trans ?_)
    rw [Desk.printing_nil]
  | ok expected =>
    simp only
    split
    · next hroot =>
      exact Request.outcome_of_perform hb
        ((runVerify_run script hdigest hread ht).trans (if_pos hroot))
    · next hroot =>
      exact Request.outcome_of_perform hb
        ((runVerify_run script hdigest hread ht).trans (if_neg hroot))

end

/-- The command for roots prints the digest of the file's root first, and the comparison prints the
same where it ends in a mismatch. A text is accepted exactly if it stands for this digest, the
blanks around it apart, and the printed digest is accepted in either letter case and between any
blanks. -/
theorem printed_root_verified (script : Script) (folder : Folder) (shape : Shape) (kind : HashKind)
    (file : String) (data : ByteArray) (hb : 0 < shape.blockSize)
    (hread : folder.read file = .ok data) (hd : 0 < data.size) :
    ∃ t written, Tree.build kind.algorithm.toHasher shape (.ofBytes data) = .ok t ∧
      written = kind.algorithm.toHex t.root ∧
      (∀ c ∈ written.toList, Text.isBlank c = false) ∧
      rootOutcome script folder shape kind file =
        ⟨.ok 0, [written ++ "  " ++ toString data.size ++ " bytes, " ++
          toString (blockCount data.size shape.blockSize) ++ " blocks"], folder⟩ ∧
      (∀ text,
        ((verifyOutcome script folder shape kind file text).result = .ok 0 ∧
            (verifyOutcome script folder shape kind file text).lines = ["OK"] ↔
          kind.algorithm.read (String.ofList (Text.trim text.toList)) = .ok t.root) ∧
        ∀ d, kind.algorithm.read (String.ofList (Text.trim text.toList)) = .ok d → d ≠ t.root →
          verifyOutcome script folder shape kind file text =
            ⟨.ok 1, ["MISMATCH: " ++ written], folder⟩) ∧
      ∀ before printed after : String, (∀ c ∈ before.toList, Text.isBlank c) →
        (∀ c ∈ after.toList, Text.isBlank c) → printed.toLower = written.toLower →
        verifyOutcome script folder shape kind file (before ++ printed ++ after) =
          ⟨.ok 0, ["OK"], folder⟩ := by
  obtain ⟨t, ht, -⟩ := Tree.exists_build_ofBytes kind.algorithm.toHasher shape data hb hd
  have hverify := verifyOutcome_eq script hb hread ht
  refine ⟨t, _, ht, rfl, ?_, rootOutcome_eq script hb hread ht, ?_, ?_⟩
  · exact fun c hc => Text.not_isBlank_of_isSome (kind.writesHex.isSome t.root c hc)
  · intro text
    rw [hverify text]
    cases kind.algorithm.read (String.ofList (Text.trim text.toList)) with
    | error e => exact ⟨⟨nofun, nofun⟩, nofun⟩
    | ok expected =>
      by_cases hroot : t.root = expected
      · subst hroot
        simp
      · simp [hroot, Ne.symm hroot]
  · intro before printed after hbefore hafter hprinted
    rw [hverify, kind.writesHex.read_of_toLower_eq hbefore hafter hprinted]
    exact if_pos rfl

/-- A root whose text starts with zeros, read back in mixed case between blanks, and a digest
that differs from it in the first digit. -/
theorem printed_root_verified_zeros :
    ∃ folder, folder = ⟨[(["f"], .file [1, 2, 3, 4, 165].toByteArray)]⟩ ∧
      rootOutcome .still folder ⟨2, .promote⟩ .fnv64 "f" =
        ⟨.ok 0, ["005be552b49de72b  5 bytes, 3 blocks"], folder⟩ ∧
      verifyOutcome .still folder ⟨2, .promote⟩ .fnv64 "f" " 005BE552b49de72b\r\n" =
        ⟨.ok 0, ["OK"], folder⟩ ∧
      verifyOutcome .still folder ⟨2, .promote⟩ .fnv64 "f" "105be552b49de72b" =
        ⟨.ok 1, ["MISMATCH: 005be552b49de72b"], folder⟩ := by
  obtain ⟨folder, hfolder⟩ : ∃ folder : Folder, folder =
      ⟨[(["f"], .file [1, 2, 3, 4, 165].toByteArray)]⟩ := ⟨_, rfl⟩
  obtain ⟨t, written, ht, hwritten, -, hroot, htext, hprinted⟩ := printed_root_verified .still
    folder ⟨2, .promote⟩ .fnv64 "f" [1, 2, 3, 4, 165].toByteArray (by decide)
    (by rw [hfolder]; cbv) (by decide)
  obtain ⟨hshape, -, hrem⟩ := Tree.build_ofBytes_ok ht
  have htop : (Levels.ofBytes Fnv.algorithm.toHasher ⟨2, .promote⟩ [1, 2, 3, 4, 165].toByteArray
      (by decide) (by decide)).top = 0x005be552b49de72b := by decide +kernel
  have hdigest : t.root = (0x005be552b49de72b : UInt64) := by
    rw [Tree.root, hrem.levels_eq hshape (by decide) (by decide)]
    exact htop
  obtain rfl : written = "005be552b49de72b" := by
    rw [hwritten, hdigest]
    cbv
  refine ⟨folder, hfolder, ?_, ?_, ?_⟩
  · rw [hroot]
    cbv
  · exact hprinted " " "005BE552b49de72b" "\r\n"
      (by simp [Text.isBlank, Text.blankRanges]) (by simp [Text.isBlank, Text.blankRanges]) (by cbv)
  · refine (htext _).2 (0x105be552b49de72b : UInt64) (by cbv) ?_
    rw [hdigest]
    exact (by decide : (0x105be552b49de72b : UInt64) ≠ 0x005be552b49de72b)

end Command

end BlockTree
