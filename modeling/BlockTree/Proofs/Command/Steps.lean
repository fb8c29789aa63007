import BlockTree.Command.Run
import BlockTree.Proofs.History

/-!
# Commands on a desk

What each step of a command answers on a desk, and what it leaves: reading leaves the desk as it
was, printing adds a line, making folders and saving change the folder alone. Once the files are
read and the trees over them are built, the lines of a command and its code follow from the trees.
-/

namespace BlockTree.Command

open Benchmark (orStop)

def Desk.printing (desk : Desk) (lines : List String) : Desk :=
  { desk with printed := desk.printed ++ lines.toArray }

theorem Desk.folder_printing (desk : Desk) (lines : List String) :
    (desk.printing lines).folder = desk.folder := rfl

theorem Desk.printing_nil (desk : Desk) : desk.printing [] = desk := by
  simp [printing]

theorem Desk.printing_append (desk : Desk) (lines rest : List String) :
    desk.printing (lines ++ rest) = (desk.printing lines).printing rest := by
  simp [printing]

section

variable {A B : Type}

@[simp] theorem run_pure (a : A) (desk : Desk) :
    (pure a : ExceptT Failure (StateM Desk) A).run.run desk = (.ok a, desk) := rfl

theorem run_bind (x : ExceptT Failure (StateM Desk) A) (f : A → ExceptT Failure (StateM Desk) B)
    (desk : Desk) :
    (x >>= f).run.run desk = match x.run.run desk with
      | (.ok a, next) => (f a).run.run next
      | (.error e, next) => (.error e, next) := by
  unfold ExceptT.run StateT.run
  simp only [bind, ExceptT.bind, ExceptT.mk, StateT.bind, ExceptT.bindCont]
  cases x desk with
  | mk result next => cases result <;> rfl

theorem run_forM_cons (f : A → ExceptT Failure (StateM Desk) PUnit) (a : A) (rest : List A)
    (desk : Desk) :
    ((a :: rest).forM f).run.run desk = match (f a).run.run desk with
      | (.ok _, next) => (rest.forM f).run.run next
      | (.error e, next) => (.error e, next) := by
  refine (run_bind (f a) (fun _ => rest.forM f) desk).trans ?_
  cases (f a).run.run desk with
  | mk result next => cases result <;> rfl

@[simp] theorem run_orStop (reason : A → Failure) (x : Except A B) (desk : Desk) :
    (orStop reason x : ExceptT Failure (StateM Desk) B).run.run desk =
      (x.mapError reason, desk) := rfl

theorem run_read (script : Script) (file : String) (desk : Desk) :
    (liftM ((Desk.host script).read file) : ExceptT Failure (StateM Desk) _).run.run desk =
      (.ok (desk.folder.read file), desk) := rfl

theorem run_print (script : Script) (line : String) (desk : Desk) :
    (liftM ((Desk.host script).print line) : ExceptT Failure (StateM Desk) _).run.run desk =
      (.ok ⟨⟩, desk.printing [line]) := by
  rw [Desk.printing, Array.append_singleton]
  rfl

theorem run_forM_print (script : Script) (f : A → String) (l : List A) (desk : Desk) :
    (l.forM fun a => (liftM ((Desk.host script).print (f a)) :
        ExceptT Failure (StateM Desk) _)).run.run desk =
      (.ok ⟨⟩, desk.printing (l.map f)) := by
  induction l generalizing desk with
  | nil =>
    rw [List.map_nil, Desk.printing_nil]
    rfl
  | cons a rest ih =>
    rw [run_forM_cons, run_print]
    refine (ih _).trans ?_
    rw [← Desk.printing_append]
    rfl

end

-- ---------------------------------------------------------------------------
-- Steps of a benchmark
-- ---------------------------------------------------------------------------

section

variable (script : Script) (desk : Desk)

theorem run_timed {A : Type} (trial : Trial) (phase : Phase) (work : Unit → A) :
    (liftM ((Desk.host script).timed trial phase work) :
        ExceptT Failure (StateM Desk) _).run.run desk =
      (.ok (work (), script.elapsed trial phase), desk) := rfl

theorem run_position (trial : Trial) (h : 0 < trial.size) :
    (Fin.val <$> liftM ((Desk.host script).position trial h) :
        ExceptT Failure (StateM Desk) Nat).run.run desk =
      (.ok (script.position trial h).val, desk) := rfl

theorem run_change (f : Folder → Except FileFault Folder) :
    (liftM (Desk.change f) : ExceptT Failure (StateM Desk) (Except FileFault Unit)).run.run desk =
      match f desk.folder with
      | .ok folder => (.ok (.ok ()), { desk with folder })
      | .error fault => (.ok (.error fault), desk) := by
  have hlift : (liftM (Desk.change f) :
      ExceptT Failure (StateM Desk) (Except FileFault Unit)).run.run desk =
        (.ok (Desk.change f desk).1, (Desk.change f desk).2) := rfl
  rw [hlift, Desk.change]
  cases f desk.folder <;> rfl

theorem run_makeFolders (path : String) :
    (liftM ((Desk.host script).makeFolders path) :
        ExceptT Failure (StateM Desk) (Except FileFault Unit)).run.run desk =
      match desk.folder.makeFolders path with
      | .ok folder => (.ok (.ok ()), { desk with folder })
      | .error fault => (.ok (.error fault), desk) :=
  run_change desk (·.makeFolders path)

theorem run_save (path text : String) :
    (liftM ((Desk.host script).save path text) :
        ExceptT Failure (StateM Desk) (Except FileFault Unit)).run.run desk =
      match desk.folder.save path text.toUTF8 with
      | .ok folder => (.ok (.ok ()), { desk with folder })
      | .error fault => (.ok (.error fault), desk) :=
  run_change desk (·.save path text.toUTF8)

end

-- ---------------------------------------------------------------------------
-- Commands that only read files
-- ---------------------------------------------------------------------------

section Inspections

variable {D : Type} (script : Script) (desk : Desk)

theorem run_load (file : String) :
    ((Desk.host script).load file).run.run desk =
      ((desk.folder.read file).mapError (.error ∘ .file), desk) := by
  rw [Host.load, run_bind, run_read]
  rfl

theorem run_treeOver (H : Hasher D) (shape : Shape) (data : ByteArray) :
    (treeOver H shape data : ExceptT Failure (StateM Desk) _).run.run desk =
      ((Tree.build H shape (.ofBytes data)).mapError .error, desk) := rfl

theorem block?_of_build {H : Hasher D} {shape : Shape} {data : ByteArray} {t : Tree D}
    (ht : Tree.build H shape (.ofBytes data) = .ok t) {i : Nat} (hi : i < t.blockCount) :
    t.block? i = .ok (some (blockBytes shape.blockSize data i)) := by
  obtain ⟨rfl, hbuffer, hrem⟩ := Tree.build_ofBytes_ok ht
  have hvisible : t.size ≤ t.buffer.visible := by
    rw [hbuffer, hrem.size_eq]
    exact Nat.le_refl _
  rw [Tree.block?_eq hvisible hi (hrem.start_lt_size hi), hbuffer, hrem.size_eq]
  simp [Buffer.ofBytes]

variable {alg : Algorithm D} {shape : Shape} {file first second : String} {data other : ByteArray}
  {t u : Tree D} {desk}

theorem runRoot_run (hread : desk.folder.read file = .ok data)
    (ht : Tree.build alg.toHasher shape (.ofBytes data) = .ok t) :
    (runRoot (Desk.host script) alg shape file).run.run desk =
      (.ok 0, desk.printing [alg.toHex t.root ++ "  " ++ toString t.size ++ " bytes, " ++
        toString t.blockCount ++ " blocks"]) := by
  simp only [runRoot, run_bind, run_load, run_treeOver, hread, ht, mapError_ok, run_print,
    run_pure]

variable [DecidableEq D]

theorem runVerify_run_of_rejected {digest : String} {e : Error}
    (hdigest : alg.read (String.ofList (Text.trim digest.toList)) = .error e) :
    (runVerify (Desk.host script) alg shape file digest).run.run desk =
      (.error (.error e), desk) := by
  rw [runVerify, run_bind, run_orStop, hdigest]
  rfl

theorem runVerify_run {digest : String} {expected : D}
    (hdigest : alg.read (String.ofList (Text.trim digest.toList)) = .ok expected)
    (hread : desk.folder.read file = .ok data)
    (ht : Tree.build alg.toHasher shape (.ofBytes data) = .ok t) :
    (runVerify (Desk.host script) alg shape file digest).run.run desk =
      if t.root = expected then (.ok 0, desk.printing ["OK"])
      else (.ok 1, desk.printing ["MISMATCH: " ++ alg.toHex t.root]) := by
  simp only [runVerify, run_bind, run_orStop, run_load, run_treeOver, hdigest, hread, ht,
    mapError_ok]
  split <;> simp only [run_bind, run_print, run_pure]

section Diff

variable (hfirst : desk.folder.read first = .ok data)
  (hsecond : desk.folder.read second = .ok other)
  (ht : Tree.build alg.toHasher shape (.ofBytes data) = .ok t)
  (hu : Tree.build alg.toHasher shape (.ofBytes other) = .ok u)

include hfirst hsecond ht hu

theorem runDiff_run_of_equal (h : t.compareWith u = .equal) (all : Bool) :
    (runDiff (Desk.host script) alg shape first second all).run.run desk =
      (.ok 0, desk.printing ["identical"]) := by
  simp only [runDiff, run_bind, run_load, run_treeOver, hfirst, hsecond, ht, hu, mapError_ok, h,
    run_print, run_pure]

theorem runDiff_run_of_incomparable (h : t.compareWith u = .incomparable) (all : Bool) :
    (runDiff (Desk.host script) alg shape first second all).run.run desk =
      (.ok 2, desk.printing ["incomparable: " ++ toString t.blockCount ++ " blocks vs " ++
        toString u.blockCount ++ " blocks"]) := by
  simp only [runDiff, run_bind, run_load, run_treeOver, hfirst, hsecond, ht, hu, mapError_ok, h,
    run_print, run_pure]

theorem runDiff_run_of_differsAt {offset : Nat} {found : List Nat}
    (h : t.compareWith u = .differsAt offset) (hfound : t.differingBlocks u = some found)
    (all : Bool) :
    (runDiff (Desk.host script) alg shape first second all).run.run desk =
      (.ok 1, desk.printing (if all then found.map fun block => toString (block * shape.blockSize)
        else [toString offset])) := by
  simp only [runDiff, run_bind, run_load, run_treeOver, hfirst, hsecond, ht, hu, mapError_ok, h,
    hfound, Option.getD_some]
  cases all with
  | false => simp only [Bool.false_eq_true, if_false, run_bind, run_print, run_pure]
  | true => simp only [if_true, run_bind, run_forM_print, run_pure]

end Diff

/-- The path is printed whole before the root or what stands in its place. -/
theorem runProof_run {block : Nat} {path : AuditPath D} {content : ByteArray}
    (hread : desk.folder.read file = .ok data)
    (ht : Tree.build alg.toHasher shape (.ofBytes data) = .ok t) (hpath : t.path block = .ok path)
    (hcontent : t.block? block = .ok (some content)) :
    (runProof (Desk.host script) alg shape file block).run.run desk =
      if path.verify alg.toHasher content t.root then
        (.ok 0, desk.printing (path.steps.map (stepLine alg) ++ ["root " ++ alg.toHex t.root]))
      else (.ok 1, desk.printing
        (path.steps.map (stepLine alg) ++ ["proof does not reproduce the root"])) := by
  simp only [runProof, run_bind, run_orStop, run_load, run_treeOver, hread, ht, hpath, hcontent,
    mapError_ok, run_forM_print, Option.getD_some, Desk.printing_append]
  split <;> simp only [run_bind, run_print, run_pure]

end Inspections

-- ---------------------------------------------------------------------------
-- Requests about files
-- ---------------------------------------------------------------------------

section Requests

variable {script : Script} {folder : Folder} {shape : Shape} {kind : HashKind} {i : Inspection}
  {result : Except Failure Nat} {lines : List String}

theorem Request.outcome_of_run
    (h : (i.run (Desk.host script) shape kind).run.run { folder } =
      (result, Desk.printing { folder } lines)) :
    (Request.mk shape kind (.inspect i)).outcome script folder = ⟨result, lines, folder⟩ := by
  unfold Request.outcome Request.run
  rw [h]
  simp [Desk.printing]

theorem Request.outcome_of_perform (hb : 0 < shape.blockSize)
    (h : (i.perform (Desk.host script) kind.algorithm shape).run.run { folder } =
      (result, Desk.printing { folder } lines)) :
    (Request.mk shape kind (.inspect i)).outcome script folder = ⟨result, lines, folder⟩ := by
  have hcheck : shape.check = .ok () := if_neg (Nat.ne_of_gt hb)
  refine outcome_of_run ?_
  rw [Inspection.run, run_bind, run_orStop, hcheck]
  exact h

theorem Request.outcome_of_blockSize_eq_zero (hb : shape.blockSize = 0) :
    (Request.mk shape kind (.inspect i)).outcome script folder =
      ⟨.error (.error .invalidBlockSize), [], folder⟩ := by
  have hcheck : shape.check = .error .invalidBlockSize := if_pos hb
  refine outcome_of_run ?_
  rw [Inspection.run, run_bind, run_orStop, hcheck, Desk.printing_nil]
  rfl

end Requests

end BlockTree.Command
