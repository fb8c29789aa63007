import BlockTree.Text.Quoted

/-!
# Errors and results

Every way in which building a tree, reading a digest or touching a file fails, each with one line of
text, and how a chain of steps that may fail comes to a result: each step in turn gave one.
-/

namespace BlockTree

inductive DigestFault
  | digitCount (expected : Nat)
  | byteCount (expected received : Nat)
  | notNumeral
  | notHex (c : Char)
  deriving DecidableEq, Repr

def DigestFault.message : DigestFault → String
  | .digitCount expected => "expected " ++ toString expected ++ " hex digits"
  | .byteCount expected received =>
    "expected " ++ toString expected ++ " hex bytes, received " ++ toString received
  | .notNumeral => "invalid digit found in string"
  | .notHex c => "invalid hex character: " ++ Text.Quoted.describeByteOf c

inductive FileFault
  | notFound
  | exists
  | notFolder
  | isFolder
  | nameTooLong
  | nulInName
  | noWholeTree
  | other (message : String)
  deriving DecidableEq, Repr

def FileFault.message : FileFault → String
  | .notFound => "No such file or directory (os error 2)"
  | .exists => "File exists (os error 17)"
  | .notFolder => "Not a directory (os error 20)"
  | .isFolder => "Is a directory (os error 21)"
  | .nameTooLong => "File name too long (os error 36)"
  | .nulInName => "file name contained an unexpected NUL byte"
  | .noWholeTree => "failed to create whole tree"
  | .other message => message

inductive Error
  | emptyBuffer
  | invalidBlockSize
  | blockOutOfRange (index count : Nat)
  | invalidDigest (text : String) (fault : DigestFault)
  | file (fault : FileFault)
  deriving DecidableEq, Repr

def Error.message : Error → String
  | .emptyBuffer => "cannot build a hash tree over an empty buffer"
  | .invalidBlockSize => "block size must be greater than zero"
  | .blockOutOfRange index count =>
    "block " ++ toString index ++ " is out of range for a tree of " ++ toString count ++ " blocks"
  | .invalidDigest text fault => "invalid digest: " ++ text ++ ": " ++ fault.message
  | .file fault => fault.message

/-- Why a command stops: an error that it reports, or arguments refused outright. -/
inductive Failure
  | error (e : Error)
  | refused (fault : Fault)
  deriving DecidableEq, Repr

-- ---------------------------------------------------------------------------
-- Chains of steps
-- ---------------------------------------------------------------------------

section

variable {E E' A B : Type}

theorem bind_eq_ok {x : Except E A} {f : A → Except E B} {b : B} :
    x >>= f = .ok b ↔ ∃ a, x = .ok a ∧ f a = .ok b := by
  cases x <;> simp [bind, Except.bind]

theorem pure_eq_ok {a b : A} : (pure a : Except E A) = .ok b ↔ a = b := by
  simp [pure, Except.pure]

theorem map_eq_ok {x : Except E A} {f : A → B} {b : B} :
    f <$> x = .ok b ↔ ∃ a, x = .ok a ∧ f a = b := by
  cases x <;> simp [Functor.map, Except.map]

theorem mapM_eq_ok {f : A → Except E B} {g : A → B} {l : List A} (h : ∀ a ∈ l, f a = .ok (g a)) :
    l.mapM f = .ok (l.map g) := by
  induction l with
  | nil => rfl
  | cons a l ih =>
    rw [List.mapM_cons, h a List.mem_cons_self, ih fun b hb => h b (List.mem_cons_of_mem a hb)]
    rfl

@[simp] theorem ok_bind (a : A) (f : A → Except E B) : (Except.ok a >>= f) = f a := rfl

@[simp] theorem mapError_ok (f : E → E') (a : A) :
    (Except.ok a : Except E A).mapError f = .ok a := rfl

end

end BlockTree
