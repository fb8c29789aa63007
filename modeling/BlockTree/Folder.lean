import BlockTree.Error

/-!
# A working folder as a value

A path is a sequence of names between slashes: empty names say nothing, a dot stays where it is, two
dots go up, a slash at the front starts at the top and one at the end names a folder. Below a
working folder there are files and folders, with looking up, reading and writing by path. What lies
outside the working folder is folders that hold nothing to read, and what is written there is not
kept.
-/

namespace BlockTree

-- ---------------------------------------------------------------------------
-- Names of files
-- ---------------------------------------------------------------------------

structure PathName where
  absolute : Bool
  names : List String
  asFolder : Bool
  deriving DecidableEq, Repr

namespace PathName

def longestName : Nat := 255

def longestPath : Nat := 4095

def ofString (path : String) : PathName where
  absolute := path.startsWith "/"
  names := ((path.toList.splitOn '/').map String.ofList).filter (· ≠ "")
  asFolder := path.endsWith "/"

/-- Takes a path apart that is to be looked up. The empty path names nothing. -/
def parse (path : String) : Except FileFault PathName :=
  if path.contains '\x00' then .error .nulInName
  else if path = "" then .error .notFound
  else if longestPath < path.utf8ByteSize then .error .nameTooLong
  else .ok (ofString path)

def join (folder path : String) : String :=
  if path.startsWith "/" then path
  else if folder = "" || folder.endsWith "/" then folder ++ path
  else folder ++ "/" ++ path

/-- The names without the dots at the end; a dot that starts a relative path stays. -/
def trimDots (absolute : Bool) (names : List String) : List String :=
  match names with
  | [] => []
  | first :: rest =>
    let kept := (rest.reverse.dropWhile (· = ".")).reverse
    if kept = [] ∧ absolute ∧ first = "." then [] else first :: kept

theorem length_trimDots_le (absolute : Bool) (names : List String) :
    (trimDots absolute names).length ≤ names.length := by
  cases names with
  | nil => simp [trimDots]
  | cons first rest =>
    have h := (List.dropWhile_sublist (l := rest.reverse) (· = ".")).length_le
    simp only [trimDots]
    split <;> simp_all

def parent? (p : PathName) : Option PathName :=
  match trimDots p.absolute p.names with
  | [] => none
  | names => some ⟨p.absolute, trimDots p.absolute names.dropLast, false⟩

theorem length_parent?_lt {p q : PathName} (h : p.parent? = some q) :
    q.names.length < p.names.length := by
  unfold parent? at h
  split at h
  · simp at h
  next hne =>
    cases h
    have h₁ := length_trimDots_le p.absolute p.names
    have h₂ := length_trimDots_le p.absolute (trimDots p.absolute p.names).dropLast
    have h₃ : 0 < (trimDots p.absolute p.names).length := List.length_pos_iff.mpr hne
    simp only [List.length_dropLast] at h₂
    show (trimDots _ _).length < _
    omega

end PathName

-- ---------------------------------------------------------------------------
-- Files and folders
-- ---------------------------------------------------------------------------

inductive Entry
  | file (content : ByteArray)
  | folder

structure Folder where
  entries : List (List String × Entry) := []

inductive Place
  | inside (names : List String)
  | outside
  deriving DecidableEq, Repr

namespace Folder

def entry? (f : Folder) (names : List String) : Option Entry :=
  f.entries.lookup names

def at? (f : Folder) : Place → Option Entry
  | .inside [] => some .folder
  | .inside names => f.entry? names
  | .outside => some .folder

def isFolderAt (f : Folder) (place : Place) : Bool :=
  match f.at? place with
  | some .folder => true
  | _ => false

def put (f : Folder) (names : List String) (e : Entry) : Folder :=
  ⟨f.entries.filter (·.1 ≠ names) ++ [(names, e)]⟩

def child (f : Folder) (place : Place) (name : String) : Except FileFault Place :=
  if PathName.longestName < name.utf8ByteSize then .error .nameTooLong
  else match name, place with
    | ".", place => .ok place
    | "..", .inside (n :: names) => .ok (.inside (n :: names).dropLast)
    | "..", _ => .ok .outside
    | _, .outside => .error .notFound
    | name, .inside names =>
      if (f.entry? (names ++ [name])).isSome then .ok (.inside (names ++ [name]))
      else .error .notFound

def walk (f : Folder) : Place → List String → Except FileFault Place
  | place, [] => .ok place
  | place, name :: rest =>
    if f.isFolderAt place then do
      let next ← f.child place name
      f.walk next rest
    else .error .notFolder

def start (p : PathName) : Place :=
  if p.absolute then .outside else .inside []

def hasFolder (f : Folder) (p : PathName) : Bool :=
  match f.walk (start p) p.names with
  | .ok place => f.isFolderAt place
  | .error _ => false

def read (f : Folder) (path : String) : Except FileFault ByteArray := do
  let p ← PathName.parse path
  let place ← f.walk (start p) p.names
  match f.at? place with
  | some (.file content) => if p.asFolder then .error .notFolder else .ok content
  | some .folder => .error .isFolder
  | none => .error .notFound

def holder (f : Folder) (p : PathName) : Except FileFault (Place × Option String) := do
  let place ← f.walk (start p) p.names.dropLast
  if f.isFolderAt place then .ok (place, p.names.getLast?) else .error .notFolder

def isPlainName (name : String) : Bool :=
  name ≠ "." && name ≠ ".."

def save (f : Folder) (path : String) (content : ByteArray) : Except FileFault Folder := do
  let p ← PathName.parse path
  match ← f.holder p with
  | (_, none) => .error .isFolder
  | (place, some name) =>
    if !isPlainName name || p.asFolder then .error .isFolder
    else if PathName.longestName < name.utf8ByteSize then .error .nameTooLong
    else match place with
      | .outside => .ok f
      | .inside names =>
        match f.entry? (names ++ [name]) with
        | some .folder => .error .isFolder
        | _ => .ok (f.put (names ++ [name]) (.file content))

def makeFolder (f : Folder) (p : PathName) : Except FileFault Folder := do
  match ← f.holder p with
  | (_, none) => .error .exists
  | (place, some name) =>
    if !isPlainName name then .error .exists
    else if PathName.longestName < name.utf8ByteSize then .error .nameTooLong
    else match place with
      | .outside => .ok f
      | .inside names =>
        match f.entry? (names ++ [name]) with
        | some _ => .error .exists
        | none => .ok (f.put (names ++ [name]) .folder)

def makeFoldersFor (f : Folder) (p : PathName) : Except FileFault Folder :=
  match f.makeFolder p with
  | .ok made => .ok made
  | .error .notFound =>
    match _h : p.parent? with
    | none => .error .noWholeTree
    | some parent => do
      let f ← if parent.names = [] ∧ ¬ parent.absolute then .ok f else f.makeFoldersFor parent
      match f.makeFolder p with
      | .ok made => .ok made
      | .error fault => if f.hasFolder p then .ok f else .error fault
  | .error fault => if f.hasFolder p then .ok f else .error fault
termination_by p.names.length
decreasing_by exact PathName.length_parent?_lt _h

/-- Makes the folder that a path names, and those on the way to it. The empty path names the
working folder itself. -/
def makeFolders (f : Folder) (path : String) : Except FileFault Folder :=
  if path = "" then .ok f else do f.makeFoldersFor (← PathName.parse path)

def files (f : Folder) : List (String × ByteArray) :=
  f.entries.filterMap fun
    | (names, .file content) => some ("/".intercalate names, content)
    | _ => none

/-- A folder with a file, or with a folder if the path ends with a slash, and with the folders on
the way. -/
def place (f : Folder) (path : String) (content : ByteArray) : Folder :=
  let p := PathName.ofString path
  let ways := (List.range p.names.length).tail.map p.names.take
  let f := ways.foldl (fun f names => if (f.entry? names).isSome then f else f.put names .folder) f
  f.put p.names (if p.asFolder then .folder else .file content)

end Folder

end BlockTree
