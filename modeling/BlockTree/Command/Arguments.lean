import BlockTree.Text

/-!
# Reading an argument list

A grammar lists the options and the values by position of one command. Each value has a kind, which
decides whether a text will do. Arguments are read from left to right. A value is checked not when
it is read but when the next option or positional value begins, or at the end, so a fault that shows
earlier in the list may be reported later. Two dashes end the options.
-/

namespace BlockTree

-- ---------------------------------------------------------------------------
-- Grammars
-- ---------------------------------------------------------------------------

namespace Command

inductive UsageFault
  | unknownArgument
  | invalidNumber
  | invalidValue
  | unknownCommand
  | missingCommand
  | missingArgument
  | repeatedArgument
  | unwantedValue
  | helpWanted
  | versionWanted
  | nothingGiven
  deriving DecidableEq, Repr

inductive ValueKind
  | number
  | choice (names : List String)
  | path
  | text
  deriving DecidableEq, Repr

def ValueKind.check (kind : ValueKind) (text : String) : Except UsageFault Unit :=
  match kind with
  | .number =>
    if (Text.Numeral.read? 10 text.toList).isSome then .ok () else .error .invalidNumber
  | .choice names => if text ∈ names then .ok () else .error .invalidValue
  | .path => if text ≠ "" then .ok () else .error .invalidValue
  | .text => .ok ()

inductive OptionEffect
  | takes (kind : ValueKind)
  | flag
  | help
  | version
  deriving DecidableEq, Repr

structure OptionSpec where
  key : String
  letter : Option Char
  word : String
  effect : OptionEffect
  deriving DecidableEq, Repr

structure PlaceSpec where
  key : String
  kind : ValueKind
  required : Bool := true
  deriving DecidableEq, Repr

structure Grammar where
  options : List OptionSpec
  places : List PlaceSpec := []
  commands : List String := []
  deriving DecidableEq, Repr

def Grammar.byLetter? (g : Grammar) (c : Char) : Option OptionSpec :=
  g.options.find? (·.letter = some c)

def Grammar.byWord? (g : Grammar) (word : String) : Option OptionSpec :=
  g.options.find? (·.word = word)

-- ---------------------------------------------------------------------------
-- Scans
-- ---------------------------------------------------------------------------

/-- A value that has begun: its text is missing as long as an option waits for it. -/
structure Pending where
  key : String
  kind : ValueKind
  text : Option String
  deriving DecidableEq, Repr

structure Scan where
  settled : List (String × String) := []
  pending : Option Pending := none
  placed : Nat := 0
  /-- Whether two dashes have ended the options. -/
  escaped : Bool := false
  deriving DecidableEq, Repr

namespace Scan

def get? (s : Scan) (key : String) : Option String :=
  s.settled.lookup key

def awaiting (s : Scan) : Bool :=
  match s.pending with
  | some ⟨_, _, none⟩ => true
  | _ => false

def record (s : Scan) (key : String) (kind : ValueKind) (text : String) :
    Except UsageFault Scan := do
  if (s.get? key).isSome then throw .repeatedArgument
  kind.check text
  return { s with settled := s.settled ++ [(key, text)] }

def settle (s : Scan) : Except UsageFault Scan :=
  match s.pending with
  | none => .ok s
  | some ⟨_, _, none⟩ => .error .invalidValue
  | some ⟨key, kind, some text⟩ => { s with pending := none }.record key kind text

def begin (s : Scan) (key : String) (kind : ValueKind) (attached : Option String) :
    Except UsageFault Scan := do
  let s ← s.settle
  match attached with
  | some text => s.record key kind text
  | none => return { s with pending := some ⟨key, kind, none⟩ }

def act (s : Scan) (spec : OptionSpec) : Except UsageFault Scan := do
  let s ← s.settle
  match spec.effect with
  | .takes _ => throw .invalidValue
  | .flag => s.record spec.key .text ""
  | .help => throw .helpWanted
  | .version => throw .versionWanted

/-- Options by letter, several in one argument. What follows the letter of an option with a value
is the value, after an equals sign if there is one. -/
def letters (g : Grammar) : List Char → Scan → Except UsageFault Scan
  | [], s => .ok s
  | c :: rest, s =>
    match g.byLetter? c with
    | none => .error .unknownArgument
    | some spec =>
      match spec.effect with
      | .takes kind =>
        let attached := match rest with
          | [] => none
          | '=' :: text => some (String.ofList text)
          | text => some (String.ofList text)
        s.begin spec.key kind attached
      | _ => do letters g rest (← s.act spec)

def word (g : Grammar) (s : Scan) (cs : List Char) : Except UsageFault Scan :=
  let name := String.ofList (cs.takeWhile (· ≠ '='))
  let attached := match cs.dropWhile (· ≠ '=') with
    | [] => none
    | _ :: text => some (String.ofList text)
  match g.byWord? name with
  | none => .error .unknownArgument
  | some spec =>
    match spec.effect, attached with
    | .takes kind, attached => s.begin spec.key kind attached
    | _, some _ => .error .unwantedValue
    | _, none => s.act spec

/-- Begins the next positional value. Past the last one, an argument was meant for a command if
the grammar has any. -/
def place (g : Grammar) (s : Scan) (arg : String) : Except UsageFault Scan :=
  match g.places[s.placed]? with
  | some spec => do
    let s ← s.settle
    return { s with pending := some ⟨spec.key, spec.kind, some arg⟩, placed := s.placed + 1 }
  | none =>
    if g.commands = [] ∨ (s.escaped ∧ arg ∈ g.commands) then .error .unknownArgument
    else .error .unknownCommand

def step (g : Grammar) (s : Scan) (arg : String) : Except UsageFault Scan :=
  if s.escaped then s.place g arg
  else match arg.toList with
    | ['-', '-'] => .ok { s with escaped := true }
    | '-' :: '-' :: cs => s.word g cs
    | '-' :: c :: cs => letters g (c :: cs) s
    | _ =>
      match s.pending with
      | some ⟨key, kind, none⟩ => .ok { s with pending := some ⟨key, kind, some arg⟩ }
      | _ => s.place g arg

/-- Reads arguments up to a command, which comes with the arguments after it, or to the end. -/
def run (g : Grammar) :
    List String → Scan → Except UsageFault (Scan × Option (String × List String))
  | [], s => .ok (s, none)
  | arg :: rest, s =>
    if !s.escaped && !s.awaiting && arg ∈ g.commands then .ok (s, some (arg, rest))
    else do run g rest (← s.step g arg)

def complete (g : Grammar) (args : List String) : Except UsageFault Scan := do
  let (s, _) ← run g args {}
  let s ← s.settle
  if g.places.any fun spec => spec.required && (s.get? spec.key).isNone then
    throw .missingArgument
  return s

end Scan

end Command

end BlockTree
