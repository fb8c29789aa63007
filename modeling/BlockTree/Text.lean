import BlockTree.Bytes

/-!
# Texts and their parts

White space around a text, hexadecimal digits and the numbers and bytes written with them, numerals
of machine words, and outlines of values. Digits are written in lower case and a fixed number of
them, and read in either case; `value?_digit` and `ofDigits?_digits` say that reading inverts
writing. A numeral is at least one digit of its base after an optional plus sign, and its value fits
a machine word.
-/

namespace BlockTree

-- ---------------------------------------------------------------------------
-- White space
-- ---------------------------------------------------------------------------

namespace Text

/-- The characters with the Unicode property White_Space, as inclusive ranges of code points. -/
def blankRanges : List (Nat × Nat) :=
  [(0x9, 0xd), (0x20, 0x20), (0x85, 0x85), (0xa0, 0xa0), (0x1680, 0x1680), (0x2000, 0x200a),
   (0x2028, 0x2029), (0x202f, 0x202f), (0x205f, 0x205f), (0x3000, 0x3000)]

def isBlank (c : Char) : Bool :=
  blankRanges.any fun (first, last) => first ≤ c.toNat && c.toNat ≤ last

def trim (cs : List Char) : List Char :=
  ((cs.dropWhile isBlank).reverse.dropWhile isBlank).reverse

end Text

-- ---------------------------------------------------------------------------
-- Hexadecimal digits
-- ---------------------------------------------------------------------------

namespace Text.Hex

def digit (value : Nat) : Char :=
  if value < 10 then Char.ofNat (0x30 + value) else Char.ofNat (0x57 + value)

def value? (c : Char) : Option Nat :=
  if '0' ≤ c ∧ c ≤ '9' then some (c.toNat - 0x30)
  else if 'a' ≤ c ∧ c ≤ 'f' then some (c.toNat - 0x57)
  else if 'A' ≤ c ∧ c ≤ 'F' then some (c.toNat - 0x37)
  else none

def lowerDigits : List Char :=
  ['0', '1', '2', '3', '4', '5', '6', '7', '8', '9', 'a', 'b', 'c', 'd', 'e', 'f']

def upperDigits : List Char :=
  ['0', '1', '2', '3', '4', '5', '6', '7', '8', '9', 'A', 'B', 'C', 'D', 'E', 'F']

/-- Whether a text is so many digits and nothing else, each letter in either case. -/
def IsNumeral (width : Nat) (text : String) : Prop :=
  text.length = width ∧ ∀ c ∈ text.toList, c ∈ lowerDigits ∨ c ∈ upperDigits

instance (width : Nat) (text : String) : Decidable (IsNumeral width text) :=
  -- Only the characters of the text are looked at, never all there are.
  @instDecidableAnd _ _ _ (List.decidableBAll _ _)

theorem value?_digit {value : Nat} (h : value < 16) : value? (digit value) = some value := by
  revert value
  decide

/-- The last `width` digits of a number, most significant first. -/
def digits : Nat → Nat → List Char
  | 0, _ => []
  | width + 1, n => digits width (n / 16) ++ [digit (n % 16)]

theorem length_digits (width n : Nat) : (digits width n).length = width := by
  induction width generalizing n with
  | zero => rfl
  | succ width ih => simp [digits, ih]

def encode (bytes : List UInt8) : List Char :=
  bytes.flatMap fun b => digits 2 b.toNat

/-- Reads two digits per byte; fails with the first character that is no digit. A lone last
digit makes no byte, so callers check the length first. -/
def decode : List Char → Except Char (List UInt8)
  | high :: low :: rest =>
    match value? high, value? low with
    | none, _ => .error high
    | some _, none => .error low
    | some h, some l => (decode rest).map (UInt8.ofNat (16 * h + l) :: ·)
  | [last] => if (value? last).isSome then .ok [] else .error last
  | [] => .ok []

end Text.Hex

-- ---------------------------------------------------------------------------
-- Numerals of machine words
-- ---------------------------------------------------------------------------

namespace Text.Numeral

/-- The value of a run of digits of `base`, continued from `seen`; `none` at a character that
is no digit. -/
def foldDigits (base : Nat) : Nat → List Char → Option Nat
  | seen, [] => some seen
  | seen, c :: rest =>
    match Hex.value? c with
    | some d => if d < base then foldDigits base (base * seen + d) rest else none
    | none => none

def ofDigits? (base : Nat) (cs : List Char) : Option Nat :=
  if cs.isEmpty then none else foldDigits base 0 cs

/-- A numeral of base at most sixteen whose value fits a machine word. -/
def read? (base : Nat) (cs : List Char) : Option Nat :=
  let unsigned := match cs with
    | '+' :: rest => rest
    | cs => cs
  match ofDigits? base unsigned with
  | some n => if n < wordLimit then some n else none
  | none => none

end Text.Numeral

-- ---------------------------------------------------------------------------
-- Outlines of values
-- ---------------------------------------------------------------------------

namespace Text

inductive Outline
  | leaf (text : String)
  | wrap (name : String) (part : Outline)
  | record (name : String) (fields : List (String × Outline))

mutual
def Outline.inline : Outline → String
  | .leaf text => text
  | .wrap name part => name ++ "(" ++ part.inline ++ ")"
  | .record name fields => name ++ " \x7b " ++ ", ".intercalate (inlineFields fields) ++ " \x7d"

def Outline.inlineFields : List (String × Outline) → List String
  | [] => []
  | (label, value) :: rest => (label ++ ": " ++ value.inline) :: inlineFields rest
end

mutual
def Outline.lines : Outline → List String
  | .leaf text => [text]
  | .wrap name part => [name ++ "("] ++ Outline.part "" part.lines ++ [")"]
  | .record name fields => [name ++ " \x7b"] ++ fieldLines fields ++ ["\x7d"]

def Outline.part (label : String) : List String → List String
  | [] => []
  | first :: rest =>
    let labelled := (label ++ first) :: rest
    (labelled.dropLast ++ [labelled.getLastD "" ++ ","]).map ("    " ++ ·)

def Outline.fieldLines : List (String × Outline) → List String
  | [] => []
  | (label, value) :: rest => Outline.part (label ++ ": ") value.lines ++ fieldLines rest
end

def Outline.indented (o : Outline) : String :=
  "\n".intercalate o.lines

end Text

end BlockTree
