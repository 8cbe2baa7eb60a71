import FieldRecords.Decimal.Nearest

/-!
# TOML: blanks, comments and texts

A reader takes a list of characters and gives what it read and what is left, or `none` if the
characters are no TOML. This file has the readers below values: blanks (space and tab), line ends
(LF, or CR and LF), comments, and the four kinds of texts. Basic texts have escapes; literal texts
have none. Texts in triple quotes span lines, lose a line end right after the opening quotes, have
LF at every line end, and may end in one or two quotes of their own.

Readers that repeat take a number of steps, which no document needs more of than twice its length.
Those that collect characters hold what they have `read` so far with the last character first.
-/

namespace FieldRecords

namespace Toml

/-- What was read, and what is left. -/
abbrev Read (α : Type) : Type := Option (α × List Char)

/-! ## 1. Blanks, line ends, comments -/

def isBlank (c : Char) : Bool := c == ' ' || c == '\t'

/-- A character that may stand in a comment: no control character but the tab. -/
def isCommentChar (c : Char) : Bool :=
  c == '\t' || (0x20 ≤ c.toNat && c.toNat ≠ 0x7F)

def skipBlanks (cs : List Char) : List Char := cs.dropWhile isBlank

/-- A line end. -/
def lineEnd? : List Char → Option (List Char)
  | '\n' :: cs => some cs
  | '\r' :: '\n' :: cs => some cs
  | _ => none

/-- What is left after a comment, if there is one. -/
def skipComment : List Char → List Char
  | '#' :: cs => cs.dropWhile isCommentChar
  | cs => cs

/-- The rest of a line after a value or a header: blanks, a comment, and the end of the line or of
    the document. -/
def finishLine? (cs : List Char) : Option (List Char) :=
  match skipComment (skipBlanks cs) with
  | [] => some []
  | cs => lineEnd? cs

/-- What is left after blanks, comments and line ends; `steps` bounds how many there are. -/
def skipLines : Nat → List Char → List Char
  | 0, cs => cs
  | steps + 1, cs =>
    match skipComment (skipBlanks cs) with
    | '\n' :: cs => skipLines steps cs
    | '\r' :: '\n' :: cs => skipLines steps cs
    | cs => cs

/-! ## 2. Escapes -/

def isHex (c : Char) : Bool :=
  c.isDigit || ('a' ≤ c && c ≤ 'f') || ('A' ≤ c && c ≤ 'F')

/-- The character with the number that so many hexadecimal digits give. -/
def codePoint? (count : Nat) (cs : List Char) : Read Char :=
  let digits := cs.take count
  let n := digitsValue 16 digits
  if digits.length = count && digits.all isHex && n.isValidChar then
    some (Char.ofNat n, cs.drop count)
  else none

/-- The character of an escape, after the backslash. -/
def escape? : List Char → Read Char
  | 'b' :: cs => some ('\x08', cs)
  | 't' :: cs => some ('\t', cs)
  | 'n' :: cs => some ('\n', cs)
  | 'f' :: cs => some ('\x0c', cs)
  | 'r' :: cs => some ('\r', cs)
  | '"' :: cs => some ('"', cs)
  | '\\' :: cs => some ('\\', cs)
  | 'u' :: cs => codePoint? 4 cs
  | 'U' :: cs => codePoint? 8 cs
  | _ => none

/-! ## 3. Texts on one line -/

/-- The characters of a basic text up to its closing quote. -/
def basicChars? : Nat → List Char → List Char → Read (List Char)
  | 0, _, _ => none
  | _ + 1, _, [] => none
  | steps + 1, read, c :: cs =>
    if c = '"' then some (read.reverse, cs)
    else if c = '\\' then
      match escape? cs with
      | some (e, cs) => basicChars? steps (e :: read) cs
      | none => none
    else if isCommentChar c then basicChars? steps (c :: read) cs
    else none

/-- The characters of a literal text up to its closing quote. -/
def literalChars? (cs : List Char) : Read (List Char) :=
  let inside (c : Char) : Bool := isCommentChar c && c != '\''
  match cs.dropWhile inside with
  | '\'' :: rest => some (cs.takeWhile inside, rest)
  | _ => none

/-! ## 4. Texts over several lines -/

/-- How many quotes stand in front, and what follows them. -/
def countQuotes (quote : Char) (cs : List Char) : Nat × List Char :=
  ((cs.takeWhile (· == quote)).length, cs.dropWhile (· == quote))

/-- A run of quotes inside a text in triple quotes: less than three belong to the text; from three
    on the text ends, and up to two further quotes before the end belong to it. The answer says
    whether the text ends, how many quotes belong to it and what is left. -/
def quoteRun (quote : Char) (cs : List Char) : Bool × Nat × List Char :=
  let (count, rest) := countQuotes quote cs
  if count < 3 then (false, count, rest)
  else
    let own := min 2 (count - 3)
    (true, own, cs.drop (own + 3))

/-- What is left after blanks and line ends; `steps` bounds how many there are. -/
def skipBlankLines : Nat → List Char → List Char
  | 0, cs => cs
  | steps + 1, cs =>
    match skipBlanks cs with
    | '\n' :: cs => skipBlankLines steps cs
    | '\r' :: '\n' :: cs => skipBlankLines steps cs
    | cs => cs

/-- The characters of a basic text in triple quotes. A backslash at the end of a line drops the
    line end and all blanks and line ends after it. -/
def longBasicChars? : Nat → List Char → List Char → Read (List Char)
  | 0, _, _ => none
  | _ + 1, _, [] => none
  | steps + 1, read, c :: cs =>
    if c = '"' then
      let (ends, own, rest) := quoteRun '"' (c :: cs)
      let read := List.replicate own '"' ++ read
      if ends then some (read.reverse, rest) else longBasicChars? steps read rest
    else if c = '\\' then
      match lineEnd? (skipBlanks cs) with
      | some rest => longBasicChars? steps read (skipBlankLines steps rest)
      | none =>
        match escape? cs with
        | some (e, cs) => longBasicChars? steps (e :: read) cs
        | none => none
    else if isCommentChar c then longBasicChars? steps (c :: read) cs
    else
      match lineEnd? (c :: cs) with
      | some cs => longBasicChars? steps ('\n' :: read) cs
      | none => none

/-- The characters of a literal text in triple quotes. -/
def longLiteralChars? : Nat → List Char → List Char → Read (List Char)
  | 0, _, _ => none
  | _ + 1, _, [] => none
  | steps + 1, read, c :: cs =>
    if c = '\'' then
      let (ends, own, rest) := quoteRun '\'' (c :: cs)
      let read := List.replicate own '\'' ++ read
      if ends then some (read.reverse, rest) else longLiteralChars? steps read rest
    else if isCommentChar c then longLiteralChars? steps (c :: read) cs
    else
      match lineEnd? (c :: cs) with
      | some cs => longLiteralChars? steps ('\n' :: read) cs
      | none => none

/-- What is left after a line end, if there is one. -/
def skipLineEnd (cs : List Char) : List Char := (lineEnd? cs).getD cs

/-- A text of any kind, from its opening quote on. -/
def text? (steps : Nat) (cs : List Char) : Read String :=
  let chars := match cs with
    | '"' :: '"' :: '"' :: cs => longBasicChars? steps [] (skipLineEnd cs)
    | '"' :: cs => basicChars? steps [] cs
    | '\'' :: '\'' :: '\'' :: cs => longLiteralChars? steps [] (skipLineEnd cs)
    | '\'' :: cs => literalChars? cs
    | _ => none
  chars.map fun (chars, cs) => (String.ofList chars, cs)

/-! ## 5. Keys -/

def isBareKeyChar (c : Char) : Bool := c.isAlphanum || c == '_' || c == '-'

/-- One part of a key: a text on one line, or letters, digits, `_` and `-`. -/
def keyPart? (steps : Nat) : List Char → Read String
  | '"' :: cs => (basicChars? steps [] cs).map fun (s, cs) => (String.ofList s, cs)
  | '\'' :: cs => (literalChars? cs).map fun (s, cs) => (String.ofList s, cs)
  | cs =>
    match cs.takeWhile isBareKeyChar with
    | [] => none
    | part => some (String.ofList part, cs.dropWhile isBareKeyChar)

/-- The parts of a key, with blanks around each, after those `read`, the last one first. -/
def keyParts? : Nat → List String → List Char → Option (List String × List Char)
  | 0, _, _ => none
  | steps + 1, read, cs => do
    let (part, cs) ← keyPart? steps (skipBlanks cs)
    match skipBlanks cs with
    | '.' :: cs => keyParts? steps (part :: read) cs
    | cs => some ((part :: read).reverse, cs)

/-- Nesting, of values as of the parts of a key, stays below this. -/
def depthLimit : Nat := 80

/-- **A key**: the way to a table and the name in it. -/
def key? (steps : Nat) (cs : List Char) : Option ((List String × String) × List Char) := do
  let (parts, cs) ← keyParts? steps [] cs
  if depthLimit ≤ parts.length then none
  let name ← parts.getLast?
  some ((parts.dropLast, name), cs)

end Toml

end FieldRecords
