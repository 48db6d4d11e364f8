import Pddl.Text.Newline
import Pddl.Yaml.Flow

/-!
# Option files

An option file holds one value, usually a map with a key on each line.  Maps and lists are laid out
by indentation.  Anchors and tags have no place in option files and are not read.
-/

namespace Pddl.Yaml

/-- The characters that may occur in an option file. -/
def isReadable (c : Char) : Bool :=
  let n := c.toNat
  n = 0x09 || n = 0x0A || n = 0x0D || (0x20 ≤ n && n ≤ 0x7E) || n = 0x85 ||
    (0xA0 ≤ n && n ≤ 0xD7FF) || (0xE000 ≤ n && n ≤ 0xFFFD) || 0x10000 ≤ n

/-! ### Lines -/

/-- Splits a text after its first line. -/
def splitLine (chars : List Char) : List Char × List Char :=
  (chars.takeWhile (· ≠ '\n'), (chars.dropWhile (· ≠ '\n')).drop 1)

/-- Is nothing but spaces and a comment left on the line? -/
def isBlankLine (line : List Char) : Bool :=
  match line.dropWhile isSpace with
  | [] => true
  | c :: _ => c = '#'

/-- Skips blank lines and comments, at most `fuel` of them. -/
def skipBlankLines : Nat → List Char → List Char
  | 0, chars => chars
  | fuel + 1, chars =>
    if chars.isEmpty then []
    else
      let (line, rest) := splitLine chars
      if isBlankLine line then skipBlankLines fuel rest else chars

/-- The number of spaces that a text starts with. -/
def indentation (chars : List Char) : Nat :=
  (chars.takeWhile (· = ' ')).length

/-- Does a line that separates documents start here? -/
def isMarker (mark : Char) (chars : List Char) : Bool :=
  chars.take 3 = [mark, mark, mark] && isGap (chars.drop 3)

/-- Is the value that starts a line over: at the end of the text or at a marker? -/
def isOver (chars : List Char) : Bool :=
  chars.isEmpty || isMarker '-' chars || isMarker '.' chars

/-- What follows a value on its line: nothing but spaces and a comment.  The text after the line is
returned. -/
def endLine? (chars : List Char) : Option (List Char) :=
  let (line, rest) := splitLine chars
  match line with
  | '#' :: _ => none
  | _ => if isBlankLine line then some rest else none

/-- An unquoted or quoted key with its colon at the start of a text, and what follows the colon. -/
def splitKey? (chars : List Char) : Option (Data × List Char) :=
  let ofColon (key : Data) : List Char → Option (Data × List Char)
    | ':' :: rest => if isGap rest then some (key, rest) else none
    | _ => none
  match chars with
  | '\'' :: _ | '"' :: _ => do
    let (text, rest) ← quoted? chars
    if text.toList.contains '\n' then none else ofColon (.text text) (rest.dropWhile isSpace)
  | _ =>
    if startsPlain false chars then
      let (text, rest) := plainChars false ' ' chars
      ofColon (plainScalar (String.ofList (trim text))) rest
    else none

/-! ### Scalars over several lines -/

/-- The further lines of an unquoted scalar, each indented by at least `least`, and what follows
them.  A key among them is an error. -/
def moreLines? (least : Nat) : Nat → List Char → Option (List (List Char) × List Char)
  | 0, chars => some ([], chars)
  | fuel + 1, chars =>
    let next := skipBlankLines fuel chars
    if isOver next || indentation next < least then some ([], next)
    else
      let start := next.dropWhile isSpace
      if (splitKey? start).isSome then none
      else
        let (text, rest) := plainChars false ' ' start
        match rest with
        | ':' :: _ | '\t' :: _ => none
        | '#' :: _ => some ([trim text], (splitLine rest).2)
        | _ => do
          let (others, rest) ← moreLines? least fuel (rest.drop 1)
          some (trim text :: others, rest)

/-- An unquoted scalar whose further lines are indented by at least `least`. -/
def plainValue? (least fuel : Nat) (chars : List Char) : Option (Data × List Char) := do
  let (text, rest) := plainChars false ' ' chars
  match rest with
  | ':' :: _ | '\t' :: _ => none
  | '#' :: _ => some (plainScalar (String.ofList (trim text)), (splitLine rest).2)
  | _ =>
    let (others, rest) ← moreLines? least fuel (rest.drop 1)
    let lines := (trim text :: others).map String.ofList
    some (plainScalar (String.intercalate " " lines), rest)

/-- The lines of a block scalar, each indented by at least `least`, and what follows them. -/
def blockLines (least : Nat) : Nat → List Char → List (List Char) × List Char
  | 0, chars => ([], chars)
  | fuel + 1, chars =>
    let (line, rest) := splitLine chars
    if chars.isEmpty || (!(line.all (· = ' ')) && indentation line < least) then ([], chars)
    else
      let (lines, rest) := blockLines least fuel rest
      (line :: lines, rest)

/-- The text of a block scalar after its mark: kept as it is after `|`, with its lines joined after
`>`.  A minus removes the line end at its end. -/
def blockScalar? (least fuel : Nat) (folded : Bool) (chars : List Char) :
    Option (Data × List Char) := do
  let header := chars.takeWhile fun c => c = '-' || c = '+'
  let rest ← endLine? (chars.drop header.length)
  let indent := indentation (skipBlankLines fuel rest)
  let (lines, rest) := blockLines (max least indent) fuel rest
  let lines := lines.map (·.drop (max least indent))
  let body := String.intercalate (if folded then " " else "\n")
    ((lines.reverse.dropWhile List.isEmpty).reverse.map String.ofList)
  some (.text (if header.contains '-' || body = "" then body else body ++ "\n"), rest)

/-! ### Blocks -/

/-- Is a dash for an item of a list here? -/
def isItem : List Char → Bool
  | '-' :: rest => isGap rest
  | _ => false

mutual

/-- The value that starts on the next line, indented by at least `least`; null if there is none. -/
def block? : Nat → Nat → List Char → Option (Data × List Char)
  | 0, _, _ => none
  | fuel + 1, least, chars =>
    let chars := skipBlankLines fuel chars
    let indent := indentation chars
    let start := chars.drop indent
    if isOver chars || indent < least then some (.null, chars)
    else if isItem start then listItems? fuel indent [] chars
    else if (splitKey? start).isSome then mapEntries? fuel indent [] chars
    else inline? fuel least start

/-- The value that starts on this line after a key or a dash; further lines of it are indented by at
least `least`. -/
def inline? : Nat → Nat → List Char → Option (Data × List Char)
  | 0, _, _ => none
  | fuel + 1, least, chars =>
    match chars with
    | '|' :: rest => blockScalar? least fuel false rest
    | '>' :: rest => blockScalar? least fuel true rest
    | '[' :: _ | '\x7b' :: _ | '\'' :: _ | '"' :: _ => do
      let (value, rest) ← flowValue? fuel chars
      some (value, ← endLine? rest)
    | _ => if startsPlain false chars then plainValue? least fuel chars else none

/-- The entries of a map at the given indentation. -/
def mapEntries? : Nat → Nat → List (Data × Data) → List Char → Option (Data × List Char)
  | 0, _, _, _ => none
  | fuel + 1, indent, entries, chars =>
    let chars := skipBlankLines fuel chars
    if isOver chars || indentation chars < indent then
      some (Data.ofEntries entries.reverse, chars)
    else if indentation chars ≠ indent then none
    else do
      let (key, rest) ← splitKey? (chars.drop indent)
      let start := rest.dropWhile isSpace
      let (value, rest) ←
        if isBlankLine (splitLine rest).1 then
          let next := skipBlankLines fuel (splitLine rest).2
          if indentation next = indent && isItem (next.drop indent) then
            listItems? fuel indent [] next
          else block? fuel (indent + 1) next
        else inline? fuel (indent + 1) start
      mapEntries? fuel indent ((key, value) :: entries) rest

/-- The items of a list at the given indentation.  An item may be a block that starts on the line of
its dash. -/
def listItems? : Nat → Nat → List Data → List Char → Option (Data × List Char)
  | 0, _, _, _ => none
  | fuel + 1, indent, items, chars =>
    let chars := skipBlankLines fuel chars
    if isOver chars || indentation chars < indent ||
        (indentation chars = indent && !isItem (chars.drop indent)) then
      some (.list items.reverse, chars)
    else if indentation chars ≠ indent then none
    else do
      let item := chars.take indent ++ ' ' :: chars.drop (indent + 1)
      let (value, rest) ← block? fuel (indent + 1) item
      listItems? fuel indent (value :: items) rest

end

/-! ### Documents -/

/-- Nothing but comments and end markers is left, at most `fuel` of them. -/
def isFinished : Nat → List Char → Bool
  | 0, _ => false
  | fuel + 1, chars =>
    let chars := skipBlankLines fuel chars
    chars.isEmpty ||
      (isMarker '.' chars && isBlankLine (splitLine (chars.drop 3)).1 &&
        isFinished fuel (splitLine chars).2)

/-- The value after a start marker: on the rest of its line, or on the lines after it. -/
def afterMarker? (fuel : Nat) (chars : List Char) : Option (Data × List Char) :=
  if isBlankLine (splitLine chars).1 then block? fuel 0 (splitLine chars).2
  else
    let start := chars.dropWhile isSpace
    if (splitKey? start).isSome || isItem start then none else inline? fuel 0 start

/-- Skips the lines before a start marker that start with a percent sign, at most `fuel` of them. -/
def skipDirectives : Nat → List Char → List Char
  | 0, chars => chars
  | fuel + 1, chars =>
    let chars := skipBlankLines fuel chars
    match chars with
    | '%' :: _ => skipDirectives fuel (splitLine chars).2
    | _ => chars

/-- The value that an option file holds; none if the file cannot be read. -/
def read? (text : String) : Option Data :=
  let chars := (Text.withNewlines text).toList
  let fuel := 4 * chars.length + 16
  if chars.all isReadable then
    let start := skipBlankLines fuel (if chars.head? = some '\ufeff' then chars.drop 1 else chars)
    let first := skipDirectives fuel start
    let found :=
      if isMarker '-' first then afterMarker? fuel (first.drop 3) else block? fuel 0 start
    match found with
    | some (value, rest) => if isFinished fuel rest then some value else none
    | none => none
  else none

end Pddl.Yaml
