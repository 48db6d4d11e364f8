import Pddl.Yaml.Scalar

/-!
# Values on a line

Quoted scalars, and lists and maps between brackets.  They may go on over several lines.
-/

namespace Pddl.Yaml

/-- Is the character a space?  Tabs may stand inside quotes and comments only. -/
def isSpace (c : Char) : Bool :=
  c = ' '

/-- Does the text go on with a space, a tab, a line end, or nothing? -/
def isGap : List Char → Bool
  | [] => true
  | c :: _ => isSpace c || c = '\t' || c = '\n'

/-- Removes the spaces at both ends. -/
def trim (chars : List Char) : List Char :=
  ((chars.dropWhile isSpace).reverse.dropWhile isSpace).reverse

/-- Folds the line ends inside a scalar: a single one is a space, each further one a newline, and
the spaces around them are dropped. -/
def foldLines (chars : List Char) : List Char :=
  let isBlank (c : Char) : Bool := c = ' ' || c = '\t'
  let trimEnd (line : List Char) : List Char := (line.reverse.dropWhile isBlank).reverse
  let step (folded : List Char × Nat) (line : List Char) : List Char × Nat :=
    let (text, breaks) := folded
    if line.isEmpty then (text, breaks + 1)
    else if breaks = 0 then (text ++ ' ' :: line, 0)
    else (text ++ List.replicate breaks '\n' ++ line, 0)
  match splitAt '\n' chars with
  | [] => []
  | [line] => line
  | first :: rest =>
    let inner := rest.dropLast.map fun line => trimEnd (line.dropWhile isBlank)
    let last := (rest.getLast?.getD []).dropWhile isBlank
    let (text, breaks) := inner.foldl step (trimEnd first, 0)
    if breaks = 0 then text ++ ' ' :: last else text ++ List.replicate breaks '\n' ++ last

/-! ### Quoted scalars -/

/-- The characters of a scalar in single quotes, after the first quote, and what follows the last
one. -/
def singleQuoted? : List Char → Option (List Char × List Char)
  | [] => none
  | '\'' :: '\'' :: rest => (singleQuoted? rest).map fun (text, rest) => ('\'' :: text, rest)
  | '\'' :: rest => some ([], rest)
  | c :: rest => (singleQuoted? rest).map fun (text, rest) => (c :: text, rest)

/-- The characters that a backslash and one character stand for. -/
def simpleEscapes : List (Char × Char) :=
  [('0', '\x00'), ('a', '\x07'), ('b', '\x08'), ('t', '\t'), ('\t', '\t'), ('n', '\n'),
   ('v', '\x0b'), ('f', '\x0c'), ('r', '\r'), ('e', '\x1b'), (' ', ' '), ('"', '"'), ('/', '/'),
   ('\\', '\\'), ('N', '\u0085'), ('_', '\u00a0'), ('L', '\u2028'), ('P', '\u2029')]

/-- The number of hexadecimal digits that an escape with a code point has. -/
def escapeWidth? : Char → Option Nat
  | 'x' => some 2
  | 'u' => some 4
  | 'U' => some 8
  | _ => none

/-- The character that an escape after its backslash stands for, and the length of the escape. -/
def escaped? : List Char → Option (Char × Nat)
  | [] => none
  | c :: rest =>
    match simpleEscapes.lookup c with
    | some char => some (char, 1)
    | none => do
      let width ← escapeWidth? c
      if (rest.take width).length = width then
        let code ← digitsIn? 16 (rest.take width)
        some (Char.ofNat code, width + 1)
      else none

/-- The characters of a scalar in double quotes, after the first quote and with its escapes, and
what follows the last one. -/
def doubleQuoted? : List Char → Option (List Char × List Char)
  | [] => none
  | '"' :: rest => some ([], rest)
  | '\\' :: c :: rest => (doubleQuoted? rest).map fun (text, rest) => ('\\' :: c :: text, rest)
  | c :: rest => (doubleQuoted? rest).map fun (text, rest) => (c :: text, rest)

/-- Puts characters in the place of escapes, at most `fuel` of them. -/
def unescape? : Nat → List Char → Option (List Char)
  | 0, _ => none
  | _, [] => some []
  | fuel + 1, c :: rest =>
    if c = '\\' then do
      let (char, length) ← escaped? rest
      let text ← unescape? fuel (rest.drop length)
      some (char :: text)
    else (unescape? fuel rest).map (c :: ·)

/-- A quoted scalar from its first quote on, and what follows it. -/
def quoted? : List Char → Option (String × List Char)
  | '\'' :: rest =>
    (singleQuoted? rest).map fun (text, rest) => (String.ofList (foldLines text), rest)
  | '"' :: rest => do
    let (raw, rest) ← doubleQuoted? rest
    let text ← unescape? (raw.length + 1) (foldLines raw)
    some (String.ofList text, rest)
  | _ => none

/-! ### Unquoted scalars -/

/-- The characters that cannot start an unquoted scalar. -/
def indicators : List Char :=
  ['-', '?', ':', ',', '[', ']', '\x7b', '\x7d', '#', '&', '*', '!', '|', '>', '\'', '"', '%', '@',
   '\u0060']

/-- Can an unquoted scalar start here?  A dash, question mark or colon can start one if more of it
follows. -/
def startsPlain (inFlow : Bool) : List Char → Bool
  | [] => false
  | c :: rest =>
    !indicators.contains c && !isGap (c :: rest) ||
      (c = '-' || (!inFlow && (c = '?' || c = ':'))) && !isGap rest

/-- The end of an unquoted scalar on its line: a tab, a colon before a space, a comment after one,
and between brackets also a comma or a bracket. -/
def endsPlain (inFlow : Bool) (before : Char) : List Char → Bool
  | [] => true
  | c :: rest =>
    c = '\n' || c = '\t' || (c = '#' && isSpace before) ||
      (c = ':' && (isGap rest ||
        (inFlow && [',', '[', ']', '\x7b', '\x7d'].contains (rest.headD ' ')))) ||
      (inFlow && [',', '?', '[', ']', '\x7b', '\x7d'].contains c)

/-- The characters of an unquoted scalar up to its end on the line, and what follows. -/
def plainChars (inFlow : Bool) (before : Char) : List Char → List Char × List Char
  | [] => ([], [])
  | c :: rest =>
    if endsPlain inFlow before (c :: rest) then ([], c :: rest)
    else
      let (text, rest) := plainChars inFlow c rest
      (c :: text, rest)

/-! ### Lists and maps between brackets -/

/-- Skips spaces, line ends and comments. -/
def skipFlowSpace : Nat → List Char → List Char
  | 0, chars => chars
  | fuel + 1, chars =>
    match chars.dropWhile fun c => isSpace c || c = '\n' with
    | '#' :: rest => skipFlowSpace fuel (rest.dropWhile (· ≠ '\n'))
    | rest => rest

mutual

/-- A value between brackets, and what follows it; an empty value is null. -/
def flowValue? : Nat → List Char → Option (Data × List Char)
  | 0, _ => none
  | fuel + 1, chars =>
    match chars with
    | '[' :: rest => flowItems? fuel [] rest
    | '\x7b' :: rest => flowEntries? fuel [] rest
    | '\'' :: _ | '"' :: _ => (quoted? chars).map fun (text, rest) => (.text text, rest)
    | _ =>
      if startsPlain true chars then
        let (text, rest) := plainChars true ' ' chars
        some (plainScalar (String.ofList (trim text)), rest)
      else
        match chars with
        | c :: _ => if [',', ']', '\x7d', ':'].contains c then some (.null, chars) else none
        | [] => none

/-- The items of a list up to its closing bracket, and what follows it. -/
def flowItems? : Nat → List Data → List Char → Option (Data × List Char)
  | 0, _, _ => none
  | fuel + 1, items, chars =>
    match skipFlowSpace fuel chars with
    | ']' :: rest => some (.list items.reverse, rest)
    | ',' :: _ => none
    | chars => do
      let (item, rest) ← flowValue? fuel chars
      let rest := skipFlowSpace fuel rest
      match rest with
      | ',' :: rest => flowItems? fuel (item :: items) rest
      | ']' :: rest => some (.list (item :: items).reverse, rest)
      | ':' :: rest => do
        let (value, rest) ← flowValue? fuel (skipFlowSpace fuel rest)
        let items := Data.map [(item, value)] :: items
        match skipFlowSpace fuel rest with
        | ',' :: rest => flowItems? fuel items rest
        | ']' :: rest => some (.list items.reverse, rest)
        | _ => none
      | _ => none

/-- The entries of a map up to its closing brace, and what follows it. -/
def flowEntries? : Nat → List (Data × Data) → List Char → Option (Data × List Char)
  | 0, _, _ => none
  | fuel + 1, entries, chars =>
    match skipFlowSpace fuel chars with
    | '\x7d' :: rest => some (Data.ofEntries entries.reverse, rest)
    | ',' :: _ => none
    | chars => do
      let (key, rest) ← flowValue? fuel chars
      let (value, rest) ← match skipFlowSpace fuel rest with
        | ':' :: rest => flowValue? fuel (skipFlowSpace fuel rest)
        | rest => some (.null, rest)
      match skipFlowSpace fuel rest with
      | ',' :: rest => flowEntries? fuel ((key, value) :: entries) rest
      | '\x7d' :: rest => some (Data.ofEntries ((key, value) :: entries).reverse, rest)
      | _ => none

end

end Pddl.Yaml
