import Pddl.Data
import Pddl.Decimal.Binary
import Pddl.Number
import Pddl.Settings
import Pddl.Text.Fold

/-!
# Options

Settings are made from named options.  An option's value may be written in several ways: the word
`"yes"` is true, and the text `"3.0"` is the number three.  Everything wrong with the options is
reported at once.
-/

namespace Pddl

/-- What is wrong with an option. -/
inductive OptionFault
  | notBoolText
  | notBool
  | notIntText
  | fractional
  | notFinite
  | tooLarge
  | notInt
  | notPositive
  | unknownOption
  | keyNotText
  | notMap
deriving DecidableEq, Repr

namespace OptionFault

/-- The code of the fault. -/
def code : OptionFault → String
  | .notBoolText => "bool_parsing"
  | .notBool => "bool_type"
  | .notIntText => "int_parsing"
  | .fractional => "int_from_float"
  | .notFinite => "finite_number"
  | .tooLarge => "int_parsing_size"
  | .notInt => "int_type"
  | .notPositive => "greater_than"
  | .unknownOption => "extra_forbidden"
  | .keyNotText => "invalid_key"
  | .notMap => "model_type"

/-- The fault in words. -/
def message : OptionFault → String
  | .notBoolText => "Input should be a valid boolean, unable to interpret input"
  | .notBool => "Input should be a valid boolean"
  | .notIntText => "Input should be a valid integer, unable to parse string as an integer"
  | .fractional => "Input should be a valid integer, got a number with a fractional part"
  | .notFinite => "Input should be a finite number"
  | .tooLarge => "Unable to parse input string as an integer, exceeded maximum size"
  | .notInt => "Input should be a valid integer"
  | .notPositive => "Input should be greater than 0"
  | .unknownOption => "Extra inputs are not permitted"
  | .keyNotText => "Keys should be strings"
  | .notMap => "Input should be a valid dictionary or instance of ParserConfig"

end OptionFault

/-- The key of an option in a report. -/
inductive OptionKey
  | text (key : String)
  | int (key : Int)
deriving DecidableEq, Repr

/-- A fault and the key of the option that has it; no key for the options as a whole. -/
structure OptionProblem where
  key : Option OptionKey
  fault : OptionFault
deriving DecidableEq, Repr

namespace Options

/-! ### Whole numbers -/

/-- The first positive number that 64 bits cannot hold together with a sign. -/
def wordEnd : Int := Decimal.powTwo 63

/-- Is the number one that 64 bits can hold, with a sign? -/
def fits64 (n : Int) : Bool :=
  -wordEnd ≤ n && n < wordEnd

/-- The integer that a double is; a fault if it is not finite, not whole, or at or beyond the ends
of 64 bits. -/
def wholeNumber (x : Float) : Except OptionFault Int :=
  match Decimal.Double.ofFloat x with
  | .nan | .infinite _ => .error .notFinite
  | .finite negative mantissa exponent =>
    if mantissa % Decimal.powTwo (-exponent) ≠ 0 then .error .fractional
    else
      let magnitude : Nat := mantissa * Decimal.powTwo exponent / Decimal.powTwo (-exponent)
      let value : Int := if negative then -(magnitude : Int) else magnitude
      if -wordEnd < value && value < wordEnd then .ok value else .error .tooLarge

/-! ### Truth values -/

/-- The words for true, folded. -/
def trueWords : List String := ["1", "on", "t", "true", "y", "yes"]

/-- The words for false, folded. -/
def falseWords : List String := ["0", "off", "f", "false", "n", "no"]

/-- One is true and zero is false. -/
def boolOfInt (n : Int) : Except OptionFault Bool :=
  if n = 0 then .ok false else if n = 1 then .ok true else .error .notBoolText

/-- The truth value that an option's value stands for. -/
def toBool : Data → Except OptionFault Bool
  | .bool value => .ok value
  | .text text =>
    if trueWords.contains (fold text) then .ok true
    else if falseWords.contains (fold text) then .ok false
    else .error .notBoolText
  | .int n => if fits64 n then boolOfInt n else .error .notBool
  | .real x =>
    match wholeNumber x with
    | .ok n => boolOfInt n
    | .error _ => .error .notBool
  | _ => .error .notBool

/-! ### Integers -/

/-- The characters that are dropped at both ends of the text of an integer. -/
def isWhite (c : Char) : Bool :=
  let n := c.toNat
  (9 ≤ n && n ≤ 13) || n = 0x20 || n = 0x85 || n = 0xA0 || n = 0x1680 ||
    (0x2000 ≤ n && n ≤ 0x200A) || n = 0x2028 || n = 0x2029 || n = 0x202F || n = 0x205F || n = 0x3000

/-- A text without white space at its ends. -/
def trimWhite (chars : List Char) : List Char :=
  ((chars.dropWhile isWhite).reverse.dropWhile isWhite).reverse

/-- An integer in its plain form: an optional minus, and digits that do not start with a zero unless
there is just one. -/
def plainInt? (chars : List Char) : Option Int :=
  let negative := chars.head? = some '-'
  let digits := if negative then chars.drop 1 else chars
  let plain :=
    match digits with
    | [] => false
    | ['0'] => true
    | c :: _ => c ≠ '0' && digits.all Char.isDigit
  if plain then
    let magnitude : Int := Text.decimalValue digits
    some (if negative then -magnitude else magnitude)
  else none

/-- Drops zeros, and underscores after them, in front of a number that starts with a zero; a zero
before a point or at the end stays. -/
def withoutLeadingZeros : List Char → Option (List Char)
  | '0' :: rest =>
    match rest.dropWhile fun c => c = '0' || c = '_' with
    | [] => some [('0' :: rest).getLastD '0']
    | '.' :: more => some ('0' :: '.' :: more)
    | c :: more => if c.isDigit then some (c :: more) else none
  | c :: rest => if c.isDigit || c = '-' then some (c :: rest) else none
  | [] => none

/-- Drops a fraction of zeros. -/
def withoutZeroFraction (chars : List Char) : List Char :=
  match chars.dropWhile (· ≠ '.') with
  | '.' :: fraction => if fraction.all (· = '0') then chars.takeWhile (· ≠ '.') else chars
  | _ => chars

/-- Do underscores stand between other characters only, and never two together? -/
def wellGrouped : List Char → Bool
  | [] => true
  | ['_'] => false
  | '_' :: '_' :: _ => false
  | _ :: rest => wellGrouped rest

/-- Drops underscores between digits. -/
def withoutUnderscores (chars : List Char) : List Char :=
  if chars.head? ≠ some '_' && wellGrouped chars then chars.filter (· ≠ '_') else chars

/-- The integer that a text spells: with white space around it, a plus, zeros in front, a fraction
of zeros, or underscores between its digits. -/
def intOfText? (text : String) : Option Int :=
  match plainInt? text.toList with
  | some n => some n
  | none =>
    let trimmed := trimWhite text.toList
    let unsigned :=
      match trimmed with
      | '+' :: '-' :: _ => none
      | '+' :: rest => some rest
      | chars => some chars
    match unsigned.bind withoutLeadingZeros with
    | some chars => plainInt? (withoutUnderscores (withoutZeroFraction chars))
    | none => none

/-- The integer that an option's value stands for. -/
def toInt : Data → Except OptionFault Int
  | .bool value => .ok (if value then 1 else 0)
  | .int n => .ok n
  | .real x => wholeNumber x
  | .text text =>
    match intOfText? text with
    | some n => .ok n
    | none => .error .notIntText
  | _ => .error .notInt

/-- The limit that an option's value stands for; none for null. -/
def toLimit : Data → Except OptionFault (Option Nat)
  | .null => .ok none
  | value => do
    let n ← toInt value
    if 0 < n then .ok (some n.toNat) else .error .notPositive

/-! ### All options -/

/-- The options that there are. -/
def names : List String :=
  ["strict_requirements", "require_end_of_input", "max_nesting_depth"]

/-- How a report names a key that is not a text. -/
def keyOf : Data → OptionKey
  | .int n => .int n
  | .bool value => .int (if value then 1 else 0)
  | .text text => .text text
  | .null => .text "None"
  | .real x => .text (Number.writeReal x)
  | _ => .text ""

/-- The value of an option, or a default if the option is not given; the fault goes to a list. -/
def field {α : Type} (entries : List (Data × Data)) (name : String) (default : α)
    (convert : Data → Except OptionFault α) : α × List OptionProblem :=
  match entries.find? fun entry => entry.1.isText name with
  | none => (default, [])
  | some entry =>
    match convert entry.2 with
    | .ok value => (value, [])
    | .error fault => (default, [⟨some (.text name), fault⟩])

/-- The problem of an entry whose key is no option. -/
def extraProblem? (entry : Data × Data) : Option OptionProblem :=
  match entry.1 with
  | .text name => if names.contains name then none else some ⟨some (.text name), .unknownOption⟩
  | key => some ⟨some (keyOf key), .keyNotText⟩

end Options

/-- The settings that the entries of a map give, or all that is wrong with them: first the options
in their own order, then the keys that are no options. -/
def Settings.ofEntries (entries : List (Data × Data)) : Except (List OptionProblem) Settings :=
  let lenient := Settings.lenient
  let (strict, strictFaults) :=
    Options.field entries "strict_requirements" lenient.strictRequirements Options.toBool
  let (whole, wholeFaults) :=
    Options.field entries "require_end_of_input" lenient.requireEndOfInput Options.toBool
  let (depth, depthFaults) :=
    Options.field entries "max_nesting_depth" lenient.maxNestingDepth Options.toLimit
  match strictFaults ++ wholeFaults ++ depthFaults ++ entries.filterMap Options.extraProblem? with
  | [] => .ok ⟨strict, whole, depth⟩
  | problems => .error problems

/-- The settings that a value gives: the defaults if it is vacant, else it has to be a map. -/
def Settings.ofData (value : Data) : Except (List OptionProblem) Settings :=
  if value.isVacant then .ok Settings.lenient
  else
    match value with
    | .map entries => Settings.ofEntries entries
    | _ => .error [⟨none, .notMap⟩]

end Pddl
