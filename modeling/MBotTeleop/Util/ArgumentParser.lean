-- SUMMARY: The ArgumentParser class: its tables, what add makes of them, and parse with every access to argv.
import MBotTeleop.Lib.Machine
import MBotTeleop.Lib.Numeral
import Mathlib.Logic.Function.Basic

/-!
# `ArgumentParser`

The parser of `argument_parser.cpp` and the templates of its header. A loop runs
for at most as many iterations as its `fuel`. What a call must not do is a
`Fault` of the model: an access outside of `argv`, an exception that nobody
catches, a loop that does not end.
-/

namespace Rix.Util

/-- A `std::string`, or a C string without its terminator. -/
abbrev CString := List UInt8

/-- A string literal. -/
def CString.ofString (s : String) : CString := s.toList.map Char.toUInt8

-- ---------------------------------------------------------------------------
-- The standard library
-- ---------------------------------------------------------------------------

/-- `std::isalnum` in the "C" locale. -/
def isalnum (c : UInt8) : Bool :=
  Numeral.isDigit c ∨ ('A'.toUInt8 ≤ c ∧ c ≤ 'Z'.toUInt8) ∨ ('a'.toUInt8 ≤ c ∧ c ≤ 'z'.toUInt8)

/-- `std::isspace` in the "C" locale. -/
def isspace (c : UInt8) : Bool := c = ' '.toUInt8 ∨ (9 ≤ c ∧ c ≤ 13)

/-- What `std::stoi` and `std::stof` throw. -/
inductive ConversionError where
  /-- `std::invalid_argument` -/
  | invalidArgument
  /-- `std::out_of_range` -/
  | outOfRange
  deriving DecidableEq, Repr

/-- A sign, if there is one, and what comes after it. -/
def splitSign : CString → CString × CString
  | c :: s => if c = '-'.toUInt8 ∨ c = '+'.toUInt8 then ([c], s) else ([], c :: s)
  | [] => ([], [])

/-- `std::stoi(str, &index)`: blanks, a sign and digits are converted, and
`index` is the number of characters that this took. -/
def stoi (str : CString) : Except ConversionError (BitVec 32 × Nat) :=
  let blanks := str.takeWhile isspace
  let (sign, rest) := splitSign (str.dropWhile isspace)
  let digits := rest.takeWhile Numeral.isDigit
  let n : Int := if sign = ['-'.toUInt8] then -Numeral.value digits else Numeral.value digits
  if digits = [] then .error .invalidArgument
  else if n < -2 ^ 31 ∨ 2 ^ 31 ≤ n then .error .outOfRange
  else .ok (BitVec.ofInt 32 n, blanks.length + sign.length + digits.length)

/-- `std::stof(str, &index)`, with the float widened to a double. Its syntax and
its rounding make no difference here, so it is a parameter of the parser. -/
abbrev Stof := CString → Except ConversionError (BitVec 64 × Nat)

-- ---------------------------------------------------------------------------
-- Arguments
-- ---------------------------------------------------------------------------

/-- `VariantIndex` -/
inductive VariantIndex where
  | bool
  | char
  | int
  | double
  | string
  | intVec
  | doubleVec
  | stringVec
  deriving DecidableEq, Repr

/-- The alternatives of the variant. -/
def VariantIndex.Carrier : VariantIndex → Type
  | bool => Bool
  | char => UInt8
  | int => BitVec 32
  | double => BitVec 64
  | string => CString
  | intVec => List (BitVec 32)
  | doubleVec => List (BitVec 64)
  | stringVec => List CString

/-- `Value`; a double is its bit pattern. -/
inductive Value where
  | bool (b : Bool)
  | char (c : UInt8)
  | int (n : BitVec 32)
  | double (d : BitVec 64)
  | string (s : CString)
  | intVec (ns : List (BitVec 32))
  | doubleVec (ds : List (BitVec 64))
  | stringVec (ss : List CString)
  deriving DecidableEq, Repr

/-- A value of one alternative. -/
def VariantIndex.wrap : (T : VariantIndex) → T.Carrier → Value
  | bool => Value.bool
  | char => Value.char
  | int => Value.int
  | double => Value.double
  | string => Value.string
  | intVec => Value.intVec
  | doubleVec => Value.doubleVec
  | stringVec => Value.stringVec

namespace Value

def index : Value → VariantIndex
  | bool _ => .bool
  | char _ => .char
  | int _ => .int
  | double _ => .double
  | string _ => .string
  | intVec _ => .intVec
  | doubleVec _ => .doubleVec
  | stringVec _ => .stringVec

/-- `std::get<T>(value)`, which throws where it is `none`. -/
def get : (T : VariantIndex) → Value → Option T.Carrier
  | .bool, bool b => some b
  | .char, char c => some c
  | .int, int n => some n
  | .double, double d => some d
  | .string, string s => some s
  | .intVec, intVec ns => some ns
  | .doubleVec, doubleVec ds => some ds
  | .stringVec, stringVec ss => some ss
  | _, _ => none

end Value

/-- `T()` -/
def VariantIndex.init : VariantIndex → Value
  | bool => .bool false
  | char => .char 0
  | int => .int 0
  | double => .double 0
  | string => .string []
  | intVec => .intVec []
  | doubleVec => .doubleVec []
  | stringVec => .stringVec []

/-- `detail::isalnum`, which also lets `_` pass. -/
def detail.isalnum (str : CString) : Bool := str.all fun c => Util.isalnum c || c = '_'.toUInt8

/-- `ArgumentParser::Arg` -/
structure Arg where
  name : CString
  description : CString
  value : Value
  required : Bool
  shortName : UInt8

/-- `Arg::Arg`, with the message of the exception it throws. -/
def Arg.make (name description : CString) (shortName : UInt8) (defaultValue : Value)
    (required : Bool) : Except String Arg :=
  if name.length < 2 ∨ detail.isalnum name = false then
    .error "Name must be at least 2 alphanumeric characters."
  else if defaultValue.index = .bool ∧ required then
    .error "Bool cannot be required."
  else
    .ok { name, description, value := defaultValue, required, shortName }

-- ---------------------------------------------------------------------------
-- The parser
-- ---------------------------------------------------------------------------

structure ArgumentParser where
  name : CString
  description : CString
  requiredArgNames : List CString := []
  shortToLong : UInt8 → Option CString := fun _ => none
  args : CString → Option Arg := fun _ => none

/-- The public `add` members. -/
inductive AddCall where
  /-- `add<T>(name, description)` -/
  | required (T : VariantIndex) (name description : CString)
  /-- `add(name, description, default_value)` -/
  | optional (name description : CString) (defaultValue : Value)
  /-- `add(name, description, short_name, default_value)` -/
  | short (name description : CString) (shortName : UInt8) (defaultValue : Value)
  deriving DecidableEq, Repr

/-- The argument that a call of `add` makes, or the message of its exception. -/
def AddCall.arg : AddCall → Except String Arg
  | required T name description => Arg.make name description 0 T.init true
  | optional name description defaultValue => Arg.make name description 0 defaultValue false
  | short name description shortName defaultValue =>
    if isalnum shortName then Arg.make name description shortName defaultValue false
    else .error "Short name must be alphanumeric."

namespace ArgumentParser

/-- `add(const Arg &arg)`. An argument of a name that is there already is not
put into `args_`. -/
def addArg (p : ArgumentParser) (arg : Arg) : ArgumentParser where
  name := p.name
  description := p.description
  requiredArgNames :=
    if arg.required then p.requiredArgNames ++ [arg.name] else p.requiredArgNames
  shortToLong :=
    if ¬ arg.required ∧ arg.shortName ≠ 0 then
      Function.update p.shortToLong arg.shortName (some arg.name)
    else p.shortToLong
  args :=
    if (p.args arg.name).isSome then p.args else Function.update p.args arg.name (some arg)

/-- A call of `add`, or the message of the exception it throws. -/
def add (p : ArgumentParser) (call : AddCall) : Except String ArgumentParser :=
  call.arg.map p.addArg

/-- The parsers that calls of `add` can make. -/
def built (name description : CString) : Machine ArgumentParser AddCall where
  init := { name, description }
  step p call := (p.add call).toOption

/-- `ArgumentParser::get<T>` -/
def get (p : ArgumentParser) (T : VariantIndex) (name : CString) : Option T.Carrier :=
  (p.args name).bind fun arg => arg.value.get T

end ArgumentParser

-- ---------------------------------------------------------------------------
-- Accesses to argv
-- ---------------------------------------------------------------------------

/-- What `parse` must not do. -/
inductive Fault where
  /-- `argv[i]` is read, and there is no such argument. -/
  | outOfBounds (i : Nat)
  /-- `args_.at` throws. -/
  | outOfRange
  /-- `std::get` throws. -/
  | badVariantAccess
  /-- A loop takes more iterations than it has fuel. -/
  | diverges
  deriving DecidableEq, Repr

/-- The offset into `argv`, with the offsets before it and the indices at which
`argv` was read, the latest first. -/
structure Cursor where
  offset : Nat := 1
  past : List Nat := []
  reads : List Nat := []
  deriving DecidableEq, Repr

/-- `argv[offset]` -/
def Cursor.peek (argv : List CString) (c : Cursor) : Except Fault (CString × Cursor) :=
  match argv[c.offset]? with
  | some str => .ok (str, { c with reads := c.offset :: c.reads })
  | none => .error (.outOfBounds c.offset)

/-- `argv[offset++]` -/
def Cursor.next (argv : List CString) (c : Cursor) : Except Fault (CString × Cursor) :=
  match argv[c.offset]? with
  | some str => .ok (str, {
      offset := c.offset + 1
      past := c.offset :: c.past
      reads := c.offset :: c.reads })
  | none => .error (.outOfBounds c.offset)

/-- What a function leaves that returns whether it could parse: the value and the
offset are references. -/
structure Parsed (α : Type) where
  ok : Bool
  value : α
  cursor : Cursor

-- ---------------------------------------------------------------------------
-- Values
-- ---------------------------------------------------------------------------

namespace detail

variable {α : Type}

/-- The `try` block around `std::stoi` or `std::stof`: `index` is set, and not
looked at. -/
def convert (sto : CString → Except ConversionError (α × Nat)) (str : CString) : Option α :=
  match sto str with
  | .ok (value, _index) => some value
  | .error .invalidArgument | .error .outOfRange => none

/-- A string of one character. -/
def convertChar : CString → Option UInt8
  | [c] => some c
  | _ => none

/-- `detail::parse` for `int`, `char` and `double`, and for `std::string`. -/
def parseScalar (conversion : CString → Option α) (argv : List CString) (c : Cursor) (value : α) :
    Except Fault (Parsed α) :=
  if c.offset ≥ argv.length then .ok ⟨false, value, c⟩
  else do
    let (str, c) ← c.next argv
    match conversion str with
    | some value => return ⟨true, value, c⟩
    | none => return ⟨false, value, c⟩

/-- `detail::parse` for `bool`, which reads no argument. -/
def parseBool (argv : List CString) (c : Cursor) (value : Bool) : Parsed Bool :=
  if c.offset > argv.length then ⟨false, value, c⟩ else ⟨true, !value, c⟩

/-- `while (offset < argc && argv[offset][0] != '-')`, with elements that start
as `init`. -/
def vectorLoop (conversion : CString → Option α) (init : α) (argv : List CString) :
    Nat → Cursor → List α → Except Fault (Parsed (List α))
  | 0, _, _ => .error .diverges
  | fuel + 1, c, value =>
    if c.offset < argv.length then do
      let (str, c) ← c.peek argv
      if str.head? = some '-'.toUInt8 then return ⟨true, value, c⟩
      else
        let r ← parseScalar conversion argv c init
        if r.ok then vectorLoop conversion init argv fuel r.cursor (value ++ [r.value])
        else return ⟨false, [], r.cursor⟩
    else .ok ⟨true, value, c⟩

/-- `detail::parse` for a vector. -/
def parseVector (conversion : CString → Option α) (init : α) (fuel : Nat) (argv : List CString)
    (c : Cursor) (value : List α) : Except Fault (Parsed (List α)) :=
  if c.offset ≥ argv.length then .ok ⟨false, value, c⟩
  else vectorLoop conversion init argv fuel c []

/-- The overloads of `detail::parse`. -/
def parse (stof : Stof) (fuel : Nat) (argv : List CString) (c : Cursor) :
    (T : VariantIndex) → T.Carrier → Except Fault (Parsed T.Carrier)
  | .bool, value => .ok (parseBool argv c value)
  | .char, value => parseScalar convertChar argv c value
  | .int, value => parseScalar (convert stoi) argv c value
  | .double, value => parseScalar (convert stof) argv c value
  | .string, value => parseScalar some argv c value
  | .intVec, value => parseVector (convert stoi) 0 fuel argv c value
  | .doubleVec, value => parseVector (convert stof) 0 fuel argv c value
  | .stringVec, value => parseVector some [] fuel argv c value

end detail

-- ---------------------------------------------------------------------------
-- Command lines
-- ---------------------------------------------------------------------------

namespace ArgumentParser

/-- `parse_arg`: the overload for `value.index()`, on `std::get` of it. -/
def parseArg (stof : Stof) (fuel : Nat) (argv : List CString) (c : Cursor) (arg : Arg) :
    Except Fault (Parsed Arg) :=
  match arg.value.get arg.value.index with
  | none => .error .badVariantAccess
  | some value => do
    let r ← detail.parse stof fuel argv c arg.value.index value
    return ⟨r.ok, { arg with value := arg.value.index.wrap r.value }, r.cursor⟩

/-- `for (const std::string &name : required_arg_names_)` -/
def parseRequired (stof : Stof) (fuel : Nat) (argv : List CString) :
    List CString → Cursor → (CString → Option Arg) → Except Fault (Parsed (CString → Option Arg))
  | [], c, args => .ok ⟨true, args, c⟩
  | name :: names, c, args =>
    match args name with
    | none => .error .outOfRange
    | some arg => do
      let r ← parseArg stof fuel argv c arg
      let args := Function.update args name (some r.value)
      if r.ok then parseRequired stof fuel argv names r.cursor args
      else return ⟨false, args, r.cursor⟩

/-- The long name of an option token, or `none` where `parse` returns false. -/
def optionName (shortToLong : UInt8 → Option CString) (name : CString) : Option CString :=
  if name.length < 2 ∨ name.length = 3 then none
  else if name.length = 2 then
    if name.head? = some '-'.toUInt8 then name[1]?.bind shortToLong else none
  else if name.take 2 = ['-'.toUInt8, '-'.toUInt8] then some (name.drop 2)
  else none

/-- `while (offset < argc)`, for at most `limit` elements of a vector. -/
def parseOptions (stof : Stof) (limit : Nat) (argv : List CString)
    (shortToLong : UInt8 → Option CString) :
    Nat → Cursor → (CString → Option Arg) → Except Fault (Parsed (CString → Option Arg))
  | 0, _, _ => .error .diverges
  | fuel + 1, c, args =>
    if c.offset < argv.length then do
      let (name, c) ← c.next argv
      match optionName shortToLong name with
      | none => return ⟨false, args, c⟩
      | some name =>
        match args name with
        | none => return ⟨false, args, c⟩
        | some arg =>
          let r ← parseArg stof limit argv c arg
          let args := Function.update args name (some r.value)
          if r.ok then parseOptions stof limit argv shortToLong fuel r.cursor args
          else return ⟨false, args, r.cursor⟩
    else .ok ⟨true, args, c⟩

/-- `ArgumentParser::parse`, for an `argc` of at least one. No loop can take more
iterations than there are arguments. -/
def parse (p : ArgumentParser) (stof : Stof) (argv : List CString) :
    Except Fault (Parsed ArgumentParser) :=
  let fuel := argv.length + 1
  if argv.length - 1 < p.requiredArgNames.length then .ok ⟨false, p, {}⟩
  else do
    let r ← parseRequired stof fuel argv p.requiredArgNames {} p.args
    if r.ok then
      let r ← parseOptions stof fuel argv p.shortToLong fuel r.cursor r.value
      return ⟨r.ok, { p with args := r.value }, r.cursor⟩
    else return ⟨false, { p with args := r.value }, r.cursor⟩

end ArgumentParser

-- ---------------------------------------------------------------------------
-- Help
-- ---------------------------------------------------------------------------

/-- What `help` adds for an option to its first line. -/
def Arg.optUsage (arg : Arg) : CString :=
  .ofString " [--" ++ arg.name ++ .ofString " (-" ++ [arg.shortName] ++ .ofString ")]"

/-- What `help` adds for an option to the description. -/
def Arg.optDescription (arg : Arg) : CString :=
  .ofString "  --" ++ arg.name ++ .ofString " (-" ++ [arg.shortName] ++ .ofString ")" ++
    .ofString " - " ++ arg.description ++ .ofString "\n"

namespace ArgumentParser

open CString (ofString)

/-- `args_.at` -/
def argsAt (p : ArgumentParser) (name : CString) : Except Fault Arg :=
  match p.args name with
  | some arg => .ok arg
  | none => .error .outOfRange

/-- `help`, where `order` lists the names in the order in which `args_` is walked. -/
def help (p : ArgumentParser) (order : List CString) : Except Fault CString := do
  let required ← p.requiredArgNames.mapM p.argsAt
  let optional := (order.filterMap p.args).filter (!·.required)
  let usage := ofString "Usage: " ++ p.name ++
    required.flatMap fun arg => ofString " " ++ arg.name
  let optUsage := optional.flatMap Arg.optUsage
  let description := ofString "\n\n" ++ p.description ++ ofString "\n\nArguments:\n" ++
    required.flatMap fun arg =>
      ofString "  " ++ arg.name ++ ofString " - " ++ arg.description ++ ofString "\n"
  let optDescription := optional.flatMap Arg.optDescription
  return usage ++ optUsage ++ description ++ optDescription

end ArgumentParser

end Rix.Util
