import Octf.Cli.CLIElement
import Octf.Foundation.Decimal
import Octf.Foundation.OrderedMap

/-! The parameters of a command: what they hold and the values they take. Fields of a floating
point type and the texts of the help are left out. -/
namespace Octf.Cli
open Foundation
open Octf.Utils (Bytes comma)

def INT64_MIN : ℤ := -2 ^ 63
def INT64_MAX : ℤ := 2 ^ 63 - 1
def INT32_MIN : ℤ := -2 ^ 31
def INT32_MAX : ℤ := 2 ^ 31 - 1
def UINT32_MAX : ℤ := 2 ^ 32 - 1

def MAX_STRING_LENGTH : ℕ := 4096

/-! ### Exceptions -/

inductive CliException where
  | doubleSet (longKey : Bytes)
  | valueMissing (longKey : Bytes)
  | valueInvalid (longKey : Bytes)
  | valueOutOfRange (longKey : Bytes)
  | numberOutOfRange
  | valueTooLong (longKey : Bytes)
  | setMultipleTimes (longKey : Bytes)
  | limitExceeded (longKey : Bytes)
  | itemTooLong (longKey : Bytes)
  | enumInvalid (value longKey : Bytes)
  | multipleMismatch (longKey : Bytes)
  | noParameterOptions (field : Bytes)
  | noEnumValueOptions
  | noEnumParameterOptions (field : Bytes)
  | unsupportedNumericType
  | typeNotSupported
  | repeatedNotSupported
  | addedTwice (longKey : Bytes)
  | unrecognized (name : Bytes)
  | indexUnrecognized (index : ℤ)
  | invalidParameterFormat
  | required (longKey : Bytes)
  deriving DecidableEq

private def around (before after : String) (key : Bytes) : Bytes :=
  before.toUTF8.toList ++ key ++ after.toUTF8.toList

def CliException.message : CliException → Bytes
  | .doubleSet key => around "Option '" "' double set." key
  | .valueMissing key => around "Value of option '" "' is missing." key
  | .valueInvalid key => around "Value of option '" "' is invalid." key
  | .valueOutOfRange key => around "Value of option '" "' is out of range." key
  | .numberOutOfRange => "Number value out of range.".toUTF8.toList
  | .valueTooLong key => around "Value length of option '" "' is too long." key
  | .setMultipleTimes key => around "Value of option '" "' is set multiple times." key
  | .limitExceeded key => around "Limit of multiple values of option '" "' exceed." key
  | .itemTooLong key => around "Multiple value's item length of option '" "' is too long." key
  | .enumInvalid value key =>
    "Value ".toUTF8.toList ++ value ++ around " of option '" "' is invalid." key
  | .multipleMismatch key => around "Option '"
      "' cannot be parsed to protocol buffer, multiple value mismatch" key
  | .noParameterOptions field =>
    around "Input message's field: " " does not have parameter options" field
  | .noEnumValueOptions => "Enum value has no opts_enumval options defined".toUTF8.toList
  | .noEnumParameterOptions field => around "Enum " " has no enum parameter options defined" field
  | .unsupportedNumericType => "Unsupported numeric type.".toUTF8.toList
  | .typeNotSupported => "Parameter type not supported.".toUTF8.toList
  | .repeatedNotSupported => ("CLI parameter doesn't support multiple values requested in " ++
      ".proto definition via 'repeated'.").toUTF8.toList
  | .addedTwice key => around "Parameter " " added twice." key
  | .unrecognized name => around "Option '" "' is unrecognized." name
  | .indexUnrecognized index => around "Option index '" "' is unrecognized." (intText index)
  | .invalidParameterFormat => "Invalid parameter format".toUTF8.toList
  | .required key => around "Option '" "' is required." key

/-! ### The values of parameters -/

def isspace (c : UInt8) : Bool := c == 32 || (9 ≤ c && c ≤ 13)

/-- `istringstream >> int64_t` that reads up to the end: blanks in front are skipped, and what
does not fit fails. -/
def extractInt64 (value : Bytes) : Option ℤ :=
  (readInt (value.dropWhile isspace)).filter fun n => INT64_MIN ≤ n ∧ n ≤ INT64_MAX

structure ParamNumber where
  number : ℤ := 0
  min : ℤ := INT64_MIN
  max : ℤ := INT64_MAX
  deriving DecidableEq

structure ParamString where
  values : List Bytes := []
  defaultValues : List Bytes := []
  maxLength : ℕ := MAX_STRING_LENGTH
  multipleValue : Bool := false
  multipleValueLimit : ℕ := 0
  deriving DecidableEq

structure ParamEnum where
  /-- the name of each value -/
  enums : OrderedMap Bytes := OrderedMap.empty
  value : ℤ := 0

inductive ParamKind where
  | number (p : ParamNumber)
  | string (p : ParamString)
  | enum (p : ParamEnum)
  | flag

structure Parameter where
  shortKey : Bytes := []
  longKey : Bytes := []
  index : ℤ := 0
  set : Bool := false
  required : Bool := false
  kind : ParamKind

def ParamNumber.setValue (key : Bytes) (set : Bool) (element : Bytes) (p : ParamNumber) :
    Except CliException ParamNumber :=
  if set then .error (.doubleSet key)
  else if element = [] then .error (.valueMissing key)
  else match extractInt64 element with
    | none => .error (.valueInvalid key)
    | some number =>
      if number < p.min ∨ number > p.max then .error (.valueOutOfRange key)
      else .ok { p with number }

def ParamNumber.toString (p : ParamNumber) : Bytes := intText p.number

/-- The name of a value is looked for in all of them, so that the last one of a name counts. -/
def ParamEnum.setValue (key element : Bytes) (p : ParamEnum) : Except CliException ParamEnum :=
  match p.enums.entries.reverse.find? fun item => item.2 = element with
  | none => .error (.enumInvalid element key)
  | some item => .ok { p with value := item.1 }

namespace ParamString

def getValue (p : ParamString) : Bytes :=
  p.values.head?.getD (p.defaultValues.head?.getD [])

def getMultipleValue (set : Bool) (p : ParamString) : List Bytes :=
  if set then p.values else p.defaultValues

def parseValuesToVector (values : Bytes) : List Bytes := values.splitOn comma

def validate (key : Bytes) (set : Bool) (p : ParamString) : Except CliException Unit :=
  if p.multipleValue then
    let values := p.getMultipleValue set
    if p.multipleValueLimit ≠ 0 ∧ p.multipleValueLimit < values.length then
      .error (.limitExceeded key)
    else if values.any fun value => decide (p.maxLength < value.length) then
      .error (.itemTooLong key)
    else .ok ()
  else if p.maxLength < p.getValue.length then .error (.valueTooLong key)
  else .ok ()

def split (p : ParamString) (value : Bytes) : List Bytes :=
  if p.multipleValue then parseValuesToVector value else [value]

/-- The values are checked before the parameter is marked as set. -/
def setValue (key : Bytes) (set : Bool) (element : Bytes) (p : ParamString) :
    Except CliException ParamString :=
  if set then .error (.setMultipleTimes key)
  else if p.maxLength < element.length then .error (.valueTooLong key)
  else
    let p := { p with values := p.split element }
    (p.validate key set).map fun _ => p

def setDefault (key : Bytes) (set : Bool) (value : Bytes) (p : ParamString) :
    Except CliException ParamString :=
  let p := { p with defaultValues := p.split value }
  (p.validate key set).map fun _ => p

end ParamString

namespace Parameter

def hasValue (p : Parameter) : Bool :=
  match p.kind with
  | .flag => false
  | _ => true

def isMultipleValue (p : Parameter) : Bool :=
  match p.kind with
  | .string s => s.multipleValue
  | _ => false

def setMultipleValue (multipleValue : Bool) (p : Parameter) : Parameter :=
  match p.kind with
  | .string s => { p with kind := .string { s with multipleValue } }
  | _ => p

def setValue (element : Bytes) (p : Parameter) : Except CliException Parameter :=
  match p.kind with
  | .number n => (n.setValue p.longKey p.set element).map fun n =>
      { p with kind := .number n, set := true }
  | .string s => (s.setValue p.longKey p.set element).map fun s =>
      { p with kind := .string s, set := true }
  | .enum e => (e.setValue p.longKey element).map fun e => { p with kind := .enum e, set := true }
  | .flag => .ok { p with set := true }

/-- The keys of a parameter. -/
def isNamed (name : Bytes) (p : Parameter) : Bool := p.shortKey == name || p.longKey == name

end Parameter

end Octf.Cli
