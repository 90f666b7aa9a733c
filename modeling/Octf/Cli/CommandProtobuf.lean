import Octf.Cli.Command

/-! Commands whose parameters are the fields of a message. -/
namespace Octf.Cli
open Foundation
open Octf.Utils (Bytes)

/-! ### Descriptors and their options -/

/-- The options that belong to one type of parameters. -/
inductive CliParam where
  | num (min max default_value : ℤ)
  | str (default_value : Bytes) (repeated_limit : ℕ)
  | enum (default_value : ℤ)

structure OptsParam where
  cli_required : Bool := false
  cli_short_key : Bytes := []
  cli_long_key : Bytes := []
  cli_param : Option CliParam := none

structure EnumValueDescriptor where
  number : ℤ
  /-- the switch of `opts_enumval`, if there are such options -/
  cli_switch : Option Bytes

structure EnumDescriptor where
  values : List EnumValueDescriptor
  opts_enum_param : Option OptsParam := none

/-- The types of fields, without that of floating point, of which `createParameters` makes a
parameter; it refuses those that are not named. -/
inductive FieldType where
  | uint32 | int64 | int32 | string | bool
  | enum (enum_type : EnumDescriptor)
  | other

structure FieldDescriptor where
  name : Bytes := []
  number : ℤ
  type : FieldType
  isRepeated : Bool := false
  opts_param : Option OptsParam := none

/-- What a message holds for a field. -/
inductive FieldValue where
  | int32 (value : ℤ)
  | int64 (value : ℤ)
  | uint32 (value : ℤ)
  | bool (value : Bool)
  | string (value : Bytes)
  | strings (values : List Bytes)
  | enum (number : ℤ)
  deriving DecidableEq

/-- The values of the fields in their order; a field that is not set holds none. -/
abbrev Message := List (Option FieldValue)

/-! ### Parameters of fields -/

def Parameter.setOptions (fieldDesc : FieldDescriptor) (p : Parameter) : Parameter :=
  match fieldDesc.opts_param with
  | none => p
  | some ops => { p with
      required := ops.cli_required
      longKey := ops.cli_long_key
      shortKey := ops.cli_short_key }

namespace ParamNumber

/-- The default value and the bounds of a type. -/
def setOptions (type : FieldType) (ops : OptsParam) (p : ParamNumber) :
    Except CliException ParamNumber :=
  match ops.cli_param with
  | some (.num min max default_value) => .ok { p with number := default_value, min, max }
  | _ => match type with
    | .int32 => .ok { p with number := 0, min := INT32_MIN, max := INT32_MAX }
    | .int64 => .ok { p with number := 0, min := INT64_MIN, max := INT64_MAX }
    | .uint32 => .ok { p with number := 0, min := 0, max := UINT32_MAX }
    | _ => .error .unsupportedNumericType

end ParamNumber

def ParamString.setOptions (key : Bytes) (ops : OptsParam) (p : ParamString) :
    Except CliException ParamString :=
  match ops.cli_param with
  | some (.str default_value repeated_limit) =>
    if default_value = [] then .ok { p with multipleValueLimit := repeated_limit }
    else (p.setDefault key false default_value).map fun p =>
      { p with multipleValueLimit := repeated_limit }
  | _ => .ok p

namespace ParamEnum

def addEnumVal (value : ℕ) (name : Bytes) (p : ParamEnum) : ParamEnum :=
  { p with enums := p.enums.alter value fun _ => name }

/-- The values are told apart by their index in the declaration. -/
def addEnumVals : ℕ → List EnumValueDescriptor → ParamEnum → Except CliException ParamEnum
  | _, [], p => .ok p
  | i, value :: values, p => match value.cli_switch with
    | none => .error .noEnumValueOptions
    | some name => addEnumVals (i + 1) values (p.addEnumVal i name)

end ParamEnum

/-- A default that is no value of the enumeration fails an assertion, which a release leaves
out. -/
def Parameter.setEnumOptions (paramOps : OptsParam) (p : Parameter) : Parameter :=
  let p := if paramOps.cli_long_key = [] then p else { p with longKey := paramOps.cli_long_key }
  let p := if paramOps.cli_short_key = [] then p else { p with shortKey := paramOps.cli_short_key }
  match p.kind, paramOps.cli_param with
  | .enum e, some (.enum default_value) =>
    if paramOps.cli_required then p else { p with kind := .enum { e with value := default_value } }
  | _, _ => p

namespace FieldDescriptor

def numberParam (fieldDesc : FieldDescriptor) : Except CliException Parameter :=
  match fieldDesc.opts_param with
  | none => .error (.noParameterOptions fieldDesc.name)
  | some paramOps => (ParamNumber.setOptions fieldDesc.type paramOps {}).map fun n =>
      Parameter.setOptions fieldDesc { kind := .number n }

def stringParam (fieldDesc : FieldDescriptor) : Except CliException Parameter :=
  match fieldDesc.opts_param with
  | none => .error (.noParameterOptions fieldDesc.name)
  | some paramOps => (ParamString.setOptions paramOps.cli_long_key paramOps {}).map fun s =>
      Parameter.setOptions fieldDesc { kind := .string s }

/-- The options of the enumeration come first, those of the field override them. That the
parameter is required is not taken over. -/
def enumParam (enum_type : EnumDescriptor) (fieldDesc : FieldDescriptor) :
    Except CliException Parameter :=
  (ParamEnum.addEnumVals 0 enum_type.values {}).bind fun e =>
    if enum_type.opts_enum_param.isNone && fieldDesc.opts_param.isNone then
      .error (.noEnumParameterOptions fieldDesc.name)
    else
      let p : Parameter := { kind := .enum e }
      let p := enum_type.opts_enum_param.elim p p.setEnumOptions
      .ok (fieldDesc.opts_param.elim p p.setEnumOptions)

/-- The parameter of a field, with its options. -/
def typedParam (fieldDesc : FieldDescriptor) : Except CliException Parameter :=
  match fieldDesc.type with
  | .uint32 | .int64 | .int32 => fieldDesc.numberParam
  | .string => fieldDesc.stringParam
  | .bool => .ok (Parameter.setOptions fieldDesc { kind := .flag })
  | .enum enum_type => fieldDesc.enumParam enum_type
  | .other => .error .typeNotSupported

def param (fieldDesc : FieldDescriptor) : Except CliException Parameter :=
  fieldDesc.typedParam.bind fun param =>
    let param := { param with index := fieldDesc.number }
    let param := param.setMultipleValue fieldDesc.isRepeated
    if fieldDesc.isRepeated && !param.isMultipleValue then .error .repeatedNotSupported
    else .ok param

end FieldDescriptor

namespace Command

def createParameters : List FieldDescriptor → Command → Except CliException Command
  | [], cmd => .ok cmd
  | fieldDesc :: fields, cmd =>
    fieldDesc.param.bind fun param => (cmd.addParam param).bind (createParameters fields)

end Command

/-! ### Values for the fields -/

namespace Parameter

/-- A string that is not given is not set, whatever its default is. -/
def parseToProtobuf (fieldDesc : FieldDescriptor) (p : Parameter) :
    Except CliException (Option FieldValue) :=
  match p.kind with
  | .number n => match fieldDesc.type with
    | .int32 =>
      if INT32_MIN ≤ n.number ∧ n.number ≤ INT32_MAX then .ok (some (.int32 n.number))
      else .error .numberOutOfRange
    | .int64 => .ok (some (.int64 n.number))
    | .uint32 =>
      if 0 ≤ n.number ∧ n.number ≤ UINT32_MAX then .ok (some (.uint32 n.number))
      else .error .numberOutOfRange
    | _ => .error .numberOutOfRange
  | .string s =>
    if s.multipleValue then
      if fieldDesc.isRepeated then .ok (some (.strings (s.getMultipleValue p.set)))
      else .error (.multipleMismatch p.longKey)
    else .ok (if p.set then some (.string s.getValue) else none)
  | .enum e => .ok (some (.enum e.value))
  | .flag => .ok (some (.bool p.set))

end Parameter

def Command.parseToProtobuf : List FieldDescriptor → Command → Except CliException Message
  | [], _ => .ok []
  | field :: fields, cmd =>
    (cmd.getParamByIndex field.number).bind fun param =>
      (param.parseToProtobuf field).bind fun value =>
        (parseToProtobuf fields cmd).map (value :: ·)

/-- The message that a command line makes, as it goes to the method of the command. -/
def Command.message (fields : List FieldDescriptor) (cliList : CLIList) (cmd : Command) :
    Except CliException Message :=
  (cmd.parseParamValues cliList).bind (parseToProtobuf fields)

end Octf.Cli
