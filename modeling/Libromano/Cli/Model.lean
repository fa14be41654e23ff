/- The command line parser. The arguments are objects that the two maps and the vector of
   positional arguments point to: a pointer is the place of its object among all that were made.
   The maps are taken as maps. Help texts and the names of the program are only printed, and
   allocations succeed. -/

import Libromano.Bytes
import Mathlib.Algebra.Order.Ring.Int
import Mathlib.Algebra.Order.Ring.Nat

set_option autoImplicit false
set_option relaxedAutoImplicit false

namespace Libromano.Cli

open Bytes

/-- The bytes of a string of `argv` before its null byte. -/
abbrev Token := List UInt8

inductive CLIArgMode
  | positional
  | named
  | optional
  deriving DecidableEq, Repr

inductive CLIArgType
  | str
  | int
  | float
  | bool
  deriving DecidableEq, Repr

inductive CLIArgAction
  | store
  | storeTrue
  | storeFalse
  | append
  | count
  deriving DecidableEq, Repr

/-- The codes that the functions leave in `g_current_error`, with the context they set. -/
inductive ErrorCode
  | cliInvalidArgumentAction (context : String)
  | cliMalformedArgument
  | cliUnknownArgument (context : Token)
  | cliInvalidArgumentType
  | cliTooManyPositionalArgs
  | cliMissingPositionalArgs
  | cliMissingRequiredArg
  deriving DecidableEq, Repr

/-- The two ways to `return false`. -/
inductive Refusal
  | help
  | error (code : ErrorCode)
  deriving DecidableEq, Repr

/-- The member of the union that was written. A `double` is given by the text that
`strtod` reads. -/
inductive CLIData
  | i64 (n : ℤ)
  | f64 (text : List UInt8)
  | str (text : List UInt8)
  | b (value : Bool)
  deriving DecidableEq, Repr

/-- What `cli_parser_add_arg` is told. `name` are the `name_sz` bytes of the name, or those
before its null byte when `name_sz` is 0. -/
structure Declaration where
  name : List UInt8
  shortName : UInt8
  mode : CLIArgMode
  type : CLIArgType
  action : CLIArgAction
  deriving DecidableEq, Repr

structure CLIArg extends Declaration where
  data : CLIData
  dataSz : ℕ
  deriving DecidableEq, Repr

abbrev KeyMap := List (List UInt8 × ℕ)

/-- The key that the map gets with `(uint32_t)size`. -/
def mapKey (name : List UInt8) : List UInt8 := name.take (name.length % 2 ^ 32)

def hashmapGet (map : KeyMap) (key : List UInt8) : Option ℕ := map.lookup key

def hashmapInsert (map : KeyMap) (key : List UInt8) (value : ℕ) : KeyMap :=
  if (hashmapGet map key).isSome then map else map ++ [(key, value)]

structure CLIParser where
  /-- The objects, in the order in which they were made. -/
  args : List CLIArg
  argsMap : KeyMap
  shortNamesMap : KeyMap
  positionalArgs : List ℕ
  deriving DecidableEq, Repr

def cliNoShortName : UInt8 := 0

def cliParserInit : CLIParser := ⟨[], [], [], []⟩

def cliParserAddArg (parser : CLIParser) (declaration : Declaration) :
    Except ErrorCode CLIParser :=
  if declaration.mode = .positional ∧ declaration.action ≠ .store then
    .error (.cliInvalidArgumentAction
      "Invalid argument action, a positional argument cannot do other action than store")
  else
    let arg := parser.args.length
    .ok {
      args := parser.args ++ [⟨declaration, .i64 0, 0⟩]
      argsMap := hashmapInsert parser.argsMap (mapKey declaration.name) arg
      shortNamesMap :=
        if declaration.shortName ≠ cliNoShortName then
          hashmapInsert parser.shortNamesMap [declaration.shortName] arg
        else parser.shortNamesMap
      positionalArgs :=
        if declaration.mode = .positional then parser.positionalArgs ++ [arg]
        else parser.positionalArgs }

/-- A new parser after some calls of `cli_parser_add_arg`. -/
def register (calls : List Declaration) : CLIParser :=
  calls.foldl (fun parser call => (cliParserAddArg parser call).toOption.getD parser) cliParserInit

def isdigit (c : UInt8) : Bool := 48 ≤ c && c ≤ 57

def cliParserValidateArgumentType (type : CLIArgType) (argStr : Token) : Bool :=
  -- the null byte of the empty string passes none of the tests
  let c := argStr.headD 0
  match type with
  | .str => true
  | .int => isdigit c || c == 45 || c == 43
  | .float => isdigit c || c == 45 || c == 43 || c == 46
  | .bool => c == 48 || c == 49 || argStr == ascii "true" || argStr == ascii "false" ||
      argStr == ascii "True" || argStr == ascii "False"

def cliParserParseBool (argStr : Token) : Bool := argStr == ascii "true" || argStr == ascii "True"

def strtoll (text : List UInt8) : ℤ :=
  let text := text.dropWhile isspace
  let digits := if text.head? = some 45 ∨ text.head? = some 43 then text.tail else text
  let n : ℤ := (digits.takeWhile isdigit).foldl (fun n c => n * 10 + (c.toNat - 48)) 0
  if text.head? = some 45 then max (-2 ^ 63) (-n) else min (2 ^ 63 - 1) n

def unquote (valueStr : Token) : Token :=
  (if valueStr.head? = some 34 then valueStr.tail else valueStr).takeWhile (· ≠ 34)

/-- The `switch` on the type in which both functions end. -/
def CLIArg.storeValue (arg : CLIArg) (valueStr : Token) : CLIArg :=
  match arg.type with
  | .str => { arg with data := .str (unquote valueStr), dataSz := (unquote valueStr).length }
  | .int => { arg with data := .i64 (strtoll valueStr), dataSz := 8 }
  | .float => { arg with data := .f64 valueStr, dataSz := 8 }
  | .bool =>
    let c := valueStr.headD 0
    { arg with
      data := .b (if isdigit c then c != 48 else cliParserParseBool valueStr), dataSz := 1 }

/-- The `int64_t` of the union. The action of an argument does not change, so a counter
holds nothing else. -/
def CLIData.toI64 : CLIData → ℤ
  | .i64 n => n
  | _ => 0

def dash : UInt8 := 45

/-- Neither `=` nor `:`, which end the name in a token. -/
def inName (c : UInt8) : Bool := c != 61 && c != 58

def undashed (argStr : Token) : Token := argStr.dropWhile (· == dash)

def numDashes (argStr : Token) : ℕ := (argStr.takeWhile (· == dash)).length

/-- The pointer to the argument that a token names, with the object it points to. -/
def cliParserFindArg (parser : CLIParser) (argStr : Token) : Option (ℕ × CLIArg) :=
  if undashed argStr = [] then none
  else
    let name := mapKey ((undashed argStr).takeWhile inName)
    let argPtr :=
      if numDashes argStr = 1 then hashmapGet parser.shortNamesMap name
      else hashmapGet parser.argsMap name
    argPtr.bind fun i => parser.args[i]?.map (i, ·)

def CLIParser.put (parser : CLIParser) (i : ℕ) (change : CLIArg → CLIArg) : CLIParser :=
  { parser with args := parser.args.modify i change }

/-- The parser, and what is added to `next_arg_offset`. -/
def cliParserParseNamedArgument (parser : CLIParser) (argStr : Token) (nextArg : Option Token) :
    Except ErrorCode (CLIParser × ℕ) :=
  if undashed argStr = [] then .error .cliMalformedArgument
  else
    let valueStr := (undashed argStr).dropWhile inName
    match cliParserFindArg parser argStr with
    | none => .error (.cliUnknownArgument argStr)
    | some (i, arg) =>
      let parseValue (valueStr : Token) (offset : ℕ) : Except ErrorCode (CLIParser × ℕ) :=
        if valueStr = [] then .error .cliMalformedArgument
        else if !cliParserValidateArgumentType arg.type valueStr then .error .cliInvalidArgumentType
        else .ok (parser.put i (·.storeValue valueStr), offset)
      match arg.action with
      | .storeTrue => .ok (parser.put i ({ · with data := .b true, dataSz := 1 }), 0)
      | .storeFalse => .ok (parser.put i ({ · with data := .b false, dataSz := 1 }), 0)
      | .count =>
        .ok (parser.put i fun arg => { arg with data := .i64 (arg.data.toI64 + 1), dataSz := 8 }, 0)
      | .store | .append =>
        -- an `=` or `:` is followed by the value, even an empty one
        if valueStr ≠ [] then parseValue valueStr.tail 0
        else
          match nextArg with
          | some next => parseValue next 1
          | none => .error .cliMalformedArgument

def cliParserParsePositionalArgument (parser : CLIParser) (argStr : Token) (posIndex : ℕ) :
    Except ErrorCode CLIParser :=
  match parser.positionalArgs[posIndex]? with
  | none => .error .cliTooManyPositionalArgs
  | some i =>
    match parser.args[i]? with
    | none => .ok parser -- a pointer is always that of an object
    | some arg =>
      if !cliParserValidateArgumentType arg.type argStr then .error .cliInvalidArgumentType
      else .ok (parser.put i (·.storeValue argStr))

/-- The loop over `argv`, with the number of tokens that `i` is still to pass over. -/
def parseTokens (parser : CLIParser) (posIndex : ℕ) :
    ℕ → List Token → Except Refusal (CLIParser × ℕ)
  | _, [] => .ok (parser, posIndex)
  | offset + 1, _ :: rest => parseTokens parser posIndex offset rest
  | 0, argStr :: rest =>
    if argStr = ascii "-h" ∨ argStr = ascii "--help" then .error .help
    else if argStr.head? = some dash then
      match cliParserParseNamedArgument parser argStr rest.head? with
      | .error code => .error (.error code)
      | .ok (parser, offset) => parseTokens parser posIndex offset rest
    else
      match cliParserParsePositionalArgument parser argStr posIndex with
      | .error code => .error (.error code)
      | .ok parser => parseTokens parser (posIndex + 1) 0 rest

/-- The test at the end of the loop finds this argument missing. -/
def CLIArg.missing (arg : CLIArg) : Bool := arg.mode == .named && arg.dataSz == 0

/-- `argv` has `argc` strings. -/
def cliParserParse (parser : CLIParser) (argv : List Token) : Except Refusal CLIParser :=
  if argv.length = 1 then .ok parser
  else
    match parseTokens parser 0 0 argv.tail with
    | .error refusal => .error refusal
    | .ok (parser, posIndex) =>
      -- the subtraction of 1 is one of `size_t`
      if posIndex < (parser.positionalArgs.length + (2 ^ 64 - 1)) % 2 ^ 64 then
        .error (.error .cliMissingPositionalArgs)
      else if parser.argsMap.any fun entry => (parser.args[entry.2]?).any CLIArg.missing then
        .error (.error .cliMissingRequiredArg)
      else .ok parser

end Libromano.Cli
