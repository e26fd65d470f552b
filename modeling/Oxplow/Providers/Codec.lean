import Oxplow.Harnesses.Claude
import Oxplow.Uri.OxplowUri

/-! `codec.rs`, `errors.rs` and the reading half of `peer.rs` of the provider protocol: messages
as JSON lines, lines out of chunks of bytes, and errors as error objects. The JSON parser is
a parameter, and so is what a reader makes of bytes that are not UTF-8. -/

namespace Oxplow.Providers
open Jobs Library

/-! ## JSON as `serde_json` writes and reads it -/

mutual
def write : Json → List Char
  | .null => "null".toList
  | .bool true => "true".toList
  | .bool false => "false".toList
  | .number text => text.toList
  | .string text => (Json.quote text).toList
  | .array items => '[' :: writeItems items ++ [']']
  | .object entries => '\x7b' :: writeEntries entries ++ ['\x7d']

def writeItems : List Json → List Char
  | [] => []
  | [item] => write item
  | item :: next :: items => write item ++ ',' :: writeItems (next :: items)

def writeEntries : List (String × Json) → List Char
  | [] => []
  | [(key, value)] => (Json.quote key).toList ++ ':' :: write value
  | (key, value) :: next :: entries => (Json.quote key).toList ++ ':' :: write value ++ ',' :: writeEntries (next :: entries)
end

mutual
/-- How deep arrays and objects are nested. -/
def depth : Json → Nat
  | .array items => depthItems items + 1
  | .object entries => depthEntries entries + 1
  | _ => 0

def depthItems : List Json → Nat
  | [] => 0
  | item :: items => max (depth item) (depthItems items)

def depthEntries : List (String × Json) → Nat
  | [] => 0
  | (_, value) :: entries => max (depth value) (depthEntries entries)
end

/-- `serde_json` reads values that are nested less than this. -/
def recursionLimit : Nat := 128

def asU64 : Json → Option (BitVec 64)
  | .number text => ((Harnesses.digits text.toList).filter (· < 18446744073709551616)).map (BitVec.ofNat 64)
  | _ => none

/-! ## Errors -/

structure ErrorObject where
  code : BitVec 64
  message : String
  data : Option Json

inductive ProtocolError where
  | parse (message : String)
  | invalidRequest (message : String)
  | methodNotFound (method : String)
  | invalidParams (message : String)
  | internal (message : String)
  | notConfigured (message : String)
  | auth (message : String) (credential : Option String)
  | rateLimited (message : String) (retryAfterMs : Option (BitVec 64))
  | invalidInput (field message : String)
  | cancelled
  | other (code : BitVec 64) (message : String)
  deriving DecidableEq

def parseErrorCode : BitVec 64 := -32700
def invalidRequestCode : BitVec 64 := -32600
def methodNotFoundCode : BitVec 64 := -32601
def invalidParamsCode : BitVec 64 := -32602
def internalErrorCode : BitVec 64 := -32603
def notConfiguredCode : BitVec 64 := -32001
def authCode : BitVec 64 := -32002
def rateLimitedCode : BitVec 64 := -32003
def invalidInputCode : BitVec 64 := -32004
def cancelledCode : BitVec 64 := -32800

/-- Its text. -/
def ProtocolError.display : ProtocolError → String
  | parse message => s!"parse error: {message}"
  | invalidRequest message => s!"invalid request: {message}"
  | methodNotFound method => s!"no method `{method}`"
  | invalidParams message => s!"invalid params: {message}"
  | internal message => message
  | notConfigured message => s!"not configured: {message}"
  | auth message _ => s!"authentication failed: {message}"
  | rateLimited message _ => s!"rate limited: {message}"
  | invalidInput field message => s!"invalid input at `{field}`: {message}"
  | cancelled => "cancelled"
  | other code message => s!"error {code.toInt}: {message}"

def ofNat64 (n : BitVec 64) : Json := .number (toString n.toNat)

def ofInt64 (n : BitVec 64) : Json := .number (toString n.toInt)

namespace ErrorObject

def codeOf : ProtocolError → BitVec 64
  | .parse _ => parseErrorCode
  | .invalidRequest _ => invalidRequestCode
  | .methodNotFound _ => methodNotFoundCode
  | .invalidParams _ => invalidParamsCode
  | .internal _ => internalErrorCode
  | .notConfigured _ => notConfiguredCode
  | .auth _ _ => authCode
  | .rateLimited _ _ => rateLimitedCode
  | .invalidInput _ _ => invalidInputCode
  | .cancelled => cancelledCode
  | .other code _ => code

def dataOf : ProtocolError → Option Json
  | .auth _ credential => credential.map fun name => .object [("credential", .string name)]
  | .rateLimited _ retryAfterMs => retryAfterMs.map fun ms => .object [("retry_after_ms", ofNat64 ms)]
  | .invalidInput field _ => some (.object [("field", .string field)])
  | _ => none

def messageOf : ProtocolError → String
  | .invalidInput _ message => message
  | .rateLimited message _ => message
  | .auth message _ => message
  | error => error.display

/-- `From<&ProtocolError>`. -/
def ofError (error : ProtocolError) : ErrorObject := ⟨codeOf error, messageOf error, dataOf error⟩

/-- A field of the data. -/
def field (error : ErrorObject) (key : String) : Option Json := error.data.bind fun data => Harnesses.get data key

/-- `From<ErrorObject>`. -/
def toError (error : ErrorObject) : ProtocolError :=
  if error.code = parseErrorCode then .parse error.message
  else if error.code = invalidRequestCode then .invalidRequest error.message
  else if error.code = methodNotFoundCode then .methodNotFound error.message
  else if error.code = invalidParamsCode then .invalidParams error.message
  else if error.code = internalErrorCode then .internal error.message
  else if error.code = notConfiguredCode then .notConfigured error.message
  else if error.code = authCode then .auth error.message ((error.field "credential").bind Harnesses.asStr)
  else if error.code = rateLimitedCode then .rateLimited error.message ((error.field "retry_after_ms").bind asU64)
  else if error.code = invalidInputCode then .invalidInput (((error.field "field").bind Harnesses.asStr).getD "") error.message
  else if error.code = cancelledCode then .cancelled
  else .other error.code error.message

def toValue (error : ErrorObject) : Json :=
  .object ([("code", ofInt64 error.code), ("message", .string error.message)] ++ (error.data.map fun data => ("data", data)).toList)

/-- A null reads as no data. -/
def nonNull : Json → Option Json
  | .null => none
  | data => some data

def read (code message : Json) (data : Option Json) : Option ErrorObject :=
  (Harnesses.asI64 code).bind fun code => (Harnesses.asStr message).map fun message => ⟨code, message, data.bind nonNull⟩

/-- The derived reader: the fields by name and no others, or in their order. -/
def fromValue : Json → Option ErrorObject
  | .object entries =>
    if entries.all (fun entry => ["code", "message", "data"].contains entry.1) = true then
      (entries.lookup "code").bind fun code => (entries.lookup "message").bind fun message => read code message (entries.lookup "data")
    else none
  | .array [code, message] => read code message none
  | .array [code, message, data] => read code message (some data)
  | _ => none

end ErrorObject

/-! ## Messages -/

inductive Message where
  | request (id : BitVec 64) (method : String) (params : Json)
  | response (id : BitVec 64) (result : Json)
  | error (id : Option (BitVec 64)) (error : ErrorObject)
  | notification (method : String) (params : Json)

namespace Message

def version : String × Json := ("jsonrpc", .string "2.0")

def toValue : Message → Json
  | request id method params => .object [version, ("id", ofNat64 id), ("method", .string method), ("params", params)]
  | response id result => .object [version, ("id", ofNat64 id), ("result", result)]
  | .error id object => .object [version, ("id", id.elim .null ofNat64), ("error", object.toValue)]
  | notification method params => .object [version, ("method", .string method), ("params", params)]

def toLine (message : Message) : List Char := write message.toValue ++ ['\n']

def isVersion : Option Json → Bool
  | some (.string text) => text == "2.0"
  | _ => false

/-- The id, when it is one or there is none. -/
def readId : Option Json → Option (Option (BitVec 64))
  | none => some none
  | some .null => some none
  | some value => (asU64 value).map some

def fromValue : Json → Option Message
  | .object entries =>
    if isVersion (entries.lookup "jsonrpc") = true then
      (readId (entries.lookup "id")).bind fun id =>
        match (entries.lookup "method").bind Harnesses.asStr, id with
        | some method, some id => some (request id method ((entries.lookup "params").getD .null))
        | some method, none => some (notification method ((entries.lookup "params").getD .null))
        | none, id =>
          match entries.lookup "error", entries.lookup "result", id with
          | some value, _, id => (ErrorObject.fromValue value).map (.error id)
          | none, some result, some id => some (response id result)
          | none, _, _ => none
    else none
  | _ => none

/-- `str::trim_end`. -/
def trimEnd (line : List Char) : List Char := (line.reverse.dropWhile Harnesses.isWhitespace).reverse

/-- `fromStr` is the JSON parser. -/
def fromLine (fromStr : List Char → Option Json) (line : List Char) : Option Message := (fromStr (trimEnd line)).bind fromValue

end Message

/-! ## Lines out of chunks -/

inductive Line where
  | text (line : List Char)
  | tooLong
  | ended

/-- What stands for bytes that are not UTF-8. -/
abbrev Lossy := List UInt8 → List Char

/-- `String::from_utf8_lossy`. -/
def fromUtf8Lossy (lossy : Lossy) (bytes : List UInt8) : List Char := ((Uri.fromUtf8 bytes).map String.toList).getD (lossy bytes)

def newline : UInt8 := 10

/-- A line, and the chunks left; `buf`: what was read of it. An empty chunk is the end. -/
def readLine (lossy : Lossy) (limit : Nat) (buf : List UInt8) : List (List UInt8) → Line × List (List UInt8)
  | [] => if buf = [] then (.ended, []) else (.text (fromUtf8Lossy lossy buf), [])
  | available :: rest =>
    if available = [] then if buf = [] then (.ended, []) else (.text (fromUtf8Lossy lossy buf), [])
    else
      match splitOnce newline available with
      | some (content, left) =>
        if limit < buf.length + content.length then (.tooLong, available :: rest)
        else (.text (fromUtf8Lossy lossy (buf ++ content)), if left = [] then rest else left :: rest)
      | none =>
        if limit < buf.length + available.length then (.tooLong, available :: rest)
        else readLine lossy limit (buf ++ available) rest

def blank (line : List Char) : Bool := line.all Harnesses.isWhitespace

/-- What the reader makes of each line that is not blank, until the stream ends or a line is
too long; at most `fuel` lines. -/
def readMessages (fromStr : List Char → Option Json) (lossy : Lossy) (limit : Nat) : Nat → List (List UInt8) → List (Option Message)
  | 0, _ => []
  | fuel + 1, chunks =>
    match readLine lossy limit [] chunks with
    | (.text line, rest) =>
      let later := readMessages fromStr lossy limit fuel rest
      if blank line = true then later else Message.fromLine fromStr line :: later
    | _ => []

end Oxplow.Providers
