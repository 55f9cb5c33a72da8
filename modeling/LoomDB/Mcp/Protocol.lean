import LoomDB.Core.Envelope
import LoomDB.Core.Describe

/-!
# The wire

JSON values, tool calls and their responses.
-/

namespace LoomDB

namespace Mcp

/-- A JSON value. The fields of an object have different names. -/
inductive Json where
  | null
  | bool (value : Bool)
  | posInt (value : U64)
  | negInt (value : I64)
  | float (value : F64)
  | string (text : Bytes)
  | array (items : List Json)
  | object (fields : List (Bytes × Json))

namespace Json

def get (value : Json) (name : String) : Option Json :=
  match value with
  | .object fields => (fields.find? fun field => field.1 = ascii name).map Prod.snd
  | _ => none

def asStr : Json → Option Bytes
  | .string text => some text
  | _ => none

def asU64 : Json → Option U64
  | .posInt value => some value
  | _ => none

def asArray : Json → Option (List Json)
  | .array items => some items
  | _ => none

/-- An object with the fields in this order. -/
def ofFields (fields : List (String × Json)) : Json :=
  .object (fields.map fun (name, value) => (ascii name, value))

def count (value : ℕ) : Json :=
  .posInt (Fin.ofNat (256 ^ 8) value)

def text (value : String) : Json :=
  .string (ascii value)

def optional : Option Bytes → Json
  | some value => .string value
  | none => .null

end Json

structure Request where
  id : Option Json
  params : Json

structure RpcError where
  code : ℤ
  message : Bytes
  deriving DecidableEq

structure Response where
  id : Option Json
  result : Option Json
  error : Option RpcError

namespace Response

def ok (id : Option Json) (result : Json) : Response :=
  { id := id, result := some result, error := none }

def err (id : Option Json) (code : ℤ) (message : Bytes) : Response :=
  { id := id, result := none, error := some { code, message } }

end Response

def METHOD_NOT_FOUND : ℤ := -32601

def INVALID_PARAMS : ℤ := -32602

/-- A refusal, which is a decision and not a malformed call. -/
def DENIED : ℤ := -32000

end Mcp

end LoomDB
