/- Column values of the five SQL types, each possibly NULL. -/

import GraniteDb.Common.Double

set_option linter.dupNamespace false

namespace GraniteDb.Common.Value

open Common.Double

inductive TypeId
  | invalid
  | boolean
  | int32
  | int64
  | double
  | varchar
  deriving DecidableEq

/-- A `Value`. Strings are byte strings, as `std::string` is. -/
inductive Value
  | null (type : TypeId)
  | boolean (b : Bool)
  | int32 (n : BitVec 32)
  | int64 (n : BitVec 64)
  | double (d : Double)
  | varchar (s : List UInt8)
  deriving DecidableEq

def Value.typeId : Value → TypeId
  | .null t => t
  | .boolean _ => .boolean
  | .int32 _ => .int32
  | .int64 _ => .int64
  | .double _ => .double
  | .varchar _ => .varchar

def Value.isNull : Value → Bool
  | .null _ => true
  | _ => false

abbrev Row := List Value

end GraniteDb.Common.Value
