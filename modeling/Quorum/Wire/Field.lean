import Quorum.Wire.Reader
import Quorum.Wire.Writer

/-!
# Field — records of wire fields described by data

A `Kind` names a field of the wire format, a `Field` is such a field with its value.  A record is
a list of fields; its schema is the list of their kinds.
-/

namespace Quorum.Wire

/-- The kinds of fields that a reader can tell apart by position. -/
inductive Kind where
  | u8 | bool | u16 | u32 | bytes
  deriving DecidableEq, Repr

/-- A field with its value. -/
inductive Field where
  | u8 (v : UInt8)
  | bool (v : Bool)
  | u16 (v : UInt16)
  | u32 (v : UInt32)
  | bytes (v : Bytes)
  deriving DecidableEq, Repr

def Field.kind : Field → Kind
  | u8 _ => .u8
  | bool _ => .bool
  | u16 _ => .u16
  | u32 _ => .u32
  | bytes _ => .bytes

def Field.put : Field → Except EncodeError Bytes
  | u8 v => .ok (putU8 v)
  | bool v => .ok (putBool v)
  | u16 v => .ok (putU16 v)
  | u32 v => .ok (putU32 v)
  | bytes v => putBytes v

/-- The encoding of a record: its fields one behind the other. -/
def putRecord : List Field → Except EncodeError Bytes
  | [] => .ok []
  | field :: fields => do return (← field.put) ++ (← putRecord fields)

/-- Reads one field of a given kind. -/
def Kind.get : Kind → Reader Field
  | u8 => return .u8 (← Reader.u8)
  | bool => return .bool (← Reader.bool)
  | u16 => return .u16 (← Reader.u16)
  | u32 => return .u32 (← Reader.u32)
  | bytes => return .bytes (← Reader.bytes)

/-- Reads the fields of a schema in order. -/
def getRecord : List Kind → Reader (List Field)
  | [] => return []
  | kind :: kinds => return (← kind.get) :: (← getRecord kinds)

end Quorum.Wire
