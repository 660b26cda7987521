import Quorum.Bytes

/-!
# Reader — taking fields off a byte string

A reader consumes bytes from the front of its input and either returns a value or fails.  A failed
read leaves the input as far as it got: the fields read before the failing one stay consumed.
-/

namespace Quorum.Wire

/-- Why a byte string is not the encoding of a message. -/
inductive DecodeError where
  /-- A field of `needed` bytes with only `remaining` bytes left. -/
  | endOfInput (needed remaining : Nat)
  | badBool (byte : UInt8)
  | unknownTag (tag : UInt8) (context : String)
  | trailing (count : Nat)
  /-- A well-formed message that its receiver has no use for. -/
  | invalid (reason : String)
  deriving DecidableEq, Repr

namespace DecodeError

def message : DecodeError → String
  | endOfInput needed remaining =>
    s!"unexpected end of input: needed {needed} bytes, {remaining} remaining"
  | badBool byte => s!"invalid bool byte: {byte.toNat}"
  | unknownTag tag context => s!"unknown message type {tag.toNat} in {context}"
  | trailing count => s!"{count} trailing bytes after message"
  | invalid reason => s!"invalid message: {reason}"

end DecodeError

/-- A computation that consumes bytes from the front of its input. -/
abbrev Reader := EStateM DecodeError Bytes

namespace Reader

/-- The next `n` bytes; consumes nothing if there are fewer. -/
def take (n : Nat) : Reader Bytes := fun input =>
  let head := input.take n
  if head.length < n then .error (.endOfInput n input.length) input
  else .ok head (input.drop n)

def u8 : Reader UInt8 := fun
  | [] => .error (.endOfInput 1 0) []
  | b :: rest => .ok b rest

/-- A truth value, one byte that is 0 or 1. -/
def bool : Reader Bool := do
  let b ← u8
  if b = 0 then return false
  else if b = 1 then return true
  else throw (.badBool b)

def u16 : Reader UInt16 := do return UInt16.ofNat (← take 2).toNatBE

def u32 : Reader UInt32 := do return UInt32.ofNat (← take 4).toNatBE

/-- A byte string behind its 32-bit length. -/
def bytes : Reader Bytes := do take (← u32).toNat

/-- Everything that is left. -/
def rest : Reader Bytes := fun input => .ok input []

/-- Succeeds only if nothing is left. -/
def finish : Reader Unit := fun input =>
  if input = [] then .ok () [] else .error (.trailing input.length) input

/-- What `element` reads `n` times in a row, behind what is already in `done`. -/
def timesAux (element : Reader α) : Nat → Array α → Reader (Array α)
  | 0, done => pure done
  | n + 1, done => do timesAux element n (done.push (← element))

/-- What `element` reads `n` times in a row. -/
def times (n : Nat) (element : Reader α) : Reader (List α) := do
  return (← timesAux element n #[]).toList

/-- A reader's value on a whole byte string; what is left over does not count. -/
def decode (reader : Reader α) (input : Bytes) : Except DecodeError α :=
  match reader input with
  | .ok value _ => .ok value
  | .error e _ => .error e

end Reader

end Quorum.Wire
