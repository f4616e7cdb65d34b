import Idl.Assoc
import Idl.Schema.Option
import Idl.Text.Utf8

/-!
# The wire format

Values as bytes: numbers have a fixed width and the lowest byte comes first, lists and texts start
with their length, alternatives with their index.  Nothing marks the end of a message, so what
follows a value is left over.
-/

namespace Idl

abbrev Bytes := List UInt8

inductive WireFault
  | endOfInput
  | shortText
  | invalidText (fault : Text.Utf8Fault)
  | invalidBool (byte : UInt8)
  /-- The byte that tells whether an optional value is there says neither. -/
  | invalidTag (byte : UInt8)
  | invalidIndex (index count : Nat)
deriving DecidableEq, Repr

def WireFault.message : WireFault → String
  | endOfInput => "io error: unexpected end of file"
  | shortText => "io error: "
  | invalidText fault => "string is not valid utf8: " ++ fault.message
  | invalidBool byte =>
    "invalid u8 while decoding bool, expected 0 or 1, found " ++ toString byte.toNat
  | invalidTag byte => "tag for enum is not valid, found " ++ toString byte.toNat
  | invalidIndex index count =>
    "invalid value: integer `" ++ toString index ++ "`, expected variant index 0 <= i < "
      ++ toString count

namespace Wire

/-- The lowest `width` bytes of a number, lowest first. -/
def littleEndian : Nat → Nat → Bytes
  | 0, _ => []
  | width + 1, n => UInt8.ofNat n :: littleEndian width (n / 256)

def ofLittleEndian : Bytes → Nat
  | [] => 0
  | b :: bs => b.toNat + 256 * ofLittleEndian bs

def writeIndex (n : Nat) : Bytes := littleEndian 4 n

def writeLength (n : Nat) : Bytes := littleEndian 8 n

def writeInt (n : Int64) : Bytes := littleEndian 8 n.toUInt64.toNat

def writeBool (b : Bool) : Bytes := [if b then 1 else 0]

def writeText (s : String) : Bytes :=
  let bytes := Text.encodeUtf8 s
  writeLength bytes.length ++ bytes

def writeOption {α : Type} (write : α → Bytes) : Option α → Bytes
  | none => [0]
  | some a => 1 :: write a

def writeList {α : Type} (write : α → Bytes) (xs : List α) : Bytes :=
  writeLength xs.length ++ xs.flatMap write

def writeTable {α : Type} (write : α → Bytes) (table : Assoc String α) : Bytes :=
  writeList (fun (key, value) => writeText key ++ write value) table

end Wire

abbrev Reader := StateT Bytes (Except WireFault)

namespace Reader

variable {α : Type}

def fail (fault : WireFault) : Reader α := fun _ => .error fault

def take (count : Nat) (fault : WireFault) : Reader Bytes := fun bytes =>
  if bytes.length < count then .error fault else .ok (bytes.take count, bytes.drop count)

def byte : Reader UInt8 := fun bytes =>
  match bytes with
  | [] => .error .endOfInput
  | b :: bs => .ok (b, bs)

def number (width : Nat) : Reader Nat := Wire.ofLittleEndian <$> take width .endOfInput

def length : Reader Nat := number 8

def int : Reader Int64 := do
  return (UInt64.ofNat (← number 8)).toInt64

def bool : Reader Bool := do
  let b ← byte
  if b = 0 then return false
  else if b = 1 then return true
  else fail (.invalidBool b)

def text : Reader String := do
  let bytes ← take (← length) .shortText
  match Text.decodeUtf8 bytes with
  | .ok s => return s
  | .error fault => fail (.invalidText fault)

def choice (alternatives : List (Reader α)) : Reader α := do
  let index ← number 4
  match alternatives[index]? with
  | some read => read
  | none => fail (.invalidIndex index alternatives.length)

def option (read : Reader α) : Reader (Option α) := do
  let b ← byte
  if b = 0 then return none
  else if b = 1 then return some (← read)
  else fail (.invalidTag b)

def repeated (read : Reader α) : Nat → Reader (List α)
  | 0 => return []
  | count + 1 => do
    let a ← read
    return a :: (← repeated read count)

def list (read : Reader α) : Reader (List α) := do
  repeated read (← length)

/-- A table; of several entries for one key the last counts, at the place of the first. -/
def table (read : Reader α) : Reader (Assoc String α) := do
  let entries ← list do
    let key ← text
    return (key, ← read)
  return .ofEntries entries

/-- The reader that may use itself on what is left after at least one byte was read. -/
def recursive (body : Reader α → Reader α) (bytes : Bytes) : Except WireFault (α × Bytes) :=
  body
    (fun rest => if rest.length < bytes.length then recursive body rest else .error .endOfInput)
    bytes
termination_by bytes.length

/-- The value at the front of some bytes; what follows does not matter. -/
def decode (read : Reader α) (bytes : Bytes) : Except WireFault α := (·.1) <$> read bytes

end Reader

end Idl
