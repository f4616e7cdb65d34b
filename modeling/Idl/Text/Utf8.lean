/-!
# Bytes as text

Decoding of UTF-8.  A fault tells where the valid beginning ends and how many bytes are wrong
there, or that the bytes stop inside a character.
-/

namespace Idl.Text

inductive Utf8Fault
  /-- The `length` bytes from `index` on are the beginning of no character. -/
  | invalid (index length : Nat)
  | incomplete (index : Nat)
deriving DecidableEq, Repr

def Utf8Fault.message : Utf8Fault → String
  | invalid index length =>
    "invalid utf-8 sequence of " ++ toString length ++ " bytes from index " ++ toString index
  | incomplete index => "incomplete utf-8 byte sequence from index " ++ toString index

/-- The number of bytes of a character that starts with `b`, and the range of its second byte. -/
def leadingByte (b : UInt8) : Option (Nat × UInt8 × UInt8) :=
  if b < 0x80 then some (1, 0, 0)
  else if b < 0xc2 then none
  else if b < 0xe0 then some (2, 0x80, 0xbf)
  else if b = 0xe0 then some (3, 0xa0, 0xbf)
  else if b = 0xed then some (3, 0x80, 0x9f)
  else if b < 0xf0 then some (3, 0x80, 0xbf)
  else if b = 0xf0 then some (4, 0x90, 0xbf)
  else if b < 0xf4 then some (4, 0x80, 0xbf)
  else if b = 0xf4 then some (4, 0x80, 0x8f)
  else none

def leadingPayload (size : Nat) (b : UInt8) : Nat :=
  match size with
  | 1 => b.toNat
  | 2 => b.toNat % 32
  | 3 => b.toNat % 16
  | _ => b.toNat % 8

/-- Reads `count` continuation bytes onto `code`.  The first must lie between `lo` and `hi`; the
number of bytes accepted before a fault is `good`, and a missing byte is told from a wrong one. -/
def continuation (code good : Nat) (lo hi : UInt8) :
    Nat → List UInt8 → Except (Nat × Bool) (Nat × List UInt8)
  | 0, bs => .ok (code, bs)
  | _ + 1, [] => .error (good, true)
  | n + 1, b :: bs =>
    if lo ≤ b && b ≤ hi then continuation (code * 64 + b.toNat % 64) (good + 1) 0x80 0xbf n bs
    else .error (good, false)

theorem length_of_continuation {code good : Nat} {lo hi : UInt8} {n : Nat} {bs : List UInt8}
    {r : Nat × List UInt8} (h : continuation code good lo hi n bs = .ok r) :
    r.2.length ≤ bs.length := by
  induction n generalizing code good lo hi bs with
  | zero =>
    simp only [continuation, Except.ok.injEq] at h
    simp [← h]
  | succ n ih =>
    cases bs with
    | nil => simp [continuation] at h
    | cons b bs =>
      simp only [continuation] at h
      split at h
      · have := ih h
        simp only [List.length_cons]
        omega
      · simp at h

/-- Decodes the bytes from offset `index` on, behind the characters in `before`, last one first. -/
def decodeFrom (index : Nat) (before : List Char) (bytes : List UInt8) :
    Except Utf8Fault (List Char) :=
  match bytes with
  | [] => .ok before.reverse
  | b :: bs =>
    match leadingByte b with
    | none => .error (.invalid index 1)
    | some (size, lo, hi) =>
      match _hread : continuation (leadingPayload size b) 1 lo hi (size - 1) bs with
      | .error (_, true) => .error (.incomplete index)
      | .error (good, false) => .error (.invalid index good)
      | .ok (code, rest) => decodeFrom (index + size) (Char.ofNat code :: before) rest
termination_by bytes.length
decreasing_by
  have hrest : rest.length ≤ bs.length := length_of_continuation _hread
  simp only [List.length_cons]
  omega

def decodeUtf8 (bytes : List UInt8) : Except Utf8Fault String :=
  (decodeFrom 0 [] bytes).map String.ofList

def encodeUtf8 (s : String) : List UInt8 := s.toList.flatMap String.utf8EncodeChar

end Idl.Text
