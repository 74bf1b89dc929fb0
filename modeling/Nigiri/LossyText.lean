import Mathlib.Data.List.TakeWhile
import Nigiri.Utf8

/-! Bytes read as text, whatever they are: what is not a character, up to where it could still
have become one, is read as a single replacement character. -/
namespace Nigiri.Utf8

def replacementCharacter : Char := Char.ofNat 0xFFFD

/-- The width of a character by its first byte; no character begins with the others. -/
def leadWidth (lead : UInt8) : Nat :=
  if lead < 128 then 1 else if lead < 194 then 0 else if lead < 224 then 2
  else if lead < 240 then 3 else if lead < 245 then 4 else 0

/-- A second byte makes no overlong form, no surrogate and nothing past the last character. -/
def secondFits (lead second : UInt8) : Bool :=
  isContinuation second &&
    if lead = 224 then decide (160 ≤ second) else if lead = 237 then decide (second < 160)
    else if lead = 240 then decide (144 ≤ second) else if lead = 244 then decide (second < 144)
    else true

/-- How many of the bytes behind a first byte are read with it. -/
def continued (lead : UInt8) : Bytes → Nat
  | [] => 0
  | second :: rest =>
    if 2 ≤ leadWidth lead ∧ secondFits lead second = true then
      1 + ((rest.take (leadWidth lead - 2)).takeWhile isContinuation).length
    else 0

def scalarOf (lead : UInt8) (following : Bytes) : Nat :=
  let high := if leadWidth lead = 1 then 128 else 2 ^ (7 - leadWidth lead)
  following.foldl (fun n b => n * 64 + b.toNat % 64) (lead.toNat % high)

def lossyChar (lead : UInt8) (rest : Bytes) : Char :=
  if continued lead rest + 1 = leadWidth lead then
    Char.ofNat (scalarOf lead (rest.take (continued lead rest)))
  else replacementCharacter

def lossyAfter : Nat → Bytes → List Char
  | _, [] => []
  | n + 1, _ :: rest => lossyAfter n rest
  | 0, b :: rest => lossyChar b rest :: lossyAfter (continued b rest) rest

def fromUtf8Lossy (bytes : Bytes) : List Char := lossyAfter 0 bytes

section Encoded
variable {v : Nat}

end Encoded

end Nigiri.Utf8
