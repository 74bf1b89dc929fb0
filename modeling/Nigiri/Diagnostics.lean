import Mathlib.Data.List.DropRight
import Nigiri.AsciiCase

/-! Bounded, credential-free rendering of what the fixtures report. A position in a text is the
text from it on; slicing or stepping inside a character panics, which is `none`. -/
namespace Nigiri.Fixtures
open Utf8 AsciiCase Rewrite

def maxDiagnosticBytes : Nat := 16 * 1024
def rpcUser : Bytes := ascii "admin1"
def rpcPassword : Bytes := ascii "123"
def redacted : Bytes := ascii "[REDACTED]"
/-- The leading bytes of every marker, by which redacted text is recognised. -/
def redactedPrefix : Bytes := ascii "[REDACTED"
def basicAuthPattern : Bytes := ascii "YWRtaW4xOjEyMw=="
def redactedBasicAuth : Bytes := ascii "[REDACTED::AUTH]"
def redactedPrivateKey : Bytes := ascii "[REDACTED::PRIVATE KEY]"

inductive SecretValueKind where
  | token | line
  deriving DecidableEq, Repr

/-- Structured keys whose values are sensitive; the longest spellings precede their prefixes. -/
def secretAnchors : List (Bytes × SecretValueKind) := [
  (ascii "cipher_seed_mnemonic", .line),
  (ascii "cipher-seed-mnemonic", .line),
  (ascii "cipher.seed.mnemonic", .line),
  (ascii "cipherseedmnemonic", .line),
  (ascii "seed_mnemonic", .line),
  (ascii "seed-mnemonic", .line),
  (ascii "seed.mnemonic", .line),
  (ascii "seedmnemonic", .line),
  (ascii "cipher_seed", .line),
  (ascii "cipher-seed", .line),
  (ascii "cipher.seed", .line),
  (ascii "cipherseed", .line),
  (ascii "wallet_password", .token),
  (ascii "wallet-password", .token),
  (ascii "wallet.password", .token),
  (ascii "walletpassword", .token),
  (ascii "rpcpassword", .token),
  (ascii "rpcpass", .token),
  (ascii "macaroon", .token),
  (ascii "mnemonic", .line)]

def hexSuffixes : List Bytes := [ascii "_hex", ascii "-hex", ascii ".hex"]

def tokenValueTerminators : Bytes := ascii " \t\r\n\"'," ++ [125] ++ ascii "])"

def isNewline (b : UInt8) : Bool := b == 13 || b == 10

def isAsciiWhitespace (b : UInt8) : Bool := b == 32 || b == 9 || b == 10 || b == 12 || b == 13

def isQuote (b : UInt8) : Bool := b == 39 || b == 34

def isBlank (b : UInt8) : Bool := b == 32 || b == 9

def isDelimiter (b : UInt8) : Bool := b == 61 || b == 58

def isAsciiDigit (b : UInt8) : Bool := 48 ≤ b && b ≤ 57

def isDash (b : UInt8) : Bool := b == 45

def terminates : SecretValueKind → UInt8 → Bool
  | .token => fun b => tokenValueTerminators.contains b
  | .line => isNewline

/-- The text between two positions. -/
def slice (start stop : Bytes) : Option Bytes :=
  if isCharBoundary start && isCharBoundary stop then
    some (start.take (start.length - stop.length))
  else none

/-- What replaces a secret; it is never shorter than the secret. -/
def redaction (originalLength : Nat) (marker : Bytes) : Bytes :=
  marker ++ List.replicate (originalLength - marker.length) 42

/-- The first anchor listed that the text starts with. -/
def anchorAt (text : Bytes) : Option (Bytes × SecretValueKind) :=
  secretAnchors.find? fun anchor => startsIgnoreAsciiCase anchor.1 text

def dropHexSuffix (text : Bytes) : Bytes :=
  match hexSuffixes.find? fun suffix => startsIgnoreAsciiCase suffix text with
  | some suffix => text.drop suffix.length
  | none => text

def dropQuote : Bytes → Bytes
  | [] => []
  | b :: r => if isQuote b then r else b :: r

def skipSeparatorBlanks (text : Bytes) : Bytes :=
  text.dropWhile fun b => isAsciiWhitespace b && !isNewline b

def isNumeric (valueStart : Bytes) : Bool :=
  (valueStart.takeWhile fun b => !isAsciiWhitespace b).all isAsciiDigit

def spaceFormIsStructured (value anchorStart valueStart : Bytes) : Option Bool := do
  let before ← slice value anchorStart
  let cliKey := (before.rtakeWhile fun b => !isNewline b).any isDash
  let rest ← slice valueStart []
  return cliKey || isNumeric rest

/-- Where the value of an anchor starts; an anchor that no separator follows has none. -/
def valueStart (value anchorStart afterAnchor : Bytes) : Option (Option Bytes) := do
  let whitespaceStart := dropQuote (dropHexSuffix afterAnchor)
  let cursor := skipSeparatorBlanks whitespaceStart
  let start : Option Bytes ←
    if cursor.head?.any isDelimiter then some (some (cursor.drop 1))
    else if cursor.length = whitespaceStart.length then some none
    else do
      let structured ← spaceFormIsStructured value anchorStart cursor
      pure (if structured then some cursor else none)
  return start.map fun cursor => dropQuote (cursor.dropWhile isBlank)

/-- The loop over the text, which needs no more turns than there are bytes. -/
def redactAnchoredFrom (value : Bytes) : Nat → Bytes → Bytes → Option Bytes
  | _, [], output => some output
  | 0, _ :: _, _ => none
  | fuel + 1, index, output => do
    let copyCharacter := do
      let (character, rest) ← nextChar index
      redactAnchoredFrom value fuel rest (output ++ character)
    match anchorAt index with
    | none => copyCharacter
    | some (anchor, kind) =>
      match ← valueStart value index (index.drop anchor.length) with
      | none => copyCharacter
      | some start =>
        let stop := start.dropWhile fun b => !terminates kind b
        if stop.length = start.length then
          redactAnchoredFrom value fuel stop (output ++ (← slice index stop))
        else
          let header ← slice index start
          let secret ← slice start stop
          let rendered :=
            if redactedPrefix.isPrefixOf secret then secret
            else redaction (start.length - stop.length) redacted
          redactAnchoredFrom value fuel stop (output ++ header ++ rendered)

def redactAnchoredValues (value : Bytes) : Option Bytes :=
  redactAnchoredFrom value value.length value []

def beginMarker : Bytes := ascii "-----BEGIN "
def dashes : Bytes := ascii "-----"
def endMarker (label : Bytes) : Bytes := ascii "-----END " ++ label ++ dashes

def findAsciiCaseInsensitive (text needle : Bytes) : Option Nat :=
  position (startsIgnoreAsciiCase needle) text

def find (text needle : Bytes) : Option Nat := position needle.isPrefixOf text

def isPrivateKeyLabel (label : Bytes) : Bool :=
  (find (label.map toAsciiUppercase) (ascii "PRIVATE KEY")).isSome

def redactPrivateKeyFrom : Nat → Bytes → Bytes → Option Bytes
  | 0, _, _ => none
  | fuel + 1, cursor, output =>
    match findAsciiCaseInsensitive cursor beginMarker with
    | none => do return output ++ (← slice cursor [])
    | some begin => do
      let blockStart := cursor.drop begin
      let labelStart := blockStart.drop beginMarker.length
      match find (← slice labelStart []) dashes with
      | none => return output ++ (← slice cursor [])
      | some labelLength =>
        let labelEnd := labelStart.drop labelLength
        let label ← slice labelStart labelEnd
        if !isPrivateKeyLabel label then
          redactPrivateKeyFrom fuel labelEnd (output ++ (← slice cursor labelEnd))
        else
          let kept ← slice cursor blockStart
          let body := labelEnd.drop dashes.length
          let blockEnd := ((findAsciiCaseInsensitive body (endMarker label)).map fun stop =>
            body.drop (stop + (endMarker label).length)).getD []
          let masked := redaction (blockStart.length - blockEnd.length) redactedPrivateKey
          redactPrivateKeyFrom fuel blockEnd (output ++ kept ++ masked)

def redactPrivateKeyBlocks (value : Bytes) : Option Bytes :=
  redactPrivateKeyFrom (value.length + 1) value []

/-- The fixed replacements, the longest spelling first. -/
def redactionPatterns : List (Bytes × Bytes) := [
  (rpcUser ++ ascii ":" ++ rpcPassword, redacted),
  (basicAuthPattern, redactedBasicAuth),
  (rpcUser, redacted)]

def replacePatterns (value : Bytes) : Bytes :=
  redactionPatterns.foldl (fun text pair => replaceAll pair.1 pair.2 text) value

def redact (value : Bytes) : Option Bytes := do
  let privateKeysRedacted ← redactPrivateKeyBlocks value
  return replacePatterns (← redactAnchoredValues privateKeysRedacted)

def utf8Tail (value : Bytes) (maximumBytes : Nat) : Option Bytes :=
  if value.length ≤ maximumBytes then some value
  else slice ((value.drop (value.length - maximumBytes)).dropWhile isContinuation) []

def redactedTail (value : Bytes) : Option Bytes := do
  utf8Tail (← redact value) maxDiagnosticBytes

def joinDiagnostics (existing addition : Bytes) : Option Bytes :=
  if existing.isEmpty then redactedTail addition
  else redactedTail (existing ++ ascii "; " ++ addition)

end Nigiri.Fixtures
