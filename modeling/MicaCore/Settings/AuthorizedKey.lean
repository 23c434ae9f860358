import MicaCore.Data.Bytes
import MicaCore.Deploy.Identity
import MicaCore.Network.Address
import MicaCore.Settings.Path

namespace MicaCore.Settings

open Data

structure AuthorizedKey where
  key : Text
  comment : Option Text
  deriving DecidableEq

def keysPath : Text := "access.ssh.authorizedKeys".toList

def acceptedTypes : List Text :=
  ["ssh-ed25519".toList, "ssh-rsa".toList, "ecdsa-sha2-nistp256".toList,
    "ecdsa-sha2-nistp384".toList,
    "ecdsa-sha2-nistp521".toList, "sk-ssh-ed25519@openssh.com".toList,
    "sk-ecdsa-sha2-nistp256@openssh.com".toList]

def maxKeys : ℕ := 32

def maxCommentBytes : ℕ := 256

def minBlobBytes : ℕ := 32

def invalidKey (message : Text) : SettingsError := .validation keysPath message

def findAt (f : Char → Option Text) : ℕ → Text → Option (Text × ℕ)
  | _, [] => none
  | offset, c :: t =>
    match f c with
    | some name => some (name, offset)
    | none => findAt f (offset + c.utf8Size) t

def refuseAt (message : Text → Text) : Option (Text × ℕ) → Except SettingsError Unit
  | none => .ok ()
  | some (name, offset) => .error (invalidKey (message name ++ " at byte ".toList ++ numeral offset))

def forbidden (c : Char) : Option Text :=
  if c = '\x00' then some "NUL".toList
  else if c = '\n' then some "line feed".toList
  else if c = '\r' then some "carriage return".toList
  else if c = '\t' then some "tab".toList
  else if c = '\x0b' then some "vertical tab".toList
  else if c = '\x0c' then some "form feed".toList
  else none

def checkLineShape (line : Text) : Except SettingsError Unit := do
  ensure (!line.isEmpty) (invalidKey "line is empty".toList)
  refuseAt (fun name ↦ "line holds a ".toList ++ name) (findAt forbidden 0 line)
  ensure (line.head? != some ' ') (invalidKey "line starts with a space".toList)
  ensure (line.getLast? != some ' ') (invalidKey "line ends with a space".toList)

def splitFields (line : Text) : Text × Option (Text × Option Text) :=
  match splitOnce ' ' line with
  | none => (line, none)
  | some (first, rest) =>
    match splitOnce ' ' rest with
    | none => (first, some (rest, none))
    | some (second, rest) => (first, some (second, some rest))

def padding (blob : Text) : ℕ := (blob.reverse.takeWhile (· == '=')).length

def outsideBase64 (c : Char) : Option Text :=
  if base64Char c then none else some "a character outside `A-Za-z0-9+/`".toList

def checkBlob (blob : Text) : Except SettingsError Unit := do
  ensure (!blob.isEmpty)
    (invalidKey "base64 blob is empty; fields are separated by exactly one space".toList)
  ensure (byteLength blob % 4 == 0) (invalidKey
    ("base64 blob is ".toList ++ numeral (byteLength blob) ++ " characters, not a multiple of 4".toList))
  ensure (padding blob ≤ 2) (invalidKey ("base64 blob ends with ".toList ++ numeral (padding blob) ++
    " padding characters, at most 2 are allowed".toList))
  refuseAt (fun name ↦ "base64 blob holds ".toList ++ name)
    (findAt outsideBase64 0 (blob.take (blob.length - padding blob)))

def checkBlobDeclares (decoded : Bytes) (keyType : Text) : Except SettingsError Unit := do
  ensure (4 ≤ decoded.length) (invalidKey "base64 blob is too short to hold an algorithm name".toList)
  let rest := decoded.drop 4
  let length := bigEndian (decoded.take 4)
  ensure (length ≤ rest.length)
    (invalidKey "base64 blob declares an algorithm name longer than the blob itself".toList)
  ensure (rest.take length == utf8Bytes keyType)
    (invalidKey "algorithm name inside the base64 blob does not match the declared key type".toList)

def control (c : Char) : Option Text :=
  if c.toNat < 32 || c == '\x7f' then some "a control character".toList else none

def checkComment (comment : Text) : Except SettingsError Unit := do
  ensure (!comment.isEmpty)
    (invalidKey "comment is empty; omit the trailing space instead of leaving it blank".toList)
  ensure (byteLength comment ≤ maxCommentBytes) (invalidKey ("comment is ".toList ++
    numeral (byteLength comment) ++ " bytes, above the maximum of ".toList ++
    numeral maxCommentBytes))
  refuseAt (fun name ↦ "comment holds ".toList ++ name) (findAt control 0 comment)

section Parser

variable (decode : Text → Option Bytes)

/-- `decode` is the base64 library, padding optional and leftover bits free. -/
def parseAuthorizedKey (line : Text) : Except SettingsError AuthorizedKey := do
  checkLineShape line
  let (keyType, fields) := splitFields line
  let (blob, comment) ← orError
    (invalidKey "line has no base64 blob: expected `<type> <blob> [comment]`".toList) fields
  ensure (acceptedTypes.contains keyType) (invalidKey ("key type field is not one of the ".toList ++
    numeral acceptedTypes.length ++ " accepted types".toList))
  checkBlob blob
  let decoded ← orError (invalidKey "base64 blob does not decode to a byte string".toList)
    (decode blob)
  ensure (minBlobBytes ≤ decoded.length) (invalidKey ("base64 blob decodes to ".toList ++
    numeral decoded.length ++ " bytes, below the ".toList ++ numeral minBlobBytes ++
    "-byte minimum".toList))
  checkBlobDeclares decoded keyType
  forM comment.toList checkComment
  pure ⟨keyType ++ ' ' :: blob, comment⟩

def atEntry {α : Type} (index : ℕ) : Except SettingsError α → Except SettingsError α
  | .error (.validation _ message) =>
    .error (invalidKey ("entry ".toList ++ numeral index ++ ": ".toList ++ message))
  | x => x

def firstIndex (key : Text) (seen : List (Text × ℕ)) : Option ℕ :=
  (seen.find? (·.1 == key)).map Prod.snd

def duplicateOf (index : ℕ) : Option ℕ → Except SettingsError Unit
  | none => .ok ()
  | some first => .error (invalidKey ("entry ".toList ++ numeral index ++
      " duplicates the key already held by entry ".toList ++ numeral first))

def validateEntries : ℕ → List (Text × ℕ) → List AuthorizedKey → Except SettingsError Unit
  | _, _, [] => pure ()
  | index, seen, entry :: entries => do
    let parsed ← atEntry index (parseAuthorizedKey decode entry.key)
    ensure parsed.comment.isNone (invalidKey ("entry ".toList ++ numeral index ++
      ": `key` carries a comment; the comment belongs in the `comment` field".toList))
    atEntry index (forM entry.comment.toList checkComment)
    duplicateOf index (firstIndex entry.key seen)
    validateEntries (index + 1) ((entry.key, index) :: seen) entries

def validateAuthorizedKeys (keys : List AuthorizedKey) : Except SettingsError Unit := do
  ensure (keys.length ≤ maxKeys) (invalidKey ("list holds ".toList ++ numeral keys.length ++
    " keys, above the maximum of ".toList ++ numeral maxKeys))
  validateEntries decode 0 [] keys

end Parser

def AuthorizedKey.line (entry : AuthorizedKey) : Text :=
  match entry.comment with
  | some comment => entry.key ++ ' ' :: comment
  | none => entry.key

def renderAuthorizedKeys (keys : List AuthorizedKey) : Text :=
  keys.flatMap fun entry ↦ entry.line ++ ['\n']

end MicaCore.Settings
