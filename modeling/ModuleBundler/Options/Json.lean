import ModuleBundler.Options

/-!
Options as JSON.

Options can be read from a text (`Options.ofText`), where the first problem from left to right counts, and from a
value that has been read already (`Options.ofJson`), where a message says what does not fit. In both cases an
object sets options by their names, a list by their order, and what is not there keeps its default.
-/

namespace ModuleBundler

open Json (Reader Problem)

namespace Setting

def fromText : Source Reader where
  text := Reader.text
  path := Reader.text
  optionalPath := Reader.optionalText
  texts := Reader.texts

open Json.Reader in
/-- Reads settings by their names, up to the end of the object. No setting may come twice. -/
def readMembers : Reader (List Setting) := do
  let found ← iterate (([] : List Setting), true) fun (found, isFirst) => do
    let b ← peekPart
    if b = Json.byte '\x7d' then return none
    if !isFirst then
      if b ≠ Json.byte ',' then throw .malformed
      let _ ← take .cutOff
    if (← takePart) ≠ Json.byte '"' then throw .malformed
    match Name.ofText? (← textAfterQuote) with
    | some known =>
      if found.any fun setting => setting.name = known then throw .unfit
      if (← takePart) ≠ Json.byte ':' then throw .malformed
      return some ((← read fromText known) :: found, false)
    | none =>
      if (← takePart) ≠ Json.byte ':' then throw .malformed
      skip
      return some (found, false)
  let _ ← takePart
  return found.1.reverse

open Json.Reader in
/-- Reads settings in their order, up to the end of the list. -/
def readElements : Reader (List Setting) := do
  let found ← iterate (([] : List Setting), Name.all) fun (found, names) => do
    match names with
    | [] => return none
    | next :: names =>
      if ← nextElement found.isEmpty then return some ((← read fromText next) :: found, names) else return none
  if (← takePart) ≠ Json.byte ']' then throw .malformed
  return found.1.reverse

open Json.Reader in
def readAll : Reader (List Setting) := do
  let b ← peekPart
  if b = Json.byte '\x7b' then
    let _ ← take .cutOff
    readMembers
  else if b = Json.byte '[' then
    let _ ← take .cutOff
    readElements
  else refuse

end Setting

/-- Reads options from the bytes of a text. -/
def Options.ofText (bytes : List UInt8) : Except Problem Options :=
  (Reader.whole Setting.readAll bytes).map Options.ofSettings

/-- Why options cannot be read from a value. -/
inductive Mismatch
  /-- A value of one form stands where another form is expected. -/
  | form (found : Json) (expected : String)
  /-- A list has more elements than there are settings. -/
  | tooLong (length : Nat)
  deriving Repr

def Mismatch.message : Mismatch → String
  | form found expected => "invalid type: " ++ found.described ++ ", expected " ++ expected
  | tooLong length => "invalid length " ++ toString length ++ ", expected fewer elements in array"

namespace Setting

/-- What reads something from a value. -/
abbrev Decoder (α : Type) := ReaderT Json (Except Mismatch) α

def decodeText (expected : String) : Decoder String
  | .text s => .ok s
  | other => .error (.form other expected)

def decodeOptionalPath : Decoder (Option String)
  | .null => .ok none
  | other => some <$> decodeText "path string" other

def decodeTexts : Decoder (List String)
  | .list elements => elements.mapM (decodeText "a string")
  | other => .error (.form other "a sequence")

def fromValue : Source Decoder where
  text := decodeText "a string"
  path := decodeText "path string"
  optionalPath := decodeOptionalPath
  texts := decodeTexts

/-- The setting that a member of an object makes, if its name is one of a setting. -/
def ofMember? (member : String × Json) : Except Mismatch (Option Setting) :=
  match Name.ofText? member.1 with
  | some known => some <$> read fromValue known member.2
  | none => .ok none

def decodeAll : Decoder (List Setting)
  | .object members => do return (← members.mapM ofMember?).filterMap id
  | .list elements => do
    let settings ← (List.zip Name.all elements).mapM fun (known, element) => read fromValue known element
    if Name.all.length < elements.length then throw (.tooLong elements.length) else return settings
  | other => .error (.form other "struct BundleOptions")

end Setting

namespace Options

/-- Reads options from a value. -/
def ofJson (value : Json) : Except Mismatch Options := (Setting.decodeAll value).map ofSettings

def textsToJson (texts : List String) : Json := .list (texts.map .text)

end Options

def Setting.toJson : Setting → Json
  | .root s | .srcDir s | .outDir s | .entry s | .assetSuffix s => .text s
  | .output s => match s with
    | some s => .text s
    | none => .null
  | .moduleExtensions l | .assetExtensions l | .exclude l | .cleanDirs l => Options.textsToJson l

/-- All settings as an object. -/
def Options.toJson (o : Options) : Json :=
  .object (o.settings.map fun setting => (setting.name.text, setting.toJson))

end ModuleBundler
