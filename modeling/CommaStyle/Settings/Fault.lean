import CommaStyle.Decimal
import CommaStyle.Text
import CommaStyle.Text.Quoted

namespace CommaStyle

/-!
# What can be wrong with written settings

Each cause belongs to one of three classes: the text ends too early, it is not well formed, or what
it says are no settings. `SettingsError.message` words a cause and its place.
-/

/-- A setting that can be written. -/
inductive Field where
  | before
  | after
  | leading
deriving DecidableEq, Repr

/-- The name under which a setting is written. -/
def Field.name : Field → String
  | before => "before"
  | after => "after"
  | leading => "ignoreIfFirstTokenOfLine"

/-- The settings in the order in which they are written without names. -/
def Field.all : List Field := [.before, .after, .leading]

/-- What was expected where something else was found. -/
inductive Wanted where
  | boolean
  | settings
deriving DecidableEq, Repr

/-- Something that was found where something else was expected. -/
inductive Found where
  | null
  | boolean (value : Bool)
  | integer (value : Int)
  | real (value : Decimal)
  | string (value : Text)
  | sequence
  | map
deriving DecidableEq, Repr

/-- A cause for refusing written settings. -/
inductive SettingsFault where
  | endInValue
  | endInList
  | endInObject
  | endInString
  | expectedValue
  | expectedWord
  | expectedColon
  | expectedCommaOrBrace
  | expectedCommaOrBracket
  | keyNotString
  | trailingComma
  | trailingCharacters
  | invalidNumber
  | numberOutOfRange
  | invalidEscape
  | unpairedSurrogate
  | unfinishedSurrogatePair
  | controlCharacter
  | unknownField (name : Text)
  | duplicateField (field : Field)
  | wrongType (found : Found) (wanted : Wanted)
deriving DecidableEq, Repr

/-- The classes of causes. -/
inductive FaultClass where
  /-- The text ends too early. -/
  | ended
  /-- The text is not well formed. -/
  | malformed
  /-- The text says something else than settings. -/
  | unfit
deriving DecidableEq, Repr

/-- A cause and the place where it was noticed. -/
structure SettingsError where
  fault : SettingsFault
  place : Place
deriving DecidableEq, Repr

/-- The words for what was expected. -/
def Wanted.words : Wanted → String
  | boolean => "a boolean"
  | settings => "struct SpacingConfig"

/-- The words for what was found. -/
def Found.words : Found → String
  | null => "null"
  | boolean true => "boolean `true`"
  | boolean false => "boolean `false`"
  | integer n => "integer `" ++ toString n ++ "`"
  | real d => "floating point `" ++ d.toText ++ "`"
  | string t => "string " ++ String.ofList (Text.quote t)
  | sequence => "sequence"
  | map => "map"

namespace SettingsFault

/-- The words for a name in a message. -/
def quotedName (name : String) : String := "`" ++ name ++ "`"

/-- The words for a cause. -/
def message : SettingsFault → String
  | endInValue => "EOF while parsing a value"
  | endInList => "EOF while parsing a list"
  | endInObject => "EOF while parsing an object"
  | endInString => "EOF while parsing a string"
  | expectedValue => "expected value"
  | expectedWord => "expected ident"
  | expectedColon => "expected `:`"
  | expectedCommaOrBrace => "expected `,` or `\x7d`"
  | expectedCommaOrBracket => "expected `,` or `]`"
  | keyNotString => "key must be a string"
  | trailingComma => "trailing comma"
  | trailingCharacters => "trailing characters"
  | invalidNumber => "invalid number"
  | numberOutOfRange => "number out of range"
  | invalidEscape => "invalid escape"
  | unpairedSurrogate => "lone leading surrogate in hex escape"
  | unfinishedSurrogatePair => "unexpected end of hex escape"
  | controlCharacter => "control character (\\u0000-\\u001F) found while parsing a string"
  | unknownField name =>
    "unknown field " ++ quotedName (String.ofList name) ++ ", expected one of "
      ++ ", ".intercalate (Field.all.map fun f => quotedName f.name)
  | duplicateField f => "duplicate field " ++ quotedName f.name
  | wrongType found wanted => "invalid type: " ++ found.words ++ ", expected " ++ wanted.words

/-- The class of a cause. -/
def faultClass : SettingsFault → FaultClass
  | endInValue | endInList | endInObject | endInString => .ended
  | unknownField _ | duplicateField _ | wrongType _ _ => .unfit
  | _ => .malformed

end SettingsFault

/-- The words for a cause and its place. Lines are counted from one, columns in bytes. -/
def SettingsError.message (e : SettingsError) : String :=
  e.fault.message ++ " at line " ++ toString (e.place.line + 1)
    ++ " column " ++ toString e.place.column

end CommaStyle
