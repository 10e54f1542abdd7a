import CommaStyle.Spacing
import CommaStyle.Settings.Input

namespace CommaStyle

/-!
# Written settings

Settings are written in JSON, as an object with at most three members or as an array of at most
three booleans; what is not written keeps its usual value. `Settings.ofText` reads them.
-/

/-- The settings that have been read so far. -/
structure Draft where
  before : Option Bool := none
  after : Option Bool := none
  leading : Option Bool := none
deriving DecidableEq, Repr

namespace Draft

/-- What has been read for a setting. -/
def get (d : Draft) : Field → Option Bool
  | .before => d.before
  | .after => d.after
  | .leading => d.leading

/-- Notes a value for a setting. -/
def set (d : Draft) (field : Field) (value : Bool) : Draft :=
  match field with
  | .before => { d with before := some value }
  | .after => { d with after := some value }
  | .leading => { d with leading := some value }

/-- The settings, where those that were not written keep their usual value. -/
def toSettings (d : Draft) : Settings :=
  { spaceBefore := d.before.getD Settings.standard.spaceBefore
    spaceAfter := d.after.getD Settings.standard.spaceAfter
    excuseLeading := d.leading.getD Settings.standard.excuseLeading }

end Draft

/-- The setting with a name. -/
def Field.ofName? (name : Text) : Option Field := Field.all.find? fun f => f.name.toList == name

namespace Input

/-! ### Values -/

/-- What stands ahead. A list or an object is named by its bracket alone. -/
def found (i : Input) : Except SettingsError (Found × Input) :=
  match i.peek? with
  | some 'n' => do return (.null, ← i.step.word ['u', 'l', 'l'])
  | some 't' => do return (.boolean true, ← i.step.word ['r', 'u', 'e'])
  | some 'f' => do return (.boolean false, ← i.step.word ['a', 'l', 's', 'e'])
  | some '-' => i.step.number true
  | some '"' => do
    let (t, i) ← i.step.string
    return (.string t, i)
  | some '[' => .ok (.sequence, i)
  | some '\x7b' => .ok (.map, i)
  | some c => if c.isDigit then i.number false else i.failAhead .expectedValue
  | none => i.failAhead .expectedValue

/-- Refuses what stands ahead because something else was wanted. -/
def refuse {α : Type} (i : Input) (wanted : Wanted) : Except SettingsError α := do
  let (found, i) ← i.found
  i.fail (.wrongType found wanted)

/-- Reads a boolean. -/
def boolean (i : Input) : Except SettingsError (Bool × Input) :=
  let i := i.skipBlanks
  match i.peek? with
  | none => i.fail .endInValue
  | some 't' => do return (true, ← i.step.word ['r', 'u', 'e'])
  | some 'f' => do return (false, ← i.step.word ['a', 'l', 's', 'e'])
  | some _ => i.refuse .boolean

/-! ### Arrays -/

/-- Reads values for some settings up to the end of an array, without the closing bracket. -/
def elements :
    List Field → (first : Bool) → Draft → Input → Except SettingsError (Draft × Input)
  | [], _, d, i => .ok (d, i)
  | field :: fields, first, d, i => do
    let i := i.skipBlanks
    match i.peek? with
    | none => i.fail .endInList
    | some ']' => return (d, i)
    | some c =>
      if first then do
        let (value, i) ← i.boolean
        elements fields false (d.set field value) i
      else if c = ',' then do
        let i := i.step.skipBlanks
        match i.peek? with
        | none => i.fail .endInValue
        | some ']' => i.failAhead .trailingComma
        | some _ =>
          let (value, i) ← i.boolean
          elements fields false (d.set field value) i
      else i.failAhead .expectedCommaOrBracket

/-- Reads the closing bracket of an array. -/
def closeArray (i : Input) : Except SettingsError Input :=
  let i := i.skipBlanks
  match i.peek? with
  | none => i.fail .endInList
  | some ']' => .ok i.step
  | some ',' =>
    let i := i.step.skipBlanks
    if i.peek? == some ']' then i.failAhead .trailingComma else i.failAhead .trailingCharacters
  | some _ => i.failAhead .trailingCharacters

/-- Reads an array behind its opening bracket. -/
def array (i : Input) : Except SettingsError (Draft × Input) := do
  let (d, i) ← elements Field.all true {} i
  return (d, ← i.closeArray)

/-! ### Objects -/

/-- Goes to the name of the next member of an object; at the end of the object there is none. -/
def nextName (i : Input) (first : Bool) : Except SettingsError (Option Input) :=
  let i := i.skipBlanks
  match i.peek? with
  | none => i.fail .endInObject
  | some '\x7d' => .ok none
  | some c =>
    if first then if c = '"' then .ok (some i.step) else i.failAhead .keyNotString
    else if c = ',' then
      let i := i.step.skipBlanks
      match i.peek? with
      | none => i.fail .endInValue
      | some '"' => .ok (some i.step)
      | some '\x7d' => i.failAhead .trailingComma
      | some _ => i.failAhead .keyNotString
    else i.failAhead .expectedCommaOrBrace

/-- The input behind the end of an object, if it is the next thing ahead. -/
def passEnd (i : Input) : Input :=
  let i := i.skipBlanks
  if i.peek? == some '\x7d' then i.step else i

/-- The setting that a name stands for, which has to be one that was not written yet. A name that is
    refused is placed behind what would end the object there. -/
def field (i : Input) (d : Draft) (name : Text) : Except SettingsError Field :=
  match Field.ofName? name with
  | none => i.passEnd.fail (.unknownField name)
  | some f => if (d.get f).isSome then i.passEnd.fail (.duplicateField f) else .ok f

/-- Reads the colon behind a name. -/
def colon (i : Input) : Except SettingsError Input :=
  let i := i.skipBlanks
  match i.peek? with
  | none => i.fail .endInObject
  | some ':' => .ok i.step
  | some _ => i.failAhead .expectedColon

/-- Reads at most `bound` members up to the end of an object, without the closing bracket. -/
def members :
    (bound : Nat) → (first : Bool) → Draft → Input → Except SettingsError (Draft × Input)
  | 0, _, d, i => .ok (d, i)
  | bound + 1, first, d, i => do
    match ← i.nextName first with
    | none => return (d, i)
    | some i =>
      let (name, i) ← i.string
      let field ← i.field d name
      let i ← i.colon
      let (value, i) ← i.boolean
      members bound false (d.set field value) i

/-- Reads an object behind its opening bracket. No setting is written twice, so there are no more
    members than settings, and one more look finds the end. -/
def object (i : Input) : Except SettingsError (Draft × Input) := do
  let (d, i) ← members (Field.all.length + 1) true {} i
  return (d, i.passEnd)

/-! ### Settings -/

/-- Reads settings. -/
def settings (i : Input) : Except SettingsError (Draft × Input) :=
  let i := i.skipBlanks
  match i.peek? with
  | none => i.fail .endInValue
  | some '[' => i.step.array
  | some '\x7b' => i.step.object
  | some _ => i.refuse .settings

end Input

/-- The settings that a text holds, and nothing else. -/
def Settings.ofText (t : Text) : Except SettingsError Settings := do
  let (d, i) ← (Input.ofText t).settings
  let i := i.skipBlanks
  if i.rest.isEmpty then return d.toSettings else i.failAhead .trailingCharacters

end CommaStyle
