namespace CommaStyle

/-!
# Requests

What the arguments of a command line ask for. Arguments that ask for nothing in particular, or for
something twice, are refused.
-/

/-- A switch that is on or off. -/
inductive Switch where
  | mend
  | before
  | noAfter
  | excuseLeading
deriving DecidableEq, Repr

/-- The argument that turns a switch on. -/
def Switch.argument : Switch → String
  | mend => "--fix"
  | before => "--before"
  | noAfter => "--no-after"
  | excuseLeading => "--ignore-if-first-token-of-line"

/-- The switches. -/
def Switch.all : List Switch := [.mend, .before, .noAfter, .excuseLeading]

/-- The switch that an argument turns on. -/
def Switch.ofArgument? (argument : String) : Option Switch :=
  Switch.all.find? fun s => s.argument == argument

/-- The paths of the files to check, the switches that are on, and the path of the settings. -/
structure Request where
  paths : List String := []
  switches : List Switch := []
  settings : Option String := none
deriving DecidableEq, Repr

/-- What a command line asks for. -/
inductive Command where
  | version
  | check (request : Request)
deriving DecidableEq, Repr

namespace Request

/-- Whether a switch is on. -/
def has (r : Request) (s : Switch) : Bool := r.switches.contains s

/-- Turns a switch on, once. -/
def turnOn? (r : Request) (s : Switch) : Option Request :=
  if r.has s then none else some { r with switches := s :: r.switches }

/-- Names the settings, once. -/
def nameSettings? (r : Request) (path : String) : Option Request :=
  if r.settings.isSome then none else some { r with settings := some path }

/-- The argument that names the settings. -/
def settingsArgument : String := "--config"

/-- Whether an argument has the form of an option. A dash by itself has not. -/
def isOption (argument : String) : Bool := argument != "-" && ['-'].isPrefixOf argument.toList

/-- The path of the settings in an argument that holds both name and path. -/
def settingsIn? (argument : String) : Option String :=
  let name := settingsArgument.toList ++ ['=']
  if name.isPrefixOf argument.toList then some (String.ofList (argument.toList.drop name.length))
  else none

/-- Adds what some arguments ask for. -/
def addAll? (r : Request) : List String → Option Request
  | [] => some r
  | argument :: more =>
    if argument = "--" then some { r with paths := r.paths ++ more }
    else if argument = settingsArgument then
      match more with
      | [] => none
      | path :: more =>
        if isOption path then none
        else
          match r.nameSettings? path with
          | some r => r.addAll? more
          | none => none
    else
      match settingsIn? argument, Switch.ofArgument? argument with
      | some path, _ =>
        match r.nameSettings? path with
        | some r => r.addAll? more
        | none => none
      | none, some s =>
        match r.turnOn? s with
        | some r => r.addAll? more
        | none => none
      | none, none =>
        if isOption argument then none
        else { r with paths := r.paths ++ [argument] }.addAll? more

end Request

/-- Whether an argument asks for the version: by its name, or by its letter at the head of letters
    behind one dash. -/
def Command.asksForVersion (argument : String) : Bool :=
  argument = "--version" || ['-', 'V'].isPrefixOf argument.toList

/-- What the arguments of a command line ask for. The version is shown whatever follows; to check,
    at least one path has to be given. -/
def Command.ofArguments? : List String → Option Command
  | [] => none
  | first :: arguments =>
    if asksForVersion first then some .version
    else if first = "check" then
      match ({} : Request).addAll? arguments with
      | some r => if r.paths.isEmpty then none else some (.check r)
      | none => none
    else none

end CommaStyle
