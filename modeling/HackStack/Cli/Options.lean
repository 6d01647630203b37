import HackStack.Text.Similarity

/-!
# Options on a command line

Options and arguments mix freely. An option has a long name, such as `--out`, and may
have a short one, `-o`. A long option takes its value after an equals sign or as the
next argument, whatever that looks like. Short options may share one dash (`-vv`); one
that takes a value takes what is left of its argument, or else the next. Two dashes
alone end the options.

The first fault from the left is reported. For a long option that is not known, the
ones that it may have been meant for are given with it.
-/

namespace HackStack.Cli

/-- An option that a tool knows. -/
structure OptionSpec (α : Type) where
  key : α
  long : Text
  short : Option Char
  takesValue : Bool

/-- An option as it was given, with its value if it takes one. -/
structure Given (α : Type) where
  key : α
  value : Option Text
  deriving DecidableEq, Repr

/-- What is wrong with the options. -/
inductive OptionError where
  /-- There is no such option, but there are some with similar names. -/
  | unknown (name : Text) (similar : List Text)
  | needsValue (name : Text)
  | takesNoValue (name : Text)
  deriving DecidableEq, Repr

/-- The options that one argument gives, and the one that waits for the next argument as
its value, with the name it was given by. -/
structure Scanned (α : Type) where
  given : List (Given α)
  waiting : Option (Text × α)

/-- A command line taken apart. -/
structure Parsed (α : Type) where
  options : List (Given α)
  arguments : List Text

variable {α : Type}

/-- The dash that starts an option. -/
def dash : Char := '-'

/-- The argument that ends the options, and the start of every long one. -/
def dashes : Text := [dash, dash]

/-- The short options behind one dash. -/
def shortOptions (specs : List (OptionSpec α)) : Text → Except OptionError (Scanned α)
  | [] => .ok ⟨[], none⟩
  | c :: rest =>
    match specs.find? (·.short == some c) with
    | none => .error (.unknown [dash, c] [])
    | some spec =>
      if spec.takesValue then
        if rest.isEmpty then .ok ⟨[], some ([dash, c], spec.key)⟩
        else .ok ⟨[⟨spec.key, some rest⟩], none⟩
      else
        (shortOptions specs rest).map fun s => { s with given := ⟨spec.key, none⟩ :: s.given }

/-- A long option, by an argument that names it. -/
def longOption (spec : OptionSpec α) (arg : Text) : Except OptionError (Scanned α) :=
  let name := Text.before '=' arg
  if spec.takesValue then
    if arg.contains '=' then .ok ⟨[⟨spec.key, some (Text.after '=' arg)⟩], none⟩
    else .ok ⟨[], some (name, spec.key)⟩
  else if arg.contains '=' then .error (.takesNoValue name)
  else .ok ⟨[⟨spec.key, none⟩], none⟩

/-- The most options that are given for one that is not known. -/
def similarLimit : Nat := 3

/-- A long option that is not known. -/
def unknownLong (specs : List (OptionSpec α)) (name : Text) : OptionError :=
  .unknown name (Text.closest similarLimit name (specs.map (·.long)))

/-- The options that an argument gives. -/
def optionArgument (specs : List (OptionSpec α)) (arg : Text) : Except OptionError (Scanned α) :=
  let name := Text.before '=' arg
  match specs.find? (·.long == name) with
  | some spec => longOption spec arg
  | none =>
    if arg.take 2 == dashes then .error (unknownLong specs name)
    else shortOptions specs arg.tail

/-- Whether an argument is taken for an option: a dash alone is not. -/
def isOption (arg : Text) : Bool := arg.head? == some dash && 1 < arg.length

/-- Take arguments apart after those of `done`. -/
def parseOnto (specs : List (OptionSpec α)) (done : Parsed α) :
    List Text → Except OptionError (Parsed α)
  | [] => .ok done
  | arg :: rest =>
    if arg == dashes then .ok { done with arguments := done.arguments ++ rest }
    else if isOption arg then
      match optionArgument specs arg with
      | .error e => .error e
      | .ok ⟨given, none⟩ => parseOnto specs { done with options := done.options ++ given } rest
      | .ok ⟨given, some (name, key)⟩ =>
        match rest with
        | [] => .error (.needsValue name)
        | value :: rest =>
          parseOnto specs { done with options := done.options ++ given ++ [⟨key, some value⟩] }
            rest
    else parseOnto specs { done with arguments := done.arguments ++ [arg] } rest

/-- Take a command line apart. -/
def parseOptions (specs : List (OptionSpec α)) (args : List Text) :
    Except OptionError (Parsed α) :=
  parseOnto specs ⟨[], []⟩ args

/-- Whether an option was given. -/
def Parsed.has [BEq α] (p : Parsed α) (key : α) : Bool := p.options.any (·.key == key)

/-- How often an option was given. -/
def Parsed.count [BEq α] (p : Parsed α) (key : α) : Nat := p.options.countP (·.key == key)

/-- The values that an option was given, in order. -/
def Parsed.values [BEq α] (p : Parsed α) (key : α) : List Text :=
  (p.options.filter (·.key == key)).filterMap (·.value)

/-- The value of an option: of several the last. -/
def Parsed.value? [BEq α] (p : Parsed α) (key : α) : Option Text := (p.values key).getLast?

end HackStack.Cli
