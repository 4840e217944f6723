/-!
The arguments of a command.

An argument that begins with a dash names switches, or an option that takes a value. The value stands in the same
argument or in the next one. After an argument of two dashes nothing is a name any more. Each switch and each option
may be given once.
-/

namespace ModuleBundler.CommandLine

/-- A switch, or an option that takes a value. -/
structure Parameter where
  long : String
  short : Option Char := none
  takesValue : Bool := false
  deriving DecidableEq, Repr

/-- Why a command is not run. -/
inductive Stop
  /-- The arguments are wrong. -/
  | misuse
  | help
  | version
  deriving DecidableEq, Repr

/-- A parameter as it has been given. -/
structure Given where
  parameter : Parameter
  value : Option String := none
  deriving DecidableEq, Repr

structure Arguments where
  given : List Given := []
  /-- What is given without a name, in order. -/
  operands : List String := []
  deriving DecidableEq, Repr

namespace Arguments

/-- What is taken from one argument that begins with a dash, and the option that still waits for its value. -/
abbrev Named := Except Stop (List Given × Option Parameter)

/-- A value that stands in the same argument as its name. Equals signs before it only keep the two apart. -/
def valueOf (text : List Char) : String := String.ofList (text.dropWhile (· = '='))

/-- Reads an argument that begins with two dashes. -/
def longNamed (parameters : List Parameter) (argument : List Char) : Named :=
  let text := argument.dropWhile (· = '-')
  let name := String.ofList (text.takeWhile (· ≠ '='))
  match parameters.find? (·.long = name), text.dropWhile (· ≠ '=') with
  | some parameter, [] =>
    if parameter.takesValue then .ok ([], some parameter) else .ok ([⟨parameter, none⟩], none)
  | some parameter, value =>
    .ok ([⟨parameter, if parameter.takesValue then some (valueOf value) else none⟩], none)
  | none, _ =>
    if name = "help" then .error .help
    else if name = "version" then .error .version
    else .error .misuse

/-- Reads the letters of an argument that begins with one dash. -/
def shortNamed (parameters : List Parameter) : List Char → Named
  | [] => .ok ([], none)
  | letter :: letters =>
    match parameters.find? (·.short = some letter) with
    | some parameter =>
      if parameter.takesValue then
        match letters with
        | [] => .ok ([], some parameter)
        | value => .ok ([⟨parameter, some (valueOf value)⟩], none)
      else (shortNamed parameters letters).map fun (given, waiting) => (⟨parameter, none⟩ :: given, waiting)
    | none =>
      if letter = 'h' then .error .help
      else if letter = 'V' then .error .version
      else .error .misuse

/-- Adds what is given without a name, if there are not more than `capacity` of it. -/
def addOperands (capacity : Nat) (found : Arguments) (operands : List String) : Except Stop Arguments :=
  let all := found.operands ++ operands
  if capacity < all.length then .error .misuse else .ok { found with operands := all }

/-- Whether each parameter has been given at most once, and with a value if it takes one. -/
def isProper (found : Arguments) : Bool :=
  decide (found.given.map (·.parameter)).Nodup &&
    found.given.all fun given => !given.parameter.takesValue || given.value.isSome

/-- Reads the arguments, of which `waiting` may be an option whose value may come next. -/
def readFrom (parameters : List Parameter) (capacity : Nat) (found : Arguments) (waiting : Option Parameter) :
    List String → Except Stop Arguments
  | [] => if waiting.isNone && found.isProper then .ok found else .error .misuse
  | argument :: rest =>
    let withoutValue : Arguments :=
      { found with given := found.given ++ (waiting.map fun parameter => ⟨parameter, none⟩).toList }
    match argument.toList, waiting with
    | ['-', '-'], _ => do
      let all ← addOperands capacity withoutValue rest
      if all.isProper then .ok all else .error .misuse
    | '-' :: '-' :: _, _ => do
      let (given, waiting) ← longNamed parameters argument.toList
      readFrom parameters capacity { withoutValue with given := withoutValue.given ++ given } waiting rest
    | '-' :: letter :: letters, _ => do
      let (given, waiting) ← shortNamed parameters (letter :: letters)
      readFrom parameters capacity { withoutValue with given := withoutValue.given ++ given } waiting rest
    | _, some parameter =>
      readFrom parameters capacity { found with given := found.given ++ [⟨parameter, some argument⟩] } none rest
    | _, none => do
      readFrom parameters capacity (← addOperands capacity found [argument]) none rest

/-- Reads all arguments of a command that takes `capacity` operands. -/
def read (parameters : List Parameter) (capacity : Nat) (arguments : List String) : Except Stop Arguments :=
  readFrom parameters capacity {} none arguments

def isGiven (found : Arguments) (parameter : Parameter) : Bool :=
    found.given.any fun given => given.parameter = parameter

def value? (found : Arguments) (parameter : Parameter) : Option String :=
  (found.given.find? fun given => given.parameter = parameter).bind (·.value)

end Arguments

end ModuleBundler.CommandLine
