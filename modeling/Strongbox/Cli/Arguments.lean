/-
  Strongbox.Cli.Arguments — how arguments are split into switches, operands and subcommands.

  A switch is `--name value`, `--name=value`, `-l value`, `-lvalue` or `-l=value`; letters
  without values can be joined. An argument that begins with a hyphen is a switch unless it is
  the hyphen alone, a negative number where one may stand, or comes after `--`. A value is judged
  when the argument after it has been seen, so that what is refused first, or asks for help
  first, decides.
-/

import Strongbox.Text.Decimal
import Strongbox.Text.Pieces

namespace Strongbox.Cli

/-- Why there is nothing to run. -/
inductive Stop where
  /-- The arguments are not accepted. -/
  | usage
  | help
  | version
  deriving DecidableEq, Repr

inductive SwitchKind where
  | flag
  /-- A flag that may be given any number of times. -/
  | counter
  | help
  | version
  /-- Takes one value of those accepted; a negative number can be one if `negative`. -/
  | value (accepts : String → Bool) (negative : Bool)
  /-- Takes a value each time it is given. -/
  | values (accepts : String → Bool)

structure Switch where
  name : String
  letter : Option Char := none
  kind : SwitchKind

namespace Switch

def takesValue (s : Switch) : Bool :=
  match s.kind with
  | .value .. => true
  | .values _ => true
  | _ => false

def takesNegative (s : Switch) : Bool :=
  match s.kind with
  | .value _ negative => negative
  | _ => false

end Switch

/-- What may be given at one level of subcommands. -/
structure Level where
  switches : List Switch
  commands : List String := []
  /-- The most operands there may be. -/
  operands : Nat := 0

/-- What was given at one level, in order; a flag has empty text for a value. -/
structure Given where
  values : List (String × String) := []
  operands : List String := []

namespace Given

def has (g : Given) (name : String) : Bool := g.values.any (·.1 = name)

def value? (g : Given) (name : String) : Option String := g.values.lookup name

def all (g : Given) (name : String) : List String := (g.values.filter (·.1 = name)).map (·.2)

end Given

structure Scan where
  given : Given := {}
  /-- The last switch that takes a value, with the value once it has come. -/
  pending : Option (Switch × Option String) := none
  /-- Whether `--` was passed. -/
  trailing : Bool := false

namespace Scan

/-- Whether a switch waits for its value. -/
def waits (p : Scan) : Bool := p.pending.any (·.2.isNone)

/-- Takes a switch with its value. -/
def take (s : Switch) (value : String) (p : Scan) : Except Stop Scan :=
  let taken := { p with given := { p.given with values := p.given.values ++ [(s.name, value)] } }
  match s.kind with
  | .flag => if p.given.has s.name then .error .usage else .ok taken
  | .counter => .ok taken
  | .help => .error .help
  | .version => .error .version
  | .value accepts _ => if p.given.has s.name || !accepts value then .error .usage else .ok taken
  | .values accepts => if accepts value then .ok taken else .error .usage

/-- Takes the switch that is pending, which must have its value. -/
def settle (p : Scan) : Except Stop Scan :=
  match p.pending with
  | none => .ok p
  | some (_, none) => .error .usage
  | some (s, some value) => take s value { p with pending := none }

/-- Goes on with a switch and what is attached to it. -/
def give (s : Switch) (attached : Option String) (p : Scan) : Except Stop Scan :=
  match s.takesValue, attached with
  | true, some value => p.settle >>= take s value
  | true, none => p.settle.map fun p => { p with pending := some (s, none) }
  | false, some _ => .error .usage
  | false, none => p.settle >>= take s ""

/-- The letters of one argument; what follows one that takes a value is its value. -/
def letters (switches : List Switch) : List Char → Scan → Except Stop Scan
  | [], p => .ok p
  | letter :: rest, p =>
    match switches.find? (·.letter = some letter) with
    | none => .error .usage
    | some s =>
      if s.takesValue then
        p.give s <|
          match rest with
          | [] => none
          | '=' :: value => some (String.ofList value)
          | value => some (String.ofList value)
      else p.give s none >>= letters switches rest

/-- A switch by its name, with the value after the first equals sign if there is one. -/
def long (switches : List Switch) (text : List Char) (p : Scan) : Except Stop Scan :=
  let name := String.ofList (text.takeWhile (· ≠ '='))
  let attached := match text.dropWhile (· ≠ '=') with
    | _ :: value => some (String.ofList value)
    | [] => none
  match switches.find? (·.name = name) with
  | none => .error .usage
  | some s => p.give s attached

def operand (level : Level) (arg : String) (p : Scan) : Except Stop Scan := do
  let p ← p.settle
  if p.given.operands.length < level.operands then
    return { p with given := { p.given with operands := p.given.operands ++ [arg] } }
  else .error .usage

/-- The value of the switch that waits for one, or else an operand. -/
def word (level : Level) (arg : String) (p : Scan) : Except Stop Scan :=
  match p.pending with
  | some (s, none) => .ok { p with pending := some (s, some arg) }
  | _ => p.operand level arg

def argument (level : Level) (arg : String) (p : Scan) : Except Stop Scan :=
  if p.trailing then p.operand level arg
  else
    match arg.toList with
    | ['-', '-'] => .ok { p with trailing := true }
    | '-' :: '-' :: text => p.long level.switches text
    | '-' :: letter :: rest =>
      let number := (letter :: rest).all Text.Decimal.isDigit
      if number && p.pending.any fun (s, value) => value.isNone && s.takesNegative then
        p.word level arg
      else p.letters level.switches (letter :: rest)
    | _ => p.word level arg

end Scan

/-- Reads arguments up to the name of a subcommand: what was given until then, and the
    subcommand with the arguments after it. -/
def Level.scan (level : Level) :
    List String → Scan → Except Stop (Scan × Option (String × List String))
  | [], p => .ok (p, none)
  | arg :: rest, p =>
    if !p.trailing && !p.waits && level.commands.contains arg then .ok (p, some (arg, rest))
    else p.argument level arg >>= level.scan rest

end Strongbox.Cli
