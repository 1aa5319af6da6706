import LosslessTree.Coordinate

/-!
# `Command.Arguments` — the command line

There are four commands: `locate TREE LINE COLUMN`, `bbox TREE [PATH]`, `render TREE` and
`run TREE QUERIES`; all but `render` take `--json`. Options stand before, between or behind the
other arguments; behind `--` everything is an argument. `-v` may stand anywhere, repeated and in
clusters such as `-vv`. Before the command, `-V` asks for the version.

Arguments are read from left to right, and the first that does not fit decides.

## Contents
- **`Command`**, what to do, and **`Request`**, a command or a text to show.
- **`UsageError`**, why the arguments do not fit.
- **`Request.parse`**, by `readTop` up to the command and `readRest` behind it.
-/

namespace LosslessTree

/-- What to do. -/
inductive Command where
  | locate (tree : String) (line column : Int) (json : Bool)
  | bbox (tree : String) (path : Option String) (json : Bool)
  | render (tree : String)
  | run (tree queries : String) (json : Bool)
  deriving DecidableEq, Repr

namespace Command

/-- The names of the commands. -/
inductive Name where
  | locate
  | bbox
  | render
  | run
  deriving DecidableEq, Repr

namespace Name

/-- The command of that name. -/
def ofText? : String → Option Name
  | "locate" => some .locate
  | "bbox" => some .bbox
  | "render" => some .render
  | "run" => some .run
  | _ => none

/-- The word for a command. -/
def text : Name → String
  | .locate => "locate"
  | .bbox => "bbox"
  | .render => "render"
  | .run => "run"

/-- Whether a command can answer in JSON. -/
def takesJson : Name → Bool
  | .render => false
  | _ => true

/-- The arguments of a command, as usage texts show them. -/
def arguments : Name → String
  | .locate => "<TREE> <LINE> <COLUMN>"
  | .bbox => "<TREE> [PATH]"
  | .render => "<TREE>"
  | .run => "<TREE> <QUERIES>"

/-- What a command does. -/
def summary : Name → String
  | .locate => "Find the node under a cursor position"
  | .bbox => "Compute the bounding box of a node"
  | .render => "Print the source text a tree renders to"
  | .run => "Run a batch of queries from a TOML file"

end Name

end Command

/-- What the arguments ask for. -/
inductive Request where
  | version
  | help (command : Option Command.Name)
  | command (command : Command)
  deriving DecidableEq, Repr

/-- Why the arguments do not fit. -/
inductive UsageError where
  | noCommand
  | unknownCommand (word : String)
  | unknownOption (word : String)
  | repeatedOption (word : String)
  | surplus (word : String)
  | missing (command : Command.Name)
  | badValue (word : String)
  deriving DecidableEq, Repr

/-- The error in words. -/
def UsageError.message : UsageError → String
  | .noCommand => "a command is required"
  | .unknownCommand word => "unrecognized command '" ++ word ++ "'"
  | .unknownOption word => "unexpected option '" ++ word ++ "'"
  | .repeatedOption word => "the option '" ++ word ++ "' cannot be used more than once"
  | .surplus word => "unexpected argument '" ++ word ++ "'"
  | .missing command => "the command needs " ++ command.arguments
  | .badValue word => "invalid value '" ++ word ++ "'"

namespace Request

/-- A number of decimal digits with an optional sign, in the range of coordinates. -/
def number? (word : String) : Option Int :=
  let read (negative : Bool) (digits : List Char) : Option Int :=
    if digits.isEmpty || !digits.all Char.isDigit then none
    else
      let n : Int := Nat.ofDigitChars 10 digits 0
      let n := if negative then -n else n
      if Coordinate.InRange n then some n else none
  match word.toList with
  | '-' :: digits => read true digits
  | '+' :: digits => read false digits
  | digits => read false digits

/-- What stands behind a command so far: its arguments, and whether JSON is asked for. -/
structure Given where
  values : List String := []
  json : Bool := false

/-- Whether a word may be the next argument of a command after `count` others. -/
def fits (name : Command.Name) (count : Nat) (word : String) : Except UsageError Unit :=
  let file := if word.isEmpty then .error (.badValue word) else .ok ()
  let number := if (number? word).isSome then .ok () else .error (.badValue word)
  match name, count with
  | _, 0 => file
  | .locate, 1 => number
  | .locate, 2 => number
  | .bbox, 1 => .ok ()
  | .run, 1 => file
  | _, _ => .error (.surplus word)

/-- Takes a word as the next argument. -/
def Given.add (name : Command.Name) (word : String) (given : Given) : Except UsageError Given := do
  fits name given.values.length word
  return { given with values := given.values ++ [word] }

/-- The command from all that was given. -/
def Given.finish (name : Command.Name) (given : Given) : Except UsageError Request :=
  match name, given.values with
  | .locate, [tree, line, column] =>
    match number? line, number? column with
    | some line, some column => .ok (.command (.locate tree line column given.json))
    | _, _ => .error (.missing name)
  | .bbox, [tree] => .ok (.command (.bbox tree none given.json))
  | .bbox, [tree, path] => .ok (.command (.bbox tree (some path) given.json))
  | .render, [tree] => .ok (.command (.render tree))
  | .run, [tree, queries] => .ok (.command (.run tree queries given.json))
  | _, _ => .error (.missing name)

/-- What a word is on the command line. -/
inductive Word where
  /-- The mark behind which everything is an argument. -/
  | separator
  /-- An option with two dashes, without them. -/
  | long (name : String)
  /-- Options of one letter behind one dash. -/
  | short (letters : List Char)
  | argument

/-- What a word is. A single dash is an argument. -/
def classify (word : String) : Word :=
  match word.toList with
  | ['-', '-'] => .separator
  | '-' :: '-' :: name => .long (String.ofList name)
  | '-' :: c :: letters => .short (c :: letters)
  | _ => .argument

/-- What letters behind a dash ask for, if it is more than `-v`. -/
def readLetters (word : String) (version : Bool) (name : Option Command.Name) :
    List Char → Except UsageError (Option Request)
  | [] => .ok none
  | c :: rest =>
    if c = 'v' then readLetters word version name rest
    else if c = 'h' then .ok (some (.help name))
    else if c = 'V' ∧ version = true then .ok (some .version)
    else .error (.unknownOption word)

/-- Reads the words behind a command. `verbatim` tells that `--` has come. -/
def readRest (name : Command.Name) (verbatim : Bool) (given : Given) :
    List String → Except UsageError Request
  | [] => given.finish name
  | word :: rest =>
    if verbatim then do readRest name true (← given.add name word) rest
    else
      match classify word with
      | .separator => readRest name true given rest
      | .argument => do readRest name false (← given.add name word) rest
      | .long option =>
        if option = "verbose" then readRest name false given rest
        else if option = "help" then .ok (.help (some name))
        else if option = "json" ∧ name.takesJson = true then
          if given.json then .error (.repeatedOption word)
          else readRest name false { given with json := true } rest
        else .error (.unknownOption word)
      | .short letters => do
        match ← readLetters word false (some name) letters with
        | some request => return request
        | none => readRest name false given rest

/-- The words behind `help`. -/
def readHelp : List String → Except UsageError Request
  | [] => .ok (.help none)
  | [word] =>
    match Command.Name.ofText? word with
    | some name => .ok (.help (some name))
    | none => if word = "help" then .ok (.help none) else .error (.unknownCommand word)
  | _ :: word :: _ => .error (.unknownCommand word)

/-- Reads the words up to the command, and behind it by `readRest`. -/
def parse : List String → Except UsageError Request
  | [] => .error .noCommand
  | word :: rest =>
    match classify word with
    | .separator =>
      match rest with
      | [] => .error .noCommand
      | word :: _ => .error (.surplus word)
    | .argument =>
      match Command.Name.ofText? word with
      | some name => readRest name false {} rest
      | none => if word = "help" then readHelp rest else .error (.unknownCommand word)
    | .long option =>
      if option = "verbose" then parse rest
      else if option = "help" then .ok (.help none)
      else if option = "version" then .ok .version
      else .error (.unknownOption word)
    | .short letters => do
      match ← readLetters word true none letters with
      | some request => return request
      | none => parse rest

end Request

end LosslessTree
