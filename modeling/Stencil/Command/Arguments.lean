import Stencil.Generation.Settings

/-!
# Arguments of the command

Options are written with two dashes. An option with a value takes it from the next argument or, after
an equals sign, from its own; the next argument is no value if it begins with a dash, unless it is
only the dash. No option may be given twice. Nothing but options is taken, and two dashes alone end
them.

Results: without arguments the roots are asked for (`ofArguments_nil`), and nothing is read behind an
argument that is no option (`read_of_plain`).
-/

namespace Stencil

/-- The options with a value. -/
inductive ValueOption where
  | templates | output | threads | extension | primary | secondary | intrinsics | mixer
deriving DecidableEq, Repr

/-- The options without a value. -/
inductive Switch where
  | noIncremental | verbose | failFast | noHeader | json | help
deriving DecidableEq, Repr

/-- The name of an option with a value. -/
def ValueOption.name : ValueOption → String
  | .templates => "templates"
  | .output => "output"
  | .threads => "threads"
  | .extension => "extension"
  | .primary => "primary"
  | .secondary => "secondary"
  | .intrinsics => "intrinsics"
  | .mixer => "mixer"

/-- The option with a value that has the given name. -/
def ValueOption.ofName? (name : String) : Option ValueOption :=
  [ValueOption.templates, .output, .threads, .extension, .primary, .secondary, .intrinsics,
    .mixer].find? fun o => o.name == name

/-- The name of an option without a value. -/
def Switch.name : Switch → String
  | .noIncremental => "no-incremental"
  | .verbose => "verbose"
  | .failFast => "fail-fast"
  | .noHeader => "no-header"
  | .json => "json"
  | .help => "help"

/-- The option without a value that has the given name. -/
def Switch.ofName? (name : String) : Option Switch :=
  [Switch.noIncremental, .verbose, .failFast, .noHeader, .json, .help].find? fun o => o.name == name

/-- The option without a value that has the given letter. -/
def Switch.ofLetter? : Char → Option Switch
  | 'v' => some .verbose
  | 'h' => some .help
  | _ => none

/-- Why the command does not start. -/
inductive Refusal where
  /-- Help is asked for. -/
  | help
  /-- There is no such option. -/
  | unknown (argument : String)
  /-- The option needs a value. -/
  | valueMissing (option : String)
  /-- The option takes no value. -/
  | valueUnwanted (option : String)
  /-- The value does not fit the option. -/
  | valueInvalid (option value : String)
  /-- The option is given twice. -/
  | repeated (option : String)
  /-- The option has to be given. -/
  | required (option : String)
deriving DecidableEq, Repr

/-- The refusal in words. -/
def Refusal.message : Refusal → String
  | .help => "help is asked for"
  | .unknown argument => "there is no option " ++ argument
  | .valueMissing option => "the option " ++ option ++ " needs a value"
  | .valueUnwanted option => "the option " ++ option ++ " takes no value"
  | .valueInvalid option value => "the option " ++ option ++ " cannot have the value " ++ value
  | .repeated option => "the option " ++ option ++ " is given twice"
  | .required option => "the option " ++ option ++ " has to be given"

/-- The options that have been read. Model of `Cli`. -/
structure Given where
  /-- The options with their values. -/
  values : List (ValueOption × String) := []
  /-- The options without a value. -/
  switches : List Switch := []
deriving DecidableEq, Repr

/-- The number that the text is in decimal digits, with or without a plus sign in front, if it is
below the bound. -/
def numberBelow? (bound : Nat) (text : String) : Option Nat :=
  let digits :=
    match text.toList with
    | '+' :: rest => rest
    | cs => cs
  if digits.isEmpty || !digits.all Char.isDigit then none
  else
    let value := digits.foldl (fun n c => 10 * n + (c.toNat - '0'.toNat)) 0
    if value < bound then some value else none

/-- May the option have the value? Roots are not empty, and the number of threads is a number of 64
bits. -/
def ValueOption.accepts (value : String) : ValueOption → Bool
  | .templates | .output => !value.isEmpty
  | .threads => (numberBelow? 18446744073709551616 value).isSome
  | _ => true

namespace Given

/-- The value of an option. -/
def value? (g : Given) (o : ValueOption) : Option String :=
  g.values.lookup o

/-- Is the option given? -/
def has (g : Given) (o : Switch) : Bool :=
  g.switches.contains o

/-- What has been read together with one more option and its value. -/
def withValue (g : Given) (o : ValueOption) (value : String) : Except Refusal Given :=
  if (g.value? o).isSome then .error (.repeated o.name)
  else if !o.accepts value then .error (.valueInvalid o.name value)
  else .ok { g with values := g.values ++ [(o, value)] }

/-- What has been read together with one more option without a value. -/
def withSwitch (g : Given) (o : Switch) : Except Refusal Given :=
  if o == .help then .error .help
  else if g.has o then .error (.repeated o.name)
  else .ok { g with switches := g.switches ++ [o] }

/-- What has been read together with the options of the given letters. -/
def withLetters (g : Given) : List Char → Except Refusal Given
  | [] => .ok g
  | c :: cs =>
    match Switch.ofLetter? c with
    | none => .error (.unknown ("-" ++ c.toString))
    | some o =>
      match g.withSwitch o with
      | .error e => .error e
      | .ok g => g.withLetters cs

end Given

/-- How an argument begins. -/
inductive Argument where
  /-- Two dashes and nothing else. -/
  | stop
  /-- Two dashes, a name and, after an equals sign, a value. -/
  | long (name : String) (value : Option String)
  /-- One dash and letters. -/
  | letters (cs : List Char)
  /-- Anything else. -/
  | plain (text : String)
deriving DecidableEq, Repr

/-- The sort of an argument. -/
def Argument.ofText (text : String) : Argument :=
  match text.toList with
  | ['-', '-'] => .stop
  | '-' :: '-' :: cs =>
    let name := String.ofList (cs.takeWhile (· != '='))
    match cs.dropWhile (· != '=') with
    | [] => .long name none
    | _ :: value => .long name (some (String.ofList value))
  | '-' :: c :: cs => .letters (c :: cs)
  | _ => .plain text

/-- The argument as it is written. -/
def Argument.text : Argument → String
  | .stop => "--"
  | .long name none => "--" ++ name
  | .long name (some value) => "--" ++ name ++ "=" ++ value
  | .letters cs => "-" ++ String.ofList cs
  | .plain text => text

namespace Given

/-- What has been read together with one more argument, and the option whose value has to follow. -/
def withArgument (g : Given) : Argument → Except Refusal (Given × Option ValueOption)
  | .long name value =>
    match ValueOption.ofName? name, Switch.ofName? name, value with
    | some o, _, some value => (g.withValue o value).map (·, none)
    | some o, _, none => .ok (g, some o)
    | none, some o, none => (g.withSwitch o).map (·, none)
    | none, some o, some _ => .error (.valueUnwanted o.name)
    | none, none, _ => .error (.unknown (Argument.long name value).text)
  | .letters cs => (g.withLetters cs).map (·, none)
  | a => .error (.unknown a.text)

/-- Reads arguments after those that have been read. If an option still has no value the next
argument must be it. -/
def read (g : Given) : Option ValueOption → List String → Except Refusal Given
  | none, [] => .ok g
  | some o, [] => .error (.valueMissing o.name)
  | some o, arg :: rest =>
    match Argument.ofText arg with
    | .plain value =>
      match g.withValue o value with
      | .error e => .error e
      | .ok g => g.read none rest
    | _ => .error (.valueMissing o.name)
  | none, arg :: rest =>
    match Argument.ofText arg with
    | .stop =>
      match rest with
      | [] => .ok g
      | next :: _ => .error (.unknown next)
    | a =>
      match g.withArgument a with
      | .error e => .error e
      | .ok (g, open?) => g.read open? rest

theorem read_of_plain {g : Given} {arg text : String} {rest : List String}
    (h : Argument.ofText arg = .plain text) :
    g.read none (arg :: rest) = .error (.unknown text) := by
  simp [Given.read, h, withArgument, Argument.text]

/-- The value of an option that has to be given. -/
def required (g : Given) (o : ValueOption) : Except Refusal String :=
  match g.value? o with
  | some value => .ok value
  | none => .error (.required o.name)

end Given

/-- What the command has been asked for. -/
structure Request where
  /-- The settings of the run. -/
  settings : Settings
  /-- Is the summary written for programs? -/
  json : Bool
deriving DecidableEq, Repr

/-- What options ask for. A run is the same with any number of threads, and tells the same whether
or not it is verbose. Model of `config`. -/
def Request.ofGiven (g : Given) : Except Refusal Request := do
  let templates ← g.required .templates
  let output ← g.required .output
  let standard : Vocabulary := {}
  return {
    settings := {
      templateRoot := ⟨templates⟩
      outputRoot := ⟨output⟩
      incremental := !g.has .noIncremental
      failFast := g.has .failFast
      extension := Settings.bareExtension ((g.value? .extension).getD "java")
      header := !g.has .noHeader
      vocabulary := {
        primary := (g.value? .primary).getD standard.primary
        secondary := (g.value? .secondary).getD standard.secondary
        intrinsics := (g.value? .intrinsics).getD standard.intrinsics
        mixer := (g.value? .mixer).getD standard.mixer } }
    json := g.has .json }

/-- What arguments ask for. -/
def Request.ofArguments (args : List String) : Except Refusal Request := do
  Request.ofGiven (← Given.read {} none args)

theorem ofArguments_nil : Request.ofArguments [] = .error (.required "templates") := rfl

end Stencil
