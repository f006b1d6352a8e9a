import ViewBridge.Config.Document

namespace ViewBridge.Command

/-- The options of the command line. -/
inductive Flag where
  | config
  | json
  | indent
  | strict
  | output
  | noComments
  | noStructs
  | noState
  | style
  | language
  | help
  | version
  deriving DecidableEq

namespace Flag

def name : Flag → String
  | config => "config"
  | json => "json"
  | indent => "indent"
  | strict => "strict"
  | output => "output"
  | noComments => "no-comments"
  | noStructs => "no-structs"
  | noState => "no-state"
  | style => "style"
  | language => "lang"
  | help => "help"
  | version => "version"

def letter? : Flag → Option Char
  | output => some 'o'
  | help => some 'h'
  | version => some 'V'
  | _ => none

def takesValue : Flag → Bool
  | config | indent | output | style | language => true
  | _ => false

/-- The options that may stand before the action and behind it. -/
def anywhere : List Flag := [config, json, indent, strict, output, help]

end Flag

/-- The languages that a source may be in. -/
inductive Language where
  | markup
  | classes
  deriving DecidableEq

def Language.ofName? (name : String) : Option Language :=
  if name = "kv" then some .markup else if name = "py" then some .classes else none

/-- A number of spaces, which may have a plus sign and must fit a machine word. -/
def width? (text : String) : Option Nat := do
  let digits := match text.toList with
    | '+' :: digits => digits
    | digits => digits
  let n ← Decimal.natOfDigits? 10 digits
  if n < UInt64.size then some n else none

/-- Whether an option may have a value. -/
def Flag.accepts (value : String) : Flag → Bool
  | .config | .output => !value.isEmpty
  | .indent => (width? value).isSome
  | .style => (ClassStyle.ofName? value).isSome
  | .language => (Language.ofName? value).isSome
  | _ => true

/-- The actions of the command line. -/
inductive Verb where
  | kv
  | py
  | kivy
  | fmt
  | tokens
  | ast
  | version
  deriving DecidableEq

namespace Verb

def all : List Verb := [kv, py, kivy, fmt, tokens, ast, version]

def name : Verb → String
  | kv => "kv"
  | py => "py"
  | kivy => "kivy"
  | fmt => "fmt"
  | tokens => "tokens"
  | ast => "ast"
  | version => "version"

def ofName? (name : String) : Option Verb := all.find? (·.name == name)

def flags : Verb → List Flag
  | kv => [.noComments, .noStructs, .noState]
  | py => [.style]
  | tokens | ast => [.language]
  | kivy | fmt | version => []

/-- How many words an action takes: the path of its source, if it has one. -/
def words : Verb → Nat
  | version => 0
  | _ => 1

end Verb

/-- What ends the reading of a command line early. -/
inductive Halt where
  | misuse
  | help
  | version
  deriving DecidableEq

/-- How an argument reads by itself. -/
inductive Argument where
  | word
  /-- The mark behind which all arguments are words. -/
  | wordsOnly
  | long (name : String) (value : Option String)
  | short (letter : Char) (value : Option String)

def Argument.ofText (text : String) : Argument :=
  match text.toList with
  | ['-', '-'] => .wordsOnly
  | '-' :: '-' :: rest =>
    let value := match rest.dropWhile (· ≠ '=') with
      | [] => none
      | _ :: value => some (String.ofList value)
    .long (String.ofList (rest.takeWhile (· ≠ '='))) value
  | ['-', letter] => .short letter none
  | '-' :: letter :: '=' :: value => .short letter (some (String.ofList value))
  | '-' :: letter :: value => .short letter (some (String.ofList value))
  | _ => .word

def Argument.isWord : Argument → Bool
  | .word => true
  | _ => false

/-- What is read of a part of the command line. -/
structure Given where
  values : List (Flag × String) := []
  words : List String := []

namespace Given

def get? (g : Given) (flag : Flag) : Option String := g.values.lookup flag

def has (g : Given) (flag : Flag) : Bool := (g.get? flag).isSome

/-- Sets an option, which must not be set before. -/
def set (g : Given) (flag : Flag) (value : String) : Except Halt Given :=
  if g.has flag || !flag.accepts value then .error .misuse
  else match flag with
    | .help => .error .help
    | .version => .error .version
    | _ => .ok { g with values := (flag, value) :: g.values }

def addWord (g : Given) (limit : Nat) (word : String) : Except Halt Given :=
  if word.isEmpty || limit ≤ g.words.length then .error .misuse
  else .ok { g with words := g.words ++ [word] }

def addWords (g : Given) (limit : Nat) : List String → Except Halt Given
  | [] => .ok g
  | word :: words => do (← g.addWord limit word).addWords limit words

/-- What is set in two parts of a command line; the later part counts. -/
def override (g later : Given) : Given :=
  { values := later.values ++ g.values, words := later.words }

end Given

/-- The option that an argument names, with the value it brings along. -/
def option? (flags : List Flag) : Argument → Option (Flag × Option String)
  | .long name value => (flags.find? (·.name == name)).map (·, value)
  | .short letter value =>
    (flags.find? (·.letter? == some letter)).map fun flag =>
      (flag, if flag.takesValue then value else none)
  | .word | .wordsOnly => none

/-- Reads options and words; where no word is allowed the reading stops at the first one. -/
def readArguments (flags : List Flag) (limit : Nat) (stopAtWord : Bool) (g : Given) :
    List String → Except Halt (Given × List String)
  | [] => .ok (g, [])
  | arg :: args =>
    match Argument.ofText arg with
    | .word =>
      if stopAtWord then .ok (g, arg :: args)
      else do readArguments flags limit stopAtWord (← g.addWord limit arg) args
    | .wordsOnly => do return (← g.addWords limit args, [])
    | option =>
      match option? flags option, args with
      | none, _ => .error .misuse
      | some (flag, some value), args =>
        if flag.takesValue then do
          readArguments flags limit stopAtWord (← g.set flag value) args
        else .error .misuse
      | some (flag, none), [] => if flag.takesValue then .error .misuse else do
          return (← g.set flag "", [])
      | some (flag, none), value :: args =>
        if !flag.takesValue then do
          readArguments flags limit stopAtWord (← g.set flag "") (value :: args)
        else if (Argument.ofText value).isWord then do
          readArguments flags limit stopAtWord (← g.set flag value) args
        else .error .misuse
termination_by args => args.length

/-- A command line that is ready to run. -/
structure Invocation where
  verb : Verb
  given : Given

namespace Invocation

/-- Reads a command line: options, an action, and the options and words of the action. -/
def ofArgs (args : List String) : Except Halt Invocation := do
  let (before, rest) ← readArguments (.version :: Flag.anywhere) 0 true {} args
  match rest with
  | [] => throw .misuse
  | name :: args =>
    match Verb.ofName? name with
    | none => throw (if name = "help" ∧ isHelpTopic args then .help else .misuse)
    | some verb =>
      let (after, _) ← readArguments (verb.flags ++ Flag.anywhere) verb.words false {} args
      if after.words.length = verb.words then return ⟨verb, before.override after⟩
      else throw .misuse
where
  /-- Whether help may be asked for on what the words name. -/
  isHelpTopic : List String → Bool
    | [] => true
    | [topic] => topic == "help" || (Verb.ofName? topic).isSome
    | _ => false

def source (i : Invocation) : String := i.given.words.headD ""

def configPath? (i : Invocation) : Option String := i.given.get? .config

def outputPath? (i : Invocation) : Option String := i.given.get? .output

def style? (i : Invocation) : Option ClassStyle := (i.given.get? .style).bind ClassStyle.ofName?

def language (i : Invocation) : Language :=
  ((i.given.get? .language).bind Language.ofName?).getD .markup

/-- A configuration with what the options change in it. -/
def adjust (i : Invocation) (c : Config) : Config :=
  { c with
    indentWidth := ((i.given.get? .indent).bind width?).getD c.indentWidth
    includeComments := c.includeComments && !i.given.has .noComments
    generateStructs := c.generateStructs && !i.given.has .noStructs
    generateStateProperties := c.generateStateProperties && !i.given.has .noState
    classStyle := i.style?.getD c.classStyle }

end Invocation

end ViewBridge.Command
