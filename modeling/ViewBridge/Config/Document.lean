import ViewBridge.Config.Basic
import ViewBridge.Json.Read
import ViewBridge.Json.Write

namespace ViewBridge

/-- What a format of documents offers: how they are printed and parsed, and how each kind of value is
made into a document and taken out of one. -/
structure Codec (δ : Type) where
  parse : String → Option δ
  pretty : δ → Option String
  natural : Nat → δ
  natural? : δ → Option Nat
  flag : Bool → δ
  flag? : δ → Option Bool
  text : String → δ
  text? : δ → Option String
  /-- A choice, by its name. -/
  variant : String → δ
  variant? (names : List String) : δ → Option String
  map : List (String × δ) → δ
  map? : δ → Option (List (String × δ))
  struct : List (String × δ) → δ
  /-- The values that a document gives to fields of these names. -/
  struct? (names : List String) : δ → Option (String → Option δ)

namespace ClassStyle

def name : ClassStyle → String
  | .container => "container"
  | .wrapper => "wrapper"

def ofName? (name : String) : Option ClassStyle :=
  if name = "container" then some .container else if name = "wrapper" then some .wrapper else none

def names : List String := [container.name, wrapper.name]

end ClassStyle

namespace Config

section Codec

variable {δ : Type} (codec : Codec δ)

def encodeNames (d : Text.Dictionary String) : δ :=
  codec.map (d.entries.map fun entry => (entry.1, codec.text entry.2))

def decodeNames? (d : δ) : Option (Text.Dictionary String) := do
  let entries ← codec.map? d
  let names ← entries.mapM fun entry => (codec.text? entry.2).map (entry.1, ·)
  return .ofList names

def decodeStyle? (d : δ) : Option ClassStyle := (codec.variant? ClassStyle.names d).bind ClassStyle.ofName?

/-- The fields of a configuration, in order. -/
def fields (c : Config) : List (String × δ) := [
  ("indent_width", codec.natural c.indentWidth),
  ("include_comments", codec.flag c.includeComments),
  ("generate_structs", codec.flag c.generateStructs),
  ("generate_state_properties", codec.flag c.generateStateProperties),
  ("class_style", codec.variant c.classStyle.name),
  ("widgets", encodeNames codec c.widgets),
  ("types", encodeNames codec c.types)]

def fieldNames : List String := [
  "indent_width", "include_comments", "generate_structs", "generate_state_properties", "class_style",
  "widgets", "types"]

/-- A field that is not given has its default. -/
def given {α : Type} (decode? : δ → Option α) (default : α) : Option δ → Option α
  | some d => decode? d
  | none => some default

def decode? (d : δ) : Option Config := do
  let field ← codec.struct? fieldNames d
  let base : Config := {}
  return {
    indentWidth := ← given codec.natural? base.indentWidth (field "indent_width")
    includeComments := ← given codec.flag? base.includeComments (field "include_comments")
    generateStructs := ← given codec.flag? base.generateStructs (field "generate_structs")
    generateStateProperties :=
      ← given codec.flag? base.generateStateProperties (field "generate_state_properties")
    classStyle := ← given (decodeStyle? codec) base.classStyle (field "class_style")
    widgets := ← given (decodeNames? codec) base.widgets (field "widgets")
    types := ← given (decodeNames? codec) base.types (field "types") }

/-- The configuration that a text gives. -/
def readWith? (text : String) : Option Config := (codec.parse text).bind (decode? codec)

/-- The text of a configuration. -/
def writeWith (c : Config) : String := (codec.pretty (codec.struct (c.fields codec))).getD "\x7b\x7d"

end Codec

end Config

namespace Json

def entries? (members : List (Option String × Json)) : Option (List (String × Json)) :=
  members.mapM fun member => member.1.map (·, member.2)

/-- The values of fields, by their names in an object or by their places in an array. An object may
have other members, but no field twice, and an array may be too short but not too long. -/
def struct? (names : List String) : Json → Option (String → Option Json)
  | .object members => do
    let known := (← entries? members).filter (names.contains ·.1)
    if (known.map (·.1)).Nodup then some (known.lookup ·) else none
  | .array items => if items.length ≤ names.length then some ((names.zip items).lookup ·) else none
  | _ => none

/-- A choice is its name, alone or as the only key over nothing. -/
def variant? (names : List String) : Json → Option String
  | .string (some name) | .object [(some name, .null)] => if names.contains name then some name else none
  | _ => none

def codec : Codec Json where
  parse := read?
  pretty j := some j.pretty
  natural := .natural
  -- Words of the machine bound the numbers.
  natural?
    | .natural n => if n < UInt64.size then some n else none
    | _ => none
  flag := .bool
  flag?
    | .bool b => some b
    | _ => none
  text := .text
  text?
    | .string text => text
    | _ => none
  variant := .text
  variant? := variant?
  map := .record
  map?
    | .object members => entries? members
    | _ => none
  struct := .record
  struct? := struct?

end Json

def Config.read? (text : String) : Option Config := readWith? Json.codec text

def Config.write (c : Config) : String := c.writeWith Json.codec

end ViewBridge
