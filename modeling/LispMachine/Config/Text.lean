import LispMachine.Config
import LispMachine.Json

/-!
# Settings as text

Settings are written as a JSON object with any of the fields, each at most once;
fields that are left out keep their default and unknown fields are passed over.
An array gives the fields in their fixed order and may stop early.
-/

namespace LispMachine

/-- The fields of the settings. -/
inductive ConfigField where
  | arenaSize
  | maxArenas
  | maxFrames
  | collects
  | gcThreshold
  | trace
deriving DecidableEq

namespace ConfigField

/-- The fields in their fixed order. -/
def all : List ConfigField := [arenaSize, maxArenas, maxFrames, collects, gcThreshold, trace]

/-- The name of a field in the text. -/
def key : ConfigField → String
  | arenaSize => "arena_size"
  | maxArenas => "max_arenas"
  | maxFrames => "max_frames"
  | collects => "gc_enabled"
  | gcThreshold => "gc_threshold"
  | trace => "trace"

/-- Reads the value of a field into the settings. -/
def read (config : Config) : ConfigField → Json.Parse Config
  | arenaSize => do return { config with arenaSize := ← Json.natural }
  | maxArenas => do return { config with maxArenas := ← Json.natural? }
  | maxFrames => do return { config with maxFrames := ← Json.natural }
  | collects => do return { config with collects := ← Json.boolean }
  | gcThreshold => do return { config with gcThreshold := ← Json.natural }
  | trace => do return { config with trace := ← Json.boolean }

end ConfigField

namespace Config

/-- Reads one member at its opening mark; `more` reads those after it. -/
def member (more : List ConfigField → Config → Json.Parse Config) (seen : List ConfigField)
    (config : Config) : Json.Parse Config := do
  Json.advance
  let key ← Json.string
  match ConfigField.all.find? fun field => field.key == key with
  | none => do
      Json.colon
      Json.skipValue
      more seen config
  | some field =>
      if field ∈ seen then Json.failHere .mismatch s!"duplicate field `{key}`"
      else do
        Json.colon
        let config ← field.read config
        more (field :: seen) config

/-- Reads at most `count` members of an object, after its opening bracket. -/
def members : Nat → Bool → List ConfigField → Config → Json.Parse Config
  | 0, _, _, _ => Json.endInside .object
  | count + 1, first, seen, config => do
      match ← Json.peekToken with
      | none => Json.endInside .object
      | some '\x7d' => do
          Json.advance
          return config
      | some x =>
          if first then
            if x = '\x22' then member (members count false) seen config
            else Json.failAhead .malformed "key must be a string"
          else if x = ',' then
            Json.advance
            match ← Json.peekToken with
            | some '\x22' => member (members count false) seen config
            | some '\x7d' => Json.failAhead .malformed "trailing comma"
            | some _ => Json.failAhead .malformed "key must be a string"
            | none => Json.endInValue
          else Json.failAhead .malformed "expected `,` or `\x7d`"

/-- Reads the items of an array, after its opening bracket, into the fields. -/
def items : Bool → List ConfigField → Config → Json.Parse Config
  | _, [], config => do
      match ← Json.peekToken with
      | some ']' => do
          Json.advance
          return config
      | some ',' => do
          Json.advance
          if (← Json.peekToken) = some ']' then Json.failAhead .malformed "trailing comma"
          else Json.failAhead .malformed "trailing characters"
      | some _ => Json.failAhead .malformed "trailing characters"
      | none => Json.endInside .array
  | first, field :: fields, config => do
      match ← Json.peekToken with
      | none => Json.endInside .array
      | some ']' => do
          Json.advance
          return config
      | some x =>
          if first then
            let config ← field.read config
            items false fields config
          else if x = ',' then
            Json.advance
            match ← Json.peekToken with
            | some ']' => Json.failAhead .malformed "trailing comma"
            | some _ => do
                let config ← field.read config
                items false fields config
            | none => Json.endInValue
          else Json.failAhead .malformed "expected `,` or `]`"

/-- Reads settings. -/
def parse : Json.Parse Config := do
  let config ←
    match ← Json.peekToken with
    | none => Json.endInValue
    | some '\x7b' => do
        Json.advance
        members ((← Json.remaining) + 1) true [] {}
    | some '[' => do
        Json.advance
        items true ConfigField.all {}
    | some _ => Json.refuse "struct VmConfig"
  Json.finish
  return config

/-- The settings that a text describes, or the first fault of the text. -/
def ofText (text : String) : Except Json.Fault Config :=
  match parse (.ofText text) with
  | .ok config _ => .ok config
  | .error fault _ => .error fault

end Config

end LispMachine
