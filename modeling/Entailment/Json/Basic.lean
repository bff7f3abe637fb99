/-! JSON values and the two ways to write them: on one line, and indented. -/
namespace Entailment

/-- A JSON value. Numbers keep their spelling, and fields their order. A string
or a name is `none` if an escape in it leaves half of a surrogate pair. -/
inductive Json where
  | null
  | bool (b : Bool)
  | number (spelling : String)
  | string (text : Option String)
  | array (items : List Json)
  | object (fields : List (Option String × Json))
deriving Inhabited

namespace Json

def ofString (s : String) : Json := .string (some s)

def ofNat (n : Nat) : Json := .number (toString n)

/-- An object with the given fields in order. -/
def ofFields (fields : List (String × Json)) : Json :=
  .object (fields.map fun (name, value) => (some name, value))

def ofOption (f : α → Json) : Option α → Json
  | some a => f a
  | none => .null

mutual

/-- How many brackets are open at once where the nesting is deepest. -/
def depth : Json → Nat
  | .array items => depthOfItems items + 1
  | .object fields => depthOfFields fields + 1
  | _ => 0

def depthOfItems : List Json → Nat
  | [] => 0
  | item :: items => max item.depth (depthOfItems items)

def depthOfFields : List (Option String × Json) → Nat
  | [] => 0
  | (_, value) :: fields => max value.depth (depthOfFields fields)

end

def hexDigit (n : Nat) : Char := if n < 10 then Char.ofNat (48 + n) else Char.ofNat (87 + n)

/-- A character inside a string. Only quotes, backslashes and control characters
need an escape, and the common ones have a short form. -/
def escape (c : Char) : List Char :=
  match c with
  | '"' => ['\\', '"']
  | '\\' => ['\\', '\\']
  | '\x08' => ['\\', 'b']
  | '\x0c' => ['\\', 'f']
  | '\n' => ['\\', 'n']
  | '\r' => ['\\', 'r']
  | '\t' => ['\\', 't']
  | c =>
    if c.toNat < 32 then
      ['\\', 'u', '0', '0', hexDigit (c.toNat / 16), hexDigit (c.toNat % 16)]
    else [c]

def quote (s : String) : String :=
  "\"" ++ String.ofList (s.toList.flatMap escape) ++ "\""

/-- A broken string is written as the empty one. -/
def quote? (s : Option String) : String := quote (s.getD "")

mutual

/-- Text without any blank between the tokens. -/
def render : Json → String
  | .null => "null"
  | .bool true => "true"
  | .bool false => "false"
  | .number spelling => spelling
  | .string s => quote? s
  | .array items => "[" ++ ",".intercalate (renderItems items) ++ "]"
  | .object fields => "\x7b" ++ ",".intercalate (renderFields fields) ++ "\x7d"

def renderItems : List Json → List String
  | [] => []
  | item :: items => render item :: renderItems items

def renderFields : List (Option String × Json) → List String
  | [] => []
  | (name, value) :: fields => (quote? name ++ ":" ++ render value) :: renderFields fields

end

/-- A line break and two blanks for each level. -/
def lineBreak (level : Nat) : String := "\n" ++ String.ofList (List.replicate (2 * level) ' ')

/-- Brackets around items that stand on lines of their own. -/
def enclose (opening closing : String) (level : Nat) (items : List String) : String :=
  if items.isEmpty then opening ++ closing
  else
    let inner := lineBreak (level + 1)
    opening ++ inner ++ ("," ++ inner).intercalate items ++ lineBreak level ++ closing

mutual

/-- Text with every item and field on a line of its own. -/
def renderIndented (level : Nat) : Json → String
  | .null => "null"
  | .bool true => "true"
  | .bool false => "false"
  | .number spelling => spelling
  | .string s => quote? s
  | .array items => enclose "[" "]" level (renderIndentedItems (level + 1) items)
  | .object fields => enclose "\x7b" "\x7d" level (renderIndentedFields (level + 1) fields)

def renderIndentedItems (level : Nat) : List Json → List String
  | [] => []
  | item :: items => renderIndented level item :: renderIndentedItems level items

def renderIndentedFields (level : Nat) : List (Option String × Json) → List String
  | [] => []
  | (name, value) :: fields =>
    (quote? name ++ ": " ++ renderIndented level value) :: renderIndentedFields level fields

end

end Json

end Entailment
