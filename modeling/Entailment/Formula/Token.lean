import Entailment.Text.Blank

/-! Tokens of formula text. Blanks separate tokens; of the spellings that start
at a place the first one of the table counts, and a character that starts no
token ends the stream. -/
namespace Entailment

inductive TokenKind where
  | and | or | not | imp | iff | eq | ne
  | lparen | rparen | comma | colon
  | ident | all | ex
deriving DecidableEq, Repr

namespace TokenKind

/-- How messages call a token of this kind. -/
def text : TokenKind → String
  | .and => "&"
  | .or => "|"
  | .not => "!"
  | .imp => "->"
  | .iff => "<->"
  | .eq => "="
  | .ne => "!="
  | .lparen => "("
  | .rparen => ")"
  | .comma => ","
  | .colon => ":"
  | .ident => "identifier"
  | .all => "\\all"
  | .ex => "\\ex"

end TokenKind

structure Token where
  kind : TokenKind
  spelling : String
  /-- Offset of the first byte in the UTF-8 text. -/
  pos : Nat
deriving DecidableEq, Repr

namespace Token

def text (t : Token) : String := "'" ++ t.spelling ++ "'"

end Token

/-- A character that starts no token, and its byte offset. -/
structure UnknownChar where
  char : Char
  pos : Nat
deriving DecidableEq, Repr

namespace UnknownChar

def message (u : UnknownChar) : String :=
  "Unexpected character '" ++ String.singleton u.char ++ "' at position " ++ toString u.pos

end UnknownChar

/-- What a text is split into. The tokens reach to the end of the text unless an
unknown character stopped them. -/
structure TokenStream where
  tokens : List Token
  stop : Option UnknownChar
deriving DecidableEq, Repr

namespace Token

/-- Identifiers are made of ASCII letters, digits and underscores. -/
def isIdentChar (c : Char) : Bool := c.isAlphanum || c == '_'

/-- All spellings that are no identifiers, a longer one before its prefixes. -/
def spellings : List (List Char × TokenKind) :=
  [("<->".toList, .iff), ("<=>".toList, .iff), ("\\all".toList, .all), ("/all".toList, .all),
   ("\\ex".toList, .ex), ("/ex".toList, .ex), ("->".toList, .imp), ("=>".toList, .imp),
   ("!=".toList, .ne), (['&'], .and), (['|'], .or), (['!'], .not), (['='], .eq),
   (['('], .lparen), ([')'], .rparen), ([','], .comma), ([':'], .colon), (['*'], .all),
   (['?'], .ex)]

/-- A spelling that ends in a letter must not run into an identifier. -/
def isKeyword (spelling : List Char) : Bool :=
  spelling.length > 1 && (spelling.getLast?.any Char.isAlpha)

def startsWith (cs spelling : List Char) : Bool :=
  spelling.isPrefixOf cs &&
    !(isKeyword spelling && ((cs.drop spelling.length).head?.any isIdentChar))

/-- The kind and the spelling of the token that starts a text without leading
blanks. -/
def first? (cs : List Char) : Option (TokenKind × List Char) :=
  if cs.head?.any isIdentChar then some (.ident, cs.takeWhile isIdentChar)
  else (spellings.find? fun s => startsWith cs s.1).map fun s => (s.2, s.1)

/-- Tokens of the rest `cs` of a text, which starts at byte `pos`. Every token
takes a character, so the length of the rest bounds their number. -/
def scanFrom : Nat → Nat → List Char → TokenStream
  | 0, _, _ => ⟨[], none⟩
  | fuel + 1, pos, cs =>
    let pos := pos + Text.byteCount (cs.takeWhile Text.isBlank)
    match cs.dropWhile Text.isBlank with
    | [] => ⟨[], none⟩
    | c :: cs =>
      match first? (c :: cs) with
      | none => ⟨[], some ⟨c, pos⟩⟩
      | some (kind, spelling) =>
        let rest := scanFrom fuel (pos + Text.byteCount spelling) ((c :: cs).drop spelling.length)
        ⟨⟨kind, String.ofList spelling, pos⟩ :: rest.tokens, rest.stop⟩

def scan (text : String) : TokenStream :=
  let cs := text.toList
  scanFrom cs.length 0 cs

end Token

end Entailment
