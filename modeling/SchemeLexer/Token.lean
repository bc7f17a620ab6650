import SchemeLexer.Text.Position
import SchemeLexer.Text.Quoted
/-!
# Token — kinds, tokens, and how a token is written

A token is a kind, the bytes of the source that it was read from, and where they begin.  The written form names all
three: `[start..end] line:column Kind "text"`, the text quoted as `Quoted` says.
-/
namespace SchemeLexer

/-- The kinds of token.  `invalid` is what scanning stops at when the text breaks the grammar, and `endOfInput` what it
stops at otherwise. -/
inductive Kind
  | invalid
  | endOfInput
  | commentDatum
  | identifier
  | openParen
  | closeParen
  | quote
  | backquote
  | comma
  | commaAt
  | dot
  | number
  | string
  | openVector
  | openByteVector
  | boolean
  | directive
  | character
  deriving Repr, DecidableEq

namespace Kind

def name : Kind → String
  | invalid => "Invalid"
  | endOfInput => "EndOfInput"
  | commentDatum => "CommentDatum"
  | identifier => "Identifier"
  | openParen => "OpenParen"
  | closeParen => "CloseParen"
  | quote => "Quote"
  | backquote => "Backquote"
  | comma => "Comma"
  | commaAt => "CommaAt"
  | dot => "Dot"
  | number => "Number"
  | string => "String"
  | openVector => "OpenVector"
  | openByteVector => "OpenByteVector"
  | boolean => "Boolean"
  | directive => "Directive"
  | character => "Character"

def all : List Kind :=
  [invalid, endOfInput, commentDatum, identifier, openParen, closeParen, quote, backquote, comma, commaAt, dot,
    number, string, openVector, openByteVector, boolean, directive, character]

def ofName? (s : String) : Option Kind := all.find? (·.name == s)

/-- Whether no token follows one of this kind. -/
def isTerminal : Kind → Bool
  | invalid | endOfInput => true
  | _ => false

theorem mem_all (k : Kind) : k ∈ all := by cases k <;> decide

end Kind

/-- A token: what it is, the bytes it was read from, and where they begin. -/
structure Token where
  kind     : Kind
  text     : List UInt8
  position : Position
  deriving Repr, DecidableEq

namespace Token

/-- The offset after the last byte. -/
def stop (t : Token) : Nat := t.position.offset + t.text.length

/-- The text as a string, if its bytes are well-formed. -/
def text? (t : Token) : Option String := if Utf8.isValid t.text then some (Utf8.lossy t.text) else none

def display (t : Token) : String :=
  s!"[{t.position.offset}..{t.stop}] {t.position.text} {t.kind.name} {Quoted.string (Utf8.chars t.text)}"

end Token
end SchemeLexer
