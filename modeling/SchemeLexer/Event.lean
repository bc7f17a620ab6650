import SchemeLexer.Error
import SchemeLexer.Token
/-!
# Event — what a scanner reports of its progress

A scanner reports each token when it is scanned, and the error that ends its scan in place of the token.  Events carry
the name of the source, as several scanners may report to one log.
-/
namespace SchemeLexer

inductive Level
  | trace
  | debug
  deriving Repr, DecidableEq

inductive Event
  /-- A token was scanned, at a byte offset. -/
  | scanned (source : String) (kind : Kind) (offset : Nat)
  /-- The scan failed, in a token that begins at a line and a column. -/
  | failed (source : String) (line column : Nat) (error : ScanError)
  deriving Repr, DecidableEq

namespace Event

def level : Event → Level
  | scanned .. => .trace
  | failed .. => .debug

def message : Event → String
  | scanned .. => "token"
  | failed .. => "scan failed"

end Event
end SchemeLexer
