import SchemeLexer.Scanner
/-!
# Session — a scanner called in any order

Two calls bring a token: the iterator's, which ends with the stream, and the pull, which never does.  A session is a
list of such calls, each on the scanner that the last one left.
-/
namespace SchemeLexer

/-- The calls that bring a token: that of the iterator, and the pull itself. -/
inductive Call
  | next
  | pull
  deriving Repr, DecidableEq

namespace Scanner

/-- The answer to a call, and the scanner after it.  Where the iterator has no answer it leaves the scanner as it is. -/
def call (s : Scanner) : Call → Option Token × Scanner
  | .next =>
    match s.next? with
    | some x => (some x.token, x.scanner)
    | none => (none, s)
  | .pull => (some s.pull.token, s.pull.scanner)

/-- The answers to one call after the other. -/
def answers : Scanner → List Call → List (Option Token)
  | _, [] => []
  | s, c :: calls => (s.call c).1 :: answers (s.call c).2 calls

/-- The scanner after one call and the other. -/
def after : Scanner → List Call → Scanner
  | s, [] => s
  | s, c :: calls => after (s.call c).2 calls

end Scanner
end SchemeLexer
