import Precedence.Scan

/-!
# A scanner driven by hand

The state of a scan that a caller takes step by step: where the scanner stands and what it has
found so far. Running it to the end adds the rest of the stream and may be done again, each time
marking the end once more. In between the caller may look ahead, take text by a pattern of his own
and put in tokens of his own, which then count as the last token when a stray point is judged.
-/

namespace Precedence

/-- Where a scan stands, and what it has found, in order. -/
structure Scanner where
  cursor : Cursor
  found : List Emission
deriving DecidableEq, Repr, Inhabited

namespace Scanner

def ofString (source : String) : Scanner := ⟨.ofString source, []⟩

def tokens (s : Scanner) : List Token := tokensOf s.found

def faults (s : Scanner) : List Fault := faultsOf s.found

def position (s : Scanner) : Position := s.cursor.position

def remainder (s : Scanner) : String := String.ofList s.cursor.rest

def peek? (s : Scanner) : Option Char := s.cursor.rest.head?

def atEnd (s : Scanner) : Bool := s.cursor.rest.isEmpty

/-- Scans what is left of the text. -/
def run (s : Scanner) : Scanner :=
  ⟨s.cursor.toEnd, s.found ++ emissions s.tokens.getLast? s.cursor⟩

def push (s : Scanner) (token : Token) : Scanner :=
  { s with found := s.found ++ [.token token] }

/-- Takes what a pattern claims, without making a token of it. -/
def consume (s : Scanner) (pattern : Pattern) : (String × Span) × Scanner :=
  let n := pattern s.cursor.rest
  (s.cursor.lexeme n, { s with cursor := s.cursor.skip n })

theorem found_run_ofString (source : String) : (ofString source).run.found = scan source := rfl

end Scanner

end Precedence
