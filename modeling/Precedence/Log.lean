import Precedence.Parse

/-!
# The log of a parse

A parse of a text can be followed record by record: the text, every token and fault as scanning
finds it, the number of tokens, every rule as the parser applies it, and how it ended. A fault
found in scanning ends the log, since the parser is then never started.
-/

namespace Precedence

/-- How much a reader has to want to know to be shown a record. -/
inductive LogLevel where
  | debug
  | trace
deriving DecidableEq, Repr, Inhabited

def LogLevel.name : LogLevel → String
  | debug => "debug"
  | trace => "trace"

structure LogRecord where
  level : LogLevel
  message : String
deriving DecidableEq, Repr, Inhabited

namespace LogRecord

def ofEmission : Emission → LogRecord
  | .fault fault => ⟨.debug, "lexical error: " ++ fault.message⟩
  | .token token => ⟨.trace, "token " ++ token.display⟩

def ofDispatch : Dispatch → LogRecord
  | .begins token power => ⟨.trace, "nud " ++ token.display ++ " at " ++ power.name⟩
  | .continues token power => ⟨.trace, "led " ++ token.display ++ " at " ++ power.name⟩

def ofResult : Except Fault Expr → LogRecord
  | .ok result => ⟨.debug, "parsed " ++ toString result.count ++ " nodes"⟩
  | .error fault => ⟨.debug, "parse failed: " ++ fault.message⟩

end LogRecord

/-- Every record of the parse of a text, in order. -/
def parseLog (maxDepth : Nat) (source : String) : List LogRecord :=
  let found := scan source
  let scanned := ⟨.debug, "parsing " ++ quoted source⟩ :: found.map LogRecord.ofEmission
  if !(faultsOf found).isEmpty then scanned
  else
    let tokens := tokensOf found
    let outcome := runTokens .arithmetic maxDepth tokens
    scanned ++ ⟨.debug, "tokenized " ++ toString tokens.length ++ " tokens"⟩ ::
      (outcome.dispatches.map LogRecord.ofDispatch ++ [LogRecord.ofResult outcome.result])

end Precedence
