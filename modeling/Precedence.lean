import Precedence.Log
import Precedence.Proofs.Account
import Precedence.Proofs.Comments
import Precedence.Proofs.Diagnostics
import Precedence.Proofs.ExactPlaces
import Precedence.Proofs.Joint
import Precedence.Proofs.Leftover
import Precedence.Proofs.OperatorRow
import Precedence.Proofs.Source
import Precedence.Scanner
import Precedence.Proofs.Dispatches
import Precedence.Proofs.Lockstep
import Precedence.Proofs.Range
import Precedence.Proofs.Numbers
import Precedence.Proofs.TextFaults
import Precedence.Proofs.Nesting
import Precedence.Proofs.Uncallable
import Precedence.Proofs.Paths
import Precedence.Proofs.Height
import Precedence.Proofs.Alike
import Precedence.Proofs.Insertion
import Precedence.Proofs.WhiteSpace
import Precedence.Proofs.Occurrence
import Precedence.Proofs.Parenthesised
import Precedence.Proofs.RaisedPower
import Precedence.Proofs.Noninterference
import Precedence.Proofs.Emptiness
import Precedence.Proofs.Lines
import Precedence.Proofs.OperatorSpelling
import Precedence.Proofs.Notation
import Precedence.Proofs.Records
import Precedence.Proofs.Session
import Precedence.Proofs.Lookahead
import Precedence.Proofs.Unreached
