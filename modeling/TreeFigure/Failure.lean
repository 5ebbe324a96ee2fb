/-!
What can go wrong in a run, with the message for the user and the exit status. The statuses are
those of the BSD convention: 64 wrong usage, 65 bad data, 66 no input, 73 no output, 74 failed
input or output, 78 bad configuration.
-/

namespace TreeFigure

inductive Failure where
  | usage (message : String)
  | malformedRecord (message : String)
  | malformedTree (message : String) (offset : Nat)
  | noLeaves
  | lineNotFound (path : String) (index lineCount : Nat)
  | inputUnreadable (path reason : String)
  | outputUnwritable (path reason : String)
  | config (message : String)
  | operationFailed (context reason : String)
  | hostFailed (context reason : String)
  deriving DecidableEq, Repr

namespace Failure

def message : Failure → String
  | .usage message => message
  | .malformedRecord message => "malformed record: " ++ message
  | .malformedTree message offset =>
    "malformed tree at offset " ++ toString offset ++ ": " ++ message
  | .noLeaves => "tree has no leaves"
  | .lineNotFound path index lineCount =>
    "line " ++ toString index ++ " not found in " ++ path ++ " (file has " ++
      toString lineCount ++ " line(s))"
  | .inputUnreadable path reason => "cannot open tree file " ++ path ++ ": " ++ reason
  | .outputUnwritable path reason => "cannot write " ++ path ++ ": " ++ reason
  | .config message => "config error: " ++ message
  | .operationFailed context _ => "operation failed: " ++ context
  | .hostFailed context _ => "I/O error: " ++ context

def exitCode : Failure → Nat
  | .usage _ => 64
  | .malformedRecord _ | .malformedTree _ _ | .noLeaves | .lineNotFound _ _ _ => 65
  | .inputUnreadable _ _ => 66
  | .outputUnwritable _ _ => 73
  | .operationFailed _ _ | .hostFailed _ _ => 74
  | .config _ => 78

/-- The reason that the message leaves out. -/
def cause? : Failure → Option String
  | .operationFailed _ reason | .hostFailed _ reason => some reason
  | _ => none

end Failure

end TreeFigure
