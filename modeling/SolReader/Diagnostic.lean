import SolReader.KindSet
import SolReader.Token.Scan

namespace SolReader

inductive Complaint where
  | unreadable (text : String)
  | extraneous (found : String) (expected : KindSet)
  | missing (expected : KindSet) (found : String)
  | mismatched (found : String) (expected : KindSet)
  | noOption (text : String)
  deriving DecidableEq, Repr

structure Diagnostic where
  place : Place
  complaint : Complaint
  deriving DecidableEq, Repr

namespace Complaint

def quote (text : String) : String :=
  "'" ++ String.join (text.toList.map fun c =>
    if c = '\n' then "\\n" else if c = '\r' then "\\r" else if c = '\t' then "\\t" else c.toString) ++ "'"

def message : Complaint → String
  | .unreadable text => "token recognition error at: " ++ quote text
  | .extraneous found expected => "extraneous input " ++ quote found ++ " expecting " ++ expected.expectation
  | .missing expected found => "missing " ++ expected.expectation ++ " at " ++ quote found
  | .mismatched found expected => "mismatched input " ++ quote found ++ " expecting " ++ expected.expectation
  | .noOption text => "no viable alternative at input " ++ quote text

end Complaint

namespace Diagnostic

def message (diagnostic : Diagnostic) : String :=
  "line " ++ toString diagnostic.place.line ++ ":" ++ toString diagnostic.place.column ++ " " ++
    diagnostic.complaint.message

def ofUnread (region : Unread) : Diagnostic :=
  ⟨region.place,.unreadable region.text⟩

end Diagnostic

end SolReader
