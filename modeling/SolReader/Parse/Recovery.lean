import SolReader.Parse.State

namespace SolReader

inductive Cause where
  | mismatched
  | noOption (offending : Token)
  deriving DecidableEq, Repr

namespace Parse

def report (parse : Parse) (place : Place) (complaint : Complaint) : Parse :=
  if parse.recovering then parse
  else { parse with recovering := true, diagnostics := ⟨place,complaint⟩ :: parse.diagnostics }

-- The text from one token to another, comments included and the end of the text left out.
def textBetween (source : List Token) (first last : Token) : String :=
  if first.kind = .eof then first.text
  else String.join ((source.filter fun token =>
    first.offset ≤ token.offset && token.offset ≤ last.offset && token.kind != .eof).map Token.text)

def reportExtraneous (parse : Parse) : Parse :=
  parse.report parse.input.current.place (.extraneous parse.input.current.text parse.expected)

def dropOne? (parse : Parse) : Parse × Bool :=
  let parse := parse.look 1
  if parse.expected.contains parse.input.second.kind then (parse.reportExtraneous.consume.settle,true)
  else (parse,false)

-- The token made up for one that is expected here. At the end of the text it is placed at the last token taken.
def madeUp (parse : Parse) : Token :=
  let nearby := if parse.input.current.kind = .eof then parse.previous.getD parse.input.current
    else parse.input.current
  .madeUp (parse.expected.toList.headD .eof) nearby.place

def skipTo (parse : Parse) (kinds : KindSet) : Parse :=
  (parse.input.ahead.takeWhile fun token => token.kind != .eof && !kinds.contains token.kind).foldl
    (fun parse _ => parse.consume) parse

-- Gives the current rule up at a label. If that happens at the same label again before a token was taken, one is
-- dropped in any case.
def giveUp (parse : Parse) (label : Label) : Parse :=
  let parse := if parse.failedAfter = some parse.taken && parse.failedLabels.contains label then parse.consume
    else parse
  let parse := { parse with failedAfter := some parse.taken, failedLabels := label :: parse.failedLabels }
  (parse.skipTo parse.resumable).goto []

def fail (source : List Token) (parse : Parse) (label : Label) : Cause → Parse
  | .mismatched =>
    (parse.report parse.input.current.place
      (.mismatched parse.input.current.text parse.expected)).giveUp label
  | .noOption offending =>
    let parse := if !parse.recovering && parse.input.current.kind != .eof then parse.look parse.input.later.length
      else parse
    (parse.report offending.place
      (.noOption (textBetween source parse.input.current offending))).giveUp label

-- Before a choice, an optional part or a loop: a token that cannot come here is dropped, or else the rule is given up.
def checkEntry (parse : Parse) : Parse × Bool :=
  let next := parse.next
  if parse.recovering || next.kinds.contains parse.input.current.kind || next.ends then (parse,true)
  else parse.dropOne?

-- After a round of a loop: tokens that can neither come here nor anywhere later are dropped.  What is accepted here then
-- stays acceptable at this label, for the rest of this text and in all texts read later.
def checkRound (parse : Parse) (label : Label) : Parse :=
  let next := parse.next
  if parse.recovering || next.kinds.contains parse.input.current.kind || next.ends then parse
  else
    let parse := parse.reportExtraneous
    let kinds := next.kinds ∪ parse.resumable
    { parse with widened := (label,kinds) :: parse.widened }.skipTo kinds

end Parse

end SolReader
