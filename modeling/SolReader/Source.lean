import SolReader.Ast.Build

namespace SolReader

-- Line ends as line feeds: a carriage return counts as one, together with the line feed after it.
def unifyLineEnds : List Char → List Char
  | [] => []
  | '\r' :: '\n' :: rest => '\n' :: unifyLineEnds rest
  | character :: rest => (if character == '\r' then '\n' else character) :: unifyLineEnds rest

def readText (content : ByteArray) : Except Fault String :=
  match String.fromUTF8? content with
  | some text => .ok (String.ofList (unifyLineEnds text.toList))
  | none => .error .badEncoding

def parseFile (content? : Option ByteArray) (start : String) (located : Bool) : Meaning × List Diagnostic :=
  match content? with
  | none => (.error .noFile,[])
  | some content =>
    match readText content with
    | .ok text => parse text start located
    | .error fault => (.error fault,[])

end SolReader
