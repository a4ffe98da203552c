namespace SolReader.Text

def isBlank (character : Char) : Bool :=
  let code := character.toNat
  (0x9 ≤ code && code ≤ 0xd) || (0x1c ≤ code && code ≤ 0x20) || code == 0x85 || code == 0xa0 ||
    code == 0x1680 || (0x2000 ≤ code && code ≤ 0x200a) || code == 0x2028 || code == 0x2029 ||
    code == 0x202f || code == 0x205f || code == 0x3000

def endsLine (character : Char) : Bool :=
  let code := character.toNat
  (0xa ≤ code && code ≤ 0xd) || (0x1c ≤ code && code ≤ 0x1e) || code == 0x85 || code == 0x2028 || code == 0x2029

def inFront (character : Char) : List (List Char) → List (List Char)
  | [] => [[character]]
  | piece :: pieces => (character :: piece) :: pieces

-- The lines of a text with their ends. A carriage return and the line feed after it are one end.
def lines : List Char → List (List Char)
  | [] => []
  | '\r' :: '\n' :: rest => ['\r','\n'] :: lines rest
  | character :: rest => if endsLine character then [character] :: lines rest else inFront character (lines rest)

-- The words of a text, each with the blanks after it. Blanks at the beginning are a word of their own.
def words : List Char → List (List Char)
  | [] => []
  | [character] => [[character]]
  | character :: next :: rest =>
    if isBlank character && !isBlank next then [character] :: words (next :: rest)
    else inFront character (words (next :: rest))

end SolReader.Text
