namespace SolReader

structure CharClass where
  ranges : List (Char × Char)
  inverted : Bool
  deriving DecidableEq, Repr

namespace CharClass

def contains (cls : CharClass) (c : Char) : Bool :=
  cls.ranges.any (fun (low,high) => low ≤ c && c ≤ high) != cls.inverted

def single (c : Char) : CharClass := ⟨[(c,c)],false⟩

def among (ranges : List (Char × Char)) : CharClass := ⟨ranges,false⟩

def except (chars : List Char) : CharClass := ⟨chars.map fun c => (c,c),true⟩

def any : CharClass := ⟨[],true⟩

end CharClass

-- A pattern that has become `never` cannot match any continuation, and a nullable one matches what has been read so far.
inductive Pattern where
  | never
  | empty
  | char (cls : CharClass)
  | seq (first second : Pattern)
  | alt (first second : Pattern)
  | star (body : Pattern)
  deriving DecidableEq, Repr, Inhabited

namespace Pattern

-- One pattern after another; a pattern after `never` is never reached.
def andThen : Pattern → Pattern → Pattern
  | .never, _ => .never
  | _, .never => .never
  | .empty, q => q
  | p, .empty => p
  | p, q => .seq p q

def orElse : Pattern → Pattern → Pattern
  | .never, q => q
  | p, .never => p
  | p, q => .alt p q

def nullable : Pattern → Bool
  | .never => false
  | .empty => true
  | .char _ => false
  | .seq p q => p.nullable && q.nullable
  | .alt p q => p.nullable || q.nullable
  | .star _ => true

def derive (c : Char) : Pattern → Pattern
  | .never => .never
  | .empty => .never
  | .char cls => if cls.contains c then .empty else .never
  | .seq p q =>
    if p.nullable then ((p.derive c).andThen q).orElse (q.derive c) else (p.derive c).andThen q
  | .alt p q => (p.derive c).orElse (q.derive c)
  | .star p => (p.derive c).andThen (.star p)

def isNever : Pattern → Bool
  | .never => true
  | _ => false

def accepts (p : Pattern) : List Char → Bool
  | [] => p.nullable
  | c :: cs => (p.derive c).accepts cs

def one (c : Char) : Pattern := .char (.single c)

def among (ranges : List (Char × Char)) : Pattern := .char (.among ranges)

def word (text : String) : Pattern :=
  text.toList.foldr (fun c rest => (one c).andThen rest) .empty

def sequence (parts : List Pattern) : Pattern :=
  parts.foldr andThen .empty

def anyOf (choices : List Pattern) : Pattern :=
  choices.foldr orElse .never

def words (texts : List String) : Pattern :=
  anyOf (texts.map word)

def optional (p : Pattern) : Pattern := p.orElse .empty

def many1 (p : Pattern) : Pattern := p.andThen (.star p)

end Pattern

end SolReader
