import SolReader.Kind

namespace SolReader

-- The binary digit at a kind's place says whether the kind is in the set.
structure KindSet where
  bits : Nat
  deriving DecidableEq, Repr, Inhabited

namespace KindSet

def empty : KindSet := ⟨0⟩

def contains (set : KindSet) (kind : Kind) : Bool :=
  set.bits.testBit kind.ctorIdx

def insert (set : KindSet) (kind : Kind) : KindSet :=
  ⟨set.bits ||| (1 <<< kind.ctorIdx)⟩

def union (left right : KindSet) : KindSet :=
  ⟨left.bits ||| right.bits⟩

def inter (left right : KindSet) : KindSet :=
  ⟨left.bits &&& right.bits⟩

def isEmpty (set : KindSet) : Bool :=
  set.bits == 0

def ofList (kinds : List Kind) : KindSet :=
  kinds.foldl insert empty

def toList (set : KindSet) : List Kind :=
  Kind.all.filter set.contains

def expectation (set : KindSet) : String :=
  match set.toList with
  | [] => "\x7b\x7d"
  | [kind] => kind.expectation
  | kinds => "\x7b" ++ ", ".intercalate (kinds.map Kind.expectation) ++ "\x7d"

instance : EmptyCollection KindSet := ⟨empty⟩
instance : Union KindSet := ⟨union⟩

end KindSet

end SolReader
