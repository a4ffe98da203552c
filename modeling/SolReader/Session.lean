import SolReader.Session.Path
import SolReader.Source

namespace SolReader

structure Session where
  root : Value
  located : Bool
  -- Pairs of places that hold one and the same thing, so that an edit in one is seen in the other.
  links : List (List Spot × List Spot)
  -- What the sources read so far have widened.
  widened : List (Label × KindSet)
  deriving Repr

inductive Supply where
  | plain (value : Value)
  -- A node with the given fields. It belongs to no text, so it cannot be had with locations.
  | node (fields : Fields)
  deriving Repr

inductive Act where
  | get
  | keys
  | set (name : String) (supply : Supply)
  | append (supply : Supply)
  | delete (name : String)
  | visit (types : List String)
  | outline
  deriving Repr

inductive Request where
  | parse (text start : String) (located : Bool)
  | act (path : List PathStep) (act : Act)
  deriving Repr

inductive Reply where
  | kind (name : String)
  | value (value : Value)
  | keys (names : List String)
  | length (length : Nat)
  | visit (nodes : List Fields) (returned : Value)
  | outline (outline : Outline)
  deriving Repr

inductive Edit where
  | unchanged
  | field (name : String) (changed : Value)
  | entry (changed : Value)
  deriving Repr

namespace Supply

def build (located : Bool) : Supply → Except Fault Value
  | .plain value => .ok value
  | .node fields => if located then .error (.noPart .nothing "start") else .ok (.node (Fields.ofList fields))

end Supply

namespace Value

def kind (value : Value) : Except Fault String :=
  match value with
  | .node fields => Fields.typeName fields
  | other => .ok other.shape.word

def keys : Value → Except Fault (List String)
  | .node fields | .record fields => .ok (Fields.names fields)
  | other => .error (.noPart other.shape "keys")

def withField (value : Value) (name : String) (new : Value) : Except Fault Value :=
  match value with
  | .node fields => .ok (.node (Fields.set fields name new))
  | .record fields => .ok (.record (Fields.set fields name new))
  | .list _ => .error .namedPlace
  | other => .error (.unassignable other.shape)

def withoutField (value : Value) (name : String) : Except Fault Value :=
  match value with
  | .node fields =>
    if (Fields.get? fields name).isSome then .ok (.node (Fields.erase fields name)) else .error (.noField name)
  | .record fields =>
    if (Fields.get? fields name).isSome then .ok (.record (Fields.erase fields name)) else .error (.noField name)
  | .list _ => .error .namedPlace
  | other => .error (.unremovable other.shape)

def withEntry (value : Value) (new : Value) : Except Fault Value :=
  match value with
  | .list items => .ok (.list (items ++ [new]))
  | .node _ => .error (.noField "append")
  | other => .error (.noPart other.shape "append")

def length : Value → Nat
  | .list items => items.length
  | _ => 0

end Value

def Act.perform (located : Bool) (found : Value) : Act → Except Fault (Edit × Reply)
  | .get => .ok (.unchanged,.value found)
  | .keys => do return (.unchanged,.keys (← found.keys))
  | .set name supply => do
    let changed ← found.withField name (← supply.build located)
    return (.field name changed,.keys (← changed.keys))
  | .append supply => do
    let changed ← found.withEntry (← supply.build located)
    return (.entry changed,.length changed.length)
  | .delete name => do
    let changed ← found.withoutField name
    return (.field name changed,.keys (← changed.keys))
  | .visit types => do return (.unchanged,.visit (← found.visited types) found.afterVisit)
  | .outline => do return (.unchanged,.outline (← Outline.ofValue found))

namespace Session

def start : Session := ⟨.null,false,[],[]⟩

def twins (session : Session) (places : List Spot) : List (List Spot) :=
  let across (one other : List Spot) : Option (List Spot) :=
    if one.isPrefixOf places then some (other ++ places.drop one.length) else none
  places :: session.links.filterMap fun (left,right) => (across left right).or (across right left)

def write (session : Session) (places : List Spot) (new : Value) : Session :=
  { session with root := (session.twins places).foldl (fun root twin => root.putAt new twin) session.root }

def unlink (session : Session) (places : List Spot) (name : String) : Session :=
  let fields := (session.twins places).map (· ++ [.field name])
  { session with links := session.links.filter fun (left,right) =>
      !fields.any fun field => field.isPrefixOf left || field.isPrefixOf right }

def apply (session : Session) (places : List Spot) : Edit → Session
  | .unchanged => session
  | .field name changed => (session.write places changed).unlink places name
  | .entry changed => session.write places changed

def act (session : Session) (path : List PathStep) (act : Act) : Except Fault (Session × Reply) := do
  let (places,found) ← session.root.follow path
  let (edit,reply) ← act.perform session.located found
  return (session.apply places edit,reply)

-- Reads a new source. The old tree is gone even if the new source has none.
def parse (session : Session) (text start : String) (located : Bool) :
    Session × Except Fault Reply × List Diagnostic :=
  match Rule.ofName? start with
  | none => (⟨.null,located,[],session.widened⟩,.error (.unknownRule start),[])
  | some rule =>
    let reading := Reading.resumed session.widened rule text
    match reading.tree.meaning located with
    | .ok value => (⟨value,located,value.shared [],reading.widened⟩,value.kind.map .kind,reading.diagnostics)
    | .error fault => (⟨.null,located,[],reading.widened⟩,.error fault,reading.diagnostics)

-- Reads a new source from a file. What is missing or cannot be decoded is refused before anything is read, and then the
-- session stays as it is.
def parseFile (session : Session) (content? : Option ByteArray) (start : String) (located : Bool) :
    Session × Except Fault Reply × List Diagnostic :=
  match content? with
  | none => (session,.error .noFile,[])
  | some content =>
    match readText content with
    | .ok text => session.parse text start located
    | .error fault => (session,.error fault,[])

def answer (session : Session) : Request → Session × Except Fault Reply × List Diagnostic
  | .parse text start located => session.parse text start located
  | .act path act =>
    match session.act path act with
    | .ok (next,reply) => (next,.ok reply,[])
    | .error fault => (session,.error fault,[])

def answers (session : Session) : List Request → List (Except Fault Reply × List Diagnostic)
  | [] => []
  | request :: requests =>
    let (next,reply) := session.answer request
    reply :: next.answers requests

end Session

end SolReader
