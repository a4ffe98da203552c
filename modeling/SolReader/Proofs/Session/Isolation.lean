import SolReader.Session
import SolReader.Proofs.Parse.Leftover

namespace SolReader

open List

namespace Request

-- The choice of locations made by a request that reads a source.
def located? : Request → Option Bool
  | .parse _ _ located => some located
  | .act _ _ => none

-- On its own the source is read without complaint.
def Clean : Request → Prop
  | .parse text start located => (SolReader.parse text start located).2 = []
  | .act _ _ => True

end Request

namespace Session

-- The session after a number of requests.
def after (session : Session) (requests : List Request) : Session :=
  requests.foldl (fun session request => (session.answer request).1) session

theorem answers_cons (session : Session) (request : Request) (requests : List Request) :
    session.answers (request :: requests) =
      (session.answer request).2 :: (session.answer request).1.answers requests := rfl

theorem answers_append (session : Session) (before later : List Request) :
    session.answers (before ++ later) = session.answers before ++ (session.after before).answers later := by
  induction before generalizing session with
  | nil => rfl
  | cons request before ih =>
    rw [cons_append,answers_cons,answers_cons,ih,cons_append]
    rfl

theorem length_answers (session : Session) (requests : List Request) :
    (session.answers requests).length = requests.length := by
  induction requests generalizing session with
  | nil => rfl
  | cons request requests ih => rw [answers_cons,length_cons,length_cons,ih]

theorem drop_answers (session : Session) (before later : List Request) :
    (session.answers (before ++ later)).drop before.length = (session.after before).answers later := by
  rw [answers_append,drop_left' (length_answers session before)]

theorem parse_located (session : Session) (text start : String) (located : Bool) :
    (session.parse text start located).1.located = located := by
  unfold parse
  split
  · rfl
  · dsimp only
    split <;> rfl

theorem parse_roomy {session : Session} (roomy : Parse.Roomy session.widened) (text start : String) (located : Bool) :
    Parse.Roomy (session.parse text start located).1.widened := by
  unfold parse
  split
  · exact roomy
  · rename_i rule _
    dsimp only
    split <;> exact Reading.resumed_roomy roomy rule text

-- Of what was done before, a source depends on the sets that were left behind, and on them only if it has errors.
theorem parse_clean {session : Session} (roomy : Parse.Roomy session.widened) {text rule : String} {located : Bool}
    (clean : (SolReader.parse text rule located).2 = []) : session.parse text rule located =
      ({ (start.parse text rule located).1 with widened := session.widened },(start.parse text rule located).2) := by
  unfold SolReader.parse at clean
  unfold parse
  cases known : Rule.ofName? rule with
  | none => rfl
  | some rule =>
    rw [known] at clean
    dsimp only at clean ⊢
    rw [Reading.resumed_clean roomy clean,show Reading.resumed start.widened rule text = Reading.ofText rule text from rfl]
    dsimp only
    cases (Reading.ofText rule text).tree.meaning located <;> rfl

theorem apply_kept (session : Session) (places : List Spot) (edit : Edit) :
    (session.apply places edit).located = session.located ∧ (session.apply places edit).widened = session.widened := by
  cases edit <;> exact ⟨rfl,rfl⟩

theorem act_kept {next : Session} {session : Session} {path : List PathStep} {act : Act}
    (done : session.act path act = .ok (next,reply)) :
    next.located = session.located ∧ next.widened = session.widened := by
  unfold Session.act at done
  cases found : session.root.follow path with
  | error fault => simp [found,bind,Except.bind] at done
  | ok place =>
    cases performed : act.perform session.located place.2 with
    | error fault => simp [found,performed,bind,Except.bind] at done
    | ok outcome =>
      simp only [found,performed,bind,Except.bind,pure,Except.pure,Except.ok.injEq,Prod.mk.injEq] at done
      rw [← done.1]
      exact apply_kept session _ _

theorem answer_act_kept (session : Session) (path : List PathStep) (act : Act) :
    (session.answer (.act path act)).1.located = session.located ∧
      (session.answer (.act path act)).1.widened = session.widened := by
  rw [answer]
  cases done : session.act path act with
  | error fault => exact ⟨rfl,rfl⟩
  | ok outcome => exact act_kept done

theorem answer_located (session : Session) (request : Request) :
    (session.answer request).1.located = request.located?.getD session.located := by
  cases request with
  | parse text start located => exact parse_located session text start located
  | act path act => exact (answer_act_kept session path act).1

theorem after_located (session : Session) (requests : List Request) :
    (session.after requests).located = (requests.filterMap Request.located?).getLast?.getD session.located := by
  induction requests generalizing session with
  | nil => rfl
  | cons request requests ih =>
    have step := answer_located session request
    rw [after,foldl_cons,← after,ih,step,filterMap_cons]
    cases request.located? with
    | none => rfl
    | some located => rw [List.getLast?_cons]; rfl

theorem after_roomy {session : Session} (roomy : Parse.Roomy session.widened) (requests : List Request) :
    Parse.Roomy (session.after requests).widened := by
  induction requests generalizing session with
  | nil => exact roomy
  | cons request requests ih =>
    refine ih ?_
    cases request with
    | parse text start located => exact parse_roomy roomy text start located
    | act path act => exact (answer_act_kept session path act).2 ▸ roomy

theorem after_clean {session : Session} (roomy : Parse.Roomy session.widened) {requests : List Request}
    (clean : ∀ request ∈ requests, request.Clean) : (session.after requests).widened = session.widened := by
  induction requests generalizing session with
  | nil => rfl
  | cons request requests ih =>
    have step : (session.answer request).1.widened = session.widened := by
      have own := clean request mem_cons_self
      cases request with
      | parse text start located => rw [answer,parse_clean roomy own]
      | act path act => exact (answer_act_kept session path act).2
    exact (ih (step ▸ roomy) fun other member => clean other (mem_cons_of_mem _ member)).trans step

-- A modifier that is followed by a word which no modifier can have.
def strayWord : Request := .parse "contract C{modifier m virtual function;}" "contractDefinition" false

def name : Request := .parse "a" "identifier" false

theorem strayWord_answered : ((start.answers [strayWord,strayWord]).map (·.1.toBool)) = [false,true] := by
  decide +kernel

end Session

end SolReader
