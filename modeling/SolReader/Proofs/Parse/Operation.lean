import SolReader.Parse.Step
import SolReader.Proofs.Token.Spelling

namespace SolReader

namespace Input

variable {input : Input}

theorem atEnd_iff (closed : Token.Closed input.ahead) : input.atEnd = true ↔ input.current.kind = .eof := by
  obtain ⟨current,later⟩ := input
  cases later with
  | nil => simpa [atEnd,ahead,Token.Closed] using closed
  | cons next rest =>
    have passed : current.kind ≠ .eof := closed.1
    simp [atEnd,passed]

theorem advance_of_atEnd (ended : input.atEnd = true) : input.advance = input := by
  obtain ⟨current,later⟩ := input
  cases later with
  | nil => rfl
  | cons next rest => simp [atEnd] at ended

theorem ahead_advance (more : input.atEnd = false) : input.ahead = input.current :: input.advance.ahead := by
  obtain ⟨current,later⟩ := input
  cases later with
  | nil => simp [atEnd] at more
  | cons next rest => rfl

theorem later_advance (more : input.atEnd = false) : input.later.length = input.advance.later.length + 1 := by
  obtain ⟨current,later⟩ := input
  cases later with
  | nil => simp [atEnd] at more
  | cons next rest => rfl

theorem later_advance_le (input : Input) : input.advance.later.length ≤ input.later.length := by
  obtain ⟨current,later⟩ := input
  cases later <;> simp [advance]

theorem current_advance (input : Input) : input.advance.current = input.second := by
  rw [advance,second]
  cases input.later <;> rfl

theorem closed_advance (closed : Token.Closed input.ahead) : Token.Closed input.advance.ahead := by
  obtain ⟨current,later⟩ := input
  cases later with
  | nil => exact closed
  | cons next rest => exact closed.2

end Input

namespace Parse

variable {first second third left right : Parse}

structure Alike (left right : Parse) : Prop where
  frame : left.frame = right.frame
  callers : left.callers = right.callers
  input : left.input = right.input

theorem Alike.refl (parse : Parse) : Alike parse parse := ⟨rfl,rfl,rfl⟩

theorem Alike.trans (one : Alike first second) (two : Alike second third) : Alike first third :=
  ⟨one.frame.trans two.frame,one.callers.trans two.callers,one.input.trans two.input⟩

theorem Alike.goto (alike : Alike left right) (todo : Todo) : Alike (left.goto todo) (right.goto todo) :=
  ⟨by simp only [Parse.goto,alike.frame],alike.callers,alike.input⟩

theorem Alike.add (alike : Alike left right) (tree : Tree) : Alike (left.add tree) (right.add tree) :=
  ⟨by simp only [Parse.add,alike.frame],alike.callers,alike.input⟩

-- What is noted about failures and about the last token taken stays as it was.
structure Kept (before after : Parse) : Prop where
  previous : after.previous = before.previous
  taken : after.taken = before.taken
  failedAfter : after.failedAfter = before.failedAfter
  failedLabels : after.failedLabels = before.failedLabels

theorem Kept.refl (parse : Parse) : Kept parse parse := ⟨rfl,rfl,rfl,rfl⟩

theorem Kept.trans (one : Kept first second) (two : Kept second third) : Kept first third :=
  ⟨two.previous.trans one.previous,two.taken.trans one.taken,two.failedAfter.trans one.failedAfter,
    two.failedLabels.trans one.failedLabels⟩

-- While a parse is recovering something has been reported.
def Noted (parse : Parse) : Prop := parse.recovering = true → parse.diagnostics ≠ []

-- Takes the current token as an error.
def drop (parse : Parse) : Parse :=
  { parse with frame := parse.frame.add (.error parse.input.current), input := parse.input.advance }

def dropped : Nat → Parse → Parse
  | 0, parse => parse
  | count + 1, parse => dropped count parse.drop

-- Takes the current token as a child.
def shift (parse : Parse) : Parse :=
  { parse with frame := parse.frame.add (.leaf parse.input.current), input := parse.input.advance }

-- Puts everything read so far in the frame into a node.
def wrap (parse : Parse) : Parse :=
  { parse with frame := { parse.frame with built := [parse.frame.close parse.previous] } }

theorem Alike.drop (alike : Alike left right) : Alike left.drop right.drop :=
  ⟨by simp only [Parse.drop,alike.frame,alike.input],alike.callers,by simp only [Parse.drop,alike.input]⟩

theorem Alike.shift (alike : Alike left right) : Alike left.shift right.shift :=
  ⟨by simp only [Parse.shift,alike.frame,alike.input],alike.callers,by simp only [Parse.shift,alike.input]⟩

theorem Alike.dropped (alike : Alike left right) (count : Nat) : Alike (left.dropped count) (right.dropped count) := by
  induction count generalizing left right with
  | zero => exact alike
  | succ count ih => exact ih alike.drop

theorem dropped_callers (count : Nat) (parse : Parse) : (parse.dropped count).callers = parse.callers := by
  induction count generalizing parse with
  | zero => rfl
  | succ count ih => exact ih parse.drop

theorem dropped_add (first second : Nat) (parse : Parse) :
    (parse.dropped first).dropped second = parse.dropped (first + second) := by
  induction first generalizing parse with
  | zero => rw [Nat.zero_add]; rfl
  | succ first ih =>
    rw [Nat.add_right_comm]
    exact ih parse.drop

theorem dropped_closed (count : Nat) (parse : Parse) (closed : Token.Closed parse.input.ahead) :
    Token.Closed (parse.dropped count).input.ahead := by
  induction count generalizing parse with
  | zero => exact closed
  | succ count ih => exact ih parse.drop (Input.closed_advance closed)

section Consume

variable (parse : Parse)

-- The token as it is taken: an error while recovering.
def taking : Tree := if parse.recovering then .error parse.input.current else .leaf parse.input.current

theorem consume_of_atEnd (ended : parse.input.atEnd = true) : parse.consume = parse.add parse.taking := by
  have kept : (parse.add parse.taking).input.atEnd = true := ended
  unfold taking at kept ⊢
  simp only [consume,kept,if_true]

theorem consume_of_more (more : parse.input.atEnd = false) :
    parse.consume = { parse.add parse.taking with
      input := parse.input.advance, previous := some parse.input.current, taken := parse.taken + 1 }.look 0 := by
  have kept : (parse.add parse.taking).input.atEnd = false := more
  unfold taking at kept ⊢
  simp only [consume,kept,Bool.false_eq_true,if_false]
  rfl

theorem consume_alike : Alike parse.consume { parse.add parse.taking with input := parse.input.advance } := by
  cases ended : parse.input.atEnd with
  | true =>
    rw [consume_of_atEnd parse ended]
    exact ⟨rfl,rfl,(Input.advance_of_atEnd ended).symm⟩
  | false =>
    rw [consume_of_more parse ended]
    exact ⟨rfl,rfl,rfl⟩

theorem consume_alike_drop (recovering : parse.recovering = true) : Alike parse.consume parse.drop := by
  have alike := consume_alike parse
  rwa [taking,if_pos recovering] at alike

theorem consume_alike_shift (settled : parse.recovering = false) : Alike parse.consume parse.shift := by
  have alike := consume_alike parse
  rwa [taking,if_neg (Bool.eq_false_iff.mp settled)] at alike

theorem consume_marks : parse.consume.recovering = parse.recovering ∧ parse.consume.diagnostics = parse.diagnostics ∧
    parse.consume.failedAfter = parse.failedAfter ∧ parse.consume.failedLabels = parse.failedLabels := by
  cases ended : parse.input.atEnd with
  | true =>
    rw [consume_of_atEnd parse ended]
    exact ⟨rfl,rfl,rfl,rfl⟩
  | false =>
    rw [consume_of_more parse ended]
    exact ⟨rfl,rfl,rfl,rfl⟩

theorem consume_previous :
    parse.consume.previous = if parse.input.atEnd then parse.previous else some parse.input.current := by
  cases ended : parse.input.atEnd with
  | true =>
    rw [consume_of_atEnd parse ended]
    rfl
  | false =>
    rw [consume_of_more parse ended]
    rfl

end Consume

section Report

variable (parse : Parse) (place : Place) (complaint : Complaint)

theorem report_alike : Alike (parse.report place complaint) parse := by
  unfold report
  split <;> exact ⟨rfl,rfl,rfl⟩

theorem report_kept : Kept parse (parse.report place complaint) := by
  unfold report
  split <;> exact ⟨rfl,rfl,rfl,rfl⟩

@[simp] theorem report_recovering : (parse.report place complaint).recovering = true := by
  unfold report
  split <;> simp_all

theorem report_noted (noted : parse.Noted) : (parse.report place complaint).diagnostics ≠ [] := by
  unfold report
  split
  · rename_i recovering
    exact noted recovering
  · simp

end Report

end Parse

end SolReader
