import SolReader.Proofs.Grammar.Place

namespace SolReader

open List

-- What a source is made of.
def Rule.definitions : List Rule :=
  [.pragmaDirective,.importDirective,.contractDefinition,.enumDefinition,.structDefinition,.functionDefinition,
    .fileLevelConstant,.customErrorDefinition,.typeDefinition]

namespace Source

def calls : List (Form Label) :=
  Rule.definitions.mapIdx fun index rule => .call (index + 3) rule 0

def item : Form Label := .choice 2 calls

def items (rounds : Rounds) : Form Label := .loop rounds 0 1 item

def ending : Form Label := .token 12 .eof

theorem form_eq : Rule.sourceUnit.form = .seq (items .many) ending := rfl

inductive Stage : Todo → Prop where
  | whole : Stage [.seq (items .many) ending]
  | first : Stage [items .many,ending]
  | item : Stage [item,items .again,ending]
  | call {form : Form Label} (member : form ∈ calls) : Stage [form,items .again,ending]
  | next : Stage [items .again,ending]
  | last : Stage [ending]
  | done : Stage []

theorem spots_calls (inside : spot ∈ Form.allSpots rest calls) : ∃ form ∈ calls, spot = form :: rest := by
  simpa [calls,Rule.definitions,Form.allSpots,Form.spots] using inside

theorem stage_of_sited (sited : Todo.Sited .sourceUnit todo) : Stage todo := by
  cases todo with
  | nil => exact .done
  | cons form rest =>
    have spot := sited.mem
    rw [Rule.spots,form_eq] at spot
    simp only [items,ending,Form.spots,mem_cons,mem_append,not_mem_nil,or_false] at spot
    rcases spot with same | (same | same | inside) | same
    · exact same ▸ .whole
    · exact same ▸ .first
    · exact same ▸ .next
    · rw [item,Form.spots,mem_cons] at inside
      rcases inside with same | called
      · exact same ▸ .item
      · obtain ⟨form,member,same⟩ := spots_calls called
        exact same ▸ .call member
    · exact same ▸ .last

end Source

end SolReader
