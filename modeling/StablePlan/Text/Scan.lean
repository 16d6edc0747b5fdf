/-!
Reading a value from the front of a text. A scan keeps the proof that its rest is shorter, so a
reader that goes on with the rest needs no other bound.
-/

namespace StablePlan

/-- A value read from the front of `text`, and what is left of the text. -/
structure Scan (α : Type) (text : List Char) where
  value : α
  rest : List Char
  rest_lt : rest.length < text.length

namespace Scan

variable {α β : Type} {text : List Char}

def map (f : α → β) (s : Scan α text) : Scan β text := ⟨f s.value, s.rest, s.rest_lt⟩

/-- Goes on with the rest of a scan. -/
def followedBy (s : Scan α text) (t : Scan β s.rest) : Scan β text :=
  ⟨t.value, t.rest, Nat.lt_trans t.rest_lt s.rest_lt⟩

def toPair (s : Scan α text) : α × List Char := (s.value, s.rest)

@[simp] theorem toPair_map (f : α → β) (s : Scan α text) :
    (s.map f).toPair = (f s.toPair.1, s.toPair.2) := rfl

@[simp] theorem toPair_followedBy (s : Scan α text) (t : Scan β s.rest) :
    (s.followedBy t).toPair = t.toPair := rfl

end Scan

end StablePlan
