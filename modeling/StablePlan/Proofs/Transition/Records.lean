import StablePlan.Proofs.Ascending
import StablePlan.Proofs.Program.Obeys
import StablePlan.Transition.Draft

/-!
The records of a draft. An atom plays a role in a rule, and for every atom and role there is a
record of the rules in which it plays the role. What changes one entry, and what storing a rule
changes, is said in these terms.
-/

namespace StablePlan

/-- How an atom occurs in a rule or in a weight rule. -/
inductive Role where
  | head
  | positive
  | negative
  | weightHead
  | weightedPositive
  | weightedNegative
  deriving DecidableEq

namespace Role

def isWeighted : Role → Bool
  | .head | .positive | .negative => false
  | .weightHead | .weightedPositive | .weightedNegative => true

def isNegative : Role → Bool
  | .negative | .weightedNegative => true
  | _ => false

end Role

def Literal.role (l : Literal) : Role := if l.isPositive then .positive else .negative

def Literal.weightRole (l : Literal) : Role :=
  if l.isPositive then .weightedPositive else .weightedNegative

/-- The roles that atoms play in a rule. -/
def Rule.parts (r : Rule) : List (Nat × Role) :=
  r.head.map (·, .head) ++ r.body.map fun l => (l.atom, l.role)

def WeightRule.parts (r : WeightRule) : List (Nat × Role) :=
  r.head.map (·, .weightHead) ++ r.body.map fun e => (e.1.atom, e.1.weightRole)

/-! ### One entry -/

namespace Occurrences

def of (o : Occurrences) : Role → List Nat
  | .head => o.heads
  | .positive => o.positive
  | .negative => o.negative
  | .weightHead => o.weightHeads
  | .weightedPositive => o.weightedPositive
  | .weightedNegative => o.weightedNegative

def change (role : Role) (g : List Nat → List Nat) (o : Occurrences) : Occurrences :=
  match role with
  | .head => { o with heads := g o.heads }
  | .positive => { o with positive := g o.positive }
  | .negative => { o with negative := g o.negative }
  | .weightHead => { o with weightHeads := g o.weightHeads }
  | .weightedPositive => { o with weightedPositive := g o.weightedPositive }
  | .weightedNegative => { o with weightedNegative := g o.weightedNegative }

@[simp] theorem of_change (o : Occurrences) (role role' : Role) (g : List Nat → List Nat) :
    (o.change role g).of role' = if role' = role then g (o.of role) else o.of role' := by
  cases role <;> cases role' <;> rfl

@[simp] theorem of_empty (role : Role) : ({} : Occurrences).of role = [] := by
  cases role <;> rfl

theorem inHead_eq (g : List Nat → List Nat) : inHead g = change .head g := rfl

theorem inWeightHead_eq (g : List Nat → List Nat) : inWeightHead g = change .weightHead g := rfl

theorem inBody_eq (g : List Nat → List Nat) (l : Literal) : inBody g l = change l.role g := by
  funext o
  unfold inBody Literal.role
  split <;> rfl

theorem inWeightBody_eq (g : List Nat → List Nat) (l : Literal) :
    inWeightBody g l = change l.weightRole g := by
  funext o
  unfold inWeightBody Literal.weightRole
  split <;> rfl

end Occurrences

instance : Std.LawfulEqOrd Literal where
  compare_self := Std.ReflOrd.compare_self (α := Int)
  eq_of_compare := fun {a b} h => by
    obtain ⟨x⟩ := a
    obtain ⟨y⟩ := b
    exact congrArg Literal.mk (Std.LawfulEqOrd.eq_of_compare (α := Int) h)

namespace Draft

variable {d : Draft} {a b : Nat}

/-- The rules in which an atom is on record with a role. -/
def record (d : Draft) (a : Nat) (role : Role) : List Nat := (d.occurrences a).of role

/-- The roles played in a live rule, or in a live weight rule. -/
def parts? (d : Draft) (weighted : Bool) (i : Nat) : Option (List (Nat × Role)) :=
  if weighted then (d.weightRule? i).map WeightRule.parts else (d.rule? i).map Rule.parts

/-- Whether the record of an atom in a role is kept. -/
def IsTracked (d : Draft) (a : Nat) (role : Role) : Prop :=
  d.resolution a = none ∨ d.resolution a = some .cautious ∧ role.isNegative = false

theorem entry_setEntry (d : Draft) (a b : Nat) (e : Entry) :
    (d.setEntry a e).entry b = if b = a ∧ a < d.entries.size then e else d.entry b := by
  simp only [entry, setEntry, Array.getD_eq_getD_getElem?]
  grind

theorem lt_of_isMentioned (h : d.isMentioned a) : a < d.entries.size := by
  by_contra hle
  simp only [isMentioned, entry, Array.getD_eq_getD_getElem?] at h
  grind

/-- Mentioning a mentioned atom changes nothing. -/
theorem mention_of_isMentioned (h : d.isMentioned a) : d.mention a = d := by
  have hlt := lt_of_isMentioned h
  have hroom : a + 1 - d.entries.size = 0 := by omega
  have hentry : ({ d.entry a with mentioned := true } : Entry) = d.entry a := by
    unfold isMentioned at h
    rw [← h]
  unfold mention
  rw [hroom]
  simp only [Array.replicate_zero, Array.append_empty]
  rw [hentry]
  unfold setEntry
  congr 1
  refine Array.ext_getElem? fun i => ?_
  rw [Array.getElem?_setIfInBounds]
  by_cases hi : a = i
  · subst hi
    simp [entry, hlt]
  · rw [if_neg hi]

theorem entry_mention (d : Draft) (a b : Nat) :
    (d.mention a).entry b = if b = a then { d.entry a with mentioned := true } else d.entry b := by
  have hroom : ∀ n b, (Draft.entry { d with entries := d.entries ++ Array.replicate n {} } b) =
      d.entry b := by
    intro n b
    simp only [entry, Array.getD_eq_getD_getElem?]
    grind
  have hlt : a < (d.entries ++ Array.replicate (a + 1 - d.entries.size) ({} : Entry)).size := by
    simp
    omega
  unfold mention
  dsimp only
  rw [entry_setEntry, hroom, hroom]
  simp only [hlt, and_true]

theorem occurrences_mapOccurrences (d : Draft) (a b : Nat) (g : Occurrences → Occurrences) :
    (d.mapOccurrences a g).occurrences b =
      if b = a ∧ a < d.entries.size then g (d.occurrences a) else d.occurrences b := by
  unfold mapOccurrences occurrences
  rw [entry_setEntry]
  split <;> rfl

theorem resolution_mapOccurrences (d : Draft) (a b : Nat) (g : Occurrences → Occurrences) :
    (d.mapOccurrences a g).resolution b = d.resolution b := by
  unfold mapOccurrences resolution
  rw [entry_setEntry]
  split
  · rename_i h
    rw [h.1]
  · rfl

theorem isMentioned_mapOccurrences (d : Draft) (a b : Nat) (g : Occurrences → Occurrences) :
    (d.mapOccurrences a g).isMentioned b = d.isMentioned b := by
  unfold mapOccurrences isMentioned
  rw [entry_setEntry]
  split
  · rename_i h
    rw [h.1]
  · rfl

theorem record_mapOccurrences (d : Draft) (a b : Nat) (role role' : Role)
    (g : List Nat → List Nat) : (d.mapOccurrences a (.change role g)).record b role' =
      if b = a ∧ role' = role ∧ a < d.entries.size then g (d.record a role)
      else d.record b role' := by
  unfold record
  rw [occurrences_mapOccurrences]
  by_cases hb : b = a
  · subst b
    by_cases hlt : a < d.entries.size
    · simp [hlt]
    · simp [hlt]
  · simp [hb]

/-! ### Marking -/

/-- Only entries have changed, so that the roles are on record for rule `n`. -/
structure Marked (d e : Draft) (parts : List (Nat × Role)) (n : Nat) : Prop where
  rest : ∃ entries, e = { d with entries }
  record : ∀ i a role, i ∈ e.record a role ↔ i ∈ d.record a role ∨ i = n ∧ (a, role) ∈ parts
  resolution : ∀ a, e.resolution a = d.resolution a
  mentioned : ∀ a, e.isMentioned a = true ↔ d.isMentioned a = true ∨ ∃ role, (a, role) ∈ parts
  size : (∀ part ∈ parts, d.isMentioned part.1) → e.entries.size = d.entries.size

/-- Notes a rule on the records of the roles in it. -/
def markAll (n : Nat) (parts : List (Nat × Role)) (d : Draft) : Draft :=
  parts.foldl (fun d part => d.mentionIn part.1 (.change part.2 (Ascending.insert n))) d

theorem marked_mentionIn (d : Draft) (a : Nat) (role : Role) (n : Nat) :
    d.Marked (d.mentionIn a (.change role (Ascending.insert n))) [(a, role)] n := by
  have hlt : a < (d.mention a).entries.size := by
    refine lt_of_isMentioned ?_
    simp [isMentioned, entry_mention]
  refine ⟨⟨_, rfl⟩, fun i b role' => ?_, fun b => ?_, fun b => ?_, fun hmentioned => ?_⟩
  · have hrecord : (d.mention a).record b role' = d.record b role' := by
      unfold record occurrences
      rw [entry_mention]
      split
      · rename_i hb
        rw [hb]
      · rfl
    have hsame : (d.mention a).record a role = d.record a role := by
      unfold record occurrences
      rw [entry_mention, if_pos rfl]
    unfold mentionIn
    rw [record_mapOccurrences, hrecord, hsame]
    by_cases hb : b = a ∧ role' = role
    · obtain ⟨rfl, rfl⟩ := hb
      rw [if_pos ⟨rfl, rfl, hlt⟩, Ascending.mem_insert]
      simp [or_comm]
    · rw [if_neg (fun h => hb ⟨h.1, h.2.1⟩)]
      simp [hb]
  · unfold mentionIn
    rw [resolution_mapOccurrences]
    unfold resolution
    rw [entry_mention]
    split
    · rename_i hb
      rw [hb]
    · rfl
  · unfold mentionIn
    rw [isMentioned_mapOccurrences]
    unfold isMentioned
    rw [entry_mention]
    split
    · rename_i hb
      simp [hb]
    · rename_i hb
      simp [hb]
  · have hmention := mention_of_isMentioned (hmentioned (a, role) (by simp))
    unfold mentionIn
    rw [hmention]
    simp [mapOccurrences, setEntry]

theorem markAll_cons (n : Nat) (a : Nat) (role : Role) (parts : List (Nat × Role)) (d : Draft) :
    markAll n ((a, role) :: parts) d =
      markAll n parts (d.mentionIn a (.change role (Ascending.insert n))) := rfl

theorem marked_markAll (n : Nat) (parts : List (Nat × Role)) (d : Draft) :
    d.Marked (markAll n parts d) parts n := by
  induction parts generalizing d with
  | nil => exact ⟨⟨_, rfl⟩, by simp [markAll], fun _ => rfl, by simp [markAll], fun _ => rfl⟩
  | cons part parts ih =>
      obtain ⟨a, role⟩ := part
      rw [markAll_cons]
      have hfirst := marked_mentionIn d a role n
      have hrest := ih (d.mentionIn a (.change role (Ascending.insert n)))
      generalize d.mentionIn a (.change role (Ascending.insert n)) = e at hfirst hrest ⊢
      refine ⟨?_, fun i b role' => ?_, fun b => ?_, fun b => ?_, fun hmentioned => ?_⟩
      · obtain ⟨entries, hfirst⟩ := hfirst.rest
        obtain ⟨entries', hrest⟩ := hrest.rest
        exact ⟨entries', by rw [hrest, hfirst]⟩
      · refine (hrest.record i b role').trans ?_
        rw [hfirst.record, List.mem_singleton, List.mem_cons]
        tauto
      · exact (hrest.resolution b).trans (hfirst.resolution b)
      · refine (hrest.mentioned b).trans ?_
        rw [hfirst.mentioned]
        simp only [List.mem_cons, exists_or, or_assoc, List.not_mem_nil, exists_false, false_or]
      · have hsize := hrest.size fun part hpart =>
          (hfirst.mentioned _).mpr (Or.inl (hmentioned part (by simp [hpart])))
        exact hsize.trans (hfirst.size fun part hpart => hmentioned part (by simp_all))

theorem pushRule_eq (d : Draft) (rule : Rule) : d.pushRule rule =
    { markAll d.rules.size rule.parts d with
      rules := (markAll d.rules.size rule.parts d).rules.push (some rule) } := by
  unfold pushRule markAll Rule.parts
  rw [List.foldl_append, List.foldl_map, List.foldl_map]
  simp only [Occurrences.inHead_eq, Occurrences.inBody_eq]

theorem pushWeightRule_eq (d : Draft) (rule : WeightRule) : d.pushWeightRule rule =
    { markAll d.weightRules.size rule.parts d with
      weightRules := (markAll d.weightRules.size rule.parts d).weightRules.push (some rule) } := by
  unfold pushWeightRule markAll WeightRule.parts
  rw [List.foldl_append, List.foldl_map, List.foldl_map]
  simp only [Occurrences.inWeightHead_eq, Occurrences.inWeightBody_eq]

end Draft

end StablePlan
