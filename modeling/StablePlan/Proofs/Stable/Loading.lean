import StablePlan.Proofs.Program.Extension
import StablePlan.Proofs.Stable.Shifting

/-!
What a loaded program means. A reasoner adds an atom of its own for every label that has a compound
condition. The atoms that it takes are above all atoms of the statements, also of those that are
still to come, since all of them are noted before any is taken over. So the replayed program extends
the program that was loaded by definitions of new atoms, and so do the shifted rules that are held.
-/

namespace StablePlan

namespace Clause

variable {c d : Clause}

/-- Shifting a rule mentions no further atom. -/
theorem mem_atoms_of_shifted (hd : d ∈ c.shifted) {a : Nat} (ha : a ∈ d.atoms) : a ∈ c.atoms := by
  unfold atoms at ha
  rw [List.mem_append, List.mem_append, List.mem_map, List.mem_flatMap] at ha
  rcases ha with (hhead | ⟨l, hl, rfl⟩) | ⟨s, hs, he⟩
  · exact mem_atoms_of_head (mem_head_of_mem_shifted hd hhead)
  · rcases mem_of_mem_body_shifted hd hl with hbody | ⟨k, hk, rfl⟩
    · exact mem_atoms_of_body hbody
    · simpa [Literal.negative, Literal.atom] using mem_atoms_of_head hk
  · rw [sum_of_mem_shifted hd, Option.mem_toList] at hs
    obtain ⟨e, hmem, rfl⟩ := List.mem_map.mp he
    exact mem_atoms_of_sum hs hmem

end Clause

namespace Theory

variable {t : Theory} {A : Set Nat}

theorem IsAbout.shifted (h : t.IsAbout A) : t.shifted.IsAbout A := by
  refine ⟨?_, h.given, h.facts, h.banned, h.required⟩
  rintro d ⟨c, hc, hd⟩ a ha
  exact h.clauses c hc a (Clause.mem_atoms_of_shifted hd ha)

/-- A definition has one atom in its head, so it is shifted to itself. -/
theorem shifted_extend (t : Theory) (ds : List Definition) :
    (t.extend ds).shifted = t.shifted.extend ds := by
  have hself : ∀ d : Definition, d.clause.shifted = [d.clause] :=
    fun d => Clause.shifted_of_length_le le_rfl
  ext c
  · constructor
    · rintro ⟨b, hb | ⟨d, hd, rfl⟩, hc⟩
      · exact Or.inl ⟨b, hb, hc⟩
      · rw [hself] at hc
        exact Or.inr ⟨d, hd, List.mem_singleton.mp hc⟩
    · rintro (⟨b, hb, hc⟩ | ⟨d, hd, rfl⟩)
      · exact ⟨b, Or.inl hb, hc⟩
      · refine ⟨d.clause, Or.inr ⟨d, hd, rfl⟩, ?_⟩
        rw [hself]
        exact List.mem_singleton_self _
  all_goals rfl

/-- Other rules, with single atoms read alike. -/
def withRules (t : Theory) (rules : Set Clause) : Theory := { t with clauses := rules }

/-- What is said of single atoms is about these. -/
def Reads (t : Theory) (A : Set Nat) : Prop := (t.withRules ∅).IsAbout A

end Theory

/-- The atoms that statements mention. -/
def atomsIn (statements : List Statement) : Set Nat := {a | ∃ s ∈ statements, a ∈ s.atoms}

/-- The rules among statements, with their heads as they stand. -/
def rulesIn (statements : List Statement) : Set Clause := {c | ∃ s ∈ statements, c ∈ s.rule?}

theorem Statement.mem_atoms_of_rule? {s : Statement} {c : Clause} (hc : c ∈ s.rule?) {a : Nat}
    (ha : a ∈ c.atoms) : a ∈ s.atoms := by
  cases s with
  | rule rule | weightRule rule =>
      obtain rfl := Option.some.inj hc
      simpa [Clause.atoms, Rule.clause, WeightRule.clause, Statement.atoms] using ha
  | output symbol condition | external atom value => exact absurd hc (Option.not_mem_none c)

/-- The rules of a replay, with their heads as they stand. -/
def rulesOf (log : List Observation) : Set Clause := {c | ∃ o ∈ log, c ∈ o.rule?}

theorem Theory.Reads.isAbout {reading : Theory} {statements : List Statement}
    (h : reading.Reads (atomsIn statements)) :
    (reading.withRules (rulesIn statements)).IsAbout (atomsIn statements) := by
  refine ⟨?_, h.given, h.facts, h.banned, h.required⟩
  rintro c ⟨s, hs, hc⟩ a ha
  exact ⟨s, hs, Statement.mem_atoms_of_rule? hc ha⟩

namespace Unfolds

variable {statements : List Statement} {log : List Observation} {ds : List Definition}

theorem withRules_eq_extend (h : Unfolds statements log ds) (reading : Theory) :
    reading.withRules (rulesOf log) = (reading.withRules (rulesIn statements)).extend ds := by
  ext c
  · exact h.exists_rule_iff
  all_goals rfl

theorem areNew (h : Unfolds statements log ds)
    (habove : ∀ d ∈ ds, ∀ a ∈ atomsIn statements, a < d.atom)
    (hascending : (ds.map Definition.atom).Pairwise (· < ·)) : AreNew ds (atomsIn statements) := by
  refine ⟨fun d hd l hl => ?_, fun d hd hmem => (habove d hd _ hmem).false,
    hascending.imp Nat.ne_of_lt⟩
  obtain ⟨symbol, houtput⟩ := h.exists_output d hd
  exact ⟨_, houtput, List.mem_map_of_mem hl⟩

end Unfolds

namespace Reasoner

variable {r : Reasoner} {statements : List Statement}

/-- Conditions with default negation and with a loop of their own; the largest atom stands in the
last statement. -/
def labelled : List Statement :=
  [.output (.constant "open") [.negative 1],
    .rule ⟨true, [1, 2], []⟩,
    .output (.constant "shut") [.positive 3, .negative 4],
    .rule ⟨false, [3], [.positive 3]⟩,
    .rule ⟨false, [3, 4], [.positive 2, .negative 1]⟩,
    .output (.constant "done") [.positive 2],
    .external 5 .free]

/-- Two conditions to be moved to new atoms, when the largest atom there may be is in use. -/
def crowded : List Statement :=
  [.rule ⟨false, [2147483647], []⟩,
    .output (.constant "a") [.negative 2147483647],
    .output (.constant "b") [.negative 2147483647]]

end Reasoner

end StablePlan
