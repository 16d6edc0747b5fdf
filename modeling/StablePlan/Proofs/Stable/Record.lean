import StablePlan.Proofs.Ascending
import StablePlan.Proofs.Program.Unfolding
import StablePlan.Proofs.Results
import StablePlan.Proofs.Stable.Trail

/-!
What a reasoner knows after any calls. The log has the events of everything that was taken over; a
call that fails adds nothing to it. The clauses are those of the log in order, the table of
externals has for every atom the value that the log declares last, and every atom is in range.
-/

namespace StablePlan

def Statement.HasNonnegWeights : Statement → Prop
  | .weightRule r => r.HasNonnegWeights
  | _ => True

instance : DecidablePred Statement.HasNonnegWeights
  | .weightRule r => inferInstanceAs (Decidable r.HasNonnegWeights)
  | .rule _ | .external _ _ | .output _ _ => .isTrue trivial

def Statement.HasFittingWeights : Statement → Prop
  | .weightRule r => r.HasFittingWeights
  | _ => True

theorem Statement.HasFittingWeights.nonneg {s : Statement} (h : s.HasFittingWeights) :
    s.HasNonnegWeights := by
  cases s with
  | weightRule r => exact WeightsFit.nonneg h
  | rule _ | external _ _ | output _ _ => trivial

instance : DecidablePred Statement.HasFittingWeights
  | .weightRule r => inferInstanceAs (Decidable r.HasFittingWeights)
  | .rule _ | .external _ _ | .output _ _ => .isTrue trivial

/-- The calls that add to a program. -/
inductive Call where
  | load (statements : List Statement)
  | addRule (rule : Rule)
  | addWeightRule (rule : WeightRule)

namespace Call

def step (r : Reasoner) : Call → Reasoner.Step
  | .load statements => r.load statements
  | .addRule rule => r.addRule rule
  | .addWeightRule rule => r.addWeightRule rule

/-- The state that a call leaves, also if it fails. -/
def after (r : Reasoner) (c : Call) : Reasoner :=
  match c.step r with
  | .ok r => r
  | .error (_, r) => r

/-- The events that a call takes over: for a load what it adds to the replay, and for a rule the
rule itself, unless it is refused. -/
def logged (r : Reasoner) (c : Call) : List Observation :=
  match c, c.step r with
  | .load _, _ => (c.after r).replay.toList.drop r.replay.size
  | .addRule rule, .ok _ => [.rule rule]
  | .addWeightRule rule, .ok _ => [.weightRule rule]
  | .addRule _, .error _ | .addWeightRule _, .error _ => []

def HasFittingWeights : Call → Prop
  | .load statements => ∀ s ∈ statements, s.HasFittingWeights
  | .addRule _ => True
  | .addWeightRule rule => rule.HasFittingWeights

instance : DecidablePred Call.HasFittingWeights
  | .load statements => inferInstanceAs (Decidable (∀ s ∈ statements, s.HasFittingWeights))
  | .addRule _ => .isTrue trivial
  | .addWeightRule rule => inferInstanceAs (Decidable rule.HasFittingWeights)

end Call

namespace Reasoner

/-- The states that calls lead to whose weights fit, with the log of what was taken over. -/
inductive Reached : Reasoner → List Observation → Prop
  | empty (limit : Limit) : Reached (.empty limit) []
  | call {r : Reasoner} {log : List Observation} (c : Call) :
      Reached r log → c.HasFittingWeights → Reached (c.after r) (log ++ c.logged r)

/-- The same without a look at the weights, and with other limits in between. -/
inductive Formed : Reasoner → List Observation → Prop
  | empty (limit : Limit) : Formed (.empty limit) []
  | withLimit {r : Reasoner} {log : List Observation} (limit : Limit) :
      Formed r log → Formed (r.withLimit limit) log
  | call {r : Reasoner} {log : List Observation} (c : Call) :
      Formed r log → Formed (c.after r) (log ++ c.logged r)

/-- The rules that a reasoner holds. -/
def theory (r : Reasoner) : Theory where
  clauses := {c | c ∈ r.clauses.toList}

/-- A state has what a log says, and nothing else. -/
structure Represents (r : Reasoner) (log : List Observation) : Prop where
  clauses : r.clauses.toList = log.flatMap Observation.clauses
  externals : ∀ atom value, (atom, value) ∈ r.externals ↔ declared? log atom = some value
  sorted : r.externals.Pairwise (·.1 < ·.1)
  atoms : ∀ o ∈ log, ∀ atom ∈ o.atoms, InRange r.maxAtom atom

/-- Besides, weights are not negative and no sum of them leaves the range, so that what is computed
from the sums is exact. -/
structure IsExactFor (r : Reasoner) (log : List Observation) : Prop extends Represents r log where
  weights : ∀ o ∈ log, o.HasFittingWeights

end Reasoner

namespace Reasoner

variable {r s : Reasoner} {log : List Observation} {e : SolveError}

/-! ### Taking notice of atoms -/

/-- Only the largest atom seen has changed, if anything. -/
structure Grown (r s : Reasoner) : Prop where
  eq : s = { r with maxAtom := s.maxAtom }
  le : r.maxAtom ≤ s.maxAtom

theorem Grown.refl (r : Reasoner) : Grown r r := ⟨rfl, le_rfl⟩

theorem Grown.trans {t : Reasoner} (h : Grown r s) (h' : Grown s t) : Grown r t := by
  refine ⟨?_, h.le.trans h'.le⟩
  rw [h'.eq, h.eq]

theorem grown_noteAtom {atom : Nat} (h : r.noteAtom atom = .ok s) :
    Grown r s ∧ InRange s.maxAtom atom := by
  unfold noteAtom at h
  split at h
  · simp at h
  · rename_i hne
    obtain rfl := Except.ok.inj h
    exact ⟨⟨rfl, le_max_left _ _⟩, Nat.pos_of_ne_zero hne, le_max_right _ _⟩

theorem grown_noteAtoms {atoms : List Nat} (h : r.noteAtoms atoms = .ok s) :
    Grown r s ∧ ∀ atom ∈ atoms, InRange s.maxAtom atom := by
  induction atoms generalizing r with
  | nil =>
      obtain rfl := Except.ok.inj h
      exact ⟨Grown.refl r, by simp⟩
  | cons atom atoms ih =>
      unfold noteAtoms at h
      rw [List.foldlM_cons] at h
      rcases hfirst : r.noteAtom atom with e | t
      · rw [hfirst] at h
        cases h
      · rw [hfirst] at h
        obtain ⟨hgrown, hr⟩ := grown_noteAtom hfirst
        obtain ⟨hrest, hall⟩ := ih h
        refine ⟨hgrown.trans hrest, fun a ha => ?_⟩
        rcases List.mem_cons.mp ha with rfl | ha
        · exact hr.mono hrest.le
        · exact hall a ha

/-- An atom that is refused leaves the state as it was. -/
theorem grown_of_noteAtom_error {atom : Nat} (h : r.noteAtom atom = .error (e, s)) :
    Grown r s := by
  unfold noteAtom at h
  split at h
  · obtain ⟨-, rfl⟩ := Prod.mk.inj (Except.error.inj h)
    exact Grown.refl r
  · exact absurd h (by simp)

theorem grown_of_noteAtoms_error {atoms : List Nat} (h : r.noteAtoms atoms = .error (e, s)) :
    Grown r s := by
  induction atoms generalizing r with
  | nil => cases h
  | cons atom atoms ih =>
      unfold noteAtoms at h
      rw [List.foldlM_cons] at h
      rcases hfirst : r.noteAtom atom with e | t
      · rw [hfirst] at h
        obtain rfl := Except.error.inj h
        exact grown_of_noteAtom_error hfirst
      · rw [hfirst] at h
        exact (grown_noteAtom hfirst).1.trans (ih h)

/-- Atom 0 is the only one that cannot be noted. -/
theorem noteAtoms_ok {atoms : List Nat} (h : 0 ∉ atoms) (r : Reasoner) :
    ∃ s, r.noteAtoms atoms = .ok s := by
  induction atoms generalizing r with
  | nil => exact ⟨r, rfl⟩
  | cons atom atoms ih =>
      simp only [List.mem_cons, not_or] at h
      unfold noteAtoms
      rw [List.foldlM_cons]
      unfold noteAtom
      rw [if_neg (Ne.symm h.1)]
      exact ih h.2 _

/-! ### What is taken over -/

/-- The table of externals after an event. -/
def declare (externals : List (Nat × ExternalValue)) : Observation → List (Nat × ExternalValue)
  | .external atom value => Ascending.put atom value externals
  | _ => externals

/-- The second state has what the first one has, and what the events say. -/
structure Adds (r s : Reasoner) (log : List Observation) : Prop where
  clauses : s.clauses.toList = r.clauses.toList ++ log.flatMap Observation.clauses
  externals : s.externals = log.foldl declare r.externals
  le : r.maxAtom ≤ s.maxAtom
  atoms : ∀ o ∈ log, ∀ atom ∈ o.atoms, InRange s.maxAtom atom

theorem Grown.adds (h : Grown r s) : Adds r s [] := by
  have heq := h.eq
  refine ⟨?_, ?_, h.le, by simp⟩
  · rw [heq]
    simp
  · rw [heq]
    rfl

theorem Adds.trans {t : Reasoner} {log' : List Observation} (h : Adds r s log)
    (h' : Adds s t log') : Adds r t (log ++ log') := by
  refine ⟨?_, ?_, h.le.trans h'.le, fun o ho atom hatom => ?_⟩
  · rw [h'.clauses, h.clauses, List.append_assoc, List.flatMap_append]
  · rw [h'.externals, h.externals, List.foldl_append]
  · rcases List.mem_append.mp ho with ho | ho
    · exact (h.atoms o ho atom hatom).mono h'.le
    · exact h'.atoms o ho atom hatom

/-- What is only shown is not taken over. -/
theorem Adds.observe (h : Adds r s log) (o : Observation) : Adds r (s.observe o) log :=
  ⟨h.clauses, h.externals, h.le, h.atoms⟩

theorem Adds.label (h : Adds r s log) (symbol : Symbol) (atom : Nat) :
    Adds r s (log ++ [.label symbol atom]) := by
  refine ⟨?_, ?_, h.le, fun o ho => ?_⟩
  · simp [h.clauses, Observation.clauses, Observation.rule?]
  · rw [h.externals, List.foldl_append]
    rfl
  · rcases List.mem_append.mp ho with ho | ho
    · exact h.atoms o ho
    · simp [List.mem_singleton.mp ho, Observation.atoms]

theorem addRule_eq (r : Reasoner) (rule : Rule) : r.addRule rule =
    (r.noteAtoms (Observation.rule rule).atoms).map (·.addClauses rule.clause.shifted) := by
  unfold addRule
  rw [Observation.atoms]
  cases r.noteAtoms (rule.head ++ rule.body.map Literal.atom) <;> rfl

theorem addWeightRule_eq (r : Reasoner) (rule : WeightRule) : r.addWeightRule rule =
    (r.noteAtoms (Observation.weightRule rule).atoms).map
      (·.addClauses rule.clause.shifted) := by
  unfold addWeightRule
  rw [Observation.atoms]
  cases r.noteAtoms (rule.head ++ rule.body.map fun e => e.1.atom) <;> rfl

/-- Adding the rule of an event takes the event over, and shows nothing. -/
theorem adds_of_noted {o : Observation} {c : Clause} (hrule : o.rule? = some c)
    (hadd : (r.noteAtoms o.atoms).map (·.addClauses c.shifted) = .ok s) :
    Adds r s [o] ∧ s.replay = r.replay := by
  rcases hnote : r.noteAtoms o.atoms with e | t
  · rw [hnote] at hadd
    cases hadd
  · rw [hnote] at hadd
    obtain rfl := Except.ok.inj hadd
    obtain ⟨hgrown, hr⟩ := grown_noteAtoms hnote
    have heq := hgrown.eq
    have hexternals : [o].foldl declare r.externals = r.externals := by
      cases o <;> first | rfl | simp [Observation.rule?] at hrule
    refine ⟨⟨?_, ?_, hgrown.le, List.forall_mem_singleton.mpr hr⟩, ?_⟩
    · rw [heq]
      simp [Reasoner.addClauses, Observation.clauses, hrule]
    · rw [hexternals, heq]
      rfl
    · rw [heq]
      rfl

theorem grown_of_add_error {o : Observation} {c : Clause}
    (hadd : (r.noteAtoms o.atoms).map (·.addClauses c.shifted) = .error (e, s)) : Grown r s := by
  rcases hnote : r.noteAtoms o.atoms with e' | t
  · rw [hnote] at hadd
    obtain rfl := Except.error.inj hadd
    exact grown_of_noteAtoms_error hnote
  · rw [hnote] at hadd
    cases hadd

/-! ### Statements -/

/-- Events were taken over, and are replayed behind what was replayed before. -/
structure Takes (r s : Reasoner) (log : List Observation) : Prop extends Adds r s log where
  replay : s.replay.toList = r.replay.toList ++ log

theorem Grown.takes (h : Grown r s) : Takes r s [] := by
  refine ⟨h.adds, ?_⟩
  rw [h.eq]
  simp

theorem Takes.trans {t : Reasoner} {log' : List Observation} (h : Takes r s log)
    (h' : Takes s t log') : Takes r t (log ++ log') := by
  refine ⟨h.toAdds.trans h'.toAdds, ?_⟩
  rw [h'.replay, h.replay, List.append_assoc]

/-- An event that is taken over is shown next. -/
theorem takes_observe {o : Observation} (hadds : Adds r s [o]) (hreplay : s.replay = r.replay) :
    Takes r (s.observe o) [o] := by
  refine ⟨hadds.observe o, ?_⟩
  simp [Reasoner.observe, hreplay]

theorem takes_label (r : Reasoner) (symbol : Symbol) (atom : Nat) :
    Takes r (r.observe (.label symbol atom)) [.label symbol atom] :=
  takes_observe ((Grown.refl r).adds.label symbol atom) rfl

/-- Definitions of new atoms, one after the other. -/
structure AreFresh (low high : Nat) (ds : List Definition) : Prop where
  ascending : (ds.map Definition.atom).Pairwise (· < ·)
  above : ∀ d ∈ ds, low < d.atom
  below : ∀ d ∈ ds, d.atom ≤ high

/-- Statements were loaded. As long as no atom is beyond the range, they are replayed with the
labels moved that have to be, to new atoms. -/
structure Loads (r s : Reasoner) (statements : List Statement) (log : List Observation) : Prop
    extends Takes r s log where
  weights : ∀ rule, Observation.weightRule rule ∈ log → Statement.weightRule rule ∈ statements
  unfolds : s.maxAtom ≤ StablePlan.maxAtom →
    ∃ ds, Unfolds statements log ds ∧ AreFresh r.maxAtom s.maxAtom ds

theorem Loads.refl (r : Reasoner) : Loads r r [] [] :=
  ⟨(Grown.refl r).takes, by simp, fun _ => ⟨[], .nil, .nil, by simp, by simp⟩⟩

theorem AreFresh.append {low mid high : Nat} {ds ds' : List Definition} (h : AreFresh low mid ds)
    (h' : AreFresh mid high ds') (hlow : low ≤ mid) (hhigh : mid ≤ high) :
    AreFresh low high (ds ++ ds') := by
  refine ⟨?_, List.forall_mem_append.mpr ⟨h.above, fun d hd => hlow.trans_lt (h'.above d hd)⟩,
    List.forall_mem_append.mpr ⟨fun d hd => (h.below d hd).trans hhigh, h'.below⟩⟩
  rw [List.map_append, List.pairwise_append]
  refine ⟨h.ascending, h'.ascending, ?_⟩
  simp only [List.mem_map]
  rintro _ ⟨d, hd, rfl⟩ _ ⟨d', hd', rfl⟩
  exact (h.below d hd).trans_lt (h'.above d' hd')

theorem Loads.trans {t : Reasoner} {statements statements' : List Statement}
    {log' : List Observation} (h : Loads r s statements log) (h' : Loads s t statements' log') :
    Loads r t (statements ++ statements') (log ++ log') := by
  refine ⟨h.toTakes.trans h'.toTakes, fun rule hrule => ?_, fun hmax => ?_⟩
  · exact List.mem_append.mpr ((List.mem_append.mp hrule).imp (h.weights rule) (h'.weights rule))
  · obtain ⟨ds, hds, hfresh⟩ := h.unfolds (h'.le.trans hmax)
    obtain ⟨ds', hds', hfresh'⟩ := h'.unfolds hmax
    exact ⟨ds ++ ds', hds.append hds', hfresh.append hfresh' h.le h'.le⟩

/-- A statement without a definition. -/
theorem Loads.of_takes {statement : Statement} (htakes : Takes r s log)
    (hunfolds : Unfolds [statement] log [])
    (hweights : ∀ rule, Observation.weightRule rule ∈ log → statement = .weightRule rule) :
    Loads r s [statement] log :=
  ⟨htakes, fun rule hrule => List.mem_singleton.mpr (hweights rule hrule).symm,
    fun _ => ⟨[], hunfolds, .nil, by simp, by simp⟩⟩

theorem atom_cast {atom : Nat} (h : atom ≤ StablePlan.maxAtom) :
    (Literal.cast atom).atom = atom := by
  have hmax : StablePlan.maxAtom = 2147483647 := rfl
  have hmod : Nat.pow 2 32 = 4294967296 := rfl
  unfold Literal.cast Literal.atom
  rw [hmod, Int.bmod_eq_of_le (by omega) (by omega), Int.natAbs_natCast]

theorem nextAtom_eq (h : r.maxAtom < Nat.pow 2 32 - 1) : r.nextAtom = r.maxAtom + 1 :=
  Nat.mod_eq_of_lt (by omega)

/-- One statement that is taken over. -/
theorem loads_of_loadStatement {statement : Statement} (h : r.loadStatement statement = .ok s) :
    ∃ log, Loads r s [statement] log := by
  cases statement with
  | rule rule =>
      obtain ⟨t, hadd, hs⟩ := exists_of_bind_eq_ok h
      obtain rfl := Except.ok.inj hs
      rw [addRule_eq] at hadd
      obtain ⟨hadds, hreplay⟩ := adds_of_noted (o := .rule rule) rfl hadd
      exact ⟨_, .of_takes (takes_observe hadds hreplay) (.rule rule .nil) (by simp)⟩
  | weightRule rule =>
      obtain ⟨t, hadd, hs⟩ := exists_of_bind_eq_ok h
      obtain rfl := Except.ok.inj hs
      rw [addWeightRule_eq] at hadd
      obtain ⟨hadds, hreplay⟩ := adds_of_noted (o := .weightRule rule) rfl hadd
      exact ⟨_, .of_takes (takes_observe hadds hreplay) (.weightRule rule .nil) (by simp [eq_comm])⟩
  | external atom value =>
      obtain ⟨t, hnote, hs⟩ := exists_of_bind_eq_ok h
      obtain rfl := Except.ok.inj hs
      obtain ⟨hgrown, hr⟩ := grown_noteAtom hnote
      have hadds : Adds t { t with externals := Ascending.put atom value t.externals }
          [.external atom value] := by
        refine ⟨by simp [Observation.clauses, Observation.rule?], rfl, le_rfl, ?_⟩
        simpa [Observation.atoms] using hr
      exact ⟨_, .of_takes (hgrown.takes.trans (takes_observe hadds rfl))
        (.external atom value .nil) (by simp)⟩
  | output symbol condition =>
      rcases plainAtom?_cases condition with ⟨hplain, rfl⟩ | ⟨l, hplain, rfl, hl⟩ | ⟨hplain, hc⟩
      · rw [loadStatement, hplain] at h
        obtain rfl := Except.ok.inj h
        exact ⟨_, .of_takes (takes_label r symbol 0) (.fact symbol .nil) (by simp)⟩
      · rw [loadStatement, hplain] at h
        obtain rfl := Except.ok.inj h
        exact ⟨_, .of_takes (takes_label r symbol l.atom) (.plain symbol hl .nil) (by simp)⟩
      · rw [loadStatement, hplain] at h
        obtain ⟨t, hadd, hs⟩ := exists_of_bind_eq_ok h
        obtain rfl := Except.ok.inj hs
        rw [addRule_eq] at hadd
        obtain ⟨hadds, hreplay⟩ :=
          adds_of_noted (o := .rule ⟨false, [r.nextAtom], condition⟩) rfl hadd
        refine ⟨_, (takes_observe hadds hreplay).trans (takes_label _ symbol _), by simp, ?_⟩
        intro hmax
        -- In the range the next atom is new, and the label is moved to it.
        have hle : r.maxAtom ≤ StablePlan.maxAtom := hadds.le.trans hmax
        have hnext : r.nextAtom = r.maxAtom + 1 := nextAtom_eq (hle.trans_lt (by decide))
        have hbelow : r.nextAtom ≤ t.maxAtom :=
          (hadds.atoms _ List.mem_cons_self r.nextAtom List.mem_cons_self).2
        rw [atom_cast (hbelow.trans hmax)]
        refine ⟨[⟨r.nextAtom, condition⟩], .compound symbol _ hc .nil, by simp, ?_, ?_⟩
        · exact List.forall_mem_singleton.mpr (by dsimp only; omega)
        · exact List.forall_mem_singleton.mpr hbelow

/-- A statement is refused because of an atom that it mentions, or of the new one for a label. -/
theorem noteAtoms_of_loadStatement_error {statement : Statement}
    (h : r.loadStatement statement = .error (e, s)) : ∃ atoms, r.noteAtoms atoms = .error (e, s) ∧
      ∀ atom ∈ atoms, atom ∈ statement.atoms ∨ atom = r.nextAtom := by
  cases statement with
  | rule rule =>
      have hadd : r.addRule rule = .error (e, s) := eq_error_of_bind_eq_error h (by simp)
      exact ⟨_, eq_error_of_bind_eq_error hadd (by simp), fun _ => Or.inl⟩
  | weightRule rule =>
      have hadd : r.addWeightRule rule = .error (e, s) := eq_error_of_bind_eq_error h (by simp)
      exact ⟨_, eq_error_of_bind_eq_error hadd (by simp), fun _ => Or.inl⟩
  | external atom value =>
      have hnote : r.noteAtom atom = .error (e, s) := eq_error_of_bind_eq_error h (by simp)
      refine ⟨[atom], ?_, fun _ => Or.inl⟩
      unfold noteAtoms
      rw [List.foldlM_cons, hnote]
      rfl
  | output symbol condition =>
      cases hplain : plainAtom? condition with
      | some atom =>
          rw [loadStatement, hplain] at h
          cases h
      | none =>
          rw [loadStatement, hplain] at h
          have hadd := eq_error_of_bind_eq_error h (by simp)
          refine ⟨_, eq_error_of_bind_eq_error hadd (by simp), fun atom hatom => ?_⟩
          rcases List.mem_append.mp hatom with hatom | hatom
          · exact Or.inr (List.mem_singleton.mp hatom)
          · exact Or.inl hatom

/-- A statement that is refused takes nothing over. -/
theorem grown_of_loadStatement_error {statement : Statement}
    (h : r.loadStatement statement = .error (e, s)) : Grown r s := by
  obtain ⟨atoms, hnote, -⟩ := noteAtoms_of_loadStatement_error h
  exact grown_of_noteAtoms_error hnote

/-- If none of its atoms is 0, a statement is refused only where there is no new atom left. -/
theorem le_of_loadStatement_error {statement : Statement} (hzero : 0 ∉ statement.atoms)
    (h : r.loadStatement statement = .error (e, s)) : Nat.pow 2 32 - 1 ≤ r.maxAtom := by
  obtain ⟨atoms, hnote, hatoms⟩ := noteAtoms_of_loadStatement_error h
  by_contra hlt
  have hno : 0 ∉ atoms := fun hmem => by
    rcases hatoms 0 hmem with hmem | hnext
    · exact hzero hmem
    · rw [nextAtom_eq (not_le.mp hlt)] at hnext
      omega
  obtain ⟨t, hok⟩ := noteAtoms_ok hno r
  rw [hok] at hnote
  cases hnote

/-- The state that a step leaves, also if it fails. -/
def left : Step → Reasoner
  | .ok r => r
  | .error (_, r) => r

/-- Statements are taken over in turn, up to the first that is refused. -/
theorem loads_foldlM (statements : List Statement) (r : Reasoner) :
    ∃ done log, done <+: statements ∧ Loads r (left (statements.foldlM loadStatement r)) done log ∧
      ∀ s, statements.foldlM loadStatement r = .ok s → done = statements := by
  induction statements generalizing r with
  | nil => exact ⟨[], [], List.prefix_refl [], .refl r, fun _ _ => rfl⟩
  | cons statement statements ih =>
      rw [List.foldlM_cons]
      rcases hfirst : r.loadStatement statement with ⟨e, s⟩ | s
      · refine ⟨[], [], List.nil_prefix, ?_, fun s hs => by cases hs⟩
        exact ⟨(grown_of_loadStatement_error hfirst).takes, by simp,
          fun _ => ⟨[], .nil, .nil, by simp, by simp⟩⟩
      · obtain ⟨log, hs⟩ := loads_of_loadStatement hfirst
        obtain ⟨done, log', hdone, ht, hall⟩ := ih s
        refine ⟨statement :: done, log ++ log', List.cons_prefix_cons.mpr ⟨rfl, hdone⟩,
          hs.trans ht, fun t htt => ?_⟩
        rw [hall t htt]

theorem le_of_foldlM_error {statements : List Statement} (hzero : ∀ s ∈ statements, 0 ∉ s.atoms)
    (h : statements.foldlM loadStatement r = .error (e, s)) : Nat.pow 2 32 - 1 ≤ s.maxAtom := by
  induction statements generalizing r with
  | nil => cases h
  | cons statement statements ih =>
      rw [List.foldlM_cons] at h
      rcases hfirst : r.loadStatement statement with e' | t
      · rw [hfirst] at h
        obtain rfl := Except.error.inj h
        exact (le_of_loadStatement_error (hzero statement (by simp)) hfirst).trans
          (grown_of_loadStatement_error hfirst).le
      · rw [hfirst] at h
        exact ih (fun s hs => hzero s (by simp [hs])) h

/-- A load that succeeds has first seen all atoms of its statements. -/
theorem exists_loads_of_load {statements : List Statement} (hload : r.load statements = .ok s) :
    ∃ t log, Grown r t ∧ (∀ s ∈ statements, ∀ atom ∈ s.atoms, InRange t.maxAtom atom) ∧
      Loads t s statements log := by
  obtain ⟨t, hnote, hload⟩ := exists_of_bind_eq_ok hload
  obtain ⟨hgrown, hr⟩ := grown_noteAtoms hnote
  obtain ⟨done, log, -, hloads, hall⟩ := loads_foldlM statements t
  rw [hall s hload, hload] at hloads
  exact ⟨t, log, hgrown, fun s hs atom hatom => hr atom (List.mem_flatMap.mpr ⟨s, hs, hatom⟩),
    hloads⟩

/-- A load fails before it takes anything over, unless there is no new atom left. -/
theorem grown_of_load_error {statements : List Statement}
    (hload : r.load statements = .error (e, s)) (hmax : s.maxAtom < Nat.pow 2 32 - 1) :
    Grown r s := by
  unfold Reasoner.load at hload
  rcases hnote : r.noteAtoms (statements.flatMap Statement.atoms) with e' | t
  · rw [hnote] at hload
    obtain rfl := Except.error.inj hload
    exact grown_of_noteAtoms_error hnote
  · rw [hnote] at hload
    obtain ⟨-, hr⟩ := grown_noteAtoms hnote
    refine absurd (le_of_foldlM_error (fun s hs hmem => ?_) hload) (not_le.mpr hmax)
    exact absurd (hr 0 (List.mem_flatMap.mpr ⟨s, hs, hmem⟩)).1 (lt_irrefl 0)

/-- Whatever a load leaves, it replays what it has taken over, and adds no weights of its own. -/
theorem takes_load (r : Reasoner) (statements : List Statement) :
    ∃ log, Takes r (left (r.load statements)) log ∧
      ∀ rule, Observation.weightRule rule ∈ log → Statement.weightRule rule ∈ statements := by
  unfold Reasoner.load
  rcases hnote : r.noteAtoms (statements.flatMap Statement.atoms) with ⟨e, t⟩ | t
  · exact ⟨[], (grown_of_noteAtoms_error hnote).takes, by simp⟩
  · obtain ⟨done, log, hdone, hloads, -⟩ := loads_foldlM statements t
    exact ⟨[] ++ log, (grown_noteAtoms hnote).1.takes.trans hloads.toTakes,
      fun rule hrule => hdone.subset (hloads.weights rule hrule)⟩

/-! ### Calls -/

/-- A call that fails has noted some atoms, and nothing else, as long as there are new atoms for
what is loaded. -/
theorem grown_of_step_error {c : Call} (hstep : c.step r = .error (e, s))
    (hmax : ∀ statements, c = .load statements → s.maxAtom < Nat.pow 2 32 - 1) : Grown r s := by
  cases c with
  | load statements => exact grown_of_load_error hstep (hmax statements rfl)
  | addRule rule => exact grown_of_add_error ((addRule_eq r rule).symm.trans hstep)
  | addWeightRule rule => exact grown_of_add_error ((addWeightRule_eq r rule).symm.trans hstep)

/-- A load logs what it adds to the replay. -/
theorem takes_logged (r : Reasoner) (statements : List Statement) :
    Takes r ((Call.load statements).after r) ((Call.load statements).logged r) ∧
      ∀ rule, Observation.weightRule rule ∈ (Call.load statements).logged r →
        Statement.weightRule rule ∈ statements := by
  obtain ⟨log, htakes, hweights⟩ := takes_load r statements
  have hlog : (Call.load statements).logged r = log := by
    change ((Call.load statements).after r).replay.toList.drop r.replay.size = log
    have hafter : (Call.load statements).after r = left (r.load statements) := by
      unfold Call.after Call.step left
      rfl
    rw [hafter, htakes.replay]
    simp
  rw [hlog]
  exact ⟨htakes, hweights⟩

/-- Every call takes over what it logs. -/
theorem adds_call (r : Reasoner) (c : Call) : Adds r (c.after r) (c.logged r) := by
  cases c with
  | load statements => exact (takes_logged r statements).1.toAdds
  | addRule rule =>
      unfold Call.after Call.logged
      rcases hstep : Call.step r (.addRule rule) with ⟨e, s⟩ | s
      · exact (grown_of_add_error ((addRule_eq r rule).symm.trans hstep)).adds
      · exact (adds_of_noted (o := .rule rule) rfl ((addRule_eq r rule).symm.trans hstep)).1
  | addWeightRule rule =>
      unfold Call.after Call.logged
      rcases hstep : Call.step r (.addWeightRule rule) with ⟨e, s⟩ | s
      · exact (grown_of_add_error ((addWeightRule_eq r rule).symm.trans hstep)).adds
      · exact (adds_of_noted (o := .weightRule rule) rfl
          ((addWeightRule_eq r rule).symm.trans hstep)).1

/-! ### The record -/

theorem declared?_concat (log : List Observation) (o : Observation) (atom : Nat) :
    declared? (log ++ [o]) atom = (o.declares? atom).or (declared? log atom) := by
  unfold declared?
  rw [List.reverse_append, List.reverse_singleton, List.singleton_append, List.findSome?_cons]
  cases o.declares? atom <;> rfl

/-- The table has for every atom the value that the log declares last. -/
structure Tabulates (externals : List (Nat × ExternalValue)) (log : List Observation) : Prop where
  sorted : externals.Pairwise (·.1 < ·.1)
  mem_iff : ∀ atom value, (atom, value) ∈ externals ↔ declared? log atom = some value

theorem tabulates_nil : Tabulates [] [] := ⟨.nil, by simp [declared?]⟩

theorem Tabulates.declare {externals : List (Nat × ExternalValue)} (h : Tabulates externals log)
    (o : Observation) : Tabulates (declare externals o) (log ++ [o]) := by
  cases o with
  | external atom value =>
      refine ⟨Ascending.sorted_put h.sorted, fun a v => ?_⟩
      rw [declared?_concat, Reasoner.declare, Ascending.mem_put h.sorted]
      unfold Observation.declares?
      by_cases ha : atom = a
      · simp [ha, eq_comm]
      · simpa [ha, Ne.symm ha] using h.mem_iff a v
  | rule _ | weightRule _ | label _ _ =>
      refine ⟨h.sorted, fun a v => ?_⟩
      rw [declared?_concat]
      exact h.mem_iff a v

theorem Tabulates.foldl {externals : List (Nat × ExternalValue)} (h : Tabulates externals log)
    (new : List Observation) : Tabulates (new.foldl Reasoner.declare externals) (log ++ new) := by
  induction new generalizing externals log with
  | nil => simpa using h
  | cons o new ih =>
      rw [List.foldl_cons, List.append_cons]
      exact ih (h.declare o)

theorem represents_empty (limit : Limit) : (empty limit).Represents [] :=
  ⟨rfl, by simp [empty, declared?], by simp [empty], by simp⟩

/-- What is taken over is recorded. -/
theorem Represents.adds {new : List Observation} (h : r.Represents log) (hadds : Adds r s new) :
    s.Represents (log ++ new) := by
  have htable := (Tabulates.mk h.sorted h.externals).foldl new
  rw [← hadds.externals] at htable
  refine ⟨?_, htable.mem_iff, htable.sorted, fun o ho atom hatom => ?_⟩
  · rw [hadds.clauses, h.clauses, List.flatMap_append]
  · rcases List.mem_append.mp ho with ho | ho
    · exact (h.atoms o ho atom hatom).mono hadds.le
    · exact hadds.atoms o ho atom hatom

theorem Represents.grown (h : r.Represents log) (hg : Grown r s) : s.Represents log := by
  simpa using h.adds hg.adds

/-- Adding the rule of an event adds the event to the record. -/
theorem Represents.addNoted (h : r.Represents log) {o : Observation} {c : Clause}
    (hrule : o.rule? = some c)
    (hadd : (r.noteAtoms o.atoms).map (·.addClauses c.shifted) = .ok s) :
    s.Represents (log ++ [o]) ∧ s.replay = r.replay ∧ r.maxAtom ≤ s.maxAtom := by
  obtain ⟨hadds, hreplay⟩ := adds_of_noted hrule hadd
  exact ⟨h.adds hadds, hreplay, hadds.le⟩

/-- One call keeps the record. -/
theorem Represents.call (h : r.Represents log) (c : Call) :
    (c.after r).Represents (log ++ c.logged r) :=
  h.adds (adds_call r c)

theorem hasFittingWeights_logged {c : Call} (hw : c.HasFittingWeights) (r : Reasoner) :
    ∀ o ∈ c.logged r, o.HasFittingWeights := by
  cases c with
  | load statements =>
      intro o ho
      cases o with
      | weightRule rule =>
          exact hw (.weightRule rule) ((takes_logged r statements).2 rule ho)
      | rule _ | external _ _ | label _ _ => trivial
  | addRule rule =>
      rcases hstep : Call.step r (.addRule rule) with e | s
      · simp [Call.logged, hstep]
      · simp [Call.logged, hstep, Observation.HasFittingWeights]
  | addWeightRule rule =>
      rcases hstep : Call.step r (.addWeightRule rule) with e | s
      · simp [Call.logged, hstep]
      · simp only [Call.logged, hstep]
        exact List.forall_mem_singleton.mpr hw

theorem Reached.isExactFor (h : r.Reached log) : r.IsExactFor log := by
  induction h with
  | empty limit => exact ⟨represents_empty limit, by simp⟩
  | call c _ hw ih =>
      exact ⟨ih.call c, List.forall_mem_append.mpr ⟨ih.weights, hasFittingWeights_logged hw _⟩⟩

/-- A program that is loaded first is recorded as it is replayed. -/
theorem represents_of_load {limit : Limit} {program : List Statement}
    (hload : (empty limit).load program = .ok r) : r.Represents r.replay.toList ∧
      ∀ rule, Observation.weightRule rule ∈ r.replay.toList →
        Statement.weightRule rule ∈ program := by
  obtain ⟨log, htakes, hweights⟩ := takes_load (empty limit) program
  rw [hload] at htakes
  have hreplay : r.replay.toList = log := by simpa [left, empty] using htakes.replay
  rw [hreplay]
  exact ⟨by simpa [left] using (represents_empty limit).adds htakes.toAdds, hweights⟩

/-- A state that calls have formed has what they logged, and nothing else. -/
theorem Formed.exists_adds (h : r.Formed log) : ∃ limit, Adds (.empty limit) r log := by
  induction h with
  | empty limit => exact ⟨limit, (Grown.refl _).adds⟩
  | withLimit _ _ ih =>
      obtain ⟨limit, hadds⟩ := ih
      exact ⟨limit, hadds.clauses, hadds.externals, hadds.le, hadds.atoms⟩
  | @call r log c _ ih => exact ih.imp fun _ hadds => hadds.trans (adds_call r c)

theorem Formed.tabulates (h : r.Formed log) : Tabulates r.externals log := by
  obtain ⟨limit, hadds⟩ := h.exists_adds
  rw [hadds.externals]
  exact tabulates_nil.foldl log

theorem Formed.represents (h : r.Formed log) : r.Represents log := by
  obtain ⟨limit, hadds⟩ := h.exists_adds
  exact (represents_empty limit).adds hadds

end Reasoner

/-! ### A program with a sum out of range -/

def wrappingProgram : List Statement :=
  [.weightRule wrappingRule, .output (.constant "lit") [.positive 3]]

def wrappingReasoner : Reasoner := (Call.load wrappingProgram).after (.empty .unlimited)

end StablePlan
