import StablePlan.Proofs.Unrolling.Reading

/-!
Keeping account of what a backend is told. Grounding relies on little of a backend: that it takes
the rules it is given. So it is described for every backend and every way to keep account of what
was told; a reasoner keeps a log, and a transcript has its messages.
-/

namespace StablePlan

/-- A way to keep account of what a backend was told. Every rule without the reserved atom is
taken, and it may be asked to solve under certain assumptions. -/
structure Ledger (β : Type) [Backend β] where
  Logs : β → List Observation → Prop
  Asks : List Literal → Prop
  addRule : ∀ {b log rule}, Logs b log → 0 ∉ rule.clause.atoms →
    ∃ b', Backend.addRule b rule = .ok b' ∧ Logs b' (log ++ [.rule rule])
  addWeightRule : ∀ {b log rule}, Logs b log → 0 ∉ rule.clause.atoms →
    ∃ b', Backend.addWeightRule b rule = .ok b' ∧ Logs b' (log ++ [.weightRule rule])
  solve : ∀ {b log assumptions}, Logs b log → Asks assumptions →
    Logs (Backend.solve b assumptions).2 log

namespace Template

variable {t : Template} {s : Nat}

/-- What is told at the start. -/
def startEvents (t : Template) : List Observation := t.init.map fun k => .rule (.fact k)

/-- What is told at a step. -/
def eventsAt (t : Template) (s : Nat) : List Observation :=
  t.rules.flatMap (fun r => ((t.relocate r s).map .rule).toList) ++
    t.weightRules.flatMap fun r => ((t.relocateWeight r s).map .weightRule).toList

theorem exists_clause_startEvents {c : Clause} : (∃ o ∈ t.startEvents, c ∈ o.clauses) ↔
    ∃ k ∈ t.init, c ∈ (Rule.fact k).clause.shifted := by
  unfold startEvents
  simp [Observation.clauses, Observation.rule?]

theorem exists_clause_eventsAt {c : Clause} :
    (∃ o ∈ t.eventsAt s, c ∈ o.clauses) ↔ c ∈ t.clausesAt s := by
  have hrule : ∀ r : Rule, (Observation.rule r).clauses = r.clause.shifted := fun r => by
    simp [Observation.clauses, Observation.rule?]
  have hweight : ∀ r : WeightRule, (Observation.weightRule r).clauses = r.clause.shifted :=
    fun r => by simp [Observation.clauses, Observation.rule?]
  unfold eventsAt clausesAt
  simp only [List.mem_append, List.mem_flatMap, Option.mem_toList, Option.mem_def,
    Option.map_eq_some_iff, or_and_right, exists_or, Set.mem_ofPred_eq]
  refine or_congr ⟨?_, ?_⟩ ⟨?_, ?_⟩
  · rintro ⟨o, ⟨r, hr, r', hr', rfl⟩, hc⟩
    exact ⟨r, hr, r', hr', hrule r' ▸ hc⟩
  · rintro ⟨r, hr, r', hr', hc⟩
    exact ⟨_, ⟨r, hr, r', hr', rfl⟩, (hrule r').symm ▸ hc⟩
  · rintro ⟨o, ⟨r, hr, r', hr', rfl⟩, hc⟩
    exact ⟨r, hr, r', hr', hweight r' ▸ hc⟩
  · rintro ⟨r, hr, r', hr', hc⟩
    exact ⟨_, ⟨r, hr, r', hr', rfl⟩, (hweight r').symm ▸ hc⟩

/-- What is told of a step that can be reached keeps to atoms above zero. -/
theorem zero_not_mem_moved {c : Clause} {offset : Nat} (hc : ∀ k ∈ c.atoms, 1 ≤ k) :
    0 ∉ (c.mapAtoms (· + offset)).atoms := by
  rw [Clause.atoms_mapAtoms]
  intro hmem
  obtain ⟨k, hk, heq⟩ := List.mem_map.mp hmem
  have := hc k hk
  omega

end Template

namespace Ledger

variable {β : Type} [Backend β] {K : Ledger β} {b : β} {log : List Observation} {u : Unrolling}
  {s last : Nat}

theorem tell_eq_ok (h : K.Logs b log) {rule : Rule} (hzero : 0 ∉ rule.clause.atoms)
    (u : Unrolling) :
    ∃ b', u.tell b rule = .ok (u, b') ∧ K.Logs b' (log ++ [.rule rule]) := by
  obtain ⟨b', hadd, hlog⟩ := K.addRule h hzero
  refine ⟨b', ?_, hlog⟩
  unfold Unrolling.tell
  rw [hadd]

theorem tellWeight_eq_ok (h : K.Logs b log) {rule : WeightRule} (hzero : 0 ∉ rule.clause.atoms)
    (u : Unrolling) :
    ∃ b', u.tellWeight b rule = .ok (u, b') ∧ K.Logs b' (log ++ [.weightRule rule]) := by
  obtain ⟨b', hadd, hlog⟩ := K.addWeightRule h hzero
  refine ⟨b', ?_, hlog⟩
  unfold Unrolling.tellWeight
  rw [hadd]

/-- Telling things one after the other. -/
theorem foldlM_eq_ok {α : Type}
    {f : Unrolling × β → α → Except (Unrolling.Failure β) (Unrolling × β)}
    {e : α → List Observation} {xs : List α}
    (hstep : ∀ x ∈ xs, ∀ (log : List Observation) (b : β), K.Logs b log →
      ∃ b', f (u, b) x = .ok (u, b') ∧ K.Logs b' (log ++ e x))
    (h : K.Logs b log) :
    ∃ b', xs.foldlM f (u, b) = .ok (u, b') ∧ K.Logs b' (log ++ xs.flatMap e) := by
  induction xs generalizing log b with
  | nil => exact ⟨b, rfl, by simpa⟩
  | cons x xs ih =>
      obtain ⟨b₁, hfirst, hb₁⟩ := hstep x (by simp) log b h
      obtain ⟨b₂, hrest, hb₂⟩ := ih (fun y hy => hstep y (by simp [hy])) hb₁
      refine ⟨b₂, ?_, ?_⟩
      · rw [List.foldlM_cons, hfirst]
        exact hrest
      · rw [List.flatMap_cons, ← List.append_assoc]
        exact hb₂

/-- The initial state is told once. -/
theorem start_eq_ok (h : K.Logs b log) (hbands : u.template.Banded) (hstarted : u.started = false) :
    ∃ b', u.start b = .ok ({ u with started := true }, b') ∧
      K.Logs b' (log ++ u.template.startEvents) := by
  have hfact : ∀ k ∈ u.template.init, ∀ (log : List Observation) (b : β), K.Logs b log →
      ∃ b', u.tell b (.fact k) = .ok (u, b') ∧ K.Logs b' (log ++ [.rule (.fact k)]) := by
    intro k hk log b hb
    apply tell_eq_ok hb
    have := (hbands.init k hk).1
    simp [Rule.fact, Rule.clause, Clause.atoms]
    omega
  obtain ⟨b', hfold, hb'⟩ := foldlM_eq_ok (f := fun s k => s.1.tell s.2 (.fact k))
    (e := fun k => [.rule (.fact k)]) hfact h
  refine ⟨b', ?_, ?_⟩
  · unfold Unrolling.start
    rw [hstarted]
    exact congrArg (fun x => x >>= fun s => Except.ok ({ s.1 with started := true }, s.2)) hfold
  · unfold Template.startEvents
    rw [List.map_eq_flatMap]
    exact hb'

theorem tellAt_eq_ok (h : K.Logs b log) (hmove : u.template.CanMove s) {rule : Rule}
    (hrange : ∀ k ∈ rule.clause.atoms, 1 ≤ k ∧ k ≤ 2 * u.template.period) :
    ∃ b', Unrolling.tellAt s (u, b) rule = .ok (u, b') ∧
      K.Logs b' (log ++ ((u.template.relocate rule s).map .rule).toList) := by
  obtain ⟨moved, hmoved, hclause⟩ := Template.relocate_eq hmove hrange
  have hzero : 0 ∉ moved.clause.atoms := by
    rw [hclause]
    exact Template.zero_not_mem_moved fun k hk => (hrange k hk).1
  unfold Unrolling.tellAt
  dsimp only
  rw [hmoved]
  exact tell_eq_ok h hzero u

theorem tellWeightAt_eq_ok (h : K.Logs b log) (hmove : u.template.CanMove s) {rule : WeightRule}
    (hrange : ∀ k ∈ rule.clause.atoms, 1 ≤ k ∧ k ≤ 2 * u.template.period) :
    ∃ b', Unrolling.tellWeightAt s (u, b) rule = .ok (u, b') ∧
      K.Logs b' (log ++ ((u.template.relocateWeight rule s).map .weightRule).toList) := by
  obtain ⟨moved, hmoved, hclause⟩ := Template.relocateWeight_eq hmove hrange
  have hzero : 0 ∉ moved.clause.atoms := by
    rw [hclause]
    exact Template.zero_not_mem_moved fun k hk => (hrange k hk).1
  unfold Unrolling.tellWeightAt
  dsimp only
  rw [hmoved]
  exact tellWeight_eq_ok h hzero u

theorem groundStep_eq_ok (h : K.Logs b log) (hbands : u.template.Banded)
    (hmove : u.template.CanMove s) :
    ∃ b', Unrolling.groundStep (u, b) s = .ok (u.enter s, b') ∧
      K.Logs b' (log ++ u.template.eventsAt s) := by
  obtain ⟨b₁, hrules, hb₁⟩ := foldlM_eq_ok (fun rule hrule log b hb =>
    tellAt_eq_ok hb hmove (hbands.rules rule hrule)) h
  obtain ⟨b₂, hrest, hb₂⟩ := foldlM_eq_ok (fun rule hrule log b hb =>
    tellWeightAt_eq_ok hb hmove (hbands.weightRules rule hrule)) hb₁
  refine ⟨b₂, ?_, ?_⟩
  · unfold Unrolling.groundStep
    dsimp only
    rw [hrules]
    change (u.template.weightRules.foldlM (Unrolling.tellWeightAt s) (u, b₁)) >>= _ = _
    rw [hrest]
    rfl
  · unfold Template.eventsAt
    rw [← List.append_assoc]
    exact hb₂

/-- Steps are grounded one after the other. -/
theorem foldlM_groundStep (steps : List Nat) (h : K.Logs b log) (hbands : u.template.Banded)
    (hmove : ∀ s ∈ steps, u.template.CanMove s) :
    ∃ b', steps.foldlM Unrolling.groundStep (u, b) = .ok (steps.foldl Unrolling.enter u, b') ∧
      K.Logs b' (log ++ steps.flatMap u.template.eventsAt) := by
  induction steps generalizing log b u with
  | nil => exact ⟨b, rfl, by simpa⟩
  | cons s steps ih =>
      obtain ⟨b₁, hfirst, hb₁⟩ := groundStep_eq_ok h hbands (hmove s (by simp))
      obtain ⟨b₂, hrest, hb₂⟩ :=
        ih (u := u.enter s) hb₁ hbands fun x hx => hmove x (by simp [hx])
      refine ⟨b₂, ?_, ?_⟩
      · rw [List.foldlM_cons, hfirst]
        exact hrest
      · rw [List.flatMap_cons, ← List.append_assoc]
        exact hb₂

end Ledger

namespace Unrolling

/-- What is told by the next grounding. -/
def nextEvents (u : Unrolling) (last : Nat) : List Observation :=
  (if u.started then [] else u.template.startEvents) ++
    (List.range' (u.steps + 1) (last - u.steps)).flatMap u.template.eventsAt

/-- The unrolling with the steps up to `last` grounded. -/
def groundedTo (u : Unrolling) (last : Nat) : Unrolling :=
  (List.range' (u.steps + 1) (last - u.steps)).foldl enter { u with started := true }

end Unrolling

namespace Ledger

variable {β : Type} [Backend β] {K : Ledger β} {b : β} {log : List Observation} {u : Unrolling}
  {last : Nat}

/-- Grounding goes on where the last grounding ended, if the last step fits. -/
theorem ground_eq_ok (h : K.Logs b log) (hbands : u.template.Banded)
    (hfits : u.template.fits last) :
    ∃ b', u.ground b (u.steps + 1) last = .ok (u.groundedTo last, b') ∧
      K.Logs b' (log ++ u.nextEvents last) := by
  have hstart : ∃ b', u.start b = .ok ({ u with started := true }, b') ∧
      K.Logs b' (log ++ if u.started then [] else u.template.startEvents) := by
    cases hstarted : u.started with
    | true =>
        refine ⟨b, ?_, by simpa⟩
        unfold Unrolling.start
        rw [if_pos hstarted, ← hstarted]
    | false => exact start_eq_ok h hbands hstarted
  obtain ⟨b₁, hstart, hb₁⟩ := hstart
  have hmove : ∀ s ∈ List.range' (u.steps + 1) (last - u.steps), u.template.CanMove s := by
    intro s hs
    rw [List.mem_range'_1] at hs
    exact Template.canMove_of_fits hfits (by omega) (by omega)
  obtain ⟨b₂, hsteps, hb₂⟩ :=
    foldlM_groundStep (u := { u with started := true }) _ hb₁ hbands hmove
  refine ⟨b₂, ?_, ?_⟩
  · unfold Unrolling.ground
    rw [if_neg (by simp), if_neg (by simp [hfits]), hstart]
    have hcount : last + 1 - (u.steps + 1) = last - u.steps := by omega
    rw [hcount]
    exact hsteps
  · unfold Unrolling.nextEvents
    rw [← List.append_assoc]
    exact hb₂

end Ledger

/-- Without room for the last step nothing is grounded. -/
theorem Unrolling.ground_eq_error {β : Type} [Backend β] {u : Unrolling} {b : β} {last : Nat}
    (hfits : ¬u.template.fits last) :
    u.ground b (u.steps + 1) last = .error (.atomOverflow last, u, b) := by
  unfold ground
  rw [if_neg (by simp), if_pos (by simpa using hfits)]

end StablePlan
