import StablePlan.Proofs.Stable.Solve
import StablePlan.Proofs.Unrolling.Grounding
import StablePlan.Proofs.Unrolling.Trajectory

/-!
Telling a backend what an unrolling needs. It holds the program of the grounded steps and
constraints besides, in whatever order they came. A reasoner, asked under the assumptions of the
unrolling, looks for a stable set of the unrolled program in which the switches have their values
and no constraint is violated.
-/

namespace StablePlan

namespace Reasoner

variable {r : Reasoner} {log : List Observation} {assumptions : List Literal} {X : Set Nat}

/-- Without externals nothing but the assumptions is asked for. -/
theorem Represents.meets_iff (h : r.Represents log)
    (hnone : ∀ atom value, Observation.external atom value ∉ log) :
    r.Meets assumptions X ↔ r.theory.IsStable X ∧ ∀ l ∈ assumptions, l.HoldsIn X X := by
  have hexternals : r.externals = [] := by
    refine List.eq_nil_iff_forall_not_mem.mpr fun ⟨atom, value⟩ he => ?_
    exact hnone atom value (external_mem_of_declared? ((h.externals atom value).mp he))
  have htheory : (r.problem false assumptions).theory = r.theory := by
    have hgiven : (r.problem false assumptions).theory.given = ∅ := by
      ext atom
      rw [h.mem_given, hexternals]
      simp
    exact Theory.ext rfl hgiven rfl rfl rfl
  unfold Meets root
  rw [htheory, hexternals, List.filterMap_nil, List.append_nil]

end Reasoner

namespace Unrolling

variable {u : Unrolling} {bodies : Set (List Literal)} {body : List Literal} {X : Set Nat}
  {s k last : Nat}

/-! ### How far an unrolling got -/

theorem groundedTo_frame (hsorted : Ascending.IsSorted u.assigned) (hlast : u.steps < last) :
    (u.groundedTo last).template = u.template ∧ (u.groundedTo last).started = true ∧
      (u.groundedTo last).steps = last ∧ Ascending.IsSorted (u.groundedTo last).assigned := by
  obtain ⟨htemplate, hstarted, hassigned⟩ := foldl_enter (u := { u with started := true })
    hsorted (u.steps + 1) (last - u.steps)
  refine ⟨htemplate, hstarted, ?_, hassigned⟩
  unfold groundedTo
  rw [steps_foldl_enter, if_neg (by omega)]
  omega

open Classical in
theorem value?_groundedTo : (u.groundedTo last).value? s k =
    if (u.steps < s ∧ s ≤ last) ∧ u.template.IsHandle k then some false else u.value? s k := by
  unfold groundedTo
  rw [value?_foldl_enter]
  refine if_congr (and_congr_left fun _ => ?_) rfl rfl
  omega

/-- What is told until the steps of an unrolling are grounded. -/
def told (u : Unrolling) : List Observation :=
  (if u.started then u.template.startEvents else []) ++
    (List.range' 1 u.steps).flatMap u.template.eventsAt

theorem mem_told_groundedTo (hsorted : Ascending.IsSorted u.assigned) (hlast : u.steps < last)
    {o : Observation} :
    o ∈ (u.groundedTo last).told ↔ o ∈ u.told ∨ o ∈ u.nextEvents last := by
  obtain ⟨htemplate, hstarted, hsteps, -⟩ := groundedTo_frame hsorted hlast
  have hrange : List.range' 1 last =
      List.range' 1 u.steps ++ List.range' (u.steps + 1) (last - u.steps) := by
    rw [Nat.add_comm u.steps 1, List.range'_append_1, Nat.add_sub_cancel' hlast.le]
  unfold told nextEvents
  rw [htemplate, hstarted, hsteps, hrange, List.flatMap_append, if_pos rfl]
  cases u.started with
  | true => simp [or_assoc]
  | false => simp [or_left_comm]

theorem told_not_external {atom : Nat} {value : ExternalValue} :
    Observation.external atom value ∉ u.told := by
  unfold told Template.startEvents Template.eventsAt
  simp only [List.mem_append, List.mem_flatMap, not_or, not_exists, not_and]
  refine ⟨?_, fun s _ => ⟨fun rule _ => ?_, fun rule _ => ?_⟩⟩
  · split <;> simp
  · simp
  · simp

theorem hasFittingWeights_told (hfit : u.template.HasFittingWeights) :
    ∀ o ∈ u.told, o.HasFittingWeights := by
  unfold told Template.startEvents Template.eventsAt
  simp only [List.mem_append, List.mem_flatMap, Option.mem_toList, Option.map_eq_some_iff]
  rintro o (hstart | ⟨s, -, ⟨rule, -, moved, -, rfl⟩ | ⟨rule, hrule, moved, hmoved, rfl⟩⟩)
  · split at hstart
    · obtain ⟨k, -, rfl⟩ := List.mem_map.mp hstart
      trivial
    · exact absurd hstart (by simp)
  · trivial
  · exact Template.hasFittingWeights_of_relocateWeight hmoved (hfit rule hrule)

/-! ### What a backend was told -/

section Backend

variable {β : Type} [Backend β] {K : Ledger β} {b : β}

/-- The backend was told the program of the unrolling and constraints besides. -/
def Told (K : Ledger β) (u : Unrolling) (b : β) (bodies : Set (List Literal)) : Prop :=
  ∃ log, K.Logs b log ∧
    ∀ o, o ∈ log ↔ o ∈ u.told ∨ ∃ body ∈ bodies, o = .rule (.constraint body)

theorem told_empty (t : Template) (h : K.Logs b []) : Told K { template := t } b ∅ :=
  ⟨[], h, by simp [told]⟩

/-- Grounding further, if the last step fits. -/
theorem Told.ground (h : u.Told K b bodies) (hbands : u.template.Banded)
    (hfits : u.template.fits last) (hsorted : Ascending.IsSorted u.assigned)
    (hlast : u.steps < last) :
    ∃ b', u.ground b (u.steps + 1) last = .ok (u.groundedTo last, b') ∧
      (u.groundedTo last).Told K b' bodies := by
  obtain ⟨log, hlog, hmem⟩ := h
  obtain ⟨b', hground, hlog'⟩ := Ledger.ground_eq_ok hlog hbands hfits
  refine ⟨b', hground, _, hlog', fun o => ?_⟩
  rw [List.mem_append, hmem, mem_told_groundedTo hsorted hlast, or_right_comm]

/-- A constraint on atoms is taken. -/
theorem Told.constrain (h : u.Told K b bodies) (hzero : ∀ l ∈ body, l.atom ≠ 0) :
    ∃ b', Backend.addRule b (.constraint body) = .ok b' ∧
      u.Told K b' (insert body bodies) := by
  obtain ⟨log, hlog, hmem⟩ := h
  have hatoms : 0 ∉ (Rule.constraint body).clause.atoms := by
    simpa [Clause.atoms, Rule.clause, Rule.constraint] using hzero
  obtain ⟨b', hadd, hlog'⟩ := K.addRule hlog hatoms
  refine ⟨b', hadd, _, hlog', fun o => ?_⟩
  simp [hmem, or_assoc, or_comm (a := o = _)]

/-- A released external is false for good. -/
theorem Told.release (h : u.Told K b bodies) (hgrounded : u.isGrounded s)
    (hrange : InRange maxAtom (s * u.template.period + k)) :
    ∃ b', u.release b ⟨s, k⟩ =
        .ok (u.assuming (Ascending.remove ⟨s, k⟩ u.assigned), b') ∧
      u.Told K b' (insert [.positive (s * u.template.period + k)] bodies) := by
  have hzero : ∀ l ∈ [Literal.positive (s * u.template.period + k)], l.atom ≠ 0 := by
    have hpos := hrange.1
    simp only [List.mem_singleton, forall_eq, Literal.positive, Literal.atom, Int.natAbs_natCast]
    omega
  obtain ⟨b', hadd, h'⟩ := h.constrain hzero
  refine ⟨b', ?_, h'⟩
  unfold Unrolling.release
  rw [if_neg (by simp [hgrounded]), literal?_eq hrange]
  unfold tell
  dsimp only
  rw [hadd]
  rfl

end Backend

/-! ### What a reasoner is asked for -/

/-- A stable set in which the switches have their values and no constraint is violated. -/
structure Admits (u : Unrolling) (bodies : Set (List Literal)) (X : Set Nat) : Prop where
  stable : (u.template.unrolled u.steps).IsStable X
  values : ∀ s k v, u.value? s k = some v → (s * u.template.period + k ∈ X ↔ v = true)
  allowed : ∀ body ∈ bodies, ¬∀ l ∈ body, l.HoldsIn X X

theorem bodyHolds_none {D : Set Nat} :
    BodyHolds body none D X ↔ ∀ l ∈ body, l.HoldsIn D X := by
  simp [BodyHolds]

variable {r : Reasoner} {limit : Limit}

/-- The stable sets of all that was told. -/
theorem Told.theory_isStable_iff (h : u.Told (Reasoner.ledger limit) r bodies)
    (hstarted : u.started = true) :
    r.theory.IsStable X ↔
      (u.template.unrolled u.steps).IsStable X ∧ ∀ body ∈ bodies, ¬∀ l ∈ body, l.HoldsIn X X := by
  obtain ⟨log, hlog, hmem⟩ := h
  have htold : ∀ c, (∃ o ∈ u.told, c ∈ o.clauses) ↔
      c ∈ (u.template.unrolled u.steps).clauses := by
    intro c
    rw [← exists_clause_iff]
    unfold told
    rw [if_pos hstarted]
  have hconstraint : ∀ body, (Observation.rule (.constraint body)).clauses =
      [⟨false, [], body, none⟩] := fun _ => rfl
  have htheory : r.theory = { u.template.unrolled u.steps with
      clauses := (u.template.unrolled u.steps).clauses ∪
        {c | ∃ body ∈ bodies, c = ⟨false, [], body, none⟩} } := by
    unfold Reasoner.theory
    refine Theory.ext (Set.ext fun c => ?_) rfl rfl rfl rfl
    change c ∈ r.clauses.toList ↔ _
    rw [(show r.Logs limit log from hlog).represents.mem_clauses, Set.mem_union, ← htold]
    simp only [hmem, or_and_right, exists_or, Set.mem_ofPred_eq]
    refine or_congr_right ⟨?_, ?_⟩
    · rintro ⟨o, ⟨body, hbody, rfl⟩, hc⟩
      exact ⟨body, hbody, by simpa [hconstraint] using hc⟩
    · rintro ⟨body, hbody, rfl⟩
      exact ⟨_, ⟨body, hbody, rfl⟩, by simp [hconstraint]⟩
  rw [Theory.isStable_constraints_iff htheory]
  · refine and_congr_right fun _ => ⟨fun hall body hbody => ?_, ?_⟩
    · exact mt bodyHolds_none.mpr (hall _ ⟨body, hbody, rfl⟩)
    · rintro hall _ ⟨body, hbody, rfl⟩
      exact mt bodyHolds_none.mp (hall body hbody)
  · rintro _ ⟨body, -, rfl⟩
    exact ⟨rfl, rfl⟩
  · rintro _ ⟨body, -, rfl⟩ s hs
    exact absurd hs (Option.not_mem_none s)

/-- The atom of a handle occurs at every grounded step. -/
theorem Told.inRange_atom (h : u.Told (Reasoner.ledger limit) r bodies)
    (hlaid : u.template.Laid) (hfits : u.template.fits u.steps) (hone : 1 ≤ s) (hs : s ≤ u.steps)
    (hk : u.template.IsHandle k) : InRange r.maxAtom (s * u.template.period + k) := by
  obtain ⟨log, hlog, hmem⟩ := h
  replace hlog : r.Logs limit log := hlog
  have hchoice := hlaid.choice k hk
  have hmove := Template.canMove_of_fits hfits hone hs
  obtain ⟨moved, hmoved, hclause⟩ :=
    Template.relocate_eq hmove (hlaid.rules _ hchoice)
  have hevent : Observation.rule moved ∈ u.told := by
    refine List.mem_append_right _ (List.mem_flatMap.mpr ⟨s, ?_, ?_⟩)
    · rw [List.mem_range'_1]
      omega
    · refine List.mem_append_left _ (List.mem_flatMap.mpr ⟨_, hchoice, ?_⟩)
      rw [hmoved]
      exact List.mem_singleton_self _
  have hhead : moved.head = [u.template.period + k + (s - 1) * u.template.period] :=
    congrArg Clause.head hclause
  have hatom : s * u.template.period + k = u.template.period + k + (s - 1) * u.template.period := by
    obtain ⟨j, rfl⟩ : ∃ j, s = j + 1 := ⟨s - 1, by omega⟩
    rw [Nat.add_sub_cancel, Nat.add_mul, Nat.one_mul]
    omega
  refine hlog.represents.atoms _ ((hmem _).mpr (Or.inl hevent)) _ ?_
  rw [hatom]
  exact List.mem_append_left _ (hhead ▸ List.mem_singleton_self _)

/-- A solve call under the assumptions of the unrolling. -/
theorem Told.exists_report (h : u.Told (Reasoner.ledger limit) r bodies)
    (hlaid : u.template.Laid) (hfit : u.template.HasFittingWeights) (hstarted : u.started = true)
    (hfits : u.template.fits u.steps) (hsorted : Ascending.IsSorted u.assigned)
    (hswitched : u.Switched) :
    ∃ report, r.solve u.assumptions = .ok report ∧
      match report.result with
      | .satisfiable m => u.Admits bodies m.trueSet
      | .unsatisfiable => ∀ X, ¬u.Admits bodies X
      | .unknown => limit ≠ .unlimited := by
  have hassumable := hswitched.assumable hlaid hfits
  -- A solve call takes only assumptions on atoms that occur.
  have hatoms : ∀ l ∈ u.assumptions, InRange r.maxAtom l.atom := by
    intro l hl
    obtain ⟨s, k, v, hv, hatom⟩ := atom_of_mem_assumptions hsorted hassumable hl
    obtain ⟨⟨hone, hs⟩, hk⟩ := hswitched s k v hv
    exact hatom ▸ h.inRange_atom hlaid hfits hone hs hk
  have hmeets : ∀ X, r.Meets u.assumptions X ↔ u.Admits bodies X := by
    intro X
    have hstable := h.theory_isStable_iff (X := X) hstarted
    obtain ⟨log, hlog, hmem⟩ := h
    have hnone : ∀ atom value, Observation.external atom value ∉ log := by
      intro atom value
      rw [hmem]
      rintro (htold | ⟨body, -, heq⟩)
      · exact told_not_external htold
      · cases heq
    rw [(show r.Logs limit log from hlog).represents.meets_iff hnone, hstable,
      assumptions_hold_iff hsorted hassumable]
    constructor
    · rintro ⟨⟨hrun, hallowed⟩, hvalues⟩
      exact ⟨hrun, hvalues, hallowed⟩
    · rintro ⟨hrun, hvalues, hallowed⟩
      exact ⟨⟨hrun, hallowed⟩, hvalues⟩
  obtain ⟨log, hlog, hmem⟩ := id h
  replace hlog : r.Logs limit log := hlog
  have hweights : ∀ o ∈ log, o.HasFittingWeights := by
    intro o ho
    rcases (hmem o).mp ho with htold | ⟨body, -, rfl⟩
    · exact hasFittingWeights_told hfit o htold
    · trivial
  have hexact : r.IsExactFor log := ⟨hlog.represents, hweights⟩
  obtain ⟨report, hsolve, hanswers⟩ := hexact.exists_report hatoms
  refine ⟨report, hsolve, ?_⟩
  revert hanswers
  cases report.result with
  | satisfiable m => exact (hmeets m.trueSet).mp
  | unsatisfiable => exact fun hno X hX => hno X ((hmeets X).mpr hX)
  | unknown => exact fun hne => hlog.limit ▸ hne

end Unrolling

end StablePlan
