import StablePlan.Proofs.Stable.Solve

/-!
Consequences are taken over all stable sets. With every external open a search hands over each
stable set, and combining what they say of an atom tells whether it is in some or in all of them.
-/

namespace StablePlan

/-- The program of a log when every atom that was ever declared external may be chosen either way,
whatever it was declared to be. -/
def openTheory (log : List Observation) : Theory where
  clauses := {c | ∃ o ∈ log, c ∈ o.clauses}
  given := {atom | ∃ value, .external atom value ∈ log}

namespace Reasoner

variable {r : Reasoner} {log : List Observation} {combine : Bool → Bool → Bool} {n : Nat}
  {X : Set Nat}

/-- What models that follow a first one combine to. -/
theorem visitAll_accumulate (values : Array Bool) (ms : List Model) :
    visitAll (accumulate combine) (some values) ms =
      (some (ms.foldl (fun values m => Array.zipWith combine values m.values) values), true) := by
  induction ms generalizing values with
  | nil => rfl
  | cons m ms ih =>
      unfold visitAll
      rw [accumulate]
      exact ih _

/-- An enumeration goes through all models and combines them, starting from the first one. -/
theorem visitAll_accumulate_none (ms : List Model) :
    visitAll (accumulate combine) none ms =
      (ms.head?.map fun m =>
        ms.tail.foldl (fun values m => Array.zipWith combine values m.values) m.values, true) := by
  cases ms with
  | nil => rfl
  | cons m ms =>
      unfold visitAll
      rw [accumulate]
      exact visitAll_accumulate m.values ms

theorem getD_foldl_zipWith {values : Array Bool} {ms : List Model} (hsize : values.size = n)
    (hms : ∀ m ∈ ms, m.values.size = n) {atom : Nat} (hatom : atom < n) :
    (ms.foldl (fun values m => Array.zipWith combine values m.values) values).getD atom false =
        ms.foldl (fun b m => combine b (m.isTrue atom)) (values.getD atom false) ∧
      (ms.foldl (fun values m => Array.zipWith combine values m.values) values).size = n := by
  induction ms generalizing values with
  | nil => exact ⟨rfl, hsize⟩
  | cons m ms ih =>
      have hm := hms m (by simp)
      have hzip : (Array.zipWith combine values m.values).size = n := by simp [hsize, hm]
      obtain ⟨hget, hsize'⟩ := ih hzip fun m hm => hms m (by simp [hm])
      refine ⟨?_, hsize'⟩
      rw [List.foldl_cons, hget, List.foldl_cons]
      congr 1
      simp only [Model.isTrue, Array.getD_eq_getD_getElem?]
      have hlt : atom < values.size := by omega
      have hlt' : atom < m.values.size := by omega
      simp [hlt, hlt']

theorem foldl_or (ms : List Model) (b : Bool) (atom : Nat) :
    ms.foldl (fun b m => b || m.isTrue atom) b = true ↔ b = true ∨ ∃ m ∈ ms, atom ∈ m.trueSet := by
  induction ms generalizing b with
  | nil => simp
  | cons m ms ih =>
      rw [List.foldl_cons, ih]
      simp [Model.trueSet, or_assoc]

theorem foldl_and (ms : List Model) (b : Bool) (atom : Nat) :
    ms.foldl (fun b m => b && m.isTrue atom) b = true ↔ b = true ∧ ∀ m ∈ ms, atom ∈ m.trueSet := by
  induction ms generalizing b with
  | nil => simp
  | cons m ms ih =>
      rw [List.foldl_cons, ih]
      simp [Model.trueSet, and_assoc]

/-- A completed enumeration has seen every stable set with every external open that must not be
lost, and the outcome combines the values of the models that it has seen. -/
theorem Represents.consequences_eq (h : r.Represents log) {result : Option (List Nat)}
    (hok : r.consequences combine = .ok result) :
    ∃ ms : List Model, (∀ m ∈ ms, (r.problem true []).Offers m) ∧
      (∀ X, (r.problem true []).Admits X → ∃ m ∈ ms, m.trueSet = X) ∧
      match ms with
      | [] => result = none
      | m :: ms => ∃ atoms, result = some atoms ∧ ∀ atom, atom ∈ atoms ↔
          atom ≤ r.maxAtom ∧
            ms.foldl (fun b m => combine b (m.isTrue atom)) (m.isTrue atom) = true := by
  have hroot : r.root true [] = [] := by
    unfold root demand?
    simp
  have hrange : ∀ l ∈ r.root true [], InRange r.maxAtom l.atom := h.inRange_root (by simp)
  obtain ⟨ms, hms⟩ := Problem.searched_search (h.ranged true []) r.limit hrange
    (accumulate combine) none
  unfold consequences enumerate at hok
  generalize (r.problem true []).search r.limit (r.root true []) (accumulate combine) none =
    search at hms hok
  obtain ⟨a, decisions, found, flow⟩ := search
  have hvisits := hms.visits
  rw [visitAll_accumulate_none] at hvisits
  obtain ⟨rfl, hflag⟩ := Prod.mk.inj hvisits
  -- No model is enough for an enumeration, so it was not stopped.
  have hflow : flow = .exhausted := by
    cases flow with
    | exhausted => rfl
    | interrupted => cases hok
    | stopped => exact absurd hflag (by simp)
  subst hflow
  obtain rfl := Except.ok.inj hok
  refine ⟨ms, fun m hm => (hms.offers m hm).1, fun X hX => ?_, ?_⟩
  · exact hms.complete rfl X hX (by simp [hroot])
  · rcases ms with _ | ⟨m, ms⟩
    · rfl
    · refine ⟨_, rfl, fun atom => ?_⟩
      have hsize : m.values.size = r.maxAtom + 1 := hms.size m (by simp)
      have hsizes : ∀ k ∈ ms, k.values.size = r.maxAtom + 1 := fun k hk =>
        hms.size k (by simp [hk])
      simp only [List.tail_cons, Model.atoms, List.mem_filter, List.mem_range]
      rw [(getD_foldl_zipWith hsize hsizes (Nat.lt_succ_self r.maxAtom)).2, Nat.lt_succ_iff]
      refine and_congr_right fun hatom => ?_
      rw [Model.isTrue, (getD_foldl_zipWith hsize hsizes (Nat.lt_succ_of_le hatom)).1]
      rfl

/-- Where sums are exact, the models that a completed enumeration has seen are the stable sets. -/
theorem IsExactFor.consequences_eq (h : r.IsExactFor log) {result : Option (List Nat)}
    (hok : r.consequences combine = .ok result) :
    ∃ ms : List Model,
      (∀ X, (r.problem true []).theory.IsStable X ↔ ∃ m ∈ ms, m.trueSet = X) ∧
      match ms with
      | [] => result = none
      | m :: ms => ∃ atoms, result = some atoms ∧ ∀ atom, atom ∈ atoms ↔
          atom ≤ r.maxAtom ∧
            ms.foldl (fun b m => combine b (m.isTrue atom)) (m.isTrue atom) = true := by
  have hwell := h.wellFormed true []
  obtain ⟨ms, hoffers, hall, hms⟩ := h.toRepresents.consequences_eq hok
  refine ⟨ms, fun X => ⟨fun hX => hall X ⟨hwell, hX⟩, ?_⟩, hms⟩
  rintro ⟨m, hm, rfl⟩
  exact (hoffers m hm).stable hwell

/-- Whatever the sums come out as, the reserved atom is no consequence. -/
theorem Represents.zero_notMem_cautious (h : r.Represents log) {atoms : List Nat}
    (hok : r.cautious = .ok (some atoms)) : 0 ∉ atoms := by
  obtain ⟨ms, hoffers, -, hms⟩ := h.consequences_eq hok
  rcases ms with _ | ⟨m, ms⟩
  · exact absurd hms (by simp)
  · obtain ⟨_, heq, hatoms⟩ := hms
    obtain rfl := Option.some.inj heq
    rw [hatoms, foldl_and]
    rintro ⟨-, hm, -⟩
    exact (hoffers m List.mem_cons_self).zero_notMem hm

/-- Brave are the atoms of some stable set. -/
theorem IsExactFor.brave_spec (h : r.IsExactFor log) {result : Option (List Nat)}
    (hok : r.brave = .ok result) :
    match result with
    | none => ∀ X, ¬(r.problem true []).theory.IsStable X
    | some atoms => ∀ atom, atom ∈ atoms ↔
        ∃ X, (r.problem true []).theory.IsStable X ∧ atom ∈ X := by
  obtain ⟨ms, hstable, hms⟩ := h.consequences_eq hok
  rcases ms with _ | ⟨m, ms⟩
  · dsimp only at hms
    subst hms
    exact fun X hX => by simpa using (hstable X).mp hX
  · obtain ⟨atoms, rfl, hatoms⟩ := hms
    intro atom
    rw [hatoms, foldl_or]
    constructor
    · rintro ⟨-, hfirst | ⟨k, hk, hmem⟩⟩
      · exact ⟨m.trueSet, (hstable _).mpr ⟨m, by simp, rfl⟩, hfirst⟩
      · exact ⟨k.trueSet, (hstable _).mpr ⟨k, by simp [hk], rfl⟩, hmem⟩
    · rintro ⟨X, hX, hmem⟩
      refine ⟨(Problem.inRange_of_mem (h.wellFormed true []) hX hmem).2, ?_⟩
      obtain ⟨k, hk, rfl⟩ := (hstable X).mp hX
      rcases List.mem_cons.mp hk with rfl | hk
      · exact Or.inl hmem
      · exact Or.inr ⟨k, hk, hmem⟩

/-- Cautious are the atoms of all stable sets. -/
theorem IsExactFor.cautious_spec (h : r.IsExactFor log) {result : Option (List Nat)}
    (hok : r.cautious = .ok result) :
    match result with
    | none => ∀ X, ¬(r.problem true []).theory.IsStable X
    | some atoms => (∃ X, (r.problem true []).theory.IsStable X) ∧ ∀ atom, atom ∈ atoms ↔
        ∀ X, (r.problem true []).theory.IsStable X → atom ∈ X := by
  obtain ⟨ms, hstable, hms⟩ := h.consequences_eq hok
  rcases ms with _ | ⟨m, ms⟩
  · dsimp only at hms
    subst hms
    exact fun X hX => by simpa using (hstable X).mp hX
  · obtain ⟨atoms, rfl, hatoms⟩ := hms
    have hfirst := (hstable m.trueSet).mpr ⟨m, by simp, rfl⟩
    refine ⟨⟨_, hfirst⟩, fun atom => ?_⟩
    rw [hatoms, foldl_and]
    constructor
    · rintro ⟨-, hm, hms⟩ X hX
      obtain ⟨k, hk, rfl⟩ := (hstable X).mp hX
      rcases List.mem_cons.mp hk with rfl | hk
      · exact hm
      · exact hms k hk
    · intro hall
      refine ⟨(Problem.inRange_of_mem (h.wellFormed true []) hfirst (hall _ hfirst)).2,
        hall _ hfirst, fun k hk => hall _ ?_⟩
      exact (hstable _).mpr ⟨k, by simp [hk], rfl⟩

/-! ### In terms of the log -/

theorem exists_declared?_iff {atom : Nat} :
    (∃ value, declared? log atom = some value) ↔ ∃ value, .external atom value ∈ log := by
  refine ⟨fun ⟨value, h⟩ => ⟨value, external_mem_of_declared? h⟩, ?_⟩
  rintro ⟨value, hmem⟩
  rw [← Option.isSome_iff_exists]
  unfold declared?
  rw [List.findSome?_isSome_iff]
  exact ⟨_, List.mem_reverse.mpr hmem, by simp [Observation.declares?]⟩

theorem Represents.theory_open (h : r.Represents log) :
    (r.problem true []).theory = openTheory log := by
  have hclauses : {c | c ∈ (r.problem true []).clauses} = (openTheory log).clauses := by
    ext c
    exact h.mem_clauses
  have hgiven : (r.problem true []).theory.given = (openTheory log).given := by
    ext atom
    rw [h.mem_given]
    refine Iff.trans (exists_congr fun value => ?_) exists_declared?_iff
    simp [isGiven, h.externals]
  exact Theory.ext hclauses hgiven rfl rfl rfl

/-- Without a limit an enumeration comes to an end. -/
theorem exists_consequences_eq_ok (hlimit : r.limit = .unlimited)
    (combine : Bool → Bool → Bool) : ∃ result, r.consequences combine = .ok result := by
  have hunlimited : ∀ decisions, ¬r.limit.reached decisions := by
    simp [hlimit, Limit.unlimited, Limit.reached]
  have hne := (r.problem true []).search_flow_ne hunlimited (r.root true []) (accumulate combine)
    none
  unfold consequences gathered enumerate
  split
  · exact absurd ‹_› hne
  · exact ⟨_, rfl⟩

/-- The atoms that are gathered stand in order. -/
theorem pairwise_of_consequences {atoms : List Nat}
    (h : r.consequences combine = .ok (some atoms)) : atoms.Pairwise (· < ·) := by
  unfold consequences gathered at h
  split at h
  · exact absurd h (by simp)
  · obtain ⟨values, -, rfl⟩ := Option.map_eq_some_iff.mp (Except.ok.inj h)
    exact List.pairwise_lt_range.filter _

end Reasoner

end StablePlan
