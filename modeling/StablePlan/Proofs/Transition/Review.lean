import StablePlan.Proofs.Transition.Upkeep

/-!
Reviews keep the stable sets. A rule that says nothing any more can be retired: its records are
dropped, and a head atom that no rule derives after that is in no stable set. A rule that lost a
part is looked at again, and what it says by itself is queued before it goes.
-/

namespace StablePlan.Fitting

variable {f : Fitting} {S : Scope} {a h i : Nat} {value : Bool}

/-! ### Queues -/

theorem mention_eq (hm : f.draft.isMentioned h) : f.mention h = f := by
  unfold mention
  rw [Draft.mention_of_isMentioned hm]

theorem mem_concat_or {α : Type} {xs : List α} {x y : α} {P : Prop} :
    y ∈ xs ++ [x] ∨ P ↔ (y ∈ xs ∨ P) ∨ y = x := by
  rw [List.mem_append, List.mem_singleton, or_right_comm]

theorem keeps_queueTrue (hf : f.Coherent S) (hm : f.draft.isMentioned h)
    (hsem : S.exact → ∀ X, ∀ D ⊆ X, f.theory.Admits D X → h ∈ D) :
    Keeps S a value f (f.queueTrue h) := by
  have heq : f.queueTrue h =
      { f with trueQueue := f.trueQueue ++ [h], facts := h :: f.facts } := by
    unfold queueTrue
    rw [mention_eq hm]
  have hadmits : S.exact → ∀ X, ∀ D ⊆ X,
      (f.theory.Admits D X ↔ (f.queueTrue h).theory.Admits D X) := by
    intro hexact X D hD
    rw [heq]
    constructor
    · intro hA
      refine ⟨hA.clauses, hA.given, fun b hb => ?_, hA.banned, hA.required⟩
      rcases mem_concat_or.mp hb with hb | rfl
      · exact hA.facts b hb
      · exact hsem hexact X D hD hA
    · intro hA
      exact ⟨hA.clauses, hA.given, fun b hb => hA.facts b (mem_concat_or.mpr (Or.inl hb)),
        hA.banned, hA.required⟩
  refine ⟨?_, fun hexact X => ?_, ?_, ?_, fun j s _ hs => ⟨s, ?_, .refl a value s.clause⟩,
    fun j s hs => ⟨s, ?_, .refl a value s.clause⟩⟩
  · rw [heq]
    refine ⟨hf.draft, fun b hb => ?_, fun b hb => ?_⟩
    · rcases mem_concat_or.mp hb with hb | rfl
      · exact hf.mentioned b hb
      · exact hm
    · rcases List.mem_append.mp hb with hb | hb
      · exact List.mem_cons_of_mem _ (hf.facts b hb)
      · rw [List.mem_singleton.mp hb]
        exact List.mem_cons_self
  · exact Theory.isStable_congr_admits (hadmits hexact X X subset_rfl) fun _ D hD =>
      hadmits hexact X D hD
  · rw [heq]
    exact .refl _
  · rw [heq]
  · rwa [heq] at hs
  · rwa [heq] at hs

theorem keeps_queueFalse (hf : f.Coherent S) (hm : f.draft.isMentioned h)
    (hsem : S.exact → ∀ X, f.theory.IsStable X → h ∉ X) :
    Keeps S a value f (f.queueFalse h) := by
  have hadmits : ∀ D X, (f.queueFalse h).theory.Admits D X ↔ f.theory.Admits D X ∧ h ∉ X := by
    intro D X
    constructor
    · intro hA
      exact ⟨⟨hA.clauses, hA.given, hA.facts, fun b hb => hA.banned b
        (mem_concat_or.mpr (Or.inl hb)), hA.required⟩, hA.banned h (mem_concat_or.mpr (Or.inr rfl))⟩
    · rintro ⟨hA, hh⟩
      refine ⟨hA.clauses, hA.given, hA.facts, fun b hb => ?_, hA.required⟩
      rcases mem_concat_or.mp hb with hb | rfl
      · exact hA.banned b hb
      · exact hh
  refine ⟨⟨hf.draft, fun b hb => ?_, hf.facts⟩, fun hexact X => ?_, .refl _,
    le_rfl, fun j s _ hs => ⟨s, hs, .refl a value s.clause⟩,
    fun j s hs => ⟨s, hs, .refl a value s.clause⟩⟩
  · rcases hb with hb | hb | hb
    · exact hf.mentioned b (Or.inl hb)
    · rcases List.mem_append.mp hb with hb | hb
      · exact hf.mentioned b (Or.inr (Or.inl hb))
      · rwa [List.mem_singleton.mp hb]
    · exact hf.mentioned b (Or.inr (Or.inr hb))
  · rw [Theory.isStable_and_iff fun D => hadmits D X]
    exact (and_iff_left_of_imp (hsem hexact X)).symm

theorem keeps_queueCautious (hf : f.Coherent S) (hm : f.draft.isMentioned h)
    (hsem : S.exact → ∀ X, f.theory.IsStable X → h ∈ X) :
    Keeps S a value f (f.queueCautious h) := by
  have hadmits : ∀ D X, (f.queueCautious h).theory.Admits D X ↔ f.theory.Admits D X ∧ h ∈ X := by
    intro D X
    constructor
    · intro hA
      exact ⟨⟨hA.clauses, hA.given, hA.facts, hA.banned, fun b hb => hA.required b
        (mem_concat_or.mpr (Or.inl hb))⟩, hA.required h (mem_concat_or.mpr (Or.inr rfl))⟩
    · rintro ⟨hA, hh⟩
      refine ⟨hA.clauses, hA.given, hA.facts, hA.banned, fun b hb => ?_⟩
      rcases mem_concat_or.mp hb with hb | rfl
      · exact hA.required b hb
      · exact hh
  refine ⟨⟨hf.draft, fun b hb => ?_, hf.facts⟩, fun hexact X => ?_, .refl _,
    le_rfl, fun j s _ hs => ⟨s, hs, .refl a value s.clause⟩,
    fun j s hs => ⟨s, hs, .refl a value s.clause⟩⟩
  · rcases hb with hb | hb | hb
    · exact hf.mentioned b (Or.inl hb)
    · exact hf.mentioned b (Or.inr (Or.inl hb))
    · rcases List.mem_append.mp hb with hb | hb
      · exact hf.mentioned b (Or.inr (Or.inr hb))
      · rwa [List.mem_singleton.mp hb]
  · rw [Theory.isStable_and_iff fun D => hadmits D X]
    exact (and_iff_left_of_imp (hsem hexact X)).symm

/-- What a literal that no stable set has says of its atom. -/
theorem keeps_constrain (hf : f.Coherent S) {l : Literal} (hm : f.draft.isMentioned l.atom)
    (hsem : S.exact → ∀ X, f.theory.IsStable X → ¬l.HoldsIn X X) :
    Keeps S a value f (f.constrain l) := by
  unfold constrain
  split
  · rename_i hpos
    refine keeps_queueFalse hf hm fun hexact X hX => ?_
    simpa [Literal.HoldsIn, hpos] using hsem hexact X hX
  · rename_i hneg
    refine keeps_queueCautious hf hm fun hexact X hX => ?_
    simpa [Literal.HoldsIn, hneg] using hsem hexact X hX

/-! ### Rules -/

theorem keeps_setRule (hf : f.Coherent S) {r : Rule} (hi : f.draft.rule? i = some r)
    {r' : Option Rule} (hparts : f.draft.Replaces r.parts (r'.map Rule.parts))
    (hnarrow : ∀ s ∈ r', Narrows a value r.clause s.clause)
    (hsem : S.exact → ∀ X, ∀ D ⊆ X, f.Knows D X → (f.draft.withRule i none).Obeyed D X →
      (r.clause.Obeys D X ↔ ∀ s ∈ r', s.clause.Obeys D X)) :
    Keeps S a value f (f.setRule i r') := by
  have hlt := Draft.lt_of_rule? hi
  have hcoherent : (f.draft.withRule i r').Coherent S :=
    hf.draft.shrink (Draft.shrinks_withRule hi hparts) hf.draft.weights hf.draft.resolved
  refine Keeps.of_draft hf hcoherent ⟨fun _ => rfl, fun _ => rfl, rfl, rfl, rfl⟩ ?_ ?_ ?_
    fun j s hs => ⟨s, hs, .refl a value s.clause⟩
  · intro hexact X D hD hk
    change _ ↔ (f.draft.withRule i r').Obeyed D X
    rw [Draft.obeyed_iff_withRule hi, Draft.obeyed_withRule hlt r']
    exact and_congr_right (hsem hexact X D hD hk)
  · simp
  · intro j s _ hs
    have hs : (f.draft.withRule i r').rule? j = some s := hs
    rw [Draft.rule?_withRule] at hs
    by_cases hj : j = i
    · rw [if_pos ⟨hj, hlt⟩] at hs
      exact ⟨r, hj ▸ hi, hnarrow s hs⟩
    · rw [if_neg (fun h => hj h.1)] at hs
      exact ⟨s, hs, .refl a value s.clause⟩

theorem keeps_setWeightRule (hf : f.Coherent S) {r : WeightRule}
    (hi : f.draft.weightRule? i = some r) {r' : Option WeightRule}
    (hparts : f.draft.Replaces r.parts (r'.map WeightRule.parts))
    (hweights : ∀ s ∈ r', s.IsWithin S)
    (hnarrow : ∀ s ∈ r', Narrows a value r.clause s.clause)
    (hsem : S.exact → ∀ X, ∀ D ⊆ X, f.Knows D X → (f.draft.withWeightRule i none).Obeyed D X →
      (r.clause.Obeys D X ↔ ∀ s ∈ r', s.clause.Obeys D X)) :
    Keeps S a value f (f.setWeightRule i r') := by
  have hlt := Draft.lt_of_weightRule? hi
  have hcoherent : (f.draft.withWeightRule i r').Coherent S := by
    refine hf.draft.shrink (Draft.shrinks_withWeightRule hi hparts) (fun j s hs => ?_)
      hf.draft.resolved
    rw [Draft.weightRule?_withWeightRule] at hs
    by_cases hj : j = i
    · rw [if_pos ⟨hj, hlt⟩] at hs
      exact hweights s hs
    · rw [if_neg (fun h => hj h.1)] at hs
      exact hf.draft.weights j s hs
  refine Keeps.of_draft hf hcoherent ⟨fun _ => rfl, fun _ => rfl, rfl, rfl, rfl⟩ ?_ le_rfl
    (fun j s _ hs => ⟨s, hs, .refl a value s.clause⟩) fun j s hs => ?_
  · intro hexact X D hD hk
    change _ ↔ (f.draft.withWeightRule i r').Obeyed D X
    rw [Draft.obeyed_iff_withWeightRule hi, Draft.obeyed_withWeightRule hlt r']
    exact and_congr_right (hsem hexact X D hD hk)
  · have hs : (f.draft.withWeightRule i r').weightRule? j = some s := hs
    rw [Draft.weightRule?_withWeightRule] at hs
    by_cases hj : j = i
    · rw [if_pos ⟨hj, hlt⟩] at hs
      exact ⟨r, hj ▸ hi, hnarrow s hs⟩
    · rw [if_neg (fun h => hj h.1)] at hs
      exact ⟨s, hs, .refl a value s.clause⟩

theorem keeps_mapOccurrences (hf : f.Coherent S) {b : Nat} {g : Occurrences → Occurrences}
    (hs : f.draft.Shrinks (f.draft.mapOccurrences b g)) :
    Keeps S a value f (f.mapOccurrences b g) := by
  have hcoherent : (f.draft.mapOccurrences b g).Coherent S := by
    refine hf.draft.shrink hs hf.draft.weights fun c hc => ?_
    rw [Draft.resolution_mapOccurrences] at hc
    rw [Draft.isMentioned_mapOccurrences]
    exact hf.draft.resolved c hc
  refine Keeps.of_draft hf hcoherent ⟨fun c => Draft.resolution_mapOccurrences _ _ c g,
    fun c => Draft.isMentioned_mapOccurrences _ _ c g, ?_, rfl, rfl⟩
    (fun _ X D _ _ => Iff.rfl) le_rfl (fun j s _ hs => ⟨s, hs, .refl a value s.clause⟩)
    fun j s hs => ⟨s, hs, .refl a value s.clause⟩
  simp [Draft.mapOccurrences, Draft.setEntry]

/-- A retired rule may go off record. -/
theorem keeps_forget (role : Role) (hf : f.Coherent S) {b : Nat}
    (hdead : f.draft.parts? role.isWeighted i = none) :
    Keeps S a value f (f.mapOccurrences b (.change role fun is => is.erase i)) := by
  refine keeps_mapOccurrences hf (Draft.shrinks_mapOccurrences ?_ ?_)
  · intro role' j hj
    rw [Occurrences.of_change] at hj
    split at hj
    · rename_i heq
      subst heq
      exact List.mem_of_mem_erase hj
    · exact hj
  · intro role' j hj hno _
    rw [Occurrences.of_change] at hno
    split at hno
    · rename_i heq
      subst heq
      by_cases hji : j = i
      · rwa [hji]
      · exact absurd ((List.mem_erase_of_ne hji).mpr hj) hno
    · exact absurd hj hno

/-- What has no rule, is not external and no fact is in no stable set. -/
theorem keeps_checkSupport (hf : f.Coherent S) (hm : f.draft.isMentioned h) :
    Keeps S a value f (f.checkSupport h) := by
  unfold checkSupport
  split
  · exact .refl hf
  · rename_i hno
    simp only [Bool.or_eq_true, not_or, isDecided, beq_iff_eq, List.contains_iff_mem] at hno
    obtain ⟨⟨⟨hsupported, hexternal⟩, hfact⟩, hon, hoff⟩ := hno
    have htracked : ∀ role : Role, role.isNegative = false → f.draft.IsTracked h role := by
      intro role hrole
      unfold Draft.IsTracked
      rcases hres : f.draft.resolution h with _ | _ | _ | _ <;> simp_all
    have hempty : f.draft.record h .head = [] ∧ f.draft.record h .weightHead = [] := by
      unfold Occurrences.isSupported at hsupported
      unfold Draft.record Occurrences.of
      simpa using hsupported
    refine keeps_queueFalse hf hm fun _ X hX hmem => ?_
    rcases hX.supported hf.hasNonnegWeights hmem with hg | hf' | ⟨c, hc, hhead, -⟩
    · exact hexternal hg
    · rcases hf' with hq | hres
      · exact hfact (hf.facts h hq)
      · exact hon hres
    · rcases hc with ⟨r, hr, hc⟩ | ⟨r, hr, hc⟩
      · obtain ⟨j, hj⟩ := Draft.mem_liveRules.mp hr
        have hpart : (h, Role.head) ∈ r.parts := List.mem_append_left _
          (List.mem_map.mpr ⟨h, Clause.mem_head_of_mem_shifted hc hhead, rfl⟩)
        have hrec := hf.draft.recorded h .head j r.parts (by simp [Role.isWeighted,
          Draft.parts?_false, hj]) hpart (htracked _ rfl)
        rw [hempty.1] at hrec
        exact absurd hrec List.not_mem_nil
      · obtain ⟨j, hj⟩ := Draft.mem_liveWeightRules.mp hr
        have hpart : (h, Role.weightHead) ∈ r.parts := List.mem_append_left _
          (List.mem_map.mpr ⟨h, Clause.mem_head_of_mem_shifted hc hhead, rfl⟩)
        have hrec := hf.draft.recorded h .weightHead j r.parts (by simp [Role.isWeighted,
          Draft.parts?_true, hj]) hpart (htracked _ rfl)
        rw [hempty.2] at hrec
        exact absurd hrec List.not_mem_nil

/-! ### Retiring -/

theorem Coherent.isMentioned_head (hf : f.Coherent S) {r : Rule} (hi : f.draft.rule? i = some r)
    {x : Nat} (hx : x ∈ r.head) : f.draft.isMentioned x := by
  refine hf.draft.mentioned false i r.parts (by simp [Draft.parts?_false, hi]) (x, .head) ?_
  exact List.mem_append_left _ (List.mem_map.mpr ⟨x, hx, rfl⟩)

theorem Coherent.isMentioned_body (hf : f.Coherent S) {r : Rule} (hi : f.draft.rule? i = some r)
    {l : Literal} (hl : l ∈ r.body) : f.draft.isMentioned l.atom := by
  refine hf.draft.mentioned false i r.parts (by simp [Draft.parts?_false, hi]) (l.atom, l.role) ?_
  exact List.mem_append_right _ (List.mem_map.mpr ⟨l, hl, rfl⟩)

theorem Coherent.isMentioned_weightHead (hf : f.Coherent S) {r : WeightRule}
    (hi : f.draft.weightRule? i = some r) {x : Nat} (hx : x ∈ r.head) : f.draft.isMentioned x := by
  refine hf.draft.mentioned true i r.parts (by simp [Draft.parts?_true, hi]) (x, .weightHead) ?_
  exact List.mem_append_left _ (List.mem_map.mpr ⟨x, hx, rfl⟩)

theorem Coherent.isMentioned_weightBody (hf : f.Coherent S) {r : WeightRule}
    (hi : f.draft.weightRule? i = some r) {e : Literal × Int} (he : e ∈ r.body) :
    f.draft.isMentioned e.1.atom := by
  refine hf.draft.mentioned true i r.parts (by simp [Draft.parts?_true, hi])
    (e.1.atom, e.1.weightRole) ?_
  exact List.mem_append_right _ (List.mem_map.mpr ⟨e, he, rfl⟩)

/-- A rule that says nothing beside the others can be retired. -/
theorem keeps_retire (hf : f.Coherent S)
    (hsem : S.exact → ∀ r, f.draft.rule? i = some r → ∀ X, ∀ D ⊆ X, f.Knows D X →
      (f.draft.withRule i none).Obeyed D X → r.clause.Obeys D X) :
    Keeps S a value f (f.retire i) := by
  unfold retire
  split
  · exact .refl hf
  · rename_i r hi
    have hdrop : Keeps S a value f (f.setRule i none) := by
      refine keeps_setRule hf hi trivial (by simp) fun hexact X D hD hk hrest => ?_
      exact iff_of_true (hsem hexact r hi X D hD hk hrest) (by simp)
    have hdead : ∀ g, Keeps S a value (f.setRule i none) g → g.draft.parts? false i = none := by
      intro g hg
      rw [Draft.parts?_false]
      rcases hs : g.draft.rule? i with _ | s
      · rfl
      · have hlt : i < (f.setRule i none).draft.rules.size := by
          simpa [setRule] using Draft.lt_of_rule? hi
        obtain ⟨r', hr', -⟩ := hg.rules i s hlt hs
        have hnone : (f.draft.withRule i none).rule? i = some r' := hr'
        rw [Draft.rule?_withRule, if_pos ⟨rfl, Draft.lt_of_rule? hi⟩] at hnone
        exact absurd hnone (by simp)
    have hbody : Keeps S a value (f.setRule i none) (r.body.foldl
        (fun f l => f.mapOccurrences l.atom (.inBody (fun is => is.erase i) l))
        (f.setRule i none)) := by
      refine Keeps.foldl hdrop.coherent fun g hg l hl => ?_
      rw [Occurrences.inBody_eq]
      refine keeps_forget l.role hg.coherent ?_
      have hrole : l.role.isWeighted = false := by
        unfold Literal.role
        split <;> rfl
      rw [hrole]
      exact hdead g hg
    refine (hdrop.trans hbody).trans (Keeps.foldl hbody.coherent fun g hg x hx => ?_)
    have hforget : Keeps S a value g (g.mapOccurrences x (.inHead fun is => is.erase i)) :=
      keeps_forget .head hg.coherent (hdead g (hbody.trans hg))
    refine hforget.trans (keeps_checkSupport hforget.coherent ?_)
    rw [(((hdrop.trans hbody).trans hg).trans hforget).same.mentioned]
    exact hf.isMentioned_head hi hx

theorem keeps_retireWeight (hf : f.Coherent S)
    (hsem : S.exact → ∀ r, f.draft.weightRule? i = some r → ∀ X, ∀ D ⊆ X, f.Knows D X →
      (f.draft.withWeightRule i none).Obeyed D X → r.clause.Obeys D X) :
    Keeps S a value f (f.retireWeight i) := by
  unfold retireWeight
  split
  · exact .refl hf
  · rename_i r hi
    have hdrop : Keeps S a value f (f.setWeightRule i none) := by
      refine keeps_setWeightRule hf hi trivial (by simp) (by simp) fun hexact X D hD hk hrest => ?_
      exact iff_of_true (hsem hexact r hi X D hD hk hrest) (by simp)
    have hdead : ∀ g, Keeps S a value (f.setWeightRule i none) g →
        g.draft.parts? true i = none := by
      intro g hg
      have hnone : (f.draft.withWeightRule i none).weightRule? i = none := by
        rw [Draft.weightRule?_withWeightRule, if_pos ⟨rfl, Draft.lt_of_weightRule? hi⟩]
      rw [Draft.parts?_true, Option.map_eq_none_iff, Option.eq_none_iff_forall_ne_some]
      intro s hs
      obtain ⟨r', hr', -⟩ := hg.weightRules i s hs
      have hr' : (f.draft.withWeightRule i none).weightRule? i = some r' := hr'
      rw [hnone] at hr'
      exact absurd hr' (by simp)
    have hbody : Keeps S a value (f.setWeightRule i none) (r.body.foldl
        (fun f e => f.mapOccurrences e.1.atom (.inWeightBody (fun is => is.erase i) e.1))
        (f.setWeightRule i none)) := by
      refine Keeps.foldl hdrop.coherent fun g hg e he => ?_
      rw [Occurrences.inWeightBody_eq]
      refine keeps_forget e.1.weightRole hg.coherent ?_
      have hrole : e.1.weightRole.isWeighted = true := by
        unfold Literal.weightRole
        split <;> rfl
      rw [hrole]
      exact hdead g hg
    refine (hdrop.trans hbody).trans (Keeps.foldl hbody.coherent fun g hg x hx => ?_)
    have hforget : Keeps S a value g (g.mapOccurrences x (.inWeightHead fun is => is.erase i)) :=
      keeps_forget .weightHead hg.coherent (hdead g (hbody.trans hg))
    refine hforget.trans (keeps_checkSupport hforget.coherent ?_)
    rw [(((hdrop.trans hbody).trans hg).trans hforget).same.mentioned]
    exact hf.isMentioned_weightHead hi hx

/-! ### Looking again -/

/-- The rule is obeyed by every model of the reduct. -/
theorem obeys_of_admits {r : Rule} (hi : f.draft.rule? i = some r) {D X : Set Nat}
    (h : f.theory.Admits D X) : r.clause.Obeys D X :=
  (admits_iff.mp h).1.1 i r hi

theorem obeys_weight_of_admits {r : WeightRule} (hi : f.draft.weightRule? i = some r)
    {D X : Set Nat} (h : f.theory.Admits D X) : r.clause.Obeys D X :=
  (admits_iff.mp h).1.2 i r hi

theorem admits_of_isStable {X : Set Nat} (h : f.theory.IsStable X) : f.theory.Admits X X :=
  (Theory.isStable_iff_admits.mp h).1

theorem not_holdsIn_of_constrain {l : Literal} {D X : Set Nat} (hD : D ⊆ X)
    (h : (f.constrain l).Knows D X) : ¬l.HoldsIn D X := by
  unfold Literal.HoldsIn
  unfold constrain at h
  split
  · rename_i hpos
    rw [if_pos hpos] at h
    exact fun hl => h.banned l.atom (Or.inl (by simp [queueFalse])) (hD hl)
  · rename_i hneg
    rw [if_neg hneg] at h
    exact fun hl => hl (h.required l.atom (Or.inl (by simp [queueCautious])))

theorem constrain_retire {l : Literal} (hi : f.draft.rule? i = some ⟨false, [], [l]⟩) :
    (f.retire i).constrain l = (f.constrain l).retire i := by
  have hi' : (f.constrain l).draft.rule? i = some ⟨false, [], [l]⟩ := by
    unfold constrain
    split <;> exact hi
  unfold retire
  rw [hi, hi']
  unfold constrain
  split <;> rfl

theorem constrain_retireWeight {l : Literal} {lower w : Int}
    (hi : f.draft.weightRule? i = some ⟨false, [], lower, [(l, w)]⟩) :
    (f.retireWeight i).constrain l = (f.constrain l).retireWeight i := by
  have hi' : (f.constrain l).draft.weightRule? i = some ⟨false, [], lower, [(l, w)]⟩ := by
    unfold constrain
    split <;> exact hi
  unfold retireWeight
  rw [hi, hi']
  unfold constrain
  split <;> rfl

/-- What a rule says by itself is queued before the rule goes. -/
theorem preserves_review (hf : f.Coherent S) : Preserves S a value f (f.review i) := by
  unfold review
  split
  · exact Keeps.refl hf
  · rename_i r hi
    obtain ⟨choice, head, body⟩ := r
    dsimp only
    split
    · refine keeps_retire hf fun _ r hr X D _ _ _ => ?_
      obtain rfl := Option.some.inj (hi.symm.trans hr)
      exact Clause.obeys_choice_nil
    · refine ⟨fun _ X hX => ?_, Or.inl rfl⟩
      exact Clause.not_obeys_empty (obeys_of_admits hi (admits_of_isStable hX))
    · rename_i h
      have hqueue : Keeps S a value f (f.queueTrue h) := by
        refine keeps_queueTrue hf (hf.isMentioned_head hi (by simp)) fun _ X D _ hA => ?_
        exact Clause.obeys_fact_iff.mp (obeys_of_admits hi hA)
      refine hqueue.trans (keeps_retire hqueue.coherent fun _ r hr X D _ hk _ => ?_)
      obtain rfl := Option.some.inj (hi.symm.trans hr)
      exact Clause.obeys_fact_iff.mpr (hk.facts h (Or.inl (by simp [queueTrue])))
    · rename_i l
      have hqueue : Keeps S a value f (f.constrain l) := by
        refine keeps_constrain hf (hf.isMentioned_body hi (by simp)) fun _ X hX => ?_
        exact Clause.obeys_literal_iff.mp (obeys_of_admits hi (admits_of_isStable hX))
      rw [constrain_retire hi]
      refine hqueue.trans (keeps_retire hqueue.coherent fun _ r hr X D hD hk _ => ?_)
      have hi' : (f.constrain l).draft.rule? i = some ⟨false, [], [l]⟩ := by
        unfold constrain
        split <;> exact hi
      obtain rfl := Option.some.inj (hi'.symm.trans hr)
      exact Clause.obeys_literal_iff.mpr (not_holdsIn_of_constrain hD hk)
    · exact Keeps.refl hf

theorem keeps_pushRule (hf : f.Coherent S) {choice : Bool} {head : List Nat}
    (hheads : ∀ x ∈ head, x ∈ S.heads ∧ f.draft.isMentioned x)
    (hsem : S.exact → ∀ X, ∀ D ⊆ X, f.draft.Obeyed D X →
      (⟨choice, head, [], none⟩ : Clause).Obeys D X) :
    Keeps S a value f { f with draft := f.draft.pushRule ⟨choice, head, []⟩ } := by
  have hp := Draft.pushes_pushRule f.draft ⟨choice, head, []⟩
  have hmarked := Draft.marked_markAll f.draft.rules.size (Rule.parts ⟨choice, head, []⟩) f.draft
  have hmem : ∀ part ∈ Rule.parts ⟨choice, head, []⟩, part.1 ∈ head := by
    simp [Rule.parts]
  obtain ⟨entries, hrest⟩ := hmarked.rest
  have hsize := hmarked.size fun part hpart => (hheads _ (hmem part hpart)).2
  have hpush : f.draft.pushRule ⟨choice, head, []⟩ =
      { f.draft with entries, rules := f.draft.rules.push (some ⟨choice, head, []⟩) } := by
    rw [Draft.pushRule_eq, hrest]
  refine Keeps.of_draft hf (hf.draft.pushRule (fun x hx => (hheads x hx).1) (by simp))
    ⟨hp.resolution, fun b => ?_, ?_, ?_, ?_⟩ (fun hexact X D hD _ => ?_) ?_ (fun j s hj hs => ?_)
    fun j s hs => ?_
  · rw [Bool.eq_iff_iff, hp.mentioned]
    refine or_iff_left_of_imp ?_
    rintro ⟨role, hpart⟩
    exact (hheads b (hmem _ hpart)).2
  · rw [hpush]
    rwa [hrest] at hsize
  · rw [hpush]
  · rw [hpush]
  · rw [Draft.obeyed_pushRule]
    exact (and_iff_left_of_imp (hsem hexact X D hD)).symm
  · rw [hpush]
    simp
  · rw [Draft.rule?_pushRule, if_neg hj.ne] at hs
    exact ⟨s, hs, .refl a value s.clause⟩
  · rw [Draft.weightRule?_pushRule] at hs
    exact ⟨s, hs, .refl a value s.clause⟩

/-- A weight rule whose bound is reached goes, and its head is kept. -/
theorem preserves_release (hf : f.Coherent S) {r : WeightRule}
    (hi : f.draft.weightRule? i = some r) (hlower : r.lower ≤ 0) :
    Preserves S a value f (f.release r.choice r.head >>= fun f => .ok (f.retireWeight i)) := by
  have hreached : ∀ D X, r.clause.Obeys D X ↔
      (⟨r.choice, r.head, [], none⟩ : Clause).Obeys D X := fun D X =>
    Clause.obeys_reached_iff (hf.draft.weights i r hi).1 hlower
  obtain ⟨choice, head, lower, body⟩ := r
  dsimp only at hreached ⊢
  unfold release
  split
  · refine ⟨fun _ X hX => ?_, Or.inl rfl⟩
    have hobeys := obeys_weight_of_admits hi (admits_of_isStable hX)
    exact Clause.not_obeys_empty ((hreached X X).mp hobeys)
  · rename_i h
    have hqueue : Keeps S a value f (f.queueTrue h) := by
      refine keeps_queueTrue hf (hf.isMentioned_weightHead hi (by simp)) fun _ X D _ hA => ?_
      exact Clause.obeys_fact_iff.mp ((hreached D X).mp (obeys_weight_of_admits hi hA))
    refine hqueue.trans (keeps_retireWeight hqueue.coherent fun _ r hr X D _ hk _ => ?_)
    obtain rfl := Option.some.inj (hi.symm.trans hr)
    exact (hreached D X).mpr (Clause.obeys_fact_iff.mpr (hk.facts h (Or.inl (by simp [queueTrue]))))
  · have hpush : Keeps S a value f { f with draft := f.draft.pushRule ⟨choice, head, []⟩ } := by
      refine keeps_pushRule hf (fun x hx => ⟨?_, hf.isMentioned_weightHead hi hx⟩)
        fun _ X D _ hobeyed => (hreached D X).mp (hobeyed.2 i _ hi)
      exact hf.draft.mem_of_weightHead hi hx
    refine hpush.trans (keeps_retireWeight hpush.coherent fun _ r hr X D _ _ hrest => ?_)
    have hr : (f.draft.pushRule ⟨choice, head, []⟩).weightRule? i = some r := hr
    rw [Draft.weightRule?_pushRule] at hr
    obtain rfl := Option.some.inj (hi.symm.trans hr)
    have hnew : (f.draft.pushRule ⟨choice, head, []⟩).rule? f.draft.rules.size =
        some ⟨choice, head, []⟩ := by
      rw [Draft.rule?_pushRule, if_pos rfl]
    exact (hreached D X).mpr (hrest.1 _ _ hnew)

theorem preserves_reviewWeight (hf : f.Coherent S) :
    Preserves S a value f (f.reviewWeight i) := by
  unfold reviewWeight
  split
  · exact Keeps.refl hf
  · rename_i r hi
    have hw := hf.draft.weights i r hi
    obtain ⟨choice, head, lower, body⟩ := r
    dsimp only
    split
    · rename_i hnil
      simp only [Bool.and_eq_true, List.isEmpty_iff] at hnil
      obtain ⟨rfl, rfl⟩ := hnil
      refine keeps_retireWeight hf fun _ r hr X D _ _ _ => ?_
      obtain rfl := Option.some.inj (hi.symm.trans hr)
      exact Clause.obeys_choice_nil
    · split
      · rename_i hlower
        exact preserves_release hf hi hlower
      · rename_i hlower
        split
        · rename_i htotal
          refine keeps_retireWeight hf fun hexact r hr X D _ _ _ => ?_
          obtain rfl := Option.some.inj (hi.symm.trans hr)
          have hfit := (hw.2 hexact).weights
          rw [WeightRule.total, hfit.totalWeight_eq] at htotal
          exact Clause.obeys_of_exactWeight_lt hfit.nonneg htotal
        · split
          · rename_i l w _ _
            by_cases hreach : lower ≤ w
            swap
            · -- Only a weight out of range is too small here.
              rw [if_neg hreach]
              refine keeps_retireWeight hf fun _ r hr X D _ _ _ => ?_
              obtain rfl := Option.some.inj (hi.symm.trans hr)
              exact Clause.obeys_of_exactWeight_lt hw.1 (by simpa using hreach)
            have hiff : ∀ D X, (WeightRule.clause ⟨false, [], lower, [(l, w)]⟩).Obeys D X ↔
                ¬l.HoldsIn D X := fun D X =>
              Clause.obeys_single_weight_iff (not_le.mp hlower) hreach
            rw [if_pos hreach, constrain_retireWeight hi]
            have hqueue : Keeps S a value f (f.constrain l) := by
              refine keeps_constrain hf (hf.isMentioned_weightBody (e := (l, w)) hi (by simp))
                fun _ X hX => ?_
              exact (hiff X X).mp (obeys_weight_of_admits hi (admits_of_isStable hX))
            refine hqueue.trans (keeps_retireWeight hqueue.coherent fun _ r hr X D hD hk _ => ?_)
            have hi' : (f.constrain l).draft.weightRule? i =
                some ⟨false, [], lower, [(l, w)]⟩ := by
              unfold constrain
              split <;> exact hi
            obtain rfl := Option.some.inj (hi'.symm.trans hr)
            exact (hiff D X).mpr (not_holdsIn_of_constrain hD hk)
          · exact Keeps.refl hf

end StablePlan.Fitting
