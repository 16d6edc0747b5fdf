import StablePlan.Proofs.Unrolling.Reading

/-!
Unrolling a template means stepping the program. A stable set of the unrolled program splits into
the stable sets of its steps: what a step derives is in the band of the step, and what it takes over
from the step before is fixed by then. So a smaller model of one step gives a smaller model of the
whole, and a smaller model of the whole has a first step where it is smaller.
-/

namespace StablePlan

namespace Bands

variable {log : List Observation} {d : Draft} {b : Bands} {t : Template} {a k s n : Nat}
  {D D' M X : Set Nat}

/-! ### The template -/

theorem Lays.mem_atoms_of_named (h : Lays d b) {c : Clause}
    (hnamed : ∀ a ∈ c.atoms, ∃ k, b.id? a = some k) :
    ∀ k ∈ (c.mapAtoms b.nameOf).atoms, 1 ≤ k ∧ k ≤ 2 * b.period := by
  intro k hk
  rw [Clause.atoms_mapAtoms] at hk
  obtain ⟨a, ha, rfl⟩ := List.mem_map.mp hk
  obtain ⟨j, hj⟩ := hnamed a ha
  rw [nameOf_eq hj]
  exact h.id?_pos hj

theorem Lays.mem_atoms_of_boundary (h : Lays d b) {r : Rule} (hr : r ∈ b.boundaryRules b.ids) :
    ∀ k ∈ r.clause.atoms, 1 ≤ k ∧ k ≤ 2 * b.period := by
  have hfix : ∀ (target : Nat) (value : Bool), (fix target value).clause.atoms = [target] := by
    intro target value
    cases value with
    | true =>
        simp [fix, Rule.constraint, Rule.clause, Clause.atoms, Literal.atom, Literal.negative]
    | false =>
        simp [fix, Rule.constraint, Rule.clause, Clause.atoms, Literal.atom, Literal.positive]
  rcases h.mem_boundaryRules_iff.mp hr with ⟨a, target, hid, hr⟩ | ⟨bridge, hmem, rfl⟩
  · have hatoms : r.clause.atoms = [target] := by
      rcases mem_slotRules hr with ⟨-, rfl⟩ | ⟨value, rfl⟩
      · rfl
      · exact hfix target value
    rw [hatoms, List.forall_mem_singleton]
    exact h.id?_pos hid
  · have hatoms : (b.freshRule bridge).clause.atoms = [b.period + bridge.index] := by
      rcases b.freshRule_cases bridge with heq | heq
      · rw [heq]
        rfl
      · rw [heq, hfix]
    obtain ⟨hone, hle⟩ := h.index_mem (mem_freshBridges.mp hmem).1
    rw [hatoms, List.forall_mem_singleton]
    omega

theorem Lays.mem_init (h : Lays d b) (hk : k ∈ b.init) : 1 ≤ k ∧ k ≤ b.period := by
  unfold init at hk
  rw [Ascending.mem_ofList, List.mem_filterMap] at hk
  obtain ⟨⟨label, fluent⟩, -, hindex⟩ := hk
  obtain ⟨a, -, hprevious⟩ := Option.bind_eq_some_iff.mp hindex
  obtain ⟨bridge, hfind, rfl⟩ := Option.map_eq_some_iff.mp hprevious
  exact h.index_mem (List.mem_of_find?_eq_some hfind)

/-- The template of a layout stays within the two bands. -/
theorem Lays.banded (h : Lays d b) (ht : b.template = .ok t) : t.Banded := by
  obtain ⟨rules, weightRules, hrules, hweights, rfl⟩ := template_eq_ok ht
  refine ⟨fun r' hr' => ?_, fun r' hmem => ?_, fun k hk => h.mem_init hk⟩
  · rcases List.mem_append.mp (mem_dedup.mp hr') with hmem | hmem
    · obtain ⟨r, -, hr⟩ := exists_origin_of_mapM_eq_ok hrules r' hmem
      obtain ⟨hnamed, hclause⟩ := h.renameRule_eq_ok hr
      exact hclause ▸ h.mem_atoms_of_named hnamed
    · exact h.mem_atoms_of_boundary hmem
  · obtain ⟨r, -, hr⟩ := exists_origin_of_mapM_eq_ok hweights r' hmem
    obtain ⟨hnamed, hclause⟩ := h.renameWeightRule_eq_ok hr
    exact hclause ▸ h.mem_atoms_of_named hnamed

/-- The weights of a draft are those of the program. -/
theorem Lays.hasFittingWeights (h : Lays d b) (hd : d.Remains log) (ht : b.template = .ok t)
    (hexact : (Draft.scopeOf log).exact) : t.HasFittingWeights := by
  obtain ⟨rules, weightRules, -, hweights, rfl⟩ := template_eq_ok ht
  intro r' hmem
  obtain ⟨r, hr, hr'⟩ := exists_origin_of_mapM_eq_ok hweights r' hmem
  obtain ⟨i, hi⟩ := Draft.mem_liveWeightRules.mp hr
  rw [h.draft] at hi
  rw [WeightRule.hasFittingWeights_iff, (h.renameWeightRule_eq_ok hr').2]
  refine Clause.HasFittingWeights.mapAtoms (WeightRule.hasFittingWeights_iff.mp ?_) _
  exact ((hd.coherent.weights i r hi).2 hexact).weights

/-- What is read at a step is what the window of the step makes true. -/
theorem Lays.reads_eq (h : Lays d b) (hd : d.Remains log) (ht : b.template = .ok t) (M : Set Nat)
    (s : Nat) : t.reads M s = b.named (t.window M s) := by
  ext a
  unfold Template.reads
  rw [Set.mem_ofPred_eq, h.id?_template ht]
  cases hid : b.id? a with
  | some k =>
      rw [mem_named_of_id? hid]
      exact Iff.rfl
  | none =>
      rw [mem_named_of_id?_eq_none hid, h.draft]
      dsimp only
      rw [h.forcedTrue_iff ht]
      have hclass := h.isOfClass hd a
      have hbridge : b.classOf a ≠ .bridgeIn ∧ a ∉ b.owners := by
        rcases h.id?_cases a with ⟨bridge, hmem, rfl⟩ | ⟨j, hj⟩ | ⟨-, hno⟩
        · exact absurd ((h.id?_of_mem hmem).symm.trans hid) (by simp)
        · exact absurd ((h.id?_of_slot hj).symm.trans hid) (by simp)
        · exact hno
      rw [h.mem_owners, not_or] at hbridge
      obtain ⟨hbridge, hinternal, hexternal⟩ := hbridge
      generalize b.classOf a = c at hclass hbridge hinternal hexternal ⊢
      cases c with
      | internal => exact absurd rfl hinternal
      | bridgeIn => exact absurd rfl hbridge
      | bridgeOut => exact absurd rfl hexternal
      | forcedTrue => exact iff_of_true rfl hclass.2
      | forcedFalse => exact iff_of_false (by simp) (by simp [hclass.2])
      | eliminated => exact iff_of_false (by simp) (by simp [hclass.2])

/-! ### One step -/

theorem named_mono (hDX : D ⊆ X) : b.named D ⊆ b.named X := by
  intro a ha
  cases hid : b.id? a with
  | none =>
      rw [mem_named_of_id?_eq_none hid] at ha ⊢
      exact ha
  | some k =>
      rw [mem_named_of_id? hid] at ha ⊢
      exact hDX ha

/-- Whatever is no bridge is read in the current band. -/
theorem Lays.named_of_current (h : Lays d b)
    (hcurrent : ∀ k, b.period < k → k ≤ 2 * b.period → k ∈ X → k ∈ D)
    (ha : b.classOf a ≠ .bridgeIn) (hX : a ∈ b.named X) : a ∈ b.named D := by
  rcases h.id?_cases a with hbridge | ⟨j, hj⟩ | ⟨hnone, -, -⟩
  · exact absurd (h.exists_bridge_iff.mp hbridge) ha
  · have hid := h.id?_of_slot hj
    rw [mem_named_of_id? hid] at hX ⊢
    have hone := (slotIn_eq_some hj).2.1
    exact hcurrent _ (by omega) (h.id?_pos hid).2 hX
  · rw [mem_named_of_id?_eq_none hnone] at hX ⊢
    exact hX

/-- What is taken away from the band before, or from other bands, does not concern the rules of a
step: their heads are in the current band. -/
theorem Lays.obeyedBy_of_current (h : Lays d b) (hd : d.Remains log) (hlog : DescribesStep log)
    (hDX : D ⊆ X) (hcurrent : ∀ k, b.period < k → k ≤ 2 * b.period → k ∈ X → k ∈ D)
    (hX : b.ObeyedBy X X) : b.ObeyedBy D X := by
  have hsub := named_mono (b := b) hDX
  have hheads : ∀ a ∈ headsOf log, a ∈ b.named X → a ∈ b.named D := fun a ha =>
    h.named_of_current hcurrent (h.not_bridgeIn_of_mem_heads hd hlog ha)
  refine ⟨?_, fun a ha => ?_, hX.required, fun a ha hmem => ?_, fun bridge hmem => ?_⟩
  · have hrules := hX.rules
    rw [h.draft] at hrules ⊢
    refine ⟨fun i r hi => ?_, fun i r hi => ?_⟩
    · refine (hrules.1 i r hi).of_subset hsub (fun s hs => absurd hs (Option.not_mem_none s)) ?_
      exact fun a ha => hheads a (hd.coherent.mem_of_head hi ha)
    · refine (hrules.2 i r hi).of_subset hsub (fun s hs => ?_) ?_
      · obtain rfl := Option.some.inj hs
        exact (hd.coherent.weights i r hi).1
      · exact fun a ha => hheads a (hd.coherent.mem_of_weightHead hi ha)
  · exact h.named_of_current hcurrent (by simp [ha])
  · exact hX.banned a ha (hsub hmem)
  · have hone := (h.index_mem (mem_freshBridges.mp hmem).1)
    rw [← hX.fresh bridge hmem]
    exact ⟨fun hD => hDX hD, hcurrent _ (by omega) (by omega)⟩

theorem Lays.external_cases (h : Lays d b) (hd : d.Remains log) (ha : a ∈ d.externals) :
    b.classOf a = .bridgeIn ∨ b.classOf a = .bridgeOut := by
  have hclass := h.isOfClass hd a
  generalize b.classOf a = c at hclass ⊢
  cases c with
  | bridgeIn => exact Or.inl rfl
  | bridgeOut => exact Or.inr rfl
  | internal => exact absurd ha hclass.1
  | forcedTrue => exact absurd ha hclass.1
  | forcedFalse => exact absurd ha hclass.1
  | eliminated => exact absurd ha hclass.1

/-- What is true for good and no external has no name. -/
theorem Lays.named_of_on (h : Lays d b) (hd : d.Remains log) (ha : a ∉ d.externals)
    (hon : d.resolution a = some .on) : a ∈ b.named D := by
  have hclass := h.isOfClass hd a
  rcases h.id?_cases a with hbridge | ⟨j, hj⟩ | ⟨hnone, -, -⟩
  · rw [h.exists_bridge_iff.mp hbridge] at hclass
    exact absurd hclass.1 ha
  · rcases (h.mem_owners a).mp (slotIn_eq_some hj).1 with hc | hc
    · rw [hc] at hclass
      have hres := hclass.2
      rw [hon] at hres
      simp at hres
    · rw [hc] at hclass
      exact absurd hclass.1 ha
  · rw [mem_named_of_id?_eq_none hnone, h.draft]
    exact hon

/-- A step that takes over what the step before has is a model of what the draft says. -/
theorem Lays.models_of_obeyedBy (h : Lays d b) (hd : d.Remains log) (hobeyed : b.ObeyedBy D X)
    (hbefore : ∀ a, b.classOf a = .bridgeIn → a ∈ b.named X → a ∈ b.named D) :
    d.remainder.Models (b.named D) (b.named X) := by
  obtain ⟨hrules, hchosen, hrequired, hbanned, -⟩ := hobeyed
  rw [h.draft] at hrules hrequired hbanned
  have hgiven : ∀ a ∈ d.externals, a ∈ b.named X → a ∈ b.named D := by
    intro a ha
    rcases h.external_cases hd ha with hc | hc
    · exact hbefore a hc
    · exact hchosen a hc
  refine ⟨Draft.respects_clauses_iff.mpr hrules, hgiven, fun a ha => ?_, hbanned,
    fun a ha => hrequired a (Or.inr ha)⟩
  by_cases hexternal : a ∈ d.externals
  · exact hgiven a hexternal (hrequired a (Or.inl ha))
  · exact h.named_of_on hd hexternal ha

theorem Lays.obeyedBy_of_models (h : Lays d b) (hd : d.Remains log) (hDX : D ⊆ X)
    (hm : d.remainder.Models (b.named D) (b.named X))
    (hfresh : ∀ bridge ∈ b.freshBridges,
      (b.period + bridge.index ∈ D ↔ b.freshValue bridge = true)) : b.ObeyedBy D X := by
  refine ⟨?_, fun a ha => ?_, fun a ha => ?_, fun a ha => ?_, hfresh⟩
  · rw [h.draft]
    exact Draft.respects_clauses_iff.mp hm.clauses
  · have hclass := h.isOfClass hd a
    rw [ha] at hclass
    exact hm.given a hclass.1
  · rw [h.draft] at ha
    rcases ha with ha | ha
    · exact named_mono hDX (hm.facts a ha)
    · exact hm.required a ha
  · rw [h.draft] at ha
    exact hm.banned a ha

/-! ### All steps -/

/-- The slots of a step are not those of another one. -/
theorem step_eq_of_slot_eq {p s s' i j : Nat} (hi : 1 ≤ i ∧ i ≤ p) (hj : 1 ≤ j ∧ j ≤ p)
    (heq : s * p + i = s' * p + j) : s = s' ∧ i = j := by
  have hcases : s = s' ∨ s + 1 ≤ s' ∨ s' + 1 ≤ s := by omega
  rcases hcases with rfl | hlt | hlt
  · exact ⟨rfl, by omega⟩
  · have hmul : (s + 1) * p ≤ s' * p := Nat.mul_le_mul_right p hlt
    rw [Nat.add_mul, Nat.one_mul] at hmul
    omega
  · have hmul : (s' + 1) * p ≤ s * p := Nat.mul_le_mul_right p hlt
    rw [Nat.add_mul, Nat.one_mul] at hmul
    omega

/-- `M` without the atoms of a step that are not in `D`. -/
def cut (b : Bands) (M D : Set Nat) (s : Nat) : Set Nat :=
  {x | x ∈ M ∧ ∀ a k, b.slot? a = some k → x = s * b.period + k → a ∈ D}

theorem cut_subset : b.cut M D s ⊆ M := fun _ hx => hx.1

theorem slot?_range (ha : b.slot? a = some k) :
    1 ≤ k ∧ k ≤ b.owners.length ∧ k ≤ b.period := by
  obtain ⟨-, hone, hle, -⟩ := slotIn_eq_some ha
  exact ⟨hone, hle, hle.trans (Nat.le_add_right _ _)⟩

theorem mem_cut_of_ne {i : Nat} (hi : 1 ≤ i ∧ i ≤ b.period) {s' : Nat} (hne : s' ≠ s)
    (hM : s' * b.period + i ∈ M) : s' * b.period + i ∈ b.cut M D s := by
  refine ⟨hM, fun a k hk heq => ?_⟩
  have hrange := slot?_range hk
  exact absurd (step_eq_of_slot_eq hi ⟨hrange.1, hrange.2.2⟩ heq).1 hne

/-- A cut leaves what is no slot of an atom. -/
theorem mem_cut_of_fresh {i : Nat} (hi : b.owners.length < i) (hle : i ≤ b.period)
    (hM : s * b.period + i ∈ M) : s * b.period + i ∈ b.cut M D s := by
  refine ⟨hM, fun a k hk heq => ?_⟩
  have hrange := slot?_range hk
  have := (step_eq_of_slot_eq ⟨by omega, hle⟩ ⟨hrange.1, hrange.2.2⟩ heq).2
  omega

theorem mem_cut_of_slot (ha : b.slot? a = some k) :
    s * b.period + k ∈ b.cut M D s ↔ s * b.period + k ∈ M ∧ a ∈ D := by
  have hrange := slot?_range ha
  constructor
  · exact fun h => ⟨h.1, h.2 a k ha rfl⟩
  · rintro ⟨hM, hD⟩
    refine ⟨hM, fun a' k' hk' heq => ?_⟩
    have hrange' := slot?_range hk'
    obtain ⟨-, rfl⟩ := step_eq_of_slot_eq ⟨hrange.1, hrange.2.2⟩ ⟨hrange'.1, hrange'.2.2⟩ heq
    rw [slotIn_injective hk' ha]
    exact hD

end Bands

/-- The atoms of a fresh slot stand for a label that holds for good. -/
def Template.ShowsFact (t : Template) (log : List Observation) (bridge : Bridge) : Prop :=
  ∃ symbol c, Observation.label symbol bridge.atom ∈ log ∧
    labelled? log symbol.unprimed = some c ∧ (c = 0 ∨ t.classOf c = .forcedTrue)

/-- A set of atoms that goes through `n` steps of the program, from the initial state on. -/
structure Template.IsRun (t : Template) (log : List Observation) (n : Nat) (M : Set Nat) :
    Prop where
  init : ∀ k, 1 ≤ k → k ≤ t.period → (k ∈ M ↔ k ∈ t.init)
  steps : ∀ s, 1 ≤ s → s ≤ n → (theoryOf log).IsStable (t.reads M s)
  fresh : ∀ bridge ∈ t.bridges, t.classOf bridge.atom = .internal → ∀ s, 1 ≤ s → s ≤ n →
    (s * t.period + bridge.index ∈ M ↔ t.ShowsFact log bridge)
  within : ∀ x ∈ M, 1 ≤ x ∧ x ≤ (n + 1) * t.period

/-- How a template comes from a program that describes a step. -/
structure Compiled (log : List Observation) (d : Draft) (b : Bands) (t : Template) : Prop where
  step : DescribesStep log
  remains : d.Remains log
  lays : Bands.Lays d b
  template : b.template = .ok t

namespace Compiled

variable {log : List Observation} {d : Draft} {b : Bands} {t : Template} {i k s n : Nat}
  {D M X : Set Nat}

theorem period_eq (h : Compiled log d b t) : t.period = b.period := by
  obtain ⟨rules, weightRules, -, -, heq⟩ := Bands.template_eq_ok h.template
  rw [heq]

theorem bridges_eq (h : Compiled log d b t) : t.bridges = b.bridges := by
  obtain ⟨rules, weightRules, -, -, heq⟩ := Bands.template_eq_ok h.template
  rw [heq]

theorem banded (h : Compiled log d b t) : t.Banded := h.lays.banded h.template

theorem hasFittingWeights (h : Compiled log d b t) (hexact : (Draft.scopeOf log).exact) :
    t.HasFittingWeights :=
  h.lays.hasFittingWeights h.remains h.template hexact

theorem reads_eq (h : Compiled log d b t) (M : Set Nat) (s : Nat) :
    t.reads M s = b.named (t.window M s) :=
  h.lays.reads_eq h.remains h.template M s

/-- The reduct of the unrolled program, in terms of the layout. -/
theorem models_iff (h : Compiled log d b t) (hfits : t.fits n) :
    (t.unrolled n).Models D X ↔ (∀ k ∈ t.init, k ∈ D) ∧
      ∀ s, 1 ≤ s → s ≤ n → b.ObeyedBy (t.window D s) (t.window X s) := by
  rw [Template.models_unrolled_iff h.banded hfits]
  refine and_congr_right fun _ => forall_congr' fun s => ?_
  rw [h.lays.obeyed_iff h.remains h.step h.template]

/-! ### Bands -/

theorem window_mono (hDM : D ⊆ M) : t.window D s ⊆ t.window M s := fun _ hk => hDM hk

theorem mem_window_previous : i ∈ t.window M s ↔ (s - 1) * t.period + i ∈ M := by
  unfold Template.window
  rw [Set.mem_ofPred_eq, Nat.add_comm]

theorem mem_window_current (hs : 1 ≤ s) :
    t.period + i ∈ t.window M s ↔ s * t.period + i ∈ M := by
  obtain ⟨j, rfl⟩ : ∃ j, s = j + 1 := ⟨s - 1, by omega⟩
  unfold Template.window
  rw [Set.mem_ofPred_eq, Nat.add_sub_cancel, Nat.add_mul, Nat.one_mul]
  have heq : t.period + i + j * t.period = j * t.period + t.period + i := by omega
  rw [heq]

/-- Taking nothing from the band of a step keeps its rules. -/
theorem obeyedBy_of_band (h : Compiled log d b t) (hDM : D ⊆ M) (hs : 1 ≤ s)
    (hband : ∀ i, 1 ≤ i → i ≤ t.period → s * t.period + i ∈ M → s * t.period + i ∈ D)
    (hM : b.ObeyedBy (t.window M s) (t.window M s)) :
    b.ObeyedBy (t.window D s) (t.window M s) := by
  refine h.lays.obeyedBy_of_current h.remains h.step (window_mono hDM) ?_ hM
  intro k hlt hle hk
  rw [← h.period_eq] at hlt hle
  obtain ⟨i, rfl⟩ : ∃ i, k = t.period + i := ⟨k - t.period, by omega⟩
  rw [mem_window_current hs] at hk ⊢
  exact hband i (by omega) (by omega) hk

theorem mul_le_of_le (hs : s ≤ n) (hi : i ≤ t.period) :
    s * t.period + i ≤ (n + 1) * t.period := by
  have hmul : s * t.period ≤ n * t.period := Nat.mul_le_mul_right _ hs
  rw [Nat.add_mul, Nat.one_mul]
  omega

theorem le_mul (hs : 1 ≤ s) : t.period ≤ s * t.period := Nat.le_mul_of_pos_left _ hs

/-! ### Splitting -/

/-- The first label of an external is its only one. -/
theorem label?_eq (h : Compiled log d b t) {a : Nat} (ha : a ∈ d.externals) {symbol : Symbol} :
    d.label? a = some symbol ↔ Observation.label symbol a ∈ log := by
  obtain ⟨unique, hunique, honly⟩ := h.step.labelled a ((h.remains.externals a).mp ha)
  have hfirst : d.label? a = some unique := by
    rcases h.lays.external_cases h.remains ha with hc | hc
    all_goals
      have hclass := h.lays.isOfClass h.remains a
      rw [hc] at hclass
      obtain ⟨-, first, hfirst, -⟩ := hclass
      have hmem := Bands.label?_eq_some hfirst
      rw [h.remains.outputs, mem_labelsOf] at hmem
      rw [hfirst, honly first hmem]
  rw [hfirst, Option.some.injEq]
  constructor
  · rintro rfl
    exact hunique
  · exact fun hmem => (honly symbol hmem).symm

theorem mem_externals_of_bridge (h : Compiled log d b t) {bridge : Bridge}
    (hmem : bridge ∈ b.bridges) : bridge.atom ∈ d.externals := by
  have hclass := h.lays.isOfClass h.remains bridge.atom
  rw [h.lays.exists_bridge_iff.mp ⟨bridge, hmem, rfl⟩] at hclass
  exact hclass.1

theorem labelled?_eq (h : Compiled log d b t) (symbol : Symbol) :
    d.labelled? symbol = labelled? log symbol := by
  unfold Draft.labelled? labelled?
  rw [h.remains.outputs]

/-- The value of a fresh slot. -/
theorem showsFact_iff (h : Compiled log d b t) {bridge : Bridge} (hmem : bridge ∈ b.bridges) :
    t.ShowsFact log bridge ↔ b.freshValue bridge = true := by
  have hexternal := h.mem_externals_of_bridge hmem
  obtain ⟨symbol, hsymbol, honly⟩ :=
    h.step.labelled bridge.atom ((h.remains.externals _).mp hexternal)
  have hcounterpart : b.draft.counterpart? bridge.atom = labelled? log symbol.unprimed := by
    unfold Draft.counterpart?
    rw [h.lays.draft, (h.label?_eq hexternal).mpr hsymbol, Option.bind_some, h.labelled?_eq]
  have hzero : b.classOf 0 ≠ .forcedTrue := by
    intro hc
    have hclassify := h.lays.classified 0 (Nat.zero_le _)
    rw [hc] at hclassify
    simp [Draft.classify] at hclassify
  unfold Template.ShowsFact Bands.freshValue
  rw [hcounterpart]
  cases hlast : labelled? log symbol.unprimed with
  | none =>
      refine iff_of_false ?_ (by simp)
      rintro ⟨symbol', c, hlabel, hc, -⟩
      rw [honly symbol' hlabel, hlast] at hc
      exact absurd hc (by simp)
  | some c =>
      have hshows : (∃ symbol' c', Observation.label symbol' bridge.atom ∈ log ∧
          labelled? log symbol'.unprimed = some c' ∧ (c' = 0 ∨ t.classOf c' = .forcedTrue)) ↔
          c = 0 ∨ b.classOf c = .forcedTrue := by
        rw [← h.lays.forcedTrue_iff h.template]
        constructor
        · rintro ⟨symbol', c', hlabel, hc, htrue⟩
          rw [honly symbol' hlabel, hlast] at hc
          obtain rfl := Option.some.inj hc
          exact htrue
        · exact fun htrue => ⟨symbol, c, hsymbol, hlast, htrue⟩
      rw [hshows]
      cases c with
      | zero => simp
      | succ c => simp

/-- Cutting a step down to a part of it leaves the step with that part. -/
theorem named_cut (h : Compiled log d b t) (hs : 1 ≤ s) (hD : D ⊆ t.reads M s)
    (hm : d.remainder.Models D (t.reads M s)) :
    b.named (t.window (b.cut M D s) s) = D := by
  have hsub : b.named (t.window (b.cut M D s) s) ⊆ t.reads M s := by
    rw [h.reads_eq]
    exact Bands.named_mono (window_mono Bands.cut_subset)
  rw [h.reads_eq] at hD hm
  ext a
  rcases h.lays.id?_cases a with ⟨bridge, hmem, rfl⟩ | ⟨j, hj⟩ | ⟨hnone, -, -⟩
  · -- A bridge is not in the band of the step, and as an external it is taken over by `D`.
    have hid := h.lays.id?_of_mem hmem
    obtain ⟨hone, hle⟩ := h.lays.index_mem hmem
    have hkeep : bridge.index ∈ t.window M s → bridge.index ∈ t.window (b.cut M D s) s := by
      rw [mem_window_previous, mem_window_previous, h.period_eq]
      exact Bands.mem_cut_of_ne ⟨hone, hle⟩ (by omega)
    constructor
    · intro ha
      have hX := hsub ha
      rw [h.reads_eq] at hX
      exact hm.given _ (h.mem_externals_of_bridge hmem) hX
    · intro ha
      have hX := hD ha
      rw [Bands.mem_named_of_id? hid] at hX ⊢
      exact hkeep hX
  · have hid := h.lays.id?_of_slot hj
    have hslot := Bands.mem_cut_of_slot (M := M) (D := D) (s := s) hj
    rw [Bands.mem_named_of_id? hid, ← h.period_eq, mem_window_current hs, h.period_eq, hslot,
      ← h.period_eq, ← mem_window_current hs, h.period_eq]
    refine ⟨fun ha => ha.2, fun ha => ⟨?_, ha⟩⟩
    have hX := hD ha
    rwa [Bands.mem_named_of_id? hid] at hX
  · rw [Bands.mem_named_of_id?_eq_none hnone]
    constructor
    · intro hon
      rw [h.lays.draft] at hon
      exact hm.facts a hon
    · intro ha
      have hX := hD ha
      rwa [Bands.mem_named_of_id?_eq_none hnone] at hX

/-- Every step of a stable set of the unrolled program obeys the layout. -/
theorem obeyedBy_of_isStable (h : Compiled log d b t) (hfits : t.fits n)
    (hM : (t.unrolled n).IsStable M) (hs : 1 ≤ s) (hn : s ≤ n) :
    b.ObeyedBy (t.window M s) (t.window M s) :=
  ((h.models_iff hfits).mp hM.model).2 s hs hn

/-- What a step reads is a model of the draft. -/
theorem models_reads (h : Compiled log d b t)
    (hobeyed : b.ObeyedBy (t.window M s) (t.window M s)) :
    d.remainder.Models (t.reads M s) (t.reads M s) := by
  rw [h.reads_eq]
  exact h.lays.models_of_obeyedBy h.remains hobeyed fun _ _ ha => ha

/-- The first band has nothing but what is initially so. -/
theorem mem_init_iff (h : Compiled log d b t) (hfits : t.fits n) (hM : (t.unrolled n).IsStable M)
    (hle : k ≤ t.period) : k ∈ M ↔ k ∈ t.init := by
  have hinit := ((h.models_iff hfits).mp hM.model).1
  refine ⟨fun hk => ?_, hinit k⟩
  let D : Set Nat := {x | x ∈ M ∧ (x ∈ t.init ∨ t.period < x)}
  have hD : D ⊆ M := fun x hx => hx.1
  have hmodels : (t.unrolled n).Models D M := by
    refine (h.models_iff hfits).mpr ⟨fun k hk => ⟨hinit k hk, Or.inl hk⟩, fun s hs hn => ?_⟩
    refine h.obeyedBy_of_band hD hs (fun i hi _ hMi => ⟨hMi, Or.inr ?_⟩)
      (h.obeyedBy_of_isStable hfits hM hs hn)
    have := le_mul (t := t) hs
    omega
  exact (hM.least D hD hmodels hk).2.resolve_right (by omega)

theorem within_of_isStable (h : Compiled log d b t) (hfits : t.fits n)
    (hM : (t.unrolled n).IsStable M) : ∀ x ∈ M, 1 ≤ x ∧ x ≤ (n + 1) * t.period := by
  obtain ⟨hinit, hsteps⟩ := (h.models_iff hfits).mp hM.model
  intro x hx
  let D : Set Nat := {x | x ∈ M ∧ 1 ≤ x ∧ x ≤ (n + 1) * t.period}
  have hD : D ⊆ M := fun x hx => hx.1
  have hmodels : (t.unrolled n).Models D M := by
    refine (h.models_iff hfits).mpr ⟨fun k hk => ⟨hinit k hk, ?_⟩, fun s hs hn => ?_⟩
    · obtain ⟨hone, hle⟩ := h.banded.init k hk
      have := le_mul (t := t) (s := n + 1) (by omega)
      omega
    · refine h.obeyedBy_of_band hD hs (fun i hi hle hMi => ⟨hMi, by omega, ?_⟩) (hsteps s hs hn)
      exact mul_le_of_le hn hle
  exact (hM.least D hD hmodels hx).2

/-- What a step reads is a stable set of the draft: a smaller one would make a smaller set of the
whole. -/
theorem isStable_reads (h : Compiled log d b t) (hfits : t.fits n)
    (hM : (t.unrolled n).IsStable M) (hs : 1 ≤ s) (hn : s ≤ n) :
    d.remainder.IsStable (t.reads M s) := by
  obtain ⟨hinit, hsteps⟩ := (h.models_iff hfits).mp hM.model
  have hread := h.reads_eq M s
  refine ⟨h.models_reads (hsteps s hs hn), fun D hD hm => ?_⟩
  have hcut := h.named_cut hs hD hm
  have hmodels : (t.unrolled n).Models (b.cut M D s) M := by
    refine (h.models_iff hfits).mpr ⟨fun k hk => ?_, fun s' hs' hn' => ?_⟩
    · obtain ⟨hone, hle⟩ := h.banded.init k hk
      have hzero : 0 * b.period + k ∈ M → 0 * b.period + k ∈ b.cut M D s :=
        Bands.mem_cut_of_ne ⟨hone, h.period_eq ▸ hle⟩ (by omega)
      rw [Nat.zero_mul, Nat.zero_add] at hzero
      exact hzero (hinit k hk)
    · by_cases hss : s' = s
      · subst hss
        refine h.lays.obeyedBy_of_models h.remains (window_mono Bands.cut_subset) ?_ ?_
        · rw [hcut, ← hread]
          exact hm
        · intro bridge hmem
          rw [← (hsteps s' hs hn).fresh bridge hmem, ← h.period_eq, mem_window_current hs,
            mem_window_current hs, h.period_eq]
          obtain ⟨hlt, hle⟩ := h.lays.exists_fresh_iff.mp ⟨bridge, hmem, rfl⟩
          exact ⟨fun hD => Bands.cut_subset hD, Bands.mem_cut_of_fresh hlt hle⟩
      · refine h.obeyedBy_of_band Bands.cut_subset hs' (fun i hi hle hMi => ?_)
          (hsteps s' hs' hn')
        rw [h.period_eq] at hle hMi ⊢
        exact Bands.mem_cut_of_ne ⟨hi, hle⟩ hss hMi
  have hleast := hM.least _ Bands.cut_subset hmodels
  rw [hread, ← hcut]
  exact Bands.named_mono (window_mono hleast)

theorem isRun_of_isStable (h : Compiled log d b t) (hexact : (Draft.scopeOf log).exact)
    (hfits : t.fits n) (hM : (t.unrolled n).IsStable M) : t.IsRun log n M := by
  refine ⟨fun k _ hle => h.mem_init_iff hfits hM hle, fun s hs hn => ?_, ?_,
    h.within_of_isStable hfits hM⟩
  · rw [h.remains.stable hexact]
    exact h.isStable_reads hfits hM hs hn
  · intro bridge hmem hclass s hs hn
    rw [h.bridges_eq] at hmem
    have hfresh := (h.lays.mem_freshBridges_iff h.template).mpr ⟨hmem, hclass⟩
    have hvalue := (h.obeyedBy_of_isStable hfits hM hs hn).fresh bridge hfresh
    rw [← h.period_eq, mem_window_current hs] at hvalue
    rw [hvalue, h.showsFact_iff hmem]

/-- Every atom within `n` steps is a slot of one of them. -/
theorem exists_slot {p x : Nat} (hone : 1 ≤ x) (hle : x ≤ (n + 1) * p) :
    ∃ s i, s ≤ n ∧ 1 ≤ i ∧ i ≤ p ∧ x = s * p + i := by
  have hpos : 0 < p := by
    by_contra hzero
    obtain rfl : p = 0 := by omega
    omega
  have hdiv : (x - 1) / p < n + 1 := (Nat.div_lt_iff_lt_mul hpos).mpr (by omega)
  have hmod := Nat.mod_lt (x - 1) hpos
  have hsplit := Nat.div_add_mod' (x - 1) p
  exact ⟨(x - 1) / p, (x - 1) % p + 1, by omega, by omega, by omega, by omega⟩

theorem obeyedBy_of_isRun (h : Compiled log d b t) (hexact : (Draft.scopeOf log).exact)
    (hrun : t.IsRun log n M) (hs : 1 ≤ s) (hn : s ≤ n) :
    b.ObeyedBy (t.window M s) (t.window M s) := by
  have hstep := hrun.steps s hs hn
  rw [h.remains.stable hexact, h.reads_eq] at hstep
  refine h.lays.obeyedBy_of_models h.remains subset_rfl hstep.model fun bridge hmem => ?_
  obtain ⟨hbridge, hclass⟩ := (h.lays.mem_freshBridges_iff h.template).mp hmem
  rw [← h.period_eq, mem_window_current hs, ← h.showsFact_iff hbridge]
  exact hrun.fresh bridge (h.bridges_eq ▸ hbridge) hclass s hs hn

/-- A model of the reduct has all bands of a run, one after the other. -/
theorem mem_of_models (h : Compiled log d b t) (hexact : (Draft.scopeOf log).exact)
    (hfits : t.fits n) (hrun : t.IsRun log n M) (hDM : D ⊆ M)
    (hD : (t.unrolled n).Models D M) :
    ∀ s ≤ n, ∀ i, 1 ≤ i → i ≤ t.period → s * t.period + i ∈ M → s * t.period + i ∈ D := by
  obtain ⟨hinit, hsteps⟩ := (h.models_iff hfits).mp hD
  intro s
  induction s with
  | zero =>
      intro _ i hi hle hM
      rw [Nat.zero_mul, Nat.zero_add] at hM ⊢
      exact hinit i ((hrun.init i hi hle).mp hM)
  | succ s ih =>
      intro hn i hi hle hM
      have hobeyed := hsteps (s + 1) (by omega) hn
      have hstep := hrun.steps (s + 1) (by omega) hn
      rw [h.remains.stable hexact, h.reads_eq] at hstep
      have hmodel : d.remainder.Models (b.named (t.window D (s + 1)))
          (b.named (t.window M (s + 1))) := by
        refine h.lays.models_of_obeyedBy h.remains hobeyed fun a ha hmem => ?_
        obtain ⟨bridge, hbridge, rfl⟩ := h.lays.exists_bridge_iff.mpr ha
        obtain ⟨hone, hperiod⟩ := h.lays.index_mem hbridge
        have hid := h.lays.id?_of_mem hbridge
        rw [Bands.mem_named_of_id? hid, mem_window_previous, Nat.add_sub_cancel] at hmem ⊢
        exact ih (by omega) _ hone (h.period_eq ▸ hperiod) hmem
      have hall := hstep.least _ (Bands.named_mono (window_mono hDM)) hmodel
      by_cases howner : i ≤ b.owners.length
      · obtain ⟨a, ha⟩ := Bands.exists_owner h.lays.nodup hi howner
        have hid := h.lays.id?_of_slot ha
        have hmem : a ∈ b.named (t.window M (s + 1)) := by
          rw [Bands.mem_named_of_id? hid, ← h.period_eq, mem_window_current (by omega)]
          exact hM
        have hmemD := hall hmem
        rwa [Bands.mem_named_of_id? hid, ← h.period_eq, mem_window_current (by omega)] at hmemD
      · obtain ⟨bridge, hbridge, rfl⟩ :=
          h.lays.exists_fresh_iff.mpr ⟨by omega, h.period_eq ▸ hle⟩
        have hvalue := (h.obeyedBy_of_isRun hexact hrun (by omega) hn).fresh bridge hbridge
        have hvalueD := hobeyed.fresh bridge hbridge
        rw [← h.period_eq, mem_window_current (by omega)] at hvalue hvalueD
        exact hvalueD.mpr (hvalue.mp hM)

theorem isStable_of_isRun (h : Compiled log d b t) (hexact : (Draft.scopeOf log).exact)
    (hfits : t.fits n) (hrun : t.IsRun log n M) : (t.unrolled n).IsStable M := by
  refine ⟨(h.models_iff hfits).mpr ⟨fun k hk => ?_, fun s hs hn => ?_⟩, fun D hDM hD x hx => ?_⟩
  · obtain ⟨hone, hle⟩ := h.banded.init k hk
    exact (hrun.init k hone hle).mpr hk
  · exact h.obeyedBy_of_isRun hexact hrun hs hn
  · obtain ⟨hone, hle⟩ := hrun.within x hx
    obtain ⟨s, i, hs, hi, hip, rfl⟩ := exists_slot hone hle
    exact h.mem_of_models hexact hfits hrun hDM hD s hs i hi hip hx

/-- The stable sets of the unrolled program are the runs of the program, if sums are exact. -/
theorem isStable_iff_isRun (h : Compiled log d b t) (hexact : (Draft.scopeOf log).exact)
    (hfits : t.fits n) : (t.unrolled n).IsStable M ↔ t.IsRun log n M :=
  ⟨h.isRun_of_isStable hexact hfits, h.isStable_of_isRun hexact hfits⟩

end Compiled

end StablePlan
