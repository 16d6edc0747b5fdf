import StablePlan.Proofs.Unrolling.Externals

/-!
Trajectories: stable sets of the program, one for each step, in which the primed externals have the
values that the labels they stand for have in the step before. A run of the unrolled program reads
as a trajectory, and every trajectory is read from a run.
-/

namespace StablePlan

/-- A set of atoms shows a label that is a fact or whose last bearer is in the set. -/
def Shows (log : List Observation) (X : Set Nat) (symbol : Symbol) : Prop :=
  ∃ c, labelled? log symbol = some c ∧ (c = 0 ∨ c ∈ X)

/-- The initial state of a template makes a primed external true. -/
def Template.StartsWith (t : Template) (a : Nat) : Prop := ∃ k ∈ t.init, t.id? a = some k

/-- Stable sets for the steps from 1 to `n`, each of which takes over what the one before shows. -/
structure Trajectory (log : List Observation) (t : Template) (n : Nat) (S : Nat → Set Nat) :
    Prop where
  stable : ∀ s, 1 ≤ s → s ≤ n → (theoryOf log).IsStable (S s)
  initial : ∀ symbol a, IsExternal log symbol a → symbol.isPrimed →
    (a ∈ S 1 ↔ t.StartsWith a)
  linked : ∀ symbol a, IsExternal log symbol a → symbol.isPrimed → ∀ s, 1 ≤ s → s < n →
    (a ∈ S (s + 1) ↔ Shows log (S s) symbol.unprimed)

/-! ### Atoms without a name -/

namespace Draft

variable {d : Draft} {scope : Scope} {a i : Nat} {X : Set Nat}

theorem Coherent.isMentioned_of_mem_head (h : d.Coherent scope) {c : Clause} (hc : c ∈ d.clauses)
    (ha : a ∈ c.head) : d.isMentioned a := by
  rcases hc with ⟨r, hr, hc⟩ | ⟨r, hr, hc⟩
  · obtain ⟨i, hi⟩ := mem_liveRules.mp hr
    have hhead : a ∈ r.head := Clause.mem_head_of_mem_shifted hc ha
    refine h.mentioned false i r.parts ?_ (a, .head) ?_
    · rw [parts?_false, hi]
      rfl
    · exact List.mem_append_left _ (List.mem_map.mpr ⟨a, hhead, rfl⟩)
  · obtain ⟨i, hi⟩ := mem_liveWeightRules.mp hr
    have hhead : a ∈ r.head := Clause.mem_head_of_mem_shifted hc ha
    refine h.mentioned true i r.parts ?_ (a, .weightHead) ?_
    · rw [parts?_true, hi]
      rfl
    · exact List.mem_append_left _ (List.mem_map.mpr ⟨a, hhead, rfl⟩)

theorem Coherent.hasNonnegWeights (h : d.Coherent scope) : d.remainder.HasNonnegWeights := by
  rintro c (⟨r, hr, hc⟩ | ⟨r, hr, hc⟩) s hs
  · rw [Clause.sum_of_mem_shifted hc] at hs
    exact absurd hs (Option.not_mem_none s)
  · obtain ⟨i, hi⟩ := mem_liveWeightRules.mp hr
    rw [Clause.sum_of_mem_shifted hc] at hs
    obtain rfl := Option.some.inj hs
    exact (h.weights i r hi).1

/-- What is not mentioned is in no stable set. -/
theorem Remains.not_mem_of_not_isMentioned {log : List Observation} (h : d.Remains log)
    (hX : d.remainder.IsStable X) (ha : ¬d.isMentioned a) : a ∉ X := by
  intro hmem
  rcases hX.supported h.coherent.hasNonnegWeights hmem with hgiven | hfact | ⟨c, hc, hhead, -⟩
  · exact ha (h.mentioned a hgiven)
  · exact ha (h.coherent.resolved a (by simp [show d.resolution a = some .on from hfact]))
  · exact ha (h.coherent.isMentioned_of_mem_head hc hhead)

end Draft

namespace Compiled

variable {log : List Observation} {d : Draft} {b : Bands} {t : Template} {a k s n : Nat}
  {symbol : Symbol} {M X : Set Nat} {S : Nat → Set Nat}

theorem not_isMentioned_of_eliminated (h : Compiled log d b t)
    (ha : b.classOf a = .eliminated) : ¬d.isMentioned a := by
  intro hmentioned
  have hle : a ≤ d.maxAtom := by
    have := Draft.lt_of_isMentioned hmentioned
    unfold Draft.maxAtom
    omega
  have hclassify := h.lays.classified a hle
  have hne : a ≠ 0 := by
    rintro rfl
    exact absurd (h.remains.zero.symm.trans hmentioned) (by simp)
  rw [ha] at hclassify
  unfold Draft.classify at hclassify
  rw [if_neg (by simp [hne, hmentioned])] at hclassify
  split at hclassify
  · split at hclassify
    · split at hclassify <;> simp at hclassify
    · simp at hclassify
  · split at hclassify <;> simp at hclassify

/-- An atom without a name is in all stable sets or in none. -/
theorem mem_iff_forcedTrue (h : Compiled log d b t) (hexact : (Draft.scopeOf log).exact)
    (hX : (theoryOf log).IsStable X) (hnone : b.id? a = none) :
    a ∈ X ↔ b.classOf a = .forcedTrue := by
  rw [h.remains.stable hexact] at hX
  have hclass := h.lays.isOfClass h.remains a
  have hno : b.classOf a ≠ .bridgeIn ∧ a ∉ b.owners := by
    rcases h.lays.id?_cases a with ⟨bridge, hmem, rfl⟩ | ⟨j, hj⟩ | ⟨-, hno⟩
    · exact absurd ((h.lays.id?_of_mem hmem).symm.trans hnone) (by simp)
    · exact absurd ((h.lays.id?_of_slot hj).symm.trans hnone) (by simp)
    · exact hno
  rw [h.lays.mem_owners, not_or] at hno
  obtain ⟨hbridge, hinternal, hout⟩ := hno
  cases hc : b.classOf a with
  | internal => exact absurd hc hinternal
  | bridgeIn => exact absurd hc hbridge
  | bridgeOut => exact absurd hc hout
  | forcedTrue =>
      rw [hc] at hclass
      exact iff_of_true (hX.model.facts a hclass.2) rfl
  | forcedFalse =>
      rw [hc] at hclass
      exact iff_of_false (hX.model.banned a hclass.2) (by simp)
  | eliminated =>
      have hmentioned := h.not_isMentioned_of_eliminated hc
      exact iff_of_false (h.remains.not_mem_of_not_isMentioned hX hmentioned) (by simp)

/-! ### Bridges -/

theorem counterpart?_eq (h : Compiled log d b t) (ha : IsExternal log symbol a) :
    d.counterpart? a = labelled? log symbol.unprimed := by
  have hexternal := (h.remains.externals a).mpr ha.given
  unfold Draft.counterpart?
  rw [(h.label?_eq hexternal).mpr ha.label, Option.bind_some, h.labelled?_eq]

/-- The atom that bears an unprimed label is no bridge. -/
theorem counterpart_not_bridge (h : Compiled log d b t) {c : Nat}
    (hc : labelled? log symbol.unprimed = some c) : b.classOf c ≠ .bridgeIn := by
  intro hclass
  have hbridge := h.lays.isOfClass h.remains c
  rw [hclass] at hbridge
  obtain ⟨hexternal, first, hfirst, hprimed⟩ := hbridge
  have hlabel := (h.label?_eq hexternal).mpr (label_mem_of_labelled? hc)
  obtain rfl := Option.some.inj (hlabel.symm.trans hfirst)
  exact Symbol.not_isPrimed_unprimed symbol hprimed

theorem slot?_zero (h : Compiled log d b t) : b.slot? 0 = none := by
  cases hslot : b.slot? 0 with
  | none => rfl
  | some k =>
      have hrange := h.lays.range_of_id? (h.lays.id?_of_slot hslot)
      unfold Draft.atoms at hrange
      rw [List.mem_range'_1] at hrange
      omega

/-- The value of a fresh slot is what is shown of its label, where atoms without a name are as
their classes say. -/
theorem shows_iff_freshValue (h : Compiled log d b t)
    (hX : ∀ a, b.id? a = none → (a ∈ X ↔ b.classOf a = .forcedTrue))
    {bridge : Bridge} (ha : IsExternal log symbol bridge.atom)
    (hslot : (d.counterpart? bridge.atom).bind b.slot? = none) :
    Shows log X symbol.unprimed ↔ b.freshValue bridge = true := by
  have hcounterpart := h.counterpart?_eq ha
  unfold Shows Bands.freshValue
  rw [h.lays.draft, hcounterpart]
  rw [hcounterpart] at hslot
  cases hlast : labelled? log symbol.unprimed with
  | none => simp
  | some c =>
      rw [hlast, Option.bind_some] at hslot
      cases c with
      | zero => simp
      | succ c =>
          have hnone : b.id? (c + 1) = none := by
            rcases h.lays.id?_cases (c + 1) with hbridge | ⟨j, hj⟩ | ⟨hnone, -⟩
            · exact absurd (h.lays.exists_bridge_iff.mp hbridge) (h.counterpart_not_bridge hlast)
            · exact absurd (hslot.symm.trans hj) (by simp)
            · exact hnone
          simp [hX _ hnone]

/-- A primed external is a bridge. -/
theorem exists_bridge (h : Compiled log d b t) (ha : IsExternal log symbol a)
    (hprimed : symbol.isPrimed) : ∃ bridge ∈ b.bridges, bridge.atom = a := by
  rw [h.lays.exists_bridge_iff, h.classOf_external ha, if_pos hprimed]

/-- What a bridge reads in the step before is what that step shows. -/
theorem shows_iff_mem (h : Compiled log d b t) {bridge : Bridge} (hmem : bridge ∈ b.bridges)
    (ha : IsExternal log symbol bridge.atom)
    (hX : ∀ a, b.id? a = none → (a ∈ X ↔ b.classOf a = .forcedTrue))
    (hslots : ∀ c k, b.slot? c = some k → (s * t.period + k ∈ M ↔ c ∈ X))
    (hfresh : bridge ∈ b.freshBridges →
      (s * t.period + bridge.index ∈ M ↔ b.freshValue bridge = true)) :
    s * t.period + bridge.index ∈ M ↔ Shows log X symbol.unprimed := by
  rcases h.lays.bridges_cases hmem with hslot | ⟨hnone, hlt⟩
  · obtain ⟨c, hc, hck⟩ := Option.bind_eq_some_iff.mp hslot
    rw [h.counterpart?_eq ha] at hc
    have hne : c ≠ 0 := by
      rintro rfl
      exact absurd (h.slot?_zero.symm.trans hck) (by simp)
    unfold Shows
    simp [hslots c _ hck, hc, hne]
  · rw [hfresh (Bands.Lays.mem_freshBridges.mpr ⟨hmem, hlt⟩), h.shows_iff_freshValue hX ha hnone]

/-- An atom without a name is read as its class says. -/
theorem mem_reads_iff_forcedTrue (h : Compiled log d b t) (hnone : b.id? a = none) :
    a ∈ t.reads M s ↔ b.classOf a = .forcedTrue := by
  rw [← h.lays.forcedTrue_iff h.template]
  unfold Template.reads
  rw [Set.mem_ofPred_eq, h.lays.id?_template h.template, hnone]

/-- Where the layout is obeyed, a bridge has at every step the value that the step shows. -/
theorem shows_iff_mem_of_obeyedBy (h : Compiled log d b t)
    (hobeyed : b.ObeyedBy (t.window M s) (t.window M s)) {bridge : Bridge}
    (hmem : bridge ∈ b.bridges) (ha : IsExternal log symbol bridge.atom) (hs : 1 ≤ s) :
    s * t.period + bridge.index ∈ M ↔ Shows log (t.reads M s) symbol.unprimed := by
  refine h.shows_iff_mem hmem ha (fun a => h.mem_reads_iff_forcedTrue) (fun c k hk => ?_)
    fun hfresh => ?_
  · exact (h.mem_reads_handle hk hs).symm
  · rw [← mem_window_current hs, h.period_eq]
    exact hobeyed.fresh bridge hfresh

/-- A run reads as a trajectory. -/
theorem trajectory_of_isRun (h : Compiled log d b t) (hexact : (Draft.scopeOf log).exact)
    (hrun : t.IsRun log n M) : Trajectory log t n (t.reads M) := by
  refine ⟨hrun.steps, fun symbol a ha hprimed => ?_, fun symbol a ha hprimed s hs hn => ?_⟩
  · obtain ⟨bridge, hmem, rfl⟩ := h.exists_bridge ha hprimed
    have hid := h.lays.id?_of_mem hmem
    obtain ⟨hone, hle⟩ := h.lays.index_mem hmem
    rw [h.reads_eq, Bands.mem_named_of_id? hid, mem_window_previous, Nat.sub_self, Nat.zero_mul,
      Nat.zero_add, hrun.init _ hone (h.period_eq ▸ hle)]
    unfold Template.StartsWith
    simp [h.lays.id?_template h.template, hid]
  · obtain ⟨bridge, hmem, rfl⟩ := h.exists_bridge ha hprimed
    have hid := h.lays.id?_of_mem hmem
    rw [h.reads_eq, Bands.mem_named_of_id? hid, mem_window_previous, Nat.add_sub_cancel]
    exact h.shows_iff_mem_of_obeyedBy (h.obeyedBy_of_isRun hexact hrun hs hn.le) hmem ha hs

/-! ### The run of a trajectory -/

/-- The atoms that a trajectory makes true in the unrolled program. -/
def runOf (b : Bands) (t : Template) (n : Nat) (S : Nat → Set Nat) : Set Nat :=
  {x | x ∈ t.init ∨ ∃ s, 1 ≤ s ∧ s ≤ n ∧
    ((∃ a k, b.slot? a = some k ∧ x = s * t.period + k ∧ a ∈ S s) ∨
      ∃ bridge ∈ b.freshBridges, x = s * t.period + bridge.index ∧ b.freshValue bridge = true)}

theorem mem_runOf_init (h : Compiled log d b t) (hle : k ≤ t.period) :
    k ∈ runOf b t n S ↔ k ∈ t.init := by
  refine ⟨fun hk => ?_, Or.inl⟩
  rcases hk with hk | ⟨s, hs, -, ⟨a, j, hj, heq, -⟩ | ⟨bridge, hmem, heq, -⟩⟩
  · exact hk
  · have hrange := Bands.slot?_range hj
    have := le_mul (t := t) hs
    omega
  · have hrange := h.lays.index_mem (Bands.Lays.mem_freshBridges.mp hmem).1
    have := le_mul (t := t) hs
    omega

theorem mem_runOf_slot (h : Compiled log d b t) (hslot : b.slot? a = some k) (hs : 1 ≤ s)
    (hn : s ≤ n) : s * t.period + k ∈ runOf b t n S ↔ a ∈ S s := by
  have hrange := Bands.slot?_range hslot
  have hperiod := h.period_eq
  refine ⟨fun hk => ?_, fun ha => Or.inr ⟨s, hs, hn, Or.inl ⟨a, k, hslot, rfl, ha⟩⟩⟩
  rcases hk with hk | ⟨s', hs', -, ⟨a', j, hj, heq, ha'⟩ | ⟨bridge, hmem, heq, -⟩⟩
  · have := (h.banded.init _ hk).2
    have := le_mul (t := t) hs
    omega
  · have hrange' := Bands.slot?_range hj
    obtain ⟨rfl, rfl⟩ := Bands.step_eq_of_slot_eq ⟨hrange.1, hperiod ▸ hrange.2.2⟩
      ⟨hrange'.1, hperiod ▸ hrange'.2.2⟩ heq
    exact Bands.slotIn_injective hslot hj ▸ ha'
  · obtain ⟨hone, hle⟩ := h.lays.index_mem (Bands.Lays.mem_freshBridges.mp hmem).1
    have hlt := (Bands.Lays.mem_freshBridges.mp hmem).2
    obtain ⟨-, rfl⟩ := Bands.step_eq_of_slot_eq ⟨hrange.1, hperiod ▸ hrange.2.2⟩
      ⟨hone, hperiod ▸ hle⟩ heq
    omega

theorem mem_runOf_fresh (h : Compiled log d b t) {bridge : Bridge} (hmem : bridge ∈ b.freshBridges)
    (hs : 1 ≤ s) (hn : s ≤ n) :
    s * t.period + bridge.index ∈ runOf b t n S ↔ b.freshValue bridge = true := by
  obtain ⟨hbridge, hlt⟩ := Bands.Lays.mem_freshBridges.mp hmem
  obtain ⟨hone, hle⟩ := h.lays.index_mem hbridge
  have hperiod := h.period_eq
  refine ⟨fun hk => ?_, fun hv => Or.inr ⟨s, hs, hn, Or.inr ⟨bridge, hmem, rfl, hv⟩⟩⟩
  rcases hk with hk | ⟨s', hs', -, ⟨a', j, hj, heq, -⟩ | ⟨bridge', hmem', heq, hv⟩⟩
  · have := (h.banded.init _ hk).2
    have := le_mul (t := t) hs
    omega
  · have hrange := Bands.slot?_range hj
    obtain ⟨-, rfl⟩ := Bands.step_eq_of_slot_eq ⟨hone, hperiod ▸ hle⟩
      ⟨hrange.1, hperiod ▸ hrange.2.2⟩ heq
    omega
  · obtain ⟨hone', hle'⟩ := h.lays.index_mem (Bands.Lays.mem_freshBridges.mp hmem').1
    obtain ⟨-, hindex⟩ := Bands.step_eq_of_slot_eq ⟨hone, hperiod ▸ hle⟩
      ⟨hone', hperiod ▸ hle'⟩ heq
    exact h.lays.fresh_ext hmem hmem' hindex ▸ hv

/-- Reading the run of a trajectory gives the trajectory back. -/
theorem reads_runOf (h : Compiled log d b t) (hexact : (Draft.scopeOf log).exact)
    (htrajectory : Trajectory log t n S) (hs : 1 ≤ s) (hn : s ≤ n) :
    t.reads (runOf b t n S) s = S s := by
  ext a
  rcases h.lays.id?_cases a with ⟨bridge, hmem, rfl⟩ | ⟨k, hk⟩ | ⟨hnone, -, -⟩
  -- A bridge is read in the step before, in the initial state for the first step.
  · have hid := h.lays.id?_of_mem hmem
    have hclass := h.lays.isOfClass h.remains bridge.atom
    rw [h.lays.exists_bridge_iff.mp ⟨bridge, hmem, rfl⟩] at hclass
    obtain ⟨hexternal, symbol, hlabel, hprimed⟩ := hclass
    have ha : IsExternal log symbol bridge.atom :=
      ⟨(h.remains.externals _).mp hexternal, (h.label?_eq hexternal).mp hlabel⟩
    obtain ⟨hone, hle⟩ := h.lays.index_mem hmem
    rw [h.reads_eq, Bands.mem_named_of_id? hid, mem_window_previous]
    obtain ⟨j, rfl⟩ : ∃ j, s = j + 1 := ⟨s - 1, by omega⟩
    rw [Nat.add_sub_cancel]
    rcases Nat.eq_zero_or_pos j with rfl | hj
    · rw [Nat.zero_mul, Nat.zero_add, h.mem_runOf_init (h.period_eq ▸ hle),
        htrajectory.initial symbol _ ha hprimed]
      unfold Template.StartsWith
      simp [h.lays.id?_template h.template, hid]
    · rw [htrajectory.linked symbol _ ha hprimed j hj (by omega)]
      have hX := htrajectory.stable j hj (by omega)
      refine h.shows_iff_mem hmem ha (fun a => h.mem_iff_forcedTrue hexact hX) (fun c k hk => ?_) ?_
      · exact h.mem_runOf_slot hk hj (by omega)
      · exact fun hfresh => h.mem_runOf_fresh hfresh hj (by omega)
  · rw [h.mem_reads_handle hk hs, h.mem_runOf_slot hk hs hn]
  -- An atom without a name has the value that all stable sets give it.
  · rw [h.mem_iff_forcedTrue hexact (htrajectory.stable s hs hn) hnone,
      h.mem_reads_iff_forcedTrue hnone]

theorem isRun_runOf (h : Compiled log d b t) (hexact : (Draft.scopeOf log).exact)
    (htrajectory : Trajectory log t n S) : t.IsRun log n (runOf b t n S) := by
  refine ⟨fun k _ hle => h.mem_runOf_init hle, fun s hs hn => ?_, ?_, ?_⟩
  · rw [h.reads_runOf hexact htrajectory hs hn]
    exact htrajectory.stable s hs hn
  · intro bridge hmem hclass s hs hn
    rw [h.bridges_eq] at hmem
    have hfresh := (h.lays.mem_freshBridges_iff h.template).mpr ⟨hmem, hclass⟩
    rw [h.mem_runOf_fresh hfresh hs hn, h.showsFact_iff hmem]
  · rintro x (hx | ⟨s, hs, hn, ⟨a, k, hk, rfl, -⟩ | ⟨bridge, hmem, rfl, -⟩⟩)
    · obtain ⟨hone, hle⟩ := h.banded.init x hx
      have := le_mul (t := t) (s := n + 1) (by omega)
      omega
    · have hrange := Bands.slot?_range hk
      refine ⟨by omega, mul_le_of_le hn (h.period_eq ▸ hrange.2.2)⟩
    · obtain ⟨hone, hle⟩ := h.lays.index_mem (Bands.Lays.mem_freshBridges.mp hmem).1
      exact ⟨by omega, mul_le_of_le hn (h.period_eq ▸ hle)⟩

end Compiled

end StablePlan
