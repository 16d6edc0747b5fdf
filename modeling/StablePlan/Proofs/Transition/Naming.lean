import StablePlan.Proofs.Transition.Layout

/-!
What the rules of a template say. Read over the indices of the two bands they say what the draft
says of its atoms: its rules under new names, and besides what it has resolved and left open about
the atoms that keep a name.
-/

namespace StablePlan

/-- The rules of a template are obeyed, read over indices. -/
def Template.Obeyed (t : Template) (D X : Set Nat) : Prop :=
  (∀ r ∈ t.rules, r.clause.Obeys D X) ∧ ∀ r ∈ t.weightRules, r.clause.Obeys D X

namespace Bands

variable {log : List Observation} {d : Draft} {b : Bands} {t : Template} {a k : Nat}
  {D X : Set Nat}

/-- The atoms that a set of indices makes true: by their names, or as resolved without one. -/
def named (b : Bands) (D : Set Nat) : Set Nat :=
  {a | match b.id? a with
    | some k => k ∈ D
    | none => b.draft.resolution a = some .on}

theorem mem_named_of_id? (h : b.id? a = some k) : a ∈ b.named D ↔ k ∈ D := by
  unfold named
  rw [Set.mem_ofPred_eq, h]

theorem mem_named_of_id?_eq_none (h : b.id? a = none) :
    a ∈ b.named D ↔ b.draft.resolution a = some .on := by
  unfold named
  rw [Set.mem_ofPred_eq, h]

/-- What a layout asks of two sets of indices. -/
structure ObeyedBy (b : Bands) (D X : Set Nat) : Prop where
  rules : b.draft.Obeyed (b.named D) (b.named X)
  chosen : ∀ a, b.classOf a = .bridgeOut → a ∈ b.named X → a ∈ b.named D
  required : ∀ a, b.draft.resolution a = some .on ∨ b.draft.resolution a = some .cautious →
    a ∈ b.named X
  banned : ∀ a, b.draft.resolution a = some .off → a ∉ b.named D
  fresh : ∀ bridge ∈ b.freshBridges,
    (b.period + bridge.index ∈ D ↔ b.freshValue bridge = true)

/-! ### Names -/

theorem Lays.id?_pos (h : Lays d b) (hk : b.id? a = some k) : 1 ≤ k ∧ k ≤ 2 * b.period := by
  rcases h.id?_cases a with ⟨bridge, hmem, rfl⟩ | ⟨j, hj⟩ | ⟨hnone, -, -⟩
  · obtain rfl := Option.some.inj ((h.id?_of_mem hmem).symm.trans hk)
    obtain ⟨hone, hle⟩ := h.index_mem hmem
    omega
  · obtain rfl := Option.some.inj ((h.id?_of_slot hj).symm.trans hk)
    obtain ⟨-, hone, hle, -⟩ := slotIn_eq_some hj
    have : b.owners.length ≤ b.period := Nat.le_add_right _ _
    omega
  · exact absurd (hnone.symm.trans hk) (by simp)

theorem Lays.range_of_id? (h : Lays d b) (hk : b.id? a = some k) : a ∈ b.draft.atoms := by
  have hclass : b.classOf a ≠ .eliminated := by
    intro hc
    rcases h.id?_cases a with hbridge | ⟨j, hj⟩ | ⟨hnone, -, -⟩
    · exact absurd ((h.exists_bridge_iff.mp hbridge).symm.trans hc) (by simp)
    · rcases (h.mem_owners a).mp (slotIn_eq_some hj).1 with hc' | hc' <;>
        exact absurd (hc'.symm.trans hc) (by simp)
    · exact absurd (hnone.symm.trans hk) (by simp)
  have hle : a ≤ d.maxAtom := by
    by_contra hlt
    exact hclass (h.outside a (by omega))
  have hne : a ≠ 0 := by
    rintro rfl
    refine hclass (Except.ok.inj ((h.classified 0 hle).symm.trans ?_))
    simp [Draft.classify]
  rw [h.draft]
  unfold Draft.atoms
  rw [List.mem_range'_1]
  omega

/-- The table of names has the names. -/
theorem Lays.getD_ids (h : Lays d b) (a : Nat) : b.ids.getD a none = b.id? a := by
  unfold ids
  rw [Array.getD_eq_getD_getElem?, List.getElem?_toArray, List.getElem?_map]
  by_cases ha : a < b.draft.maxAtom + 1
  · rw [List.getElem?_range ha]
    rfl
  · rw [List.getElem?_eq_none (by simpa using ha)]
    cases hid : b.id? a with
    | none => rfl
    | some k =>
        have hrange := h.range_of_id? hid
        unfold Draft.atoms at hrange
        rw [List.mem_range'_1] at hrange
        omega

/-- The name of an atom that has one. -/
def nameOf (b : Bands) (a : Nat) : Nat := (b.id? a).getD 0

theorem nameOf_eq (h : b.id? a = some k) : b.nameOf a = k := by
  unfold nameOf
  rw [h]
  rfl

theorem Lays.renameAtom_eq_ok (h : Lays d b) :
    renameAtom b.ids a = .ok k ↔ b.id? a = some k := by
  unfold renameAtom
  rw [h.getD_ids]
  cases b.id? a with
  | none => simp
  | some j => simp

theorem Lays.renameLiteral_eq_ok (h : Lays d b) {l l' : Literal}
    (hok : renameLiteral b.ids l = .ok l') :
    (∃ k, b.id? l.atom = some k) ∧ l' = l.withAtom (b.nameOf l.atom) := by
  obtain ⟨k, hatom, hok⟩ := exists_of_bind_eq_ok hok
  have hk := h.renameAtom_eq_ok.mp hatom
  rw [nameOf_eq hk]
  exact ⟨⟨k, hk⟩, (Except.ok.inj hok).symm⟩

theorem Lays.renameElement_eq_ok (h : Lays d b) {e e' : Literal × Int}
    (hok : renameElement b.ids e = .ok e') :
    (∃ k, b.id? e.1.atom = some k) ∧ e' = (e.1.withAtom (b.nameOf e.1.atom), e.2) := by
  obtain ⟨l, hliteral, hok⟩ := exists_of_bind_eq_ok hok
  obtain ⟨hk, rfl⟩ := h.renameLiteral_eq_ok hliteral
  exact ⟨hk, (Except.ok.inj hok).symm⟩

/-- A head that is renamed has names for all its atoms. -/
theorem Lays.renameHead_eq_ok (h : Lays d b) {head head' : List Nat}
    (hok : head.mapM (renameAtom b.ids) = .ok head') :
    (∀ a ∈ head, ∃ k, b.id? a = some k) ∧ head' = head.map b.nameOf := by
  refine ⟨fun a ha => ?_, eq_map_of_mapM_eq_ok hok fun a k hk => ?_⟩
  · obtain ⟨k, -, hk⟩ := exists_of_mapM_eq_ok hok a ha
    exact ⟨k, h.renameAtom_eq_ok.mp hk⟩
  · exact (nameOf_eq (h.renameAtom_eq_ok.mp hk)).symm

/-- A rule that is renamed has names for all its atoms. -/
theorem Lays.renameRule_eq_ok (h : Lays d b) {r r' : Rule} (hok : renameRule b.ids r = .ok r') :
    (∀ a ∈ r.clause.atoms, ∃ k, b.id? a = some k) ∧ r'.clause = r.clause.mapAtoms b.nameOf := by
  obtain ⟨head, hhead, hok⟩ := exists_of_bind_eq_ok hok
  obtain ⟨body, hbody, hok⟩ := exists_of_bind_eq_ok hok
  obtain rfl := Except.ok.inj hok
  obtain ⟨hnamed, rfl⟩ := h.renameHead_eq_ok hhead
  obtain rfl := eq_map_of_mapM_eq_ok hbody fun l l' hl => (h.renameLiteral_eq_ok hl).2
  refine ⟨fun a ha => ?_, rfl⟩
  simp only [Clause.atoms, Rule.clause, Option.toList_none, List.flatMap_nil, List.append_nil,
    List.mem_append, List.mem_map] at ha
  rcases ha with ha | ⟨l, hl, rfl⟩
  · exact hnamed a ha
  · obtain ⟨l', -, hl'⟩ := exists_of_mapM_eq_ok hbody l hl
    exact (h.renameLiteral_eq_ok hl').1

theorem Lays.renameWeightRule_eq_ok (h : Lays d b) {r r' : WeightRule}
    (hok : renameWeightRule b.ids r = .ok r') :
    (∀ a ∈ r.clause.atoms, ∃ k, b.id? a = some k) ∧ r'.clause = r.clause.mapAtoms b.nameOf := by
  obtain ⟨head, hhead, hok⟩ := exists_of_bind_eq_ok hok
  obtain ⟨body, hbody, hok⟩ := exists_of_bind_eq_ok hok
  obtain rfl := Except.ok.inj hok
  obtain ⟨hnamed, rfl⟩ := h.renameHead_eq_ok hhead
  obtain rfl := eq_map_of_mapM_eq_ok hbody fun e e' he => (h.renameElement_eq_ok he).2
  refine ⟨fun a ha => ?_, rfl⟩
  simp only [Clause.atoms, WeightRule.clause, List.map_nil, List.append_nil, Option.toList_some,
    List.flatMap_singleton, List.mem_append, List.mem_map] at ha
  rcases ha with ha | ⟨e, he, rfl⟩
  · exact hnamed a ha
  · obtain ⟨e', -, he'⟩ := exists_of_mapM_eq_ok hbody e he
    exact (h.renameElement_eq_ok he').1

/-! ### Rules under new names -/

/-- Names in the current band belong to one atom. -/
theorem Lays.id?_injective (h : Lays d b) {a' : Nat} (hk : b.id? a = some k)
    (hk' : b.id? a' = some k) (hlt : b.period < k) : a = a' := by
  have hslot : ∀ x, b.id? x = some k → ∃ j, b.slot? x = some j ∧ b.period + j = k := by
    intro x hx
    rcases h.id?_cases x with ⟨bridge, hmem, rfl⟩ | ⟨j, hj⟩ | ⟨hnone, -, -⟩
    · obtain rfl := Option.some.inj ((h.id?_of_mem hmem).symm.trans hx)
      have := (h.index_mem hmem).2
      omega
    · exact ⟨j, hj, Option.some.inj ((h.id?_of_slot hj).symm.trans hx)⟩
    · exact absurd (hnone.symm.trans hx) (by simp)
  obtain ⟨j, hj, rfl⟩ := hslot a hk
  obtain ⟨j', hj', heq⟩ := hslot a' hk'
  obtain rfl : j = j' := by omega
  exact slotIn_injective hj hj'

theorem Lays.obeys_mapAtoms (h : Lays d b) {c : Clause}
    (hnamed : ∀ a ∈ c.atoms, ∃ k, b.id? a = some k)
    (hheads : ∀ a ∈ c.head, b.classOf a ≠ .bridgeIn) :
    (c.mapAtoms b.nameOf).Obeys D X ↔ c.Obeys (b.named D) (b.named X) := by
  have hcurrent : ∀ a ∈ c.head, ∃ k, b.id? a = some k ∧ b.period < k := by
    intro a ha
    obtain ⟨k, hk⟩ := hnamed a (Clause.mem_atoms_of_head ha)
    rcases h.id?_cases a with hbridge | ⟨j, hj⟩ | ⟨hnone, -, -⟩
    · exact absurd (h.exists_bridge_iff.mp hbridge) (hheads a ha)
    · obtain rfl := Option.some.inj ((h.id?_of_slot hj).symm.trans hk)
      have := (slotIn_eq_some hj).2.1
      exact ⟨_, hk, by omega⟩
    · exact absurd (hnone.symm.trans hk) (by simp)
  refine Clause.obeys_mapAtoms (fun a ha a' ha' heq => ?_) (fun a ha => ?_) (fun a ha => ?_)
    fun a ha => ?_
  · obtain ⟨k, hk, hlt⟩ := hcurrent a ha
    obtain ⟨k', hk', -⟩ := hcurrent a' ha'
    rw [nameOf_eq hk, nameOf_eq hk'] at heq
    exact h.id?_injective hk (heq ▸ hk') hlt
  · obtain ⟨k, hk⟩ := hnamed a ha
    rw [nameOf_eq hk]
    exact (h.id?_pos hk).1
  · obtain ⟨k, hk⟩ := hnamed a ha
    rw [nameOf_eq hk, mem_named_of_id? hk]
  · obtain ⟨k, hk⟩ := hnamed a ha
    rw [nameOf_eq hk, mem_named_of_id? hk]

/-! ### All rules of a template -/

theorem mem_dedup {r : Rule} {rs : List Rule} : r ∈ dedup rs ↔ r ∈ rs := by
  induction rs with
  | nil => simp [dedup]
  | cons s rs ih =>
      unfold dedup
      split
      · rename_i hnil
        rw [hnil] at ih
        rw [List.mem_singleton, List.mem_cons, ← ih]
        simp
      · rename_i x xs hcons
        rw [hcons] at ih
        by_cases hs : s = x
        · rw [if_pos hs, ih, List.mem_cons]
          refine ⟨Or.inr, ?_⟩
          rintro (rfl | hr)
          · exact ih.mp (by simp [hs])
          · exact hr
        · rw [if_neg hs, List.mem_cons, ih, List.mem_cons]

theorem template_eq_ok (h : b.template = .ok t) : ∃ rules weightRules,
    b.draft.liveRules.mapM (renameRule b.ids) = .ok rules ∧
    b.draft.liveWeightRules.mapM (renameWeightRule b.ids) = .ok weightRules ∧
    t = {
      period := b.period
      rules := dedup (rules ++ b.boundaryRules b.ids)
      weightRules
      bridges := b.bridges
      externals := b.externals
      init := b.init
      output := b.output
      facts := b.facts
      classes := b.finalClasses
      ids := b.ids } := by
  obtain ⟨rules, hrules, h⟩ := exists_of_bind_eq_ok h
  obtain ⟨weightRules, hweights, h⟩ := exists_of_bind_eq_ok h
  exact ⟨rules, weightRules, hrules, hweights, (Except.ok.inj h).symm⟩

theorem label?_eq_some {symbol : Symbol} (h : d.label? a = some symbol) :
    (symbol, a) ∈ d.outputs.toList := by
  unfold Draft.label? at h
  split at h
  · exact absurd h (by simp)
  · obtain ⟨⟨s, c⟩, hfind, rfl⟩ := Option.map_eq_some_iff.mp h
    have hc : c = a := by simpa using Array.find?_some hfind
    exact hc ▸ Array.mem_toList_iff.mpr (Array.mem_of_find?_eq_some hfind)

/-- No rule derives a bridge. -/
theorem Lays.not_bridgeIn_of_mem_heads (h : Lays d b) (hd : d.Remains log)
    (hlog : DescribesStep log) (ha : a ∈ headsOf log) : b.classOf a ≠ .bridgeIn := by
  intro hc
  have hclass := h.isOfClass hd a
  rw [hc] at hclass
  obtain ⟨hexternal, symbol, hlabel, hprimed⟩ := hclass
  have hmem := label?_eq_some hlabel
  rw [hd.outputs] at hmem
  exact hlog.primed a ((hd.externals a).mp hexternal) symbol (mem_labelsOf.mp hmem) hprimed ha

/-- What is stated about an atom with a slot or a bridge. -/
theorem obeys_slotRules_iff {target : Nat} (hpos : 0 < target) :
    (∀ r ∈ b.slotRules a target, r.clause.Obeys D X) ↔
      (b.classOf a = .bridgeOut → target ∈ X → target ∈ D) ∧
      (b.draft.resolution a = some .on ∨ b.draft.resolution a = some .cautious → target ∈ X) ∧
      (b.draft.resolution a = some .off → target ∉ D) := by
  have hchoice : (Rule.clause ⟨true, [target], []⟩).Obeys D X ↔ (target ∈ X → target ∈ D) := by
    simp [Clause.Obeys, Rule.clause, BodyHolds]
  have htrue : (fix target true).clause.Obeys D X ↔ target ∈ X := by
    refine Clause.obeys_literal_iff.trans ?_
    simp
  have hfalse : (fix target false).clause.Obeys D X ↔ target ∉ D := by
    refine Clause.obeys_literal_iff.trans ?_
    simp [hpos.ne']
  unfold slotRules
  rw [List.forall_mem_append]
  refine and_congr ?_ ?_
  · by_cases hout : b.classOf a = .bridgeOut
    · simp [hout, hchoice]
    · simp [hout]
  · cases hres : b.draft.resolution a with
    | none => simp
    | some resolution =>
        cases resolution with
        | on => simp [htrue]
        | off => simp [hfalse]
        | cautious => simp [htrue]

theorem obeys_freshRule_iff (h : Lays d b) {bridge : Bridge} (hmem : bridge ∈ b.bridges) :
    (b.freshRule bridge).clause.Obeys D X ↔
      (b.period + bridge.index ∈ D ↔ b.freshValue bridge = true) := by
  have hpos := (h.index_mem hmem).1
  unfold freshRule
  dsimp only
  by_cases hvalue : b.freshValue bridge = true
  · rw [if_pos hvalue]
    refine Clause.obeys_fact_iff.trans ?_
    simp [hvalue]
  · rw [if_neg hvalue]
    refine Clause.obeys_literal_iff.trans ?_
    have hne : b.period + bridge.index ≠ 0 := by omega
    simp [hvalue, Literal.holdsIn_positive hne]

theorem Lays.mem_boundaryRules_iff (h : Lays d b) {r : Rule} : r ∈ b.boundaryRules b.ids ↔
    (∃ a k, b.id? a = some k ∧ r ∈ b.slotRules a k) ∨
      ∃ bridge ∈ b.freshBridges, b.freshRule bridge = r := by
  unfold boundaryRules
  rw [List.mem_append, List.mem_flatMap, List.mem_map]
  refine or_congr_left ⟨?_, ?_⟩
  · rintro ⟨a, -, hr⟩
    rw [h.getD_ids] at hr
    cases hid : b.id? a with
    | none =>
        rw [hid] at hr
        exact absurd hr List.not_mem_nil
    | some k =>
        rw [hid] at hr
        exact ⟨a, k, hid, hr⟩
  · rintro ⟨a, k, hid, hr⟩
    refine ⟨a, h.range_of_id? hid, ?_⟩
    rw [h.getD_ids, hid]
    exact hr

theorem mem_slotRules {target : Nat} {r : Rule} (hr : r ∈ b.slotRules a target) :
    b.classOf a = .bridgeOut ∧ r = ⟨true, [target], []⟩ ∨ ∃ value, r = fix target value := by
  unfold slotRules at hr
  rcases List.mem_append.mp hr with hr | hr
  · split at hr
    · rename_i hclass
      exact Or.inl ⟨hclass, List.mem_singleton.mp hr⟩
    · exact absurd hr List.not_mem_nil
  · split at hr
    · exact Or.inr ⟨_, List.mem_singleton.mp hr⟩
    · exact Or.inr ⟨_, List.mem_singleton.mp hr⟩
    · exact Or.inr ⟨_, List.mem_singleton.mp hr⟩
    · exact absurd hr List.not_mem_nil

theorem freshRule_cases (b : Bands) (bridge : Bridge) :
    b.freshRule bridge = .fact (b.period + bridge.index) ∨
      b.freshRule bridge = fix (b.period + bridge.index) false := by
  unfold freshRule
  dsimp only
  split
  · exact Or.inl rfl
  · exact Or.inr rfl

theorem Lays.obeys_boundaryRules_iff (h : Lays d b) :
    (∀ r ∈ b.boundaryRules b.ids, r.clause.Obeys D X) ↔
      (∀ a k, b.id? a = some k → ∀ r ∈ b.slotRules a k, r.clause.Obeys D X) ∧
      ∀ bridge ∈ b.freshBridges, (b.period + bridge.index ∈ D ↔ b.freshValue bridge = true) := by
  have hfresh : (∀ bridge ∈ b.freshBridges, (b.freshRule bridge).clause.Obeys D X) ↔
      ∀ bridge ∈ b.freshBridges, (b.period + bridge.index ∈ D ↔ b.freshValue bridge = true) :=
    forall₂_congr fun bridge hmem => obeys_freshRule_iff h (mem_freshBridges.mp hmem).1
  rw [← hfresh]
  constructor
  · intro hall
    refine ⟨fun a k hk r hr => ?_, fun bridge hmem => ?_⟩
    · exact hall r (h.mem_boundaryRules_iff.mpr (Or.inl ⟨a, k, hk, hr⟩))
    · exact hall _ (h.mem_boundaryRules_iff.mpr (Or.inr ⟨bridge, hmem, rfl⟩))
  · rintro ⟨hslots, hbridges⟩ r hr
    rcases h.mem_boundaryRules_iff.mp hr with ⟨a, k, hk, hr⟩ | ⟨bridge, hmem, rfl⟩
    · exact hslots a k hk r hr
    · exact hbridges bridge hmem

/-- What has no name is resolved true, or false, or does not occur. -/
theorem Lays.unnamed (h : Lays d b) (hd : d.Remains log) (hnone : b.id? a = none) :
    a ∉ d.externals ∧ d.resolution a ≠ some .cautious := by
  have hclass := h.isOfClass hd a
  rcases h.id?_cases a with ⟨bridge, hmem, rfl⟩ | ⟨j, hj⟩ | ⟨-, hbridge, howner⟩
  · exact absurd ((h.id?_of_mem hmem).symm.trans hnone) (by simp)
  · exact absurd ((h.id?_of_slot hj).symm.trans hnone) (by simp)
  · rw [h.mem_owners, not_or] at howner
    generalize b.classOf a = c at hclass hbridge howner
    cases c with
    | internal => exact absurd rfl howner.1
    | bridgeIn => exact absurd rfl hbridge
    | bridgeOut => exact absurd rfl howner.2
    | forcedTrue => exact ⟨hclass.1, by rw [hclass.2]; simp⟩
    | forcedFalse => exact ⟨hclass.1, by rw [hclass.2]; simp⟩
    | eliminated => exact ⟨hclass.1, by rw [hclass.2]; simp⟩

theorem Lays.obeys_renameRule_iff (h : Lays d b) (hd : d.Remains log) (hlog : DescribesStep log)
    {r r' : Rule} (hr : r ∈ d.liveRules) (hr' : renameRule b.ids r = .ok r') :
    r'.clause.Obeys D X ↔ r.clause.Obeys (b.named D) (b.named X) := by
  obtain ⟨i, hi⟩ := Draft.mem_liveRules.mp hr
  obtain ⟨hnamed, hclause⟩ := h.renameRule_eq_ok hr'
  rw [hclause]
  apply h.obeys_mapAtoms hnamed
  intro a ha
  exact h.not_bridgeIn_of_mem_heads hd hlog (hd.coherent.mem_of_head hi ha)

theorem Lays.obeys_renameWeightRule_iff (h : Lays d b) (hd : d.Remains log)
    (hlog : DescribesStep log) {r r' : WeightRule} (hr : r ∈ d.liveWeightRules)
    (hr' : renameWeightRule b.ids r = .ok r') :
    r'.clause.Obeys D X ↔ r.clause.Obeys (b.named D) (b.named X) := by
  obtain ⟨i, hi⟩ := Draft.mem_liveWeightRules.mp hr
  obtain ⟨hnamed, hclause⟩ := h.renameWeightRule_eq_ok hr'
  rw [hclause]
  apply h.obeys_mapAtoms hnamed
  intro a ha
  exact h.not_bridgeIn_of_mem_heads hd hlog (hd.coherent.mem_of_weightHead hi ha)

/-- The rules of a template say what its layout asks for. -/
theorem Lays.obeyed_iff (h : Lays d b) (hd : d.Remains log) (hlog : DescribesStep log)
    (ht : b.template = .ok t) : t.Obeyed D X ↔ b.ObeyedBy D X := by
  obtain ⟨rules, weightRules, hrules, hweights, rfl⟩ := template_eq_ok ht
  rw [h.draft] at hrules hweights
  have hlive := forall_mem_congr_of_mapM_eq_ok hrules fun r hr r' hr' =>
    h.obeys_renameRule_iff (D := D) (X := X) hd hlog hr hr'
  have hliveWeights := forall_mem_congr_of_mapM_eq_ok hweights fun r hr r' hr' =>
    h.obeys_renameWeightRule_iff (D := D) (X := X) hd hlog hr hr'
  have hslots : ∀ a k, b.id? a = some k → ((∀ r ∈ b.slotRules a k, r.clause.Obeys D X) ↔
      (b.classOf a = .bridgeOut → a ∈ b.named X → a ∈ b.named D) ∧
      (d.resolution a = some .on ∨ d.resolution a = some .cautious → a ∈ b.named X) ∧
      (d.resolution a = some .off → a ∉ b.named D)) := by
    intro a k hk
    rw [obeys_slotRules_iff (h.id?_pos hk).1, mem_named_of_id? hk, mem_named_of_id? hk, h.draft]
  have hrest : ∀ a, b.id? a = none → b.classOf a ≠ .bridgeOut ∧
      (d.resolution a = some .on ∨ d.resolution a = some .cautious → a ∈ b.named X) ∧
      (d.resolution a = some .off → a ∉ b.named D) := by
    intro a hnone
    obtain ⟨hexternal, hcautious⟩ := h.unnamed hd hnone
    rw [mem_named_of_id?_eq_none hnone, mem_named_of_id?_eq_none hnone, h.draft]
    refine ⟨fun hc => ?_, fun hres => hres.resolve_right hcautious, fun hoff => by simp [hoff]⟩
    have hclass := h.isOfClass hd a
    rw [hc] at hclass
    exact hexternal hclass.1
  unfold Template.Obeyed
  dsimp only
  simp only [mem_dedup, List.mem_append, or_imp, forall_and]
  rw [hlive, hliveWeights, h.obeys_boundaryRules_iff]
  constructor
  · rintro ⟨⟨hr, hs, hf⟩, hw⟩
    have hall : ∀ a, (b.classOf a = .bridgeOut → a ∈ b.named X → a ∈ b.named D) ∧
        (d.resolution a = some .on ∨ d.resolution a = some .cautious → a ∈ b.named X) ∧
        (d.resolution a = some .off → a ∉ b.named D) := by
      intro a
      cases hid : b.id? a with
      | none => exact ⟨fun hc => absurd hc (hrest a hid).1, (hrest a hid).2⟩
      | some k => exact (hslots a k hid).mp (hs a k hid)
    refine ⟨?_, fun a => (hall a).1, fun a => ?_, fun a => ?_, hf⟩
    · rw [h.draft, Draft.obeyed_iff_live]
      exact ⟨hr, hw⟩
    · rw [h.draft]
      exact (hall a).2.1
    · rw [h.draft]
      exact (hall a).2.2
  · intro hobeyed
    obtain ⟨hr, hchosen, hrequired, hbanned, hf⟩ := hobeyed
    rw [h.draft] at hr hrequired hbanned
    obtain ⟨hr, hw⟩ := Draft.obeyed_iff_live.mp hr
    refine ⟨⟨hr, fun a k hk => ?_, hf⟩, hw⟩
    exact (hslots a k hk).mpr ⟨hchosen a, hrequired a, hbanned a⟩

/-! ### The other parts of a template -/

theorem Lays.id?_template (h : Lays d b) (ht : b.template = .ok t) (a : Nat) :
    t.id? a = b.id? a := by
  obtain ⟨rules, weightRules, -, -, rfl⟩ := template_eq_ok ht
  exact h.getD_ids a

theorem getD_foldl_of_not_mem {bridges : List Bridge} (h : ∀ bridge ∈ bridges, bridge.atom ≠ a)
    (classes : Array AtomClass) :
    (bridges.foldl (fun classes bridge => classes.setIfInBounds bridge.atom .internal)
      classes).getD a .eliminated = classes.getD a .eliminated := by
  induction bridges generalizing classes with
  | nil => rfl
  | cons bridge bridges ih =>
      rw [List.foldl_cons, ih fun x hx => h x (by simp [hx])]
      simp [Array.getD_eq_getD_getElem?, h bridge (by simp)]

theorem getD_foldl_of_mem {bridges : List Bridge} (h : ∃ bridge ∈ bridges, bridge.atom = a)
    {classes : Array AtomClass} (hlt : a < classes.size) :
    (bridges.foldl (fun classes bridge => classes.setIfInBounds bridge.atom .internal)
      classes).getD a .eliminated = .internal := by
  induction bridges generalizing classes with
  | nil => simp at h
  | cons bridge bridges ih =>
      rw [List.foldl_cons]
      by_cases hrest : ∃ x ∈ bridges, x.atom = a
      · exact ih hrest (by simpa using hlt)
      · have hatom : bridge.atom = a := by
          obtain ⟨x, hx, hxa⟩ := h
          rcases List.mem_cons.mp hx with rfl | hx
          · exact hxa
          · exact absurd ⟨x, hx, hxa⟩ hrest
        rw [getD_foldl_of_not_mem fun x hx hxa => hrest ⟨x, hx, hxa⟩, ← hatom]
        simp [Array.getD_eq_getD_getElem?, hatom, hlt]

/-- A bridge with a fresh slot owns it in the end. -/
theorem Lays.classOf_template_of_fresh (h : Lays d b) (ht : b.template = .ok t) {bridge : Bridge}
    (hmem : bridge ∈ b.freshBridges) : t.classOf bridge.atom = .internal := by
  obtain ⟨rules, weightRules, -, -, rfl⟩ := template_eq_ok ht
  refine getD_foldl_of_mem ⟨bridge, hmem, rfl⟩ ?_
  have hrange := h.range_of_id? (h.id?_of_mem (mem_freshBridges.mp hmem).1)
  rw [h.draft] at hrange
  unfold Draft.atoms at hrange
  rw [List.mem_range'_1] at hrange
  rw [h.size]
  omega

theorem classOf_template_of_not_fresh (ht : b.template = .ok t)
    (hno : ∀ bridge ∈ b.freshBridges, bridge.atom ≠ a) : t.classOf a = b.classOf a := by
  obtain ⟨rules, weightRules, -, -, rfl⟩ := template_eq_ok ht
  exact getD_foldl_of_not_mem hno b.classes

/-- The fresh bridges are those that the template counts among its own atoms. -/
theorem Lays.mem_freshBridges_iff (h : Lays d b) (ht : b.template = .ok t) {bridge : Bridge} :
    bridge ∈ b.freshBridges ↔ bridge ∈ b.bridges ∧ t.classOf bridge.atom = .internal := by
  refine ⟨fun hmem => ⟨(mem_freshBridges.mp hmem).1, h.classOf_template_of_fresh ht hmem⟩, ?_⟩
  rintro ⟨hmem, hclass⟩
  by_contra hno
  have hbridge := h.exists_bridge_iff.mp ⟨bridge, hmem, rfl⟩
  rw [classOf_template_of_not_fresh ht fun x hx hxa => ?_, hbridge] at hclass
  · exact absurd hclass (by simp)
  · rw [h.bridge_ext (mem_freshBridges.mp hx).1 hmem hxa] at hx
    exact hno hx

theorem Lays.forcedTrue_iff (h : Lays d b) (ht : b.template = .ok t) :
    t.classOf a = .forcedTrue ↔ b.classOf a = .forcedTrue := by
  by_cases hfresh : ∃ bridge ∈ b.freshBridges, bridge.atom = a
  · obtain ⟨bridge, hmem, rfl⟩ := hfresh
    rw [h.classOf_template_of_fresh ht hmem,
      h.exists_bridge_iff.mp ⟨bridge, (mem_freshBridges.mp hmem).1, rfl⟩]
    simp
  · rw [classOf_template_of_not_fresh ht fun x hx hxa => hfresh ⟨x, hx, hxa⟩]

end Bands

end StablePlan
