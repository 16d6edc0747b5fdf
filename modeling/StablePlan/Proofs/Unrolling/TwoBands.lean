import StablePlan.Proofs.Plan.Calls
import StablePlan.Proofs.Transition.Fixpoint
import StablePlan.Proofs.Unrolling.Answers
import StablePlan.Proofs.Unrolling.Grounding

/-!
The two bands of a template. Once a run has succeeded, every atom that a live rule mentions is still
open, so that it has a slot of its own or is a bridge, and has a name: nothing dangles. The owners
have the first slots, the bridges that meet no owner the others; what a template says of its own
step is in the upper band, and the lower one is only read, if no rule derives a bridge.
-/

namespace StablePlan

/-! ### Atoms by class -/

namespace Draft

variable {d : Draft} {a : Nat} {wanted : List AtomClass} {e : CompileError}

/-- Whether the atom is of one of the given classes before bridges are laid. -/
def isOf (d : Draft) (wanted : List AtomClass) (a : Nat) : Bool :=
  match d.classify a with
  | .ok c => wanted.contains c
  | .error _ => false

/-- The atoms of the given classes, in order. -/
def classed (d : Draft) (wanted : List AtomClass) : List Nat := d.atoms.filter (d.isOf wanted)

/-- The atoms that own a slot from the start. -/
def owners (d : Draft) : List Nat := d.classed [.internal, .bridgeOut]

/-- Whether the counterpart of a bridge owns a slot. -/
def isMet (d : Draft) (bridge : Bridge) : Bool :=
  (d.counterpart? bridge.atom).any fun c => d.owners.contains c

theorem classify_zero (d : Draft) : d.classify 0 = .ok .eliminated := rfl

/-- Only an external without a label has no class. -/
theorem classify_eq_error (h : d.classify a = .error e) :
    a ∈ d.externals ∧ d.label? a = none ∧ e = .anonymousExternal a := by
  unfold classify at h
  split at h
  · exact absurd h (by simp)
  · split at h
    · rename_i hexternal
      split at h
      · exact absurd h (by simp)
      · rename_i hlabel
        exact ⟨by simpa using hexternal, hlabel, (Except.error.inj h).symm⟩
    · split at h <;> exact absurd h (by simp)

/-- A mentioned atom that is not decided owns a slot or is a bridge. -/
theorem classify_cases {c : AtomClass} (hc : d.classify a = .ok c) (hzero : a ≠ 0)
    (hm : d.isMentioned a) (hopen : d.resolution a = none ∨ d.resolution a = some .cautious) :
    c = .internal ∨ c = .bridgeOut ∨ c = .bridgeIn := by
  unfold classify at hc
  split at hc
  · rename_i hout
    simp [hzero, hm] at hout
  · split at hc
    · split at hc
      · obtain rfl := Except.ok.inj hc
        split
        · exact Or.inr (Or.inr rfl)
        · exact Or.inr (Or.inl rfl)
      · exact absurd hc (by simp)
    · split at hc
      · rename_i hon
        rcases hopen with hnone | hcautious
        · exact absurd (hon.symm.trans hnone) (by simp)
        · exact absurd (hon.symm.trans hcautious) (by simp)
      · rename_i hoff
        rcases hopen with hnone | hcautious
        · exact absurd (hoff.symm.trans hnone) (by simp)
        · exact absurd (hoff.symm.trans hcautious) (by simp)
      · obtain rfl := Except.ok.inj hc
        exact Or.inl rfl

end Draft

namespace Bands

variable {d : Draft} {b : Bands} {t : Template} {a k : Nat} {wanted : List AtomClass}
  {classes : List AtomClass}

theorem atomsOf_zipIdx {s n : Nat}
    (h : List.Forall₂ (fun a c => d.classify a = .ok c) (List.range' s n) classes) :
    ((classes.zipIdx s).filter fun entry => wanted.contains entry.1).map Prod.snd =
      (List.range' s n).filter (d.isOf wanted) := by
  induction n generalizing s classes with
  | zero =>
      cases h
      rfl
  | succ n ih =>
      rw [List.range'_succ] at h ⊢
      obtain ⟨c, rest, hc, hrest, rfl⟩ := List.forall₂_cons_left_iff.mp h
      have hself : d.isOf wanted s = wanted.contains c := by
        unfold Draft.isOf
        rw [hc]
      rw [List.zipIdx_cons, List.filter_cons, List.filter_cons, hself, ← ih hrest]
      split <;> rfl

/-- The atoms of some classes, but for those that do not occur. -/
theorem atomsOf_eq_classed (h : (List.range (d.maxAtom + 1)).mapM d.classify = .ok classes)
    (hwanted : .eliminated ∉ wanted) : atomsOf wanted classes = d.classed wanted := by
  have hall := forall₂_of_mapM_eq_ok h
  rw [List.range_eq_range'] at hall
  have hzero : d.isOf wanted 0 = false := by
    unfold Draft.isOf
    rw [Draft.classify_zero]
    simpa using hwanted
  unfold atomsOf
  rw [atomsOf_zipIdx hall, List.range'_succ, List.filter_cons, hzero]
  rfl

theorem classed_of_ofDraft (h : ofDraft d = .ok b) : b.owners = d.owners ∧
    b.bridges = layBridges d b.owners (b.owners.length + 1) (d.classed [.bridgeIn]) := by
  obtain ⟨classes, hclasses, h⟩ := exists_of_bind_eq_ok h
  obtain rfl := Except.ok.inj h
  refine ⟨atomsOf_eq_classed hclasses (by simp), ?_⟩
  exact congrArg (layBridges d _ _) (atomsOf_eq_classed hclasses (by simp))

/-! ### Names in order -/

/-- The owners have the upper band from its beginning. -/
theorem Lays.map_id?_owners (h : Lays d b) : b.owners.map b.id? =
    (List.range' (b.period + 1) b.owners.length).map some := by
  refine List.ext_getElem (by simp) fun i hi _ => ?_
  have hlt : i < b.owners.length := by simpa using hi
  rw [List.getElem_map, List.getElem_map, List.getElem_range']
  have hslot : b.slot? b.owners[i] = some (i + 1) := by
    unfold slot? slotIn
    rw [List.idxOf?_eq_some_iff.mpr ⟨hlt, rfl, fun j hj heq => ?_⟩]
    · rfl
    · have hij := (h.nodup.getElem_inj_iff).mp heq
      omega
  rw [h.id?_of_slot hslot]
  congr 1
  omega

theorem Lays.isMet_iff (h : Lays d b) (howners : b.owners = d.owners) {bridge : Bridge}
    (hmem : bridge ∈ b.bridges) : d.isMet bridge = true ↔ bridge.index ≤ b.owners.length := by
  unfold Draft.isMet
  rw [← howners]
  rcases h.bridges_cases hmem with hslot | ⟨hnone, hfresh⟩
  · obtain ⟨c, hc, hslot⟩ := Option.bind_eq_some_iff.mp hslot
    obtain ⟨howner, -, hle, -⟩ := slotIn_eq_some hslot
    rw [hc]
    simp [howner, hle]
  · refine iff_of_false (fun hmet => ?_) (by omega)
    cases hc : d.counterpart? bridge.atom with
    | none =>
        rw [hc] at hmet
        exact absurd hmet (by simp)
    | some c =>
        rw [hc] at hmet hnone
        have howner : c ∈ b.owners := by simpa using hmet
        obtain ⟨k, hk⟩ := exists_slotIn howner
        exact absurd (hk.symm.trans hnone) (by simp)

/-- The bridges that meet no owner are those with a fresh slot. -/
theorem Lays.filter_isMet (h : Lays d b) (howners : b.owners = d.owners) :
    (b.bridges.filter fun bridge => !d.isMet bridge) = b.freshBridges := by
  unfold freshBridges
  refine List.filter_congr fun bridge hmem => ?_
  rw [Bool.eq_iff_iff, decide_eq_true_eq, ← not_le, ← h.isMet_iff howners hmem]
  simp

/-- The atoms that count for the period: the owners, and the bridges with a fresh slot. -/
theorem Lays.length_filter_classOf (h : Lays d b) (ht : b.template = .ok t) :
    (d.atoms.filter fun a => t.classOf a = .internal ∨ t.classOf a = .bridgeOut).length =
      b.period := by
  have hatoms : ∀ a, b.id? a ≠ none → a ∈ d.atoms := by
    intro a ha
    obtain ⟨k, hk⟩ := Option.ne_none_iff_exists'.mp ha
    exact h.draft ▸ h.range_of_id? hk
  have hfresh : (b.freshBridges.map Bridge.atom).Nodup := by
    obtain ⟨atoms, hnodup, -, hbridges⟩ := h.bridges
    have hall : (b.bridges.map Bridge.atom).Nodup := by
      rw [hbridges, map_atom_layBridges]
      exact hnodup
    exact hall.sublist (List.filter_sublist.map Bridge.atom)
  have hperm : (d.atoms.filter fun a => t.classOf a = .internal ∨ t.classOf a = .bridgeOut).Perm
      (b.owners ++ b.freshBridges.map Bridge.atom) := by
    refine (List.perm_ext_iff_of_nodup (List.Nodup.filter _ List.nodup_range') ?_).mpr fun a => ?_
    · refine List.nodup_append.mpr ⟨h.nodup, hfresh, fun a ha a' ha' heq => ?_⟩
      obtain ⟨bridge, hmem, rfl⟩ := List.mem_map.mp ha'
      exact h.not_bridgeIn_of_mem_owners ha
        (heq ▸ h.exists_bridge_iff.mp ⟨bridge, (mem_freshBridges.mp hmem).1, rfl⟩)
    · rw [List.mem_filter, decide_eq_true_eq, List.mem_append, List.mem_map]
      by_cases hbridge : ∃ bridge ∈ b.freshBridges, bridge.atom = a
      · obtain ⟨bridge, hmem, rfl⟩ := hbridge
        refine iff_of_true ⟨hatoms _ ?_, Or.inl (h.classOf_template_of_fresh ht hmem)⟩
          (Or.inr ⟨bridge, hmem, rfl⟩)
        rw [h.id?_of_mem (mem_freshBridges.mp hmem).1]
        simp
      · rw [or_iff_left hbridge, h.mem_owners,
          classOf_template_of_not_fresh ht fun x hx hxa => hbridge ⟨x, hx, hxa⟩]
        refine and_iff_right_of_imp fun hclass => hatoms a ?_
        obtain ⟨k, hk⟩ := exists_slotIn ((h.mem_owners a).mpr hclass)
        rw [h.id?_of_slot hk]
        simp
  rw [hperm.length_eq, List.length_append, List.length_map]
  rfl

/-! ### Heads -/

/-- An atom that is no bridge is named in the upper band. -/
theorem Lays.lt_of_id? (h : Lays d b) (hk : b.id? a = some k)
    (hno : ∀ bridge ∈ b.bridges, bridge.atom ≠ a) : b.period < k := by
  rcases h.id?_cases a with ⟨bridge, hmem, rfl⟩ | ⟨j, hj⟩ | ⟨hnone, -⟩
  · exact absurd rfl (hno bridge hmem)
  · obtain rfl := Option.some.inj ((h.id?_of_slot hj).symm.trans hk)
    have := (slotIn_eq_some hj).2.1
    omega
  · exact absurd (hnone.symm.trans hk) (by simp)

theorem Lays.lt_of_mem_head (h : Lays d b) {c : Clause}
    (hnamed : ∀ a ∈ c.atoms, ∃ k, b.id? a = some k)
    (hno : ∀ a ∈ c.head, ∀ bridge ∈ b.bridges, bridge.atom ≠ a) :
    ∀ k ∈ (c.mapAtoms b.nameOf).head, b.period < k := by
  intro k hk
  obtain ⟨a, ha, rfl⟩ := List.mem_map.mp hk
  obtain ⟨j, hj⟩ := hnamed a (Clause.mem_atoms_of_head ha)
  rw [nameOf_eq hj]
  exact h.lt_of_id? hj (hno a ha)

/-- What is stated of slots derives atoms of the upper band only. -/
theorem Lays.lt_of_mem_boundary (h : Lays d b) {r : Rule} (hr : r ∈ b.boundaryRules b.ids) :
    ∀ k ∈ r.head, b.period < k := by
  have hfix : ∀ (target : Nat) (value : Bool), (fix target value).head = [] := fun _ _ => rfl
  rcases h.mem_boundaryRules_iff.mp hr with ⟨a, target, hid, hr⟩ | ⟨bridge, hmem, rfl⟩
  · rcases mem_slotRules hr with ⟨hclass, rfl⟩ | ⟨value, rfl⟩
    · refine List.forall_mem_singleton.mpr (h.lt_of_id? hid fun bridge hmem hatom => ?_)
      have hin := h.exists_bridge_iff.mp ⟨bridge, hmem, hatom⟩
      exact absurd (hin.symm.trans hclass) (by simp)
    · simp [hfix]
  · have hone := (h.index_mem (mem_freshBridges.mp hmem).1).1
    rcases b.freshRule_cases bridge with heq | heq
    · rw [heq]
      refine List.forall_mem_singleton.mpr ?_
      omega
    · simp [heq, hfix]

/-! ### Nothing dangles -/

theorem Lays.renameAtom_eq_pure (h : Lays d b) (hk : ∃ k, b.id? a = some k) :
    renameAtom b.ids a = pure (b.nameOf a) := by
  obtain ⟨k, hk⟩ := hk
  rw [nameOf_eq hk]
  exact h.renameAtom_eq_ok.mpr hk

theorem Lays.renameLiteral_eq_pure (h : Lays d b) {l : Literal} (hk : ∃ k, b.id? l.atom = some k) :
    renameLiteral b.ids l = pure (l.withAtom (b.nameOf l.atom)) := by
  unfold renameLiteral
  rw [h.renameAtom_eq_pure hk]
  rfl

/-- A rule is renamed if all its atoms have names. -/
theorem Lays.exists_renameRule (h : Lays d b) {r : Rule}
    (hnamed : ∀ a ∈ r.clause.atoms, ∃ k, b.id? a = some k) :
    ∃ r', renameRule b.ids r = .ok r' := by
  have hhead : r.head.mapM (renameAtom b.ids) = pure (r.head.map b.nameOf) :=
    mapM_eq_pure_map fun a ha => h.renameAtom_eq_pure (hnamed a (Clause.mem_atoms_of_head ha))
  have hbody : r.body.mapM (renameLiteral b.ids) =
      pure (r.body.map fun l => l.withAtom (b.nameOf l.atom)) :=
    mapM_eq_pure_map fun l hl => h.renameLiteral_eq_pure (hnamed _ (Clause.mem_atoms_of_body hl))
  unfold renameRule
  rw [hhead, hbody]
  exact ⟨_, rfl⟩

theorem Lays.exists_renameWeightRule (h : Lays d b) {r : WeightRule}
    (hnamed : ∀ a ∈ r.clause.atoms, ∃ k, b.id? a = some k) :
    ∃ r', renameWeightRule b.ids r = .ok r' := by
  have hhead : r.head.mapM (renameAtom b.ids) = pure (r.head.map b.nameOf) :=
    mapM_eq_pure_map fun a ha => h.renameAtom_eq_pure (hnamed a (Clause.mem_atoms_of_head ha))
  have hbody : r.body.mapM (renameElement b.ids) =
      pure (r.body.map fun e => (e.1.withAtom (b.nameOf e.1.atom), e.2)) := by
    refine mapM_eq_pure_map fun e he => ?_
    have hatom : e.1.atom ∈ r.clause.atoms := by
      simp only [Clause.atoms, WeightRule.clause, List.map_nil, List.append_nil,
        Option.toList_some, List.flatMap_singleton, List.mem_append, List.mem_map]
      exact Or.inr ⟨e, he, rfl⟩
    unfold renameElement
    rw [h.renameLiteral_eq_pure (hnamed _ hatom)]
    rfl
  unfold renameWeightRule
  rw [hhead, hbody]
  exact ⟨_, rfl⟩

/-- An atom of a rule that nothing is pending for has a name. -/
theorem Lays.exists_id? {log : List Observation} {f : Fitting} (h : Lays f.draft b)
    (hf : f.Tidy log) (hzero : ∀ o ∈ log, 0 ∉ o.atoms) {role : Role} {i : Nat}
    (hp : f.draft.Plays a role i) : ∃ k, b.id? a = some k := by
  have hne : a ≠ 0 := by
    rintro rfl
    obtain ⟨⟨o, ho, hmem⟩, -⟩ := hf.mirrors.stems 0 role i hp
    exact hzero o ho hmem
  have hm := hf.mirrors.mentioned a role i hp
  have hle : a ≤ f.draft.maxAtom := by
    have hlt := Draft.lt_of_isMentioned hm
    unfold Draft.maxAtom
    omega
  have hopen := (hf.isTracked hp).imp_right And.left
  rcases Draft.classify_cases (h.classified a hle) hne hm hopen with hc | hc | hc
  · obtain ⟨k, hk⟩ := exists_slotIn ((h.mem_owners a).mpr (Or.inl hc))
    exact ⟨_, h.id?_of_slot hk⟩
  · obtain ⟨k, hk⟩ := exists_slotIn ((h.mem_owners a).mpr (Or.inr hc))
    exact ⟨_, h.id?_of_slot hk⟩
  · obtain ⟨bridge, hmem, rfl⟩ := h.exists_bridge_iff.mpr hc
    exact ⟨_, h.id?_of_mem hmem⟩

theorem Lays.exists_id?_rule {log : List Observation} {f : Fitting} (h : Lays f.draft b)
    (hf : f.Tidy log) (hzero : ∀ o ∈ log, 0 ∉ o.atoms) {r : Rule} (hr : r ∈ f.draft.liveRules) :
    ∀ a ∈ r.clause.atoms, ∃ k, b.id? a = some k := by
  obtain ⟨i, hi⟩ := Draft.mem_liveRules.mp hr
  intro a ha
  simp only [Clause.atoms, Rule.clause, Option.toList_none, List.flatMap_nil, List.append_nil,
    List.mem_append, List.mem_map] at ha
  rcases ha with ha | ⟨l, hl, rfl⟩
  · exact h.exists_id? hf hzero (Draft.plays_of_rule? hi
      (List.mem_append_left _ (List.mem_map.mpr ⟨a, ha, rfl⟩)))
  · exact h.exists_id? hf hzero (Draft.plays_of_rule? hi
      (List.mem_append_right _ (List.mem_map.mpr ⟨l, hl, rfl⟩)))

theorem Lays.exists_id?_weightRule {log : List Observation} {f : Fitting} (h : Lays f.draft b)
    (hf : f.Tidy log) (hzero : ∀ o ∈ log, 0 ∉ o.atoms) {r : WeightRule}
    (hr : r ∈ f.draft.liveWeightRules) : ∀ a ∈ r.clause.atoms, ∃ k, b.id? a = some k := by
  obtain ⟨i, hi⟩ := Draft.mem_liveWeightRules.mp hr
  intro a ha
  simp only [Clause.atoms, WeightRule.clause, List.map_nil, List.append_nil,
    Option.toList_some, List.flatMap_singleton, List.mem_append, List.mem_map] at ha
  rcases ha with ha | ⟨e, he, rfl⟩
  · exact h.exists_id? hf hzero (Draft.plays_of_weightRule? hi
      (List.mem_append_left _ (List.mem_map.mpr ⟨a, ha, rfl⟩)))
  · exact h.exists_id? hf hzero (Draft.plays_of_weightRule? hi
      (List.mem_append_right _ (List.mem_map.mpr ⟨e, he, rfl⟩)))

/-- If laying out fails, an external has no label. -/
theorem layOut_eq_error {log : List Observation} {f : Fitting} {e : CompileError}
    (hf : f.Tidy log) (hzero : ∀ o ∈ log, 0 ∉ o.atoms) (h : f.draft.layOut = .error e) :
    ∃ a ∈ f.draft.externals, f.draft.label? a = none ∧ e = .anonymousExternal a := by
  unfold Draft.layOut at h
  cases hbands : ofDraft f.draft with
  | error e' =>
      rw [hbands] at h
      obtain rfl := Except.error.inj h
      unfold ofDraft at hbands
      rcases mapM_error_or_ok f.draft.classify (List.range (f.draft.maxAtom + 1)) with
        ⟨a, -, e', hclassify, herror⟩ | ⟨classes, hok, -⟩
      · rw [herror] at hbands
        obtain rfl := Except.error.inj hbands
        obtain ⟨hexternal, hlabel, rfl⟩ := Draft.classify_eq_error hclassify
        exact ⟨a, hexternal, hlabel, rfl⟩
      · rw [hok] at hbands
        exact absurd hbands (by simp [bind, Except.bind])
  | ok b =>
      rw [hbands] at h
      have hlays := lays_of_ofDraft hbands
      have hdraft := hlays.draft
      change b.template = .error e at h
      unfold template at h
      rcases mapM_error_or_ok (renameRule b.ids) b.draft.liveRules with
        ⟨r, hr, e', herror, -⟩ | ⟨rules, hrules, -⟩
      · rw [hdraft] at hr
        obtain ⟨r', hr'⟩ := hlays.exists_renameRule (hlays.exists_id?_rule hf hzero hr)
        exact absurd (herror.symm.trans hr') (by simp)
      · rcases mapM_error_or_ok (renameWeightRule b.ids) b.draft.liveWeightRules with
          ⟨r, hr, e', herror, -⟩ | ⟨weightRules, hweightRules, -⟩
        · rw [hdraft] at hr
          obtain ⟨r', hr'⟩ :=
            hlays.exists_renameWeightRule (hlays.exists_id?_weightRule hf hzero hr)
          exact absurd (herror.symm.trans hr') (by simp)
        · simp only [hrules, hweightRules, bind, Except.bind] at h
          exact absurd h (by simp)

end Bands

/-! ### The layout -/

/-- How a template is laid out over a draft: owners first, then the bridges that meet none. -/
structure Template.TwoBands (log : List Observation) (d : Draft) (t : Template) : Prop
    extends t.Banded where
  period : t.period =
    (d.atoms.filter fun a => t.classOf a = .internal ∨ t.classOf a = .bridgeOut).length
  owners : d.owners.map t.id? = (List.range' (t.period + 1) d.owners.length).map some
  bridges : t.bridges.map Bridge.atom = d.classed [.bridgeIn]
  names : ∀ bridge ∈ t.bridges, t.id? bridge.atom = some bridge.index
  met : ∀ bridge ∈ t.bridges, ∀ c ∈ d.counterpart? bridge.atom, c ∈ d.owners →
    t.id? c = some (t.period + bridge.index)
  unmet : (t.bridges.filter fun bridge => !d.isMet bridge).map Bridge.index =
    List.range' (d.owners.length + 1) (t.period - d.owners.length)
  room : d.owners.length ≤ t.period
  heads : (∀ bridge ∈ t.bridges, bridge.atom ∉ headsOf log) →
    (∀ r ∈ t.rules, ∀ k ∈ r.head, t.period < k ∧ k ≤ 2 * t.period) ∧
      ∀ r ∈ t.weightRules, ∀ k ∈ r.head, t.period < k ∧ k ≤ 2 * t.period
  externals : ∀ entry ∈ t.externals, 1 ≤ entry.2 ∧ entry.2 ≤ t.period
  output : ∀ entry ∈ t.output, 1 ≤ entry.1 ∧ entry.1 ≤ t.period

namespace Bands

variable {b : Bands} {t : Template} {log : List Observation} {f : Fitting}

theorem Lays.lt_of_mem_heads (h : Lays f.draft b) (hf : f.Tidy log) (ht : b.template = .ok t)
    (hno : ∀ bridge ∈ t.bridges, bridge.atom ∉ headsOf log) :
    (∀ r ∈ t.rules, ∀ k ∈ r.head, t.period < k) ∧
      ∀ r ∈ t.weightRules, ∀ k ∈ r.head, t.period < k := by
  obtain ⟨rules, weightRules, hrules, hweightRules, rfl⟩ := template_eq_ok ht
  dsimp only at hno ⊢
  have hheads : ∀ {a role i}, f.draft.Plays a role i → role = .head ∨ role = .weightHead →
      ∀ bridge ∈ b.bridges, bridge.atom ≠ a := by
    rintro a role i hp hrole bridge hmem rfl
    exact hno bridge hmem ((hf.mirrors.stems _ role i hp).2 hrole)
  constructor
  · intro r' hr'
    rcases List.mem_append.mp (mem_dedup.mp hr') with hmem | hmem
    · obtain ⟨r, hr, hrename⟩ := exists_origin_of_mapM_eq_ok hrules r' hmem
      rw [h.draft] at hr
      obtain ⟨i, hi⟩ := Draft.mem_liveRules.mp hr
      obtain ⟨hnamed, hclause⟩ := h.renameRule_eq_ok hrename
      have hupper := h.lt_of_mem_head hnamed fun a ha => hheads (Draft.plays_of_rule? hi
        (List.mem_append_left _ (List.mem_map.mpr ⟨a, ha, rfl⟩))) (Or.inl rfl)
      have hhead : r'.head = (r.clause.mapAtoms b.nameOf).head := congrArg Clause.head hclause
      rw [hhead]
      exact hupper
    · exact h.lt_of_mem_boundary hmem
  · intro r' hmem
    obtain ⟨r, hr, hrename⟩ := exists_origin_of_mapM_eq_ok hweightRules r' hmem
    rw [h.draft] at hr
    obtain ⟨i, hi⟩ := Draft.mem_liveWeightRules.mp hr
    obtain ⟨hnamed, hclause⟩ := h.renameWeightRule_eq_ok hrename
    have hupper := h.lt_of_mem_head hnamed fun a ha => hheads (Draft.plays_of_weightRule? hi
      (List.mem_append_left _ (List.mem_map.mpr ⟨a, ha, rfl⟩))) (Or.inr rfl)
    have hhead : r'.head = (r.clause.mapAtoms b.nameOf).head := congrArg Clause.head hclause
    rw [hhead]
    exact hupper

theorem twoBands_of_ofDraft (hbands : ofDraft f.draft = .ok b) (hf : f.Tidy log)
    (ht : b.template = .ok t) : t.TwoBands log f.draft := by
  have h := lays_of_ofDraft hbands
  obtain ⟨howners, hbridges⟩ := classed_of_ofDraft hbands
  have hid := h.id?_template ht
  have hbanded := h.banded ht
  have hsame : t.period = b.period ∧ t.bridges = b.bridges := by
    obtain ⟨rules, weightRules, -, -, rfl⟩ := template_eq_ok ht
    exact ⟨rfl, rfl⟩
  have hfresh : b.period = f.draft.owners.length + b.freshBridges.length := by
    rw [← howners]
    rfl
  have hslot : ∀ {a k}, b.slot? a = some k → 1 ≤ k ∧ k ≤ t.period := by
    intro a k hk
    have hrange := slot?_range hk
    exact ⟨hrange.1, hsame.1 ▸ hrange.2.2⟩
  refine ⟨hbanded, ?_, ?_, ?_, fun bridge hmem => ?_, fun bridge hmem c hc howner => ?_, ?_, ?_,
    fun hno => ?_, fun entry hentry => ?_, fun entry hentry => ?_⟩
  · rw [hsame.1, h.length_filter_classOf ht]
  · rw [List.map_congr_left fun a _ => hid a, ← howners, hsame.1]
    exact h.map_id?_owners
  · rw [hsame.2, hbridges, map_atom_layBridges]
  · rw [hid]
    exact h.id?_of_mem (hsame.2 ▸ hmem)
  · rw [hid, hsame.1]
    refine h.id?_of_slot ?_
    rcases h.bridges_cases (hsame.2 ▸ hmem) with hslot | ⟨hnone, -⟩
    · obtain ⟨c', hc', hslot⟩ := Option.bind_eq_some_iff.mp hslot
      obtain rfl := Option.some.inj (hc'.symm.trans hc)
      exact hslot
    · rw [hc] at hnone
      obtain ⟨k, hk⟩ := exists_slotIn (howners ▸ howner)
      exact absurd (hk.symm.trans hnone) (by simp)
  · rw [hsame.2, h.filter_isMet howners, h.map_index_freshBridges, howners, hsame.1, hfresh,
      Nat.add_sub_cancel_left]
  · rw [hsame.1, hfresh]
    exact Nat.le_add_right _ _
  · obtain ⟨hrules, hweightRules⟩ := h.lt_of_mem_heads hf ht hno
    exact ⟨fun r hr k hk => ⟨hrules r hr k hk,
        (hbanded.rules r hr k (Clause.mem_atoms_of_head hk)).2⟩,
      fun r hr k hk => ⟨hweightRules r hr k hk,
        (hbanded.weightRules r hr k (Clause.mem_atoms_of_head hk)).2⟩⟩
  · obtain ⟨a, -, -, hk⟩ := h.exists_of_mem_externals ht hentry
    exact hslot hk
  · obtain ⟨symbol, a, -, hshown⟩ := (mem_output ht).mp hentry
    rcases (shown?_eq_some_iff.mp hshown).2 with ⟨hprevious, -⟩ | ⟨-, hk, -⟩
    · obtain ⟨bridge, hmem, -, hindex⟩ := exists_of_previous? hprevious
      rw [hsame.1, ← hindex]
      exact h.index_mem hmem
    · exact hslot hk

end Bands

namespace Fitting

/-- Whatever was assumed, a run that succeeds leaves a draft that is laid out in two bands, unless
an external has no label. Atom 0 is reserved; if no rule uses it, nothing dangles. -/
theorem layOut_run {log : List Observation} (never always : List Nat) {g : Fitting}
    (h : (((ofDraft (Draft.ofReplay log)).assumeFalse never).assumeCautious always).run = .ok g) :
    match g.draft.layOut with
    | .error e => (∀ o ∈ log, 0 ∉ o.atoms) →
        ∃ a ∈ g.draft.externals, g.draft.label? a = none ∧ e = .anonymousExternal a
    | .ok t => t.TwoBands log g.draft := by
  have htidy := tidy_of_run_eq_ok h
  cases hlay : g.draft.layOut with
  | error e => exact fun hzero => Bands.layOut_eq_error htidy hzero hlay
  | ok t =>
      obtain ⟨b, hbands, ht⟩ := exists_of_bind_eq_ok hlay
      exact Bands.twoBands_of_ofDraft hbands htidy ht

/-- `lit'` meets `lit`; `on'` meets a fact, and has the fourth slot. -/
theorem layOut_run_lampLog : ∃ g t,
    (((ofDraft (Draft.ofReplay lampLog)).assumeFalse []).assumeCautious []).run = .ok g ∧
      g.draft.layOut = .ok t ∧ t.TwoBands lampLog g.draft ∧ t.period = 4 := by
  obtain ⟨g, hrun, h⟩ := exists_ok_of_any
    (x := (((ofDraft (Draft.ofReplay lampLog)).assumeFalse []).assumeCautious []).run)
    (f := fun g => g.draft.layOut.toOption.any (·.period = 4)) (by decide +kernel)
  obtain ⟨t, hlayOut, hperiod⟩ := exists_ok_of_any h
  have hbands := layOut_run [] [] hrun
  rw [hlayOut] at hbands
  exact ⟨g, t, hrun, hlayOut, hbands, of_decide_eq_true hperiod⟩

end Fitting

end StablePlan
