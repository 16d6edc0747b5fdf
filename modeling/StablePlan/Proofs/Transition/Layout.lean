import StablePlan.Proofs.Program.Renaming
import StablePlan.Proofs.Transition.Replay

/-!
The layout of a draft. Slots are given out once each: the owners take the first ones and the bridges
without a slot of their own the others. So every index up to the period belongs to one atom or to
one fresh bridge, and whatever a rule may mention has a name.
-/

namespace StablePlan

namespace Bands

variable {d : Draft} {b : Bands} {a k next : Nat} {owners atoms : List Nat}

/-! ### Slots -/

theorem mem_atomsOf {wanted classes : List AtomClass} :
    a ∈ atomsOf wanted classes ↔ ∃ c ∈ wanted, classes[a]? = some c := by
  unfold atomsOf
  rw [List.mem_map]
  constructor
  · rintro ⟨⟨c, i⟩, hmem, rfl⟩
    obtain ⟨hzip, hwanted⟩ := List.mem_filter.mp hmem
    exact ⟨c, by simpa using hwanted, List.mem_zipIdx_iff_getElem?.mp hzip⟩
  · rintro ⟨c, hwanted, hget⟩
    refine ⟨(c, a), List.mem_filter.mpr ⟨List.mem_zipIdx_iff_getElem?.mpr hget, ?_⟩, rfl⟩
    simpa using hwanted

theorem nodup_atomsOf (wanted classes : List AtomClass) : (atomsOf wanted classes).Nodup := by
  have hall : (classes.zipIdx.map Prod.snd).Nodup := by
    rw [List.zipIdx_map_snd]
    exact List.nodup_range'
  unfold atomsOf
  exact hall.sublist (List.filter_sublist.map Prod.snd)

theorem slotIn_eq_some (h : slotIn owners a = some k) :
    a ∈ owners ∧ 1 ≤ k ∧ k ≤ owners.length ∧ owners[k - 1]? = some a := by
  unfold slotIn at h
  obtain ⟨i, hi, rfl⟩ := Option.map_eq_some_iff.mp h
  obtain ⟨hlt, heq, -⟩ := List.idxOf?_eq_some_iff.mp hi
  refine ⟨heq ▸ List.getElem_mem hlt, by omega, hlt, ?_⟩
  rw [Nat.add_sub_cancel, List.getElem?_eq_getElem hlt, heq]

theorem exists_slotIn (h : a ∈ owners) : ∃ k, slotIn owners a = some k := by
  unfold slotIn
  have hsome : (owners.idxOf? a).isSome := List.isSome_idxOf?.mpr h
  obtain ⟨i, hi⟩ := Option.isSome_iff_exists.mp hsome
  exact ⟨i + 1, by rw [hi]; rfl⟩

theorem slotIn_injective {a' : Nat} (h : slotIn owners a = some k)
    (h' : slotIn owners a' = some k) : a = a' := by
  have heq := (slotIn_eq_some h).2.2.2
  rw [(slotIn_eq_some h').2.2.2] at heq
  exact (Option.some.inj heq).symm

/-- Every slot has an owner. -/
theorem exists_owner (hnodup : owners.Nodup) (hk : 1 ≤ k) (hle : k ≤ owners.length) :
    ∃ a, slotIn owners a = some k := by
  have hlt : k - 1 < owners.length := by omega
  obtain ⟨j, hj⟩ := exists_slotIn (List.getElem_mem hlt)
  obtain ⟨-, hone, hj', hget⟩ := slotIn_eq_some hj
  have hlt' : j - 1 < owners.length := by omega
  rw [List.getElem?_eq_getElem hlt'] at hget
  have hsame := (hnodup.getElem_inj_iff).mp (Option.some.inj hget)
  have hjk : j = k := by omega
  exact ⟨_, hjk ▸ hj⟩

/-! ### Bridges -/

/-- The bridges among the given ones that take a slot beyond those of the owners. -/
def freshOf (owners : List Nat) (bridges : List Bridge) : List Bridge :=
  bridges.filter fun bridge => owners.length < bridge.index

theorem map_atom_layBridges : (layBridges d owners next atoms).map Bridge.atom = atoms := by
  induction atoms generalizing next with
  | nil => rfl
  | cons a atoms ih =>
      unfold layBridges
      dsimp only
      split
      · rw [List.map_cons, ih]
      · rw [List.map_cons, ih]

/-- A bridge has the slot of its counterpart, or a fresh one. -/
theorem index_layBridges (hnext : owners.length < next) {bridge : Bridge}
    (h : bridge ∈ layBridges d owners next atoms) :
    (d.counterpart? bridge.atom).bind (slotIn owners) = some bridge.index ∨
      (d.counterpart? bridge.atom).bind (slotIn owners) = none ∧ owners.length < bridge.index := by
  induction atoms generalizing next with
  | nil => exact absurd h List.not_mem_nil
  | cons a atoms ih =>
      unfold layBridges at h
      dsimp only at h
      split at h
      · rename_i k hk
        rcases List.mem_cons.mp h with rfl | h
        · exact Or.inl hk
        · exact ih hnext h
      · rename_i hnone
        rcases List.mem_cons.mp h with rfl | h
        · exact Or.inr ⟨hnone, hnext⟩
        · exact ih (by omega) h

/-- Fresh slots are given out one after the other. -/
theorem map_index_freshOf (hnext : owners.length < next) :
    (freshOf owners (layBridges d owners next atoms)).map Bridge.index =
      List.range' next (freshOf owners (layBridges d owners next atoms)).length := by
  induction atoms generalizing next with
  | nil => rfl
  | cons a atoms ih =>
      unfold layBridges
      dsimp only
      split
      · rename_i k hk
        obtain ⟨c, -, hslot⟩ := Option.bind_eq_some_iff.mp hk
        have hle := (slotIn_eq_some hslot).2.2.1
        have hdrop : ∀ rest shown, freshOf owners (⟨a, shown, k⟩ :: rest) = freshOf owners rest :=
          fun rest shown => List.filter_cons_of_neg (by simpa using hle)
        rw [hdrop]
        exact ih hnext
      · have hkeep : ∀ rest shown,
            freshOf owners (⟨a, shown, next⟩ :: rest) = ⟨a, shown, next⟩ :: freshOf owners rest :=
          fun rest shown => List.filter_cons_of_pos (by simpa using hnext)
        rw [hkeep, List.map_cons, ih (by omega), List.length_cons, List.range'_succ]

/-! ### The whole layout -/

/-- What laying out a draft gives. -/
structure Lays (d : Draft) (b : Bands) : Prop where
  draft : b.draft = d
  classified : ∀ a ≤ d.maxAtom, d.classify a = .ok (b.classOf a)
  outside : ∀ a, d.maxAtom < a → b.classOf a = .eliminated
  size : b.classes.size = d.maxAtom + 1
  mem_owners : ∀ a, a ∈ b.owners ↔ b.classOf a = .internal ∨ b.classOf a = .bridgeOut
  nodup : b.owners.Nodup
  bridges : ∃ atoms : List Nat, atoms.Nodup ∧ (∀ a, a ∈ atoms ↔ b.classOf a = .bridgeIn) ∧
    b.bridges = layBridges d b.owners (b.owners.length + 1) atoms

theorem mem_atomsOf_classes {wanted : List AtomClass} {classes : Array AtomClass}
    (hwanted : .eliminated ∉ wanted) :
    a ∈ atomsOf wanted classes.toList ↔ classes.getD a .eliminated ∈ wanted := by
  rw [mem_atomsOf, Array.getD_eq_getD_getElem?, ← Array.getElem?_toList]
  constructor
  · rintro ⟨c, hc, hget⟩
    rwa [hget]
  · intro hmem
    cases hget : classes.toList[a]? with
    | none =>
        rw [hget] at hmem
        exact absurd hmem hwanted
    | some c =>
        rw [hget] at hmem
        exact ⟨c, hmem, rfl⟩

theorem lays_of_ofDraft (h : ofDraft d = .ok b) : Lays d b := by
  obtain ⟨classes, hclasses, h⟩ := exists_of_bind_eq_ok h
  obtain rfl := Except.ok.inj h
  have hall := forall₂_of_mapM_eq_ok hclasses
  have hlength : classes.length = d.maxAtom + 1 := by
    rw [← hall.length_eq, List.length_range]
  have hgetD : ∀ a, classes.toArray.getD a .eliminated = classes[a]?.getD .eliminated := by
    intro a
    rw [Array.getD_eq_getD_getElem?, List.getElem?_toArray]
  refine ⟨rfl, fun a ha => ?_, fun a ha => ?_, hlength, fun a => ?_, nodup_atomsOf _ _,
    _, nodup_atomsOf _ _, fun a => ?_, rfl⟩
  · have hlt : a < classes.length := by omega
    have hclassify := hall.get (i := a) (by simpa using Nat.lt_succ_of_le ha) hlt
    unfold classOf
    rw [hgetD, List.getElem?_eq_getElem hlt]
    simpa using hclassify
  · unfold classOf
    rw [hgetD, List.getElem?_eq_none (by omega)]
    rfl
  · rw [mem_atomsOf_classes (by simp)]
    simp [classOf]
  · rw [mem_atomsOf_classes (by simp)]
    simp [classOf]

namespace Lays

theorem bridges_cases (h : Lays d b) {bridge : Bridge} (hmem : bridge ∈ b.bridges) :
    (d.counterpart? bridge.atom).bind b.slot? = some bridge.index ∨
      (d.counterpart? bridge.atom).bind b.slot? = none ∧ b.owners.length < bridge.index := by
  obtain ⟨atoms, -, -, hbridges⟩ := h.bridges
  rw [hbridges] at hmem
  exact index_layBridges (Nat.lt_succ_self _) hmem

theorem exists_bridge_iff (h : Lays d b) :
    (∃ bridge ∈ b.bridges, bridge.atom = a) ↔ b.classOf a = .bridgeIn := by
  obtain ⟨atoms, -, hatoms, hbridges⟩ := h.bridges
  rw [← hatoms, ← List.mem_map, hbridges, map_atom_layBridges]

theorem bridge_ext (h : Lays d b) {x y : Bridge} (hx : x ∈ b.bridges) (hy : y ∈ b.bridges)
    (hxy : x.atom = y.atom) : x = y := by
  obtain ⟨atoms, hnodup, -, hbridges⟩ := h.bridges
  have hmap : (b.bridges.map Bridge.atom).Nodup := by
    rw [hbridges, map_atom_layBridges]
    exact hnodup
  exact List.inj_on_of_nodup_map hmap hx hy hxy

theorem map_index_freshBridges (h : Lays d b) : b.freshBridges.map Bridge.index =
    List.range' (b.owners.length + 1) b.freshBridges.length := by
  obtain ⟨atoms, -, -, hbridges⟩ := h.bridges
  have hfresh : b.freshBridges = freshOf b.owners b.bridges := rfl
  rw [hfresh, hbridges]
  exact map_index_freshOf (Nat.lt_succ_self _)

theorem mem_freshBridges {bridge : Bridge} : bridge ∈ b.freshBridges ↔
    bridge ∈ b.bridges ∧ b.owners.length < bridge.index := by
  unfold freshBridges
  rw [List.mem_filter, decide_eq_true_eq]

/-- Every slot beyond those of the owners belongs to a fresh bridge. -/
theorem exists_fresh_iff (h : Lays d b) : (∃ bridge ∈ b.freshBridges, bridge.index = k) ↔
    b.owners.length < k ∧ k ≤ b.period := by
  rw [← List.mem_map, h.map_index_freshBridges, List.mem_range'_1]
  unfold period
  omega

theorem fresh_ext (h : Lays d b) {x y : Bridge} (hx : x ∈ b.freshBridges)
    (hy : y ∈ b.freshBridges) (hxy : x.index = y.index) : x = y := by
  have hmap : (b.freshBridges.map Bridge.index).Nodup := by
    rw [h.map_index_freshBridges]
    exact List.nodup_range'
  exact List.inj_on_of_nodup_map hmap hx hy hxy

theorem index_mem (h : Lays d b) {bridge : Bridge} (hmem : bridge ∈ b.bridges) :
    1 ≤ bridge.index ∧ bridge.index ≤ b.period := by
  rcases h.bridges_cases hmem with hslot | ⟨-, hfresh⟩
  · obtain ⟨c, -, hc⟩ := Option.bind_eq_some_iff.mp hslot
    obtain ⟨-, hone, hle, -⟩ := slotIn_eq_some hc
    unfold period
    omega
  · obtain ⟨-, hle⟩ := h.exists_fresh_iff.mp ⟨bridge, mem_freshBridges.mpr ⟨hmem, hfresh⟩, rfl⟩
    omega

theorem previous?_of_mem (h : Lays d b) {bridge : Bridge} (hmem : bridge ∈ b.bridges) :
    b.previous? bridge.atom = some bridge.index := by
  unfold previous?
  have hfind : (b.bridges.find? (·.atom == bridge.atom)).isSome := by
    rw [List.find?_isSome]
    exact ⟨bridge, hmem, by simp⟩
  obtain ⟨x, hx⟩ := Option.isSome_iff_exists.mp hfind
  have hatom : x.atom = bridge.atom := by simpa using List.find?_some hx
  rw [hx, h.bridge_ext (List.mem_of_find?_eq_some hx) hmem hatom]
  rfl

theorem previous?_eq_none (h : Lays d b) (ha : b.classOf a ≠ .bridgeIn) :
    b.previous? a = none := by
  unfold previous?
  rw [Option.map_eq_none_iff, List.find?_eq_none]
  intro bridge hmem heq
  exact ha (h.exists_bridge_iff.mp ⟨bridge, hmem, by simpa using heq⟩)

/-- The name of a bridge is the index in the band before. -/
theorem id?_of_mem (h : Lays d b) {bridge : Bridge} (hmem : bridge ∈ b.bridges) :
    b.id? bridge.atom = some bridge.index := by
  unfold id?
  rw [h.previous?_of_mem hmem]

theorem not_bridgeIn_of_mem_owners (h : Lays d b) (ha : a ∈ b.owners) :
    b.classOf a ≠ .bridgeIn := by
  rcases (h.mem_owners a).mp ha with hc | hc <;> simp [hc]

theorem id?_of_slot (h : Lays d b) (ha : b.slot? a = some k) :
    b.id? a = some (b.period + k) := by
  unfold id?
  rw [h.previous?_eq_none (h.not_bridgeIn_of_mem_owners (slotIn_eq_some ha).1), ha]
  rfl

/-- An atom is a bridge, has a slot, or has no name. -/
theorem id?_cases (h : Lays d b) (a : Nat) :
    (∃ bridge ∈ b.bridges, bridge.atom = a) ∨ (∃ k, b.slot? a = some k) ∨
      b.id? a = none ∧ b.classOf a ≠ .bridgeIn ∧ a ∉ b.owners := by
  by_cases hbridge : b.classOf a = .bridgeIn
  · exact Or.inl (h.exists_bridge_iff.mpr hbridge)
  · by_cases howner : a ∈ b.owners
    · exact Or.inr (Or.inl (exists_slotIn howner))
    · refine Or.inr (Or.inr ⟨?_, hbridge, howner⟩)
      unfold id? slot?
      rw [h.previous?_eq_none hbridge]
      cases hslot : slotIn b.owners a with
      | none => rfl
      | some k => exact absurd (slotIn_eq_some hslot).1 howner

end Lays

end Bands

theorem Draft.exists_lays_of_layOut {d : Draft} {t : Template} (h : d.layOut = .ok t) :
    ∃ b, Bands.Lays d b ∧ b.template = .ok t := by
  obtain ⟨b, hbands, ht⟩ := exists_of_bind_eq_ok h
  exact ⟨b, Bands.lays_of_ofDraft hbands, ht⟩

/-! ### Classes -/

/-- What the class of an atom says about it. -/
def Draft.IsOfClass (d : Draft) (a : Nat) : AtomClass → Prop
  | .internal => a ∉ d.externals ∧ (d.resolution a = none ∨ d.resolution a = some .cautious)
  | .bridgeIn => a ∈ d.externals ∧ ∃ symbol, d.label? a = some symbol ∧ symbol.isPrimed
  | .bridgeOut => a ∈ d.externals ∧ ∃ symbol, d.label? a = some symbol ∧ ¬symbol.isPrimed
  | .forcedTrue => a ∉ d.externals ∧ d.resolution a = some .on
  | .forcedFalse => a ∉ d.externals ∧ d.resolution a = some .off
  | .eliminated => a ∉ d.externals ∧ d.resolution a = none

theorem Draft.Remains.isOfClass_of_not_isMentioned {log : List Observation} {d : Draft} {a : Nat}
    (h : d.Remains log) (ha : ¬d.isMentioned a) : d.IsOfClass a .eliminated := by
  refine ⟨fun hmem => ha (h.mentioned a hmem), ?_⟩
  by_contra hres
  exact ha (h.coherent.resolved a hres)

theorem Bands.Lays.isOfClass {log : List Observation} {d : Draft} {b : Bands}
    (h : Lays d b) (hd : d.Remains log) (a : Nat) : d.IsOfClass a (b.classOf a) := by
  by_cases ha : a ≤ d.maxAtom
  · have hclassify := h.classified a ha
    unfold Draft.classify at hclassify
    split at hclassify
    · rename_i hout
      rw [← Except.ok.inj hclassify]
      refine hd.isOfClass_of_not_isMentioned fun hm => ?_
      by_cases hzero : a = 0
      · subst hzero
        exact absurd (hd.zero.symm.trans hm) (by simp)
      · simp [hzero, hm] at hout
    · split at hclassify
      · rename_i hexternal
        have hmem : a ∈ d.externals := by simpa using hexternal
        split at hclassify
        · rename_i symbol hlabel
          rw [← Except.ok.inj hclassify]
          by_cases hprimed : symbol.isPrimed = true
          · rw [if_pos hprimed]
            exact ⟨hmem, symbol, hlabel, hprimed⟩
          · rw [if_neg hprimed]
            exact ⟨hmem, symbol, hlabel, hprimed⟩
        · exact absurd hclassify (by simp)
      · rename_i hexternal
        have hmem : a ∉ d.externals := by simpa using hexternal
        split at hclassify
        · rename_i hres
          rw [← Except.ok.inj hclassify]
          exact ⟨hmem, hres⟩
        · rename_i hres
          rw [← Except.ok.inj hclassify]
          exact ⟨hmem, hres⟩
        · rename_i hon hoff
          rw [← Except.ok.inj hclassify]
          refine ⟨hmem, ?_⟩
          rcases hres : d.resolution a with _ | _ | _ | _
          · exact Or.inl rfl
          · exact absurd hres hon
          · exact absurd hres hoff
          · exact Or.inr rfl
  · rw [h.outside a (by omega)]
    refine hd.isOfClass_of_not_isMentioned fun hm => ?_
    have hlt := Draft.lt_of_isMentioned hm
    unfold Draft.maxAtom at ha
    omega

end StablePlan
