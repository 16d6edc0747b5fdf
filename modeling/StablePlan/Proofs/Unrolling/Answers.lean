import StablePlan.Proofs.Stable.Constraints
import StablePlan.Proofs.Unrolling.Pieces
import StablePlan.Proofs.Unrolling.Showing

/-!
Answers tell the truth. A label goes many ways into a template: as a fact, with the slot of the atom
that bears it, with the slot that a bridge reads in the step before. Whichever way it took, it is
shown at a step exactly if the program has it as a fact or makes an atom true there that bears it,
and nothing is shown of the initial state but what the template starts with.
-/

namespace StablePlan

namespace Bands

variable {b : Bands} {t : Template} {a k : Nat} {label symbol : Symbol}

/-! ### What a template shows -/

theorem mem_firsts {α : Type} [DecidableEq α] {xs : List α} {x : α} : x ∈ firsts xs ↔ x ∈ xs := by
  suffices h : ∀ seen : List α,
      x ∈ xs.foldl (fun seen x => if x ∈ seen then seen else seen ++ [x]) seen ↔
        x ∈ seen ∨ x ∈ xs by
    unfold firsts
    simpa using h []
  induction xs with
  | nil => simp
  | cons y ys ih =>
      intro seen
      rw [List.foldl_cons, ih]
      split
      · rename_i hy
        rw [List.mem_cons]
        refine ⟨Or.imp_right Or.inr, ?_⟩
        rintro (hx | rfl | hx)
        · exact Or.inl hx
        · exact Or.inl hy
        · exact Or.inr hx
      · simp [or_assoc]

theorem isFact_iff : b.isFact a = true ↔ a = 0 ∨ b.draft.resolution a = some .on := by
  simp [isFact]

theorem mem_facts (ht : b.template = .ok t) :
    label ∈ t.facts ↔ ∃ a, (label, a) ∈ b.draft.outputs.toList ∧ b.isFact a = true := by
  obtain ⟨rules, weightRules, -, -, rfl⟩ := template_eq_ok ht
  change label ∈ b.facts ↔ _
  unfold facts
  rw [mem_firsts, List.mem_map]
  constructor
  · rintro ⟨⟨y, a⟩, hmem, rfl⟩
    exact ⟨a, List.mem_filter.mp hmem⟩
  · rintro ⟨a, hmem⟩
    exact ⟨(label, a), List.mem_filter.mpr hmem, rfl⟩

theorem mem_output (ht : b.template = .ok t) : (k, label) ∈ t.output ↔
    ∃ symbol a, (symbol, a) ∈ b.draft.outputs.toList ∧
      b.shown? (symbol, a) = some (k, label) := by
  obtain ⟨rules, weightRules, -, -, rfl⟩ := template_eq_ok ht
  change (k, label) ∈ b.output ↔ _
  unfold output
  rw [mem_firsts, List.mem_filterMap]
  exact ⟨fun ⟨⟨symbol, a⟩, h⟩ => ⟨symbol, a, h⟩, fun ⟨symbol, a, h⟩ => ⟨(symbol, a), h⟩⟩

/-- A bridge shows the label without its prime, another atom the label itself. -/
theorem shown?_eq_some_iff : b.shown? (symbol, a) = some (k, label) ↔ b.isFact a = false ∧
    (b.previous? a = some k ∧ symbol.unprimed = label ∨
      b.previous? a = none ∧ b.slot? a = some k ∧ symbol = label) := by
  unfold shown?
  dsimp only
  cases b.isFact a with
  | true => simp
  | false =>
      cases b.previous? a with
      | some j => simp
      | none => simp

theorem exists_of_previous? (hk : b.previous? a = some k) :
    ∃ bridge ∈ b.bridges, bridge.atom = a ∧ bridge.index = k := by
  obtain ⟨bridge, hfind, hindex⟩ := Option.map_eq_some_iff.mp hk
  exact ⟨bridge, List.mem_of_find?_eq_some hfind, by simpa using List.find?_some hfind, hindex⟩

end Bands

namespace Compiled

variable {log : List Observation} {d : Draft} {b : Bands} {t : Template} {a k s n : Nat}
  {symbol label : Symbol} {M : Set Nat}

theorem mem_outputs_iff (h : Compiled log d b t) :
    (label, a) ∈ b.draft.outputs.toList ↔ Observation.label label a ∈ log := by
  rw [h.lays.draft, h.remains.outputs, mem_labelsOf]

/-- An index of the output is the slot of an atom with the label, or is read by the bridge with
the primed label. -/
theorem output_cases (h : Compiled log d b t) (hk : (k, label) ∈ t.output) :
    (∃ a, Observation.label label a ∈ log ∧ b.slot? a = some k) ∨
      ∃ symbol, ∃ bridge ∈ b.bridges, IsExternal log symbol bridge.atom ∧
        bridge.index = k ∧ symbol.unprimed = label := by
  obtain ⟨symbol, a, hmem, hshown⟩ := (Bands.mem_output h.template).mp hk
  rw [h.mem_outputs_iff] at hmem
  obtain ⟨-, ⟨hprevious, hlabel⟩ | ⟨-, hslot, rfl⟩⟩ := Bands.shown?_eq_some_iff.mp hshown
  · obtain ⟨bridge, hbridge, rfl, hindex⟩ := Bands.exists_of_previous? hprevious
    have hgiven := (h.remains.externals _).mp (h.mem_externals_of_bridge hbridge)
    exact Or.inr ⟨symbol, bridge, hbridge, ⟨hgiven, hmem⟩, hindex, hlabel⟩
  · exact Or.inl ⟨a, hmem, hslot⟩

theorem output_range (h : Compiled log d b t) (hk : (k, label) ∈ t.output) :
    1 ≤ k ∧ k ≤ t.period := by
  rw [h.period_eq]
  rcases h.output_cases hk with ⟨a, -, hslot⟩ | ⟨symbol, bridge, hbridge, -, rfl, -⟩
  · have hrange := Bands.slot?_range hslot
    exact ⟨hrange.1, hrange.2.2⟩
  · exact h.lays.index_mem hbridge

/-! ### What is shown at a step -/

/-- A fact of the template is a fact of the program, or true in every model of the draft. -/
theorem holds_of_mem_facts (h : Compiled log d b t) {X : Set Nat} (hX : d.remainder.Models X X)
    (hfact : label ∈ t.facts) : ∃ a, Observation.label label a ∈ log ∧ (a = 0 ∨ a ∈ X) := by
  obtain ⟨a, hmem, ha⟩ := (Bands.mem_facts h.template).mp hfact
  refine ⟨a, h.mem_outputs_iff.mp hmem, (Bands.isFact_iff.mp ha).imp_right fun hon => ?_⟩
  rw [h.lays.draft] at hon
  exact hX.facts a hon

/-- An index of the output that is true at a step has a bearer of its label that is. -/
theorem holds_of_mem_output (h : Compiled log d b t)
    (hobeyed : b.ObeyedBy (t.window M s) (t.window M s)) (hs : 1 ≤ s)
    (hk : (k, label) ∈ t.output) (hmem : s * t.period + k ∈ M) :
    ∃ a, Observation.label label a ∈ log ∧ (a = 0 ∨ a ∈ t.reads M s) := by
  rcases h.output_cases hk with ⟨a, hlabel, hslot⟩ | ⟨symbol, bridge, hbridge, ha, rfl, rfl⟩
  · exact ⟨a, hlabel, Or.inr ((h.mem_reads_handle hslot hs).mpr hmem)⟩
  · obtain ⟨c, hc, hholds⟩ := (h.shows_iff_mem_of_obeyedBy hobeyed hbridge ha hs).mp hmem
    exact ⟨c, label_mem_of_labelled? hc, hholds⟩

/-- A label that holds at a step is a fact of the template, or one of its indices is true. -/
theorem shown_of_holds (h : Compiled log d b t) (hprimed : ¬label.isPrimed) (hs : 1 ≤ s)
    (hlabel : Observation.label label a ∈ log) (ha : a = 0 ∨ a ∈ t.reads M s) :
    label ∈ t.facts ∨ ∃ k, (k, label) ∈ t.output ∧ s * t.period + k ∈ M := by
  have hmem := h.mem_outputs_iff.mpr hlabel
  cases hfact : b.isFact a with
  | true => exact Or.inl ((Bands.mem_facts h.template).mpr ⟨a, hmem, hfact⟩)
  | false =>
      have hno : ¬(a = 0 ∨ b.draft.resolution a = some .on) := by
        rw [← Bands.isFact_iff, hfact]
        simp
      rw [not_or] at hno
      have hreads := ha.resolve_left hno.1
      rcases h.lays.id?_cases a with ⟨bridge, hbridge, rfl⟩ | ⟨k, hslot⟩ | ⟨hnone, -⟩
      -- A bridge has one label, which is primed.
      · have hgiven := (h.remains.externals _).mp (h.mem_externals_of_bridge hbridge)
        have hclass := h.lays.exists_bridge_iff.mp ⟨bridge, hbridge, rfl⟩
        rw [h.classOf_external ⟨hgiven, hlabel⟩, if_neg hprimed] at hclass
        exact absurd hclass (by simp)
      · have hbridge := h.lays.not_bridgeIn_of_mem_owners (Bands.slotIn_eq_some hslot).1
        have hshown : b.shown? (label, a) = some (k, label) := Bands.shown?_eq_some_iff.mpr
          ⟨hfact, Or.inr ⟨h.lays.previous?_eq_none hbridge, hslot, rfl⟩⟩
        exact Or.inr ⟨k, (Bands.mem_output h.template).mpr ⟨label, a, hmem, hshown⟩,
          (h.mem_reads_handle hslot hs).mp hreads⟩
      · rw [h.reads_eq, Bands.mem_named_of_id?_eq_none hnone] at hreads
        exact absurd hreads hno.2

/-- What a template shows at a step that obeys the layout is what holds there. -/
theorem shown_iff_holds (h : Compiled log d b t)
    (hobeyed : b.ObeyedBy (t.window M s) (t.window M s)) (hprimed : ¬label.isPrimed)
    (hs : 1 ≤ s) :
    (label ∈ t.facts ∨ ∃ k, (k, label) ∈ t.output ∧ s * t.period + k ∈ M) ↔
      ∃ a, Observation.label label a ∈ log ∧ (a = 0 ∨ a ∈ t.reads M s) := by
  constructor
  · rintro (hfact | ⟨k, hk, hmem⟩)
    · exact h.holds_of_mem_facts (h.models_reads hobeyed) hfact
    · exact h.holds_of_mem_output hobeyed hs hk hmem
  · rintro ⟨a, hlabel, ha⟩
    exact h.shown_of_holds hprimed hs hlabel ha

end Compiled

/-! ### Models -/

namespace Unrolling

variable {u : Unrolling} {t : Template} {r : Reasoner} {m : Model} {s n k : Nat}
  {label : Symbol} {limit limit' : Limit}

/-- An index is shown at a step if its atom is true. -/
theorem shows_iff (hfits : u.template.fits n) (hs : s ≤ n) (hone : 1 ≤ k)
    (hk : k ≤ u.template.period) :
    u.shows m s (k, label) = true ↔ s * u.template.period + k ∈ m.trueSet := by
  have hmax := Template.le_maxAtom_of_fits hfits (by omega)
  have hmul : s * u.template.period ≤ n * u.template.period := Nat.mul_le_mul_right _ hs
  have hrange : InRange maxAtom (s * u.template.period + k) := ⟨by omega, by omega⟩
  have hliteral : u.template.literal? s k = some (.positive (s * u.template.period + k)) :=
    literal?_eq hrange
  unfold shows
  rw [hliteral, Option.any_some, Model.holds_positive (by omega)]

/-- Grounding from the start to `n` steps that fit succeeds and asserts the unrolled program. -/
theorem exists_grounded (hbands : t.Banded) (hfits : t.fits n) (limit : Limit) :
    ∃ u r, ground { template := t } (Reasoner.empty limit) 1 n = .ok (u, r) ∧ u.template = t ∧
      ∀ M, r.theory.IsStable M ↔ (t.unrolled n).IsStable M := by
  obtain ⟨r, hground, hlogs⟩ := ground_eq_ok (u := { template := t })
    (⟨Reasoner.represents_empty limit, rfl⟩ : (Reasoner.empty limit).Logs limit []) hbands hfits
  have hkeeps := keeps_fresh t
  obtain ⟨htemplate, hstarted, hsteps, -⟩ := hkeeps.groundedTo_frame n
  have htold : Told (Reasoner.ledger limit) (groundedTo { template := t } n) r ∅ := by
    refine ⟨_, hlogs, fun o => ?_⟩
    rw [hkeeps.told_groundedTo]
    simp [told]
  refine ⟨_, r, hground, htemplate, fun M => ?_⟩
  rw [htold.theory_isStable_iff hstarted, htemplate, hsteps]
  simp

/-- Answers tell the truth. An answer shows a label that is not primed at a step, as a fact or with
the step, exactly if the program has it as a fact or an atom that bears it is true at the step; and
with step 0 it shows what the template starts with. -/
theorem answer_exact {program : List Statement}
    (hload : (Reasoner.empty limit).load program = .ok r)
    (hw : ∀ s ∈ program, s.HasNonnegWeights) (hstep : DescribesStep r.replay.toList)
    (hcompile : r.compile = .ok t) (hfits : t.fits n) :
    ∃ u b, ground { template := t } (Reasoner.empty limit') 1 n = .ok (u, b) ∧
      ∀ m : Model, b.theory.IsStable m.trueSet →
        (∀ s, 1 ≤ s → s ≤ n → ∀ label : Symbol, ¬label.isPrimed →
          (label ∈ (u.answer m n).facts ∨ (s, label) ∈ (u.answer m n).atoms ↔
            Observation.label label 0 ∈ r.replay.toList ∨
              ∃ a, Observation.label label a ∈ r.replay.toList ∧ a ∈ t.reads m.trueSet s)) ∧
        (∀ e ∈ t.output, u.shownAt m 0 e = some (0, e.2) ↔ e.1 ∈ t.init) ∧
        ∀ label, (0, label) ∈ (u.answer m n).atoms ↔ ∃ k ∈ t.init, (k, label) ∈ t.output := by
  obtain ⟨d, bands, hc⟩ := Reasoner.exists_compiled hload hw hstep hcompile
  obtain ⟨u, b, hground, htemplate, htheory⟩ := exists_grounded hc.banded hfits limit'
  refine ⟨u, b, hground, fun m hm => ?_⟩
  have hM := (htheory _).mp hm
  have hshows : ∀ s ≤ n, ∀ e ∈ t.output, u.shows m s e = true ↔
      s * t.period + e.1 ∈ m.trueSet := by
    rintro s hs ⟨k, label⟩ he
    obtain ⟨hone, hk⟩ := hc.output_range he
    subst htemplate
    exact shows_iff hfits hs hone hk
  have hstart : ∀ e ∈ t.output, u.shows m 0 e = true ↔ e.1 ∈ t.init := by
    intro e he
    obtain ⟨hone, hk⟩ := hc.output_range he
    rw [hshows 0 (Nat.zero_le n) e he, Nat.zero_mul, Nat.zero_add, hc.mem_init_iff hfits hM hk]
  refine ⟨fun s hs hn label hprimed => ?_, fun e he => ?_, fun label => ?_⟩
  · have hbearers : (∃ a, Observation.label label a ∈ r.replay.toList ∧
        (a = 0 ∨ a ∈ t.reads m.trueSet s)) ↔ Observation.label label 0 ∈ r.replay.toList ∨
          ∃ a, Observation.label label a ∈ r.replay.toList ∧ a ∈ t.reads m.trueSet s := by
      simp only [and_or_left, exists_or, exists_eq_right]
    rw [← hbearers, ← hc.shown_iff_holds (hc.obeyedBy_of_isStable hfits hM hs hn) hprimed hs,
      mem_atoms_answer, htemplate]
    refine or_congr ?_ ⟨?_, ?_⟩
    · exact htemplate ▸ Iff.rfl
    · rintro ⟨-, ⟨k, label⟩, he, hshown, rfl⟩
      exact ⟨k, he, (hshows s hn _ he).mp hshown⟩
    · rintro ⟨k, he, hmem⟩
      exact ⟨hn, (k, label), he, (hshows s hn _ he).mpr hmem, rfl⟩
  · rw [← hstart e he, shownAt_eq]
    simp
  · rw [mem_atoms_answer, htemplate]
    constructor
    · rintro ⟨-, ⟨k, label⟩, he, hshown, rfl⟩
      exact ⟨k, (hstart _ he).mp hshown, he⟩
    · rintro ⟨k, hk, he⟩
      exact ⟨Nat.zero_le n, (k, label), he, (hstart _ he).mpr hk, rfl⟩

theorem answer_exact_lampProgram : ∃ t, lampReasoner.compile = .ok t ∧
    ∃ u b, ground { template := t } (Reasoner.empty .unlimited) 1 2 = .ok (u, b) ∧
      ∀ m : Model, b.theory.IsStable m.trueSet →
        (∀ s, 1 ≤ s → s ≤ 2 → ∀ label : Symbol, ¬label.isPrimed →
          (label ∈ (u.answer m 2).facts ∨ (s, label) ∈ (u.answer m 2).atoms ↔
            Observation.label label 0 ∈ lampReasoner.replay.toList ∨
              ∃ a, Observation.label label a ∈ lampReasoner.replay.toList ∧
                a ∈ t.reads m.trueSet s)) ∧
        (∀ e ∈ t.output, u.shownAt m 0 e = some (0, e.2) ↔ e.1 ∈ t.init) ∧
        ∀ label, (0, label) ∈ (u.answer m 2).atoms ↔ ∃ k ∈ t.init, (k, label) ∈ t.output := by
  obtain ⟨t, hcompile, hfits⟩ := exists_ok_of_any (x := lampReasoner.compile) (f := (·.fits 2))
    (by decide +kernel)
  refine ⟨t, hcompile, answer_exact load_lampProgram ?_ ?_ hcompile hfits⟩
  · simp [lampProgram, Statement.HasNonnegWeights]
  · exact replay_lampReasoner ▸ describesStep_lampLog

end Unrolling

end StablePlan
