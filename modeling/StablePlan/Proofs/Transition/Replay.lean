import StablePlan.Proofs.Program.Labels
import StablePlan.Proofs.Stable.Consequences
import StablePlan.Proofs.Transition.Run
import StablePlan.Transition.Compile

/-!
From a replay to a fitted draft. Externals and labels are taken over as they are, and only atoms of
the replay are mentioned. What the reasoner finds out about all stable models may be assumed, so a
program that compiles leaves a draft with the same stable sets.
-/

namespace StablePlan

namespace Draft

variable {d e e' : Draft} {log : List Observation} {atoms atoms' : List Nat}

/-! ### What is taken over as it is -/

/-- Only atoms of a list are newly mentioned; externals and labels stay. -/
structure Notes (atoms : List Nat) (d e : Draft) : Prop where
  externals : e.externals = d.externals
  outputs : e.outputs = d.outputs
  kept : ∀ a, d.isMentioned a → e.isMentioned a
  only : ∀ a, e.isMentioned a → d.isMentioned a ∨ a ∈ atoms

theorem Notes.refl (atoms : List Nat) (d : Draft) : d.Notes atoms d :=
  ⟨rfl, rfl, fun _ h => h, fun _ h => Or.inl h⟩

theorem Notes.trans (h : d.Notes atoms e) (h' : e.Notes atoms e') : d.Notes atoms e' := by
  refine ⟨h'.externals.trans h.externals, h'.outputs.trans h.outputs,
    fun a ha => h'.kept a (h.kept a ha), fun a ha => ?_⟩
  rcases h'.only a ha with ha | ha
  · exact h.only a ha
  · exact Or.inr ha

theorem Notes.mono (h : d.Notes atoms e) (hsub : ∀ a ∈ atoms, a ∈ atoms') : d.Notes atoms' e :=
  ⟨h.externals, h.outputs, h.kept, fun a ha => (h.only a ha).imp_right (hsub a)⟩

theorem Notes.zero (h : d.Notes atoms e) (hd : d.isMentioned 0 = false) (h0 : 0 ∉ atoms) :
    e.isMentioned 0 = false := by
  by_contra hmentioned
  rcases h.only 0 (by simpa using hmentioned) with hd' | hd'
  · exact absurd (hd.symm.trans hd') (by simp)
  · exact h0 hd'

theorem notes_mention {a : Nat} (ha : a ∈ atoms) : d.Notes atoms (d.mention a) := by
  refine ⟨rfl, rfl, fun b hb => ?_, fun b hb => ?_⟩
  · exact (isMentioned_mention d a b).mpr (Or.inr hb)
  · rcases (isMentioned_mention d a b).mp hb with rfl | hb
    · exact Or.inr ha
    · exact Or.inl hb

theorem notes_foldl_mention (d : Draft) : d.Notes atoms (atoms.foldl mention d) := by
  suffices h : ∀ (bs : List Nat) (e : Draft), (∀ b ∈ bs, b ∈ atoms) → d.Notes atoms e →
      d.Notes atoms (bs.foldl mention e) from h atoms d (fun _ h => h) (.refl atoms d)
  intro bs
  induction bs with
  | nil => exact fun e _ he => he
  | cons b bs ih =>
      intro e hbs he
      exact ih _ (fun c hc => hbs c (by simp [hc])) (he.trans (notes_mention (hbs b (by simp))))

theorem exists_of_mem_parts {r : Rule} {a : Nat} {role : Role} (h : (a, role) ∈ r.parts) :
    a ∈ (Observation.rule r).atoms := by
  unfold Rule.parts at h
  unfold Observation.atoms
  rw [List.mem_append, List.mem_map, List.mem_map] at h
  rw [List.mem_append, List.mem_map]
  rcases h with ⟨x, hx, heq⟩ | ⟨l, hl, heq⟩
  · obtain ⟨rfl, -⟩ := Prod.mk.inj heq
    exact Or.inl hx
  · obtain ⟨rfl, -⟩ := Prod.mk.inj heq
    exact Or.inr ⟨l, hl, rfl⟩

theorem exists_of_mem_weightParts {r : WeightRule} {a : Nat} {role : Role}
    (h : (a, role) ∈ r.parts) : a ∈ (Observation.weightRule r).atoms := by
  unfold WeightRule.parts at h
  unfold Observation.atoms
  rw [List.mem_append, List.mem_map, List.mem_map] at h
  rw [List.mem_append, List.mem_map]
  rcases h with ⟨x, hx, heq⟩ | ⟨e, he, heq⟩
  · obtain ⟨rfl, -⟩ := Prod.mk.inj heq
    exact Or.inl hx
  · obtain ⟨rfl, -⟩ := Prod.mk.inj heq
    exact Or.inr ⟨e, he, rfl⟩

theorem notes_pushRule (d : Draft) (r : Rule) :
    d.Notes (Observation.rule r).atoms (d.pushRule r) := by
  have hp := pushes_pushRule d r
  obtain ⟨entries, hrest⟩ := (marked_markAll d.rules.size r.parts d).rest
  refine ⟨?_, ?_, fun a ha => (hp.mentioned a).mpr (Or.inl ha), fun a ha => ?_⟩
  · rw [pushRule_eq, hrest]
  · rw [pushRule_eq, hrest]
  · rcases (hp.mentioned a).mp ha with ha | ⟨role, ha⟩
    · exact Or.inl ha
    · exact Or.inr (exists_of_mem_parts ha)

theorem notes_pushWeightRule (d : Draft) (r : WeightRule) :
    d.Notes (Observation.weightRule r).atoms (d.pushWeightRule r) := by
  have hp := pushes_pushWeightRule d r
  obtain ⟨entries, hrest⟩ := (marked_markAll d.weightRules.size r.parts d).rest
  refine ⟨?_, ?_, fun a ha => (hp.mentioned a).mpr (Or.inl ha), fun a ha => ?_⟩
  · rw [pushWeightRule_eq, hrest]
  · rw [pushWeightRule_eq, hrest]
  · rcases (hp.mentioned a).mp ha with ha | ⟨role, ha⟩
    · exact Or.inl ha
    · exact Or.inr (exists_of_mem_weightParts ha)

theorem notes_constrain {l : Literal} (hl : l.atom ∈ atoms) : d.Notes atoms (d.constrain l) := by
  have hm := notes_mention (d := d) hl
  unfold constrain
  dsimp only
  split
  · exact ⟨hm.externals, hm.outputs, hm.kept, hm.only⟩
  · exact ⟨hm.externals, hm.outputs, hm.kept, hm.only⟩

theorem notes_addRule (d : Draft) (r : Rule) :
    d.Notes (Observation.rule r).atoms (d.addRule r) := by
  obtain ⟨choice, head, body⟩ := r
  unfold addRule
  split
  · exact .refl _ d
  · exact ⟨rfl, rfl, fun _ h => h, fun _ h => Or.inl h⟩
  · rename_i h _ hhead _
    have hm : d.Notes (Observation.rule ⟨choice, head, body⟩).atoms (d.mention h) :=
      notes_mention (by simp_all [Observation.atoms])
    exact ⟨hm.externals, hm.outputs, hm.kept, hm.only⟩
  · apply notes_constrain
    simp_all [Observation.atoms]
  · exact notes_pushRule d _

theorem notes_addWeightRule (d : Draft) (r : WeightRule) :
    d.Notes (Observation.weightRule r).atoms (d.addWeightRule r) := by
  unfold addWeightRule
  split
  · refine (notes_addRule d _).mono fun a ha => ?_
    simp only [Observation.atoms, List.map_nil, List.append_nil] at ha
    exact List.mem_append_left _ ha
  · split
    · have hhead : d.Notes (Observation.weightRule r).atoms (r.head.foldl mention d) :=
        (notes_foldl_mention d).mono fun a ha => List.mem_append_left _ ha
      have hbody : (r.head.foldl mention d).Notes (Observation.weightRule r).atoms
          ((r.body.map fun e => e.1.atom).foldl mention (r.head.foldl mention d)) :=
        (notes_foldl_mention _).mono fun a ha => List.mem_append_right _ ha
      rw [List.foldl_map] at hbody
      exact hhead.trans hbody
    · split
      · split
        · apply notes_constrain
          simp_all [Observation.atoms]
        · exact .refl _ d
      · exact notes_pushWeightRule d r

/-- What a draft has of the externals, the labels and the atoms of a log. -/
structure Follows (log : List Observation) (d : Draft) : Prop where
  externals : ∀ a, a ∈ d.externals ↔ a ∈ (theoryOf log).given
  outputs : d.outputs.toList = labelsOf log
  mentioned : ∀ a ∈ d.externals, d.isMentioned a
  zero : (∀ o ∈ log, 0 ∉ o.atoms) → d.isMentioned 0 = false

theorem mem_given_concat {o : Observation} {a : Nat} : a ∈ (theoryOf (log ++ [o])).given ↔
    a ∈ (theoryOf log).given ∨ ∃ value, o = .external a value ∧ value ≠ .release := by
  simp only [theoryOf, Set.mem_ofPred_eq, List.mem_append, List.mem_singleton]
  constructor
  · rintro ⟨value, hmem | heq, hvalue⟩
    · exact Or.inl ⟨value, hmem, hvalue⟩
    · exact Or.inr ⟨value, heq.symm, hvalue⟩
  · rintro (⟨value, hmem, hvalue⟩ | ⟨value, rfl, hvalue⟩)
    · exact ⟨value, Or.inl hmem, hvalue⟩
    · exact ⟨value, Or.inr rfl, hvalue⟩

theorem labelsOf_concat (log : List Observation) (o : Observation) :
    labelsOf (log ++ [o]) = labelsOf log ++ o.label?.toList := by
  unfold labelsOf
  rw [List.filterMap_append]
  cases o <;> rfl

/-- An event that is neither a label nor sets an external. -/
theorem Follows.notes {o : Observation} (h : d.Follows log) (hn : d.Notes o.atoms e)
    (hlabel : o.label? = none) (hexternal : ∀ a value, o = .external a value → value = .release) :
    e.Follows (log ++ [o]) := by
  refine ⟨fun a => ?_, ?_, fun a ha => ?_, fun hzero => ?_⟩
  · rw [hn.externals, h.externals, mem_given_concat]
    exact (or_iff_left fun ⟨value, heq, hvalue⟩ => hvalue (hexternal a value heq)).symm
  · rw [hn.outputs, h.outputs, labelsOf_concat, hlabel]
    exact (List.append_nil _).symm
  · rw [hn.externals] at ha
    exact hn.kept a (h.mentioned a ha)
  · exact hn.zero (h.zero fun o' ho => hzero o' (by simp [ho])) (hzero o (by simp))

theorem Follows.setExternal {b : Nat} {value : ExternalValue} (h : d.Follows log)
    (hvalue : value ≠ .release) :
    Follows (log ++ [.external b value])
      { d.mention b with externals := Ascending.insert b (d.mention b).externals } := by
  have hn : d.Notes [b] (d.mention b) := notes_mention (by simp)
  refine ⟨fun a => ?_, ?_, fun a ha => ?_, fun hzero => ?_⟩
  · rw [mem_given_concat, ← h.externals, Ascending.mem_insert, hn.externals, or_comm]
    refine or_congr_right ⟨?_, ?_⟩
    · rintro rfl
      exact ⟨value, rfl, hvalue⟩
    · rintro ⟨v, heq, -⟩
      exact (Observation.external.inj heq).1.symm
  · rw [labelsOf_concat]
    exact h.outputs.trans (List.append_nil _).symm
  · rcases Ascending.mem_insert.mp ha with rfl | ha
    · exact (isMentioned_mention d a a).mpr (Or.inl rfl)
    · exact hn.kept a (h.mentioned a ha)
  · exact hn.zero (h.zero fun o' ho => hzero o' (by simp [ho]))
      (hzero (.external b value) (by simp))

theorem Follows.addLabel {symbol : Symbol} {b : Nat} (h : d.Follows log) (hn : d.Notes atoms e)
    (h0 : 0 ∉ atoms) :
    Follows (log ++ [.label symbol b]) { e with outputs := e.outputs.push (symbol, b) } := by
  refine ⟨fun a => ?_, ?_, fun a ha => ?_, fun hzero => ?_⟩
  · rw [mem_given_concat, ← h.externals, ← hn.externals]
    exact (or_iff_left (by simp)).symm
  · rw [Array.toList_push, hn.outputs, h.outputs, labelsOf_concat]
    rfl
  · rw [hn.externals] at ha
    exact hn.kept a (h.mentioned a ha)
  · exact hn.zero (h.zero fun o' ho => hzero o' (by simp [ho])) h0

theorem Follows.observe (h : d.Follows log) (o : Observation) :
    (d.observe o).Follows (log ++ [o]) := by
  cases o with
  | rule r =>
      refine h.notes ((notes_addRule d _).mono fun a ha => ?_) rfl (by simp)
      simp only [Observation.atoms, List.mem_append, List.mem_map, Ascending.mem_ofList] at ha ⊢
      exact ha
  | weightRule r =>
      refine h.notes ((notes_addWeightRule d _).mono fun a ha => ?_) rfl (by simp)
      simp only [Observation.atoms, List.mem_append, Ascending.mem_ofList] at ha ⊢
      exact ha
  | external b value =>
      unfold Draft.observe
      dsimp only
      by_cases hvalue : value = .release
      · rw [if_pos hvalue]
        refine h.notes (notes_mention (List.mem_singleton_self b)) rfl ?_
        rintro a _ ⟨⟩
        exact hvalue
      · rw [if_neg hvalue]
        exact h.setExternal hvalue
  | label symbol b =>
      unfold Draft.observe
      dsimp only
      by_cases hb : b = 0
      · rw [if_pos hb]
        exact h.addLabel (.refl [] d) List.not_mem_nil
      · rw [if_neg hb]
        exact h.addLabel (notes_mention (List.mem_singleton_self b)) (by simpa using Ne.symm hb)

theorem follows_ofReplay (log : List Observation) : (ofReplay log).Follows log := by
  suffices h : ∀ (new old : List Observation) (d : Draft), d.Follows old →
      (new.foldl observe d).Follows (old ++ new) from
    h log [] {} ⟨by simp [theoryOf], rfl, by simp, fun _ => by simp [isMentioned, entry]⟩
  intro new
  induction new with
  | nil => simp
  | cons o new ih =>
      intro old d hd
      rw [List.foldl_cons, show old ++ o :: new = (old ++ [o]) ++ new by simp]
      exact ih _ _ (hd.observe o)

/-- Sums are exact if all weights of a log fit; the heads are those of the log. -/
def scopeOf (log : List Observation) : Scope := ⟨headsOf log, ∀ o ∈ log, o.HasFittingWeights⟩

/-- What is left of a log to be laid out. It has the stable sets of the log if sums are exact. -/
structure Remains (log : List Observation) (d : Draft) : Prop where
  coherent : d.Coherent (scopeOf log)
  stable : (scopeOf log).exact → ∀ X, (theoryOf log).IsStable X ↔ d.remainder.IsStable X
  externals : ∀ a, a ∈ d.externals ↔ a ∈ (theoryOf log).given
  outputs : d.outputs.toList = labelsOf log
  mentioned : ∀ a ∈ d.externals, d.isMentioned a
  zero : d.isMentioned 0 = false

end Draft

namespace Reasoner

variable {r : Reasoner} {log : List Observation} {t : Template} {X : Set Nat}

/-- Leaving open what is released for good takes no stable set away. -/
theorem Represents.isStable_problem (h : r.Represents log) (hX : (theoryOf log).IsStable X) :
    (r.problem true []).theory.IsStable X := by
  have hclauses : ∀ c, c ∈ (r.problem true []).theory.clauses ↔ c ∈ (theoryOf log).clauses :=
    fun c => h.mem_clauses
  have hgiven : ∀ a ∈ (theoryOf log).given, a ∈ (r.problem true []).theory.given := by
    rintro a ⟨value, hmem, -⟩
    rw [h.mem_given]
    obtain ⟨v, hv⟩ := exists_declared?_iff.mpr ⟨value, hmem⟩
    exact ⟨v, (h.externals a v).mpr hv, by simp [isGiven]⟩
  refine hX.of_models ?_ fun D _ hD => ?_
  · refine ⟨fun c hc => hX.model.clauses c ((hclauses c).mp hc), fun a _ ha => ha, ?_, ?_, ?_⟩
    · exact fun a ha => ha.elim
    · exact fun a ha => ha.elim
    · exact fun a ha => ha.elim
  · refine ⟨fun c hc => hD.clauses c ((hclauses c).mpr hc), fun a ha => hD.given a (hgiven a ha),
      ?_, ?_, ?_⟩
    · exact fun a ha => ha.elim
    · exact fun a ha => ha.elim
    · exact fun a ha => ha.elim

theorem compile_eq_ok {replay : List Observation} {c : Consequences}
    (h : StablePlan.compile replay c = .ok t) : ∃ brave cautious f,
      c.brave = .ok (some brave) ∧ c.cautious = .ok (some cautious) ∧
      (fittingOf (Draft.ofReplay replay) brave cautious).run = .ok f ∧
      f.draft.layOut = .ok t := by
  unfold StablePlan.compile at h
  have hmodel : ∀ x atoms, requireModel x = .ok atoms → x = .ok (some atoms) := by
    intro x atoms hx
    unfold requireModel at hx
    split at hx
    · obtain rfl := Except.ok.inj hx
      rfl
    · exact absurd hx (by simp)
    · exact absurd hx (by simp)
  obtain ⟨brave, hbrave, h⟩ := exists_of_bind_eq_ok h
  obtain ⟨cautious, hcautious, h⟩ := exists_of_bind_eq_ok h
  split at h
  · next f hrun => exact ⟨brave, cautious, f, hmodel _ _ hbrave, hmodel _ _ hcautious, hrun, h⟩
  · cases h

/-- What a reasoner finds out about a program may be assumed. -/
theorem IsExactFor.isStable_assuming_iff (h : r.IsExactFor log) {brave cautious : List Nat}
    (hbrave : r.brave = .ok (some brave)) (hcautious : r.cautious = .ok (some cautious))
    (hbottom : (Draft.ofReplay log).bottom = false) :
    (fittingOf (Draft.ofReplay log) brave cautious).theory.IsStable X ↔
      (theoryOf log).IsStable X := by
  have hb := h.brave_spec hbrave
  have hc := h.cautious_spec hcautious
  have hcollected : (Draft.ofReplay log).Collected ⟨Set.univ, True⟩ :=
    Draft.collected_ofReplay (fun o ho => (h.weights o ho).nonneg) (fun _ => h.weights)
      fun _ _ _ _ _ _ => Set.mem_univ _
  have hstable : ∀ X, (Draft.ofReplay log).theory.IsStable X ↔ (theoryOf log).IsStable X := fun X =>
    Theory.isStable_congr fun D _ => Draft.models_ofReplay h.weights
  rw [← hstable]
  refine Fitting.isStable_assuming_iff hcollected hbottom (fun X hX a ha hmem => ?_)
    fun X hX a ha => (hc.2 a).mp ha X (h.isStable_problem ((hstable X).mp hX))
  have hno : a ∉ brave := by
    have := (List.mem_filter.mp ha).2
    simp_all
  exact hno ((hb a).mpr ⟨X, h.isStable_problem ((hstable X).mp hX), hmem⟩)

/-- A program that compiles leaves a draft that is laid out. -/
theorem Represents.remains_of_compile (h : r.Represents log)
    (hw : ∀ o ∈ log, o.HasNonnegWeights) (hlog : r.replay.toList = log)
    (hok : r.compile = .ok t) : ∃ d : Draft, d.Remains log ∧ d.layOut = .ok t := by
  obtain ⟨brave, cautious, f, hbrave, hcautious, hrun, ht⟩ := compile_eq_ok hok
  rw [hlog] at hrun
  refine ⟨f.draft, ?_, ht⟩
  have hcollected : (Draft.ofReplay log).Collected (Draft.scopeOf log) :=
    Draft.collected_ofReplay hw id fun o ho c hc x hx => ⟨o, ho, c, hc, hx⟩
  obtain ⟨hbottom, hend⟩ := Fitting.completes_of_run_eq_ok hcollected hrun
  obtain ⟨entries, hdraft⟩ := Fitting.draft_assuming (Draft.ofReplay log)
    ((Draft.ofReplay log).never brave) cautious
  have hfollows := Draft.follows_ofReplay log
  have hsame : ∀ a, f.draft.isMentioned a ↔ (Draft.ofReplay log).isMentioned a ∨
      a ∈ (Draft.ofReplay log).never brave ∨ a ∈ cautious := fun a => by
    rw [hend.mentioned, Fitting.isMentioned_assuming hcollected]
  have hexternals : f.draft.externals = (Draft.ofReplay log).externals := by
    rw [hend.externals, hdraft]
  refine ⟨hend.coherent.draft, fun hexact X => ?_, fun a => ?_, ?_, fun a ha => ?_, ?_⟩
  · rw [← hend.theory_eq, ← hend.stable hexact]
    exact (IsExactFor.isStable_assuming_iff ⟨h, hexact⟩ hbrave hcautious hbottom).symm
  · rw [hexternals]
    exact hfollows.externals a
  · rw [hend.outputs, hdraft]
    exact hfollows.outputs
  · rw [hexternals] at ha
    exact (hsame a).mpr (Or.inl (hfollows.mentioned a ha))
  · by_contra hmentioned
    rcases (hsame 0).mp (by simpa using hmentioned) with hzero | hzero | hzero
    · have hlow := hfollows.zero fun o ho hmem => absurd (h.atoms o ho 0 hmem).1 (lt_irrefl 0)
      exact absurd (hlow.symm.trans hzero) (by simp)
    · have hrange := (List.mem_filter.mp hzero).1
      simp [Draft.atoms] at hrange
    · exact h.zero_notMem_cautious hcautious hzero

end Reasoner

end StablePlan
