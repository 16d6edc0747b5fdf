import Mathlib.Data.List.Nodup
import Mathlib.Data.Set.Function
import StablePlan.Proofs.Program.Renaming

/-!
New atoms for conditions. A program is extended by rules of which each derives a new atom from a
condition about old atoms. The stable sets of the extension are those of the program, each with the
new atoms whose conditions hold in it: cut to the old atoms they are stable sets of the program, no
two of them the same and none of the program left out.
-/

namespace StablePlan

variable {D E X Y : Set Nat}

/-! ### What depends on some atoms only -/

theorem Literal.holdsIn_congr {l : Literal} (hD : l.atom ∈ D ↔ l.atom ∈ E)
    (hX : l.atom ∈ X ↔ l.atom ∈ Y) : l.HoldsIn D X ↔ l.HoldsIn E Y := by
  unfold HoldsIn
  split
  · exact hD
  · exact not_congr hX

namespace Clause

variable {c : Clause}

theorem bodyHolds_congr (hD : ∀ a ∈ c.atoms, a ∈ D ↔ a ∈ E) (hX : ∀ a ∈ c.atoms, a ∈ X ↔ a ∈ Y) :
    BodyHolds c.body c.sum D X ↔ BodyHolds c.body c.sum E Y := by
  have hliteral : ∀ l : Literal, l.atom ∈ c.atoms → (l.HoldsIn D X ↔ l.HoldsIn E Y) :=
    fun l hl => Literal.holdsIn_congr (hD _ hl) (hX _ hl)
  refine and_congr (forall₂_congr fun l hl => hliteral l (mem_atoms_of_body hl))
    (forall₂_congr fun s hs => ?_)
  have hweight : s.weightIn D X = s.weightIn E Y := by
    unfold WeightSum.weightIn
    congr 1
    refine List.map_congr_left fun e he => ?_
    rw [hliteral e.1 (mem_atoms_of_sum hs he)]
  rw [hweight]

theorem respects_congr (hD : ∀ a ∈ c.atoms, a ∈ D ↔ a ∈ E) (hX : ∀ a ∈ c.atoms, a ∈ X ↔ a ∈ Y) :
    c.Respects D X ↔ c.Respects E Y := by
  unfold Respects
  refine imp_congr (bodyHolds_congr hD hX) ?_
  by_cases hchoice : c.choice = true
  · rw [if_pos hchoice, if_pos hchoice]
    exact forall₂_congr fun h hh =>
      imp_congr (hX h (mem_atoms_of_head hh)) (hD h (mem_atoms_of_head hh))
  · rw [if_neg hchoice, if_neg hchoice]
    exact exists_congr fun h => and_congr_right fun hh => hD h (mem_atoms_of_head hh)

end Clause

namespace Theory

variable {t : Theory} {A : Set Nat}

/-- Everything that a theory says is about these atoms. -/
structure IsAbout (t : Theory) (A : Set Nat) : Prop where
  clauses : ∀ c ∈ t.clauses, ∀ a ∈ c.atoms, a ∈ A
  given : t.given ⊆ A
  facts : t.facts ⊆ A
  banned : t.banned ⊆ A
  required : t.required ⊆ A

theorem IsAbout.models_congr (hA : t.IsAbout A) (hD : D ∩ A = E ∩ A) (hX : X ∩ A = Y ∩ A)
    (h : t.Models D X) : t.Models E Y := by
  have hmemD : ∀ a ∈ A, a ∈ D ↔ a ∈ E := fun a ha => by
    simpa [ha] using Set.ext_iff.mp hD a
  have hmemX : ∀ a ∈ A, a ∈ X ↔ a ∈ Y := fun a ha => by
    simpa [ha] using Set.ext_iff.mp hX a
  refine ⟨fun c hc => ?_, fun a ha haY => ?_, fun a ha => ?_, fun a ha haE => ?_, fun a ha => ?_⟩
  · exact (Clause.respects_congr (fun a ha => hmemD a (hA.clauses c hc a ha))
      fun a ha => hmemX a (hA.clauses c hc a ha)).mp (h.clauses c hc)
  · exact (hmemD a (hA.given ha)).mp (h.given a ha ((hmemX a (hA.given ha)).mpr haY))
  · exact (hmemD a (hA.facts ha)).mp (h.facts a ha)
  · exact h.banned a ha ((hmemD a (hA.banned ha)).mpr haE)
  · exact (hmemX a (hA.required ha)).mp (h.required a ha)

/-- A stable set has only atoms that the theory is about. -/
theorem IsStable.subset (h : t.IsStable X) (hA : t.IsAbout A) : X ⊆ A := by
  have hcut : t.Models (X ∩ A) X := hA.models_congr (by simp) rfl h.model
  exact (h.least _ Set.inter_subset_left hcut).trans Set.inter_subset_right

end Theory

/-! ### Definitions of new atoms -/

/-- An atom, and the condition from which it is derived. -/
structure Definition where
  atom : Nat
  condition : List Literal
  deriving DecidableEq

namespace Definition

def HoldsIn (d : Definition) (D X : Set Nat) : Prop := ∀ l ∈ d.condition, l.HoldsIn D X

def clause (d : Definition) : Clause := ⟨false, [d.atom], d.condition, none⟩

variable {d : Definition} {A : Set Nat}

theorem HoldsIn.mono (h : d.HoldsIn D X) (hDE : D ⊆ E) : d.HoldsIn E X :=
  fun l hl => (h l hl).mono hDE

theorem holdsIn_congr (hd : ∀ l ∈ d.condition, l.atom ∈ A) (hD : D ∩ A = E ∩ A)
    (hX : X ∩ A = Y ∩ A) : d.HoldsIn D X ↔ d.HoldsIn E Y := by
  refine forall₂_congr fun l hl => Literal.holdsIn_congr ?_ ?_
  · simpa [hd l hl] using Set.ext_iff.mp hD l.atom
  · simpa [hd l hl] using Set.ext_iff.mp hX l.atom

theorem respects_clause_iff : d.clause.Respects D X ↔ (d.HoldsIn D X → d.atom ∈ D) := by
  simp [Clause.Respects, BodyHolds, clause, HoldsIn]

end Definition

/-- The atoms whose conditions hold. -/
def definedIn (ds : List Definition) (D X : Set Nat) : Set Nat :=
  {a | ∃ d ∈ ds, d.HoldsIn D X ∧ d.atom = a}

/-- Definitions of different atoms that are not among the given ones, by conditions that are. -/
structure AreNew (ds : List Definition) (A : Set Nat) : Prop where
  condition : ∀ d ∈ ds, ∀ l ∈ d.condition, l.atom ∈ A
  fresh : ∀ d ∈ ds, d.atom ∉ A
  apart : (ds.map Definition.atom).Nodup

namespace AreNew

variable {ds : List Definition} {A : Set Nat}

theorem eq_of_atom_eq (h : AreNew ds A) {d d' : Definition} (hd : d ∈ ds) (hd' : d' ∈ ds)
    (heq : d.atom = d'.atom) : d = d' :=
  List.inj_on_of_nodup_map h.apart hd hd' heq

/-- The new atoms do not count among the old ones. -/
theorem union_definedIn_inter (h : AreNew ds A) (D E Y : Set Nat) :
    (D ∪ definedIn ds E Y) ∩ A = D ∩ A := by
  ext a
  constructor
  · rintro ⟨ha | ⟨d, hd, -, rfl⟩, hA⟩
    · exact ⟨ha, hA⟩
    · exact absurd hA (h.fresh d hd)
  · rintro ⟨ha, hA⟩
    exact ⟨Or.inl ha, hA⟩

theorem definedIn_congr (h : AreNew ds A) (hD : D ∩ A = E ∩ A) (hX : X ∩ A = Y ∩ A) :
    definedIn ds D X = definedIn ds E Y := by
  ext a
  refine exists_congr fun d => and_congr_right fun hd => and_congr_left fun _ => ?_
  exact Definition.holdsIn_congr (h.condition d hd) hD hX

end AreNew

namespace Theory

variable {t : Theory} {ds : List Definition} {A : Set Nat}

/-- A theory with the rules of definitions. -/
def extend (t : Theory) (ds : List Definition) : Theory :=
  { t with clauses := t.clauses ∪ {c | ∃ d ∈ ds, c = d.clause} }

theorem models_extend_iff : (t.extend ds).Models D X ↔
    t.Models D X ∧ ∀ d ∈ ds, d.HoldsIn D X → d.atom ∈ D := by
  constructor
  · intro h
    exact ⟨⟨fun c hc => h.clauses c (Or.inl hc), h.given, h.facts, h.banned, h.required⟩,
      fun d hd => Definition.respects_clause_iff.mp (h.clauses _ (Or.inr ⟨d, hd, rfl⟩))⟩
  · rintro ⟨h, hds⟩
    refine ⟨?_, h.given, h.facts, h.banned, h.required⟩
    rintro c (hc | ⟨d, hd, rfl⟩)
    · exact h.clauses c hc
    · exact Definition.respects_clause_iff.mpr (hds d hd)

/-- A model is extended by the new atoms whose conditions hold. -/
theorem IsAbout.models_extend (hA : t.IsAbout A) (hds : AreNew ds A) (h : t.Models D X) :
    (t.extend ds).Models (D ∪ definedIn ds D X) X := by
  have hcut := hds.union_definedIn_inter D D X
  refine models_extend_iff.mpr ⟨hA.models_congr hcut.symm rfl h, fun d hd hholds => Or.inr ?_⟩
  exact ⟨d, hd, (Definition.holdsIn_congr (hds.condition d hd) hcut rfl).mp hholds, rfl⟩

/-- A stable set of the extension is its old part with the new atoms whose conditions hold. -/
theorem IsStable.eq_union_definedIn (h : (t.extend ds).IsStable X) (hA : t.IsAbout A)
    (hds : AreNew ds A) : X = X ∩ A ∪ definedIn ds (X ∩ A) (X ∩ A) := by
  have hcut : X ∩ A ∩ A = X ∩ A := by simp
  have hdefined : definedIn ds (X ∩ A) (X ∩ A) = definedIn ds (X ∩ A) X :=
    hds.definedIn_congr rfl hcut
  obtain ⟨hmodel, hall⟩ := models_extend_iff.mp h.model
  have hsub : X ∩ A ∪ definedIn ds (X ∩ A) X ⊆ X := by
    rintro a (⟨ha, -⟩ | ⟨d, hd, hholds, rfl⟩)
    · exact ha
    · exact hall d hd (hholds.mono Set.inter_subset_left)
  rw [hdefined]
  refine Set.Subset.antisymm (h.least _ hsub ?_) hsub
  exact hA.models_extend hds (hA.models_congr hcut.symm rfl hmodel)

theorem IsStable.of_extend (h : (t.extend ds).IsStable X) (hA : t.IsAbout A)
    (hds : AreNew ds A) : t.IsStable (X ∩ A) := by
  have hcut : X ∩ A ∩ A = X ∩ A := by simp
  obtain ⟨hmodel, hall⟩ := models_extend_iff.mp h.model
  refine ⟨hA.models_congr hcut.symm hcut.symm hmodel, fun D hD hDmodel a ha => ?_⟩
  have hDX : t.Models D X := hA.models_congr rfl hcut hDmodel
  have hsub : D ∪ definedIn ds D X ⊆ X := by
    rintro b (hb | ⟨d, hd, hholds, rfl⟩)
    · exact (hD hb).1
    · exact hall d hd (hholds.mono (hD.trans Set.inter_subset_left))
  rcases h.least _ hsub (hA.models_extend hds hDX) ha.1 with hmem | ⟨d, hd, -, rfl⟩
  · exact hmem
  · exact absurd ha.2 (hds.fresh d hd)

theorem IsStable.extend (h : t.IsStable X) (hA : t.IsAbout A) (hds : AreNew ds A) :
    (t.extend ds).IsStable (X ∪ definedIn ds X X) := by
  have hcut := hds.union_definedIn_inter X X X
  have hdefined : definedIn ds X (X ∪ definedIn ds X X) = definedIn ds X X :=
    hds.definedIn_congr rfl hcut
  refine ⟨?_, fun D hD hDmodel => ?_⟩
  · have hmodel := hA.models_extend hds (hA.models_congr rfl hcut.symm h.model)
    rwa [hdefined] at hmodel
  · obtain ⟨hmodel, hall⟩ := models_extend_iff.mp hDmodel
    have hDA : D ∩ A ⊆ X := by
      refine (Set.inter_subset_inter_left A hD).trans ?_
      rw [hcut]
      exact Set.inter_subset_left
    have hold : X ⊆ D := (h.least _ hDA (hA.models_congr (by simp) hcut hmodel)).trans
      Set.inter_subset_left
    rintro a (ha | ⟨d, hd, hholds, rfl⟩)
    · exact hold ha
    · refine hall d hd (Definition.HoldsIn.mono ?_ hold)
      exact (Definition.holdsIn_congr (hds.condition d hd) rfl hcut).mpr hholds

/-- The second theory has the stable sets of the first one, each of them once, with what is true of
the new atoms added: one of them is true exactly when its condition holds. -/
structure Defines (t u : Theory) (A : Set Nat) (ds : List Definition) : Prop where
  bijOn : Set.BijOn (· ∩ A) {X | u.IsStable X} {X | t.IsStable X}
  mem_iff : ∀ X, u.IsStable X → ∀ d ∈ ds, d.atom ∈ X ↔ d.HoldsIn X X

theorem defines_extend (hA : t.IsAbout A) (hds : AreNew ds A) : t.Defines (t.extend ds) A ds := by
  refine ⟨⟨fun X hX => IsStable.of_extend hX hA hds, fun X hX Y hY heq => ?_, fun X hX => ?_⟩, ?_⟩
  · have hX' := IsStable.eq_union_definedIn hX hA hds
    have hY' := IsStable.eq_union_definedIn hY hA hds
    dsimp only at heq
    rw [hX', hY', heq]
  · refine ⟨X ∪ definedIn ds X X, IsStable.extend hX hA hds, ?_⟩
    exact (hds.union_definedIn_inter X X X).trans (Set.inter_eq_left.mpr (IsStable.subset hX hA))
  · intro X hX d hd
    have hcut : X ∩ A ∩ A = X ∩ A := by simp
    refine ⟨fun hmem => ?_, (models_extend_iff.mp hX.model).2 d hd⟩
    rw [hX.eq_union_definedIn hA hds] at hmem
    rcases hmem with ⟨-, hmem⟩ | ⟨d', hd', hholds, heq⟩
    · exact absurd hmem (hds.fresh d hd)
    · rw [hds.eq_of_atom_eq hd' hd heq] at hholds
      exact (Definition.holdsIn_congr (hds.condition d hd) hcut hcut).mp hholds

end Theory

end StablePlan
