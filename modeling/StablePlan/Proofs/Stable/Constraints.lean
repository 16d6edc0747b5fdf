import StablePlan.Proofs.Results
import StablePlan.Proofs.Stable.Solve

/-!
Models violate no constraint. A search hands over only what its clauses have nothing left to say
about, so the body of a constraint does not hold in it. This is so whatever the weights are, while
stability needs weights that are not negative.
-/

namespace StablePlan

open Assignment

variable {p : Problem} {a : Assignment} {m : Model} {max : Nat} {l : Literal}
  {body : List Literal}

theorem Model.holds_positive {m : Model} {a : Nat} (ha : a ≠ 0) :
    m.holds (.positive a) = true ↔ a ∈ m.trueSet := by
  simp [holds, trueSet, Literal.atom, Literal.positive, Literal.isPositive, Nat.pos_of_ne_zero ha]

theorem Assignment.Valid.holds_of_toModel (hv : a.Valid max) (htotal : a.unassigned.size = 0)
    (hr : InRange max l.atom) (h : a.toModel.holds l) : a.holds l := by
  obtain ⟨v, hvalue⟩ := Option.ne_none_iff_exists'.mp (hv.atomValue_ne_none htotal hr)
  unfold Model.holds at h
  rw [a.isTrue_toModel, hvalue] at h
  unfold holds value
  rw [hvalue]
  simpa using h

theorem Assignment.not_fails_of_holds (h : a.holds l) : ¬a.fails l := by
  unfold holds fails at *
  simp_all

/-- The body of a constraint does not hold in what a search offers. -/
theorem Problem.Offers.exists_not_holds (hp : p.Ranged) (h : p.Offers m)
    (hc : ⟨false, [], body, none⟩ ∈ p.clauses) : ∃ l ∈ body, ¬m.holds l := by
  obtain ⟨b, ⟨hv, htotal⟩, hsettled, rfl⟩ := h.settled
  by_contra hall
  have hholds : ∀ l ∈ body, b.holds l := fun l hl =>
    hv.holds_of_toModel htotal ((hp.clauses _ hc).body l hl)
      (by_contra fun hnot => hall ⟨l, hl, hnot⟩)
  have hvalue : Clause.bodyValue ⟨false, [], body, none⟩ b = some true := by
    have hfails : ¬body.any b.fails := by
      simp only [List.any_eq_true, not_exists, not_and]
      exact fun l hl hfail => not_fails_of_holds (hholds l hl) hfail
    unfold Clause.bodyValue
    rw [if_neg hfails]
    exact if_pos (List.all_eq_true.mpr hholds)
  have hpropagate := hsettled _ hc
  unfold Clause.propagate Clause.headValue at hpropagate
  rw [hvalue] at hpropagate
  simp at hpropagate

theorem Clause.Ranged.mono {c : Clause} {n : Nat} (h : c.Ranged max) (hle : max ≤ n) :
    c.Ranged n :=
  ⟨fun x hx => (h.head x hx).mono hle, fun l hl => (h.body l hl).mono hle,
    fun s hs e he => (h.elements s hs e he).mono hle, h.normal⟩

namespace Reasoner

variable {r : Reasoner} {assumptions : List Literal} {report : SolveReport}

/-- Nothing is external, and all clauses are about atoms that were noted. -/
structure Ranged (r : Reasoner) : Prop where
  externals : r.externals = []
  clauses : ∀ c ∈ r.clauses.toList, c.Ranged r.maxAtom

theorem ranged_problem (hclauses : ∀ c ∈ r.clauses.toList, c.Ranged r.maxAtom)
    (assumptions : List Literal) : (r.problem false assumptions).Ranged := by
  refine ⟨hclauses, ?_⟩
  have hsize := (foldl_given (r.externals.filter (isGiven false assumptions))
    (Array.replicate (r.maxAtom + 1) false) 0).2
  simpa [Reasoner.problem] using hsize

theorem inRange_of_checkAssumptions (h : assumptions.forM r.checkAssumption = .ok ()) :
    ∀ l ∈ assumptions, InRange r.maxAtom l.atom := by
  induction assumptions with
  | nil => simp
  | cons l ls ih =>
      rw [List.forM_eq_forM, List.forM_cons] at h
      unfold checkAssumption at h
      split at h
      · cases h
      · split at h
        · cases h
        · refine List.forall_mem_cons.mpr ⟨⟨?_, ?_⟩, ih h⟩
          · omega
          · omega

theorem checkAssumptions_of_solve (hsolve : r.solve assumptions = .ok report) :
    assumptions.forM r.checkAssumption = .ok () := by
  unfold solve at hsolve
  obtain ⟨_, hcheck, -⟩ := exists_of_bind_eq_ok hsolve
  exact hcheck

/-- A model that comes back was offered by the search, and what the search starts from holds in
it. -/
theorem offers_of_solve (hp : (r.problem false assumptions).Ranged)
    (hexternals : ∀ e ∈ r.externals, InRange r.maxAtom e.1)
    (hsolve : r.solve assumptions = .ok report) (hresult : report.result = .satisfiable m) :
    (r.problem false assumptions).Offers m ∧
      ∀ l ∈ r.root false assumptions, l.HoldsIn m.trueSet m.trueSet := by
  have hcheck := checkAssumptions_of_solve hsolve
  have hroot : ∀ l ∈ r.root false assumptions, InRange r.maxAtom l.atom :=
    inRange_root hexternals (inRange_of_checkAssumptions hcheck)
  obtain ⟨ms, hms⟩ := Problem.searched_search hp r.limit hroot takeFirst none
  have hvisits := hms.visits
  rw [visitAll_takeFirst] at hvisits
  unfold solve at hsolve
  rw [hcheck] at hsolve
  obtain rfl := Except.ok.inj hsolve
  dsimp only at hresult
  generalize (r.problem false assumptions).search r.limit (r.root false assumptions) takeFirst
    none = search at hms hvisits hresult
  obtain ⟨b, decisions, found, flow⟩ := search
  cases found with
  | none => cases flow <;> cases hresult
  | some m' =>
      obtain rfl := SolveResult.satisfiable.inj hresult
      -- The first model that was handed over is the one that comes back.
      cases ms with
      | nil => cases hvisits
      | cons m ms =>
          obtain ⟨rfl, -⟩ : m = m' ∧ _ := (Prod.mk.inj hvisits).imp_left Option.some.inj
          exact hms.offers m List.mem_cons_self

theorem Ranged.problem (h : r.Ranged) (assumptions : List Literal) :
    (r.problem false assumptions).Ranged :=
  ranged_problem h.clauses assumptions

/-- No constraint is violated by a model that comes back. -/
theorem Ranged.exists_not_holds (h : r.Ranged) (hsolve : r.solve assumptions = .ok report)
    (hresult : report.result = .satisfiable m)
    (hc : ⟨false, [], body, none⟩ ∈ r.clauses.toList) : ∃ l ∈ body, ¬m.holds l :=
  (offers_of_solve (h.problem assumptions) (by simp [h.externals]) hsolve
    hresult).1.exists_not_holds (h.problem assumptions) hc

end Reasoner

end StablePlan
