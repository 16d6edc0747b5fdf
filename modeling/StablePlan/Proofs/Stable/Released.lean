import StablePlan.Proofs.Stable.Constraints

/-!
Released externals. Their declared value demands that they are false, so they are false in every
model that comes back, except that a demand is dropped as soon as an assumption is about the atom.
So an assumption still makes a released external true, and nothing else does.
-/

namespace StablePlan

theorem Literal.eq_positive_of_isPositive {l : Literal} (h : l.isPositive) :
    l = .positive l.atom := by
  obtain ⟨raw⟩ := l
  simp only [isPositive, decide_eq_true_eq] at h
  simp only [positive, atom, Literal.mk.injEq]
  omega

namespace Reasoner

variable {r : Reasoner} {log : List Observation} {assumptions : List Literal} {atom : Nat}

theorem Formed.atoms (h : r.Formed log) : ∀ o ∈ log, ∀ atom ∈ o.atoms, InRange r.maxAtom atom := by
  obtain ⟨limit, hadds⟩ := h.exists_adds
  exact hadds.atoms

theorem Formed.inRange_external (h : r.Formed log) :
    ∀ e ∈ r.externals, InRange r.maxAtom e.1 := by
  rintro ⟨atom, value⟩ he
  have hmem := external_mem_of_declared? ((h.tabulates.mem_iff atom value).mp he)
  exact h.atoms _ hmem atom List.mem_cons_self

theorem Formed.ranged_problem (h : r.Formed log) (assumptions : List Literal) :
    (r.problem false assumptions).Ranged := by
  refine Reasoner.ranged_problem (fun c hc => ?_) assumptions
  obtain ⟨limit, hadds⟩ := h.exists_adds
  rw [hadds.clauses] at hc
  obtain ⟨o, ho, hc⟩ := List.mem_flatMap.mp hc
  exact o.ranged_of_mem_clauses (h.atoms o ho) hc

/-- What a model that comes back starts from: the assumptions, and the demands of the externals
that they do not name. -/
theorem Formed.root_holds (h : r.Formed log) {report : SolveReport} {m : Model}
    (hsolve : r.solve assumptions = .ok report) (hresult : report.result = .satisfiable m) :
    ∀ l ∈ r.root false assumptions, l.HoldsIn m.trueSet m.trueSet :=
  (offers_of_solve (h.ranged_problem assumptions) h.inRange_external hsolve hresult).2

/-- A released external demands to be false, unless it is named. -/
theorem Formed.negative_mem_root (h : r.Formed log) (hreleased : declared? log atom = some .release)
    (hnamed : ¬IsNamed assumptions atom) : .negative atom ∈ r.root false assumptions := by
  refine List.mem_append_right _ (List.mem_filterMap.mpr ⟨(atom, .release), ?_, ?_⟩)
  · exact (h.tabulates.mem_iff atom .release).mpr hreleased
  · unfold demand?
    rw [Bool.false_or, if_neg (mt isNamed_iff.mp hnamed)]

/-- In every state that calls lead to, whatever the weights and the limit are, an external that was
declared released last is true in a model that comes back exactly if it is assumed to be. -/
theorem released_isTrue_iff (h : r.Formed log) (hreleased : declared? log atom = some .release)
    {report : SolveReport} {m : Model} (hsolve : r.solve assumptions = .ok report)
    (hresult : report.result = .satisfiable m) :
    m.isTrue atom = true ↔ .positive atom ∈ assumptions := by
  have hroot := h.root_holds hsolve hresult
  constructor
  · intro htrue
    have hnamed : IsNamed assumptions atom := by
      by_contra hnot
      have hfalse := hroot _ (h.negative_mem_root hreleased hnot)
      exact (Literal.holdsIn_negative atom _ _).mp hfalse htrue
    obtain ⟨l, hl, rfl⟩ := hnamed
    -- A negative assumption would keep the atom false.
    have hholds := hroot l (List.mem_append_left _ hl)
    unfold Literal.HoldsIn at hholds
    split at hholds
    · rwa [← l.eq_positive_of_isPositive ‹_›]
    · exact absurd htrue hholds
  · intro hmem
    have hne : atom ≠ 0 := by
      have hexternal := external_mem_of_declared? hreleased
      exact (h.atoms _ hexternal atom List.mem_cons_self).1.ne'
    exact (Literal.holdsIn_positive hne _ _).mp (hroot _ (List.mem_append_left _ hmem))

/-- An external that is opened, released and named by no rule's head, with a weight below zero
elsewhere. -/
def releasing : List Statement :=
  [.external 1 .free, .rule ⟨true, [2], []⟩, .external 1 .release,
    .weightRule ⟨false, [3], 1, [(.positive 2, 2), (.positive 1, -1)]⟩]

theorem exists_report_of_toOption {result : SolveResult}
    (h : (r.solve assumptions).toOption.map SolveReport.result = some result) :
    ∃ report, r.solve assumptions = .ok report ∧ report.result = result := by
  cases hsolve : r.solve assumptions with
  | error e => simp [hsolve, Except.toOption] at h
  | ok report => exact ⟨report, rfl, by simpa [hsolve, Except.toOption] using h⟩

theorem released_isTrue_iff_releasing :
    let r := (Call.load releasing).after (.empty .unlimited)
    ∃ report m, r.solve [.positive 3] = .ok report ∧ report.result = .satisfiable m ∧
      (m.isTrue 1 = true ↔ .positive 1 ∈ ([.positive 3] : List Literal)) := by
  intro r
  have hformed : r.Formed _ := .call (.load releasing) (.empty .unlimited)
  have hvalue : (r.solve [.positive 3]).toOption.map SolveReport.result =
      some (.satisfiable ⟨#[false, false, true, true]⟩) := by decide +kernel
  obtain ⟨report, hsolve, hresult⟩ := exists_report_of_toOption hvalue
  exact ⟨report, _, hsolve, hresult, released_isTrue_iff hformed rfl hsolve hresult⟩

/-- Released is not false for good: an assumption makes the atom true. -/
theorem released_assumed :
    let call : Call := .load [.external 1 .release]
    let r := call.after (.empty .unlimited)
    let log := call.logged (.empty .unlimited)
    r.Formed log ∧ declared? log 1 = some .release ∧
      (∀ o ∈ log, ∀ c ∈ o.rule?, 1 ∉ c.head) ∧
      ∃ report m, r.solve [.positive 1] = .ok report ∧ report.result = .satisfiable m ∧
        m.isTrue 1 = true := by
  intro call r log
  have hvalue : (r.solve [.positive 1]).toOption.map SolveReport.result =
      some (.satisfiable ⟨#[false, true]⟩) := by decide +kernel
  obtain ⟨report, hsolve, hresult⟩ := exists_report_of_toOption hvalue
  exact ⟨.call call (.empty .unlimited), rfl, by decide, report, _, hsolve, hresult, rfl⟩

end Reasoner

end StablePlan
