import StablePlan.Proofs.Plan.Deciding

/-!
Plans. A plan of some length is a trajectory that reaches the goal: the query holds where it has to
and nowhere else, skip holds at the steps beyond the plan, and every other unprimed external is
false. The runs that a search looks for are the plans.
-/

namespace StablePlan

/-- The step at which a plan of some length within `n` steps has to reach the goal. -/
def Template.goal (t : Template) (skip : Symbol) (n length : Nat) : Nat :=
  if (t.external? skip).isSome then n else length

/-- What is wanted of a handle is said of its label. -/
theorem Template.Laid.wants_iff {t : Template} {query skip symbol : Symbol} {q n length s k : Nat}
    (h : t.Laid) (hq : t.external? query = some q) (hk : t.external? symbol = some k) :
    Wants q (t.external? skip) n length s k ↔
      symbol = query ∧ s = t.goal skip n length ∨ symbol = skip ∧ length < s := by
  have hhandle : ∀ {other j}, t.external? other = some j → (k = j ↔ symbol = other) := by
    intro other j hother
    constructor
    · rintro rfl
      exact h.symbol_eq _ _ _ (mem_of_external?_eq_some hk) (mem_of_external?_eq_some hother)
    · rintro rfl
      exact Option.some.inj (hk.symm.trans hother)
  unfold Wants goal
  cases hskip : t.external? skip with
  | some j => simp [hhandle hq, hhandle hskip]
  | none =>
      have hne : symbol ≠ skip := by
        rintro rfl
        simp [hk] at hskip
      simp [hhandle hq, hne]

/-- A trajectory that reaches the goal. -/
structure IsPlan (log : List Observation) (t : Template) (query skip : Symbol) (n length : Nat)
    (S : Nat → Set Nat) : Prop extends Trajectory log t n S where
  within : length ≤ n
  started : 1 ≤ t.goal skip n length
  steered : ∀ symbol a, IsExternal log symbol a → ¬symbol.isPrimed → ∀ s, 1 ≤ s → s ≤ n →
    (a ∈ S s ↔ symbol = query ∧ s = t.goal skip n length ∨ symbol = skip ∧ length < s)

namespace Compiled

variable {log : List Observation} {d : Draft} {b : Bands} {t : Template}
  {query skip symbol : Symbol} {q n length s k : Nat} {X : Set Nat} {S : Nat → Set Nat}

/-- What is wanted of the handle of an external is said of the external by its label. -/
theorem wants_iff (h : Compiled log d b t) (hq : t.external? query = some q)
    (hk : (symbol, k) ∈ t.externals) : Wants q (t.external? skip) n length s k ↔
      symbol = query ∧ s = t.goal skip n length ∨ symbol = skip ∧ length < s :=
  h.laid.wants_iff hq (h.external?_eq_some_iff.mpr hk)

/-- A steered run reads as a plan. -/
theorem isPlan_of_steered (h : Compiled log d b t) (hexact : (Draft.scopeOf log).exact)
    (hq : t.external? query = some q) (hX : t.Steered log q (t.external? skip) n length X)
    (hwithin : length ≤ n) (hstarted : 1 ≤ t.goal skip n length) :
    IsPlan log t query skip n length (t.reads X) := by
  have htrajectory := h.trajectory_of_isRun hexact hX.run
  refine ⟨htrajectory, hwithin, hstarted, fun symbol a ha hprimed s hs hn => ?_⟩
  obtain ⟨k, hslot⟩ := h.slot?_of_external ha hprimed
  have hk : (symbol, k) ∈ t.externals := h.mem_externals_iff.mpr ⟨a, ha, hprimed, hslot⟩
  rw [h.mem_reads_handle hslot hs, hX.handles s k hs hn ⟨symbol, hk⟩, h.wants_iff hq hk]

/-- Every plan is read from a steered run. -/
theorem steered_of_isPlan (h : Compiled log d b t) (hexact : (Draft.scopeOf log).exact)
    (hq : t.external? query = some q) (hS : IsPlan log t query skip n length S) :
    t.Steered log q (t.external? skip) n length (runOf b t n S) := by
  refine ⟨h.isRun_runOf hexact hS.toTrajectory, fun s k hs hn hk => ?_⟩
  obtain ⟨symbol, hk⟩ := hk
  obtain ⟨a, ha, hprimed, hslot⟩ := h.mem_externals_iff.mp hk
  rw [h.mem_runOf_slot hslot hs hn, hS.steered symbol a ha hprimed s hs hn, h.wants_iff hq hk]

end Compiled

end StablePlan
