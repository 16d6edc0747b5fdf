import StablePlan.Plan.Attempt

/-!
How calls end. A call comes back with a result, or it fails and says what state it leaves; a
statement about a call speaks of both.
-/

namespace StablePlan

variable {α γ ε σ : Type}

/-- What is true of the result of a call, or of its error and the state that is left. -/
def Finishes (x : Except (ε × σ) α) (P : α → Prop) (Q : ε → σ → Prop) : Prop :=
  match x with
  | .ok a => P a
  | .error (e, s) => Q e s

namespace Finishes

variable {x : Except (ε × σ) α} {P P' : α → Prop} {Q Q' : ε → σ → Prop}

theorem mono (h : Finishes x P Q) (hP : ∀ a, P a → P' a) (hQ : ∀ e s, Q e s → Q' e s) :
    Finishes x P' Q' := by
  cases x with
  | ok a => exact hP a h
  | error result => exact hQ result.1 result.2 h

/-- One call after the other. -/
theorem bind {f : α → Except (ε × σ) γ} {R : γ → Prop} (h : Finishes x P Q)
    (hf : ∀ a, P a → Finishes (f a) R Q) : Finishes (x >>= f) R Q := by
  cases x with
  | ok a => exact hf a h
  | error result => exact h

/-- What is known of a call is true of the state that it leads to. -/
theorem of_eq {x : Except (ε × α) α} {a : α} (h : Finishes x P fun _ => P)
    (ha : Finishes x (· = a) fun _ s => s = a) : P a := by
  cases x with
  | ok b => exact (show b = a from ha) ▸ h
  | error result => exact (show result.2 = a from ha) ▸ h

/-- Call after call, as long as each one keeps what the next one needs. -/
theorem foldlM {f : σ → α → Except (ε × σ) σ} {I : σ → Prop} {xs : List α} {s : σ}
    (hstep : ∀ s, ∀ x ∈ xs, I s → Finishes (f s x) I Q) (h : I s) :
    Finishes (xs.foldlM f s) I Q := by
  induction xs generalizing s with
  | nil => exact h
  | cons x xs ih =>
      rw [List.foldlM_cons]
      exact (hstep s x List.mem_cons_self h).bind fun s' hs' =>
        ih (fun s y hy => hstep s y (List.mem_cons_of_mem x hy)) hs'

end Finishes

theorem bind_of_error {x : Except ε α} {e : ε} (h : x = .error e) (f : α → Except ε γ) :
    x >>= f = .error e := by
  rw [h]
  rfl

theorem bind_of_ok {x : Except ε α} {a : α} (h : x = .ok a) (f : α → Except ε γ) :
    x >>= f = f a := by
  rw [h]
  rfl

/-- Values for all entries, or the error of the first one that has none. -/
theorem mapM_error_or_ok (f : α → Except ε γ) (xs : List α) :
    (∃ x ∈ xs, ∃ e, f x = .error e ∧ xs.mapM f = .error e) ∨
      ∃ ys, xs.mapM f = .ok ys ∧ xs.map f = ys.map .ok := by
  induction xs with
  | nil => exact Or.inr ⟨[], rfl, rfl⟩
  | cons x xs ih =>
      simp only [List.mapM_cons]
      cases hx : f x with
      | error e => exact Or.inl ⟨x, List.mem_cons_self, e, hx, rfl⟩
      | ok y =>
          rcases ih with ⟨x', hmem, e, he, herror⟩ | ⟨ys, hok, hmap⟩
          · exact Or.inl ⟨x', List.mem_cons_of_mem _ hmem, e, he, bind_of_error herror _⟩
          · exact Or.inr ⟨y :: ys, bind_of_ok hok _, by rw [List.map_cons, List.map_cons, hx, hmap]⟩

namespace Planner

variable {β κ : Type} {p : Planner β κ} {s : Nat}

/-- The planner that a call leaves, also if it fails. -/
def after {α : Type} : Except (Failure β κ) (α × Planner β κ) → Planner β κ
  | .ok (_, p) => p
  | .error (_, p) => p

theorem after_of_finishes {α : Type} {x : Except (Failure β κ) (α × Planner β κ)}
    {I : Planner β κ → Prop} (h : Finishes x (fun r => I r.2) fun _ p => I p) : I (after x) := by
  cases x with
  | ok r => exact h
  | error r => exact h

variable [Backend β]

theorem outputLiteral?_ne_zero {u : Unrolling} {label : Symbol} {l : Literal}
    (h : u.outputLiteral? s label = some l) : l.atom ≠ 0 := by
  obtain ⟨entry, -, hl⟩ := Option.bind_eq_some_iff.mp h
  unfold Template.literal? Literal.checked at hl
  split at hl
  · rename_i hrange
    obtain rfl := Option.some.inj hl
    simp only [Literal.positive, Literal.atom, Int.natAbs_natCast]
    omega
  · cases hl

/-- The literal under which an atom is shown, if it is. -/
def shownLiteral (p : Planner β κ) (a : Nat × Symbol) : Except (Failure β κ) Literal :=
  match p.unrolling.outputLiteral? a.1 a.2 with
  | some l => .ok l
  | none => .error (.unshown a.1 a.2, p)

/-- Blocking fails for an atom that is not shown, and otherwise tells one constraint. -/
theorem block_cases (p : Planner β κ) (atoms : List (Nat × Symbol)) :
    (∃ a ∈ atoms, p.unrolling.outputLiteral? a.1 a.2 = none ∧
        p.block atoms = .error (.unshown a.1 a.2, p)) ∨
      ∃ body, atoms.map (fun a => p.unrolling.outputLiteral? a.1 a.2) = body.map some ∧
        p.block atoms = match Backend.addRule p.backend (.constraint body) with
          | .ok b => .ok { p with backend := b }
          | .error (e, b) => .error (.solve e, { p with backend := b }) := by
  unfold block
  rcases mapM_error_or_ok p.shownLiteral atoms with ⟨a, ha, e, he, herror⟩ | ⟨body, hok, hmap⟩
  · refine Or.inl ⟨a, ha, ?_⟩
    unfold shownLiteral at he
    split at he
    · cases he
    · rename_i hnone
      obtain rfl := Except.error.inj he
      exact ⟨hnone, bind_of_error herror _⟩
  · refine Or.inr ⟨body, ?_, bind_of_ok hok _⟩
    have hoption := congrArg (List.map Except.toOption) hmap
    rw [List.map_map, List.map_map] at hoption
    refine (List.map_congr_left fun a _ => ?_).trans hoption
    rw [Function.comp_apply]
    unfold shownLiteral
    cases p.unrolling.outputLiteral? a.1 a.2 <;> rfl

/-- The literals of a block are about atoms. -/
theorem ne_zero_of_mem_block {u : Unrolling} {atoms : List (Nat × Symbol)} {body : List Literal}
    (hbody : atoms.map (fun a => u.outputLiteral? a.1 a.2) = body.map some) {l : Literal}
    (hl : l ∈ body) : l.atom ≠ 0 := by
  have hmem : some l ∈ atoms.map fun a => u.outputLiteral? a.1 a.2 :=
    hbody ▸ List.mem_map_of_mem hl
  obtain ⟨a, -, ha⟩ := List.mem_map.mp hmem
  exact outputLiteral?_ne_zero ha

variable [ModelCheck κ]

/-- The planners that attempts lead to, however they end. -/
inductive Attempted (p₀ : Planner β κ) : Planner β κ → Prop
  | start : Attempted p₀ p₀
  | attempt {p : Planner β κ} (length : Nat) :
      Attempted p₀ p → Attempted p₀ (after (p.attempt length))

/-- One round of solving; an answer that is rejected and blocked leads to the rest. -/
def round (length : Nat) (rest : Planner β κ → Except (Failure β κ) (Attempt × Planner β κ))
    (p : Planner β κ) : Except (Failure β κ) (Attempt × Planner β κ) := do
  let (result, p) ← p.solveOnce
  match result with
  | .unsatisfiable => .ok (⟨length, .unsatisfiable, none⟩, p)
  | .unknown => .ok (⟨length, .unknown, none⟩, p)
  | .satisfiable m =>
    let answer := p.unrolling.answer m length
    match p.judge answer length with
    | (.accept, p) => .ok (⟨length, .satisfiable, some answer⟩, p.note (.model length answer))
    | (.reject atoms, p) =>
      let p := (p.note (.rejected length atoms)).countRejected
      if atoms.isEmpty then .ok (⟨length, .unknown, none⟩, p)
      else
        let p ← p.block atoms
        rest p

/-- What follows a blocked answer. -/
def resume (length : Nat) :
    Nat → Planner β κ → Except (Failure β κ) (Attempt × Planner β κ)
  | 0, p => .ok (⟨length, .unknown, none⟩, p.note (.gaveUp length p.retry.attempts))
  | retries + 1, p => solve length retries p

theorem solve_eq (length retries : Nat) (p : Planner β κ) :
    solve length retries p = p.round length (resume length retries) := by
  cases retries
  all_goals
    unfold solve round
    refine bind_congr fun ⟨result, p⟩ => ?_
    cases result with
    | unsatisfiable => rfl
    | unknown => rfl
    | satisfiable m =>
        dsimp only
        rcases p.judge (p.unrolling.answer m length) length with ⟨verdict, p⟩
        cases verdict <;> rfl

end Planner

end StablePlan
