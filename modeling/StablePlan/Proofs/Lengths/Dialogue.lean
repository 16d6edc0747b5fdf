import Mathlib.Logic.Function.Iterate
import Mathlib.Order.Monotone.Basic
import StablePlan.Lengths.Strategy

/-!
Talking to a strategy: it is started, told how each attempt ended, and asked for the next length
every time. What it tries it tells apart by a key, a queue by the length and a pool by the index of
a run, for runs at one length are not the same run.
-/

namespace StablePlan

/-- The lengths of a queue, one after the other and without regard to the limit. -/
def LengthQueue.candidate (q : LengthQueue) (i : Nat) : Nat := q.growth.grow^[i] q.start

/-- The lengths of a pool, in steps of the same size as far as lengths go. -/
def Pool.candidate (p : Pool) (i : Nat) : Nat := min (p.start + p.step * i) maxLength

/-- The runs of a pool that it has not given up. -/
def Pool.held (p : Pool) : List Run := p.pending ++ p.runs

namespace Strategy

def limit : Strategy → Nat
  | .queue q => q.limit
  | .pool p => p.limit

def propagatesUnsat : Strategy → Bool
  | .queue q => q.propagateUnsat
  | .pool p => p.propagateUnsat

def candidate : Strategy → Nat → Nat
  | .queue q => q.candidate
  | .pool p => p.candidate

/-- The keys of all that is not given up. -/
def held : Strategy → List Nat
  | .queue q => q.lengths
  | .pool p => p.held.map Run.index

/-- The key of what is tried now. -/
def tried? : Strategy → Option Nat
  | .queue q => q.lengths.head?
  | .pool p => p.runs.head?.map Run.index

/-- A strategy that nothing was tried with. Lengths start within their range. -/
inductive Fresh : Strategy → Prop
  | queue {start size limit : Nat} {growth : Growth} {propagateUnsat : Bool} :
      start ≤ maxLength → Fresh (.queue (.make start size growth limit propagateUnsat))
  | pool {start step limit size : Nat} {propagateUnsat : Bool} {policy : Policy} :
      Fresh (.pool (.make start step limit size propagateUnsat policy))

end Strategy

/-- One thing that was tried, and how that ended. -/
structure Trial where
  key : Nat
  length : Nat
  outcome : Outcome
  deriving DecidableEq

/-- How the last trial of a key ended. -/
def latest? (trials : List Trial) (key : Nat) : Option Outcome :=
  (trials.reverse.find? (·.key = key)).map Trial.outcome

def Refuted (trials : List Trial) (length : Nat) : Prop :=
  ∃ t ∈ trials, t.length = length ∧ t.outcome = .unsatisfiable

/-- A trial of the key was left without an answer. -/
def Postponed (trials : List Trial) (key : Nat) : Prop :=
  ∃ t ∈ trials, t.key = key ∧ t.outcome ≠ .unsatisfiable

structure Dialogue where
  proposal : Option Nat
  strategy : Strategy
  trials : List Trial := []

namespace Dialogue

def start (s : Strategy) : Dialogue := ⟨(s.next none).1, (s.next none).2, []⟩

/-- Without a proposal there is nothing that an outcome would be about. -/
def trial? (d : Dialogue) (outcome : Outcome) : Option Trial :=
  d.proposal.bind fun length => d.strategy.tried?.map fun key => ⟨key, length, outcome⟩

def tell (d : Dialogue) (outcome : Outcome) : Dialogue where
  proposal := (d.strategy.next (some outcome)).1
  strategy := (d.strategy.next (some outcome)).2
  trials := d.trials ++ (d.trial? outcome).toList

end Dialogue

/-- The state of things after outcomes in turn. -/
def Strategy.after (s : Strategy) (outcomes : List Outcome) : Dialogue :=
  outcomes.foldl Dialogue.tell (.start s)

/-- Every outcome is about a proposal. -/
def Strategy.Answered (s : Strategy) (outcomes : List Outcome) : Prop :=
  ∀ before outcome rest, outcomes = before ++ outcome :: rest → (s.after before).proposal ≠ none

variable {trials : List Trial} {t : Trial} {key length : Nat}

theorem latest?_concat (trials : List Trial) (t : Trial) (key : Nat) :
    latest? (trials ++ [t]) key = if t.key = key then some t.outcome else latest? trials key := by
  unfold latest?
  rw [List.reverse_append, List.reverse_singleton, List.singleton_append, List.find?_cons]
  by_cases hkey : t.key = key <;> simp [hkey]

theorem exists_trial_of_latest? {outcome : Outcome} (h : latest? trials key = some outcome) :
    ∃ t ∈ trials, t.key = key ∧ t.outcome = outcome := by
  obtain ⟨t, ht, rfl⟩ := Option.map_eq_some_iff.mp h
  exact ⟨t, List.mem_reverse.mp (List.mem_of_find?_eq_some ht),
    by simpa using List.find?_some ht, rfl⟩

theorem refuted_concat : Refuted (trials ++ [t]) length ↔
    Refuted trials length ∨ t.length = length ∧ t.outcome = .unsatisfiable := by
  unfold Refuted
  simp only [List.mem_append, List.mem_singleton, or_and_right, exists_or, exists_eq_left]

theorem Refuted.concat (h : Refuted trials length) (t : Trial) :
    Refuted (trials ++ [t]) length := refuted_concat.mpr (Or.inl h)

theorem not_refuted_nil : ¬Refuted [] length := by simp [Refuted]

theorem Postponed.concat (h : Postponed trials key) (t : Trial) :
    Postponed (trials ++ [t]) key := by
  obtain ⟨u, hu, hkey, houtcome⟩ := h
  exact ⟨u, by simp [hu], hkey, houtcome⟩

namespace Strategy

variable {s : Strategy} {outcomes : List Outcome}

theorem after_concat (s : Strategy) (outcomes : List Outcome) (outcome : Outcome) :
    s.after (outcomes ++ [outcome]) = (s.after outcomes).tell outcome := by
  unfold after
  rw [List.foldl_append]
  rfl

theorem Answered.concat {outcome : Outcome} (h : s.Answered (outcomes ++ [outcome])) :
    s.Answered outcomes ∧ (s.after outcomes).proposal ≠ none := by
  refine ⟨fun before o rest heq => ?_, h outcomes outcome [] rfl⟩
  exact h before o (rest ++ [outcome]) (by simp [heq])

theorem answered_nil (s : Strategy) : s.Answered [] := fun before _ _ heq => by
  simp at heq

theorem Answered.snoc (h : s.Answered outcomes) (hproposal : (s.after outcomes).proposal ≠ none)
    (outcome : Outcome) : s.Answered (outcomes ++ [outcome]) := by
  intro before o rest heq
  rcases List.eq_nil_or_concat rest with rfl | ⟨rest', last, rfl⟩
  · exact List.append_inj_left' heq rfl ▸ hproposal
  · rw [List.concat_eq_append, ← List.cons_append, ← List.append_assoc] at heq
    exact h before o rest' (List.append_inj_left' heq rfl)

end Strategy

end StablePlan
