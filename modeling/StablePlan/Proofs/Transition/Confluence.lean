import Mathlib.Order.Bounds.Basic
import StablePlan.Proofs.Transition.Remaining

/-!
Fitting does not depend on the order of what it is given. Whatever was queued, and however, a run
ends with the least closed knowledge that contains it, and it fails if there is none. What is left
of the rules follows from that.
-/

namespace StablePlan

/-- A call that queues atoms before a run: as false in every stable model, or as true. -/
inductive Assumption where
  | never (atoms : List Nat)
  | always (atoms : List Nat)
  deriving DecidableEq, Repr

namespace Assumption

def falsified : Assumption → List Nat
  | never atoms => atoms
  | always _ => []

def cautious : Assumption → List Nat
  | never _ => []
  | always atoms => atoms

end Assumption

namespace Fitting

def assume (f : Fitting) : Assumption → Fitting
  | .never atoms => f.assumeFalse atoms
  | .always atoms => f.assumeCautious atoms

/-- The fitting of a draft after some calls. -/
def assumingAll (d : Draft) (calls : List Assumption) : Fitting := calls.foldl assume (ofDraft d)

variable {d : Draft} {f f' g g' : Fitting} {S : Scope} {log : List Observation} {a b : Nat}
  {calls calls' : List Assumption} {goal : Resolution} {U V W : Resolution → Nat → Prop}

/-! ### What is queued -/

/-- Atoms are mentioned and queued, those that `W` says, and nothing else is done. -/
structure Queues (S : Scope) (log : List Observation) (W : Resolution → Nat → Prop)
    (f g : Fitting) : Prop where
  rest : ∃ entries, g.draft = { f.draft with entries }
  resolution : ∀ b, g.draft.resolution b = f.draft.resolution b
  coherent : f.Coherent S → g.Coherent S
  tidy : f.Tidy log → g.Tidy log
  facts : ∀ b, b ∈ g.facts ↔ b ∈ f.facts ∨ W .on b
  trueQueue : ∀ b, b ∈ g.trueQueue ↔ b ∈ f.trueQueue ∨ W .on b
  falseQueue : ∀ b, b ∈ g.falseQueue ↔ b ∈ f.falseQueue ∨ W .off b
  cautiousQueue : ∀ b, b ∈ g.cautiousQueue ↔ b ∈ f.cautiousQueue ∨ W .cautious b

namespace Queues

theorem trans (h : Queues S log U f g) (h' : Queues S log V g g')
    (hW : ∀ goal b, W goal b ↔ U goal b ∨ V goal b) : Queues S log W f g' := by
  refine ⟨?_, fun b => (h'.resolution b).trans (h.resolution b), h'.coherent ∘ h.coherent,
    h'.tidy ∘ h.tidy, fun b => ?_, fun b => ?_, fun b => ?_, fun b => ?_⟩
  · obtain ⟨entries, he⟩ := h.rest
    obtain ⟨entries', he'⟩ := h'.rest
    exact ⟨entries', by rw [he', he]⟩
  · rw [h'.facts, h.facts, hW, or_assoc]
  · rw [h'.trueQueue, h.trueQueue, hW, or_assoc]
  · rw [h'.falseQueue, h.falseQueue, hW, or_assoc]
  · rw [h'.cautiousQueue, h.cautiousQueue, hW, or_assoc]

theorem congr (h : Queues S log V f g) (hW : ∀ goal b, V goal b ↔ W goal b) :
    Queues S log W f g := by
  obtain rfl : V = W := by
    funext goal b
    exact propext (hW goal b)
  exact h

theorem foldl {α : Type} {step : Fitting → α → Fitting} {V : α → Resolution → Nat → Prop}
    (hstep : ∀ f x, Queues S log (V x) f (step f x)) (xs : List α) (f : Fitting) :
    Queues S log (fun goal b => ∃ x ∈ xs, V x goal b) f (xs.foldl step f) := by
  induction xs generalizing f with
  | nil => exact ⟨⟨_, rfl⟩, fun _ => rfl, id, id, by simp, by simp, by simp, by simp⟩
  | cons x xs ih => exact (hstep f x).trans (ih _) fun goal b => by simp

theorem mentioned (hassumes : Assumes S (fun D X => Says goal a D X) f g)
    (hdraft : g.draft = f.draft.mention a)
    (hfacts : ∀ b, b ∈ g.facts ↔ b ∈ f.facts ∨ goal = .on ∧ b = a)
    (htrue : ∀ b, b ∈ g.trueQueue ↔ b ∈ f.trueQueue ∨ goal = .on ∧ b = a)
    (hfalse : ∀ b, b ∈ g.falseQueue ↔ b ∈ f.falseQueue ∨ goal = .off ∧ b = a)
    (hcautious : ∀ b, b ∈ g.cautiousQueue ↔ b ∈ f.cautiousQueue ∨ goal = .cautious ∧ b = a) :
    Queues S log (fun known b => goal = known ∧ b = a) f g :=
  ⟨hassumes.rest, hassumes.resolution, hassumes.coherent,
    fun hf => (hf.mention a).of_draft hdraft, hfacts, htrue, hfalse, hcautious⟩

end Queues

theorem queues_queueTrue (f : Fitting) (a : Nat) :
    Queues S log (fun known b => .on = known ∧ b = a) f (f.queueTrue a) := by
  refine .mentioned (assumes_queueTrue f a) rfl ?_ ?_ ?_ ?_ <;>
    simp [queueTrue, mention, or_comm]

theorem queues_queueFalse (f : Fitting) (a : Nat) :
    Queues S log (fun known b => .off = known ∧ b = a) f ((f.mention a).queueFalse a) := by
  refine .mentioned (assumes_queueFalse f a) rfl ?_ ?_ ?_ ?_ <;>
    simp [queueFalse, mention]

theorem queues_queueCautious (f : Fitting) (a : Nat) :
    Queues S log (fun known b => .cautious = known ∧ b = a) f
      ((f.mention a).queueCautious a) := by
  refine .mentioned (assumes_queueCautious f a) rfl ?_ ?_ ?_ ?_ <;>
    simp [queueCautious, mention]

theorem queues_assumeFalse (f : Fitting) (atoms : List Nat) :
    Queues S log (fun known b => known = .off ∧ b ∈ atoms) f (f.assumeFalse atoms) :=
  (Queues.foldl queues_queueFalse atoms f).congr fun known b => by simp [eq_comm, and_comm]

theorem queues_assumeCautious (f : Fitting) (atoms : List Nat) :
    Queues S log (fun known b => known = .cautious ∧ b ∈ atoms) f (f.assumeCautious atoms) :=
  (Queues.foldl queues_queueCautious atoms f).congr fun known b => by simp [eq_comm, and_comm]

theorem queues_assume (f : Fitting) (c : Assumption) :
    Queues S log (fun known b => known = .off ∧ b ∈ c.falsified ∨
      known = .cautious ∧ b ∈ c.cautious) f (f.assume c) := by
  cases c with
  | never atoms =>
      refine (queues_assumeFalse f atoms).congr fun known b => ?_
      simp [Assumption.falsified, Assumption.cautious]
  | always atoms =>
      refine (queues_assumeCautious f atoms).congr fun known b => ?_
      simp [Assumption.falsified, Assumption.cautious]

/-- What waits after some calls. -/
def Waits (d : Draft) (calls : List Assumption) : Resolution → Nat → Prop
  | .on, b => b ∈ d.facts
  | .off, b => b ∈ d.falsified ∨ b ∈ calls.flatMap Assumption.falsified
  | .cautious, b => b ∈ d.cautious ∨ b ∈ calls.flatMap Assumption.cautious

theorem queues_assumingAll (S : Scope) (log : List Observation) (d : Draft)
    (calls : List Assumption) :
    Queues S log (Waits d calls)
      { draft := { d with facts := [], falsified := [], cautious := [] } }
      (assumingAll d calls) := by
  have hfacts : Queues S log (fun known b => known = .on ∧ b ∈ d.facts) _ _ :=
    (Queues.foldl queues_queueTrue d.facts
      { draft := { d with facts := [], falsified := [], cautious := [] } }).congr fun known b => by
        simp [eq_comm, and_comm]
  have hfalse := hfacts.trans (queues_assumeFalse _ d.falsified) fun _ _ => Iff.rfl
  have hcautious := hfalse.trans (queues_assumeCautious _ d.cautious) fun _ _ => Iff.rfl
  refine hcautious.trans (Queues.foldl queues_assume calls _) fun known b => ?_
  cases known <;> simp [Waits]

/-! ### The start -/

section Start

variable (hd : d.Collected S)
include hd

theorem coherent_assumingAll (calls : List Assumption) : (assumingAll d calls).Coherent S :=
  (queues_assumingAll S [] d calls).coherent ⟨hd.coherent.rest, by simp, by simp⟩

theorem resolution_assumingAll (calls : List Assumption) (b : Nat) :
    (assumingAll d calls).draft.resolution b = none :=
  ((queues_assumingAll S [] d calls).resolution b).trans (hd.unresolved b)

theorem known_assumingAll_iff (calls : List Assumption) :
    (assumingAll d calls).known goal b ↔
      Waits d calls goal b ∨ goal = .cautious ∧ Waits d calls .on b := by
  have h := queues_assumingAll S [] d calls
  have hnone := resolution_assumingAll hd calls b
  cases goal with
  | on => simp [h.facts]
  | off => simp [hnone, h.falseQueue]
  | cautious => simp [hnone, h.cautiousQueue, h.facts]

theorem known_assumingAll_congr
    (hfalsified : ∀ a, a ∈ calls.flatMap Assumption.falsified ↔
      a ∈ calls'.flatMap Assumption.falsified)
    (hcautious : ∀ a, a ∈ calls.flatMap Assumption.cautious ↔
      a ∈ calls'.flatMap Assumption.cautious) :
    (assumingAll d calls).known = (assumingAll d calls').known := by
  have hwaits : ∀ goal b, Waits d calls goal b ↔ Waits d calls' goal b := by
    intro goal b
    cases goal with
    | on => exact Iff.rfl
    | off => exact or_congr_right (hfalsified b)
    | cautious => exact or_congr_right (hcautious b)
  funext goal b
  rw [Bool.eq_iff_iff, known_assumingAll_iff hd, known_assumingAll_iff hd, hwaits, hwaits]

theorem founded_assumingAll (calls : List Assumption) : Founded d (assumingAll d calls) := by
  have h := queues_assumingAll S [] d calls
  have hnone := resolution_assumingAll hd calls
  have hfacts : ∀ b, b ∈ (assumingAll d calls).facts ↔ b ∈ d.facts := fun b => by
    simp [h.facts, Waits]
  obtain ⟨entries, hrest⟩ := h.rest
  refine ⟨by rw [hrest], fun b hb => (hfacts b).mpr hb, fun b hb => Or.inl ((hfacts b).mp hb),
    fun b hb => ?_, fun b hb => Or.inl ?_⟩
  · exact absurd ((hnone b).symm.trans hb) (by simp)
  · exact (h.trueQueue b).mpr (Or.inr ((hfacts b).mp hb))

/-- Nothing has been done yet, so that nothing is owed. -/
theorem accounted_assumingAll (calls : List Assumption) :
    Accounted d [] (assumingAll d calls) := by
  obtain ⟨entries, hrest⟩ := (queues_assumingAll S [] d calls).rest
  have hrules : (assumingAll d calls).draft.rules = d.rules := by rw [hrest]
  have hweightRules : (assumingAll d calls).draft.weightRules = d.weightRules := by rw [hrest]
  exact ⟨Draft.descends_of_same hrules hweightRules, Draft.accounts_of_same hrules hweightRules,
    fun b hhead _ => Or.inr (hhead.of_same hrules hweightRules), founded_assumingAll hd calls⟩

end Start

theorem tidy_assumingAll (hd : d.Gathered log) (calls : List Assumption) :
    (assumingAll d calls).Tidy log := by
  have hstart : Draft.Gathered log { d with facts := [], falsified := [], cautious := [] } :=
    hd.rest
  exact (queues_assumingAll ⟨∅, False⟩ log d calls).tidy ⟨hstart.mirrors, hstart.trim⟩

theorem bottom_assumingAll (d : Draft) (calls : List Assumption) :
    (assumingAll d calls).draft.bottom = d.bottom := by
  obtain ⟨entries, hrest⟩ := (queues_assumingAll ⟨∅, False⟩ [] d calls).rest
  rw [hrest]

/-! ### The end -/

/-- A run ends with the least knowledge of all these, or fails if there is none. -/
def Concludes (d : Draft) (log : List Observation) (above : Set Knowledge) : Step → Prop
  | .ok g => (∃ freed, Ends d log freed g) ∧ IsLeast above g.isSettled
  | .error _ => above = ∅

/-- A run ends with the least closed knowledge that contains what was queued, or fails if there is
none. -/
theorem concludes_run (hw : ∀ o ∈ log, o.HasFittingWeights) (calls : List Assumption)
    (hbottom : (Draft.ofReplay log).bottom = false) :
    Concludes (Draft.ofReplay log) log
      {T | (Draft.ofReplay log).Closed T ∧ (assumingAll (Draft.ofReplay log) calls).known ≤ T}
      (assumingAll (Draft.ofReplay log) calls).run := by
  have hd : (Draft.ofReplay log).Collected ⟨Set.univ, True⟩ :=
    Draft.collected_ofReplay (fun o ho => (hw o ho).nonneg) (fun _ => hw)
      fun _ _ _ _ _ _ => Set.mem_univ _
  have htidy := tidy_assumingAll (Draft.gathered_ofReplay log) calls
  generalize Draft.ofReplay log = d at hbottom hd htidy ⊢
  have hweighs : d.Weighs := fun j r hr => (hd.coherent.weights j r hr).2 trivial
  have hf := coherent_assumingAll hd calls
  have hacc := accounted_assumingAll hd calls
  have hbottom := (bottom_assumingAll d calls).trans hbottom
  generalize assumingAll d calls = f at htidy hf hacc hbottom ⊢
  have hrun : f.run = f.runFor (2 * f.draft.entries.size + 1) := by
    unfold run
    rw [hbottom]
    rfl
  have hruns := runs_runFor hf (Nat.lt_succ_of_le (potential_le f))
  rw [← hrun] at hruns
  have hinfers := hruns.infersOrFails hweighs hf htidy hacc
  have hcompletes := hruns.completes hf
  cases hend : f.run with
  | error e =>
      rw [hend] at hinfers
      exact Set.eq_empty_iff_forall_notMem.mpr fun T hT => hinfers T hT.1 hT.2
  | ok g =>
      rw [hend] at hinfers hcompletes
      obtain ⟨⟨freed, -, hacc⟩, hgrows, hwithin⟩ : Infers d [] f g := hinfers
      have hends : Ends d log freed g :=
        ⟨hacc, htidy.runFor (hrun.symm.trans hend), Completes.queues hcompletes⟩
      refine ⟨⟨freed, hends⟩, ⟨hends.closed hweighs, hends.known_eq ▸ hgrows⟩, fun T hT => ?_⟩
      exact hends.known_eq.ge.trans (hwithin T hT.1 hT.2)

theorem resolution_eq_of_isSettled (h : f.isSettled = g.isSettled) (b : Nat) :
    f.draft.resolution b = g.draft.resolution b := by
  have hon := congrFun (congrFun h .on) b
  have hoff := congrFun (congrFun h .off) b
  have hcautious := congrFun (congrFun h .cautious) b
  unfold isSettled at hon hoff hcautious
  rcases hf : f.draft.resolution b with _ | _ | _ | _ <;>
    rcases hg : g.draft.resolution b with _ | _ | _ | _ <;> simp_all

/-- Two fittings have the same resolutions, and the same rules up to their positions. -/
structure Agrees (g g' : Fitting) : Prop where
  resolution : ∀ b, g.draft.resolution b = g'.draft.resolution b
  rules : g.draft.liveRules.Perm g'.draft.liveRules
  weightRules : g.draft.liveWeightRules.Perm g'.draft.liveWeightRules

theorem Concludes.agrees {above : Set Knowledge} (hw : d.Weighs)
    (h : Concludes d log above (.ok g)) (h' : Concludes d log above (.ok g')) : g.Agrees g' := by
  obtain ⟨⟨freed, hends⟩, hleast⟩ := h
  obtain ⟨⟨freed', hends'⟩, hleast'⟩ := h'
  have hsame : g'.isSettled = g.isSettled := hleast'.unique hleast
  exact ⟨resolution_eq_of_isSettled hsame.symm, hends.liveRules_perm hw hends' hsame,
    .of_eq (hends.liveWeightRules_eq hw hends' hsame)⟩

theorem Concludes.isOk_iff {above : Set Knowledge} {x : Step} (h : Concludes d log above x) :
    x.isOk ↔ above.Nonempty := by
  cases x with
  | error e => exact iff_of_false Bool.false_ne_true (Set.not_nonempty_iff_eq_empty.mpr h)
  | ok g => exact iff_of_true rfl ⟨_, h.2.1⟩

/-- Two choices, each with a sum that is reached once its atom is false. -/
def choicesLog : List Observation :=
  [.weightRule ⟨true, [3], 1, [(.negative 1, 1)]⟩, .weightRule ⟨true, [4], 1, [(.negative 2, 1)]⟩]

/-- A sum that comes to 2 when it wraps around, and to `-1` if atom 2 alone is left out. -/
def shakyLog : List Observation :=
  [.rule ⟨true, [1, 2, 3], []⟩,
    .weightRule ⟨false, [4], 1,
      [(.positive 1, maxWeight), (.positive 1, maxWeight), (.positive 2, 3), (.positive 3, 1)]⟩]

end Fitting

end StablePlan
