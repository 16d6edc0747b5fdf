import Mathlib.Algebra.Order.BigOperators.Group.Finset
import Mathlib.Data.List.TakeWhile
import StablePlan.Proofs.Results
import StablePlan.Proofs.Transition.Settling

/-!
The run of a fitting. Atoms are settled until none waits; every round brings an atom closer to its
last resolution, so that the rounds that are allowed for are enough. A run keeps the stable sets, or
fails where there is none. Assuming what holds in all of them changes nothing.
-/

namespace StablePlan.Fitting

variable {f g g' : Fitting} {D X : Set Nat} {S : Scope} {a b : Nat} {goal : Resolution} {x : Step}

/-! ### The next atom -/

/-- Only atoms that are settled have left the queues. -/
structure Skims (f g : Fitting) : Prop where
  draft : g.draft = f.draft
  facts : g.facts = f.facts
  fewer : ∀ b, (b ∈ g.trueQueue → b ∈ f.trueQueue) ∧ (b ∈ g.falseQueue → b ∈ f.falseQueue) ∧
    (b ∈ g.cautiousQueue → b ∈ f.cautiousQueue)
  trueQueue : ∀ b ∈ f.trueQueue, f.isSettled .on b ∨ b ∈ g.trueQueue
  falseQueue : ∀ b ∈ f.falseQueue, f.isSettled .off b ∨ b ∈ g.falseQueue
  cautiousQueue : ∀ b ∈ f.cautiousQueue, f.isSettled .cautious b ∨ b ∈ g.cautiousQueue

theorem Skims.knows_iff (h : f.Skims g) (hD : D ⊆ X) : f.Knows D X ↔ g.Knows D X := by
  constructor
  · intro hk
    refine ⟨fun b hb => hk.given b (h.draft ▸ hb), fun b hb => hk.facts b ?_,
      fun b hb => hk.banned b ?_, fun b hb => hk.required b ?_⟩
    · rw [h.draft] at hb
      exact hb.imp_left (h.fewer b).1
    · rw [h.draft] at hb
      exact hb.imp_left (h.fewer b).2.1
    · rw [h.draft] at hb
      exact hb.imp_left (h.fewer b).2.2
  · intro hk
    have hon : ∀ b, f.draft.resolution b = some .on → b ∈ D := fun b hb =>
      hk.facts b (Or.inr (by rwa [h.draft]))
    refine ⟨fun b hb => hk.given b (h.draft ▸ hb), fun b hb => ?_, fun b hb => ?_, fun b hb => ?_⟩
    · rcases hb with hb | hb
      · rcases h.trueQueue b hb with hs | hb
        · exact hon b (by simpa [isSettled] using hs)
        · exact hk.facts b (Or.inl hb)
      · exact hon b hb
    · rcases hb with hb | hb
      · rcases h.falseQueue b hb with hs | hb
        · refine hk.banned b (Or.inr ?_)
          rw [h.draft]
          simpa [isSettled] using hs
        · exact hk.banned b (Or.inl hb)
      · exact hk.banned b (Or.inr (by rwa [h.draft]))
    · rcases hb with hb | hb
      · rcases h.cautiousQueue b hb with hs | hb
        · have hs : f.draft.resolution b = some .cautious ∨ f.draft.resolution b = some .on := by
            simpa [isSettled] using hs
          rcases hs with hs | hs
          · exact hk.required b (Or.inr (by rwa [h.draft]))
          · exact hD (hon b hs)
        · exact hk.required b (Or.inl hb)
      · exact hk.required b (Or.inr (by rwa [h.draft]))

theorem Skims.isStable_iff (h : f.Skims g) : f.theory.IsStable X ↔ g.theory.IsStable X :=
  isStable_congr fun X D hD => by rw [h.draft, h.knows_iff hD]

theorem Skims.coherent (h : f.Skims g) (hf : f.Coherent S) : g.Coherent S := by
  refine ⟨h.draft ▸ hf.draft, fun b hb => ?_, fun b hb => ?_⟩
  · rw [h.draft]
    rcases hb with hb | hb | hb
    · exact hf.mentioned b (Or.inl ((h.fewer b).1 hb))
    · exact hf.mentioned b (Or.inr (Or.inl ((h.fewer b).2.1 hb)))
    · exact hf.mentioned b (Or.inr (Or.inr ((h.fewer b).2.2 hb)))
  · rw [h.facts]
    exact hf.facts b ((h.fewer b).1 hb)

theorem mem_or_of_mem_dropWhile {p : Nat → Bool} {xs : List Nat} (h : b ∈ xs) :
    p b = true ∨ b ∈ xs.dropWhile p := by
  rw [← List.takeWhile_append_dropWhile (p := p) (l := xs), List.mem_append] at h
  exact h.imp_left List.mem_takeWhile_imp

theorem of_mem_dropWhile {p : Nat → Bool} {xs : List Nat} (h : b ∈ xs.dropWhile p) : b ∈ xs :=
  (List.dropWhile_suffix p).mem h

theorem eq_false_of_dropWhile_eq_cons {p : Nat → Bool} {xs ys : List Nat}
    (h : xs.dropWhile p = b :: ys) : p b = false := by
  have hhead := List.head?_dropWhile_not p xs
  rw [h] at hhead
  exact hhead

/-- The next atom waits, and is not settled. -/
theorem skims_of_next?_eq_some (h : f.next? = some (goal, a, g)) :
    f.Skims (g.requeue goal a) ∧ g.isSettled goal a = false := by
  unfold next? at h
  split at h
  · rename_i b rest htrue
    simp only [Option.some.injEq, Prod.mk.injEq] at h
    obtain ⟨rfl, rfl, rfl⟩ := h
    refine ⟨⟨rfl, rfl, fun c => ⟨fun hc => ?_, id, id⟩, fun c hc => ?_, fun c => Or.inr,
      fun c => Or.inr⟩, eq_false_of_dropWhile_eq_cons htrue⟩
    · exact of_mem_dropWhile (p := f.isSettled .on) (htrue ▸ hc)
    · have hor := mem_or_of_mem_dropWhile (p := f.isSettled .on) hc
      rwa [htrue] at hor
  · rename_i htrue
    have htrue : ∀ c ∈ f.trueQueue, f.isSettled .on c = true := fun c hc =>
      (mem_or_of_mem_dropWhile hc).resolve_right (by simp [htrue])
    split at h
    · rename_i b rest hfalse
      simp only [Option.some.injEq, Prod.mk.injEq] at h
      obtain ⟨rfl, rfl, rfl⟩ := h
      refine ⟨⟨rfl, rfl, fun c => ⟨by simp [requeue], fun hc => ?_, id⟩,
        fun c hc => Or.inl (htrue c hc), fun c hc => ?_, fun c => Or.inr⟩,
        eq_false_of_dropWhile_eq_cons hfalse⟩
      · exact of_mem_dropWhile (p := f.isSettled .off) (hfalse ▸ hc)
      · have hor := mem_or_of_mem_dropWhile (p := f.isSettled .off) hc
        rwa [hfalse] at hor
    · rename_i hfalse
      have hfalse : ∀ c ∈ f.falseQueue, f.isSettled .off c = true := fun c hc =>
        (mem_or_of_mem_dropWhile hc).resolve_right (by simp [hfalse])
      split at h
      · rename_i b rest hcautious
        simp only [Option.some.injEq, Prod.mk.injEq] at h
        obtain ⟨rfl, rfl, rfl⟩ := h
        refine ⟨⟨rfl, rfl, fun c => ⟨by simp [requeue], by simp [requeue], fun hc => ?_⟩,
          fun c hc => Or.inl (htrue c hc),
          fun c hc => Or.inl (hfalse c hc), fun c hc => ?_⟩,
          eq_false_of_dropWhile_eq_cons hcautious⟩
        · exact of_mem_dropWhile (p := f.isSettled .cautious) (hcautious ▸ hc)
        · have hor := mem_or_of_mem_dropWhile (p := f.isSettled .cautious) hc
          rwa [hcautious] at hor
      · exact absurd h (by simp)

/-- With no next atom, all that wait are settled. -/
theorem skims_of_next?_eq_none (h : f.next? = none) :
    f.Skims { f with trueQueue := [], falseQueue := [], cautiousQueue := [] } := by
  unfold next? at h
  split at h
  · exact absurd h (by simp)
  · rename_i htrue
    split at h
    · exact absurd h (by simp)
    · rename_i hfalse
      split at h
      · exact absurd h (by simp)
      · rename_i hcautious
        refine ⟨rfl, rfl, fun c => ⟨by simp, by simp, by simp⟩, fun c hc => Or.inl ?_,
          fun c hc => Or.inl ?_, fun c hc => Or.inl ?_⟩
        · exact (mem_or_of_mem_dropWhile hc).resolve_right (by simp [htrue])
        · exact (mem_or_of_mem_dropWhile hc).resolve_right (by simp [hfalse])
        · exact (mem_or_of_mem_dropWhile hc).resolve_right (by simp [hcautious])

/-! ### Rounds -/

/-- Settling until no atom waits, however many rounds that takes. -/
inductive Runs : Fitting → Step → Prop
  | done {f : Fitting} : f.next? = none →
      Runs f (.ok { f with trueQueue := [], falseQueue := [], cautiousQueue := [] })
  | fail {f g : Fitting} {goal : Resolution} {a : Nat} {e : CompileError × Fitting} :
      f.next? = some (goal, a, g) → g.settle goal a = .error e → Runs f (.error e)
  | step {f g g' : Fitting} {goal : Resolution} {a : Nat} {x : Step} :
      f.next? = some (goal, a, g) → g.settle goal a = .ok g' → Runs g' x → Runs f x

theorem settles_settle (hf : f.Coherent S) (hm : f.draft.isMentioned a)
    (hsettled : f.isSettled goal a = false) : SettlesOrFails S goal a f (f.settle goal a) := by
  cases goal with
  | on =>
      refine settles_resolve true hf hm fun h => ?_
      simp [isSettled, h] at hsettled
  | off =>
      refine settles_resolve false hf hm fun h => ?_
      simp [isSettled, h] at hsettled
  | cautious => exact settles_caution hf hm hsettled

/-- How far a resolution is from the last one. -/
def effort : Option Resolution → Nat
  | none => 2
  | some .cautious => 1
  | some _ => 0

def potential (f : Fitting) : Nat :=
  ∑ b ∈ Finset.range f.draft.entries.size, effort (f.draft.resolution b)

theorem potential_le (f : Fitting) : f.potential ≤ 2 * f.draft.entries.size := by
  unfold potential
  refine (Finset.sum_le_card_nsmul _ _ 2 fun b _ => ?_).trans ?_
  · unfold effort
    split <;> omega
  · simp [mul_comm]

/-- Every round takes effort. -/
theorem Settles.potential_lt (h : Settles S goal a f g) (hm : f.draft.isMentioned a)
    (hopen : f.IsOpenFor goal a) : g.potential < f.potential := by
  unfold potential
  rw [h.size]
  refine Finset.sum_lt_sum (fun b _ => ?_)
    ⟨a, Finset.mem_range.mpr (Draft.lt_of_isMentioned hm), ?_⟩
  · rw [h.resolution]
    split
    · rename_i hb
      subst hb
      rcases hopen with hnone | ⟨hc, rfl⟩
      · rw [hnone]
        cases goal <;> simp [effort]
      · simp [effort]
    · exact le_rfl
  · rw [h.resolution, if_pos rfl]
    rcases hopen with hnone | ⟨hc, rfl⟩
    · rw [hnone]
      cases goal <;> simp [effort]
    · simp [hc, effort]

/-- An atom that can be settled is open. -/
theorem isOpenFor_of_settle (hm : f.draft.isMentioned a) (hsettled : f.isSettled goal a = false)
    (h : f.settle goal a = .ok g) : f.IsOpenFor goal a := by
  have hmention := mention_eq hm
  unfold isSettled at hsettled
  unfold IsOpenFor
  rcases hr : f.draft.resolution a with _ | _ | _ | _ <;> cases goal <;>
    simp_all [settle, resolve, caution]

theorem Coherent.of_requeue (h : (f.requeue goal a).Coherent S) :
    f.Coherent S ∧ f.draft.isMentioned a := by
  have hmentioned := h.mentioned
  have hfacts := h.facts
  simp only [draft_requeue, facts_requeue, mem_trueQueue_requeue, mem_falseQueue_requeue,
    mem_cautiousQueue_requeue] at hmentioned hfacts
  refine ⟨⟨by simpa using h.draft, fun b hb => hmentioned b ?_, fun b hb => hfacts b (Or.inr hb)⟩,
    hmentioned a ?_⟩
  · tauto
  · cases goal <;> simp

/-- The rounds that are allowed for are enough. -/
theorem runs_runFor {n : Nat} (hf : f.Coherent S) (hn : f.potential < n) : Runs f (f.runFor n) := by
  induction n generalizing f with
  | zero => omega
  | succ n ih =>
      unfold runFor
      cases hnext : f.next? with
      | none => exact .done hnext
      | some next =>
          obtain ⟨goal, a, g⟩ := next
          obtain ⟨hskims, hsettled⟩ := skims_of_next?_eq_some hnext
          obtain ⟨hg, hm⟩ := (hskims.coherent hf).of_requeue
          have hs := settles_settle hg hm hsettled
          simp only
          cases hsettle : g.settle goal a with
          | error e => exact .fail hnext hsettle
          | ok g' =>
              rw [hsettle] at hs
              have hlt := Settles.potential_lt hs hm (isOpenFor_of_settle hm hsettled hsettle)
              have hsame : g.potential = f.potential := by
                unfold potential
                rw [← hskims.draft, draft_requeue]
              exact .step hnext hsettle (ih hs.coherent (by omega))

/-- What a run comes to: the stable sets are kept if sums are exact, and no atom waits. -/
structure Completes (S : Scope) (f g : Fitting) : Prop where
  coherent : g.Coherent S
  stable : S.exact → ∀ X, f.theory.IsStable X ↔ g.theory.IsStable X
  queues : g.trueQueue = [] ∧ g.falseQueue = [] ∧ g.cautiousQueue = []
  mentioned : ∀ b, g.draft.isMentioned b = f.draft.isMentioned b
  size : g.draft.entries.size = f.draft.entries.size
  externals : g.draft.externals = f.draft.externals
  outputs : g.draft.outputs = f.draft.outputs

def CompletesOrFails (S : Scope) (f : Fitting) : Step → Prop
  | .ok g => Completes S f g
  | .error e =>
    (S.exact → ∀ X, ¬f.theory.IsStable X) ∧ (e.1 = .unsatTemplate ∨ ∃ b, e.1 = .conflict b)

theorem Runs.completes (h : Runs f x) (hf : f.Coherent S) : CompletesOrFails S f x := by
  induction h with
  | done hnext =>
      have hskims := skims_of_next?_eq_none hnext
      exact ⟨hskims.coherent hf, fun _ X => hskims.isStable_iff, ⟨rfl, rfl, rfl⟩, fun _ => rfl,
        rfl, rfl, rfl⟩
  | fail hnext hsettle =>
      obtain ⟨hskims, hsettled⟩ := skims_of_next?_eq_some hnext
      obtain ⟨hg, hm⟩ := (hskims.coherent hf).of_requeue
      have hs := settles_settle hg hm hsettled
      rw [hsettle] at hs
      exact ⟨fun hexact X hX => hs.1 hexact X (hskims.isStable_iff.mp hX), hs.2⟩
  | @step f g g' goal a x hnext hsettle _ ih =>
      obtain ⟨hskims, hsettled⟩ := skims_of_next?_eq_some hnext
      obtain ⟨hg, hm⟩ := (hskims.coherent hf).of_requeue
      have hs := settles_settle hg hm hsettled
      rw [hsettle] at hs
      have hstable : S.exact → ∀ X, f.theory.IsStable X ↔ g'.theory.IsStable X :=
        fun hexact X => hskims.isStable_iff.trans (hs.stable hexact X)
      have hdraft : g.draft = f.draft := by simpa using hskims.draft
      have hrest := ih hs.coherent
      cases x with
      | error e =>
          exact ⟨fun hexact X hX => hrest.1 hexact X ((hstable hexact X).mp hX), hrest.2⟩
      | ok h =>
          have hrest : Completes S g' h := hrest
          refine ⟨hrest.coherent, fun hexact X => (hstable hexact X).trans (hrest.stable hexact X),
            hrest.queues, fun b => ?_, ?_, ?_, ?_⟩
          · rw [hrest.mentioned, hs.mentioned, hdraft]
          · rw [hrest.size, hs.size, hdraft]
          · rw [hrest.externals, hs.externals, hdraft]
          · rw [hrest.outputs, hs.outputs, hdraft]

/-! ### Assumptions -/

/-- More is queued, and the atoms of it are mentioned. -/
structure Assumes (S : Scope) (P : Set Nat → Set Nat → Prop) (f g : Fitting) : Prop where
  coherent : f.Coherent S → g.Coherent S
  rest : ∃ entries, g.draft = { f.draft with entries }
  resolution : ∀ b, g.draft.resolution b = f.draft.resolution b
  knows : ∀ D X, g.Knows D X ↔ f.Knows D X ∧ P D X

theorem Assumes.trans {P Q R : Set Nat → Set Nat → Prop} (h : Assumes S P f g)
    (h' : Assumes S Q g g') (hR : ∀ D X, R D X ↔ P D X ∧ Q D X) : Assumes S R f g' := by
  refine ⟨h'.coherent ∘ h.coherent, ?_, fun b => (h'.resolution b).trans (h.resolution b),
    fun D X => ?_⟩
  · obtain ⟨entries, he⟩ := h.rest
    obtain ⟨entries', he'⟩ := h'.rest
    exact ⟨entries', by rw [he', he]⟩
  · rw [h'.knows, h.knows, hR, and_assoc]

theorem assumes_foldl {step : Fitting → Nat → Fitting} {P : Nat → Set Nat → Set Nat → Prop}
    (hstep : ∀ f a, Assumes S (P a) f (step f a)) (atoms : List Nat) (f : Fitting) :
    Assumes S (fun D X => ∀ a ∈ atoms, P a D X) f (atoms.foldl step f) := by
  induction atoms generalizing f with
  | nil => exact ⟨id, ⟨_, rfl⟩, fun _ => rfl, by simp⟩
  | cons a atoms ih => exact (hstep f a).trans (ih _) fun D X => List.forall_mem_cons

/-- What waiting for a resolution says of an atom. -/
def Says (goal : Resolution) (a : Nat) (D X : Set Nat) : Prop :=
  match goal with
  | .on => a ∈ D
  | .off => a ∉ X
  | .cautious => a ∈ X

/-- Queueing an atom, wherever in its queue, with a mention of it. -/
theorem assumes_of_mem (goal : Resolution) (hdraft : g.draft = f.draft.mention a)
    (htrue : ∀ b, b ∈ g.trueQueue ↔ goal = .on ∧ b = a ∨ b ∈ f.trueQueue)
    (hfalse : ∀ b, b ∈ g.falseQueue ↔ goal = .off ∧ b = a ∨ b ∈ f.falseQueue)
    (hcautious : ∀ b, b ∈ g.cautiousQueue ↔ goal = .cautious ∧ b = a ∨ b ∈ f.cautiousQueue)
    (hfacts : ∀ b, goal = .on ∧ b = a ∨ b ∈ f.facts → b ∈ g.facts) :
    Assumes S (Says goal a) f g := by
  have hres : ∀ b, g.draft.resolution b = f.draft.resolution b := fun b => by
    rw [hdraft, Draft.resolution_mention]
  refine ⟨fun hf => ⟨hdraft ▸ hf.draft.mention a, fun b hb => ?_, fun b hb => ?_⟩, ⟨_, hdraft⟩,
    hres, fun D X => ⟨
      fun h => ⟨⟨fun b hb => ?_, fun b hb => ?_, fun b hb => ?_, fun b hb => ?_⟩, ?_⟩,
      fun ⟨h, ha⟩ => ⟨fun b hb => ?_, fun b hb => ?_, fun b hb => ?_, fun b hb => ?_⟩⟩⟩
  · rw [hdraft, Draft.isMentioned_mention]
    rw [htrue, hfalse, hcautious] at hb
    by_cases hba : b = a
    · exact Or.inl hba
    · exact Or.inr (hf.mentioned b (by simpa [hba] using hb))
  · exact hfacts b (((htrue b).mp hb).imp_right (hf.facts b))
  · exact h.given b (by rw [hdraft]; exact hb)
  · exact h.facts b (by rw [htrue, hres]; tauto)
  · exact h.banned b (by rw [hfalse, hres]; tauto)
  · exact h.required b (by rw [hcautious, hres]; tauto)
  · cases goal with
    | on => exact h.facts a (Or.inl ((htrue a).mpr (Or.inl ⟨rfl, rfl⟩)))
    | off => exact h.banned a (Or.inl ((hfalse a).mpr (Or.inl ⟨rfl, rfl⟩)))
    | cautious => exact h.required a (Or.inl ((hcautious a).mpr (Or.inl ⟨rfl, rfl⟩)))
  · exact h.given b (by rw [hdraft] at hb; exact hb)
  · rw [htrue, hres, or_assoc] at hb
    rcases hb with ⟨rfl, rfl⟩ | hb
    · exact ha
    · exact h.facts b hb
  · rw [hfalse, hres, or_assoc] at hb
    rcases hb with ⟨rfl, rfl⟩ | hb
    · exact ha
    · exact h.banned b hb
  · rw [hcautious, hres, or_assoc] at hb
    rcases hb with ⟨rfl, rfl⟩ | hb
    · exact ha
    · exact h.required b hb

theorem assumes_queueTrue (f : Fitting) (a : Nat) :
    Assumes S (fun D _ => a ∈ D) f (f.queueTrue a) := by
  refine assumes_of_mem (f := f) (g := f.queueTrue a) (a := a) .on rfl ?_ ?_ ?_ ?_ <;>
    simp [queueTrue, mention, or_comm]

theorem assumes_queueFalse (f : Fitting) (a : Nat) :
    Assumes S (fun _ X => a ∉ X) f ((f.mention a).queueFalse a) := by
  refine assumes_of_mem (f := f) (g := (f.mention a).queueFalse a) (a := a) .off rfl ?_ ?_ ?_ ?_ <;>
    simp [queueFalse, mention, or_comm]

theorem assumes_queueCautious (f : Fitting) (a : Nat) :
    Assumes S (fun _ X => a ∈ X) f ((f.mention a).queueCautious a) := by
  refine assumes_of_mem (f := f) (g := (f.mention a).queueCautious a) (a := a) .cautious rfl
    ?_ ?_ ?_ ?_ <;> simp [queueCautious, mention, or_comm]

theorem assumes_assumeFalse (f : Fitting) (atoms : List Nat) :
    Assumes S (fun _ X => ∀ a ∈ atoms, a ∉ X) f (f.assumeFalse atoms) :=
  assumes_foldl assumes_queueFalse atoms f

theorem assumes_assumeCautious (f : Fitting) (atoms : List Nat) :
    Assumes S (fun _ X => ∀ a ∈ atoms, a ∈ X) f (f.assumeCautious atoms) :=
  assumes_foldl assumes_queueCautious atoms f

/-- A fitting starts from what its draft has queued. -/
theorem assumes_ofDraft (d : Draft) :
    Assumes S (fun D X => (∀ a ∈ d.facts, a ∈ D) ∧ (∀ a ∈ d.falsified, a ∉ X) ∧
      ∀ a ∈ d.cautious, a ∈ X)
      { draft := { d with facts := [], falsified := [], cautious := [] } } (ofDraft d) := by
  have htrue := assumes_foldl (S := S) assumes_queueTrue d.facts
    { draft := { d with facts := [], falsified := [], cautious := [] } }
  have hfalse := htrue.trans (assumes_assumeFalse _ d.falsified) fun _ _ => Iff.rfl
  exact hfalse.trans (assumes_assumeCautious _ d.cautious) fun _ _ => and_assoc.symm

/-! ### The whole run -/

section Whole

variable {d : Draft} {never always : List Nat}

/-- The fitting of a draft under assumptions. -/
def assuming (d : Draft) (never always : List Nat) : Fitting :=
  ((ofDraft d).assumeFalse never).assumeCautious always

theorem assumes_assuming (d : Draft) (never always : List Nat) :
    Assumes S (fun D X => ((∀ a ∈ d.facts, a ∈ D) ∧ (∀ a ∈ d.falsified, a ∉ X) ∧
      ∀ a ∈ d.cautious, a ∈ X) ∧ (∀ a ∈ never, a ∉ X) ∧ ∀ a ∈ always, a ∈ X)
      { draft := { d with facts := [], falsified := [], cautious := [] } }
      (assuming d never always) := by
  have hfalse := (assumes_ofDraft (S := S) d).trans (assumes_assumeFalse _ never)
    fun _ _ => Iff.rfl
  exact hfalse.trans (assumes_assumeCautious _ always) fun _ _ => and_assoc.symm

theorem coherent_assuming (never always : List Nat) (hd : d.Collected S) :
    (assuming d never always).Coherent S :=
  (assumes_assuming d never always).coherent ⟨hd.coherent.rest, by simp, by simp⟩

theorem draft_assuming (d : Draft) (never always : List Nat) : ∃ entries,
    (assuming d never always).draft =
      { d with entries, facts := [], falsified := [], cautious := [] } :=
  (assumes_assuming (S := ⟨∅, False⟩) d never always).rest

/-- What holds in all stable sets can be assumed. -/
theorem isStable_assuming_iff (hd : d.Collected S) (hbottom : d.bottom = false)
    (hnever : ∀ X, d.theory.IsStable X → ∀ a ∈ never, a ∉ X)
    (halways : ∀ X, d.theory.IsStable X → ∀ a ∈ always, a ∈ X) :
    (assuming d never always).theory.IsStable X ↔ d.theory.IsStable X := by
  have hadmits : ∀ D, (assuming d never always).theory.Admits D X ↔
      d.theory.Admits D X ∧ (∀ a ∈ never, a ∉ X) ∧ ∀ a ∈ always, a ∈ X := by
    intro D
    have hobeyed : (assuming d never always).draft.Obeyed D X ↔ d.Obeyed D X := by
      obtain ⟨entries, he⟩ := draft_assuming d never always
      rw [he]
      exact Iff.rfl
    have hstart : Knows { draft := { d with facts := [], falsified := [], cautious := [] } } D X ↔
        ∀ a ∈ d.externals, a ∈ X → a ∈ D := by
      refine ⟨fun h => h.given, fun h => ⟨h, fun a ha => ?_, fun a ha => ?_, fun a ha => ?_⟩⟩ <;>
      · have hnone : d.resolution a = none := hd.unresolved a
        rcases ha with ha | ha
        · exact absurd ha List.not_mem_nil
        · exact absurd (hnone.symm.trans ha) (by simp)
    rw [admits_iff, hobeyed, (assumes_assuming (S := S) d never always).knows, hstart,
      Draft.admits_theory_iff]
    simp only [hbottom, true_and, and_assoc]
  rw [Theory.isStable_and_iff hadmits]
  exact and_iff_left_of_imp fun h => ⟨hnever X h, halways X h⟩

theorem bottom_assuming (d : Draft) (never always : List Nat) :
    (assuming d never always).draft.bottom = d.bottom := by
  obtain ⟨entries, he⟩ := draft_assuming d never always
  rw [he]

/-- Fitting a draft comes to an end, and keeps its stable sets or fails where there is none. -/
theorem completes_run (never always : List Nat) (hd : d.Collected S) (hbottom : d.bottom = false) :
    (assuming d never always).Runs (assuming d never always).run ∧
      CompletesOrFails S (assuming d never always) (assuming d never always).run := by
  have hf := coherent_assuming never always hd
  have hrun : (assuming d never always).run = (assuming d never always).runFor
      (2 * (assuming d never always).draft.entries.size + 1) := by
    unfold run
    rw [bottom_assuming, hbottom]
    rfl
  have hruns := runs_runFor hf (Nat.lt_succ_of_le (potential_le (assuming d never always)))
  rw [← hrun] at hruns
  exact ⟨hruns, hruns.completes hf⟩

theorem completes_of_run_eq_ok {g : Fitting} (hd : d.Collected S)
    (h : (assuming d never always).run = .ok g) :
    d.bottom = false ∧ Completes S (assuming d never always) g := by
  have hbottom : d.bottom = false := by
    by_contra hset
    have hset := (bottom_assuming d never always).trans (by simpa using hset)
    have hrun : (assuming d never always).run = .error (.unsatTemplate, assuming d never always) :=
      if_pos hset
    exact absurd (hrun.symm.trans h) (by simp)
  have hend := (completes_run never always hd hbottom).2
  rw [h] at hend
  exact ⟨hbottom, hend⟩

theorem draft_foldl {step : Fitting → Nat → Fitting}
    (hstep : ∀ f a, (step f a).draft = f.draft.mention a) (atoms : List Nat) (f : Fitting) :
    (atoms.foldl step f).draft = atoms.foldl Draft.mention f.draft := by
  induction atoms generalizing f with
  | nil => rfl
  | cons a atoms ih => rw [List.foldl_cons, ih, hstep, List.foldl_cons]

/-- Assuming mentions what is assumed. -/
theorem isMentioned_assuming (hd : d.Collected S) :
    (assuming d never always).draft.isMentioned b ↔
      d.isMentioned b ∨ b ∈ never ∨ b ∈ always := by
  have hmention : ∀ (atoms : List Nat) (e : Draft),
      (atoms.foldl Draft.mention e).isMentioned b ↔ e.isMentioned b ∨ b ∈ atoms := by
    intro atoms
    induction atoms with
    | nil => simp
    | cons a atoms ih =>
        intro e
        rw [List.foldl_cons, ih, Draft.isMentioned_mention, List.mem_cons]
        tauto
  have hqueued := hd.queued b
  have hsame : ({ d with facts := [], falsified := [], cautious := [] } : Draft).isMentioned b =
      d.isMentioned b := rfl
  unfold assuming ofDraft assumeFalse assumeCautious
  rw [draft_foldl fun _ _ => rfl, draft_foldl fun _ _ => rfl, draft_foldl fun _ _ => rfl,
    draft_foldl fun _ _ => rfl, draft_foldl fun _ _ => rfl]
  simp only [hmention, hsame]
  tauto

end Whole

end Fitting

/-- The program that a draft and its resolutions leave. -/
def Draft.remainder (d : Draft) : Theory where
  clauses := d.clauses
  given := {a | a ∈ d.externals}
  facts := {a | d.resolution a = some .on}
  banned := {a | d.resolution a = some .off}
  required := {a | d.resolution a = some .cautious}

namespace Fitting

theorem Completes.theory_eq {S : Scope} {f g : Fitting} (h : Completes S f g) :
    g.theory = g.draft.remainder := by
  obtain ⟨htrue, hfalse, hcautious⟩ := h.queues
  simp [theory, Draft.remainder, htrue, hfalse, hcautious]

/-- A fact, what it excludes, and a sum over both and an external. -/
def sampleLog : List Observation :=
  [.external 4 .free, .rule ⟨false, [1], []⟩, .rule ⟨false, [2], [.negative 1]⟩,
    .weightRule ⟨false, [3], 3, [(.positive 1, 1), (.positive 4, 1), (.negative 2, 1)]⟩]

/-- Each of the first two weights reaches the bound. The sum of all three comes to 1 when it wraps
around, but that of the first two to `-2`. -/
def shakyRule : WeightRule :=
  ⟨false, [5], 1, [(.negative 1, maxWeight), (.negative 2, maxWeight), (.positive 4, 3)]⟩

end Fitting

end StablePlan
