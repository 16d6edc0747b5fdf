import StablePlan.Plan.Run
import StablePlan.Proofs.Unrolling.Externals

/-!
What steers a search. Between attempts the query is assumed at the last grounded step and nothing
else is assumed true. An attempt at a shorter length hides the steps beyond it, with skip at each of
them or by moving the query, and shows them again when it is over.
-/

namespace StablePlan

/-- The handles that are wanted true for a plan of some length within `n` steps: the query at the
last step and skip at the steps beyond the plan, or, without skip, the query where the plan ends. -/
def Wants (query : Nat) (skip : Option Nat) (n length s k : Nat) : Prop :=
  match skip with
  | some skip => k = query ∧ s = n ∨ k = skip ∧ length < s
  | none => k = query ∧ s = length

theorem wants_self_iff {query n s k : Nat} {skip : Option Nat} (hs : s ≤ n) :
    Wants query skip n n s k ↔ k = query ∧ s = n := by
  unfold Wants
  cases skip with
  | some skip => simp [hs.not_gt]
  | none => rfl

namespace Planner

variable {β κ : Type} {p p' p'' : Planner β κ} {t : Template}
  {length target s k first : Nat}
  {v hide : Bool} {table : List (Switch × Bool)} {value value' : Nat → Nat → Option Bool}

/-! ### What stays the same -/

/-- What attempts leave as it is. -/
structure Continues (p p' : Planner β κ) : Prop where
  query : p'.query = p.query
  skip : p'.skip = p.skip
  strategy : p'.strategy = p.strategy
  memoryLimit : p'.memoryLimit = p.memoryLimit
  iterations : p'.tally.iterations = p.tally.iterations
  check : p'.check = none ↔ p.check = none

theorem Continues.refl (p : Planner β κ) : Continues p p := ⟨rfl, rfl, rfl, rfl, rfl, .rfl⟩

theorem Continues.trans (h : Continues p p') (h' : Continues p' p'') : Continues p p'' :=
  ⟨h'.query.trans h.query, h'.skip.trans h.skip, h'.strategy.trans h.strategy,
    h'.memoryLimit.trans h.memoryLimit, h'.iterations.trans h.iterations, h'.check.trans h.check⟩

/-- The planners differ in nothing that matters to the backend. -/
structure Resembles (p p' : Planner β κ) : Prop extends Continues p p' where
  unrolling : p'.unrolling = p.unrolling
  backend : p'.backend = p.backend
  marker : p'.marker = p.marker

theorem Resembles.refl (p : Planner β κ) : Resembles p p := ⟨.refl p, rfl, rfl, rfl⟩

theorem Resembles.trans (h : Resembles p p') (h' : Resembles p' p'') : Resembles p p'' :=
  ⟨h.toContinues.trans h'.toContinues, h'.unrolling.trans h.unrolling,
    h'.backend.trans h.backend, h'.marker.trans h.marker⟩

theorem Resembles.steps (h : Resembles p p') : p'.steps = p.steps :=
  congrArg Unrolling.steps h.unrolling

theorem resembles_note (p : Planner β κ) (n : Notice) : Resembles p (p.note n) :=
  ⟨⟨rfl, rfl, rfl, rfl, rfl, .rfl⟩, rfl, rfl, rfl⟩

theorem resembles_countRejected (p : Planner β κ) : Resembles p p.countRejected :=
  ⟨⟨rfl, rfl, rfl, rfl, rfl, .rfl⟩, rfl, rfl, rfl⟩

theorem resembles_learn (p : Planner β κ) (before after added : Nat) :
    Resembles p (p.learn before after added) :=
  ⟨⟨rfl, rfl, rfl, rfl, rfl, .rfl⟩, rfl, rfl, rfl⟩

theorem resembles_readMemory (p : Planner β κ) : Resembles p p.readMemory.2 := by
  have hgauge : Resembles p p.gauge.2 := by
    unfold gauge
    split
    all_goals exact ⟨⟨rfl, rfl, rfl, rfl, rfl, .rfl⟩, rfl, rfl, rfl⟩
  exact hgauge.trans ⟨⟨rfl, rfl, rfl, rfl, rfl, .rfl⟩, rfl, rfl, rfl⟩

/-- Without a check everything is accepted. -/
theorem resembles_judge [ModelCheck κ] (p : Planner β κ) (answer : Answer) (length : Nat) :
    Resembles p (p.judge answer length).2 ∧
      (p.check = none → (p.judge answer length).1 = .accept) := by
  have hnotes : ∀ (remarks : List String) (p : Planner β κ),
      Resembles p (remarks.foldl (fun p text => p.note (.remark text)) p) := by
    intro remarks
    induction remarks with
    | nil => exact .refl
    | cons text remarks ih => exact fun p => (resembles_note p _).trans (ih _)
  unfold judge
  cases hcheck : p.check with
  | none => exact ⟨.refl p, fun _ => rfl⟩
  | some c =>
      refine ⟨(hnotes (ModelCheck.remarks c answer length) p).trans ?_, by simp⟩
      have hsome := (hnotes (ModelCheck.remarks c answer length) p).check
      exact ⟨⟨rfl, rfl, rfl, rfl, rfl, by simp [hsome, hcheck]⟩, rfl, rfl, rfl⟩

/-! ### Switches -/

/-- A grounded step at which nothing is assumed of the query any more. -/
def Released (p : Planner β κ) (s : Nat) : Prop :=
  (1 ≤ s ∧ s ≤ p.steps) ∧ p.unrolling.value? s p.query = none

/-- The constraints of released queries. -/
def releases (p : Planner β κ) : Set (List Literal) :=
  {body | ∃ s, p.Released s ∧
    body = [.positive (s * p.unrolling.template.period + p.query)]}

/-- The switches are set for a plan of some length. Only the query may have no value, at a step
before the last one, and only with skip. -/
structure Steers (p : Planner β κ) (t : Template) (length : Nat) : Prop where
  template : p.unrolling.template = t
  started : p.unrolling.started = decide (0 < p.steps)
  fits : 0 < p.steps → t.fits p.steps
  sorted : Ascending.IsSorted p.unrolling.assigned
  query : t.IsHandle p.query
  skip : ∀ k, p.skip = some k → t.IsHandle k ∧ k ≠ p.query
  marker : p.marker = if p.steps = 0 then none else some p.steps
  values : ∀ s k v, p.unrolling.value? s k = some v →
    ((1 ≤ s ∧ s ≤ p.steps) ∧ t.IsHandle k) ∧
      (v = true ↔ Wants p.query p.skip p.steps length s k)
  complete : ∀ s k, 1 ≤ s → s ≤ p.steps → t.IsHandle k → p.unrolling.value? s k = none →
    k = p.query ∧ p.skip.isSome ∧ s < p.steps

/-- Only the unrolling, the handles and the marker matter for steering. -/
theorem Steers.congr (h : p.Steers t length) (hunrolling : p'.unrolling = p.unrolling)
    (hquery : p'.query = p.query) (hskip : p'.skip = p.skip) (hmarker : p'.marker = p.marker) :
    p'.Steers t length := by
  have hsteps : p'.steps = p.steps := congrArg Unrolling.steps hunrolling
  constructor
  all_goals simp only [hunrolling, hquery, hskip, hmarker, hsteps]
  · exact h.template
  · exact h.started
  · exact h.fits
  · exact h.sorted
  · exact h.query
  · exact h.skip
  · exact h.marker
  · exact h.values
  · exact h.complete

/-- A query is released only with skip, at a step where it is not wanted. -/
theorem Steers.not_wants_of_released (h : p.Steers t length) (hs : p.Released s) :
    ¬Wants p.query p.skip p.steps length s p.query := by
  obtain ⟨-, hsome, hlt⟩ := h.complete s p.query hs.1.1 hs.1.2 h.query hs.2
  obtain ⟨skip, hskip⟩ := Option.isSome_iff_exists.mp hsome
  have hne := (h.skip skip hskip).2
  rw [hskip]
  rintro (⟨-, heq⟩ | ⟨heq, -⟩)
  · exact hlt.ne heq
  · exact hne heq.symm

/-- Every switch is a handle at a grounded step. -/
theorem Steers.switched (h : p.Steers t length) : p.unrolling.Switched := fun s k v hv => by
  rw [h.template]
  exact (h.values s k v hv).1

theorem Steers.assumable (h : p.Steers t length) (hlaid : t.Laid) : p.unrolling.Assumable := by
  intro s k v hv
  have hs := (h.switched s k v hv).1
  have hfits : t.fits p.unrolling.steps := h.fits (show 0 < p.unrolling.steps by omega)
  exact h.switched.assumable (h.template ▸ hlaid) (h.template ▸ hfits) s k v hv

/-! ### Setting switches -/

/-- The planner with other assumptions. -/
def assuming (p : Planner β κ) (table : List (Switch × Bool)) : Planner β κ :=
  { p with unrolling := p.unrolling.assuming table }

/-- The second planner differs from the first in its assumptions, and those are given. -/
def Sets (p p' : Planner β κ) (value : Nat → Nat → Option Bool) : Prop :=
  ∃ table, p' = p.assuming table ∧ Ascending.IsSorted table ∧
    ∀ s k, p'.unrolling.value? s k = value s k

theorem Sets.trans (h : p.Sets p' value) (h' : p'.Sets p'' value') : p.Sets p'' value' := by
  obtain ⟨_, rfl, -⟩ := h
  obtain ⟨table, rfl, hsorted, hvalue⟩ := h'
  exact ⟨table, rfl, hsorted, hvalue⟩

theorem Sets.congr (h : p.Sets p' value) (heq : ∀ s k, value s k = value' s k) :
    p.Sets p' value' := by
  obtain ⟨table, rfl, hsorted, hvalue⟩ := h
  exact ⟨table, rfl, hsorted, fun s k => (hvalue s k).trans (heq s k)⟩

theorem continues_assuming (p : Planner β κ) (table : List (Switch × Bool)) :
    Continues p (p.assuming table) := ⟨rfl, rfl, rfl, rfl, rfl, .rfl⟩

theorem assign_sets (hsorted : Ascending.IsSorted p.unrolling.assigned)
    (hs : 1 ≤ s ∧ s ≤ p.steps) (k : Nat) (v : Bool) :
    ∃ p', p.assign s k (.ofBool v) = .ok p' ∧
      p.Sets p' fun s' k' => if s' = s ∧ k' = k then some v else p.unrolling.value? s' k' := by
  have hgrounded : p.unrolling.isGrounded s := by
    unfold Unrolling.isGrounded
    simpa using ⟨hs.1, hs.2⟩
  refine ⟨p.assuming (Ascending.put ⟨s, k⟩ v p.unrolling.assigned), ?_, _, rfl,
    Ascending.isSorted_put hsorted _ _, fun s' k' => Unrolling.value?_put⟩
  unfold Planner.assign
  rw [Unrolling.assign_eq_ok hgrounded]
  rfl

theorem foldlM_assign_sets (hsorted : Ascending.IsSorted p.unrolling.assigned) {first count : Nat}
    (hfirst : 1 ≤ first) (hlast : first + count ≤ p.steps + 1) (k : Nat) (v : Bool) :
    ∃ p', (List.range' first count).foldlM (fun p s => p.assign s k (.ofBool v)) p = .ok p' ∧
      p.Sets p' fun s' k' => if (first ≤ s' ∧ s' < first + count) ∧ k' = k then some v
        else p.unrolling.value? s' k' := by
  induction count generalizing first p with
  | zero =>
      refine ⟨p, rfl, _, rfl, hsorted, fun s' k' => (if_neg ?_).symm⟩
      omega
  | succ count ih =>
      obtain ⟨p₁, hfirst₁, hsets₁⟩ := assign_sets hsorted ⟨hfirst, by omega⟩ k v
      obtain ⟨table, rfl, hsorted₁, hvalue₁⟩ := hsets₁
      have hlast₁ : first + 1 + count ≤ (p.assuming table).steps + 1 := by
        change _ ≤ p.steps + 1
        omega
      obtain ⟨p₂, hrest, hsets₂⟩ := ih hsorted₁ (Nat.le_add_left 1 first) hlast₁
      refine ⟨p₂, ?_, (Sets.trans ⟨table, rfl, hsorted₁, hvalue₁⟩ hsets₂).congr fun s' k' => ?_⟩
      · rw [List.range'_succ, List.foldlM_cons, hfirst₁]
        exact hrest
      · rw [hvalue₁]
        dsimp only
        by_cases hk : k' = k
        · by_cases hs : s' = first
          · rw [if_neg (by omega), if_pos ⟨hs, hk⟩, if_pos (by omega)]
          · simp only [hk, hs, and_true, if_false]
            refine if_congr ?_ rfl rfl
            omega
        · simp [hk]

/-! ### Hiding steps -/

/-- The switches after the steps beyond a length were hidden or shown. -/
def masked (p : Planner β κ) (length : Nat) (hide : Bool) (s k : Nat) : Option Bool :=
  match p.skip with
  | some skip =>
    if (length < s ∧ s ≤ p.steps) ∧ k = skip then some hide else p.unrolling.value? s k
  | none =>
    if k = p.query ∧ s = length then some hide
    else if k = p.query ∧ s = p.steps then some !hide else p.unrolling.value? s k

theorem mask_sets (h : p.Steers t first) (hlength : length < p.steps)
    (hone : p.skip = none → 1 ≤ length) (hide : Bool) :
    ∃ p', p.mask length hide = .ok p' ∧ p.Sets p' (p.masked length hide) := by
  have hvalues : (if hide then (ExternalValue.on, ExternalValue.off) else (.off, .on)) =
      (ExternalValue.ofBool hide, ExternalValue.ofBool !hide) := by
    cases hide <;> rfl
  unfold mask masked
  rw [hvalues]
  dsimp only
  cases hskip : p.skip with
  | some skip =>
      have hlast : length + 1 + (p.steps - length) ≤ p.steps + 1 := by omega
      obtain ⟨p', hfold, hsets⟩ :=
        foldlM_assign_sets h.sorted (Nat.le_add_left 1 length) hlast skip hide
      refine ⟨p', hfold, hsets.congr fun s k => if_congr ?_ rfl rfl⟩
      refine and_congr_left fun _ => ?_
      omega
  | none =>
      have hmarker : p.marker.getD p.steps = p.steps := by
        rw [h.marker, if_neg (by omega)]
        rfl
      obtain ⟨p₁, hfirst, hsets₁⟩ :=
        assign_sets h.sorted (s := p.steps) ⟨by omega, le_rfl⟩ p.query (!hide)
      obtain ⟨table, rfl, hsorted, hvalue⟩ := hsets₁
      obtain ⟨p₂, hsecond, hsets₂⟩ := assign_sets (p := p.assuming table) hsorted
        (s := length) ⟨hone hskip, hlength.le⟩ p.query hide
      refine ⟨p₂, ?_, (Sets.trans ⟨table, rfl, hsorted, hvalue⟩ hsets₂).congr fun s k => ?_⟩
      · rw [hmarker]
        change (p.assign p.steps p.query (.ofBool !hide)) >>= _ = _
        rw [hfirst]
        exact hsecond
      · rw [hvalue]
        simp only [and_comm]

theorem Steers.masked_eq_none_iff (h : p.Steers t first) (hs : 1 ≤ s ∧ s ≤ p.steps)
    (hk : t.IsHandle k) :
    p.masked length hide s k = none ↔ p.unrolling.value? s k = none := by
  have hopen := h.complete s k hs.1 hs.2 hk
  unfold masked
  cases hskip : p.skip with
  | some skip =>
      have hne := (h.skip skip hskip).2
      dsimp only
      split
      · rename_i hbeyond
        exact iff_of_false (by simp) fun hnone => hne (hbeyond.2.symm.trans (hopen hnone).1)
      · rfl
  | none =>
      have hsome : p.unrolling.value? s k ≠ none := fun hnone => by
        simpa [hskip] using (hopen hnone).2.1
      refine iff_of_false ?_ hsome
      dsimp only
      split
      · simp
      · split
        · simp
        · exact hsome

theorem Steers.of_masked_eq_some (h : p.Steers t (if hide then p.steps else length))
    (hlength : length < p.steps) (hone : p.skip = none → 1 ≤ length)
    (hv : p.masked length hide s k = some v) :
    ((1 ≤ s ∧ s ≤ p.steps) ∧ t.IsHandle k) ∧
      (v = true ↔ Wants p.query p.skip p.steps (if hide then length else p.steps) s k) := by
  have hold := h.values s k v
  unfold masked at hv
  unfold Wants at hold ⊢
  cases hskip : p.skip with
  -- With skip only its switches beyond the length change, and the query stays at the last step.
  | some skip =>
      obtain ⟨hhandle, hne⟩ := h.skip skip hskip
      rw [hskip] at hv hold
      dsimp only at hv hold ⊢
      split at hv
      · rename_i hbeyond
        obtain rfl := Option.some.inj hv
        obtain ⟨⟨hlt, hle⟩, rfl⟩ := hbeyond
        refine ⟨⟨⟨by omega, hle⟩, hhandle⟩, ?_⟩
        cases hide <;> simp <;> omega
      · rename_i hkeep
        obtain ⟨hrange, hwants⟩ := hold hv
        refine ⟨hrange, hwants.trans ?_⟩
        cases hide <;> simp <;> omega
  -- Without skip the query changes places between the length and the last step.
  | none =>
      rw [hskip] at hv hold
      dsimp only at hv hold ⊢
      split at hv
      · rename_i hat
        obtain rfl := Option.some.inj hv
        obtain ⟨rfl, rfl⟩ := hat
        refine ⟨⟨⟨hone hskip, hlength.le⟩, h.query⟩, ?_⟩
        cases hide <;> simp
        omega
      · rename_i hnot
        split at hv
        · rename_i hat
          obtain rfl := Option.some.inj hv
          obtain ⟨rfl, rfl⟩ := hat
          refine ⟨⟨⟨by omega, le_rfl⟩, h.query⟩, ?_⟩
          cases hide <;> simp
          omega
        · obtain ⟨hrange, hwants⟩ := hold hv
          refine ⟨hrange, hwants.trans ?_⟩
          cases hide <;> simp <;> omega

/-- Hiding the steps beyond a length sets the switches for a plan of that length, and showing them
sets the switches as they were. -/
theorem Steers.mask (hide : Bool) (h : p.Steers t (if hide then p.steps else length))
    (hlength : length < p.steps) (hone : p.skip = none → 1 ≤ length) :
    ∃ table, p.mask length hide = .ok (p.assuming table) ∧
      (p.assuming table).Steers t (if hide then length else p.steps) ∧
        ∀ s, (p.assuming table).Released s ↔ p.Released s := by
  obtain ⟨p', hmask, table, rfl, hsorted, hvalue⟩ := mask_sets h hlength hone hide
  refine ⟨table, hmask, ?_, fun s => and_congr_right fun hs => ?_⟩
  · refine ⟨h.template, h.started, h.fits, hsorted, h.query, h.skip, h.marker,
      fun s k v hv => ?_, fun s k hs hle hk hnone => ?_⟩
    · exact h.of_masked_eq_some hlength hone ((hvalue s k).symm.trans hv)
    · rw [hvalue, h.masked_eq_none_iff ⟨hs, hle⟩ hk] at hnone
      exact h.complete s k hs hle hk hnone
  · rw [hvalue]
    exact h.masked_eq_none_iff hs h.query

/-! ### Going on to a later step -/

open Classical in
/-- The switches after more steps were grounded and the query was moved to the last one. -/
noncomputable def extended (p : Planner β κ) (t : Template) (target s k : Nat) : Option Bool :=
  if k = p.query ∧ s = target then some true
  else if k = p.query ∧ p.marker = some s then if p.skip.isSome then none else some false
  else if (p.steps < s ∧ s ≤ target) ∧ t.IsHandle k then some false
  else p.unrolling.value? s k

theorem Steers.marker_eq_some_iff (h : p.Steers t length) :
    p.marker = some s ↔ 0 < p.steps ∧ s = p.steps := by
  rw [h.marker]
  split <;> simp <;> omega

theorem Steers.of_extended_eq_some (h : p.Steers t p.steps) (htarget : p.steps < target)
    (hv : p.extended t target s k = some v) :
    ((1 ≤ s ∧ s ≤ target) ∧ t.IsHandle k) ∧
      (v = true ↔ Wants p.query p.skip target target s k) := by
  unfold extended at hv
  simp only [h.marker_eq_some_iff] at hv
  split at hv
  · rename_i hat
    obtain ⟨rfl, rfl⟩ := hat
    obtain rfl := Option.some.inj hv
    refine ⟨⟨⟨by omega, le_rfl⟩, h.query⟩, ?_⟩
    simp [wants_self_iff le_rfl]
  · rename_i hnot
    split at hv
    · rename_i hat
      obtain ⟨rfl, hpos, rfl⟩ := hat
      split at hv
      · cases hv
      · obtain rfl := Option.some.inj hv
        refine ⟨⟨⟨hpos, htarget.le⟩, h.query⟩, ?_⟩
        simp [wants_self_iff htarget.le, htarget.ne]
    · rename_i hmarker
      split at hv
      · rename_i hnew
        obtain ⟨⟨hlt, hle⟩, hk⟩ := hnew
        obtain rfl := Option.some.inj hv
        refine ⟨⟨⟨by omega, hle⟩, hk⟩, ?_⟩
        simpa [wants_self_iff hle] using hnot
      · obtain ⟨⟨⟨hs, hle⟩, hk⟩, hwants⟩ := h.values s k v hv
        refine ⟨⟨⟨hs, by omega⟩, hk⟩, hwants.trans ?_⟩
        rw [wants_self_iff hle, wants_self_iff (hle.trans htarget.le)]
        omega

theorem Steers.extended_eq_none_iff (h : p.Steers t p.steps) (hs : 1 ≤ s ∧ s ≤ target)
    (htarget : p.steps < target) (hk : t.IsHandle k) : p.extended t target s k = none ↔
      k = p.query ∧ (p.Released s ∨ p.marker = some s ∧ p.skip.isSome) := by
  have hopen : s ≤ p.steps → p.unrolling.value? s k = none → k = p.query :=
    fun hle hnone => (h.complete s k hs.1 hle hk hnone).1
  -- At the last step the query has a value, so it is not among the released ones.
  have hlast : p.steps ≠ 0 → p.unrolling.value? p.steps p.query ≠ none := fun hne hnone =>
    (h.complete _ _ (by omega) le_rfl h.query hnone).2.2.ne rfl
  unfold extended Released
  simp only [h.marker_eq_some_iff]
  grind

/-- A planner that has grounded more steps and moved the query to the last one. -/
structure Extends (p : Planner β κ) (t : Template) (target : Nat) (p' : Planner β κ) : Prop where
  template : p'.unrolling.template = t
  started : p'.unrolling.started = true
  steps : p'.steps = target
  sorted : Ascending.IsSorted p'.unrolling.assigned
  query : p'.query = p.query
  skip : p'.skip = p.skip
  marker : p'.marker = some target
  value : ∀ s k, p'.unrolling.value? s k = p.extended t target s k

theorem Steers.extend (h : p.Steers t p.steps) (htarget : p.steps < target)
    (hfits : t.fits target) (he : p.Extends t target p') : p'.Steers t target := by
  have hpos : 0 < target := by omega
  refine ⟨he.template, ?_, ?_, he.sorted, ?_, ?_, ?_, ?_, ?_⟩
  all_goals simp only [he.steps, he.query, he.skip, he.value]
  · exact he.started.trans (decide_eq_true hpos).symm
  · exact fun _ => hfits
  · exact h.query
  · exact h.skip
  · rw [if_neg hpos.ne', he.marker]
  · exact fun s k v hv => h.of_extended_eq_some htarget hv
  · intro s k hs hle hk hnone
    obtain ⟨rfl, hreleased⟩ := (h.extended_eq_none_iff ⟨hs, hle⟩ htarget hk).mp hnone
    rcases hreleased with hreleased | ⟨hmarker, hsome⟩
    · obtain ⟨-, hsome, hlt⟩ := h.complete s _ hs hreleased.1.2 h.query hreleased.2
      exact ⟨rfl, hsome, hlt.trans htarget⟩
    · rw [h.marker_eq_some_iff] at hmarker
      exact ⟨rfl, hsome, hmarker.2 ▸ htarget⟩

/-- What was released stays released, and with skip the old marker is released as well. -/
theorem Steers.released_extend_iff (h : p.Steers t p.steps) (htarget : p.steps < target)
    (he : p.Extends t target p') :
    p'.Released s ↔ (p.marker = some s ∧ p.skip.isSome) ∨ p.Released s := by
  unfold Released
  rw [he.steps, he.query, he.value]
  constructor
  · rintro ⟨hs, hnone⟩
    exact ((h.extended_eq_none_iff hs htarget h.query).mp hnone).2.symm
  · intro hreleased
    have hs : 1 ≤ s ∧ s ≤ target := by
      rcases hreleased with ⟨hmarker, -⟩ | hreleased
      · rw [h.marker_eq_some_iff] at hmarker
        omega
      · omega
    exact ⟨hs, (h.extended_eq_none_iff hs htarget h.query).mpr ⟨rfl, hreleased.symm⟩⟩

theorem Steers.releases_extend (h : p.Steers t p.steps) (htarget : p.steps < target)
    (he : p.Extends t target p') : p'.releases =
      {body | ∃ s, (p.marker = some s ∧ p.skip.isSome) ∧
        body = [.positive (s * t.period + p.query)]} ∪ p.releases := by
  ext body
  unfold releases
  simp only [h.released_extend_iff htarget he, he.template, he.query, h.template, or_and_right,
    exists_or, Set.mem_union, Set.mem_ofPred_eq]

/-! ### The length that is tried -/

theorem usable_congr (h : p'.skip = p.skip) : p'.usable = p.usable := by
  unfold usable
  rw [h]

theorem one_le_usable (length : Nat) (h : p.skip = none) : 1 ≤ p.usable length := by
  unfold usable
  split
  · exact le_rfl
  · rename_i hnot
    simp only [h, Option.isNone_none, Bool.and_true, decide_eq_true_eq] at hnot
    omega

/-- The steps that are grounded when a length is solved. -/
def needed (p : Planner β κ) (length : Nat) : Nat := max p.steps (max (p.usable length) 1)

end Planner

end StablePlan
