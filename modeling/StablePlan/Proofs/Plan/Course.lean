import StablePlan.Proofs.Plan.Calls
import StablePlan.Proofs.Unrolling.Ledger
import StablePlan.Proofs.Unrolling.Showing
import Mathlib.Logic.Relation

/-!
The course of attempts. Whatever the template, the backend and the check are, an attempt is a
sequence of small events: the backend hears what the template has to say, it is asked, the check
accepts or rejects, and a rejection is blocked. What every event preserves is preserved by every
attempt, however it ends.
-/

namespace StablePlan

/-! ### What the template has to say -/

/-- What is told on account of a template: what is told at the start, what is told of a step, and
that the query is released at a step. -/
inductive Due (t : Template) (query : Nat) : Observation → Prop
  | start {o : Observation} : o ∈ t.startEvents → Due t query o
  | step {o : Observation} (s : Nat) : o ∈ t.eventsAt s → Due t query o
  | release {s : Nat} {l : Literal} : t.literal? s query = some l →
      Due t query (.rule (.constraint [l]))

/-- A backend before and after it was told something, which it may refuse. -/
inductive Hears {β : Type} [Backend β] : Observation → β → β → Prop
  | rule {r : Rule} {b b' : β} :
      Finishes (Backend.addRule b r) (· = b') (fun _ x => x = b') → Hears (.rule r) b b'
  | weightRule {r : WeightRule} {b b' : β} :
      Finishes (Backend.addWeightRule b r) (· = b') (fun _ x => x = b') → Hears (.weightRule r) b b'

/-- The backend has heard things that the template has to say. -/
def Attends {β : Type} [Backend β] (t : Template) (query : Nat) : β → β → Prop :=
  Relation.ReflTransGen fun b b' => ∃ o, Due t query o ∧ Hears o b b'

namespace Unrolling

variable {β : Type} [Backend β] {u : Unrolling} {b b₀ : β} {query s : Nat}

/-- Nothing has changed but the backend, which has heard things that the template has to say. -/
def Tells (u : Unrolling) (query : Nat) (b₀ : β) (s : Unrolling × β) : Prop :=
  s.1 = u ∧ Attends u.template query b₀ s.2

theorem finishes_tell (h : Attends u.template query b₀ b) {rule : Rule}
    (hdue : Due u.template query (.rule rule)) :
    Finishes (u.tell b rule) (u.Tells query b₀) fun _ => u.Tells query b₀ := by
  unfold tell
  split
  · rename_i b' hadd
    exact ⟨rfl, h.tail ⟨_, hdue, .rule (by rw [hadd]; rfl)⟩⟩
  · rename_i e b' hadd
    exact ⟨rfl, h.tail ⟨_, hdue, .rule (by rw [hadd]; rfl)⟩⟩

theorem finishes_tellWeight (h : Attends u.template query b₀ b) {rule : WeightRule}
    (hdue : Due u.template query (.weightRule rule)) :
    Finishes (u.tellWeight b rule) (u.Tells query b₀) fun _ => u.Tells query b₀ := by
  unfold tellWeight
  split
  · rename_i b' hadd
    exact ⟨rfl, h.tail ⟨_, hdue, .weightRule (by rw [hadd]; rfl)⟩⟩
  · rename_i e b' hadd
    exact ⟨rfl, h.tail ⟨_, hdue, .weightRule (by rw [hadd]; rfl)⟩⟩

theorem finishes_start (u : Unrolling) (b : β) (query : Nat) :
    Finishes (u.start b)
      (fun s => (s.1.template = u.template ∧ s.1.steps = u.steps) ∧
        Attends u.template query b s.2)
      fun _ => u.Tells query b := by
  unfold start
  split
  · exact ⟨⟨rfl, rfl⟩, .refl⟩
  · refine Finishes.bind (P := u.Tells query b) ?_ ?_
    · refine Finishes.foldlM (f := fun s k => tell s.1 s.2 (.fact k)) ?_ ⟨rfl, .refl⟩
      rintro ⟨_, b'⟩ k hk ⟨rfl, hattends⟩
      exact finishes_tell hattends (.start (List.mem_map_of_mem hk))
    · rintro ⟨_, b'⟩ ⟨rfl, hattends⟩
      exact ⟨⟨rfl, rfl⟩, hattends⟩

theorem finishes_tellAt (h : Attends u.template query b₀ b) {rule : Rule}
    (hrule : rule ∈ u.template.rules) :
    Finishes (tellAt s (u, b) rule) (u.Tells query b₀) fun _ => u.Tells query b₀ := by
  unfold tellAt
  dsimp only
  split
  · rename_i moved hmoved
    refine finishes_tell h (.step s (List.mem_append_left _ ?_))
    exact List.mem_flatMap.mpr ⟨rule, hrule, by rw [hmoved]; exact List.mem_singleton_self _⟩
  · exact ⟨rfl, h⟩

theorem finishes_tellWeightAt (h : Attends u.template query b₀ b) {rule : WeightRule}
    (hrule : rule ∈ u.template.weightRules) :
    Finishes (tellWeightAt s (u, b) rule) (u.Tells query b₀) fun _ => u.Tells query b₀ := by
  unfold tellWeightAt
  dsimp only
  split
  · rename_i moved hmoved
    refine finishes_tellWeight h (.step s (List.mem_append_right _ ?_))
    exact List.mem_flatMap.mpr ⟨rule, hrule, by rw [hmoved]; exact List.mem_singleton_self _⟩
  · exact ⟨rfl, h⟩

/-- Grounding a step tells what belongs to it, and counts the step if nothing fails. -/
theorem finishes_groundStep (h : Attends u.template query b₀ b) (s : Nat) :
    Finishes (groundStep (u, b) s)
      (fun r => r.1 = u.enter s ∧ Attends u.template query b₀ r.2)
      fun _ => u.Tells query b₀ := by
  unfold groundStep
  refine Finishes.bind (P := u.Tells query b₀) ?_ ?_
  · refine Finishes.foldlM ?_ ⟨rfl, h⟩
    rintro ⟨_, b'⟩ rule hrule ⟨rfl, hattends⟩
    exact finishes_tellAt hattends hrule
  · rintro ⟨u', b'⟩ ⟨rfl, hattends⟩
    refine Finishes.bind (P := Tells u' query b₀) ?_ ?_
    · refine Finishes.foldlM ?_ ⟨rfl, hattends⟩
      rintro ⟨_, b''⟩ rule hrule ⟨rfl, hattends'⟩
      exact finishes_tellWeightAt hattends' hrule
    · rintro ⟨_, b''⟩ ⟨rfl, hattends'⟩
      exact ⟨rfl, hattends'⟩

/-- An unrolling that has come further, with what its backend has heard. -/
structure Advances (u : Unrolling) (query : Nat) (b₀ : β) (s : Unrolling × β) : Prop where
  template : s.1.template = u.template
  steps : u.steps ≤ s.1.steps
  attends : Attends u.template query b₀ s.2

theorem finishes_foldlM_groundStep {u₀ : Unrolling} (n : Nat)
    (h : u₀.Advances query b₀ (u, b)) :
    Finishes ((List.range' (u.steps + 1) n).foldlM groundStep (u, b))
      (fun r => u₀.Advances query b₀ r ∧ r.1.steps = u.steps + n)
      fun _ => u₀.Advances query b₀ := by
  induction n generalizing u b with
  | zero => exact ⟨h, rfl⟩
  | succ n ih =>
      have htemplate : u.template = u₀.template := h.template
      rw [List.range'_succ, List.foldlM_cons]
      have hfirst := finishes_groundStep (htemplate.symm ▸ h.attends) (u.steps + 1)
      refine (hfirst.mono (fun _ => id) ?_).bind ?_
      · rintro e ⟨_, b'⟩ ⟨rfl, hattends⟩
        exact ⟨htemplate, h.steps, htemplate ▸ hattends⟩
      · rintro ⟨_, b'⟩ ⟨rfl, hattends⟩
        have hnext : u₀.Advances query b₀ (u.enter (u.steps + 1), b') :=
          ⟨htemplate, h.steps.trans (Nat.le_succ _), htemplate ▸ hattends⟩
        refine (ih hnext).mono ?_ fun _ _ => id
        rintro r ⟨hadvances, hsteps⟩
        refine ⟨hadvances, hsteps.trans ?_⟩
        show u.steps + 1 + n = u.steps + (n + 1)
        omega

/-- Grounding tells what the template has to say of the new steps. -/
theorem finishes_ground (u : Unrolling) (b : β) (query last : Nat) :
    Finishes (u.ground b (u.steps + 1) last)
      (fun r => u.Advances query b r ∧ last ≤ r.1.steps)
      fun _ => u.Advances query b := by
  unfold ground
  rw [if_neg (by simp)]
  split
  · exact ⟨rfl, le_rfl, .refl⟩
  · refine ((finishes_start u b query).mono (fun _ => id) ?_).bind ?_
    · rintro e ⟨_, b'⟩ ⟨rfl, hattends⟩
      exact ⟨rfl, le_rfl, hattends⟩
    · rintro ⟨u', b'⟩ ⟨⟨htemplate, hsteps⟩, hattends⟩
      rw [← show u'.steps = u.steps from hsteps]
      have h : u.Advances query b (u', b') := ⟨htemplate, hsteps.ge, hattends⟩
      refine (finishes_foldlM_groundStep (last + 1 - (u'.steps + 1)) h).mono ?_ fun _ _ => id
      rintro r ⟨hadvances, hlast⟩
      exact ⟨hadvances, by omega⟩

theorem finishes_release (u : Unrolling) (b : β) (step query : Nat) :
    Finishes (u.release b ⟨step, query⟩) (u.Advances query b) fun _ => u.Advances query b := by
  unfold release
  split
  · exact ⟨rfl, le_rfl, .refl⟩
  · split
    · exact ⟨rfl, le_rfl, .refl⟩
    · rename_i l hliteral
      set u' := { u with assigned := Ascending.remove ⟨step, query⟩ u.assigned } with hu'
      have hadvances : ∀ r, u'.Tells query b r → u.Advances query b r := by
        rintro ⟨_, b'⟩ ⟨rfl, hattends⟩
        exact ⟨rfl, le_rfl, hattends⟩
      exact (finishes_tell (u := u') .refl (.release hliteral)).mono hadvances fun _ => hadvances

end Unrolling

/-! ### What happens in an attempt -/

/-- Neither a rejection nor what a search came to. -/
def Notice.IsQuiet : Notice → Prop
  | .rejected .. | .searched _ => False
  | _ => True

namespace Planner

variable {β κ : Type} {p p' p'' : Planner β κ} {length target : Nat}

/-- Nothing was told or asked, and no rejection and no search was noted. -/
structure Drifts (p p' : Planner β κ) : Prop where
  backend : p'.backend = p.backend
  template : p'.unrolling.template = p.unrolling.template
  steps : p.steps ≤ p'.steps
  query : p'.query = p.query
  check : p'.check = p.check
  journal : ∃ notices, p'.journal.toList = p.journal.toList ++ notices ∧
    ∀ n ∈ notices, n.IsQuiet

theorem Drifts.of_same (hbackend : p'.backend = p.backend)
    (htemplate : p'.unrolling.template = p.unrolling.template) (hsteps : p.steps ≤ p'.steps)
    (hquery : p'.query = p.query) (hcheck : p'.check = p.check)
    (hjournal : p'.journal = p.journal) : Drifts p p' :=
  ⟨hbackend, htemplate, hsteps, hquery, hcheck, [], by rw [hjournal, List.append_nil], nofun⟩

theorem Drifts.refl (p : Planner β κ) : Drifts p p := .of_same rfl rfl le_rfl rfl rfl rfl

theorem Drifts.trans (h : Drifts p p') (h' : Drifts p' p'') : Drifts p p'' := by
  obtain ⟨notices, hjournal, hquiet⟩ := h.journal
  obtain ⟨notices', hjournal', hquiet'⟩ := h'.journal
  refine ⟨h'.backend.trans h.backend, h'.template.trans h.template, h.steps.trans h'.steps,
    h'.query.trans h.query, h'.check.trans h.check, notices ++ notices', ?_, fun n hn => ?_⟩
  · rw [hjournal', hjournal, List.append_assoc]
  · exact (List.mem_append.mp hn).elim (hquiet n) (hquiet' n)

/-- What was noted stays noted. -/
theorem Drifts.mem_journal (h : Drifts p p') {n : Notice} (hn : n ∈ p.journal) :
    n ∈ p'.journal := by
  obtain ⟨notices, hjournal, -⟩ := h.journal
  rw [← Array.mem_toList_iff] at hn ⊢
  rw [hjournal]
  exact List.mem_append_left _ hn

theorem drifts_note (p : Planner β κ) {n : Notice} (hn : n.IsQuiet) : Drifts p (p.note n) :=
  ⟨rfl, rfl, le_rfl, rfl, rfl, [n], Array.toList_push, by simpa using hn⟩

theorem drifts_noteStart (p : Planner β κ) (before : Unrolling) :
    Drifts p (p.noteStart before) := by
  unfold noteStart
  split
  · exact drifts_note p trivial
  · exact .refl p

theorem drifts_readMemory (p : Planner β κ) : Drifts p p.readMemory.2 := by
  have hgauge : Drifts p p.gauge.2 := by
    unfold gauge
    split <;> exact .of_same rfl rfl le_rfl rfl rfl rfl
  exact hgauge.trans (.of_same rfl rfl le_rfl rfl rfl rfl)

theorem drifts_foldl_remark (p : Planner β κ) (texts : List String) :
    Drifts p (texts.foldl (fun p text => p.note (.remark text)) p) := by
  induction texts generalizing p with
  | nil => exact .refl p
  | cons text texts ih => exact (drifts_note p (n := .remark text) trivial).trans (ih _)

/-- A call that failed in the unrolling and has told nothing. -/
def Stalls (p : Planner β κ) (e : PlanError) (p' : Planner β κ) : Prop :=
  Drifts p p' ∧ ∃ e', e = .unroll e'

theorem Drifts.stalls {e : PlanError} (h : Drifts p p') (h' : p'.Stalls e p'') : p.Stalls e p'' :=
  ⟨h.trans h'.1, h'.2⟩

theorem finishes_assign (p : Planner β κ) (step index : Nat) (value : ExternalValue) :
    Finishes (p.assign step index value) (Drifts p) p.Stalls := by
  unfold assign
  split
  · rename_i u hassign
    have hframe : u.template = p.unrolling.template ∧ u.steps = p.unrolling.steps := by
      unfold Unrolling.assign at hassign
      split at hassign
      · cases hassign
      · cases value <;> cases hassign <;> exact ⟨rfl, rfl⟩
    exact .of_same rfl hframe.1 hframe.2.ge rfl rfl rfl
  · exact ⟨.refl p, _, rfl⟩

/-- Hiding steps tells nothing. -/
theorem finishes_mask (p : Planner β κ) (length : Nat) (hide : Bool) :
    Finishes (p.mask length hide) (Drifts p) p.Stalls := by
  have hassign : ∀ {q : Planner β κ} {step index value}, Drifts p q →
      Finishes (q.assign step index value) (Drifts p) p.Stalls := fun hdrifts =>
    (finishes_assign _ _ _ _).mono (fun _ => hdrifts.trans) fun _ _ => hdrifts.stalls
  unfold mask
  dsimp only
  cases p.skip with
  | some skip => exact Finishes.foldlM (fun q step _ hq => hassign hq) (.refl p)
  | none => exact (hassign (.refl p)).bind fun q hq => hassign hq

/-- Only length zero may be tried as another one. -/
theorem max_usable_one (p : Planner β κ) (length : Nat) :
    max (p.usable length) 1 = max length 1 := by
  unfold usable
  split
  · rename_i hzero
    simp only [Bool.and_eq_true, decide_eq_true_eq] at hzero
    omega
  · rfl

theorem le_usable (p : Planner β κ) (length : Nat) : length ≤ p.usable length := by
  unfold usable
  split
  · rename_i hzero
    simp only [Bool.and_eq_true, decide_eq_true_eq] at hzero
    omega
  · exact le_rfl

/-- The check has rejected an answer, and the rejection was noted. -/
def noteRejected (p : Planner β κ) (check : κ) (length : Nat) (atoms : List (Nat × Symbol)) :
    Planner β κ :=
  { p with check := some check }.note (.rejected length atoms)

/-- If an error says that an atom is not shown, then it is one of a rejection. -/
def Explains (e : PlanError) (p : Planner β κ) : Prop :=
  ∀ s label, e = .unshown s label → ∃ length atoms, .rejected length atoms ∈ p.journal ∧
    (s, label) ∈ atoms ∧ p.unrolling.outputLiteral? s label = none

theorem Explains.drifts {e : PlanError} (h : p.Explains e) (hdrifts : Drifts p p') :
    p'.Explains e := by
  intro s label he
  obtain ⟨length, atoms, hmem, hatoms, hnone⟩ := h s label he
  refine ⟨length, atoms, hdrifts.mem_journal hmem, hatoms, ?_⟩
  rw [Unrolling.outputLiteral?_congr hdrifts.template]
  exact hnone

variable [Backend β] [ModelCheck κ]

/-- The check rejects what some model shows at a length within the grounded steps. -/
structure Rejects (p : Planner β κ) (check : κ) (length : Nat) (atoms : List (Nat × Symbol)) :
    Prop where
  within : length ≤ p.steps
  verdict : ∃ c m, p.check = some c ∧
    ModelCheck.check c (p.unrolling.answer m length) length = (.reject atoms, check)

/-- One event of an attempt. -/
inductive Happens : Planner β κ → Planner β κ → Prop
  | drifts {p p' : Planner β κ} : Drifts p p' → Happens p p'
  | hears {p : Planner β κ} {o : Observation} {b : β} : Due p.unrolling.template p.query o →
      Hears o p.backend b → Happens p { p with backend := b }
  | asks {p : Planner β κ} {report : SolveReport} {b : β} :
      Backend.solve p.backend p.unrolling.assumptions = (.ok report, b) →
        Happens p ({ p with backend := b }.note (.searched report))
  | asksInVain {p : Planner β κ} {e : SolveError} {b : β} :
      Backend.solve p.backend p.unrolling.assumptions = (.error e, b) →
        Happens p { p with backend := b }
  | accepts {p : Planner β κ} {c check : κ} {answer : Answer} {length : Nat} :
      p.check = some c → ModelCheck.check c answer length = (.accept, check) →
        Happens p { p with check := some check }
  | rejects {p : Planner β κ} {check : κ} {length : Nat} {atoms : List (Nat × Symbol)} :
      p.Rejects check length atoms →
        (atoms = [] ∨ ∃ a ∈ atoms, p.unrolling.outputLiteral? a.1 a.2 = none) →
          Happens p (p.noteRejected check length atoms)
  | blocks {p : Planner β κ} {check : κ} {length : Nat} {atoms : List (Nat × Symbol)}
      {body : List Literal} {b : β} : p.Rejects check length atoms →
        atoms.map (fun a => p.unrolling.outputLiteral? a.1 a.2) = body.map some →
          Hears (.rule (.constraint body)) p.backend b →
            Happens p { p.noteRejected check length atoms with backend := b }

/-- One event after the other. -/
def Course : Planner β κ → Planner β κ → Prop := Relation.ReflTransGen Happens

/-- A planner that is left by a call that failed. -/
def Halts (p : Planner β κ) (e : PlanError) (p' : Planner β κ) : Prop := Course p p' ∧ p'.Explains e

theorem Happens.course (h : Happens p p') : Course p p' := .single h

theorem Drifts.course (h : Drifts p p') : Course p p' := .single (.drifts h)

theorem Course.trans (h : Course p p') (h' : Course p' p'') : Course p p'' :=
  Relation.ReflTransGen.trans h h'

theorem Course.happens (h : Course p p') (h' : Happens p' p'') : Course p p'' := h.trans h'.course

theorem Course.drifts (h : Course p p') (h' : Drifts p' p'') : Course p p'' := h.trans h'.course

theorem Happens.steps_le (h : Happens p p') : p.steps ≤ p'.steps := by
  cases h with
  | drifts h => exact h.steps
  | _ => exact le_rfl

theorem Course.steps_le (h : Course p p') : p.steps ≤ p'.steps := by
  induction h with
  | refl => exact le_rfl
  | tail _ h ih => exact ih.trans h.steps_le

theorem Happens.template (h : Happens p p') :
    p'.unrolling.template = p.unrolling.template := by
  cases h with
  | drifts h => exact h.template
  | _ => rfl

theorem Course.template (h : Course p p') : p'.unrolling.template = p.unrolling.template := by
  induction h with
  | refl => rfl
  | tail _ h ih => exact h.template.trans ih

theorem Course.halts {e : PlanError} (h : Course p p') (h' : p'.Halts e p'') : p.Halts e p'' :=
  ⟨h.trans h'.1, h'.2⟩

theorem Halts.drifts {e : PlanError} (h : p.Halts e p') (h' : Drifts p' p'') : p.Halts e p'' :=
  ⟨h.1.drifts h', h.2.drifts h'⟩

/-- An error of the unrolling has nothing to explain. -/
theorem Course.halts_unroll {e : UnrollError} (h : Course p p') : p.Halts (.unroll e) p' :=
  ⟨h, nofun⟩

/-- What a backend has heard is part of the course of its planner. -/
theorem course_of_attends {b : β} (h : Attends p.unrolling.template p.query p.backend b) :
    Course p { p with backend := b } := by
  induction h with
  | refl => exact .refl
  | tail _ h ih =>
      obtain ⟨o, hdue, hhears⟩ := h
      exact ih.tail (.hears hdue hhears)

theorem course_of_advances {u : Unrolling} {b : β}
    (h : p.unrolling.Advances p.query p.backend (u, b)) :
    Course p { p with unrolling := u, backend := b } :=
  have hdrifts : Drifts { p with backend := b } { p with unrolling := u, backend := b } :=
    .of_same rfl h.template h.steps rfl rfl rfl
  (course_of_attends h.attends).drifts hdrifts

/-! ### What the calls of an attempt do -/

theorem finishes_groundTo (p : Planner β κ) (target : Nat) :
    Finishes (p.groundTo target) (fun p' => Course p p' ∧ target ≤ p'.steps) p.Halts := by
  have hground := p.unrolling.finishes_ground p.backend p.query target
  unfold groundTo
  dsimp only
  split
  · rename_i u b heq
    rw [heq] at hground
    obtain ⟨hadvances, hsteps⟩ := hground
    have hdrifts := ({ p with unrolling := u, backend := b }.drifts_noteStart p.unrolling).trans
      (drifts_note _ (n := .grounded (p.unrolling.steps + 1) target (Backend.ruleCount b)) trivial)
    exact ⟨(course_of_advances hadvances).drifts hdrifts, hsteps.trans hdrifts.steps⟩
  · rename_i e u b heq
    rw [heq] at hground
    have hdrifts := { p with unrolling := u, backend := b }.drifts_noteStart p.unrolling
    exact ((course_of_advances hground).drifts hdrifts).halts_unroll

/-- A call without events may come next. -/
theorem Course.finishes {x : Except (Failure β κ) (Planner β κ)} (h : Course p p')
    (hx : Finishes x (Drifts p') p'.Stalls) : Finishes x (Course p) p.Halts := by
  refine hx.mono (fun p'' h' => h.drifts h') ?_
  rintro _ p'' ⟨h', e, rfl⟩
  exact (h.drifts h').halts_unroll

theorem finishes_leaveMarker (p : Planner β κ) :
    Finishes p.leaveMarker (Course p) p.Halts := by
  unfold leaveMarker
  split
  · exact .refl
  · rename_i old _
    split
    · have hrelease := p.unrolling.finishes_release p.backend old p.query
      unfold release
      split
      · rename_i u b heq
        rw [heq] at hrelease
        exact course_of_advances hrelease
      · rename_i e u b heq
        rw [heq] at hrelease
        exact (course_of_advances hrelease).halts_unroll
    · exact Course.finishes .refl (finishes_assign p old p.query .off)

theorem finishes_moveQuery (p : Planner β κ) (target : Nat) :
    Finishes (p.moveQuery target) (Course p) p.Halts := by
  refine p.finishes_leaveMarker.bind fun p₁ h₁ => ?_
  refine (h₁.finishes (finishes_assign p₁ target p₁.query .on)).bind fun p₂ h₂ => ?_
  exact h₂.drifts (.of_same rfl rfl le_rfl rfl rfl rfl)

/-- After the missing steps were grounded a plan of the length fits within the steps. -/
theorem finishes_reach (p : Planner β κ) (length target : Nat) :
    Finishes (p.reach length target)
      (fun r => Course p r.2 ∧ (r.1 = true → target ≤ r.2.steps)) p.Halts := by
  unfold reach
  split
  · exact ⟨.refl, fun _ => ‹_›⟩
  · rename_i hnot
    have hread := p.drifts_readMemory
    generalize p.readMemory = gauge at hread ⊢
    obtain ⟨before, p₁⟩ := gauge
    dsimp only
    split
    · rename_i limit _
      have hnote := drifts_note p₁
        (n := .projected length (p₁.estimate before (target - p.steps)) limit) trivial
      refine ⟨(hread.trans (hnote.trans ?_)).course, nofun⟩
      exact .of_same rfl rfl le_rfl rfl rfl rfl
    · refine ((p₁.finishes_groundTo target).mono (fun _ => id) fun e p' => hread.course.halts).bind
        fun p₂ ⟨h₂, hsteps⟩ => ?_
      have hlearn : Drifts p₂ (p₂.readMemory.2.learn before p₂.readMemory.1 (target - p.steps)) :=
        p₂.drifts_readMemory.trans (.of_same rfl rfl le_rfl rfl rfl rfl)
      have h₃ := hread.course.trans (h₂.drifts hlearn)
      refine ((finishes_moveQuery _ target).mono (fun _ => id) fun e p' => h₃.halts).bind
        fun p₄ h₄ => ?_
      refine ⟨(h₃.trans h₄).drifts (.of_same rfl rfl le_rfl rfl rfl rfl), fun _ => ?_⟩
      exact hsteps.trans (hlearn.steps.trans h₄.steps_le)

theorem finishes_solveOnce (p : Planner β κ) :
    Finishes p.solveOnce (fun r => Course p r.2) p.Halts := by
  unfold solveOnce
  dsimp only
  set q := p.note (.search (Backend.ruleCount p.backend) (Backend.atomCount p.backend)
    p.unrolling.assumptions.length) with hq
  have hnote : Drifts p q := drifts_note p trivial
  split
  · rename_i e b heq
    exact ⟨hnote.course.happens (.asksInVain heq), nofun⟩
  · rename_i report b heq
    exact (hnote.course.happens (.asks heq)).drifts (.of_same rfl rfl le_rfl rfl rfl rfl)

/-- A rejection of what some model shows is blocked, or it is noted why it cannot be. -/
theorem finishes_block {check : κ} {atoms : List (Nat × Symbol)}
    (h : p.Rejects check length atoms) :
    Finishes ((p.noteRejected check length atoms).countRejected.block atoms) (Course p)
      p.Halts := by
  set q := (p.noteRejected check length atoms).countRejected with hq
  have hcount : ∀ q' : Planner β κ, Drifts q' q'.countRejected := fun q' =>
    .of_same rfl rfl le_rfl rfl rfl rfl
  rcases q.block_cases atoms with ⟨a, ha, hnone, herror⟩ | ⟨body, hbody, heq⟩
  · rw [herror]
    have hrejects : Happens p (p.noteRejected check length atoms) :=
      .rejects h (Or.inr ⟨a, ha, hnone⟩)
    refine ⟨hrejects.course.drifts (hcount _), fun s label he => ?_⟩
    obtain ⟨rfl, rfl⟩ := PlanError.unshown.inj he
    exact ⟨length, atoms, Array.mem_push_self, ha, hnone⟩
  · have hblocks : ∀ b, Finishes (Backend.addRule q.backend (.constraint body)) (· = b)
        (fun _ x => x = b) → Course p { q with backend := b } := fun b hb =>
      (Happens.blocks h hbody (.rule hb)).course.drifts (hcount _)
    rw [heq]
    revert hblocks
    cases Backend.addRule q.backend (.constraint body) with
    | ok b => exact fun hblocks => hblocks b rfl
    | error result => exact fun hblocks => ⟨hblocks result.2 rfl, nofun⟩

/-- A round follows a course, if what comes after a blocked answer does. -/
theorem finishes_round_course {p : Planner β κ}
    {rest : Planner β κ → Except (Failure β κ) (Attempt × Planner β κ)} (hlength : length ≤ p.steps)
    (hrest : ∀ p', length ≤ p'.steps → Finishes (rest p') (fun r => Course p' r.2) p'.Halts) :
    Finishes (p.round length rest) (fun r => Course p r.2) p.Halts := by
  refine p.finishes_solveOnce.bind ?_
  rintro ⟨result, p₁⟩ h₁
  replace h₁ : Course p p₁ := h₁
  dsimp only
  cases result with
  | unsatisfiable => exact h₁
  | unknown => exact h₁
  | satisfiable m =>
      unfold judge
      dsimp only
      cases hcheck : p₁.check with
      | none => exact h₁.drifts (drifts_note p₁ trivial)
      | some c =>
          have hremarks := p₁.drifts_foldl_remark
            (ModelCheck.remarks c (p₁.unrolling.answer m length) length)
          dsimp only
          generalize (ModelCheck.remarks c (p₁.unrolling.answer m length) length).foldl
            (fun p text => p.note (.remark text)) p₁ = p₂ at hremarks ⊢
          have hcheck₂ : p₂.check = some c := hremarks.check.trans hcheck
          have h₂ := h₁.drifts hremarks
          rw [← Unrolling.answer_congr hremarks.template]
          cases hverdict : ModelCheck.check c (p₂.unrolling.answer m length) length with
          | mk verdict check =>
          cases verdict with
          | accept =>
              exact (h₂.happens (.accepts hcheck₂ hverdict)).drifts (drifts_note _ trivial)
          | reject atoms =>
              have hrejects : p₂.Rejects check length atoms :=
                ⟨hlength.trans h₂.steps_le, c, m, hcheck₂, hverdict⟩
              dsimp only
              split
              · rename_i hempty
                have hnoted := h₂.happens (.rejects hrejects (Or.inl (List.isEmpty_iff.mp hempty)))
                exact hnoted.drifts (.of_same rfl rfl le_rfl rfl rfl rfl)
              · refine ((finishes_block hrejects).mono (fun _ => id) fun e p' => h₂.halts).bind ?_
                intro p₃ h₃
                have hcourse := h₂.trans h₃
                exact (hrest p₃ (hlength.trans hcourse.steps_le)).mono (fun r => hcourse.trans)
                  fun e p' => hcourse.halts

theorem finishes_solve_course {p : Planner β κ} (hlength : length ≤ p.steps) (retries : Nat) :
    Finishes (solve length retries p) (fun r => Course p r.2) p.Halts := by
  induction retries generalizing p with
  | zero =>
      rw [solve_eq]
      exact finishes_round_course hlength fun p' _ =>
        (drifts_note p' (n := .gaveUp length p'.retry.attempts) trivial).course
  | succ retries ih =>
      rw [solve_eq]
      exact finishes_round_course hlength fun p' hlength' => ih hlength'

theorem finishes_solveMasked_course {p : Planner β κ} (hlength : length ≤ p.steps) :
    Finishes (p.solveMasked length) (fun r => Course p r.2) p.Halts := by
  unfold solveMasked
  split
  · refine (Course.finishes .refl (finishes_mask p length true)).bind fun p₁ h₁ => ?_
    have hsolve := finishes_solve_course (hlength.trans h₁.steps_le) p₁.retry.attempts
    have hunmask : ∀ p₂ : Planner β κ, Finishes (p₂.mask length false) (Drifts p₂) p₂.Stalls :=
      fun p₂ => finishes_mask p₂ length false
    split
    · rename_i attempt p₂ heq
      rw [heq] at hsolve
      exact ((h₁.trans hsolve).finishes (hunmask p₂)).bind fun p₃ h₃ => h₃
    · rename_i e p₂ heq
      rw [heq] at hsolve
      -- The steps are shown again before the error is passed on.
      have hhalts : p.Halts e p₂ := h₁.halts hsolve
      refine ((hunmask p₂).mono (fun p₃ h₃ => hhalts.drifts h₃) ?_).bind fun p₃ h₃ => h₃
      rintro _ p₃ ⟨h₃, e', rfl⟩
      exact (hhalts.1.drifts h₃).halts_unroll
  · exact finishes_solve_course hlength p.retry.attempts

/-- However an attempt ends, its events are these. -/
theorem finishes_attempt_course (p : Planner β κ) (length : Nat) :
    Finishes (p.attempt length) (fun r => Course p r.2) p.Halts := by
  refine (p.finishes_reach (p.usable length) (max (p.usable length) 1)).bind ?_
  rintro ⟨admitted, p₁⟩ ⟨h₁, hwithin⟩
  change Finishes (p₁.conclude length admitted) _ _
  unfold conclude
  cases admitted with
  | false => exact h₁
  | true =>
      have hlength : p₁.usable length ≤ p₁.steps := by
        have := p.max_usable_one length
        have := p₁.max_usable_one length
        have : max (p.usable length) 1 ≤ p₁.steps := hwithin rfl
        omega
      have hcount : Drifts p₁
          { p₁ with tally := { p₁.tally with rules := Backend.ruleCount p₁.backend } } :=
        .of_same rfl rfl le_rfl rfl rfl rfl
      have h₂ := h₁.drifts hcount
      exact (finishes_solveMasked_course (hlength.trans hcount.steps)).mono (fun r => h₂.trans)
        fun e p' => h₂.halts

theorem Attempted.course {p₀ : Planner β κ} (h : Attempted p₀ p) : Course p₀ p := by
  induction h with
  | start => exact .refl
  | @attempt p length _ ih =>
      refine after_of_finishes (I := Course p₀) ?_
      exact (p.finishes_attempt_course length).mono (fun r => ih.trans) fun e p' h => ih.trans h.1

end Planner

end StablePlan
