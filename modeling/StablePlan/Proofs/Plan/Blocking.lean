import StablePlan.Proofs.Plan.Attempt
import StablePlan.Proofs.Plan.Course
import StablePlan.Proofs.Plan.Search
import StablePlan.Proofs.Serial.Verdicts

/-!
Blocking loses no executable plan. What the sequential check rejects contains labels of one step
whose actions cannot be executed one after another, and a model of any length that has the blocked
literals shows all of these labels again, as long as every label has one index.
-/

namespace StablePlan

/-- The body of the constraint that blocks rejected atoms. -/
def Unrolling.Blocks (u : Unrolling) (atoms : List (Nat × Symbol)) (body : List Literal) : Prop :=
  atoms.map (fun a => u.outputLiteral? a.1 a.2) = body.map some

theorem exists_map_some {α γ : Type} {f : α → Option γ} {xs : List α}
    (h : ∀ x ∈ xs, ∃ y, f x = some y) : ∃ ys : List γ, xs.map f = ys.map some := by
  induction xs with
  | nil => exact ⟨[], rfl⟩
  | cons x xs ih =>
      obtain ⟨y, hy⟩ := h x List.mem_cons_self
      obtain ⟨ys, hys⟩ := ih fun z hz => h z (List.mem_cons_of_mem x hz)
      exact ⟨y :: ys, by rw [List.map_cons, List.map_cons, hy, hys]⟩

theorem Transcript.messages_of_after {β : Type} {tr tr' : Transcript β} {message : Message}
    {x : Except (SolveError × β) β}
    (h : Finishes (tr.after message x) (· = tr') fun _ y => y = tr') :
    tr'.messages = tr.messages.push message := by
  cases x with
  | ok b => exact congrArg Transcript.messages (Eq.symm h)
  | error result => exact congrArg Transcript.messages (Eq.symm h)

/-- A transcript has the rule that was heard, and no other new one. -/
theorem Hears.rule_mem {β : Type} [Backend β] {o : Observation} {tr tr' : Transcript β}
    (h : Hears o tr tr') {rule : Rule} (hmem : .rule rule ∈ tr'.messages) :
    .rule rule ∈ tr.messages ∨ o = .rule rule := by
  cases h with
  | rule h =>
      rw [Transcript.messages_of_after h, Array.mem_push] at hmem
      exact hmem.imp_right fun heq => congrArg _ (Message.rule.inj heq).symm
  | weightRule h =>
      rw [Transcript.messages_of_after h, Array.mem_push] at hmem
      exact hmem.imp_right nofun

theorem Transcript.rule_mem_of_solve {β : Type} [Backend β] {tr tr' : Transcript β}
    {assumptions : List Literal} {result : Except SolveError SolveReport}
    (h : Backend.solve tr assumptions = (result, tr')) {rule : Rule}
    (hmem : .rule rule ∈ tr'.messages) : .rule rule ∈ tr.messages := by
  obtain ⟨-, rfl⟩ := Prod.mk.inj h
  exact (Array.mem_push.mp hmem).resolve_right nofun

open SequentialCheck

namespace Unrolling

variable {u : Unrolling} {c : SequentialCheck} {m m' : Model} {s last n : Nat}
  {atoms : List (Nat × Symbol)} {body : List Literal} {chosen : List Symbol}

theorem Blocks.exists_literal (h : u.Blocks atoms body) {a : Nat × Symbol} (ha : a ∈ atoms) :
    ∃ l ∈ body, u.outputLiteral? a.1 a.2 = some l := by
  have hmem : u.outputLiteral? a.1 a.2 ∈ body.map some := h ▸ List.mem_map_of_mem ha
  obtain ⟨l, hl, heq⟩ := List.mem_map.mp hmem
  exact ⟨l, hl, heq.symm⟩

theorem Blocks.exists_atom (h : u.Blocks atoms body) {l : Literal} (hl : l ∈ body) :
    ∃ a ∈ atoms, u.outputLiteral? a.1 a.2 = some l := by
  have hmem : some l ∈ atoms.map fun a => u.outputLiteral? a.1 a.2 := h ▸ List.mem_map_of_mem hl
  exact List.mem_map.mp hmem

/-- There is one way to block. -/
theorem Blocks.eq {body' : List Literal} (h : u.Blocks atoms body) (h' : u.Blocks atoms body') :
    body = body' :=
  List.map_injective_iff.mpr (Option.some_injective _) (h.symm.trans h')

/-- All that is shown can be blocked, if every label has one index. -/
theorem exists_blocks (hone : ∀ label, u.template.HasOneIndex label)
    (h : atoms ⊆ (u.answer m last).atoms) : ∃ body, u.Blocks atoms body :=
  exists_map_some fun a ha =>
    have ⟨l, hl, _⟩ := exists_outputLiteral? (hone a.2) (h ha)
    ⟨l, hl⟩

/-- The actions that a rejection is about are executed together in every model that has their
literals. -/
theorem not_serializable_of_convicts (hone : ∀ label, u.template.HasOneIndex label)
    (h : c.Convicts (u.answer m n) n atoms s chosen) (hlast : s ≤ last)
    (hblocks : u.Blocks atoms body) (hbody : ∀ l ∈ body, m'.holds l) :
    ¬c.actions.serializable (actionsAt (u.answer m' last) s) := by
  have hholds : ∀ label ∈ chosen.map occurrence,
      ∃ l, u.outputLiteral? s label = some l ∧ m'.holds l := by
    intro label hlabel
    obtain ⟨a, ha, rfl⟩ := List.mem_map.mp hlabel
    obtain ⟨l, hl, hliteral⟩ := hblocks.exists_literal (h.mem ha)
    exact ⟨l, hliteral, hbody l hl⟩
  have hshown : (chosen.map occurrence).Subperm ((u.answer m n).labelsAt s) := by
    have hlabels := h.part.map occurrence
    rw [← actionLabels_eq] at hlabels
    exact (hlabels.trans List.filter_sublist).subperm
  have hlabels : (chosen.map occurrence).Subperm ((u.answer m' last).labelsAt s) :=
    subperm_labelsAt_answer (fun label _ => hone label) hshown h.first.within.2 hlast hholds
  have hactions : chosen.Subperm (actionsAt (u.answer m' last) s) := by
    obtain ⟨part, hperm, hsublist⟩ := hlabels
    have hchosen := hperm.filterMap action?
    rw [filterMap_occurrence] at hchosen
    exact ⟨_, hchosen, hsublist.filterMap action?⟩
  exact fun hserial => h.bad (ActionTable.serializable_of_subperm hserial hactions)

/-- Whoever has the literals of a blocked rejection shows a step, within so many, whose actions
cannot be executed one after another. -/
def Condemns (u : Unrolling) (c : SequentialCheck) (n : Nat) (body : List Literal) : Prop :=
  ∀ m : Model, (∀ l ∈ body, m.holds l) → ∃ s, (1 ≤ s ∧ s ≤ n) ∧
    ∀ last, s ≤ last → ¬c.actions.serializable (actionsAt (u.answer m last) s)

theorem condemns_of_check (hone : ∀ label, u.template.HasOneIndex label)
    (h : c.check (u.answer m n) n = .reject atoms) (hblocks : u.Blocks atoms body) :
    u.Condemns c n body := by
  intro m' hbody
  obtain ⟨s, chosen, hconvicts⟩ := exists_convicts h
  exact ⟨s, hconvicts.first.within, fun last hlast =>
    not_serializable_of_convicts hone hconvicts hlast hblocks hbody⟩

theorem Blocks.congr {u' : Unrolling} (h : u.Blocks atoms body) (hu : u'.template = u.template) :
    u'.Blocks atoms body := by
  unfold Blocks
  rw [outputLiteral?_congr hu]
  exact h

theorem Condemns.congr {u' : Unrolling} (h : u.Condemns c n body)
    (hu : u'.template = u.template) : u'.Condemns c n body := by
  unfold Condemns
  rw [answer_congr hu]
  exact h

theorem Condemns.mono {n' : Nat} (h : u.Condemns c n body) (hle : n ≤ n') :
    u.Condemns c n' body := fun m hbody =>
  have ⟨s, ⟨hs, hn⟩, hbad⟩ := h m hbody
  ⟨s, ⟨hs, hn.trans hle⟩, hbad⟩

end Unrolling

namespace Planner

variable {β : Type} {p p' p₀ : Planner (Transcript β) SequentialCheck} {t : Template}
  {c : SequentialCheck} {query : Nat}

/-- A planner whose backend was told nothing but what the template has to say and the constraints
of rejections, each of which condemns only what cannot be executed. -/
structure Spares (p : Planner (Transcript β) SequentialCheck) (t : Template) (query : Nat)
    (c : SequentialCheck) : Prop where
  template : p.unrolling.template = t
  handle : p.query = query
  check : p.check = some c
  rejections : ∀ n atoms, .rejected n atoms ∈ p.journal →
    ∃ body, p.unrolling.Blocks atoms body ∧ p.unrolling.Condemns c p.steps body
  told : ∀ rule, .rule rule ∈ p.backend.messages → Due t query (.rule rule) ∨
    ∃ n atoms body, .rejected n atoms ∈ p.journal ∧ p.unrolling.Blocks atoms body ∧
      rule = .constraint body

/-- What a rejection condemns stays condemned, and what comes later is told on account of the
template. -/
theorem Spares.next (h : p.Spares t query c) (htemplate : p'.unrolling.template = t)
    (hsteps : p.steps ≤ p'.steps) (hquery : p'.query = query) (hcheck : p'.check = some c)
    (hjournal : ∀ n atoms, .rejected n atoms ∈ p'.journal ↔ .rejected n atoms ∈ p.journal)
    (htold : ∀ rule, .rule rule ∈ p'.backend.messages → .rule rule ∈ p.backend.messages ∨
      Due t query (.rule rule)) : p'.Spares t query c := by
  have hsame := htemplate.trans h.template.symm
  refine ⟨htemplate, hquery, hcheck, fun n atoms hmem => ?_, fun rule hmem => ?_⟩
  · obtain ⟨body, hblocks, hcondemns⟩ := h.rejections n atoms ((hjournal n atoms).mp hmem)
    exact ⟨body, hblocks.congr hsame, (hcondemns.mono hsteps).congr hsame⟩
  · rcases htold rule hmem with hmem | hdue
    · refine (h.told rule hmem).imp_right ?_
      rintro ⟨n, atoms, body, hrejected, hblocks, rfl⟩
      exact ⟨n, atoms, body, (hjournal n atoms).mpr hrejected, hblocks.congr hsame, rfl⟩
    · exact Or.inl hdue

/-- A new rejection condemns only what cannot be executed. -/
theorem Spares.reject {check : SequentialCheck} {n : Nat} {atoms : List (Nat × Symbol)}
    (h : p.Spares t query c) (hone : ∀ label, t.HasOneIndex label)
    (hrejects : p.Rejects check n atoms) : (p.noteRejected check n atoms).Spares t query c := by
  obtain ⟨c', m, hcheck, hverdict⟩ := hrejects.verdict
  obtain rfl : c = c' := Option.some.inj (h.check.symm.trans hcheck)
  obtain ⟨hreject, rfl⟩ : c.check (p.unrolling.answer m n) n = .reject atoms ∧ c = check :=
    Prod.mk.inj hverdict
  have hone' : ∀ label, p.unrolling.template.HasOneIndex label := h.template.symm ▸ hone
  obtain ⟨body, hblocks⟩ := Unrolling.exists_blocks hone' (rejected_subset_atoms hreject)
  have hcondemns := (Unrolling.condemns_of_check hone' hreject hblocks).mono hrejects.within
  refine ⟨h.template, h.handle, rfl, fun n' atoms' hmem => ?_, fun rule hmem => ?_⟩
  · rcases Array.mem_push.mp hmem with hmem | heq
    · exact h.rejections n' atoms' hmem
    · obtain ⟨rfl, rfl⟩ := Notice.rejected.inj heq
      exact ⟨body, hblocks, hcondemns⟩
  · refine (h.told rule hmem).imp_right ?_
    rintro ⟨n', atoms', body', hmem', hrest⟩
    exact ⟨n', atoms', body', Array.mem_push_of_mem _ hmem', hrest⟩

variable {readings : List Nat} {settings : Settings} {b : β}

/-- A new planner has rejected nothing, and its backend was told nothing. -/
theorem Spares.of_make (h : make t ⟨b, #[]⟩ readings settings (some c) = .ok p) :
    p.Spares t p.query c := by
  obtain ⟨-, -, -, -, hcheck, hunrolling, hbackend, -⟩ := make_eq_ok h
  refine ⟨by rw [hunrolling], rfl, hcheck, fun n atoms hmem => ?_, fun rule hmem => ?_⟩
  · rw [journal_of_make h] at hmem
    exact absurd hmem (Array.not_mem_empty _)
  · rw [hbackend] at hmem
    exact absurd hmem (Array.not_mem_empty _)

variable [Backend β]

theorem Spares.happens (h : p.Spares t query c) (hone : ∀ label, t.HasOneIndex label)
    (hp : Happens p p') : p'.Spares t query c := by
  cases hp with
  | drifts hdrifts =>
      refine h.next (hdrifts.template.trans h.template) hdrifts.steps
        (hdrifts.query.trans h.handle) (hdrifts.check.trans h.check) (fun n atoms => ?_)
        fun rule hmem => Or.inl (hdrifts.backend ▸ hmem)
      obtain ⟨notices, hjournal, hquiet⟩ := hdrifts.journal
      rw [← Array.mem_toList_iff, hjournal, List.mem_append, Array.mem_toList_iff]
      exact ⟨fun hmem => hmem.resolve_right fun hnew => hquiet _ hnew, Or.inl⟩
  | hears hdue hhears =>
      refine h.next h.template le_rfl h.handle h.check (fun _ _ => .rfl) fun rule hmem => ?_
      refine (hhears.rule_mem hmem).imp_right ?_
      rintro rfl
      exact h.handle ▸ h.template ▸ hdue
  | asks hsolve =>
      refine h.next h.template le_rfl h.handle h.check (fun n atoms => ?_) fun rule hmem => ?_
      · exact Array.mem_push.trans (or_iff_left nofun)
      · exact Or.inl (Transcript.rule_mem_of_solve hsolve hmem)
  | asksInVain hsolve =>
      exact h.next h.template le_rfl h.handle h.check (fun _ _ => .rfl) fun rule hmem =>
        Or.inl (Transcript.rule_mem_of_solve hsolve hmem)
  | accepts hcheck hverdict =>
      obtain rfl := Option.some.inj (h.check.symm.trans hcheck)
      obtain ⟨-, rfl⟩ := Prod.mk.inj hverdict
      exact h.next h.template le_rfl h.handle rfl (fun _ _ => .rfl) fun _ => Or.inl
  | rejects hrejects _ => exact h.reject hone hrejects
  | blocks hrejects hbody hhears =>
      have hnoted := h.reject hone hrejects
      refine ⟨hnoted.template, hnoted.handle, hnoted.check, hnoted.rejections, fun rule hmem => ?_⟩
      rcases hhears.rule_mem hmem with hmem | heq
      · exact hnoted.told rule hmem
      · exact Or.inr ⟨_, _, _, Array.mem_push_self, hbody, (Observation.rule.inj heq).symm⟩

theorem Spares.course (h : p.Spares t query c) (hone : ∀ label, t.HasOneIndex label)
    (hp : Course p p') : p'.Spares t query c := by
  induction hp with
  | refl => exact h
  | tail _ hp ih => exact ih.happens hone hp

/-- Blocking loses no executable plan. A planner with the sequential check, in either mode, and
with a template in which no label stands at two indices may have made any attempts. Whatever was
rejected, at any length, has a constraint, and every model that violates it shows, at some step,
actions that cannot be executed one after another; and no other constraint was told beside what the
template has to say. No attempt fails for want of an atom to block. -/
theorem blocking_loses_no_plan (hone : ∀ label, t.HasOneIndex label)
    (hmake : make t ⟨b, #[]⟩ readings settings (some c) = .ok p₀) (hreached : Attempted p₀ p) :
    (∀ n atoms, .rejected n atoms ∈ p.journal → ∃ body, p.unrolling.Blocks atoms body ∧
        ∀ m : Model, (∀ l ∈ body, m.holds l) → ∃ s, (1 ≤ s ∧ s ≤ p.steps) ∧
          ¬c.actions.serializable (actionsAt (p.unrolling.answer m p.steps) s)) ∧
      (∀ rule, .rule rule ∈ p.backend.messages → Due t p.query (.rule rule) ∨
        ∃ n atoms body, .rejected n atoms ∈ p.journal ∧ p.unrolling.Blocks atoms body ∧
          rule = .constraint body) ∧
      ∀ length, Finishes (p.attempt length) (fun _ => True)
        fun e _ => ∀ s label, e ≠ .unshown s label := by
  have h := (Spares.of_make hmake).course hone hreached.course
  refine ⟨fun n atoms hmem => ?_, h.handle.symm ▸ h.told, fun length => ?_⟩
  · obtain ⟨body, hblocks, hcondemns⟩ := h.rejections n atoms hmem
    refine ⟨body, hblocks, fun m hbody => ?_⟩
    obtain ⟨s, hs, hbad⟩ := hcondemns m hbody
    exact ⟨s, hs, hbad p.steps hs.2⟩
  · refine (p.finishes_attempt_course length).mono (fun _ _ => trivial) ?_
    rintro e p' ⟨hcourse, hexplains⟩ s label rfl
    -- The atom would be one of a rejection, and these all have their literals.
    obtain ⟨n, atoms, hmem, hatom, hnone⟩ := hexplains s label rfl
    obtain ⟨body, hblocks, -⟩ := (h.course hone hcourse).rejections n atoms hmem
    obtain ⟨l, -, hl⟩ := hblocks.exists_literal hatom
    exact absurd (hl.symm.trans hnone) (by simp)

end Planner

/-! ### Two actions in each other's way -/

/-- Two actions of which each destroys what the other needs. The goal is to execute both. -/
def clashProgram : List Statement := [
  .external 1 .free, .output (.constant "query") [.positive 1],
  .rule ⟨true, [2, 3], []⟩, .output (.function "occurs" [.constant "a"]) [.positive 2],
  .output (.function "occurs" [.constant "b"]) [.positive 3],
  .rule ⟨false, [], [.positive 1, .negative 2]⟩, .rule ⟨false, [], [.positive 1, .negative 3]⟩]

def clashCheck : SequentialCheck := .ofFacts
  [.function "pre" [.constant "a", .constant "p"], .function "del" [.constant "b", .constant "p"],
    .function "pre" [.constant "b", .constant "q"], .function "del" [.constant "a", .constant "q"]]
  .minimal

def clashAtoms : List (Nat × Symbol) :=
  [(1, .function "occurs" [.constant "a"]), (1, .function "occurs" [.constant "b"])]

namespace Planner

/-- The step with both actions is rejected, and what was told since condemns no other one. -/
theorem blocking_loses_no_plan_clashProgram : ∃ r t p₀,
    (Reasoner.empty .unlimited).load clashProgram = .ok r ∧ r.compile = .ok t ∧
    (∀ label, t.HasOneIndex label) ∧
    make t (⟨Reasoner.empty .unlimited, #[]⟩ : Transcript Reasoner) [] lampSettings
      (some clashCheck) = .ok p₀ ∧
    .rejected 1 clashAtoms ∈ (after (p₀.attempt 1)).journal ∧
    ∃ body, (after (p₀.attempt 1)).unrolling.Blocks clashAtoms body ∧
      ∀ m : Model, (∀ l ∈ body, m.holds l) →
        ∃ s, (1 ≤ s ∧ s ≤ (after (p₀.attempt 1)).steps) ∧
          ¬clashCheck.actions.serializable (actionsAt
            ((after (p₀.attempt 1)).unrolling.answer m (after (p₀.attempt 1)).steps) s) := by
  obtain ⟨r, hload, h⟩ := exists_ok_of_any (x := (Reasoner.empty .unlimited).load clashProgram)
    (f := fun r => r.compile.toOption.any fun t => (∀ e ∈ t.output, t.HasOneIndex e.2) &&
      (make t (⟨Reasoner.empty .unlimited, #[]⟩ : Transcript Reasoner) [] lampSettings
        (some clashCheck)).toOption.any fun p =>
          .rejected 1 clashAtoms ∈ (after (p.attempt 1)).journal)
    (by decide +kernel)
  obtain ⟨t, hcompile, h⟩ := exists_ok_of_any h
  rw [Bool.and_eq_true, decide_eq_true_eq] at h
  obtain ⟨hindex, h⟩ := h
  obtain ⟨p₀, hmake, h⟩ := exists_ok_of_any h
  have hone := Template.hasOneIndex_iff.mpr hindex
  have hrejected := of_decide_eq_true h
  exact ⟨r, t, p₀, hload, hcompile, hone, hmake, hrejected,
    (blocking_loses_no_plan hone hmake (.attempt 1 .start)).1 1 clashAtoms hrejected⟩

end Planner

end StablePlan
