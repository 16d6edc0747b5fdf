import StablePlan.Unrolling.Answer
import Mathlib.Data.List.Perm.Subperm

/-!
What an answer shows. A label is shown at a step if one of the indices that carry it is true there.
If only one index carries it, that is so exactly if the literal under which it is blocked holds.
-/

namespace StablePlan

namespace Template

variable {t : Template} {s : Nat} {label : Symbol}

/-- The label stands at one index of the output at most. -/
def HasOneIndex (t : Template) (label : Symbol) : Prop :=
  ∀ e ∈ t.output, ∀ e' ∈ t.output, e.2 = label → e'.2 = label → e.1 = e'.1

instance : Decidable (t.HasOneIndex label) :=
  inferInstanceAs (Decidable (∀ e ∈ t.output, ∀ e' ∈ t.output,
    e.2 = label → e'.2 = label → e.1 = e'.1))

/-- Only the labels of the output count. -/
theorem hasOneIndex_iff :
    (∀ label, t.HasOneIndex label) ↔ ∀ e ∈ t.output, t.HasOneIndex e.2 := by
  refine ⟨fun h e _ => h e.2, fun h label e he e' he' hlabel hlabel' => ?_⟩
  exact h e he e he e' he' rfl (hlabel'.trans hlabel.symm)

end Template

namespace Unrolling

variable {u : Unrolling} {m m' : Model} {s last last' : Nat} {label : Symbol} {l : Literal}
  {e : Nat × Symbol} {labels : List Symbol}

theorem flatMap_range_ite {α : Type} (xs : List α) (s n : Nat) :
    (List.range n).flatMap (fun step => if step = s then xs else []) =
      if s < n then xs else [] := by
  induction n with
  | zero => simp
  | succ n ih =>
      rw [List.range_succ, List.flatMap_append, ih, List.flatMap_singleton]
      rcases Nat.lt_trichotomy s n with hlt | rfl | hlt
      · simp [hlt, Nat.ne_of_gt hlt, Nat.lt_succ_of_lt hlt]
      · simp
      · simp [Nat.ne_of_lt hlt, Nat.lt_asymm hlt, show ¬s < n + 1 by omega]

/-- What is shown depends on the template only. -/
theorem answer_congr {u' : Unrolling} (h : u'.template = u.template) : u'.answer = u.answer := by
  unfold answer shownAt
  rw [h]

theorem outputLiteral?_congr {u' : Unrolling} (h : u'.template = u.template) :
    u'.outputLiteral? = u.outputLiteral? := by
  unfold outputLiteral?
  rw [h]

/-- The index of an entry is true at a step. -/
def shows (u : Unrolling) (m : Model) (s : Nat) (e : Nat × Symbol) : Bool :=
  (u.template.literal? s e.1).any m.holds

theorem shownAt_eq (u : Unrolling) (m : Model) (s : Nat) (e : Nat × Symbol) :
    u.shownAt m s e = if u.shows m s e then some (s, e.2) else none := by
  unfold shownAt shows
  cases u.template.literal? s e.1 <;> rfl

theorem mem_atoms_answer : (s, label) ∈ (u.answer m last).atoms ↔
    s ≤ last ∧ ∃ e ∈ u.template.output, u.shows m s e ∧ e.2 = label := by
  unfold answer
  simp only [List.mem_flatMap, List.mem_range, List.mem_filterMap, shownAt_eq,
    Option.ite_none_right_eq_some, Option.some.injEq, Prod.mk.injEq]
  constructor
  · rintro ⟨step, hstep, e, he, hshows, rfl, rfl⟩
    exact ⟨by omega, e, he, hshows, rfl⟩
  · rintro ⟨hle, e, he, hshows, rfl⟩
    exact ⟨s, by omega, e, he, hshows, rfl, rfl⟩

theorem filterMap_shownAt (u : Unrolling) (m : Model) (s : Nat) :
    u.template.output.filterMap (u.shownAt m s) =
      (u.template.output.filter (u.shows m s)).map fun e => (s, e.2) := by
  rw [← List.filterMap_eq_map, List.filterMap_filter]
  exact List.filterMap_congr fun e _ => u.shownAt_eq m s e

/-- The labels at a step are those of the entries that are shown there, in their order. -/
theorem labelsAt_answer (hle : s ≤ last) : (u.answer m last).labelsAt s =
    (u.template.output.filter (u.shows m s)).map Prod.snd := by
  set shown := fun step => (u.template.output.filter (u.shows m step)).map Prod.snd with hshown
  -- Only the step that is asked for has something to say.
  have hstep : ∀ step, ((u.template.output.filterMap (u.shownAt m step)).filter (·.1 == s)).map
      Prod.snd = if step = s then shown s else [] := by
    intro step
    rw [filterMap_shownAt, List.filter_map, List.map_map]
    split
    · subst step
      simp [hshown, Function.comp_def]
    · rename_i hne
      simp [Function.comp_def, hne]
  unfold Answer.labelsAt answer
  rw [List.filter_flatMap, List.map_flatMap]
  simp only [hstep]
  rw [flatMap_range_ite, if_pos (by omega)]

theorem outputLiteral?_of_mem (hone : u.template.HasOneIndex e.2) (he : e ∈ u.template.output) :
    u.outputLiteral? s e.2 = u.template.literal? s e.1 := by
  unfold outputLiteral?
  cases hfind : u.template.output.find? (·.2 = e.2) with
  | none =>
      have hnone := List.find?_eq_none.mp hfind e he
      simp at hnone
  | some e' =>
      have hlabel : e'.2 = e.2 := by simpa using List.find?_some hfind
      have hindex := hone e' (List.mem_of_find?_eq_some hfind) e he hlabel rfl
      exact congrArg (u.template.literal? s) hindex

/-- A label that is shown is the output of a literal that holds, if it has one index only. -/
theorem exists_outputLiteral? (hone : u.template.HasOneIndex label)
    (h : (s, label) ∈ (u.answer m last).atoms) :
    ∃ l, u.outputLiteral? s label = some l ∧ m.holds l := by
  obtain ⟨-, e, he, hshows, rfl⟩ := mem_atoms_answer.mp h
  rw [outputLiteral?_of_mem hone he]
  exact (Option.any_eq_true _ _).mp hshows

/-- Labels that are shown at a step of one answer are shown, as often, at the step of another one
if their literals hold. -/
theorem subperm_labelsAt_answer (hone : ∀ label ∈ labels, u.template.HasOneIndex label)
    (h : labels.Subperm ((u.answer m last).labelsAt s)) (hle : s ≤ last) (hle' : s ≤ last')
    (hholds : ∀ label ∈ labels, ∃ l, u.outputLiteral? s label = some l ∧ m'.holds l) :
    labels.Subperm ((u.answer m' last').labelsAt s) := by
  rw [labelsAt_answer hle] at h
  rw [labelsAt_answer hle']
  have hshows : ∀ e ∈ u.template.output, e.2 ∈ labels → u.shows m' s e := by
    intro e he hmem
    obtain ⟨l, hl, hm⟩ := hholds e.2 hmem
    rw [outputLiteral?_of_mem (hone e.2 hmem) he] at hl
    unfold shows
    rw [hl]
    exact hm
  -- The labels are among the entries that carry one of them, and all of these are shown.
  have hcarry : ((u.template.output.filter (u.shows m s)).map Prod.snd).filter (· ∈ labels) =
      ((u.template.output.filter (u.shows m' s)).filter
        fun e => u.shows m s e && e.2 ∈ labels).map Prod.snd := by
    rw [List.filter_map, List.filter_filter, List.filter_filter]
    congr 1
    refine List.filter_congr fun e he => ?_
    have := hshows e he
    grind
  have hall : labels.filter (· ∈ labels) = labels := by simp
  have hpart := List.Subperm.filter (· ∈ labels) h
  rw [hall, hcarry] at hpart
  exact hpart.trans (List.filter_sublist.map _).subperm

end Unrolling

end StablePlan
