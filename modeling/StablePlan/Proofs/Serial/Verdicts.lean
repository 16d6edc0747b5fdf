import StablePlan.Proofs.Serial.Minimum

/-!
Verdicts of the sequential check. It accepts a plan if the actions of every step can be executed one
after another. Otherwise it is on account of the first step where they cannot that it rejects the
plan, and what it names is shown and holds actions of that step which are bad by themselves.
-/

namespace StablePlan

/-- The label that shows an action. -/
def occurrence (a : Symbol) : Symbol := .function "occurs" [a]

/-- The action that a pair of an answer shows at a step. -/
def shownAction? (s : Nat) : Nat × Symbol → Option Symbol
  | (r, .function "occurs" [a]) => if r = s then some a else none
  | _ => none

/-- The actions that an answer shows with a step, in its order. -/
def Answer.shownActions (answer : Answer) (s : Nat) : List Symbol :=
  answer.atoms.filterMap (shownAction? s)

/-- The pairs that show all actions of a plan, step by step. -/
def Answer.shownPlan (answer : Answer) (length : Nat) : List (Nat × Symbol) :=
  (List.range' 1 length).flatMap fun s => (answer.shownActions s).map fun a => (s, occurrence a)

/-- The entries at which a function has a value are those that the values come from. -/
theorem filter_isSome_eq {α γ : Type} {f : α → Option γ} {g : γ → α}
    (h : ∀ x y, f x = some y → x = g y) (xs : List α) :
    xs.filter (fun x => (f x).isSome) = (xs.filterMap f).map g := by
  induction xs with
  | nil => rfl
  | cons x xs ih =>
      cases hx : f x with
      | none => rw [List.filter_cons_of_neg (by simp [hx]), List.filterMap_cons_none hx, ih]
      | some y =>
          rw [List.filter_cons_of_pos (by simp [hx]), List.filterMap_cons_some hx, List.map_cons,
            ← h x y hx, ih]

namespace SequentialCheck

variable {c : SequentialCheck} {answer : Answer} {length s : Nat} {label a : Symbol}
  {atoms : List (Nat × Symbol)} {chosen : List Symbol}

/-! ### Actions and their labels -/

theorem action?_occurrence (a : Symbol) : action? (occurrence a) = some a := rfl

theorem filterMap_occurrence (actions : List Symbol) :
    (actions.map occurrence).filterMap action? = actions := by
  rw [List.filterMap_map]
  exact List.filterMap_some

theorem eq_occurrence_of_action? (h : action? label = some a) : label = occurrence a := by
  unfold action? at h
  split at h
  · rename_i name action
    split at h
    · rename_i hname
      rw [hname, Option.some.inj h]
      rfl
    · cases h
  · cases h

theorem shownAction?_eq (s r : Nat) (label : Symbol) :
    shownAction? s (r, label) = if r = s then action? label else none := by
  match label with
  | .number _ | .string _ | .function _ [] | .function _ (_ :: _ :: _) =>
    simp [shownAction?, action?]
  | .function name [a] =>
    by_cases hname : name = "occurs"
    · simp [shownAction?, action?, hname]
    · simp [shownAction?, action?, hname]

theorem actionsAt_eq (answer : Answer) (s : Nat) :
    actionsAt answer s = answer.shownActions s := by
  unfold actionsAt Answer.labelsAt Answer.shownActions
  rw [List.filterMap_map, List.filterMap_filter]
  refine List.filterMap_congr fun x _ => ?_
  rw [shownAction?_eq]
  simp

theorem actionLabels_eq (answer : Answer) (s : Nat) :
    actionLabels answer s = (answer.shownActions s).map occurrence := by
  rw [← actionsAt_eq]
  exact filter_isSome_eq (fun _ _ => eq_occurrence_of_action?) _

theorem mem_shownActions : a ∈ answer.shownActions s ↔ (s, occurrence a) ∈ answer.atoms := by
  unfold Answer.shownActions
  rw [List.mem_filterMap]
  constructor
  · rintro ⟨⟨r, label⟩, hmem, hshown⟩
    rw [shownAction?_eq] at hshown
    split at hshown
    · rename_i hstep
      rwa [← hstep, ← eq_occurrence_of_action? hshown]
    · cases hshown
  · exact fun hmem => ⟨_, hmem, by rw [shownAction?_eq, if_pos rfl, action?_occurrence]⟩

/-! ### The first bad step -/

/-- The actions of a step within the plan are not serializable, and those of all earlier steps
are. -/
structure IsFirstBad (c : SequentialCheck) (answer : Answer) (length s : Nat) : Prop where
  within : 1 ≤ s ∧ s ≤ length
  bad : ¬c.actions.serializable (answer.shownActions s)
  earlier : ∀ r, 1 ≤ r → r < s → c.actions.serializable (answer.shownActions r)

theorem badStep?_eq_none_iff : c.badStep? answer length = none ↔
    ∀ s, 1 ≤ s → s ≤ length → c.actions.serializable (answer.shownActions s) := by
  unfold badStep?
  simp only [List.find?_eq_none, List.mem_range'_1, actionsAt_eq, Bool.not_eq_true',
    Bool.not_eq_false]
  exact ⟨fun h s hs hle => h s ⟨hs, by omega⟩, fun h s hs => h s hs.1 (by omega)⟩

theorem isFirstBad_of_badStep? (h : c.badStep? answer length = some s) :
    c.IsFirstBad answer length s := by
  unfold badStep? at h
  simp only [List.find?_range'_eq_some, List.mem_range'_1, actionsAt_eq,
    Bool.not_eq_true'] at h
  obtain ⟨hbad, hrange, hearlier⟩ := h
  refine ⟨⟨hrange.1, by omega⟩, by simpa using hbad, fun r hr hlt => ?_⟩
  simpa using hearlier r hr hlt

theorem check_eq_accept_iff : c.check answer length = .accept ↔
    ∀ s, 1 ≤ s → s ≤ length → c.actions.serializable (answer.shownActions s) := by
  rw [← badStep?_eq_none_iff]
  unfold check
  cases c.badStep? answer length <;> simp

/-! ### Rejections -/

theorem rejected_model (hmode : c.mode = .model) :
    c.rejected answer length s = answer.shownPlan length := by
  unfold rejected Answer.shownPlan
  rw [hmode]
  simp only [actionLabels_eq, List.map_map]
  rfl

/-- The labels at the positions are those of the actions at the positions. -/
theorem rejected_minimal (hmode : c.mode = .minimal) {positions : List Nat}
    (hminimal : c.minimal (answer.shownActions s) = some positions) :
    c.rejected answer length s =
      (positions.filterMap ((answer.shownActions s)[·]?)).map fun a => (s, occurrence a) := by
  unfold rejected
  rw [hmode]
  dsimp only
  rw [actionsAt_eq, hminimal, Option.getD_some, List.map_filterMap, actionLabels_eq]
  simp only [List.getElem?_map, Option.map_map]
  rfl

/-- What a rejection is about: actions of the first bad step, which are bad by themselves. In one
mode the whole plan is named, in the other one only these actions. -/
structure Convicts (c : SequentialCheck) (answer : Answer) (length : Nat)
    (atoms : List (Nat × Symbol)) (s : Nat) (chosen : List Symbol) : Prop where
  first : c.IsFirstBad answer length s
  part : chosen.Sublist (answer.shownActions s)
  bad : ¬c.actions.serializable chosen
  model : c.mode = .model → atoms = answer.shownPlan length
  minimal : c.mode = .minimal → atoms = chosen.map fun a => (s, occurrence a)

theorem exists_convicts (h : c.check answer length = .reject atoms) :
    ∃ s chosen, c.Convicts answer length atoms s chosen := by
  unfold check at h
  split at h
  · cases h
  rename_i s hstep
  obtain rfl := Verdict.reject.inj h
  have hfirst := isFirstBad_of_badStep? hstep
  cases hmode : c.mode with
  | model =>
      exact ⟨s, _, hfirst, .refl _, hfirst.bad, fun _ => rejected_model hmode,
        fun hother => absurd (hmode.symm.trans hother) (by simp)⟩
  | minimal =>
      obtain ⟨positions, hminimal, hascending, hrange, hbad⟩ := exists_minimal_bad hfirst.bad
      exact ⟨s, _, hfirst, sublist_filterMap_getElem? hascending hrange, hbad,
        fun hother => absurd (hmode.symm.trans hother) (by simp),
        fun _ => rejected_minimal hmode hminimal⟩

/-- The actions to blame are among what is rejected. -/
theorem Convicts.mem (h : c.Convicts answer length atoms s chosen) (ha : a ∈ chosen) :
    (s, occurrence a) ∈ atoms := by
  cases hmode : c.mode with
  | model =>
      rw [h.model hmode]
      obtain ⟨hone, hle⟩ := h.first.within
      exact List.mem_flatMap.mpr ⟨s, List.mem_range'_1.mpr (by omega),
        List.mem_map_of_mem (h.part.subset ha)⟩
  | minimal =>
      rw [h.minimal hmode]
      exact List.mem_map_of_mem ha

/-- Nothing is rejected that is not shown. -/
theorem Convicts.subset_atoms (h : c.Convicts answer length atoms s chosen) :
    atoms ⊆ answer.atoms := by
  intro x hx
  cases hmode : c.mode with
  | model =>
      rw [h.model hmode] at hx
      obtain ⟨r, -, hmap⟩ := List.mem_flatMap.mp hx
      obtain ⟨a, ha, rfl⟩ := List.mem_map.mp hmap
      exact mem_shownActions.mp ha
  | minimal =>
      rw [h.minimal hmode] at hx
      obtain ⟨a, ha, rfl⟩ := List.mem_map.mp hx
      exact mem_shownActions.mp (h.part.subset ha)

theorem rejected_subset_atoms (h : c.check answer length = .reject atoms) :
    atoms ⊆ answer.atoms := by
  obtain ⟨s, chosen, hconvicts⟩ := exists_convicts h
  exact hconvicts.subset_atoms

/-- The verdict of the sequential check. It accepts exactly if at every step of the plan the actions
that are shown with `occurs(A)` are serializable. Otherwise it rejects pairs that are shown, and
there are such: all actions of the plan in step order, or in the other mode actions of the first
bad step only, which are not serializable by themselves. -/
theorem check_exact (c : SequentialCheck) (answer : Answer) (length : Nat) :
    (c.check answer length = .accept ↔
      ∀ s, 1 ≤ s → s ≤ length → c.actions.serializable (answer.shownActions s)) ∧
    ∀ atoms, c.check answer length = .reject atoms → atoms ≠ [] ∧ atoms ⊆ answer.atoms ∧
      (c.mode = .model → atoms = answer.shownPlan length) ∧
      (c.mode = .minimal → ∃ s chosen, c.IsFirstBad answer length s ∧
        chosen.Sublist (answer.shownActions s) ∧ ¬c.actions.serializable chosen ∧
        atoms = chosen.map fun a => (s, occurrence a)) := by
  refine ⟨check_eq_accept_iff, fun atoms hreject => ?_⟩
  obtain ⟨s, chosen, hconvicts⟩ := exists_convicts hreject
  refine ⟨?_, hconvicts.subset_atoms, hconvicts.model, fun hmode =>
    ⟨s, chosen, hconvicts.first, hconvicts.part, hconvicts.bad, hconvicts.minimal hmode⟩⟩
  -- Without an action to blame the step would be serializable.
  obtain ⟨a, ha⟩ : ∃ a, a ∈ chosen :=
    List.exists_mem_of_ne_nil _ fun hnil => hconvicts.bad (hnil ▸ rfl)
  exact List.ne_nil_of_mem (hconvicts.mem ha)

/-- The circle is closed at the second step only. -/
def circleAnswer : Answer where
  facts := []
  atoms := [(1, occurrence (.constant "a")), (1, .constant "lit"), (1, occurrence (.constant "b")),
    (2, occurrence (.constant "c")), (2, .function "occurs" [.constant "c", .constant "a"]),
    (2, occurrence (.constant "x")), (2, occurrence (.constant "b")),
    (2, occurrence (.constant "a"))]

def circlePairs : List (Nat × Symbol) :=
  [(2, occurrence (.constant "c")), (2, occurrence (.constant "b")),
    (2, occurrence (.constant "a"))]

/-- Only the circle is rejected. -/
theorem check_exact_circle : circleCheck.mode = .minimal ∧
    circleCheck.check circleAnswer 2 = .reject circlePairs ∧
    circlePairs ≠ [] ∧ circlePairs ⊆ circleAnswer.atoms ∧
    ∃ s chosen, circleCheck.IsFirstBad circleAnswer 2 s ∧
      chosen.Sublist (circleAnswer.shownActions s) ∧ ¬circleCheck.actions.serializable chosen ∧
      circlePairs = chosen.map fun a => (s, occurrence a) := by
  have hreject : circleCheck.check circleAnswer 2 = .reject circlePairs := by decide +kernel
  obtain ⟨hne, hshown, -, hminimal⟩ := (check_exact circleCheck circleAnswer 2).2 _ hreject
  exact ⟨rfl, hreject, hne, hshown, hminimal rfl⟩

end SequentialCheck

end StablePlan
