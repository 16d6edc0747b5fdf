import StablePlan.Proofs.Symbol.Order
import StablePlan.Proofs.Unrolling.Assuming
import StablePlan.Proofs.Unrolling.Stepping

/-!
The externals of a compiled program. A primed one is a bridge to the step before. Every other one
has a slot of its own, and the template has the slot under its label as the handle of the external.
-/

namespace StablePlan

/-! ### Handles -/

/-- What the layout of any draft gives. A handle is an index of the step, belongs to one label, and
its value may be chosen. -/
structure Template.Laid (t : Template) : Prop extends t.Banded where
  handle_range : ∀ k, t.IsHandle k → 1 ≤ k ∧ k ≤ t.period
  symbol_eq : ∀ symbol symbol' k, (symbol, k) ∈ t.externals → (symbol', k) ∈ t.externals →
    symbol = symbol'
  choice : ∀ k, t.IsHandle k → ⟨true, [t.period + k], []⟩ ∈ t.rules

theorem Template.mem_of_external?_eq_some {t : Template} {symbol : Symbol} {k : Nat}
    (h : t.external? symbol = some k) : (symbol, k) ∈ t.externals := by
  obtain ⟨⟨symbol', k'⟩, hfind, rfl⟩ := Option.map_eq_some_iff.mp h
  have heq : symbol' = symbol := by simpa using List.find?_some hfind
  exact heq ▸ List.mem_of_find?_eq_some hfind

/-- The atom is an external with the label. -/
structure IsExternal (log : List Observation) (symbol : Symbol) (a : Nat) : Prop where
  given : a ∈ (theoryOf log).given
  label : Observation.label symbol a ∈ log

theorem Symbol.not_isPrimed_unprimed (symbol : Symbol) : ¬symbol.unprimed.isPrimed := by
  unfold isPrimed
  cases symbol with
  | number n => simp [unprimed, name?]
  | string s => simp [unprimed, name?]
  | function name arguments =>
      simp only [unprimed, name?, String.toList_ofList, withoutPrimes, List.getLast?_reverse,
        decide_eq_true_eq]
      intro hhead
      have hprime := List.head?_dropWhile_not (· == prime) name.toList.reverse
      rw [hhead] at hprime
      simp at hprime

namespace Bands

variable {d : Draft} {b : Bands} {symbol : Symbol} {a k : Nat} {atoms : List Nat}
  {table : List (Symbol × Nat)}

/-- Enters the label of an atom with its slot. -/
def enterLabel (b : Bands) (table : List (Symbol × Nat)) (a : Nat) : List (Symbol × Nat) :=
  match b.draft.label? a, b.slot? a with
  | some symbol, some k => Ascending.put symbol k table
  | _, _ => table

theorem mem_of_mem_foldl_enterLabel (h : (symbol, k) ∈ atoms.foldl b.enterLabel table) :
    (symbol, k) ∈ table ∨
      ∃ a ∈ atoms, b.draft.label? a = some symbol ∧ b.slot? a = some k := by
  induction atoms generalizing table with
  | nil => exact Or.inl h
  | cons a atoms ih =>
      rcases ih h with hmem | ⟨a', ha', hlabel⟩
      · unfold enterLabel at hmem
        split at hmem
        · rename_i symbol' k' hsymbol hk
          rcases Ascending.eq_or_mem_of_mem_put hmem with heq | hmem
          · obtain ⟨rfl, rfl⟩ := Prod.mk.inj heq
            exact Or.inr ⟨a, List.mem_cons_self, hsymbol, hk⟩
          · exact Or.inl hmem
        · exact Or.inl hmem
      · exact Or.inr ⟨a', List.mem_cons_of_mem _ ha', hlabel⟩

/-- An entry stays if its label belongs to no other slot. -/
theorem mem_foldl_enterLabel (hmem : (symbol, k) ∈ table)
    (hown : ∀ a ∈ atoms, b.draft.label? a = some symbol → ∀ k', b.slot? a = some k' → k' = k) :
    (symbol, k) ∈ atoms.foldl b.enterLabel table := by
  induction atoms generalizing table with
  | nil => exact hmem
  | cons a atoms ih =>
      refine ih ?_ fun a' ha' => hown a' (List.mem_cons_of_mem _ ha')
      unfold enterLabel
      split
      · rename_i symbol' k' hsymbol hk
        by_cases heq : symbol = symbol'
        · subst heq
          rw [hown a List.mem_cons_self hsymbol k' hk]
          exact Ascending.mem_put_self
        · exact Ascending.mem_put_of_ne heq hmem
      · exact hmem

theorem mem_foldl_enterLabel_of_mem (ha : a ∈ atoms) (hlabel : b.draft.label? a = some symbol)
    (hslot : b.slot? a = some k)
    (hown : ∀ a ∈ atoms, b.draft.label? a = some symbol → ∀ k', b.slot? a = some k' → k' = k) :
    (symbol, k) ∈ atoms.foldl b.enterLabel table := by
  induction atoms generalizing table with
  | nil => exact absurd ha List.not_mem_nil
  | cons a' atoms ih =>
      rw [List.foldl_cons]
      rcases List.mem_cons.mp ha with rfl | ha
      · refine mem_foldl_enterLabel ?_ fun x hx => hown x (List.mem_cons_of_mem _ hx)
        unfold enterLabel
        rw [hlabel, hslot]
        exact Ascending.mem_put_self
      · exact ih ha fun x hx => hown x (List.mem_cons_of_mem _ hx)

theorem Lays.externals_eq (h : Lays d b) {t : Template} (ht : b.template = .ok t) :
    t.externals = (d.atoms.filter fun a => b.classOf a = .bridgeOut).foldl b.enterLabel [] := by
  obtain ⟨rules, weightRules, -, -, rfl⟩ := Bands.template_eq_ok ht
  rw [← h.draft]
  rfl

/-- A handle is the slot of an unprimed external. -/
theorem Lays.exists_of_mem_externals (h : Lays d b) {t : Template} (ht : b.template = .ok t)
    (hk : (symbol, k) ∈ t.externals) : ∃ a, b.classOf a = .bridgeOut ∧
      d.label? a = some symbol ∧ b.slot? a = some k := by
  rw [h.externals_eq ht] at hk
  rcases mem_of_mem_foldl_enterLabel hk with hmem | ⟨a, ha, hlabel, hslot⟩
  · exact absurd hmem List.not_mem_nil
  · rw [h.draft] at hlabel
    exact ⟨a, by simpa using (List.mem_filter.mp ha).2, hlabel, hslot⟩

theorem Lays.laid (h : Lays d b) {t : Template} (ht : b.template = .ok t) : t.Laid := by
  have hperiod : t.period = b.period := by
    obtain ⟨rules, weightRules, -, -, rfl⟩ := Bands.template_eq_ok ht
    rfl
  refine ⟨h.banded ht, ?_, fun symbol symbol' k hk hk' => ?_, ?_⟩
  · rintro k ⟨symbol, hk⟩
    obtain ⟨a, -, -, hslot⟩ := h.exists_of_mem_externals ht hk
    have hrange := slot?_range hslot
    rw [hperiod]
    exact ⟨hrange.1, hrange.2.2⟩
  · obtain ⟨a, -, hlabel, hslot⟩ := h.exists_of_mem_externals ht hk
    obtain ⟨a', -, hlabel', hslot'⟩ := h.exists_of_mem_externals ht hk'
    -- Two atoms never share a slot, and only the first label of an atom counts.
    obtain rfl := slotIn_injective hslot hslot'
    exact Option.some.inj (hlabel.symm.trans hlabel')
  · rintro k ⟨symbol, hk⟩
    obtain ⟨a, hclass, -, hslot⟩ := h.exists_of_mem_externals ht hk
    have hrule : ⟨true, [b.period + k], []⟩ ∈ b.slotRules a (b.period + k) := by
      refine List.mem_append_left _ ?_
      rw [if_pos hclass]
      exact List.mem_singleton_self _
    have hboundary := h.mem_boundaryRules_iff.mpr (Or.inl ⟨a, _, h.id?_of_slot hslot, hrule⟩)
    obtain ⟨rules, weightRules, -, -, rfl⟩ := Bands.template_eq_ok ht
    exact mem_dedup.mpr (List.mem_append_right _ hboundary)

end Bands

theorem Draft.laid_of_layOut {d : Draft} {t : Template} (h : d.layOut = .ok t) : t.Laid := by
  obtain ⟨b, hlays, ht⟩ := exists_lays_of_layOut h
  exact hlays.laid ht

/-- Whatever a program says, and whatever its consequences are taken to be, its template is laid
out. -/
theorem laid_of_compile {replay : List Observation} {consequences : Consequences} {t : Template}
    (h : compile replay consequences = .ok t) : t.Laid := by
  obtain ⟨-, -, f, -, -, -, hlayOut⟩ := Reasoner.compile_eq_ok h
  exact Draft.laid_of_layOut hlayOut

namespace Unrolling

variable {u : Unrolling} {s k : Nat}

/-- Every switch is a handle at a grounded step. -/
def Switched (u : Unrolling) : Prop := ∀ s k v, u.value? s k = some v →
  (1 ≤ s ∧ s ≤ u.steps) ∧ u.template.IsHandle k

theorem inRange_handle (hlaid : u.template.Laid) (hfits : u.template.fits u.steps)
    (hs : s ≤ u.steps) (hk : u.template.IsHandle k) :
    InRange maxAtom (s * u.template.period + k) := by
  obtain ⟨hone, hle⟩ := hlaid.handle_range k hk
  have hmax := Template.le_maxAtom_of_fits hfits (by omega)
  have hmul : s * u.template.period ≤ u.steps * u.template.period := Nat.mul_le_mul_right _ hs
  exact ⟨by omega, by omega⟩

theorem Switched.assumable (h : u.Switched) (hlaid : u.template.Laid)
    (hfits : u.template.fits u.steps) : u.Assumable := fun s k v hv =>
  inRange_handle hlaid hfits (h s k v hv).1.2 (h s k v hv).2

end Unrolling

namespace Compiled

variable {log : List Observation} {d : Draft} {b : Bands} {t : Template} {a k s : Nat}
  {symbol : Symbol} {M : Set Nat}

/-- The class of an external says whether its label is primed. -/
theorem classOf_external (h : Compiled log d b t) (ha : IsExternal log symbol a) :
    b.classOf a = if symbol.isPrimed then .bridgeIn else .bridgeOut := by
  have hexternal := (h.remains.externals a).mpr ha.given
  have hlabel := (h.label?_eq hexternal).mpr ha.label
  have hclass := h.lays.isOfClass h.remains a
  rcases h.lays.external_cases h.remains hexternal with hc | hc
  all_goals
    rw [hc] at hclass ⊢
    obtain ⟨-, first, hfirst, hprimed⟩ := hclass
    obtain rfl := Option.some.inj (hlabel.symm.trans hfirst)
    simp [hprimed]

theorem isExternal_of_bridgeOut (h : Compiled log d b t) (ha : b.classOf a = .bridgeOut) :
    ∃ symbol, IsExternal log symbol a ∧ ¬symbol.isPrimed ∧ d.label? a = some symbol := by
  have hclass := h.lays.isOfClass h.remains a
  rw [ha] at hclass
  obtain ⟨hexternal, symbol, hlabel, hprimed⟩ := hclass
  exact ⟨symbol, ⟨(h.remains.externals a).mp hexternal, (h.label?_eq hexternal).mp hlabel⟩,
    hprimed, hlabel⟩

theorem laid (h : Compiled log d b t) : t.Laid := h.lays.laid h.template

/-- The handles of a template are the slots of the externals that are not primed. -/
theorem mem_externals_iff (h : Compiled log d b t) : (symbol, k) ∈ t.externals ↔
    ∃ a, IsExternal log symbol a ∧ ¬symbol.isPrimed ∧ b.slot? a = some k := by
  have hout : ∀ a, a ∈ d.atoms.filter (fun a => b.classOf a = .bridgeOut) →
      b.draft.label? a = some symbol → IsExternal log symbol a ∧ ¬symbol.isPrimed := by
    intro a ha hlabel
    obtain ⟨-, hclass⟩ := List.mem_filter.mp ha
    obtain ⟨symbol', hexternal, hprimed, hlabel'⟩ :=
      h.isExternal_of_bridgeOut (by simpa using hclass)
    rw [h.lays.draft] at hlabel
    obtain rfl := Option.some.inj (hlabel.symm.trans hlabel')
    exact ⟨hexternal, hprimed⟩
  rw [h.lays.externals_eq h.template]
  constructor
  · intro hmem
    rcases Bands.mem_of_mem_foldl_enterLabel hmem with hmem | ⟨a, ha, hlabel, hslot⟩
    · exact absurd hmem List.not_mem_nil
    · exact ⟨a, (hout a ha hlabel).1, (hout a ha hlabel).2, hslot⟩
  · rintro ⟨a, hexternal, hprimed, hslot⟩
    have hclass : b.classOf a = .bridgeOut := by
      rw [h.classOf_external hexternal, if_neg hprimed]
    have hrange := h.lays.range_of_id? (h.lays.id?_of_slot hslot)
    rw [h.lays.draft] at hrange
    refine Bands.mem_foldl_enterLabel_of_mem (a := a) ?_ ?_ hslot fun a' ha' hlabel k' hk' => ?_
    · exact List.mem_filter.mpr ⟨hrange, by simpa using hclass⟩
    · rw [h.lays.draft]
      exact (h.label?_eq ((h.remains.externals a).mpr hexternal.given)).mpr hexternal.label
    · have hsame := h.step.apart a' (hout a' ha' hlabel).1.given a hexternal.given symbol
        (hout a' ha' hlabel).1.label hexternal.label
      rw [hsame, hslot] at hk'
      exact (Option.some.inj hk').symm

theorem slot?_of_external (h : Compiled log d b t) (ha : IsExternal log symbol a)
    (hprimed : ¬symbol.isPrimed) : ∃ k, b.slot? a = some k := by
  apply Bands.exists_slotIn
  rw [h.lays.mem_owners, h.classOf_external ha, if_neg hprimed]
  exact Or.inr rfl

/-- The handle that a template has for a label. -/
theorem external?_eq_some_iff (h : Compiled log d b t) :
    t.external? symbol = some k ↔ (symbol, k) ∈ t.externals := by
  constructor
  · exact Template.mem_of_external?_eq_some
  · intro hmem
    obtain ⟨a, ha, -, hslot⟩ := h.mem_externals_iff.mp hmem
    have hfind : (t.externals.find? (·.1 = symbol)).isSome :=
      List.find?_isSome.mpr ⟨_, hmem, by simp⟩
    obtain ⟨⟨symbol', k'⟩, hfind⟩ := Option.isSome_iff_exists.mp hfind
    have heq : symbol' = symbol := by simpa using List.find?_some hfind
    subst heq
    obtain ⟨a', ha', -, hslot'⟩ := h.mem_externals_iff.mp (List.mem_of_find?_eq_some hfind)
    obtain rfl := h.step.apart a' ha'.given a ha.given symbol' ha'.label ha.label
    unfold Template.external?
    rw [hfind, Option.some.inj (hslot'.symm.trans hslot)]
    rfl

/-- An external with a handle is read at a step where the handle is. -/
theorem mem_reads_handle (h : Compiled log d b t) (hslot : b.slot? a = some k) (hs : 1 ≤ s) :
    a ∈ t.reads M s ↔ s * t.period + k ∈ M := by
  rw [h.reads_eq, Bands.mem_named_of_id? (h.lays.id?_of_slot hslot), ← h.period_eq,
    mem_window_current hs]

end Compiled

end StablePlan
