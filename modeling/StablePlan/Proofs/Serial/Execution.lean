import StablePlan.Proofs.Ascending
import StablePlan.Proofs.Serial.Ordering
import StablePlan.Proofs.Symbol.Order
import StablePlan.Serial.Verdict
import Mathlib.Data.List.FinRange
import Mathlib.Data.Set.Basic

/-!
Execution one after another. An action that finds what it needs takes away what it deletes and then
puts in what it adds. Actions whose effects do not contradict each other, in an order in which each
comes before those that delete what it needs, all find what they need, and they lead to the same
state in every such order.
-/

namespace StablePlan

/-! ### What facts say of an action -/

namespace Effects

variable {e : Effects} {name kind : String} {p q : Symbol}

/-- The fluents that facts of one name give for an action. -/
def listed (e : Effects) (name : String) : List Symbol :=
  if name = "pre" then e.pre
  else if name = "add" then e.add
  else if name = "del" then e.del
  else []

theorem mem_listed_withFact (hkind : kind ∈ ["pre", "add", "del"]) :
    p ∈ (e.withFact name q).listed kind ↔ p ∈ e.listed kind ∨ name = kind ∧ p = q := by
  have hnames : name = kind ∨ (e.withFact name q).listed kind = e.listed kind := by
    unfold withFact
    simp only [List.mem_cons, List.not_mem_nil, or_false] at hkind
    rcases hkind with rfl | rfl | rfl <;> split_ifs <;> simp_all [listed]
  by_cases hname : name = kind
  · subst hname
    simp only [List.mem_cons, List.not_mem_nil, or_false] at hkind
    rcases hkind with rfl | rfl | rfl <;>
      simp [withFact, listed, Ascending.mem_insert, or_comm]
  · rw [hnames.resolve_left hname]
    simp [hname]

end Effects

namespace ActionTable

variable {table : ActionTable} {facts : List Symbol} {kind : String} {a p : Symbol}

theorem effects_addFact (table : ActionTable) (name : String) (b q a : Symbol) :
    (table.addFact (.function name [b, q])).effects a =
      if a = b then (table.effects a).withFact name q else table.effects a := by
  unfold addFact effects
  rw [Ascending.get?_put]
  split
  · rename_i heq
    rw [heq]
    rfl
  · rfl

/-- One more fact says of an action what it says. -/
theorem mem_listed_addFact (hkind : kind ∈ ["pre", "add", "del"]) (fact : Symbol) :
    p ∈ ((table.addFact fact).effects a).listed kind ↔
      p ∈ (table.effects a).listed kind ∨ fact = .function kind [a, p] := by
  have hother : table.addFact fact = table → fact ≠ .function kind [a, p] →
      (p ∈ ((table.addFact fact).effects a).listed kind ↔
        p ∈ (table.effects a).listed kind ∨ fact = .function kind [a, p]) := by
    intro hsame hne
    simp [hsame, hne]
  match fact with
  | .number _ | .string _ | .function _ [] | .function _ [_] | .function _ (_ :: _ :: _ :: _) =>
    exact hother rfl (by simp)
  | .function name [b, q] =>
    rw [effects_addFact]
    split
    · rename_i heq
      rw [Effects.mem_listed_withFact hkind, heq]
      simp [eq_comm]
    · rename_i hne
      simp [Ne.symm hne]

/-- The effects of an action are what the facts say of it. -/
theorem mem_listed_ofFacts (hkind : kind ∈ ["pre", "add", "del"]) :
    p ∈ ((ofFacts facts).effects a).listed kind ↔ .function kind [a, p] ∈ facts := by
  suffices h : ∀ table : ActionTable, p ∈ ((facts.foldl addFact table).effects a).listed kind ↔
      p ∈ (table.effects a).listed kind ∨ .function kind [a, p] ∈ facts by
    have hnone : p ∉ (effects [] a).listed kind := by simp [effects, Ascending.get?, Effects.listed]
    unfold ofFacts
    rw [h, or_iff_right hnone]
  induction facts with
  | nil => simp
  | cons fact facts ih =>
      intro table
      rw [List.foldl_cons, ih, mem_listed_addFact hkind, List.mem_cons, or_assoc, eq_comm]

end ActionTable

/-! ### States -/

/-- The state after an action: what it deletes goes, and then what it adds comes. -/
def Effects.result (e : Effects) (s : Set Symbol) : Set Symbol :=
  (s \ {p | p ∈ e.del}) ∪ {p | p ∈ e.add}

/-- Actions with these effects are executed one after another, and each one finds what it needs. -/
inductive Executes : Set Symbol → List Effects → Set Symbol → Prop
  | done (s : Set Symbol) : Executes s [] s
  | step {s s' : Set Symbol} {e : Effects} {rest : List Effects} :
      (∀ p ∈ e.pre, p ∈ s) → Executes (e.result s) rest s' → Executes s (e :: rest) s'

namespace Effects

variable {e f : Effects} {es : List Effects} {s : Set Symbol}

theorem meets_iff {xs ys : List Symbol} : meets xs ys ↔ ∃ p ∈ xs, p ∈ ys := by
  simp [meets]

theorem allows_iff : e.Allows f ↔
    ((∀ p ∈ e.add, p ∉ f.del) ∧ ∀ p ∈ f.add, p ∉ e.del) ∧ ∀ p ∈ f.pre, p ∉ e.del := by
  unfold Allows clashes precedes
  simp only [meets_iff, not_exists, not_and]
  exact and_congr_right fun _ => ⟨fun h p hf he => h p he hf, fun h p he hf => h p hf he⟩

/-- What comes later still finds what it needs. -/
theorem Allows.mem_result (h : e.Allows f) {p : Symbol} (hp : p ∈ f.pre) (hs : p ∈ s) :
    p ∈ e.result s :=
  Or.inl ⟨hs, (allows_iff.mp h).2 p hp⟩

/-- In an order in which each is allowed before all that follow, actions can be executed from every
state that has what they need. -/
theorem executes_of_pairwise (h : es.Pairwise Allows) (hpre : ∀ e ∈ es, ∀ p ∈ e.pre, p ∈ s) :
    Executes s es ((s \ {p | ∃ e ∈ es, p ∈ e.del}) ∪ {p | ∃ e ∈ es, p ∈ e.add}) := by
  induction es generalizing s with
  | nil =>
      have hsame : (s \ {p | ∃ e ∈ ([] : List Effects), p ∈ e.del}) ∪
          {p | ∃ e ∈ ([] : List Effects), p ∈ e.add} = s := by simp
      rw [hsame]
      exact .done s
  | cons e rest ih =>
      obtain ⟨hfirst, hrest⟩ := List.pairwise_cons.mp h
      refine .step (hpre e List.mem_cons_self) ?_
      have hafter := ih hrest fun f hf p hp =>
        (hfirst f hf).mem_result hp (hpre f (List.mem_cons_of_mem e hf) p hp)
      -- What the first action adds is not deleted later.
      have hkept : ∀ p ∈ e.add, ¬∃ f ∈ rest, p ∈ f.del := fun p hp ⟨f, hf, hdel⟩ =>
        (allows_iff.mp (hfirst f hf)).1.1 p hp hdel
      convert hafter using 1
      ext p
      have hp := hkept p
      simp only [result, Set.mem_union, Set.mem_sdiff, Set.mem_ofPred_eq, List.mem_cons,
        exists_eq_or_imp]
      generalize (∃ f ∈ rest, p ∈ f.del) = deleted at hp ⊢
      tauto

end Effects

/-! ### Orders of positions -/

/-- An order of the positions of some actions: what one action adds no other one deletes, and an
action whose needs another one deletes comes before that one. -/
structure IsSerialOrder (table : ActionTable) (actions : List Symbol)
    (order : List (Fin actions.length)) : Prop where
  perm : order.Perm (List.finRange actions.length)
  agree : ∀ i j : Fin actions.length, i ≠ j →
    ∀ p ∈ (table.effects actions[i]).add, p ∉ (table.effects actions[j]).del
  before : ∀ i j : Fin actions.length, i ≠ j →
    (∃ p ∈ (table.effects actions[i]).pre, p ∈ (table.effects actions[j]).del) →
      order.idxOf i < order.idxOf j

section Orders

variable {table : ActionTable} {actions : List Symbol} {order : List (Fin actions.length)}
  {s : Set Symbol}

/-- A serial order is one in which each action is allowed before all that follow. -/
theorem isSerialOrder_iff : IsSerialOrder table actions order ↔
    order.Perm (List.finRange actions.length) ∧
      order.Pairwise fun i j => table.Allows actions[i] actions[j] := by
  have hallows : ∀ i j : Fin actions.length, table.Allows actions[i] actions[j] ↔ _ :=
    fun i j => Effects.allows_iff
  constructor
  · rintro ⟨hperm, hagree, hbefore⟩
    have hnodup : order.Nodup := hperm.nodup_iff.mpr (List.nodup_finRange _)
    refine ⟨hperm, List.pairwise_iff_getElem.mpr fun x y hx hy hlt => ?_⟩
    have hne : order[x] ≠ order[y] := fun heq => by
      have := (List.Nodup.getElem_inj_iff hnodup).mp heq
      omega
    refine (hallows _ _).mpr ⟨⟨hagree _ _ hne, hagree _ _ hne.symm⟩, fun p hp hdel => ?_⟩
    have hlater := hbefore _ _ hne.symm ⟨p, hp, hdel⟩
    rw [hnodup.idxOf_getElem, hnodup.idxOf_getElem] at hlater
    omega
  · rintro ⟨hperm, hpairwise⟩
    have hmem : ∀ i, i ∈ order := fun i => hperm.mem_iff.mpr (List.mem_finRange i)
    -- Of two positions one comes first, and is allowed before the other one.
    have hfirst : ∀ i j, order.idxOf i < order.idxOf j →
        table.Allows actions[i] actions[j] := fun i j hlt => by
      have h := List.pairwise_iff_getElem.mp hpairwise _ _ (List.idxOf_lt_length_iff.mpr (hmem i))
        (List.idxOf_lt_length_iff.mpr (hmem j)) hlt
      simpa using h
    have hcases : ∀ i j, i ≠ j → order.idxOf i < order.idxOf j ∨ order.idxOf j < order.idxOf i :=
      fun i j hne => Nat.lt_or_gt_of_ne fun heq => hne ((List.idxOf_inj (hmem i)).mp heq)
    refine ⟨hperm, fun i j hne => ?_, fun i j hne ⟨p, hp, hdel⟩ => ?_⟩
    · rcases hcases i j hne with hlt | hlt
      · exact ((hallows i j).mp (hfirst i j hlt)).1.1
      · exact ((hallows j i).mp (hfirst j i hlt)).1.2
    · refine (hcases i j hne).resolve_right fun hlt => ?_
      exact ((hallows j i).mp (hfirst j i hlt)).2 p hp hdel

/-- What is asked of an order of the actions is asked of an order of their positions. -/
theorem exists_isSerialOrder_iff :
    (∃ order, IsSerialOrder table actions order) ↔ Orderable table.Allows actions := by
  have hsame : List.Forall₂ (fun (i : Fin actions.length) a => actions[i] = a)
      (List.finRange actions.length) actions := by
    refine List.forall₂_iff_get.mpr ⟨List.length_finRange, fun i hi hi' => ?_⟩
    simp
  simp only [isSerialOrder_iff]
  constructor
  · refine Orderable.of_forall₂ ?_ hsame
    rintro i a j b rfl rfl
    exact id
  · refine Orderable.of_forall₂ ?_ hsame.flip
    rintro a i b j rfl rfl
    exact id

/-- A serial order can be executed, and its end does not depend on it. -/
theorem IsSerialOrder.executes (h : IsSerialOrder table actions order)
    (hpre : ∀ a ∈ actions, ∀ p ∈ (table.effects a).pre, p ∈ s) :
    Executes s (order.map fun i => table.effects actions[i])
      ((s \ {p | ∃ a ∈ actions, p ∈ (table.effects a).del}) ∪
        {p | ∃ a ∈ actions, p ∈ (table.effects a).add}) := by
  obtain ⟨hperm, hpairwise⟩ := isSerialOrder_iff.mp h
  -- The actions at the positions are all the actions.
  have hall : ∀ P : Effects → Prop, (∃ e ∈ order.map fun i => table.effects actions[i], P e) ↔
      ∃ a ∈ actions, P (table.effects a) := by
    intro P
    constructor
    · rintro ⟨e, he, hP⟩
      obtain ⟨i, -, rfl⟩ := List.mem_map.mp he
      exact ⟨actions[i], List.getElem_mem _, hP⟩
    · rintro ⟨a, ha, hP⟩
      obtain ⟨i, rfl⟩ := List.get_of_mem ha
      have hi : i ∈ order := hperm.mem_iff.mpr (List.mem_finRange i)
      exact ⟨_, List.mem_map_of_mem hi, hP⟩
  have hexecutes := Effects.executes_of_pairwise (s := s) (List.pairwise_map.mpr hpairwise)
    fun e he p hp => by
      obtain ⟨i, -, rfl⟩ := List.mem_map.mp he
      exact hpre _ (List.getElem_mem _) p hp
  simpa only [hall] using hexecutes

end Orders

namespace SequentialCheck

/-- Whether actions can be executed one after another is decided. The effects of an action are what
the facts say of it. Actions, with repetitions, are serializable exactly if their positions have a
serial order; and every serial order can be executed from every state that has what the actions
need, and ends where what they delete is gone and what they add has come. -/
theorem serializable_exact (c : SequentialCheck) (actions : List Symbol) :
    (∀ facts mode, c = .ofFacts facts mode → ∀ a p,
      (p ∈ (c.actions.effects a).pre ↔ .function "pre" [a, p] ∈ facts) ∧
      (p ∈ (c.actions.effects a).add ↔ .function "add" [a, p] ∈ facts) ∧
      (p ∈ (c.actions.effects a).del ↔ .function "del" [a, p] ∈ facts)) ∧
    (c.actions.serializable actions ↔ ∃ order, IsSerialOrder c.actions actions order) ∧
    ∀ order, IsSerialOrder c.actions actions order → ∀ s : Set Symbol,
      (∀ a ∈ actions, ∀ p ∈ (c.actions.effects a).pre, p ∈ s) →
        Executes s (order.map fun i => c.actions.effects actions[i])
          ((s \ {p | ∃ a ∈ actions, p ∈ (c.actions.effects a).del}) ∪
            {p | ∃ a ∈ actions, p ∈ (c.actions.effects a).add}) := by
  refine ⟨?_, ?_, fun order horder s hpre => horder.executes hpre⟩
  · rintro facts mode rfl a p
    have hlisted : ∀ kind ∈ ["pre", "add", "del"],
        (p ∈ ((ActionTable.ofFacts facts).effects a).listed kind ↔
          .function kind [a, p] ∈ facts) := fun kind hkind => ActionTable.mem_listed_ofFacts hkind
    exact ⟨hlisted "pre" (by simp), hlisted "add" (by simp), hlisted "del" (by simp)⟩
  · rw [exists_isSerialOrder_iff]
    exact c.actions.serializable_iff actions

/-- Cargo is loaded ashore, and the ferry that sails is no longer there. -/
def ferryCheck : SequentialCheck := .ofFacts
  [.function "pre" [.constant "load", .constant "ashore"],
    .function "add" [.constant "load", .constant "cargo"],
    .function "del" [.constant "sail", .constant "ashore"]] .model

def ferryActions : List Symbol :=
  [.constant "sail", .constant "load", .constant "load", .constant "wave"]

/-- Two loads come before the ferry sails; nothing is known of the fourth action. -/
theorem serializable_exact_ferry : ∃ order,
    IsSerialOrder ferryCheck.actions ferryActions order ∧
    (∀ a ∈ ferryActions, ∀ p ∈ (ferryCheck.actions.effects a).pre,
      p ∈ ({.constant "ashore"} : Set Symbol)) ∧
    ferryCheck.actions.serializable ferryActions ∧
    Executes {.constant "ashore"} (order.map fun i => ferryCheck.actions.effects ferryActions[i])
      (({.constant "ashore"} \ {p | ∃ a ∈ ferryActions, p ∈ (ferryCheck.actions.effects a).del}) ∪
        {p | ∃ a ∈ ferryActions, p ∈ (ferryCheck.actions.effects a).add}) := by
  have hperm : ([1, 2, 0, 3] : List (Fin 4)).Perm (List.finRange 4) := by decide
  have horder : IsSerialOrder ferryCheck.actions ferryActions _ :=
    ⟨hperm, by decide +kernel, by decide +kernel⟩
  have hpre : ∀ a ∈ ferryActions, ∀ p ∈ (ferryCheck.actions.effects a).pre,
      p = .constant "ashore" := by decide +kernel
  obtain ⟨-, hdecides, hexecutes⟩ := serializable_exact ferryCheck ferryActions
  exact ⟨_, horder, hpre, hdecides.mpr ⟨_, horder⟩, hexecutes _ horder _ hpre⟩

end SequentialCheck

end StablePlan
