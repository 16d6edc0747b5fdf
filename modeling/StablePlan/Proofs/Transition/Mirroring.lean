import StablePlan.Proofs.Program.Labels
import StablePlan.Proofs.Transition.Collecting
import StablePlan.Transition.Fitting

/-!
Records that mirror the rules. In a draft that is worked on in order, an atom is on record for a
live rule just if it plays the role there and its record is kept. While the value of an atom is
propagated, the rules that are still to be looked at may mention it although its records are gone.
Every live rule is trim: it says more than one of its atoms says alone, and its bound can be reached
and is not reached yet. No weight has to be positive for that.
-/

namespace StablePlan

open Ascending

instance : Std.TransOrd Literal where
  eq_swap {x y} := Std.OrientedOrd.eq_swap (α := Int) (a := x.raw) (b := y.raw)
  isLE_trans {x y z} h h' := Std.TransOrd.isLE_trans (α := Int) (a := x.raw) (b := y.raw)
    (c := z.raw) h h'

/-! ### Trim rules -/

def Rule.IsTrim (r : Rule) : Prop :=
  r.head.Nodup ∧ r.body.Nodup ∧ Fitting.isTrivial r = false

/-- A bare choice is only ever left if it was in the log as it is. -/
structure WeightRule.IsTrim (log : List Observation) (r : WeightRule) : Prop where
  head : r.head.Nodup
  unreached : 0 < r.lower
  reachable : r.lower ≤ r.total
  single : ¬(r.choice = false ∧ r.head = [] ∧ r.body.length = 1)
  bare : r.choice = true → r.head = [] → Observation.weightRule r ∈ log

namespace Draft

variable {d e : Draft} {log : List Observation} {a b i j n : Nat} {role : Role}
  {W : Role → Nat → Prop} {weighted : Bool} {parts : List (Nat × Role)}

structure Trim (log : List Observation) (d : Draft) : Prop where
  rules : ∀ i r, d.rule? i = some r → r.IsTrim
  weightRules : ∀ i r, d.weightRule? i = some r → r.IsTrim log

/-- A rule is trim if it is, whatever was there, and the others are. -/
theorem Trim.withRule {r' : Option Rule} (h : (d.withRule i none).Trim log)
    (hr : ∀ r ∈ r', r.IsTrim) : (d.withRule i r').Trim log := by
  refine ⟨fun j r hj => ?_, h.weightRules⟩
  have hother := h.rules j r
  rw [rule?_withRule] at hj hother
  split at hj
  · exact hr r hj
  · rename_i hne
    rw [if_neg hne] at hother
    exact hother hj

theorem Trim.withWeightRule {r' : Option WeightRule} (h : (d.withWeightRule i none).Trim log)
    (hr : ∀ r ∈ r', r.IsTrim log) : (d.withWeightRule i r').Trim log := by
  refine ⟨h.rules, fun j r hj => ?_⟩
  have hother := h.weightRules j r
  rw [weightRule?_withWeightRule] at hj hother
  split at hj
  · exact hr r hj
  · rename_i hne
    rw [if_neg hne] at hother
    exact hother hj

theorem Trim.drop (h : d.Trim log) (i : Nat) : (d.withRule i none).Trim log := by
  refine ⟨fun j r hj => h.rules j r ?_, h.weightRules⟩
  rw [rule?_withRule] at hj
  split at hj
  · exact absurd hj (by simp)
  · exact hj

theorem Trim.dropWeight (h : d.Trim log) (i : Nat) : (d.withWeightRule i none).Trim log := by
  refine ⟨h.rules, fun j r hj => h.weightRules j r ?_⟩
  rw [weightRule?_withWeightRule] at hj
  split at hj
  · exact absurd hj (by simp)
  · exact hj

theorem Trim.pushRule (h : d.Trim log) {r : Rule} (hr : r.IsTrim) : (d.pushRule r).Trim log := by
  refine ⟨fun j s hj => ?_, fun j s hj => h.weightRules j s (by rwa [weightRule?_pushRule] at hj)⟩
  rw [rule?_pushRule] at hj
  split at hj
  · exact Option.some.inj hj ▸ hr
  · exact h.rules j s hj

theorem Trim.pushWeightRule (h : d.Trim log) {r : WeightRule} (hr : r.IsTrim log) :
    (d.pushWeightRule r).Trim log := by
  refine ⟨fun j s hj => h.rules j s (by rwa [rule?_pushWeightRule] at hj), fun j s hj => ?_⟩
  rw [weightRule?_pushWeightRule] at hj
  split at hj
  · exact Option.some.inj hj ▸ hr
  · exact h.weightRules j s hj

/-! ### Roles in live rules -/

/-- An atom plays a role in a live rule. -/
def Plays (d : Draft) (b : Nat) (role : Role) (i : Nat) : Prop :=
  ∃ parts, d.parts? role.isWeighted i = some parts ∧ (b, role) ∈ parts

/-- The log has the atom, and in a head if the role is one. -/
def Stems (log : List Observation) (b : Nat) (role : Role) : Prop :=
  (∃ o ∈ log, b ∈ o.atoms) ∧ (role = .head ∨ role = .weightHead → b ∈ headsOf log)

/-- Records and rules say the same, except that the rules of `W` may mention the atom `a` off
record. -/
structure Mirrors (log : List Observation) (a : Nat) (W : Role → Nat → Prop) (d : Draft) :
    Prop where
  record : ∀ b role i, i ∈ d.record b role ↔ d.IsTracked b role ∧ d.Plays b role i
  ascending : ∀ b role, IsAscending (d.record b role)
  tracked : ∀ b role i, d.Plays b role i → d.IsTracked b role ∨ b = a ∧ W role i
  mentioned : ∀ b role i, d.Plays b role i → d.isMentioned b
  stems : ∀ b role i, d.Plays b role i → Stems log b role

/-- Less is expected if less is left to do. -/
theorem Mirrors.mono {W' : Role → Nat → Prop} (h : d.Mirrors log a W)
    (hW : ∀ role i, d.Plays a role i → W role i → W' role i) : d.Mirrors log a W' := by
  refine ⟨h.record, h.ascending, fun b role i hp => ?_, h.mentioned, h.stems⟩
  rcases h.tracked b role i hp with ht | ⟨rfl, hw⟩
  · exact Or.inl ht
  · exact Or.inr ⟨rfl, hW role i hp hw⟩

/-- With nothing left to do, the atom does not matter. -/
theorem Mirrors.settled (h : d.Mirrors log a fun _ _ => False) (b : Nat) (W : Role → Nat → Prop) :
    d.Mirrors log b W :=
  ⟨h.record, h.ascending, fun c role i hp =>
    (h.tracked c role i hp).imp_right fun hno => hno.2.elim, h.mentioned, h.stems⟩

theorem Mirrors.entries {entries : Array Entry} (h : d.Mirrors log a W)
    (hrecord : ∀ b role, Draft.record { d with entries } b role = d.record b role)
    (hresolution : ∀ b, Draft.resolution { d with entries } b = d.resolution b)
    (hmentioned : ∀ b, d.isMentioned b → Draft.isMentioned { d with entries } b) :
    Draft.Mirrors log a W { d with entries } := by
  have htracked : ∀ b role, Draft.IsTracked { d with entries } b role ↔ d.IsTracked b role := by
    intro b role
    unfold IsTracked
    rw [hresolution]
  refine ⟨fun b role i => ?_, fun b role => ?_, fun b role i hp => ?_,
    fun b role i hp => hmentioned b (h.mentioned b role i hp), h.stems⟩
  · rw [hrecord, htracked]
    exact h.record b role i
  · rw [hrecord]
    exact h.ascending b role
  · rw [htracked]
    exact h.tracked b role i hp

theorem record_mention (d : Draft) (a b : Nat) (role : Role) :
    (d.mention a).record b role = d.record b role := by
  unfold record occurrences
  rw [entry_mention]
  split
  · rename_i hb
    rw [hb]
  · rfl

theorem Mirrors.mention (h : d.Mirrors log a W) (b : Nat) : (d.mention b).Mirrors log a W := by
  refine h.entries (record_mention d b) (resolution_mention d b) fun c hc => ?_
  exact (isMentioned_mention d b c).mpr (Or.inr hc)

/-! ### Taking parts away -/

/-- What is taken out of a rule is off record. -/
theorem Mirrors.replace (h : d.Mirrors log a W)
    (hrecord : ∀ b role, e.record b role = d.record b role)
    (hresolution : ∀ b, e.resolution b = d.resolution b)
    (hmentioned : ∀ b, e.isMentioned b = d.isMentioned b)
    (hplays : ∀ b role i, e.Plays b role i → d.Plays b role i)
    (hgone : ∀ b role i, d.Plays b role i → e.Plays b role i ∨ ¬d.IsTracked b role) :
    e.Mirrors log a W := by
  have htracked : ∀ b role, e.IsTracked b role ↔ d.IsTracked b role := by
    intro b role
    unfold IsTracked
    rw [hresolution]
  refine ⟨fun b role i => ?_, fun b role => ?_, fun b role i hp => ?_, fun b role i hp => ?_,
    fun b role i hp => h.stems b role i (hplays b role i hp)⟩
  · rw [hrecord, htracked, h.record]
    refine and_congr_right fun ht => ⟨fun hp => ?_, hplays b role i⟩
    exact (hgone b role i hp).resolve_right (not_not_intro ht)
  · rw [hrecord]
    exact h.ascending b role
  · rw [htracked]
    exact h.tracked b role i (hplays b role i hp)
  · rw [hmentioned]
    exact h.mentioned b role i (hplays b role i hp)

theorem isWeighted_of_mem_parts {r : Rule} (h : (b, role) ∈ r.parts) :
    role.isWeighted = false := by
  simp only [Rule.parts, List.mem_append, List.mem_map, Prod.mk.injEq] at h
  rcases h with ⟨x, -, -, rfl⟩ | ⟨l, -, -, rfl⟩
  · rfl
  · unfold Literal.role
    split <;> rfl

theorem isWeighted_of_mem_weightParts {r : WeightRule} (h : (b, role) ∈ r.parts) :
    role.isWeighted = true := by
  simp only [WeightRule.parts, List.mem_append, List.mem_map, Prod.mk.injEq] at h
  rcases h with ⟨x, -, -, rfl⟩ | ⟨l, -, -, rfl⟩
  · rfl
  · unfold Literal.weightRole
    split <;> rfl

theorem plays_withRule {r : Rule} (hi : d.rule? i = some r) (r' : Option Rule) :
    (d.withRule i r').Plays b role j ↔
      if role.isWeighted = false ∧ j = i then ∃ s ∈ r', (b, role) ∈ s.parts
      else d.Plays b role j := by
  unfold Plays
  cases hrole : role.isWeighted with
  | true =>
      rw [if_neg (by simp)]
      exact Iff.rfl
  | false =>
      rw [parts?_false, rule?_withRule]
      by_cases hj : j = i
      · subst hj
        rw [if_pos ⟨rfl, lt_of_rule? hi⟩, if_pos ⟨rfl, rfl⟩]
        cases r' <;> simp
      · rw [if_neg (fun h => hj h.1), if_neg (fun h => hj h.2)]
        rfl

theorem plays_withWeightRule {r : WeightRule} (hi : d.weightRule? i = some r)
    (r' : Option WeightRule) : (d.withWeightRule i r').Plays b role j ↔
      if role.isWeighted = true ∧ j = i then ∃ s ∈ r', (b, role) ∈ s.parts
      else d.Plays b role j := by
  unfold Plays
  cases hrole : role.isWeighted with
  | false =>
      rw [if_neg (by simp)]
      exact Iff.rfl
  | true =>
      rw [parts?_true, weightRule?_withWeightRule]
      by_cases hj : j = i
      · subst hj
        rw [if_pos ⟨rfl, lt_of_weightRule? hi⟩, if_pos ⟨rfl, rfl⟩]
        cases r' <;> simp
      · rw [if_neg (fun h => hj h.1), if_neg (fun h => hj h.2)]
        rfl

theorem plays_of_rule? {r : Rule} (hi : d.rule? i = some r) (hmem : (b, role) ∈ r.parts) :
    d.Plays b role i := by
  refine ⟨r.parts, ?_, hmem⟩
  rw [isWeighted_of_mem_parts hmem, parts?_false, hi]
  rfl

theorem plays_of_weightRule? {r : WeightRule} (hi : d.weightRule? i = some r)
    (hmem : (b, role) ∈ r.parts) : d.Plays b role i := by
  refine ⟨r.parts, ?_, hmem⟩
  rw [isWeighted_of_mem_weightParts hmem, parts?_true, hi]
  rfl

theorem mem_parts_of_plays {r : Rule} (hi : d.rule? i = some r) (hp : d.Plays b role i)
    (hrole : role.isWeighted = false) : (b, role) ∈ r.parts := by
  obtain ⟨parts, hparts, hmem⟩ := hp
  rw [hrole, parts?_false, hi] at hparts
  exact Option.some.inj hparts ▸ hmem

theorem mem_weightParts_of_plays {r : WeightRule} (hi : d.weightRule? i = some r)
    (hp : d.Plays b role i) (hrole : role.isWeighted = true) : (b, role) ∈ r.parts := by
  obtain ⟨parts, hparts, hmem⟩ := hp
  rw [hrole, parts?_true, hi] at hparts
  exact Option.some.inj hparts ▸ hmem

theorem Mirrors.narrow (h : d.Mirrors log a W) {r r' : Rule} (hi : d.rule? i = some r)
    (hr : d.Replaces r.parts (some r'.parts)) : (d.withRule i (some r')).Mirrors log a W := by
  refine h.replace (fun _ _ => rfl) (fun _ => rfl) (fun _ => rfl) (fun b role j hp => ?_)
    fun b role j hp => ?_
  · rw [plays_withRule hi] at hp
    split at hp
    · rename_i hj
      obtain ⟨s, hs, hmem⟩ := hp
      obtain rfl := Option.some.inj hs
      exact hj.2 ▸ plays_of_rule? hi (hr.1 _ hmem)
    · exact hp
  · rw [plays_withRule hi]
    split
    · rename_i hj
      by_cases hmem : (b, role) ∈ r'.parts
      · exact Or.inl ⟨r', rfl, hmem⟩
      · exact Or.inr (hr.2 _ (mem_parts_of_plays hi (hj.2 ▸ hp) hj.1) hmem)
    · exact Or.inl hp

theorem Mirrors.narrowWeight (h : d.Mirrors log a W) {r r' : WeightRule}
    (hi : d.weightRule? i = some r) (hr : d.Replaces r.parts (some r'.parts)) :
    (d.withWeightRule i (some r')).Mirrors log a W := by
  refine h.replace (fun _ _ => rfl) (fun _ => rfl) (fun _ => rfl) (fun b role j hp => ?_)
    fun b role j hp => ?_
  · rw [plays_withWeightRule hi] at hp
    split at hp
    · rename_i hj
      obtain ⟨s, hs, hmem⟩ := hp
      obtain rfl := Option.some.inj hs
      exact hj.2 ▸ plays_of_weightRule? hi (hr.1 _ hmem)
    · exact hp
  · rw [plays_withWeightRule hi]
    split
    · rename_i hj
      by_cases hmem : (b, role) ∈ r'.parts
      · exact Or.inl ⟨r', rfl, hmem⟩
      · exact Or.inr (hr.2 _ (mem_weightParts_of_plays hi (hj.2 ▸ hp) hj.1) hmem)
    · exact Or.inl hp

/-! ### Taking rules away -/

/-- Takes a rule off the records of the roles in it. -/
def forgetAll (n : Nat) (parts : List (Nat × Role)) (d : Draft) : Draft :=
  parts.foldl (fun d part => d.mapOccurrences part.1 (.change part.2 (·.erase n))) d

theorem record_forget (d : Draft) (a b n : Nat) (role role' : Role) :
    (d.mapOccurrences a (.change role (·.erase n))).record b role' =
      if b = a ∧ role' = role then (d.record b role').erase n else d.record b role' := by
  rw [record_mapOccurrences]
  by_cases hb : b = a ∧ role' = role
  · obtain ⟨rfl, rfl⟩ := hb
    by_cases hlt : b < d.entries.size
    · simp [hlt]
    · -- There is no entry, and so nothing on record.
      have hnil : d.record b role' = [] := by
        simp [record, occurrences, entry, Array.getD_eq_getD_getElem?, not_lt.mp hlt]
      simp [hlt, hnil]
  · rw [if_neg (fun h => hb ⟨h.1, h.2.1⟩), if_neg hb]

/-- Only records have changed, of which those of the roles have lost rule `n`. -/
structure Forgets (d e : Draft) (parts : List (Nat × Role)) (n : Nat) : Prop where
  rest : ∃ entries, e = { d with entries }
  record : ∀ i b role, i ∈ e.record b role ↔ i ∈ d.record b role ∧ ¬(i = n ∧ (b, role) ∈ parts)
  ascending : ∀ b role, IsAscending (e.record b role)
  resolution : ∀ b, e.resolution b = d.resolution b
  mentioned : ∀ b, e.isMentioned b = d.isMentioned b

theorem forgets_forgetAll (n : Nat) (parts : List (Nat × Role))
    (hd : ∀ b role, IsAscending (d.record b role)) : d.Forgets (forgetAll n parts d) parts n := by
  induction parts generalizing d with
  | nil => exact ⟨⟨_, rfl⟩, by simp [forgetAll], hd, fun _ => rfl, fun _ => rfl⟩
  | cons part parts ih =>
      obtain ⟨a, role⟩ := part
      have hrecord := fun b => record_forget d a b n role
      have hfirst : ∀ b role', IsAscending
          ((d.mapOccurrences a (.change role (·.erase n))).record b role') := by
        intro b role'
        rw [hrecord]
        split
        · exact (hd b role').sublist List.erase_sublist
        · exact hd b role'
      have hrest := ih hfirst
      refine ⟨?_, fun i b role' => ?_, hrest.ascending, fun b => ?_, fun b => ?_⟩
      · obtain ⟨entries, he⟩ := hrest.rest
        exact ⟨entries, he⟩
      · refine (hrest.record i b role').trans ?_
        rw [hrecord]
        by_cases hb : b = a ∧ role' = role
        · obtain ⟨rfl, rfl⟩ := hb
          rw [if_pos ⟨rfl, rfl⟩, (hd b role').nodup.mem_erase_iff]
          simp only [List.mem_cons, true_or, and_true]
          tauto
        · rw [if_neg hb]
          simp [hb]
      · exact (hrest.resolution b).trans (resolution_mapOccurrences _ _ _ _)
      · exact (hrest.mentioned b).trans (isMentioned_mapOccurrences _ _ _ _)

/-- A rule that is dropped goes off record. -/
theorem Mirrors.forget (h : d.Mirrors log a W)
    (hrecord : ∀ b role, e.record b role = d.record b role)
    (hresolution : ∀ b, e.resolution b = d.resolution b)
    (hmentioned : ∀ b, e.isMentioned b = d.isMentioned b)
    (hplays : ∀ b role j, e.Plays b role j ↔ d.Plays b role j ∧ ¬(j = i ∧ (b, role) ∈ parts)) :
    (forgetAll i parts e).Mirrors log a W := by
  have he : ∀ b role, IsAscending (e.record b role) := fun b role => by
    rw [hrecord]
    exact h.ascending b role
  have hf := forgets_forgetAll i parts he
  generalize forgetAll i parts e = e' at hf
  have hsame : ∀ b role j, e'.Plays b role j ↔ e.Plays b role j := by
    obtain ⟨entries, rfl⟩ := hf.rest
    exact fun _ _ _ => Iff.rfl
  have htracked : ∀ b role, e'.IsTracked b role ↔ d.IsTracked b role := by
    intro b role
    unfold IsTracked
    rw [hf.resolution, hresolution]
  have hless : ∀ b role j, e'.Plays b role j → d.Plays b role j := fun b role j hp =>
    ((hplays b role j).mp ((hsame b role j).mp hp)).1
  refine ⟨fun b role j => ?_, hf.ascending, fun b role j hp => ?_, fun b role j hp => ?_,
    fun b role j hp => h.stems b role j (hless b role j hp)⟩
  · rw [hf.record, hrecord, htracked, hsame, hplays, h.record, and_assoc]
  · rw [htracked]
    exact h.tracked b role j (hless b role j hp)
  · rw [hf.mentioned, hmentioned]
    exact h.mentioned b role j (hless b role j hp)

theorem Mirrors.retire (h : d.Mirrors log a W) {r : Rule} (hi : d.rule? i = some r)
    (hparts : ∀ part, part ∈ parts ↔ part ∈ r.parts) :
    (forgetAll i parts (d.withRule i none)).Mirrors log a W := by
  refine h.forget (fun _ _ => rfl) (fun _ => rfl) (fun _ => rfl) fun b role j => ?_
  rw [plays_withRule hi, hparts]
  by_cases hj : j = i
  · subst hj
    by_cases hrole : role.isWeighted = false
    · rw [if_pos ⟨hrole, rfl⟩]
      simp only [Option.not_mem_none, false_and, exists_false, true_and, false_iff, not_and,
        not_not]
      exact fun hp => mem_parts_of_plays hi hp hrole
    · rw [if_neg (fun h => hrole h.1)]
      simp only [true_and]
      exact (and_iff_left fun hmem => hrole (isWeighted_of_mem_parts hmem)).symm
  · rw [if_neg (fun h => hj h.2)]
    simp [hj]

theorem Mirrors.retireWeight (h : d.Mirrors log a W) {r : WeightRule}
    (hi : d.weightRule? i = some r) (hparts : ∀ part, part ∈ parts ↔ part ∈ r.parts) :
    (forgetAll i parts (d.withWeightRule i none)).Mirrors log a W := by
  refine h.forget (fun _ _ => rfl) (fun _ => rfl) (fun _ => rfl) fun b role j => ?_
  rw [plays_withWeightRule hi, hparts]
  by_cases hj : j = i
  · subst hj
    by_cases hrole : role.isWeighted = true
    · rw [if_pos ⟨hrole, rfl⟩]
      simp only [Option.not_mem_none, false_and, exists_false, true_and, false_iff, not_and,
        not_not]
      exact fun hp => mem_weightParts_of_plays hi hp hrole
    · rw [if_neg (fun h => hrole h.1)]
      simp only [true_and]
      exact (and_iff_left fun hmem => hrole (isWeighted_of_mem_weightParts hmem)).symm
  · rw [if_neg (fun h => hj h.2)]
    simp [hj]

/-! ### Storing rules -/

theorem ascending_markAll (n : Nat) (parts : List (Nat × Role))
    (hd : ∀ b role, IsAscending (d.record b role)) (b : Nat) (role : Role) :
    IsAscending ((markAll n parts d).record b role) := by
  induction parts generalizing d with
  | nil => exact hd b role
  | cons part parts ih =>
      obtain ⟨a, role'⟩ := part
      rw [markAll_cons]
      refine ih fun c role'' => ?_
      unfold mentionIn
      rw [record_mapOccurrences, record_mention, record_mention]
      split
      · exact isAscending_insert (hd a role') n
      · exact hd c role''

theorem Mirrors.push (h : d.Mirrors log a W) (hp : Pushes weighted parts d e)
    (hroles : ∀ part ∈ parts, part.2.isWeighted = weighted)
    (hascending : ∀ b role, IsAscending (e.record b role))
    (htracked : ∀ part ∈ parts, d.IsTracked part.1 part.2)
    (hstems : ∀ part ∈ parts, Stems log part.1 part.2)
    (hnew : d.parts? weighted (d.ruleCount weighted) = none) :
    e.Mirrors log a W := by
  have hsame : ∀ b role, e.IsTracked b role ↔ d.IsTracked b role := by
    intro b role
    unfold IsTracked
    rw [hp.resolution]
  have hplays : ∀ b role i, e.Plays b role i ↔
      d.Plays b role i ∨ i = d.ruleCount weighted ∧ (b, role) ∈ parts := by
    intro b role i
    unfold Plays
    rw [hp.parts]
    by_cases hrole : role.isWeighted = weighted
    · by_cases hi : i = d.ruleCount weighted
      · rw [if_pos ⟨hrole, hi⟩, hrole, hi, hnew]
        simp
      · rw [if_neg (fun h => hi h.2)]
        simp [hi]
    · rw [if_neg (fun h => hrole h.1)]
      exact (or_iff_left fun hmem => hrole (hroles _ hmem.2)).symm
  refine ⟨fun b role i => ?_, hascending, fun b role i hplay => ?_, fun b role i hplay => ?_,
    fun b role i hplay => ?_⟩
  · rw [hp.record, hsame, hplays, h.record, and_or_left]
    exact or_congr_right ⟨fun hmem => ⟨htracked _ hmem.2, hmem⟩, And.right⟩
  · rw [hsame]
    rcases (hplays b role i).mp hplay with hold | ⟨-, hmem⟩
    · exact h.tracked b role i hold
    · exact Or.inl (htracked _ hmem)
  · refine (hp.mentioned b).mpr ?_
    rcases (hplays b role i).mp hplay with hold | ⟨-, hmem⟩
    · exact Or.inl (h.mentioned b role i hold)
    · exact Or.inr ⟨role, hmem⟩
  · rcases (hplays b role i).mp hplay with hold | ⟨-, hmem⟩
    · exact h.stems b role i hold
    · exact hstems _ hmem

theorem Mirrors.pushRule (h : d.Mirrors log a W) {r : Rule}
    (htracked : ∀ part ∈ r.parts, d.IsTracked part.1 part.2)
    (hstems : ∀ part ∈ r.parts, Stems log part.1 part.2) : (d.pushRule r).Mirrors log a W := by
  refine h.push (pushes_pushRule d r) (fun part hpart => isWeighted_of_mem_parts hpart)
    (fun b role => ?_) htracked hstems ?_
  · rw [pushRule_eq]
    exact ascending_markAll _ _ h.ascending b role
  · simp [parts?_false, ruleCount, rule?]

theorem Mirrors.pushWeightRule (h : d.Mirrors log a W) {r : WeightRule}
    (htracked : ∀ part ∈ r.parts, d.IsTracked part.1 part.2)
    (hstems : ∀ part ∈ r.parts, Stems log part.1 part.2) :
    (d.pushWeightRule r).Mirrors log a W := by
  refine h.push (pushes_pushWeightRule d r) (fun part hpart => isWeighted_of_mem_weightParts hpart)
    (fun b role => ?_) htracked hstems ?_
  · rw [pushWeightRule_eq]
    exact ascending_markAll _ _ h.ascending b role
  · simp [parts?_true, ruleCount, weightRule?]

/-! ### Whole replays -/

/-- What collecting a log gives. -/
structure Gathered (log : List Observation) (d : Draft) : Prop where
  mirrors : d.Mirrors log 0 fun _ _ => False
  trim : d.Trim log
  unresolved : ∀ a, d.resolution a = none

namespace Gathered

theorem isTracked (h : d.Gathered log) (b : Nat) (role : Role) : d.IsTracked b role :=
  Or.inl (h.unresolved b)

/-- The records and the rules are all that matters. -/
theorem rest (h : d.Gathered log) {externals : List Nat} {outputs : Array (Symbol × Nat)}
    {facts falsified cautious : List Nat} {bottom : Bool} :
    Draft.Gathered log { d with externals, outputs, facts, falsified, cautious, bottom } :=
  ⟨⟨h.mirrors.record, h.mirrors.ascending, h.mirrors.tracked, h.mirrors.mentioned, h.mirrors.stems⟩,
    ⟨h.trim.rules, h.trim.weightRules⟩, h.unresolved⟩

theorem mention (h : d.Gathered log) (a : Nat) : (d.mention a).Gathered log :=
  ⟨h.mirrors.mention a, ⟨h.trim.rules, h.trim.weightRules⟩, fun b =>
    (resolution_mention d a b).trans (h.unresolved b)⟩

theorem foldl_mention (h : d.Gathered log) (atoms : List Nat) :
    (atoms.foldl Draft.mention d).Gathered log := by
  induction atoms generalizing d with
  | nil => exact h
  | cons a atoms ih => exact ih (h.mention a)

theorem constrain (h : d.Gathered log) (l : Literal) : (d.constrain l).Gathered log := by
  unfold Draft.constrain
  dsimp only
  split
  · exact (h.mention l.atom).rest
  · exact (h.mention l.atom).rest

theorem pushRule (h : d.Gathered log) {r : Rule} (hr : r.IsTrim)
    (hstems : ∀ part ∈ r.parts, Stems log part.1 part.2) : (d.pushRule r).Gathered log :=
  ⟨h.mirrors.pushRule (fun part _ => h.isTracked part.1 part.2) hstems, h.trim.pushRule hr,
    fun a => ((pushes_pushRule d r).resolution a).trans (h.unresolved a)⟩

theorem addRule (h : d.Gathered log) {r : Rule} (hhead : r.head.Nodup) (hbody : r.body.Nodup)
    (hstems : ∀ part ∈ r.parts, Stems log part.1 part.2) : (d.addRule r).Gathered log := by
  obtain ⟨choice, head, body⟩ := r
  unfold Draft.addRule
  dsimp only at hhead hbody ⊢
  split
  · exact h
  · exact h.rest
  · exact (h.mention _).rest
  · exact h.constrain _
  · rename_i hchoice hempty hfact hsingle
    refine h.pushRule ⟨hhead, hbody, ?_⟩ hstems
    unfold Fitting.isTrivial
    dsimp only
    split
    · exact (hchoice rfl rfl).elim
    · exact (hfact _ rfl rfl rfl).elim
    · exact (hempty rfl rfl rfl).elim
    · exact (hsingle _ rfl rfl rfl).elim
    · rfl

theorem addWeightRule (h : d.Gathered log) {r : WeightRule} (hhead : r.head.Nodup)
    (hstems : ∀ part ∈ r.parts, Stems log part.1 part.2)
    (hheads : ∀ a ∈ r.head, a ∈ headsOf log)
    (hbare : r.head = [] → Observation.weightRule r ∈ log) :
    (d.addWeightRule r).Gathered log := by
  unfold Draft.addWeightRule
  split
  · refine h.addRule hhead List.nodup_nil fun part hpart => ?_
    simp only [Rule.parts, List.map_nil, List.append_nil, List.mem_map] at hpart
    obtain ⟨a, ha, rfl⟩ := hpart
    have hstem := hstems (a, .weightHead) (List.mem_append_left _ (List.mem_map.mpr ⟨a, ha, rfl⟩))
    exact ⟨hstem.1, fun _ => hheads a ha⟩
  · rename_i hlower
    split
    · have hfold := (h.foldl_mention r.head).foldl_mention (r.body.map fun e => e.1.atom)
      rwa [List.foldl_map] at hfold
    · rename_i htotal
      split
      · split
        · exact h.constrain _
        · exact h
      · rename_i hsingle
        refine ⟨h.mirrors.pushWeightRule (fun part _ => h.isTracked part.1 part.2) hstems,
          h.trim.pushWeightRule ⟨hhead, not_le.mp hlower, not_lt.mp htotal, ?_, fun _ => hbare⟩,
          fun a => ((pushes_pushWeightRule d r).resolution a).trans (h.unresolved a)⟩
        rintro ⟨hchoice, hnil, hlength⟩
        obtain ⟨⟨l, w⟩, hbody⟩ := List.length_eq_one_iff.mp hlength
        exact hsingle l w hchoice hnil hbody

theorem observe (h : d.Gathered log) {o : Observation} (ho : o ∈ log) :
    (d.observe o).Gathered log := by
  cases o with
  | rule r =>
      refine h.addRule (isAscending_ofList _).nodup (isAscending_ofList _).nodup
        fun part hpart => ?_
      simp only [Rule.parts, List.mem_append, List.mem_map, mem_ofList] at hpart
      rcases hpart with ⟨a, ha, rfl⟩ | ⟨l, hl, rfl⟩
      · exact ⟨⟨_, ho, List.mem_append_left _ ha⟩, fun _ => ⟨_, ho, _, rfl, ha⟩⟩
      · refine ⟨⟨_, ho, List.mem_append_right _ (List.mem_map_of_mem hl)⟩, fun hrole => ?_⟩
        unfold Literal.role at hrole
        split at hrole <;> simp at hrole
  | weightRule r =>
      have hheads : ∀ a ∈ Ascending.ofList r.head, a ∈ headsOf log := fun a ha =>
        ⟨_, ho, _, rfl, mem_ofList.mp ha⟩
      refine h.addWeightRule (isAscending_ofList _).nodup (fun part hpart => ?_) hheads
        fun hnil => ?_
      · simp only [WeightRule.parts, List.mem_append, List.mem_map] at hpart
        rcases hpart with ⟨a, ha, rfl⟩ | ⟨e, he, rfl⟩
        · exact ⟨⟨_, ho, List.mem_append_left _ (mem_ofList.mp ha)⟩, fun _ => hheads a ha⟩
        · refine ⟨⟨_, ho, List.mem_append_right _ (List.mem_map.mpr ⟨e, he, rfl⟩)⟩, fun hrole => ?_⟩
          unfold Literal.weightRole at hrole
          split at hrole <;> simp at hrole
      · -- A head without atoms has not been changed by becoming a set.
        dsimp only at hnil ⊢
        have hempty : r.head = [] := List.eq_nil_iff_forall_not_mem.mpr fun a ha => by
          have hmem := mem_ofList.mpr ha
          rw [hnil] at hmem
          exact List.not_mem_nil hmem
        rw [hnil, ← hempty]
        exact ho
  | external a value =>
      unfold Draft.observe
      dsimp only
      split
      · exact h.mention a
      · exact (h.mention a).rest
  | label symbol a =>
      unfold Draft.observe
      dsimp only
      split
      · exact h.rest
      · exact (h.mention a).rest

end Gathered

theorem gathered_empty (log : List Observation) : ({} : Draft).Gathered log := by
  have hrecord : ∀ b role, ({} : Draft).record b role = [] := fun b role => by
    simp [record, occurrences, entry]
  have hplays : ∀ b role i, ¬({} : Draft).Plays b role i := by
    rintro b role i ⟨parts, hparts, -⟩
    cases hrole : role.isWeighted <;> simp [hrole, parts?, rule?, weightRule?] at hparts
  refine ⟨⟨fun b role i => ?_, fun b role => ?_, fun b role i hp => (hplays b role i hp).elim,
    fun b role i hp => (hplays b role i hp).elim, fun b role i hp => (hplays b role i hp).elim⟩,
    ⟨by simp [rule?], by simp [weightRule?]⟩, by simp [resolution, entry]⟩
  · simp [hrecord, hplays]
  · rw [hrecord]
    exact List.Pairwise.nil

theorem gathered_ofReplay (log : List Observation) : (ofReplay log).Gathered log := by
  suffices h : ∀ new : List Observation, (∀ o ∈ new, o ∈ log) → ∀ d : Draft, d.Gathered log →
      (new.foldl observe d).Gathered log from h log (fun _ h => h) {} (gathered_empty log)
  intro new
  induction new with
  | nil => exact fun _ d hd => hd
  | cons o new ih =>
      intro hnew d hd
      exact ih (fun o ho => hnew o (by simp [ho])) _ (hd.observe (hnew o (by simp)))

end Draft

end StablePlan
