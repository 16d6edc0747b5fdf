import StablePlan.Proofs.Stable.Released
import StablePlan.Proofs.Unrolling.Pieces

/-!
The history of the switches. What is assumed of a handle at a step is what the last call about it
has said, where grounding the step says false, and a call that fails says nothing. A release says
more than that: the constraint stays with the reasoner, so nothing that is assumed later makes the
handle true there again.
-/

namespace StablePlan

/-! ### What a reasoner keeps -/

namespace Reasoner

variable {r r' : Reasoner} {clauses : List Clause} {assumptions : List Literal} {l : Literal}
  {report : SolveReport} {m : Model}

/-- Calls have led to the reasoner, and it has the clauses among others. -/
structure Retains (r : Reasoner) (clauses : List Clause) : Prop where
  formed : ∃ log, r.Formed log
  subset : clauses ⊆ r.clauses.toList

theorem Retains.mono (h : r.Retains clauses) {fewer : List Clause} (hsub : fewer ⊆ clauses) :
    r.Retains fewer := ⟨h.formed, fun _ hc => h.subset (hsub hc)⟩

/-- A call that succeeds adds clauses. -/
theorem Retains.call (h : r.Retains clauses) {c : Call} (hstep : c.step r = .ok r')
    {new : List Clause} (hnew : r'.clauses.toList = r.clauses.toList ++ new) :
    r'.Retains (clauses ++ new) := by
  obtain ⟨log, hformed⟩ := h.formed
  have hafter : c.after r = r' := by
    unfold Call.after
    rw [hstep]
  refine ⟨⟨_, hafter ▸ hformed.call c⟩, fun d hd => ?_⟩
  rw [hnew]
  rcases List.mem_append.mp hd with hd | hd
  · exact List.mem_append_left _ (h.subset hd)
  · exact List.mem_append_right _ hd

theorem Retains.addRule (h : r.Retains clauses) {rule : Rule} (hadd : r.addRule rule = .ok r') :
    r'.Retains (clauses ++ rule.clause.shifted) := by
  have hnoted := hadd
  rw [addRule_eq] at hnoted
  refine h.call (c := .addRule rule) hadd ?_
  rw [(adds_of_noted (o := .rule rule) rfl hnoted).1.clauses]
  simp [Observation.clauses, Observation.rule?]

theorem Retains.addWeightRule (h : r.Retains clauses) {rule : WeightRule}
    (hadd : r.addWeightRule rule = .ok r') : r'.Retains (clauses ++ rule.clause.shifted) := by
  have hnoted := hadd
  rw [addWeightRule_eq] at hnoted
  refine h.call (c := .addWeightRule rule) hadd ?_
  rw [(adds_of_noted (o := .weightRule rule) rfl hnoted).1.clauses]
  simp [Observation.clauses, Observation.rule?]

/-- A literal that is forbidden holds in no model that comes back. -/
theorem Retains.not_holds (h : r.Retains [⟨false, [], [l], none⟩])
    (hsolve : r.solve assumptions = .ok report) (hresult : report.result = .satisfiable m) :
    ¬m.holds l := by
  obtain ⟨log, hformed⟩ := h.formed
  have hranged := hformed.ranged_problem assumptions
  have hoffers := (offers_of_solve hranged hformed.inRange_external hsolve hresult).1
  obtain ⟨l', hl', hnot⟩ := hoffers.exists_not_holds hranged (h.subset (List.mem_singleton_self _))
  exact List.mem_singleton.mp hl' ▸ hnot

end Reasoner

/-- Keeping account of no more than that. -/
def Ledger.retaining (clauses : List Clause) : Ledger (Transcript Reasoner) where
  Logs tr _ := tr.backend.Retains clauses
  Asks _ := True
  addRule {tr log rule} h hzero := by
    obtain ⟨r, hadd⟩ := Reasoner.takesRules.rule tr.backend rule hzero
    refine ⟨tr.add (.rule rule) r, ?_,
      (Reasoner.Retains.addRule h hadd).mono (List.subset_append_left _ _)⟩
    show tr.after (.rule rule) (Backend.addRule tr.backend rule) = _
    rw [hadd]
    rfl
  addWeightRule {tr log rule} h hzero := by
    obtain ⟨r, hadd⟩ := Reasoner.takesRules.weightRule tr.backend rule hzero
    refine ⟨tr.add (.weightRule rule) r, ?_,
      (Reasoner.Retains.addWeightRule h hadd).mono (List.subset_append_left _ _)⟩
    show tr.after (.weightRule rule) (Backend.addWeightRule tr.backend rule) = _
    rw [hadd]
    rfl
  solve h _ := h

/-- A list that ends in an element, split at some element. -/
theorem append_singleton_eq_iff {α : Type} {xs before rest : List α} {x y : α} :
    xs ++ [y] = before ++ x :: rest ↔ (before = xs ∧ x = y ∧ rest = []) ∨
      ∃ rest', rest = rest' ++ [y] ∧ xs = before ++ x :: rest' := by
  constructor
  · intro heq
    rcases List.eq_nil_or_concat rest with rfl | ⟨rest', last, rfl⟩
    · obtain ⟨rfl, hlast⟩ := List.append_inj' heq rfl
      exact Or.inl ⟨rfl, (List.singleton_inj.mp hlast).symm, rfl⟩
    · rw [List.concat_eq_append, ← List.cons_append, ← List.append_assoc] at heq
      obtain ⟨rfl, hlast⟩ := List.append_inj' heq rfl
      exact Or.inr ⟨rest', by rw [List.concat_eq_append, List.singleton_inj.mp hlast], rfl⟩
  · rintro (⟨rfl, rfl, rfl⟩ | ⟨rest', rfl, rfl⟩)
    · rfl
    · simp

namespace Unrolling

/-! ### What calls say of switches -/

namespace Call

/-- The handles that a call names are those of the template. -/
def UsesHandles (t : Template) : Call → Prop
  | .assign s _ | .release s => t.IsHandle s.index
  | _ => True

/-- What a call says of a switch if it succeeds after so many steps: a value, or that there is none
from now on. -/
def says? (steps : Nat) (s : Switch) : Call → Option (Option Bool)
  | .start => none
  | .ground first last => if first ≤ s.step ∧ s.step ≤ last then some (some false) else none
  | .extend count =>
    if steps < s.step ∧ s.step ≤ (steps + count) % Nat.pow 2 32 then some (some false) else none
  | .assign s' value =>
    if s' = s then
      some (match value with
        | .on => some true
        | .off => some false
        | .free | .release => none)
    else none
  | .release s' => if s' = s then some none else none

/-- The call is about a step that is not grounded, or would release by assigning. -/
def IsVain (steps : Nat) : Call → Prop
  | .assign s value => s.step = 0 ∨ steps < s.step ∨ value = .release
  | .release s => s.step = 0 ∨ steps < s.step
  | _ => False

end Call

namespace Pieces

/-- An unrolling that has not begun, before any reasoner. -/
def initial (t : Template) (tr : Transcript Reasoner) : Pieces := ⟨{ template := t }, tr, []⟩

def Succeeds (s : Pieces) (c : Call) : Prop :=
  ∃ left, c.step s.unrolling s.transcript = .ok left

instance (s : Pieces) (c : Call) : Decidable (s.Succeeds c) :=
  match h : c.step s.unrolling s.transcript with
  | .ok left => .isTrue ⟨left, h⟩
  | .error _ => .isFalse fun ⟨_, hok⟩ => by
    rw [h] at hok
    cases hok

/-- A call that fails says nothing. -/
def said? (s : Pieces) (c : Call) (switch : Switch) : Option (Option Bool) :=
  match c.step s.unrolling s.transcript with
  | .ok _ => c.says? s.unrolling.steps switch
  | .error _ => none

/-- The last call that has said something of the switch has said this. -/
def LastSaid (s : Pieces) (calls : List Call) (switch : Switch) (value : Option Bool) : Prop :=
  ∃ before c rest, calls = before ++ c :: rest ∧
    (s.afterAll before).said? c switch = some value ∧
      ∀ mid c' rest', rest = mid ++ c' :: rest' →
        (s.afterAll (before ++ c :: mid)).said? c' switch = none

/-- The literal of an index at a step is assumed, with this sign. -/
def Assumes (s : Pieces) (step index : Nat) (value : Bool) : Prop :=
  ∃ l, s.unrolling.literal? ⟨step, index⟩ = some l ∧
    (if value then l else l.negate) ∈ s.unrolling.assumptions

variable {t : Template} {s s₀ : Pieces} {calls : List Call} {c : Call} {switch : Switch}
  {value : Option Bool} {step k : Nat} {v : Bool} {tr : Transcript Reasoner}

theorem afterAll_concat (s : Pieces) (calls : List Call) (c : Call) :
    s.afterAll (calls ++ [c]) = (s.afterAll calls).after c := by
  unfold afterAll
  rw [List.foldl_append]
  rfl

/-- One more call. -/
theorem lastSaid_concat : s.LastSaid (calls ++ [c]) switch value ↔
    (s.afterAll calls).said? c switch = some value ∨
      (s.afterAll calls).said? c switch = none ∧ s.LastSaid calls switch value := by
  constructor
  · rintro ⟨before, c', rest, heq, hsaid, hrest⟩
    rcases append_singleton_eq_iff.mp heq with ⟨rfl, rfl, rfl⟩ | ⟨rest', rfl, rfl⟩
    · exact Or.inl hsaid
    · refine Or.inr ⟨hrest rest' c [] rfl, before, c', rest', rfl, hsaid, ?_⟩
      exact fun mid c'' rest'' heq' => hrest mid c'' (rest'' ++ [c]) (by simp [heq'])
  · rintro (hsaid | ⟨hnone, before, c', rest, rfl, hsaid, hrest⟩)
    · exact ⟨calls, c, [], rfl, hsaid, by simp⟩
    · refine ⟨before, c', rest ++ [c], by simp, hsaid, fun mid c'' rest' heq => ?_⟩
      rcases append_singleton_eq_iff.mp heq with ⟨rfl, rfl, rfl⟩ | ⟨rest'', rfl, rfl⟩
      · exact hnone
      · exact hrest mid c'' rest'' rfl

/-! ### What one call does -/

/-- What a call does to the values of switches, to the number of steps, and to what the reasoner
keeps. -/
structure Turns (t : Template) (s : Pieces) (c : Call) (s' : Pieces) : Prop where
  value : ∀ step k, t.IsHandle k → s'.unrolling.value? step k =
    (s.said? c ⟨step, k⟩).getD (s.unrolling.value? step k)
  other : ∀ step k, ¬t.IsHandle k → s'.unrolling.value? step k = s.unrolling.value? step k
  steps : s.unrolling.steps ≤ s'.unrolling.steps
  said : ∀ step k v, s.said? c ⟨step, k⟩ = some v → 1 ≤ step ∧ step ≤ s'.unrolling.steps
  retains : ∀ clauses, s.transcript.backend.Retains clauses →
    s'.transcript.backend.Retains clauses

theorem said?_of_error {e : UnrollError × Unrolling × Transcript Reasoner}
    (h : c.step s.unrolling s.transcript = .error e) : s.said? c switch = none := by
  unfold said?
  rw [h]

theorem said?_of_ok {left : Unrolling × Transcript Reasoner}
    (h : c.step s.unrolling s.transcript = .ok left) :
    s.said? c switch = c.says? s.unrolling.steps switch := by
  unfold said?
  rw [h]

theorem turns_of_error {e : UnrollError}
    (h : c.step s.unrolling s.transcript = .error (e, s.unrolling, s.transcript)) :
    Turns t s c (s.after c) := by
  have hsaid : ∀ switch, s.said? c switch = none := fun switch => said?_of_error h
  rw [after_of_error h]
  refine ⟨fun step k _ => ?_, fun _ _ _ => rfl, le_rfl, fun step k v hv => ?_, fun _ => id⟩
  · rw [hsaid]
    rfl
  · rw [hsaid] at hv
    cases hv

theorem Sound.turns_start (h : s.Sound t) (hbands : t.Banded) :
    Turns t s .start (s.after .start) := by
  obtain ⟨tr, hok, -⟩ := start_cases h.keeps hbands s.transcript
  have hsaid : ∀ switch, s.said? .start switch = none := fun switch => said?_of_ok hok
  rw [after_of_ok (c := .start) hok]
  refine ⟨fun step k _ => ?_, fun _ _ _ => rfl, le_rfl, fun step k v hv => ?_, ?_⟩
  · rw [hsaid]
    rfl
  · rw [hsaid] at hv
    cases hv
  · intro clauses hretains
    cases hstarted : s.unrolling.started with
    | true =>
        unfold start at hok
        rw [if_pos hstarted] at hok
        exact (Prod.mk.inj (Except.ok.inj hok)).2 ▸ hretains
    | false =>
        have hlogs : (Ledger.retaining clauses).Logs s.transcript [] := hretains
        obtain ⟨tr', hok', hretains'⟩ :=
          Ledger.start_eq_ok hlogs (h.keeps.template ▸ hbands) hstarted
        exact (Prod.mk.inj (Except.ok.inj (hok'.symm.trans hok))).2 ▸ hretains'

/-- A grounding that succeeds starts with the next step, and takes all up to the last one. -/
theorem Sound.turns_ground (h : s.Sound t) (hbands : t.Banded) {first last : Nat}
    (hstep : c.step s.unrolling s.transcript = s.unrolling.ground s.transcript first last)
    (hspoken : first = s.unrolling.steps + 1 → ∀ switch, c.says? s.unrolling.steps switch =
      if s.unrolling.steps < switch.step ∧ switch.step ≤ last then some (some false) else none) :
    Turns t s c (s.after c) := by
  rcases ground_cases h.keeps hbands s.transcript first last with ⟨-, hno⟩ | ⟨-, -, hno⟩ |
    ⟨rfl, hexceeds, tr, hok, -⟩
  · exact turns_of_error (hstep.trans hno)
  · exact turns_of_error (hstep.trans hno)
  · have hsaid : ∀ switch, s.said? c switch = if s.unrolling.steps < switch.step ∧
        switch.step ≤ last then some (some false) else none :=
      fun switch => (said?_of_ok (hstep.trans hok)).trans (hspoken rfl switch)
    obtain ⟨-, -, hsteps, -⟩ := h.keeps.groundedTo_frame last
    rw [after_of_ok (hstep.trans hok)]
    refine ⟨fun step k hk => ?_, fun step k hk => ?_, ?_, fun step k v hv => ?_, ?_⟩
    · rw [value?_groundedTo, hsaid, h.keeps.template]
      dsimp only
      by_cases hrange : s.unrolling.steps < step ∧ step ≤ last
      · rw [if_pos ⟨hrange, hk⟩, if_pos hrange]
        rfl
      · rw [if_neg fun h => hrange h.1, if_neg hrange]
        rfl
    · rw [value?_groundedTo, h.keeps.template, if_neg fun h => hk h.2]
    · exact hsteps ▸ le_max_left _ _
    · rw [hsaid] at hv
      split at hv
      · rename_i hrange
        dsimp only at hrange ⊢
        omega
      · cases hv
    · intro clauses hretains
      have hlogs : (Ledger.retaining clauses).Logs s.transcript [] := hretains
      have hfits : s.unrolling.template.fits last := by
        simpa [Template.exceeds_iff, h.keeps.template] using hexceeds
      obtain ⟨tr', hok', hretains'⟩ :=
        Ledger.ground_eq_ok hlogs (h.keeps.template ▸ hbands) hfits
      exact (Prod.mk.inj (Except.ok.inj (hok'.symm.trans hok))).2 ▸ hretains'

theorem isGrounded_iff {u : Unrolling} : u.isGrounded step ↔ 1 ≤ step ∧ step ≤ u.steps := by
  simp [isGrounded, Nat.succ_le_iff]

/-- A call about one switch at a grounded step. -/
theorem turns_of_switch {u : Unrolling} (hok : c.step s.unrolling s.transcript = .ok (u, tr))
    (hhandle : t.IsHandle switch.index) (hgrounded : s.unrolling.isGrounded switch.step)
    (hspoken : ∀ other, c.says? s.unrolling.steps other =
      if switch = other then some value else none)
    (hvalue : ∀ step k, u.value? step k =
      if step = switch.step ∧ k = switch.index then value else s.unrolling.value? step k)
    (hsteps : u.steps = s.unrolling.steps)
    (hretains : ∀ clauses, s.transcript.backend.Retains clauses → tr.backend.Retains clauses) :
    Turns t s c (s.after c) := by
  have hsaid : ∀ other, s.said? c other = if switch = other then some value else none :=
    fun other => (said?_of_ok hok).trans (hspoken other)
  have hsame : ∀ step k, switch = ⟨step, k⟩ ↔ step = switch.step ∧ k = switch.index := by
    intro step k
    rw [eq_comm, Switch.mk.injEq]
  rw [after_of_ok hok]
  refine ⟨fun step k _ => ?_, fun step k hk => ?_, hsteps.ge, fun step k v hv => ?_, hretains⟩
  · rw [hvalue, hsaid, if_congr (hsame step k) rfl rfl]
    split <;> rfl
  · refine (hvalue step k).trans (if_neg ?_)
    rintro ⟨-, rfl⟩
    exact hk hhandle
  · rw [hsaid] at hv
    split at hv
    · rename_i heq
      obtain ⟨rfl, -⟩ := (hsame step k).mp heq
      exact hsteps ▸ isGrounded_iff.mp hgrounded
    · cases hv

theorem turns_assign {switch : Switch} (hhandle : t.IsHandle switch.index)
    (value : ExternalValue) :
    Turns t s (.assign switch value) (s.after (.assign switch value)) := by
  by_cases hgrounded : s.unrolling.isGrounded switch.step
  · have hassign : ∀ result : Except UnrollError Unrolling,
        (if !s.unrolling.isGrounded switch.step then .error (.unknownStep switch.step)
          else result) = result := fun _ => if_neg (by simp [hgrounded])
    have hstep : ∀ u, s.unrolling.assign switch value = .ok u →
        Call.step s.unrolling s.transcript (.assign switch value) = .ok (u, s.transcript) := by
      intro u hassign
      unfold Call.step
      dsimp only
      rw [hassign]
    cases value with
    | free =>
        exact turns_of_switch (hstep _ (hassign _)) hhandle hgrounded (fun _ => rfl)
          (fun _ _ => value?_remove) rfl fun _ => id
    | on =>
        exact turns_of_switch (hstep _ (hassign _)) hhandle hgrounded (fun _ => rfl)
          (fun _ _ => value?_put) rfl fun _ => id
    | off =>
        exact turns_of_switch (hstep _ (hassign _)) hhandle hgrounded (fun _ => rfl)
          (fun _ _ => value?_put) rfl fun _ => id
    | release =>
        refine turns_of_error (e := .release switch.step) ?_
        unfold Call.step assign
        dsimp only
        rw [hassign]
  · refine turns_of_error (e := .unknownStep switch.step) ?_
    unfold Call.step assign
    dsimp only
    rw [if_pos (by simpa using hgrounded)]

theorem release_eq_ok {u u' : Unrolling} {tr tr' : Transcript Reasoner}
    (h : u.release tr switch = .ok (u', tr')) : u.isGrounded switch.step ∧
      u' = u.assuming (Ascending.remove switch u.assigned) ∧ ∃ l, u.literal? switch = some l ∧
        tr.backend.addRule (.constraint [l]) = .ok tr'.backend := by
  unfold release at h
  split at h
  · cases h
  · rename_i hgrounded
    refine ⟨by simpa using hgrounded, ?_⟩
    split at h
    · cases h
    · rename_i l hl
      have hadd : Backend.addRule tr (.constraint [l]) =
          tr.after (.rule (.constraint [l])) (tr.backend.addRule (.constraint [l])) := rfl
      unfold tell at h
      rw [hadd] at h
      cases hrule : tr.backend.addRule (.constraint [l]) with
      | error result =>
          rw [hrule] at h
          cases h
      | ok r =>
          rw [hrule] at h
          obtain ⟨rfl, rfl⟩ := Prod.mk.inj (Except.ok.inj h)
          exact ⟨rfl, l, hl, hrule⟩

theorem turns_release {switch : Switch} (hhandle : t.IsHandle switch.index) :
    Turns t s (.release switch) (s.after (.release switch)) := by
  cases hrelease : s.unrolling.release s.transcript switch with
  | error result =>
      rcases release_cases s.unrolling s.transcript switch with ⟨e, hno⟩ | ⟨l, tr, -, hok, -⟩
      · exact turns_of_error hno
      · rw [hrelease] at hok
        cases hok
  | ok left =>
      obtain ⟨u, tr⟩ := left
      obtain ⟨hgrounded, rfl, l, -, hadd⟩ := release_eq_ok hrelease
      exact turns_of_switch hrelease hhandle hgrounded (fun _ => rfl) (fun _ _ => value?_remove)
        rfl fun clauses hretains =>
          (hretains.addRule hadd).mono (List.subset_append_left _ _)

theorem Sound.turns (h : s.Sound t) (hbands : t.Banded) (huses : c.UsesHandles t) :
    Turns t s c (s.after c) := by
  cases c with
  | start => exact h.turns_start hbands
  | ground first last =>
      refine h.turns_ground hbands rfl fun hfirst switch => ?_
      subst hfirst
      rfl
  | extend count => exact h.turns_ground hbands rfl fun _ _ => rfl
  | assign switch value => exact turns_assign huses value
  | release switch => exact turns_release huses

/-! ### Any calls -/

/-- The values of the switches are what calls have said last. -/
structure Mirrors (t : Template) (s₀ : Pieces) (calls : List Call) (s : Pieces) : Prop where
  sound : s.Sound t
  switched : s.unrolling.Switched
  value : ∀ step k, t.IsHandle k → ∀ v, s.unrolling.value? step k = some v ↔
    s₀.LastSaid calls ⟨step, k⟩ (some v)

theorem mirrors_initial (t : Template) (tr : Transcript Reasoner) :
    Mirrors t (initial t tr) [] (initial t tr) := by
  have hnone : ∀ step k, (initial t tr).unrolling.value? step k = none := fun _ _ => rfl
  refine ⟨⟨keeps_fresh t, rfl⟩, fun step k v hv => ?_, fun step k _ v => ?_⟩
  · rw [hnone] at hv
    cases hv
  · rw [hnone]
    refine iff_of_false (by simp) ?_
    rintro ⟨before, c, rest, heq, -⟩
    simp at heq

theorem Mirrors.after (h : Mirrors t s₀ calls (s₀.afterAll calls)) (hbands : t.Banded)
    (huses : c.UsesHandles t) : Mirrors t s₀ (calls ++ [c]) (s₀.afterAll (calls ++ [c])) := by
  have hturns := h.sound.turns hbands huses
  have hsound := (h.sound.after hbands c).1
  rw [afterAll_concat]
  refine ⟨hsound, fun step k v hv => ?_, fun step k hk v => ?_⟩
  · rw [hsound.keeps.template]
    by_cases hk : t.IsHandle k
    · refine ⟨?_, hk⟩
      rw [hturns.value step k hk] at hv
      cases hsaid : (s₀.afterAll calls).said? c ⟨step, k⟩ with
      | none =>
          rw [hsaid] at hv
          obtain ⟨⟨hone, hle⟩, -⟩ := h.switched step k v hv
          exact ⟨hone, hle.trans hturns.steps⟩
      | some x => exact hturns.said step k x hsaid
    · rw [hturns.other step k hk] at hv
      exact absurd (h.sound.keeps.template ▸ (h.switched step k v hv).2) hk
  · rw [hturns.value step k hk, lastSaid_concat]
    cases hsaid : (s₀.afterAll calls).said? c ⟨step, k⟩ with
    | none => simpa using h.value step k hk v
    | some x => simp

theorem mirrors_afterAll (hbands : t.Banded) (tr : Transcript Reasoner)
    (huses : ∀ c ∈ calls, c.UsesHandles t) :
    Mirrors t (initial t tr) calls ((initial t tr).afterAll calls) := by
  induction calls using List.reverseRecOn with
  | nil => exact mirrors_initial t tr
  | append_singleton calls c ih =>
      exact (ih fun c hc => huses c (by simp [hc])).after hbands (huses c (by simp))

theorem Sound.retains_afterAll (h : s.Sound t) (hbands : t.Banded)
    (huses : ∀ c ∈ calls, c.UsesHandles t) {clauses : List Clause}
    (hretains : s.transcript.backend.Retains clauses) :
    (s.afterAll calls).transcript.backend.Retains clauses := by
  induction calls generalizing s with
  | nil => exact hretains
  | cons c calls ih =>
      have hturns := h.turns hbands (huses c List.mem_cons_self)
      exact ih (h.after hbands c).1 (fun c hc => huses c (List.mem_cons_of_mem _ hc))
        (hturns.retains clauses hretains)

/-! ### What is assumed -/

theorem compare_switch_eq_lt {x y : Switch} :
    compare x y = .lt ↔ x.step < y.step ∨ x.step = y.step ∧ x.index < y.index := by
  change (compare x.step y.step).then (compare x.index y.index) = .lt ↔ _
  rw [Ordering.then_eq_lt, Nat.compare_eq_lt, Nat.compare_eq_eq, Nat.compare_eq_lt]

section Assumptions

variable {u : Unrolling}

/-- What is assumed of a switch is about its atom. -/
theorem atom_of_assumption? {entry : Switch × Bool} {l : Literal}
    (hl : u.assumption? entry = some l) :
    l.atom = entry.1.step * u.template.period + entry.1.index := by
  obtain ⟨l', hliteral, rfl⟩ := Option.map_eq_some_iff.mp hl
  obtain ⟨-, -, rfl⟩ := Template.literal?_eq_some_iff.mp hliteral
  split
  · exact Int.natAbs_natCast _
  · exact (Int.natAbs_neg _).trans (Int.natAbs_natCast _)

/-- Assumptions go by their atoms, because no handle is beyond the period. -/
theorem pairwise_assumptions (hsorted : Ascending.IsSorted u.assigned) (hswitched : u.Switched)
    (hlaid : u.template.Laid) : (u.assumptions.map Literal.atom).Pairwise (· < ·) := by
  have hindex : ∀ entry ∈ u.assigned, 1 ≤ entry.1.index ∧ entry.1.index ≤ u.template.period := by
    rintro ⟨⟨step, index⟩, v⟩ hmem
    exact hlaid.handle_range _ (hswitched step index v
      ((Ascending.get?_eq_some_iff hsorted).mpr hmem)).2
  unfold assumptions
  rw [List.pairwise_map, List.pairwise_filterMap]
  refine hsorted.imp_of_mem fun {x y} hx hy hlt l hl l' hl' => ?_
  rw [atom_of_assumption? hl, atom_of_assumption? hl']
  have hxrange := hindex x hx
  have hyrange := hindex y hy
  rcases compare_switch_eq_lt.mp hlt with hstep | ⟨hstep, hless⟩
  · have hmul : (x.1.step + 1) * u.template.period ≤ y.1.step * u.template.period :=
      Nat.mul_le_mul_right _ hstep
    rw [Nat.add_mul, Nat.one_mul] at hmul
    omega
  · rw [hstep]
    omega

/-- A handle is assumed at a step as its switch says, and no other switch speaks of its atom. -/
theorem signed_mem_assumptions_iff (hsorted : Ascending.IsSorted u.assigned)
    (hswitched : u.Switched) (hlaid : u.template.Laid) (hrange : u.Assumable)
    (hk : u.template.IsHandle k) :
    (∃ l, u.literal? ⟨step, k⟩ = some l ∧ (if v then l else l.negate) ∈ u.assumptions) ↔
      u.value? step k = some v := by
  constructor
  · rintro ⟨l, hl, hmem⟩
    obtain ⟨hpos, -, rfl⟩ := Template.literal?_eq_some_iff.mp hl
    obtain ⟨step', k', v', hv', heq⟩ := (mem_assumptions_iff hsorted hrange).mp hmem
    obtain ⟨rfl, hatom⟩ := Literal.signed_injective hpos heq
    obtain ⟨rfl, rfl⟩ := Template.eq_of_mul_add_eq (hlaid.handle_range k hk)
      (hlaid.handle_range k' (hswitched step' k' v hv').2) hatom
    exact hv'
  · intro hv
    refine ⟨_, literal?_eq (hrange step k v hv), ?_⟩
    exact (mem_assumptions_iff hsorted hrange).mpr ⟨step, k, v, hv, rfl⟩

end Assumptions

theorem Mirrors.assumable (h : Mirrors t s₀ calls s) (hlaid : t.Laid) : s.unrolling.Assumable := by
  have htemplate := h.sound.keeps.template
  rcases h.sound.keeps.fits with hzero | hfits
  · intro step k v hv
    have hrange := (h.switched step k v hv).1
    omega
  · exact h.switched.assumable (htemplate ▸ hlaid) (htemplate ▸ hfits)

/-- A call in vain fails and changes nothing. -/
theorem after_of_isVain (hvain : c.IsVain s.unrolling.steps) :
    ¬s.Succeeds c ∧ s.after c = s := by
  have hungrounded : ∀ {step : Nat}, (step = 0 ∨ s.unrolling.steps < step) →
      (!s.unrolling.isGrounded step) = true := by
    intro step hstep
    have hnot : ¬s.unrolling.isGrounded step := by
      rw [isGrounded_iff]
      omega
    simpa using hnot
  have herror : ∃ e, c.step s.unrolling s.transcript =
      .error (e, s.unrolling, s.transcript) := by
    cases c with
    | assign switch value =>
        have hassign : ∃ e, s.unrolling.assign switch value = .error e := by
          unfold assign
          by_cases hstep : switch.step = 0 ∨ s.unrolling.steps < switch.step
          · exact ⟨_, if_pos (hungrounded hstep)⟩
          · obtain rfl : value = .release := by
              rcases hvain with hzero | hbeyond | hvalue
              · exact absurd (Or.inl hzero) hstep
              · exact absurd (Or.inr hbeyond) hstep
              · exact hvalue
            split
            · exact ⟨_, rfl⟩
            · exact ⟨_, rfl⟩
        obtain ⟨e, he⟩ := hassign
        refine ⟨e, ?_⟩
        unfold Call.step
        dsimp only
        rw [he]
    | release switch => exact ⟨.unknownStep switch.step, if_pos (hungrounded hvain)⟩
    | start => exact hvain.elim
    | ground first last => exact hvain.elim
    | extend count => exact hvain.elim
  obtain ⟨e, he⟩ := herror
  refine ⟨?_, after_of_error he⟩
  rintro ⟨left, hok⟩
  rw [he] at hok
  cases hok

/-- A release that succeeds leaves its constraint with the reasoner. -/
theorem retains_of_release (h : s.Succeeds (.release switch))
    (hretains : s.transcript.backend.Retains []) :
    ∃ l, s.unrolling.literal? switch = some l ∧
      (s.after (.release switch)).transcript.backend.Retains [⟨false, [], [l], none⟩] := by
  obtain ⟨⟨u, tr⟩, hok⟩ := h
  obtain ⟨-, -, l, hl, hadd⟩ := release_eq_ok hok
  refine ⟨l, hl, ?_⟩
  rw [after_of_ok hok]
  exact hretains.addRule hadd

/-- The assumptions mirror what calls have said. For every compiled template, any reasoner before
it and any calls with its handles, failed ones among them, assumptions ascend by their atoms. A
handle is assumed at a step, with a sign, exactly if the step is grounded and the last call that
succeeded and was about the two has said so, where a grounding says false; and nothing else is
assumed. Calls in vain change nothing. Once a handle was released at a step, no model that is found
under the assumptions has it true there, whatever was assigned since. -/
theorem assumptions_mirror_calls {replay log : List Observation} {consequences : Consequences}
    (hcompile : compile replay consequences = .ok t) (hformed : tr.backend.Formed log)
    (huses : ∀ c ∈ calls, c.UsesHandles t) (hs : (initial t tr).afterAll calls = s) :
    (s.unrolling.assumptions.map Literal.atom).Pairwise (· < ·) ∧
    (∀ step k v, t.IsHandle k → (s.Assumes step k v ↔ (1 ≤ step ∧ step ≤ s.unrolling.steps) ∧
      (initial t tr).LastSaid calls ⟨step, k⟩ (some v))) ∧
    (∀ l ∈ s.unrolling.assumptions, ∃ step k, (1 ≤ step ∧ step ≤ s.unrolling.steps) ∧
      t.IsHandle k ∧ t.literal? step k = some (.positive l.atom)) ∧
    (∀ c : Call, c.IsVain s.unrolling.steps → ¬s.Succeeds c ∧ s.after c = s) ∧
    ∀ before step k rest, calls = before ++ .release ⟨step, k⟩ :: rest →
      ((initial t tr).afterAll before).Succeeds (.release ⟨step, k⟩) →
        ∃ l, t.literal? step k = some l ∧ ∀ report m,
          s.transcript.backend.solve s.unrolling.assumptions = .ok report →
            report.result = .satisfiable m → m.isTrue l.atom = false := by
  have hlaid := laid_of_compile hcompile
  have hbands := hlaid.toBanded
  have h := mirrors_afterAll hbands tr huses
  rw [hs] at h
  have htemplate := h.sound.keeps.template
  have hrange := h.assumable hlaid
  have hsorted := h.sound.keeps.sorted
  refine ⟨pairwise_assumptions hsorted h.switched (htemplate ▸ hlaid), fun step k v hk => ?_,
    fun l hl => ?_, fun c => after_of_isVain, fun before step k rest heq hok => ?_⟩
  · refine (signed_mem_assumptions_iff hsorted h.switched (htemplate ▸ hlaid) hrange
      (htemplate ▸ hk)).trans ?_
    rw [← h.value step k hk v]
    exact ⟨fun hv => ⟨(h.switched step k v hv).1, hv⟩, And.right⟩
  · obtain ⟨step, k, v, hv, hatom⟩ := atom_of_mem_assumptions hsorted hrange hl
    obtain ⟨hstep, hk⟩ := h.switched step k v hv
    refine ⟨step, k, hstep, htemplate ▸ hk, ?_⟩
    rw [hatom, ← htemplate]
    exact literal?_eq (hrange step k v hv)
  · subst heq
    have hbefore : ∀ c ∈ before, c.UsesHandles t := fun c hc => huses c (by simp [hc])
    have hrest : ∀ c ∈ rest, c.UsesHandles t := fun c hc => huses c (by simp [hc])
    have hsound := (mirrors_initial t tr).sound.afterAll hbands before
    have hnothing : tr.backend.Retains [] := ⟨⟨log, hformed⟩, List.nil_subset _⟩
    obtain ⟨l, hl, hconstraint⟩ := retains_of_release hok
      ((mirrors_initial t tr).sound.retains_afterAll hbands hbefore hnothing)
    have hretains := (hsound.after hbands _).1.retains_afterAll hbands hrest hconstraint
    have hsame : ((((initial t tr).afterAll before).after (.release ⟨step, k⟩)).afterAll rest) =
        s := by
      rw [← hs]
      unfold afterAll
      rw [List.foldl_append, List.foldl_cons]
    rw [hsame] at hretains
    refine ⟨l, hsound.keeps.template ▸ hl, fun report m hsolve hresult => ?_⟩
    obtain ⟨hpos, -, rfl⟩ := Template.literal?_eq_some_iff.mp hl
    have hnot := mt (Model.holds_positive hpos.ne').mpr (hretains.not_holds hsolve hresult)
    rw [show (Literal.positive _).atom = _ from Int.natAbs_natCast _]
    exact Bool.eq_false_iff.mpr hnot

/-- An assignment before anything is grounded, two steps, and a handle assigned. -/
def earlySwitchCalls : List Call := [.assign ⟨1, 1⟩ .on, .extend 2, .assign ⟨1, 1⟩ .on]

/-- A handle is released and assigned again, one is left open, and one released by assignment. -/
def switchCalls : List Call :=
  earlySwitchCalls ++ .release ⟨2, 1⟩ ::
    [.assign ⟨2, 1⟩ .on, .assign ⟨2, 1⟩ .off, .assign ⟨1, 2⟩ .free, .assign ⟨2, 2⟩ .release]

/-- The lamp after calls. -/
def lampAfter (t : Template) (calls : List Call) : Pieces :=
  (initial t ⟨.empty .unlimited, #[]⟩).afterAll calls

theorem exists_switchTemplate : ∃ t, lampReasoner.compile = .ok t ∧
    t.externals.map Prod.snd = [1, 2] ∧ t.literal? 2 1 = some (.positive 9) ∧
      (lampAfter t earlySwitchCalls).Succeeds (.release ⟨2, 1⟩) ∧
        (lampAfter t switchCalls).unrolling.literal? ⟨1, 1⟩ = some (.positive 5) ∧
          (lampAfter t switchCalls).unrolling.assumptions =
              [.positive 5, .negative 9, .negative 10] ∧
            ((lampAfter t switchCalls).transcript.backend.solve
                [.positive 5, .negative 9, .negative 10]).toOption.map SolveReport.result =
              some (.satisfiable ⟨#[false, false, false, false, true, true, false, true, true,
                false, false, true, true]⟩) := by
  obtain ⟨t, hcompile, h⟩ := exists_ok_of_any (x := lampReasoner.compile)
    (f := fun t =>
      t.externals.map Prod.snd = [1, 2] ∧ t.literal? 2 1 = some (.positive 9) ∧
        (lampAfter t earlySwitchCalls).Succeeds (.release ⟨2, 1⟩) ∧
          (lampAfter t switchCalls).unrolling.literal? ⟨1, 1⟩ = some (.positive 5) ∧
            (lampAfter t switchCalls).unrolling.assumptions =
                [.positive 5, .negative 9, .negative 10] ∧
              ((lampAfter t switchCalls).transcript.backend.solve
                  [.positive 5, .negative 9, .negative 10]).toOption.map SolveReport.result =
                some (.satisfiable ⟨#[false, false, false, false, true, true, false, true, true,
                  false, false, true, true]⟩))
    (by decide +kernel)
  exact ⟨t, hcompile, of_decide_eq_true h⟩

/-- What is assumed of the lamp in the end, and a model under that. -/
theorem assumptions_mirror_calls_lampProgram : ∃ t, lampReasoner.compile = .ok t ∧ ∃ s,
    (initial t ⟨.empty .unlimited, #[]⟩).afterAll switchCalls = s ∧
      s.unrolling.assumptions = [.positive 5, .negative 9, .negative 10] ∧
        (initial t ⟨.empty .unlimited, #[]⟩).LastSaid switchCalls ⟨1, 1⟩ (some true) ∧
          ∃ report m, s.transcript.backend.solve s.unrolling.assumptions = .ok report ∧
            report.result = .satisfiable m ∧ m.isTrue 9 = false := by
  obtain ⟨t, hcompile, hexternals, hreleased, hsucceeds, hliteral, hassumptions, hmodel⟩ :=
    exists_switchTemplate
  have hhandle : ∀ k ∈ [1, 2], t.IsHandle k := by
    intro k hk
    rw [← hexternals] at hk
    obtain ⟨⟨symbol, k⟩, hmem, rfl⟩ := List.mem_map.mp hk
    exact ⟨symbol, hmem⟩
  have huses : ∀ c ∈ switchCalls, c.UsesHandles t := by
    simp [switchCalls, earlySwitchCalls, Call.UsesHandles, hhandle]
  -- From here on the state is any state that the calls lead to.
  generalize hs : lampAfter t switchCalls = s at hliteral hassumptions hmodel
  obtain ⟨-, hassumes, -, -, hrelease⟩ :=
    assumptions_mirror_calls hcompile (.empty .unlimited) huses hs
  rw [← hassumptions] at hmodel
  obtain ⟨report, hsolve, hresult⟩ := Reasoner.exists_report_of_toOption hmodel
  obtain ⟨l, hl, hfalse⟩ := hrelease earlySwitchCalls 2 1 _ rfl hsucceeds
  obtain rfl := Option.some.inj (hreleased.symm.trans hl)
  have hassumed : s.Assumes 1 1 true := by
    refine ⟨_, hliteral, ?_⟩
    rw [hassumptions]
    exact List.mem_cons_self
  have hlast := ((hassumes 1 1 true (hhandle 1 (by simp))).mp hassumed).2
  exact ⟨t, hcompile, s, hs, hassumptions, hlast, report, _, hsolve, hresult,
    hfalse report _ hsolve hresult⟩

end Pieces

end Unrolling

end StablePlan
