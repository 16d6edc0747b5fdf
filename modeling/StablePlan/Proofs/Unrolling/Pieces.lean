import StablePlan.Proofs.Unrolling.Recording
import StablePlan.Proofs.Unrolling.Telling

/-!
Grounding in pieces. However the calls of an unrolling are mixed, and whichever of them fail, the
backend hears the initial state once and then one step after the other, as if all had been grounded
at once. A step is never left half told: if its last literal is in range, every rule of it can be
moved.
-/

namespace StablePlan

/-! ### Room for steps -/

namespace Template

variable {t : Template} {last s : Nat}

/-- Some index of a step up to the last one has no literal. -/
def Exceeds (t : Template) (last : Nat) : Prop :=
  ∃ s ≤ last, ∃ k, 1 ≤ k ∧ k ≤ t.period ∧ maxAtom < s * t.period + k

theorem exceeds_iff : t.Exceeds last ↔ ¬t.fits last := by
  have hliteral : ∀ s k, 1 ≤ k → ((t.literal? s k).isSome ↔ s * t.period + k ≤ maxAtom) := by
    intro s k hk
    rw [Option.isSome_iff_exists]
    simp only [literal?_eq_some_iff]
    exact ⟨fun ⟨_, _, hle, _⟩ => hle, fun hle => ⟨_, by omega, hle, rfl⟩⟩
  rw [fits_iff]
  unfold Exceeds
  push Not
  refine exists_congr fun s => and_congr_right fun _ => exists_congr fun k => ?_
  refine and_congr_right fun hk => and_congr_right fun _ => ?_
  rw [← not_le, ← hliteral s k hk]

/-- The rules of a template in order, as they read at a step. -/
def relocated (t : Template) (s : Nat) : List (Option Observation) :=
  t.rules.map (fun r => (t.relocate r s).map .rule) ++
    t.weightRules.map fun r => (t.relocateWeight r s).map .weightRule

/-- At a step that fits no rule is left out. -/
theorem eventsAt_eq_relocated (hbands : t.Banded) (hmove : t.CanMove s) :
    (t.eventsAt s).map some = t.relocated s := by
  have hall : ∀ {α : Type} (xs : List α) (f : α → Option Observation),
      (∀ x ∈ xs, (f x).isSome) → (xs.flatMap fun x => (f x).toList).map some = xs.map f := by
    intro α xs f hsome
    rw [List.map_flatMap, List.map_eq_flatMap]
    refine List.flatMap_congr fun x hx => ?_
    obtain ⟨o, ho⟩ := Option.isSome_iff_exists.mp (hsome x hx)
    rw [ho]
    rfl
  unfold eventsAt relocated
  rw [List.map_append]
  congr 1
  · refine hall _ _ fun r hr => ?_
    obtain ⟨r', hr', -⟩ := relocate_eq hmove (hbands.rules r hr)
    simp [hr']
  · refine hall _ _ fun r hr => ?_
    obtain ⟨r', hr', -⟩ := relocateWeight_eq hmove (hbands.weightRules r hr)
    simp [hr']

end Template

namespace Unrolling

/-! ### Calls -/

inductive Call where
  | start
  | ground (first last : Nat)
  | extend (count : Nat)
  | assign (s : Switch) (value : ExternalValue)
  | release (s : Switch)

namespace Call

variable {β : Type} [Backend β]

def step (u : Unrolling) (b : β) : Call → Except (Failure β) (Unrolling × β)
  | .start => u.start b
  | .ground first last => u.ground b first last
  | .extend count => u.extend b count
  | .assign s value =>
    match u.assign s value with
    | .ok u' => .ok (u', b)
    | .error e => .error (e, u, b)
  | .release s => u.release b s

/-- The calls that tell the initial state if it is not told yet. -/
def isGrounding : Call → Bool
  | .start | .ground _ _ | .extend _ => true
  | .assign _ _ | .release _ => false

def isRelease : Call → Bool
  | .release _ => true
  | _ => false

end Call

/-- The rules in the messages that came after the old ones. -/
def heard (old new : Array Message) : List Observation :=
  (new.toList.drop old.size).filterMap Message.told?

/-- How far calls came, and what all of them but the releases told. -/
structure Pieces where
  unrolling : Unrolling
  transcript : Transcript Reasoner
  told : List Observation := []

namespace Pieces

def fresh (t : Template) (limit : Limit) : Pieces :=
  ⟨{ template := t }, ⟨.empty limit, #[]⟩, []⟩

/-- The state that a call leaves, also if it fails. -/
def after (s : Pieces) (c : Call) : Pieces :=
  let (u, tr) := match c.step s.unrolling s.transcript with
    | .ok left => left
    | .error (_, left) => left
  ⟨u, tr, s.told ++ if c.isRelease then [] else heard s.transcript.messages tr.messages⟩

def afterAll (s : Pieces) (calls : List Call) : Pieces := calls.foldl after s

/-- The call tells the initial state if it is not told yet. -/
def Grounds (s : Pieces) (c : Call) : Prop :=
  c.isGrounding ∧ ∃ left, c.step s.unrolling s.transcript = .ok left

end Pieces

/-! ### What one call does -/

/-- What calls keep up: the switches are in order, whatever steps there are fit, and there are none
before the start. -/
structure Keeps (t : Template) (u : Unrolling) : Prop where
  template : u.template = t
  sorted : Ascending.IsSorted u.assigned
  fits : u.steps = 0 ∨ t.fits u.steps
  started : u.started = false → u.steps = 0

section Calls

variable {t : Template} {u : Unrolling} {tr tr' : Transcript Reasoner}
  {events : List Observation} {first last : Nat}

theorem keeps_fresh (t : Template) : Keeps t { template := t } :=
  ⟨rfl, List.Pairwise.nil, Or.inl rfl, fun _ => rfl⟩

theorem heard_self (old : Array Message) : heard old old = [] := by
  unfold heard
  rw [List.drop_of_length_le (by simp)]
  rfl

/-- Messages that add events to the record were heard since. -/
theorem heard_eq {asks : List Literal → Prop} (h : tr'.Logs tr.messages asks
    (tr.messages.toList.filterMap Message.told? ++ events)) :
    heard tr.messages tr'.messages = events := by
  obtain ⟨⟨new, hnew, -⟩, htold⟩ := h
  rw [hnew, Array.toList_append, List.filterMap_append] at htold
  unfold heard
  rw [hnew, Array.toList_append, List.drop_left' Array.length_toList]
  exact List.append_cancel_left htold

/-- The account of what is told from now on. -/
def recording (tr : Transcript Reasoner) : Ledger (Transcript Reasoner) :=
  Transcript.ledger Reasoner.takesRules tr.messages fun _ => True

theorem logs_recording (tr : Transcript Reasoner) :
    (recording tr).Logs tr (tr.messages.toList.filterMap Message.told?) := Transcript.Logs.start

theorem start_cases (h : u.Keeps t) (hbands : t.Banded) (tr : Transcript Reasoner) :
    ∃ tr', u.start tr = .ok ({ u with started := true }, tr') ∧
      heard tr.messages tr'.messages = if u.started then [] else t.startEvents := by
  cases hstarted : u.started with
  | true =>
      refine ⟨tr, ?_, heard_self _⟩
      unfold start
      rw [if_pos hstarted, ← hstarted]
  | false =>
      rw [← h.template] at hbands ⊢
      obtain ⟨tr', hstart, hlogs⟩ := Ledger.start_eq_ok (logs_recording tr) hbands hstarted
      exact ⟨tr', hstart, heard_eq hlogs⟩

/-- The three ways in which a grounding can end. -/
theorem ground_cases (h : u.Keeps t) (hbands : t.Banded) (tr : Transcript Reasoner)
    (first last : Nat) :
    (first ≠ u.steps + 1 ∧
      u.ground tr first last = .error (.groundingOrder (u.steps + 1) first, u, tr)) ∨
    (first = u.steps + 1 ∧ t.Exceeds last ∧
      u.ground tr first last = .error (.atomOverflow last, u, tr)) ∨
    (first = u.steps + 1 ∧ ¬t.Exceeds last ∧
      ∃ tr', u.ground tr first last = .ok (u.groundedTo last, tr') ∧
        heard tr.messages tr'.messages = u.nextEvents last) := by
  by_cases horder : first = u.steps + 1
  · subst horder
    rw [← h.template] at hbands ⊢
    by_cases hexceeds : u.template.Exceeds last
    · exact Or.inr (Or.inl ⟨rfl, hexceeds, ground_eq_error (Template.exceeds_iff.mp hexceeds)⟩)
    · have hfits : u.template.fits last := by simpa [Template.exceeds_iff] using hexceeds
      obtain ⟨tr', hground, hlogs⟩ := Ledger.ground_eq_ok (logs_recording tr) hbands hfits
      exact Or.inr (Or.inr ⟨rfl, hexceeds, tr', hground, heard_eq hlogs⟩)
  · refine Or.inl ⟨horder, ?_⟩
    unfold ground
    rw [if_pos horder]

theorem Keeps.groundedTo_frame (h : u.Keeps t) (last : Nat) :
    (u.groundedTo last).template = u.template ∧ (u.groundedTo last).started = true ∧
      (u.groundedTo last).steps = max u.steps last ∧
        Ascending.IsSorted (u.groundedTo last).assigned := by
  obtain ⟨htemplate, hstarted, hsorted⟩ := foldl_enter (u := { u with started := true }) h.sorted
    (u.steps + 1) (last - u.steps)
  have hsteps := steps_foldl_enter { u with started := true } (u.steps + 1) (last - u.steps)
  refine ⟨htemplate, hstarted, hsteps.trans ?_, hsorted⟩
  dsimp only
  split <;> omega

theorem Keeps.groundedTo (h : u.Keeps t) (hexceeds : ¬t.Exceeds last) :
    (u.groundedTo last).Keeps t := by
  obtain ⟨htemplate, hstarted, hsteps, hsorted⟩ := h.groundedTo_frame last
  refine ⟨htemplate.trans h.template, hsorted, ?_, fun hno => ?_⟩
  · rw [hsteps]
    rcases le_total u.steps last with hle | hle
    · rw [max_eq_right hle]
      exact Or.inr (by simpa [Template.exceeds_iff] using hexceeds)
    · rw [max_eq_left hle]
      exact h.fits
  · rw [hstarted] at hno
    exact absurd hno (by simp)

theorem Keeps.told_groundedTo (h : u.Keeps t) (last : Nat) :
    (u.groundedTo last).told = u.told ++ u.nextEvents last := by
  obtain ⟨htemplate, hstart, hsteps, -⟩ := h.groundedTo_frame last
  have hrange : List.range' 1 (max u.steps last) =
      List.range' 1 u.steps ++ List.range' (u.steps + 1) (last - u.steps) := by
    rw [Nat.add_comm u.steps 1, List.range'_append_1]
    congr 1
    omega
  unfold told nextEvents
  rw [htemplate, hstart, hsteps, hrange, List.flatMap_append, if_pos rfl]
  cases hstarted : u.started with
  | true => simp
  | false => simp [h.started hstarted]

/-- A release fails before it changes anything, or it tells one constraint. -/
theorem release_cases (u : Unrolling) (tr : Transcript Reasoner) (s : Switch) :
    (∃ e, u.release tr s = .error (e, u, tr)) ∨
      ∃ l tr', u.literal? s = some l ∧
        u.release tr s = .ok (u.assuming (Ascending.remove s u.assigned), tr') ∧
        tr'.messages = tr.messages.push (.rule (.constraint [l])) := by
  unfold release
  by_cases hgrounded : u.isGrounded s.step = true
  · rw [if_neg (by simp [hgrounded])]
    cases hliteral : u.literal? s with
    | none => exact Or.inl ⟨_, rfl⟩
    | some l =>
        have hzero : 0 ∉ (Rule.constraint [l]).clause.atoms := by
          unfold literal? Template.literal? Literal.checked at hliteral
          split at hliteral
          · rename_i hrange
            obtain rfl := Option.some.inj hliteral
            simp [Clause.atoms, Rule.clause, Rule.constraint, Literal.positive, Literal.atom]
            omega
          · exact absurd hliteral (by simp)
        obtain ⟨r, hadd⟩ := Reasoner.takesRules.rule tr.backend (.constraint [l]) hzero
        refine Or.inr ⟨l, tr.add (.rule (.constraint [l])) r, rfl, ?_, rfl⟩
        have htells : Backend.addRule tr (.constraint [l]) =
            .ok (tr.add (.rule (.constraint [l])) r) := by
          change tr.after (.rule (.constraint [l])) (Backend.addRule tr.backend _) = _
          rw [hadd]
          rfl
        unfold tell
        dsimp only
        rw [htells]
        rfl
  · rw [if_pos (by simpa using hgrounded)]
    exact Or.inl ⟨_, rfl⟩

theorem Keeps.assuming (h : u.Keeps t) {table : List (Switch × Bool)}
    (hsorted : Ascending.IsSorted table) : (u.assuming table).Keeps t :=
  ⟨h.template, hsorted, h.fits, h.started⟩

theorem assign_cases (h : u.Keeps t) (s : Switch) (value : ExternalValue) :
    (∃ e, u.assign s value = .error e) ∨
      ∃ table, Ascending.IsSorted table ∧ u.assign s value = .ok (u.assuming table) := by
  unfold assign
  split
  · exact Or.inl ⟨_, rfl⟩
  · cases value with
    | free => exact Or.inr ⟨_, Ascending.isSorted_remove h.sorted s, rfl⟩
    | on => exact Or.inr ⟨_, Ascending.isSorted_put h.sorted s true, rfl⟩
    | off => exact Or.inr ⟨_, Ascending.isSorted_put h.sorted s false, rfl⟩
    | release => exact Or.inl ⟨_, rfl⟩

/-- What a call that succeeded has done. -/
structure Proceeds (u : Unrolling) (tr : Transcript Reasoner) (c : Call) (u' : Unrolling)
    (tr' : Transcript Reasoner) : Prop where
  started : u'.started = (u.started || c.isGrounding)
  told : u'.told = u.told ++ if c.isRelease then [] else heard tr.messages tr'.messages

/-- A call fails and leaves everything as it was, or it goes on with what is told. -/
def Settles (t : Template) (u : Unrolling) (tr : Transcript Reasoner) (c : Call) : Prop :=
  (∃ e, c.step u tr = .error (e, u, tr)) ∨
    ∃ u' tr', c.step u tr = .ok (u', tr') ∧ u'.Keeps t ∧ u.Proceeds tr c u' tr'

theorem Keeps.settles_of_ground (h : u.Keeps t) (hbands : t.Banded) {c : Call}
    (hgrounding : c.isGrounding = true) (hrelease : c.isRelease = false)
    (hstep : c.step u tr = u.ground tr first last) : Settles t u tr c := by
  rcases ground_cases h hbands tr first last with ⟨-, hno⟩ | ⟨-, -, hno⟩ |
    ⟨-, hexceeds, tr', hok, hheard⟩
  · exact Or.inl ⟨_, hstep.trans hno⟩
  · exact Or.inl ⟨_, hstep.trans hno⟩
  · refine Or.inr ⟨_, tr', hstep.trans hok, h.groundedTo hexceeds, ?_, ?_⟩
    · rw [(h.groundedTo_frame last).2.1, hgrounding, Bool.or_true]
    · rw [h.told_groundedTo, hrelease, hheard]
      rfl

theorem Keeps.settles (h : u.Keeps t) (hbands : t.Banded) (tr : Transcript Reasoner) (c : Call) :
    Settles t u tr c := by
  cases c with
  | start =>
      obtain ⟨tr', hstart, hheard⟩ := start_cases h hbands tr
      refine Or.inr ⟨_, tr', hstart, ⟨h.template, h.sorted, h.fits, nofun⟩,
        (Bool.or_true _).symm, ?_⟩
      rw [hheard]
      unfold told
      cases hstarted : u.started with
      | true => simp [Call.isRelease]
      | false => simp [h.started hstarted, h.template, Call.isRelease]
  | ground first last => exact h.settles_of_ground hbands rfl rfl rfl
  | extend count => exact h.settles_of_ground hbands rfl rfl rfl
  | assign s value =>
      rcases assign_cases h s value with ⟨e, hassign⟩ | ⟨table, hsorted, hassign⟩
      · refine Or.inl ⟨e, ?_⟩
        simp only [Call.step, hassign]
      · refine Or.inr ⟨_, tr, ?_, h.assuming hsorted, (Bool.or_false _).symm, ?_⟩
        · simp only [Call.step, hassign]
        · rw [heard_self]
          exact (List.append_nil _).symm
  | release s =>
      rcases release_cases u tr s with hno | ⟨l, tr', -, hok, -⟩
      · exact Or.inl hno
      · exact Or.inr ⟨_, tr', hok, h.assuming (Ascending.isSorted_remove h.sorted s),
          (Bool.or_false _).symm, (List.append_nil _).symm⟩

theorem Keeps.unchanged_of_error (h : u.Keeps t) (hbands : t.Banded) {c : Call} {e : UnrollError}
    {u' : Unrolling} (hno : c.step u tr = .error (e, u', tr')) : u' = u ∧ tr' = tr := by
  rcases h.settles hbands tr c with ⟨e', hno'⟩ | ⟨u', tr', hok, -⟩
  · obtain ⟨-, rfl, rfl⟩ := by simpa using hno'.symm.trans hno
    exact ⟨rfl, rfl⟩
  · rw [hok] at hno
    cases hno

end Calls

/-! ### Any calls -/

namespace Pieces

variable {t : Template} {s : Pieces} {u : Unrolling} {tr : Transcript Reasoner} {e : UnrollError}
  {c : Call}

theorem after_of_error
    (h : c.step s.unrolling s.transcript = .error (e, s.unrolling, s.transcript)) :
    s.after c = s := by
  unfold after
  rw [h]
  dsimp only
  rw [heard_self, ite_self, List.append_nil]

theorem after_of_ok (h : c.step s.unrolling s.transcript = .ok (u, tr)) : s.after c =
    ⟨u, tr, s.told ++ if c.isRelease then [] else heard s.transcript.messages tr.messages⟩ := by
  unfold after
  rw [h]

/-- What was told is what the unrolling needs. -/
structure Sound (t : Template) (s : Pieces) : Prop where
  keeps : s.unrolling.Keeps t
  told : s.told = s.unrolling.told

theorem sound_fresh (t : Template) (limit : Limit) : (fresh t limit).Sound t :=
  ⟨keeps_fresh t, rfl⟩

/-- One call. -/
theorem Sound.after (h : s.Sound t) (hbands : t.Banded) (c : Call) : (s.after c).Sound t ∧
    ((s.after c).unrolling.started = true ↔ s.unrolling.started = true ∨ s.Grounds c) := by
  rcases h.keeps.settles hbands s.transcript c with ⟨e, hno⟩ |
    ⟨u, tr, hok, hkeeps, hproceeds⟩
  · rw [after_of_error hno]
    refine ⟨h, (or_iff_left ?_).symm⟩
    rintro ⟨-, left, hleft⟩
    rw [hno] at hleft
    cases hleft
  · rw [after_of_ok hok]
    refine ⟨⟨hkeeps, ?_⟩, ?_⟩
    · dsimp only
      rw [h.told, hproceeds.told]
    · dsimp only
      rw [hproceeds.started, Bool.or_eq_true]
      exact or_congr_right ⟨fun hc => ⟨hc, _, hok⟩, fun hc => hc.1⟩

theorem Sound.afterAll (h : s.Sound t) (hbands : t.Banded) (calls : List Call) :
    (s.afterAll calls).Sound t := by
  induction calls generalizing s with
  | nil => exact h
  | cons c calls ih => exact ih (h.after hbands c).1

/-- A grounding call that succeeds tells the initial state, unless one before it has. -/
theorem Sound.started_afterAll_iff (h : s.Sound t) (hbands : t.Banded) (calls : List Call) :
    (s.afterAll calls).unrolling.started = true ↔ s.unrolling.started = true ∨
      ∃ before c rest, calls = before ++ c :: rest ∧ (s.afterAll before).Grounds c := by
  induction calls generalizing s with
  | nil => simp [Pieces.afterAll]
  | cons c calls ih =>
      obtain ⟨hsound, hstarted⟩ := h.after hbands c
      refine (ih hsound).trans ?_
      rw [hstarted, or_assoc]
      refine or_congr_right ⟨?_, ?_⟩
      · rintro (hc | ⟨before, c', rest, rfl, hc'⟩)
        · exact ⟨[], c, calls, rfl, hc⟩
        · exact ⟨c :: before, c', rest, rfl, hc'⟩
      · rintro ⟨_ | ⟨c', before⟩, c'', rest, heq, hc''⟩
        · obtain ⟨rfl, rfl⟩ := List.cons.inj heq
          exact Or.inl hc''
        · obtain ⟨rfl, rfl⟩ := List.cons.inj heq
          exact Or.inr ⟨before, c'', rest, rfl, hc''⟩

/-- Told without gaps. -/
theorem Sound.told_eq (h : s.Sound t) (hbands : t.Banded) (hstarted : s.unrolling.started = true) :
    s.told.map some = t.init.map (fun k => some (.rule (.fact k))) ++
      (List.range' 1 s.unrolling.steps).flatMap t.relocated := by
  rw [h.told]
  unfold Unrolling.told
  rw [h.keeps.template, if_pos hstarted, List.map_append, List.map_flatMap]
  congr 1
  · rw [Template.startEvents, List.map_map]
    rfl
  · refine List.flatMap_congr fun step hstep => ?_
    rw [List.mem_range'_1] at hstep
    have hfits := h.keeps.fits.resolve_left (by omega)
    exact Template.eventsAt_eq_relocated hbands
      (Template.canMove_of_fits hfits hstep.1 (by omega))

theorem Sound.told_eq_nil (h : s.Sound t) (hnot : s.unrolling.started = false) :
    s.told = [] ∧ s.unrolling.steps = 0 := by
  have hsteps := h.keeps.started hnot
  refine ⟨?_, hsteps⟩
  rw [h.told]
  unfold Unrolling.told
  rw [hnot, hsteps]
  rfl

/-- Grounding all steps at once tells the same. -/
theorem Sound.exists_ground_eq (h : s.Sound t) (hbands : t.Banded) (limit : Limit)
    (hsteps : 0 < s.unrolling.steps) : ∃ u tr,
      (fresh t limit).unrolling.ground (fresh t limit).transcript 1 s.unrolling.steps =
        .ok (u, tr) ∧ heard #[] tr.messages = s.told := by
  have hfits := h.keeps.fits.resolve_left hsteps.ne'
  have hstarted : s.unrolling.started = true := by
    by_contra hnot
    have hnone := h.keeps.started (by simpa using hnot)
    omega
  rcases ground_cases (keeps_fresh t) hbands (fresh t limit).transcript 1 s.unrolling.steps with
    ⟨hno, -⟩ | ⟨-, hexceeds, -⟩ | ⟨-, -, tr, hground, hheard⟩
  · exact absurd rfl hno
  · exact absurd hfits (Template.exceeds_iff.mp hexceeds)
  · refine ⟨_, tr, hground, hheard.trans ?_⟩
    rw [h.told]
    unfold Unrolling.told nextEvents
    rw [hstarted, h.keeps.template]
    rfl

/-- Some call has told the initial state. -/
def Started (t : Template) (limit : Limit) (calls : List Call) : Prop :=
  ∃ before c rest, calls = before ++ c :: rest ∧ ((fresh t limit).afterAll before).Grounds c

theorem started_iff (hbands : t.Banded) (limit : Limit) (calls : List Call) :
    ((fresh t limit).afterAll calls).unrolling.started = true ↔ Started t limit calls :=
  ((sound_fresh t limit).started_afterAll_iff hbands calls).trans (or_iff_right (by simp [fresh]))

/-- Whatever calls were made, the rules told besides releases are the initial state, once, and the
steps one after the other, as one grounding of all steps tells them; before the first call that
grounds they are none. A grounding fails if it is out of order, or if a literal of its steps is out
of range, and a call that fails changes nothing. -/
theorem told_in_pieces {replay : List Observation} {consequences : Consequences}
    (hcompile : compile replay consequences = .ok t) (limit : Limit) (calls : List Call)
    (hs : (fresh t limit).afterAll calls = s) :
    (Started t limit calls → s.told.map some = t.init.map (fun k => some (.rule (.fact k))) ++
      (List.range' 1 s.unrolling.steps).flatMap t.relocated) ∧
    (¬Started t limit calls → s.told = [] ∧ s.unrolling.steps = 0) ∧
    (0 < s.unrolling.steps → ∃ u tr, (fresh t limit).unrolling.ground (fresh t limit).transcript 1
      s.unrolling.steps = .ok (u, tr) ∧ heard #[] tr.messages = s.told) ∧
    (∀ first last, match s.unrolling.ground s.transcript first last with
      | .ok _ => first = s.unrolling.steps + 1 ∧ ¬t.Exceeds last
      | .error (e, _) =>
        first ≠ s.unrolling.steps + 1 ∧ e = .groundingOrder (s.unrolling.steps + 1) first ∨
          first = s.unrolling.steps + 1 ∧ t.Exceeds last ∧ e = .atomOverflow last) ∧
    (∀ (c : Call) e u tr, c.step s.unrolling s.transcript = .error (e, u, tr) →
      u = s.unrolling ∧ tr = s.transcript) ∧
    ∀ switch u tr, s.unrolling.release s.transcript switch = .ok (u, tr) →
      ∃ l, s.unrolling.literal? switch = some l ∧
        tr.messages = s.transcript.messages.push (.rule (.constraint [l])) := by
  have hbands := (laid_of_compile hcompile).toBanded
  have hsound := (sound_fresh t limit).afterAll hbands calls
  have hstarted := started_iff hbands limit calls
  rw [hs] at hsound hstarted
  refine ⟨fun h => hsound.told_eq hbands (hstarted.mpr h), fun h => ?_,
    hsound.exists_ground_eq hbands limit, fun first last => ?_,
    fun c e u tr => hsound.keeps.unchanged_of_error hbands, fun switch u tr hok => ?_⟩
  · exact hsound.told_eq_nil (by simpa [← hstarted] using h)
  · rcases ground_cases hsound.keeps hbands s.transcript first last with ⟨horder, hno⟩ |
      ⟨horder, hexceeds, hno⟩ | ⟨horder, hexceeds, tr, hok, -⟩
    · rw [hno]
      exact Or.inl ⟨horder, rfl⟩
    · rw [hno]
      exact Or.inr ⟨horder, hexceeds, rfl⟩
    · rw [hok]
      exact ⟨horder, hexceeds⟩
  · rcases release_cases s.unrolling s.transcript switch with ⟨e, hno⟩ | ⟨l, tr', hl, hok', hpush⟩
    · rw [hno] at hok
      cases hok
    · obtain ⟨-, rfl⟩ := Prod.mk.inj (Except.ok.inj (hok'.symm.trans hok))
      exact ⟨l, hl, hpush⟩

/-- A grounding out of order, the start, two steps in pieces with a release in between, an
assignment at a step that is not there, and more steps than fit. -/
def lampCalls : List Call :=
  [.ground 2 2, .start, .ground 1 1, .release ⟨1, 1⟩, .extend 1, .assign ⟨5, 1⟩ .on,
    .extend 4000000000]

theorem exists_lampTemplate : ∃ t, lampReasoner.compile = .ok t ∧ t.init ≠ [] ∧
    ((fresh t .unlimited).afterAll lampCalls).unrolling.steps = 2 := by
  obtain ⟨t, hcompile, h⟩ := exists_ok_of_any (x := lampReasoner.compile)
    (f := fun t => t.init ≠ [] ∧ ((fresh t .unlimited).afterAll lampCalls).unrolling.steps = 2)
    (by decide +kernel)
  exact ⟨t, hcompile, of_decide_eq_true h⟩

theorem told_in_pieces_lampProgram : ∃ t, lampReasoner.compile = .ok t ∧ ∃ s,
    (fresh t .unlimited).afterAll lampCalls = s ∧ s.unrolling.steps = 2 ∧
      s.told.map some =
        t.init.map (fun k => some (.rule (.fact k))) ++ (t.relocated 1 ++ t.relocated 2) := by
  obtain ⟨t, hcompile, -, hsteps⟩ := exists_lampTemplate
  have hstarted : Started t .unlimited lampCalls := by
    have hbands := (laid_of_compile hcompile).toBanded
    have hsound := (sound_fresh t .unlimited).afterAll hbands [.ground 2 2]
    obtain ⟨tr, hstart, -⟩ := start_cases hsound.keeps hbands _
    exact ⟨[.ground 2 2], .start, _, rfl, rfl, _, hstart⟩
  have htold := (told_in_pieces hcompile .unlimited lampCalls rfl).1 hstarted
  refine ⟨t, hcompile, _, rfl, hsteps, htold.trans ?_⟩
  rw [hsteps]
  simp [List.range']

/-- Calls that fail tell nothing, not even the initial state. -/
theorem silent_before_start_lampProgram : ∃ t, lampReasoner.compile = .ok t ∧ ∃ s,
    (fresh t .unlimited).afterAll [.ground 2 2] = s ∧
      s.told.map some ≠ t.init.map (fun k => some (.rule (.fact k))) ++
        (List.range' 1 s.unrolling.steps).flatMap t.relocated := by
  obtain ⟨t, hcompile, hinit, -⟩ := exists_lampTemplate
  have hfails : Call.step (fresh t .unlimited).unrolling (fresh t .unlimited).transcript
      (.ground 2 2) = .error (.groundingOrder 1 2, { template := t }, _) := rfl
  refine ⟨t, hcompile, _, after_of_error hfails, ?_⟩
  simpa [fresh] using hinit

end Pieces

end Unrolling

end StablePlan
