import Mathlib.Data.List.Induction
import StablePlan.Proofs.Lengths.Pool
import StablePlan.Proofs.Lengths.Queue

/-!
Strategies of both kinds. Keys order what is tried: none comes back below a refuted one, and none
is lost before it is answered.
-/

namespace StablePlan

namespace LengthQueue

variable {q q₀ : LengthQueue} {rest : List Nat} {current : Nat} {outcome : Outcome}

/-- A queue that keeps its lengths but proposes none has all of them out of memory. -/
def Proposes (q : LengthQueue) (proposal : Option Nat) : Prop :=
  proposal = q.lengths.head? ∨
    proposal = none ∧ q.lengths ≠ [] ∧ ∀ l ∈ q.lengths, l ∈ q.exhausted

theorem next_proposes (hq : q.lengths = current :: rest) (houtcome : outcome ≠ .satisfiable) :
    (q.next (some outcome)).2.Proposes (q.next (some outcome)).1 := by
  unfold next
  rw [hq]
  cases outcome with
  | satisfiable => exact absurd rfl houtcome
  | unsatisfiable => exact Or.inl rfl
  | unknown => exact Or.inl rfl
  | outOfMemory =>
      dsimp only
      split
      · rename_i hall
        refine Or.inr ⟨rfl, by simp, fun l hl => ?_⟩
        exact List.contains_iff_mem.mp (List.all_eq_true.mp hall l hl)
      · exact Or.inl rfl

theorem head?_of_next {length : Nat} {outcome : Option Outcome}
    (h : (q.next outcome).1 = some length) :
    (q.next outcome).2.lengths.head? = some length := by
  cases outcome with
  | none => exact h
  | some outcome =>
      cases hq : q.lengths with
      | nil =>
          rw [next_nil hq] at h
          exact absurd h (by simp)
      | cons current rest =>
          by_cases houtcome : outcome = .satisfiable
          · rw [houtcome, next_satisfiable] at h
            exact absurd h (by simp)
          · rcases next_proposes hq houtcome with heq | ⟨hnone, -⟩
            · exact heq ▸ h
            · exact absurd (hnone ▸ h) (by simp)

end LengthQueue

namespace Pool

variable {p : Pool} {length : Nat}

theorem head?_of_propose (h : p.propose.1 = some length) :
    p.propose.2.runs.head?.map Run.length = some length := by
  unfold propose at h ⊢
  split
  · rename_i run rest hp
    simpa [hp] using h
  · rename_i hp
    rw [hp] at h
    split
    · rename_i heq
      simpa [heq] using h
    · rename_i heq
      exact absurd h (by simp [heq])

theorem head?_of_next {outcome : Option Outcome} (h : (p.next outcome).1 = some length) :
    (p.next outcome).2.runs.head?.map Run.length = some length := by
  cases outcome with
  | none => exact head?_of_propose h
  | some outcome =>
      cases hp : p.runs with
      | nil =>
          rw [next_nil hp] at h
          exact absurd h (by simp)
      | cons current rest =>
          by_cases houtcome : outcome = .satisfiable
          · rw [houtcome, next_satisfiable hp] at h
            exact absurd h (by simp)
          · rw [next_cons hp houtcome] at h ⊢
            exact head?_of_propose h

end Pool

namespace Strategy

variable {s s' s'' : Strategy} {d : Dialogue} {outcome : Outcome} {outcomes : List Outcome}
  {key length : Nat}

/-! ### Keys that come and go -/

/-- All keys below it were given out. -/
def bound : Strategy → Nat
  | .queue q => q.last + 1
  | .pool p => p.index

/-- The length that a key stands for. -/
def lengthOf : Strategy → Nat → Nat
  | .queue _, key => key
  | .pool p, key => p.candidate key

inductive Sound : Strategy → Prop
  | queue {q} : q.Bounded → Sound (.queue q)
  | pool {p} : p.Orderly → Sound (.pool p)

/-- Whatever is new comes after all that was there. -/
structure Advances (s s' : Strategy) : Prop where
  bound : s.bound ≤ s'.bound
  held : ∀ key ∈ s'.held, key ∈ s.held ∨ s.bound ≤ key
  sound : s'.Sound
  nodup : s.held.Nodup → s'.held.Nodup
  lengthOf : s'.lengthOf = s.lengthOf
  limit : s'.limit = s.limit
  propagatesUnsat : s'.propagatesUnsat = s.propagatesUnsat

theorem Advances.refl (h : s.Sound) : Advances s s :=
  ⟨le_rfl, fun _ => Or.inl, h, id, rfl, rfl, rfl⟩

theorem Advances.trans (h : Advances s s') (h' : Advances s' s'') : Advances s s'' := by
  refine ⟨h.bound.trans h'.bound, fun key hkey => ?_, h'.sound, h'.nodup ∘ h.nodup,
    h'.lengthOf.trans h.lengthOf, h'.limit.trans h.limit,
    h'.propagatesUnsat.trans h.propagatesUnsat⟩
  rcases h'.held key hkey with hkey | hkey
  · exact h.held key hkey
  · exact Or.inr (h.bound.trans hkey)

theorem advances_queue {q q' : LengthQueue} (h : LengthQueue.Advances q q') :
    Advances (.queue q) (.queue q') := by
  refine ⟨Nat.succ_le_succ h.last, fun l hl => ?_, .queue h.bounded, h.nodup, rfl, ?_, ?_⟩
  · exact (h.held l hl).imp_right Nat.succ_le_of_lt
  all_goals
    obtain ⟨_, _, _, rfl⟩ := h.frame
    rfl

theorem advances_pool {p p' : Pool} (h : Pool.Advances p p') : Advances (.pool p) (.pool p') := by
  refine ⟨h.index, fun key hkey => ?_, .pool h.orderly, fun _ => ?_, ?_, ?_, ?_⟩
  · obtain ⟨run', hrun', rfl⟩ := List.mem_map.mp hkey
    rcases h.held run' hrun' with ⟨run, hrun, heq⟩ | hfresh
    · exact Or.inl (List.mem_map.mpr ⟨run, hrun, heq⟩)
    · exact Or.inr hfresh
  · exact List.pairwise_map.mpr (h.orderly.ascending.imp fun hlt => hlt.ne)
  all_goals
    obtain ⟨_, _, _, rfl⟩ := h.frame
    rfl

theorem Sound.advances_next (h : s.Sound) (outcome : Outcome) :
    Advances s (s.next (some outcome)).2 := by
  cases h with
  | queue h => exact advances_queue (LengthQueue.advances_next h outcome)
  | pool h => exact advances_pool (Pool.advances_next h outcome)

theorem Sound.lt_bound (h : s.Sound) (hkey : key ∈ s.held) : key < s.bound := by
  cases h with
  | queue h => exact Nat.lt_succ_of_le (h key hkey).1
  | pool h =>
      obtain ⟨run, hrun, rfl⟩ := List.mem_map.mp hkey
      exact h.below run hrun

theorem mem_held_of_tried (h : s.tried? = some key) : key ∈ s.held := by
  cases s with
  | queue q => exact List.mem_of_mem_head? h
  | pool p =>
      obtain ⟨run, hrun, rfl⟩ := Option.map_eq_some_iff.mp h
      exact List.mem_map_of_mem (List.mem_append_right _ (List.mem_of_mem_head? hrun))

/-- A refuted key is gone, and so are those below it if that is propagated. -/
theorem Sound.not_mem_of_unsatisfiable (h : s.Sound) (htried : s.tried? = some key) {key' : Nat}
    (hkey' : key' ∈ (s.next (some .unsatisfiable)).2.held) :
    (s.propagatesUnsat → key ≤ key') ∧ (s.held.Nodup → key' ≠ key) := by
  cases h with
  | queue h =>
      rename_i q
      obtain ⟨rest, hq⟩ : ∃ rest, q.lengths = key :: rest := List.head?_eq_some_iff.mp htried
      exact LengthQueue.not_mem_of_unsatisfiable h hq hkey'
  | pool h =>
      rename_i p
      obtain ⟨current, hcurrent, rfl⟩ := Option.map_eq_some_iff.mp htried
      obtain ⟨rest, hp⟩ := List.head?_eq_some_iff.mp hcurrent
      obtain ⟨hle, hne⟩ := Pool.not_mem_of_unsatisfiable h hp (List.mem_map.mp hkey')
      exact ⟨hle, fun _ => hne⟩

theorem Sound.lengthOf_le_limit (h : s.Sound) (hkey : key ∈ s.held) :
    s.lengthOf key ≤ s.limit := by
  cases h with
  | queue h => exact (h key hkey).2
  | pool h =>
      obtain ⟨run, hrun, rfl⟩ := List.mem_map.mp hkey
      obtain ⟨hlength, hlimit⟩ := h.lengths run hrun
      exact hlength.symm.trans_le hlimit

/-- A proposal is what is tried then. -/
theorem exists_tried_of_next {outcome : Option Outcome} (h : (s.next outcome).1 = some length)
    (hsound : (s.next outcome).2.Sound) :
    ∃ key, (s.next outcome).2.tried? = some key ∧
      (s.next outcome).2.lengthOf key = length := by
  cases s with
  | queue q => exact ⟨length, LengthQueue.head?_of_next h, rfl⟩
  | pool p =>
      obtain ⟨run, hrun, rfl⟩ := Option.map_eq_some_iff.mp (Pool.head?_of_next h)
      cases hsound with
      | pool horderly =>
          have hmem : run ∈ (p.next outcome).2.held :=
            List.mem_append_right _ (List.mem_of_mem_head? hrun)
          exact ⟨run.index, congrArg (Option.map Run.index) hrun,
            (horderly.lengths run hmem).1.symm⟩

/-- Candidates within the limit differ from one to the next. -/
def Ascends (s : Strategy) : Prop :=
  ∀ i, s.candidate (i + 1) ≤ s.limit → s.candidate i < s.candidate (i + 1)

theorem lengthOf_mono (s : Strategy) : Monotone s.lengthOf := by
  cases s with
  | queue q => exact monotone_id
  | pool p => exact p.candidate_mono

theorem Ascends.lengthOf_lt (h : s.Ascends) {key' : Nat} (hlt : key < key')
    (hlimit : s.lengthOf key' ≤ s.limit) : s.lengthOf key < s.lengthOf key' := by
  cases s with
  | queue q => exact hlt
  | pool p =>
      have hle : p.candidate (key + 1) ≤ p.candidate key' := p.candidate_mono hlt
      exact (h key (hle.trans hlimit)).trans_le hle

/-! ### Talks -/

/-- A dialogue that can go on: what it proposes is tried. -/
structure Coherent (d : Dialogue) : Prop where
  sound : d.strategy.Sound
  tried : ∀ length, d.proposal = some length →
    ∃ key, d.strategy.tried? = some key ∧ d.strategy.lengthOf key = length

/-- What a talk begins with. -/
structure Starts (s : Strategy) (d : Dialogue) : Prop where
  coherent : Coherent d
  nodup : s.Ascends → d.strategy.held.Nodup
  lengthOf : d.strategy.lengthOf = s.lengthOf
  limit : d.strategy.limit = s.limit
  propagatesUnsat : d.strategy.propagatesUnsat = s.propagatesUnsat

theorem Fresh.starts (h : s.Fresh) : s.Starts (.start s) := by
  have hcoherent : ∀ {s : Strategy}, (s.next none).2.Sound → Coherent (.start s) :=
    fun hsound => ⟨hsound, fun _ hlength => exists_tried_of_next hlength hsound⟩
  cases h with
  | @queue start size limit growth propagateUnsat hle =>
      have hbegun := LengthQueue.begun_fill (q := .make start size growth limit propagateUnsat) hle
      refine ⟨hcoherent (.queue fun l hl => ?_), hbegun.distinct, rfl, rfl, rfl⟩
      obtain ⟨hlast, hlimit, -⟩ := hbegun.candidates l hl
      exact ⟨hlast, hlimit⟩
  | @pool start step limit size propagateUnsat policy =>
      have horderly := Pool.orderly_make start step limit size propagateUnsat policy
      have hadv := advances_pool (Pool.advances_propose horderly)
      exact ⟨hcoherent hadv.sound, fun _ => hadv.nodup .nil, hadv.lengthOf, hadv.limit,
        hadv.propagatesUnsat⟩

theorem Coherent.tell (h : Coherent d) (outcome : Outcome) : Coherent (d.tell outcome) := by
  have hsound := (h.sound.advances_next outcome).sound
  exact ⟨hsound, fun _ hlength => exists_tried_of_next hlength hsound⟩

theorem Coherent.foldl (h : Coherent d) (outcomes : List Outcome) :
    Coherent (outcomes.foldl Dialogue.tell d) ∧
      Advances d.strategy (outcomes.foldl Dialogue.tell d).strategy := by
  induction outcomes generalizing d with
  | nil => exact ⟨h, .refl h.sound⟩
  | cons outcome rest ih =>
      obtain ⟨hcoherent, hadv⟩ := ih (h.tell outcome)
      exact ⟨hcoherent, (h.sound.advances_next outcome).trans hadv⟩

/-- Once a length is refuted nothing shorter is proposed if that is propagated, and the length
itself is not proposed again if the candidates ascend. -/
theorem proposal_of_refuted (h : s.Fresh) (before rest : List Outcome) {length' : Nat}
    (hlength : (s.after before).proposal = some length)
    (hlength' : (s.after (before ++ .unsatisfiable :: rest)).proposal = some length') :
    (s.propagatesUnsat → length ≤ length') ∧ (s.Ascends → length' ≠ length) := by
  have hstarts := h.starts
  obtain ⟨hbefore, hadv⟩ := hstarts.coherent.foldl before
  have hnext := hbefore.sound.advances_next .unsatisfiable
  obtain ⟨hafter, hadv'⟩ := (hbefore.tell .unsatisfiable).foldl rest
  have heq : s.after (before ++ .unsatisfiable :: rest) =
      rest.foldl Dialogue.tell ((s.after before).tell .unsatisfiable) := by
    unfold Strategy.after
    rw [List.foldl_append, List.foldl_cons]
  rw [heq] at hlength'
  obtain ⟨key, htried, hkey⟩ := hbefore.tried _ hlength
  obtain ⟨key', htried', hkey'⟩ := hafter.tried _ hlength'
  have hheld' := mem_held_of_tried htried'
  have hlimit := hafter.sound.lengthOf_le_limit hheld'
  have hlimit' := hbefore.sound.lengthOf_le_limit (mem_held_of_tried htried)
  have hlater := hnext.trans hadv'
  rw [hlater.lengthOf, hadv.lengthOf, hstarts.lengthOf] at hkey' hlimit
  rw [hlater.limit, hadv.limit, hstarts.limit] at hlimit
  rw [hadv.lengthOf, hstarts.lengthOf] at hkey hlimit'
  rw [hadv.limit, hstarts.limit] at hlimit'
  -- The later key was held when the length was refuted, or it was given out after that and is
  -- beyond all keys that there were.
  have hkeys : (s.propagatesUnsat → key ≤ key') ∧ (s.Ascends → key' ≠ key) := by
    rcases hadv'.held key' hheld' with hheld | hfresh
    · obtain ⟨hle, hne⟩ := hbefore.sound.not_mem_of_unsatisfiable htried hheld
      rw [hadv.propagatesUnsat, hstarts.propagatesUnsat] at hle
      exact ⟨hle, fun hascends => hne (hadv.nodup (hstarts.nodup hascends))⟩
    · have hlt := (hbefore.sound.lt_bound (mem_held_of_tried htried)).trans_le
        (hnext.bound.trans hfresh)
      exact ⟨fun _ => hlt.le, fun _ => hlt.ne'⟩
  rw [← hkey, ← hkey']
  refine ⟨fun hp => s.lengthOf_mono (hkeys.1 hp), fun hascends => ?_⟩
  rcases lt_or_gt_of_ne (hkeys.2 hascends) with hlt | hgt
  · exact (hascends.lengthOf_lt hlt hlimit').ne
  · exact (hascends.lengthOf_lt hgt hlimit).ne'

/-- A queue of two lengths. -/
def pairQueue : Strategy := .queue (.make 0 2 (.linear 5) 10 true)

theorem ascends_pairQueue : pairQueue.Ascends := by
  intro i hlimit
  have hsucc := LengthQueue.candidate_succ (.make 0 2 (.linear 5) 10 true) i
  have hmax : maxLength = 4294967295 := rfl
  change _ ≤ 10 at hlimit
  change LengthQueue.candidate _ i < LengthQueue.candidate _ (i + 1)
  change LengthQueue.candidate _ (i + 1) ≤ 10 at hlimit
  rw [hsucc] at hlimit ⊢
  simp only [LengthQueue.make, Growth.grow, addLength] at hlimit ⊢
  omega

/-- The second length is refuted when the first one has been put back. -/
theorem proposal_of_refuted_pairQueue :
    (pairQueue.after [.unknown]).proposal = some 5 ∧
      (pairQueue.after [.unknown, .unsatisfiable, .unknown]).proposal = some 10 ∧
        5 ≤ 10 ∧ 10 ≠ 5 := by
  have hbefore : (pairQueue.after [.unknown]).proposal = some 5 := by decide
  have hafter : (pairQueue.after [.unknown, .unsatisfiable, .unknown]).proposal = some 10 := by
    decide
  obtain ⟨hle, hne⟩ := proposal_of_refuted (s := pairQueue) (.queue (by decide)) [.unknown]
    [.unknown] hbefore hafter
  exact ⟨hbefore, hafter, hle rfl, hne ascends_pairQueue⟩

/-! ### What is left -/

/-- A talk that trials have led to. -/
inductive Tracks : Strategy → Dialogue → Prop
  | queue {q₀ q : LengthQueue} {proposal : Option Nat} {trials : List Trial} :
      q₀.start ≤ maxLength → q₀.Tracks trials q → q₀.Ended q → q.Proposes proposal →
        Tracks (.queue q₀) ⟨proposal, .queue q, trials⟩
  | pool {p₀ p : Pool} {proposal : Option Nat} {trials : List Trial} :
      p₀.Tracks trials p → proposal = p.runs.head?.map Run.length →
        (proposal = none → p₀.Ended p) → Tracks (.pool p₀) ⟨proposal, .pool p, trials⟩

/-- The length is refuted, or it was put back and then dropped for being shorter than a refuted
one. -/
def Settled (s : Strategy) (trials : List Trial) (length : Nat) : Prop :=
  Refuted trials length ∨
    s.propagatesUnsat ∧ (∃ key, Postponed trials key) ∧
      ∃ length', Refuted trials length' ∧ length < length'

theorem settled_queue {q : LengthQueue} {trials : List Trial} (h : q.Settled trials length) :
    Settled (.queue q) trials length :=
  h.imp_right fun ⟨hp, hpost, hlonger⟩ => ⟨hp, ⟨length, hpost⟩, hlonger⟩

theorem settled_pool {p : Pool} {trials : List Trial} {i : Nat} (h : p.Settled trials i) :
    Settled (.pool p) trials (p.candidate i) :=
  h.imp_right fun ⟨hp, hpost, hlonger⟩ => ⟨hp, ⟨i, hpost⟩, hlonger⟩

theorem Fresh.candidate_mono (h : s.Fresh) : Monotone s.candidate := by
  cases h with
  | queue hle => exact LengthQueue.candidate_mono hle
  | pool => exact Pool.candidate_mono _

theorem Fresh.tracks (h : s.Fresh) : s.Tracks (.start s) := by
  cases h with
  | @queue start size limit growth propagateUnsat hle =>
      obtain ⟨htracks, hended⟩ :=
        LengthQueue.tracks_fill (q := .make start size growth limit propagateUnsat) hle
      exact .queue hle htracks hended (Or.inl rfl)
  | @pool start step limit size propagateUnsat policy =>
      obtain ⟨htracks, hproposal, hended⟩ :=
        (Pool.tracks_make start step limit size propagateUnsat policy).propose
      exact .pool htracks hproposal hended

theorem trial?_eq (hlength : d.proposal = some length) (htried : d.strategy.tried? = some key)
    (outcome : Outcome) : d.trial? outcome = some ⟨key, length, outcome⟩ := by
  simp [Dialogue.trial?, hlength, htried]

theorem Tracks.exists_trial (h : s.Tracks d) (hlength : d.proposal = some length)
    (outcome : Outcome) :
    ∃ key, (d.tell outcome).trials = d.trials ++ [⟨key, length, outcome⟩] := by
  have htried : ∃ key, d.strategy.tried? = some key := by
    cases h with
    | @queue q₀ q proposal trials hstart htracks hended hproposes =>
        refine ⟨length, (hproposes.resolve_right fun h => ?_).symm.trans hlength⟩
        exact absurd (h.1.symm.trans hlength) (by simp)
    | @pool p₀ p proposal trials htracks hhead hended =>
        obtain ⟨current, hcurrent, -⟩ := Option.map_eq_some_iff.mp (hhead ▸ hlength)
        exact ⟨current.index, congrArg (Option.map Run.index) hcurrent⟩
  obtain ⟨key, htried⟩ := htried
  refine ⟨key, ?_⟩
  unfold Dialogue.tell
  rw [trial?_eq hlength htried]
  rfl

theorem Tracks.refuted_tell (h : s.Tracks d) (hlength : d.proposal = some length) :
    Refuted (d.tell .unsatisfiable).trials length := by
  obtain ⟨key, htrials⟩ := h.exists_trial hlength .unsatisfiable
  rw [htrials, refuted_concat]
  exact Or.inr ⟨rfl, rfl⟩

theorem Tracks.tell (h : s.Tracks d) (hproposal : d.proposal ≠ none)
    (houtcome : outcome ≠ .satisfiable) : s.Tracks (d.tell outcome) := by
  obtain ⟨length, hlength⟩ := Option.ne_none_iff_exists'.mp hproposal
  unfold Dialogue.tell
  cases h with
  | @queue q₀ q proposal trials hstart htracks hended hproposes =>
      have hhead : proposal = q.lengths.head? := hproposes.resolve_right fun h => hproposal h.1
      have hcurrent : q.lengths.head? = some length := hhead.symm.trans hlength
      obtain ⟨rest, hq⟩ := List.head?_eq_some_iff.mp hcurrent
      obtain ⟨htracks', hended'⟩ := htracks.next hstart hq houtcome
      rw [trial?_eq hlength (show (Strategy.queue q).tried? = some length from hcurrent)]
      exact .queue hstart htracks' hended' (LengthQueue.next_proposes hq houtcome)
  | @pool p₀ p proposal trials htracks hhead hended =>
      obtain ⟨current, hcurrent, hcurrentLength⟩ := Option.map_eq_some_iff.mp (hhead ▸ hlength)
      obtain ⟨rest, hp⟩ := List.head?_eq_some_iff.mp hcurrent
      obtain ⟨htracks', hproposal', hended'⟩ := htracks.next hp houtcome
      rw [trial?_eq hlength (congrArg (Option.map Run.index) hcurrent)]
      rw [hcurrentLength] at htracks'
      exact .pool htracks' hproposal' hended'

theorem tell_satisfiable (d : Dialogue) : (d.tell .satisfiable).proposal = none := by
  unfold Dialogue.tell
  cases d.strategy with
  | queue q => exact congrArg Prod.fst q.next_satisfiable
  | pool p =>
      cases hp : p.runs with
      | nil => exact congrArg Prod.fst (Pool.next_nil hp .satisfiable)
      | cons current rest => exact congrArg Prod.fst (Pool.next_satisfiable hp)

/-- The talk after outcomes none of which was a plan, but maybe the last. -/
theorem Fresh.tracks_after (h : s.Fresh) (hanswered : s.Answered outcomes) :
    s.Tracks (s.after outcomes) ∨
      outcomes.getLast? = some .satisfiable ∧ (s.after outcomes).proposal = none := by
  induction outcomes using List.reverseRecOn with
  | nil => exact Or.inl h.tracks
  | append_singleton rest outcome ih =>
      obtain ⟨hrest, hproposal⟩ := hanswered.concat
      rw [after_concat]
      by_cases houtcome : outcome = .satisfiable
      · subst houtcome
        exact Or.inr ⟨List.getLast?_concat .., tell_satisfiable _⟩
      · have htracks := (ih hrest).resolve_right fun h => hproposal h.2
        exact Or.inl (htracks.tell hproposal houtcome)

theorem Tracks.proposal (h : s.Tracks d) (hlength : d.proposal = some length) :
    length ≤ s.limit ∧ ∃ i, s.candidate i = length := by
  cases h with
  | @queue q₀ q proposal trials hstart htracks hended hproposes =>
      have hhead : proposal = q.lengths.head? :=
        hproposes.resolve_right fun h => by simp [h.1] at hlength
      have hmem : length ∈ q.lengths := List.mem_of_mem_head? (hhead.symm.trans hlength)
      exact (htracks.candidates length hmem).2
  | @pool p₀ p proposal trials htracks hhead hended =>
      obtain ⟨current, hcurrent, rfl⟩ := Option.map_eq_some_iff.mp (hhead ▸ hlength)
      have hmem : current ∈ p.held := List.mem_append_right _ (List.mem_of_mem_head? hcurrent)
      obtain ⟨heq, hlimit⟩ := htracks.orderly.lengths current hmem
      obtain ⟨hcandidate, hlimits, -⟩ := htracks.candidate_eq
      rw [hcandidate] at heq
      exact ⟨hlimit.trans_eq hlimits, current.index, heq.symm⟩

/-- Without a proposal all that is held is out of memory, or all candidates are settled. -/
theorem Tracks.settled_of_none (h : s.Tracks d) (hnone : d.proposal = none) :
    (d.strategy.held ≠ [] ∧
        ∀ key ∈ d.strategy.held, latest? d.trials key = some .outOfMemory) ∨
      ∀ i, s.candidate i ≤ s.limit → s.Settled d.trials (s.candidate i) := by
  cases h with
  | @queue q₀ q proposal trials hstart htracks hended hproposes =>
      by_cases hnil : q.lengths = []
      · refine Or.inr fun i hlimit => ?_
        rcases htracks.taken_of_le hstart (hended hnil i hlimit) hlimit with hmem | hsettled
        · exact absurd (hnil ▸ hmem) List.not_mem_nil
        · exact settled_queue hsettled
      · left
        rcases hproposes with hhead | ⟨-, hne, hall⟩
        · exact absurd (List.head?_eq_none_iff.mp (hhead.symm.trans hnone)) hnil
        · exact ⟨hne, fun l hl => htracks.exhausted l (hall l hl)⟩
  | @pool p₀ p proposal trials htracks hhead hended =>
      rcases hended hnone with ⟨hne, hall⟩ | ⟨hnil, hall⟩
      · refine Or.inl ⟨by simpa [held] using hne, fun key hkey => ?_⟩
        obtain ⟨run, hrun, rfl⟩ := List.mem_map.mp hkey
        exact htracks.exhausted run hrun (hall run hrun)
      · refine Or.inr fun i hlimit => ?_
        rcases htracks.taken i (hall i hlimit) hlimit with ⟨run, hrun, -⟩ | hsettled
        · exact absurd (hnil ▸ hrun) List.not_mem_nil
        · exact settled_pool hsettled

/-- If nothing is left open, the shorter candidates are refuted before a longer one is tried. -/
theorem Tracks.refuted_of_shorter (h : s.Tracks d)
    (hall : ∀ t ∈ d.trials, t.outcome = .unsatisfiable) (hlength : d.proposal = some length)
    {i : Nat} (hi : s.candidate i < length) : Refuted d.trials (s.candidate i) := by
  have hlimit := hi.le.trans (h.proposal hlength).1
  have hclosed : ∀ {key : Nat}, ¬ Postponed d.trials key :=
    fun ⟨t, ht, _, houtcome⟩ => houtcome (hall t ht)
  cases h with
  | @queue q₀ q proposal trials hstart htracks hended hproposes =>
      have hhead : proposal = q.lengths.head? :=
        hproposes.resolve_right fun h => by simp [h.1] at hlength
      obtain ⟨rest, hq⟩ := List.head?_eq_some_iff.mp (hhead.symm.trans hlength)
      have horder := htracks.order
      rw [hq, List.pairwise_cons] at horder
      have hlast := (htracks.candidates length (hq ▸ List.mem_cons_self)).1
      rcases htracks.taken_of_le hstart (hi.le.trans hlast) hlimit with hmem | hsettled
      · rw [hq, List.mem_cons] at hmem
        rcases hmem with heq | hmem
        · exact absurd heq hi.ne
        · have hle := (horder.1 _ hmem).resolve_right hclosed
          exact absurd hi (Nat.not_lt.mpr hle)
      · exact hsettled.resolve_right fun h => hclosed h.2.1
  | @pool p₀ p proposal trials htracks hhead hended =>
      obtain ⟨current, hcurrent, rfl⟩ := Option.map_eq_some_iff.mp (hhead ▸ hlength)
      obtain ⟨rest, hp⟩ := List.head?_eq_some_iff.mp hcurrent
      -- Nothing is pending, so the runs stand in the order of their indices.
      have hheld : p.held = current :: rest := by
        have hpending : p.pending = [] :=
          List.eq_nil_iff_forall_not_mem.mpr fun run hrun => hclosed (htracks.pending run hrun)
        unfold Pool.held
        rw [hpending, hp, List.nil_append]
      have hcurrent' : current ∈ p.held := hheld ▸ List.mem_cons_self
      have hindex : i < current.index := by
        have heq := (htracks.orderly.lengths current hcurrent').1
        rw [htracks.candidate_eq.1] at heq
        by_contra hge
        exact absurd (heq ▸ hi) (Nat.not_lt.mpr (p₀.candidate_mono (Nat.not_lt.mp hge)))
      have hbelow := hindex.trans (htracks.orderly.below current hcurrent')
      rcases htracks.taken i hbelow hlimit with ⟨run, hrun, rfl⟩ | hsettled
      · have hascending := htracks.orderly.ascending
        rw [hheld, List.pairwise_cons] at hascending
        rcases List.mem_cons.mp (hheld ▸ hrun) with rfl | hrest
        · exact absurd hindex (lt_irrefl _)
        · exact absurd (hascending.1 run hrest) hindex.asymm
      · exact hsettled.resolve_right fun h => hclosed h.2.1

/-- If nothing is left open, what is tried is not shorter than what was refuted. -/
theorem Tracks.le_of_refuted (h : s.Tracks d) (hall : ∀ t ∈ d.trials, t.outcome = .unsatisfiable)
    (hlength : d.proposal = some length) {length' : Nat} (hrefuted : Refuted d.trials length') :
    length' ≤ length := by
  have hclosed : ∀ {key : Nat}, ¬ Postponed d.trials key :=
    fun ⟨t, ht, _, houtcome⟩ => houtcome (hall t ht)
  cases h with
  | @queue q₀ q proposal trials hstart htracks hended hproposes =>
      have hhead : proposal = q.lengths.head? :=
        hproposes.resolve_right fun h => by simp [h.1] at hlength
      have hmem : length ∈ q.lengths := List.mem_of_mem_head? (hhead.symm.trans hlength)
      exact ((htracks.refuted length' hrefuted).2 length hmem).resolve_right hclosed
  | @pool p₀ p proposal trials htracks hhead hended =>
      obtain ⟨current, hcurrent, rfl⟩ := Option.map_eq_some_iff.mp (hhead ▸ hlength)
      have hmem : current ∈ p.held := List.mem_append_right _ (List.mem_of_mem_head? hcurrent)
      exact ((htracks.refuted length' hrefuted).2 current hmem).resolve_right hclosed

theorem Tracks.refuted_of_none (h : s.Tracks d)
    (hall : ∀ t ∈ d.trials, t.outcome = .unsatisfiable) (hnone : d.proposal = none) {i : Nat}
    (hlimit : s.candidate i ≤ s.limit) : Refuted d.trials (s.candidate i) := by
  rcases h.settled_of_none hnone with ⟨hne, hlatest⟩ | hsettled
  · obtain ⟨key, hkey⟩ := List.exists_mem_of_ne_nil _ hne
    obtain ⟨t, ht, -, houtcome⟩ := exists_trial_of_latest? (hlatest key hkey)
    exact absurd ((hall t ht).symm.trans houtcome) (by simp)
  · refine (hsettled i hlimit).resolve_right fun ⟨_, ⟨key, t, ht, _, houtcome⟩, _⟩ => ?_
    exact houtcome (hall t ht)

/-- Whatever is proposed is a candidate within the limit. Nothing is proposed only after a plan was
found, or if all that is held is out of memory, or if every candidate within the limit was refuted
or is shorter than one that was. -/
theorem proposal_exact (h : s.Fresh) (hanswered : s.Answered outcomes) :
    (∀ length, (s.after outcomes).proposal = some length →
        length ≤ s.limit ∧ ∃ i, s.candidate i = length) ∧
      ((s.after outcomes).proposal = none →
        outcomes.getLast? = some .satisfiable ∨
          ((s.after outcomes).strategy.held ≠ [] ∧
            ∀ key ∈ (s.after outcomes).strategy.held,
              latest? (s.after outcomes).trials key = some .outOfMemory) ∨
          ∀ i, s.candidate i ≤ s.limit →
            Refuted (s.after outcomes).trials (s.candidate i) ∨
              s.propagatesUnsat ∧
                ∃ length, Refuted (s.after outcomes).trials length ∧ s.candidate i < length) := by
  rcases h.tracks_after hanswered with htracks | ⟨hlast, hnone⟩
  · refine ⟨fun length hlength => htracks.proposal hlength, fun hnone => Or.inr ?_⟩
    refine (htracks.settled_of_none hnone).imp_right fun hsettled i hlimit => ?_
    exact (hsettled i hlimit).imp_right fun ⟨hp, _, hlonger⟩ => ⟨hp, hlonger⟩
  · exact ⟨fun length hlength => by simp [hnone] at hlength, fun _ => Or.inl hlast⟩

/-- The queue of two lengths gives up when the last of three is refuted; the first one was put
back and dropped. -/
theorem proposal_exact_pairQueue :
    (pairQueue.after [.unknown, .unsatisfiable, .unsatisfiable]).proposal = none ∧
      ∀ i, pairQueue.candidate i ≤ 10 →
        Refuted [⟨0, 0, .unknown⟩, ⟨5, 5, .unsatisfiable⟩, ⟨10, 10, .unsatisfiable⟩]
            (pairQueue.candidate i) ∨
          ∃ length, Refuted [⟨0, 0, .unknown⟩, ⟨5, 5, .unsatisfiable⟩, ⟨10, 10, .unsatisfiable⟩]
            length ∧ pairQueue.candidate i < length := by
  have hanswered : pairQueue.Answered [.unknown, .unsatisfiable, .unsatisfiable] :=
    (((answered_nil _).snoc (by decide) .unknown).snoc (by decide) .unsatisfiable).snoc
      (by decide) .unsatisfiable
  have hnone : (pairQueue.after [.unknown, .unsatisfiable, .unsatisfiable]).proposal = none := by
    decide
  have hexact := (proposal_exact (.queue (by decide)) hanswered).2 hnone
  have hsettled := (hexact.resolve_left (by decide)).resolve_left fun h => h.1 (by decide)
  exact ⟨hnone, fun i hlimit => (hsettled i hlimit).imp_right And.right⟩

end Strategy

end StablePlan
