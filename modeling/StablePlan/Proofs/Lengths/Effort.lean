import StablePlan.Proofs.Lengths.Strategy

/-!
The books of a pool. A pool holds no more runs than it has room for, and what it notes about a run
is what the run was told: the effort counts the outcomes that were unknown, and a run is exhausted
if its latest outcome was that memory ran out. Runs are not confused, for every index is given out
once.
-/

namespace StablePlan

variable {trials : List Trial} {t : Trial} {key : Nat}

/-- How many trials of a key ended unknown. -/
def unknowns (trials : List Trial) (key : Nat) : Nat :=
  trials.countP fun t => t.key = key ∧ t.outcome = .unknown

theorem unknowns_concat (trials : List Trial) (t : Trial) (key : Nat) :
    unknowns (trials ++ [t]) key =
      unknowns trials key + if t.key = key ∧ t.outcome = .unknown then 1 else 0 := by
  simp only [unknowns, List.countP_append, List.countP_singleton, decide_eq_true_eq]

theorem unknowns_of_forall_ne (h : ∀ t ∈ trials, t.key ≠ key) : unknowns trials key = 0 := by
  apply List.countP_eq_zero.mpr
  intro t ht
  simp [h t ht]

theorem latest?_of_forall_ne (h : ∀ t ∈ trials, t.key ≠ key) : latest? trials key = none := by
  cases hlatest : latest? trials key with
  | none => rfl
  | some outcome =>
      obtain ⟨t, ht, hkey, -⟩ := exists_trial_of_latest? hlatest
      exact absurd hkey (h t ht)

/-- There are no more trials than outcomes. -/
theorem Strategy.length_trials_le (s : Strategy) (outcomes : List Outcome) :
    (s.after outcomes).trials.length ≤ outcomes.length := by
  induction outcomes using List.reverseRecOn with
  | nil => exact le_rfl
  | append_singleton before outcome ih =>
      have hone : ((s.after before).trial? outcome).toList.length ≤ 1 := by
        cases (s.after before).trial? outcome <;> simp
      rw [after_concat, List.length_append]
      change ((s.after before).trials ++ _).length ≤ before.length + 1
      rw [List.length_append]
      exact Nat.add_le_add ih hone

namespace Run

variable {run run' current : Run} {outcome : Outcome}

/-- What is tried when the run has its turn. -/
def trial (run : Run) (outcome : Outcome) : Trial := ⟨run.index, run.length, outcome⟩

/-- What is noted about the run is what it was told. -/
structure IsNoted (run : Run) (trials : List Trial) : Prop where
  effort : run.effort = unknowns trials run.index
  exhausted : run.exhausted ↔ latest? trials run.index = some .outOfMemory

theorem isNoted_fresh (length : Nat) (h : ∀ t ∈ trials, t.key ≠ key) :
    IsNoted { index := key, length } trials := by
  constructor
  · exact (unknowns_of_forall_ne h).symm
  · simp [latest?_of_forall_ne h]

/-- The length and the turn of a run do not matter. -/
theorem IsNoted.of_notes (h : run.IsNoted trials)
    (heq : (run.index, run.effort, run.exhausted) = (run'.index, run'.effort, run'.exhausted)) :
    run'.IsNoted trials := by
  obtain ⟨hindex, heffort, hexhausted⟩ : run.index = run'.index ∧ run.effort = run'.effort ∧
      run.exhausted = run'.exhausted := by simpa using heq
  constructor
  · rw [← heffort, ← hindex]
    exact h.effort
  · rw [← hexhausted, ← hindex]
    exact h.exhausted

theorem IsNoted.concat_of_ne (h : run.IsNoted trials) (hne : t.key ≠ run.index) :
    run.IsNoted (trials ++ [t]) := by
  constructor
  · rw [unknowns_concat, if_neg (fun hkey => hne hkey.1), Nat.add_zero]
    exact h.effort
  · rw [latest?_concat, if_neg hne]
    exact h.exhausted

/-- The run that was tried, when the outcome is noted. -/
theorem IsNoted.told (h : current.IsNoted trials) (hindex : current.index = run.index)
    (heffort : run.effort = current.effort + if outcome = .unknown then 1 else 0)
    (hexhausted : run.exhausted ↔ outcome = .outOfMemory) :
    run.IsNoted (trials ++ [current.trial outcome]) := by
  have hkey : (current.trial outcome).key = run.index := hindex
  constructor
  · rw [unknowns_concat, heffort, h.effort, hindex]
    simp [trial, hindex]
  · rw [latest?_concat, if_pos hkey, hexhausted]
    simp [trial]

end Run

namespace Pool

variable {p p₀ : Pool} {run leader current : Run} {rest runs pending : List Run}
  {outcome : Outcome} {length : Nat}

/-! ### What is noted -/

/-- The notes about the runs are right, and nothing was told to a run that is still to be opened. -/
structure Accounts (p : Pool) (trials : List Trial) : Prop where
  size_pos : 0 < p.size
  room : p.held.length ≤ p.size
  keys : ∀ t ∈ trials, t.key < p.index
  noted : ∀ run ∈ p.held, run.IsNoted trials

theorem accounts_make (start step limit size : Nat) (propagateUnsat : Bool) (policy : Policy) :
    (make start step limit size propagateUnsat policy).Accounts [] := by
  have hpos : 0 < max size 1 := by omega
  exact ⟨hpos, Nat.zero_le _, nofun, nofun⟩

/-- Where the notes stay the same it does not matter in which list a run is. -/
theorem Accounts.of_notes (h : p.Accounts trials)
    (hnotes : (pending ++ runs).map (fun run => (run.index, run.effort, run.exhausted)) =
      p.held.map fun run => (run.index, run.effort, run.exhausted)) :
    { p with runs, pending }.Accounts trials := by
  refine ⟨h.size_pos, ?_, h.keys, ?_⟩
  · have hlength := congrArg List.length hnotes
    rw [List.length_map, List.length_map] at hlength
    show (pending ++ runs).length ≤ p.size
    rw [hlength]
    exact h.room
  · intro run hrun
    have hmem := List.mem_map_of_mem (f := fun run => (run.index, run.effort, run.exhausted)) hrun
    obtain ⟨old, hold, heq⟩ := List.mem_map.mp (hnotes ▸ hmem)
    exact (h.noted old hold).of_notes heq

/-- The first run is told an outcome, and those that are held then have it noted. -/
theorem Accounts.told (h : p.Accounts trials) (hbelow : current.index < p.index)
    (hlength : (pending ++ runs).length ≤ p.held.length)
    (hnoted : ∀ run ∈ pending ++ runs, run.IsNoted (trials ++ [current.trial outcome])) :
    { p with runs, pending }.Accounts (trials ++ [current.trial outcome]) := by
  refine ⟨h.size_pos, hlength.trans h.room, ?_, hnoted⟩
  intro t ht
  rcases List.mem_append.mp ht with ht | ht
  · exact h.keys t ht
  · rw [List.mem_singleton.mp ht]
    exact hbelow

/-- Nobody is confused with the first run. -/
theorem Orderly.mem_and_ne_of_mem (h : p.Orderly) (hp : p.runs = current :: rest)
    (hrun : run ∈ p.pending ++ rest) : run ∈ p.held ∧ current.index ≠ run.index := by
  have hheld : p.held = p.pending ++ current :: rest := by rw [held, hp]
  have hascending := h.ascending
  rw [hheld, List.pairwise_append, List.pairwise_cons] at hascending
  obtain ⟨-, ⟨hbehind, -⟩, hbefore⟩ := hascending
  rw [hheld]
  rcases List.mem_append.mp hrun with hrun | hrun
  · exact ⟨List.mem_append_left _ hrun, (hbefore run hrun current List.mem_cons_self).ne'⟩
  · exact ⟨List.mem_append_right _ (List.mem_cons_of_mem _ hrun), (hbehind run hrun).ne⟩

/-- The current run is put back, or it leaves the pool for good. -/
theorem Accounts.close (h : p.Accounts trials) (ho : p.Orderly) (hp : p.runs = current :: rest)
    (outcome : Outcome) :
    ({ p with runs := rest }.close current outcome).Accounts
      (trials ++ [current.trial outcome]) := by
  have hheld : p.held = p.pending ++ current :: rest := by rw [held, hp]
  have hcurrent : current ∈ p.held := by simp [hheld]
  have hbelow := ho.below current hcurrent
  have hlength : p.held.length = p.pending.length + (rest.length + 1) := by simp [hheld]
  have hothers : ∀ run ∈ p.pending ++ rest, run.IsNoted (trials ++ [current.trial outcome]) := by
    intro run hrun
    obtain ⟨hold, hne⟩ := ho.mem_and_ne_of_mem hp hrun
    exact (h.noted run hold).concat_of_ne hne
  -- A run that was not answered stands behind the pending ones then; a refuted one is gone.
  have hback : ∀ back : Run, back.IsNoted (trials ++ [current.trial outcome]) →
      { p with runs := rest, pending := p.pending ++ [back] }.Accounts
        (trials ++ [current.trial outcome]) := by
    intro back hnoted
    apply h.told hbelow
    · simp only [List.length_append, List.length_singleton]
      omega
    · intro run hrun
      rw [List.append_assoc, List.mem_append, List.mem_append, List.mem_singleton] at hrun
      rcases hrun with hrun | rfl | hrun
      · exact hothers run (List.mem_append_left _ hrun)
      · exact hnoted
      · exact hothers run (List.mem_append_right _ hrun)
  have hgone : ∀ kept : List Run, kept.Sublist p.pending →
      { p with runs := rest, pending := kept }.Accounts (trials ++ [current.trial outcome]) := by
    intro kept hkept
    apply h.told hbelow
    · have hfewer := hkept.length_le
      rw [List.length_append]
      omega
    · intro run hrun
      exact hothers run ((hkept.append_right rest).subset hrun)
  have hnoted := h.noted current hcurrent
  cases outcome with
  | satisfiable => exact hgone p.pending (List.Sublist.refl _)
  | unsatisfiable =>
      rw [close_unsatisfiable]
      apply hgone
      show (if p.propagateUnsat then [] else p.pending).Sublist p.pending
      split
      · exact List.nil_sublist _
      · exact List.Sublist.refl _
  | unknown => exact hback _ (hnoted.told rfl rfl (by simp))
  | outOfMemory => exact hback _ (hnoted.told rfl rfl (by simp))

theorem Accounts.skip (h : p.Accounts trials) : p.skip.Accounts trials := by
  apply h.of_notes
  exact congrArg (List.map _) p.held_skip

/-! ### Fresh runs -/

theorem Accounts.open (h : p.Accounts trials) (hroom : p.held.length < p.size) :
    { p with runs := p.runs ++ [p.freshRun], index := p.index + 1 }.Accounts trials := by
  have hheld : { p with runs := p.runs ++ [p.freshRun], index := p.index + 1 }.held =
      p.held ++ [p.freshRun] := (List.append_assoc _ _ _).symm
  refine ⟨h.size_pos, ?_, fun t ht => (h.keys t ht).trans (Nat.lt_succ_self _), ?_⟩
  · rw [hheld, List.length_append, List.length_singleton]
    exact hroom
  · rw [hheld]
    intro run hrun
    rcases List.mem_append.mp hrun with hrun | hrun
    · exact h.noted run hrun
    · rw [List.mem_singleton.mp hrun]
      exact Run.isNoted_fresh _ fun t ht => (h.keys t ht).ne

theorem Accounts.extend (h : p.Accounts trials) (leader : Run) (n : Nat)
    (hroom : p.held.length + n ≤ p.size) : (extend leader n p).Accounts trials := by
  induction n generalizing p with
  | zero => exact h
  | succ n ih =>
      rw [Pool.extend]
      split
      · apply ih (h.open (by omega))
        simp only [held, List.length_append, List.length_singleton] at hroom ⊢
        omega
      · exact h

theorem Accounts.extendToSize (h : p.Accounts trials) (leader : Run) (hpending : p.pending = []) :
    (extendToSize leader p).Accounts trials := by
  have hroom := h.room
  apply h.extend
  simp only [held, hpending, List.nil_append] at hroom ⊢
  omega

theorem Accounts.refill (h : p.Accounts trials) (hp : p.runs = []) :
    p.refill.1.Accounts trials := by
  have hheld := held_of_runs hp
  rw [Pool.refill]
  split
  · rename_i hpending
    have hsize := h.size_pos
    dsimp only
    split
    · exact ⟨h.size_pos, h.room, fun t ht => (h.keys t ht).trans (Nat.lt_succ_self _), h.noted⟩
    · have hopen := h.open (by simpa [hheld, hpending] using hsize)
      rw [hp, List.nil_append] at hopen
      exact hopen.extendToSize p.freshRun hpending
  · rename_i leader rest hpending
    split
    · exact h
    · apply Accounts.extendToSize _ _ rfl
      apply h.of_notes
      rw [hheld, hpending]
      simp

theorem propose_snd_of_nil (hp : p.runs = []) : p.propose.2 = p.refill.1 := by
  rw [propose, hp]
  dsimp only
  split
  · rename_i heq
    rw [heq]
  · rename_i heq
    rw [heq]

theorem propose_of_cons (hp : p.runs = current :: rest) :
    p.propose = (some current.length, p) := by
  rw [propose, hp]

theorem Accounts.propose (h : p.Accounts trials) : p.propose.2.Accounts trials := by
  cases hp : p.runs with
  | nil =>
      rw [propose_snd_of_nil hp]
      exact h.refill hp
  | cons current rest =>
      rw [propose_of_cons hp]
      exact h

/-! ### The run in front -/

/-- The run in front, if there is one, is to be tried. -/
def FrontSolves (p : Pool) : Prop := ∀ run ∈ p.runs.head?, run.solve = true

theorem frontSolves_skip (p : Pool) : p.skip.FrontSolves := by
  intro run hrun
  have hsolve := List.head?_dropWhile_not (fun run : Run => !run.solve) p.runs
  simp only [skip] at hrun
  rw [Option.mem_def.mp hrun] at hsolve
  simpa using hsolve

theorem prefix_extend (leader : Run) (n : Nat) (p : Pool) :
    p.runs <+: (extend leader n p).runs := by
  induction n generalizing p with
  | zero => exact List.prefix_rfl
  | succ n ih =>
      rw [extend]
      split
      · exact (List.prefix_append _ _).trans (ih { p with
          runs := p.runs ++ [p.freshRun], index := p.index + 1 })
      · exact List.prefix_rfl

/-- Fresh runs come behind the leader. -/
theorem frontSolves_extendToSize (hp : p.runs = run :: rest) (hsolve : run.solve = true)
    (leader : Run) : (extendToSize leader p).FrontSolves := by
  obtain ⟨fresh, hfresh⟩ := prefix_extend leader (p.size - p.runs.length) p
  intro front hfront
  rw [extendToSize, ← hfresh, hp, List.cons_append, List.head?_cons, Option.mem_some_iff] at hfront
  rw [← hfront]
  exact hsolve

theorem frontSolves_refill (hp : p.runs = []) : p.refill.1.FrontSolves := by
  have hnobody : ∀ q : Pool, q.runs = [] → q.FrontSolves := by
    intro q hq run hrun
    simp [hq] at hrun
  rw [refill]
  split
  · dsimp only
    split
    · exact hnobody _ hp
    · exact frontSolves_extendToSize rfl rfl _
  · split
    · exact hnobody _ hp
    · exact frontSolves_extendToSize rfl rfl _

theorem FrontSolves.propose (h : p.FrontSolves) : p.propose.2.FrontSolves := by
  cases hp : p.runs with
  | nil =>
      rw [propose_snd_of_nil hp]
      exact frontSolves_refill hp
  | cons current rest =>
      rw [propose_of_cons hp]
      exact h

/-! ### Talks with a pool -/

/-- A pool that trials have led to from another one, and what it proposes. -/
structure Stands (p₀ : Pool) (trials : List Trial) (proposal : Option Nat) (p : Pool) : Prop where
  advances : Advances p₀ p
  accounts : p.Accounts trials
  front : ∀ length, proposal = some length →
    ∃ run rest, p.runs = run :: rest ∧ run.solve = true ∧ run.length = length

/-- A proposal is the length of the run in front. -/
theorem FrontSolves.front (h : p.propose.2.FrontSolves) (hlength : p.propose.1 = some length) :
    ∃ run rest, p.propose.2.runs = run :: rest ∧ run.solve = true ∧ run.length = length := by
  obtain ⟨run, hrun, heq⟩ := Option.map_eq_some_iff.mp (head?_of_propose hlength)
  obtain ⟨rest, hruns⟩ := List.head?_eq_some_iff.mp hrun
  exact ⟨run, rest, hruns, h run hrun, heq⟩

theorem Stands.next {proposal : Option Nat} (h : p₀.Stands trials proposal p)
    (hp : p.runs = current :: rest) (outcome : Outcome) :
    p₀.Stands (trials ++ [current.trial outcome]) (p.next (some outcome)).1
      (p.next (some outcome)).2 := by
  have hadv := h.advances.trans (advances_next h.advances.orderly outcome)
  have hclose := h.accounts.close h.advances.orderly hp outcome
  by_cases houtcome : outcome = .satisfiable
  · subst houtcome
    rw [next_satisfiable hp] at hadv ⊢
    exact ⟨hadv, hclose, fun length hlength => absurd hlength (by simp)⟩
  · rw [next_cons hp houtcome] at hadv ⊢
    have hfront := (frontSolves_skip ({ p with runs := rest }.close current outcome)).propose
    exact ⟨hadv, hclose.skip.propose, fun length hlength => hfront.front hlength⟩

theorem stands_start (start step limit size : Nat) (propagateUnsat : Bool) (policy : Policy) :
    (make start step limit size propagateUnsat policy).Stands []
      (make start step limit size propagateUnsat policy).propose.1
      (make start step limit size propagateUnsat policy).propose.2 := by
  have hempty : (make start step limit size propagateUnsat policy).FrontSolves := by
    intro run hrun
    simp [make] at hrun
  exact ⟨advances_propose (orderly_make ..), (accounts_make ..).propose,
    fun length hlength => hempty.propose.front hlength⟩

/-- The outcome of a proposal is told to the run in front. -/
theorem Stands.tell {d : Dialogue} (h : p₀.Stands d.trials d.proposal p)
    (hd : d.strategy = .pool p) (hproposal : d.proposal ≠ none) (outcome : Outcome) :
    ∃ p', (d.tell outcome).strategy = .pool p' ∧
      p₀.Stands (d.tell outcome).trials (d.tell outcome).proposal p' := by
  obtain ⟨length, hlength⟩ := Option.ne_none_iff_exists'.mp hproposal
  obtain ⟨current, rest, hp, -, rfl⟩ := h.front length hlength
  have htried : d.strategy.tried? = some current.index := by
    rw [hd]
    show p.runs.head?.map Run.index = _
    rw [hp]
    rfl
  refine ⟨(p.next (some outcome)).2, ?_, ?_⟩
  · show (d.strategy.next _).2 = _
    rw [hd]
    rfl
  · have hnext := h.next hp outcome
    show p₀.Stands (d.trials ++ (d.trial? outcome).toList) (d.strategy.next _).1 _
    rw [Strategy.trial?_eq hlength htried, hd]
    exact hnext

theorem stands_after {start step limit size : Nat} {propagateUnsat : Bool} {policy : Policy}
    {s : Strategy} (hs : s = .pool (make start step limit size propagateUnsat policy))
    {outcomes : List Outcome} (hanswered : s.Answered outcomes) :
    ∃ p, (s.after outcomes).strategy = .pool p ∧
      (make start step limit size propagateUnsat policy).Stands (s.after outcomes).trials
        (s.after outcomes).proposal p := by
  induction outcomes using List.reverseRecOn with
  | nil =>
      subst hs
      exact ⟨_, rfl, stands_start ..⟩
  | append_singleton before outcome ih =>
      obtain ⟨hbefore, hproposal⟩ := hanswered.concat
      obtain ⟨p, hp, hstands⟩ := ih hbefore
      rw [Strategy.after_concat]
      exact hstands.tell hp hproposal outcome

/-- A run has no more effort than there were outcomes, so for fewer than `2 ^ 32` outcomes a counter
of 32 bits, which would wrap around, is the same as this one. -/
theorem effort_le {start step limit size : Nat} {propagateUnsat : Bool} {policy : Policy}
    {s : Strategy} (hs : s = .pool (make start step limit size propagateUnsat policy))
    {outcomes : List Outcome} (hanswered : s.Answered outcomes)
    (hp : (s.after outcomes).strategy = .pool p) {run : Run} (hrun : run ∈ p.held) :
    run.effort ≤ outcomes.length := by
  obtain ⟨p', hp', hstands⟩ := stands_after hs hanswered
  obtain rfl := Strategy.pool.inj (hp'.symm.trans hp)
  rw [(hstands.accounts.noted run hrun).effort]
  exact List.countP_le_length.trans (Strategy.length_trials_le s outcomes)

/-- Up to the first time that nothing is proposed, the pending runs and then the active ones stand
in the order of their indices and below every fresh one, and there are never more of them than the
pool has room for. Every run has the length of its index, within the limit; its effort is the number
of its outcomes that were unknown, and it is exhausted if and only if the latest was out of memory.
A length that is proposed is the one of the run in front, which is to be tried; a pool that is asked
again before it is told an outcome proposes the same and stays as it is. -/
theorem accounts_exact {start step limit size : Nat} {propagateUnsat : Bool} {policy : Policy}
    {s : Strategy} (hs : s = .pool (make start step limit size propagateUnsat policy))
    {outcomes : List Outcome} (hanswered : s.Answered outcomes) :
    ∃ p, (s.after outcomes).strategy = .pool p ∧
      (p.pending ++ p.runs).Pairwise (fun x y => x.index < y.index) ∧
      (p.pending ++ p.runs).length ≤ max size 1 ∧
      (∀ run ∈ p.pending ++ p.runs,
        run.index < p.index ∧
        run.length = min (start + step * run.index) maxLength ∧ run.length ≤ limit ∧
        run.effort = unknowns (s.after outcomes).trials run.index ∧
        (run.exhausted ↔ latest? (s.after outcomes).trials run.index = some .outOfMemory)) ∧
      ∀ length, (s.after outcomes).proposal = some length →
        (∃ run rest, p.runs = run :: rest ∧ run.solve = true ∧ run.length = length) ∧
          p.next none = (some length, p) := by
  obtain ⟨p, hp, hadv, haccounts, hfront⟩ := stands_after hs hanswered
  obtain ⟨index, runs, pending, rfl⟩ := hadv.frame
  have horderly := hadv.orderly
  refine ⟨_, hp, horderly.ascending, haccounts.room, ?_, ?_⟩
  · intro run hrun
    obtain ⟨hlength, hlimit⟩ := horderly.lengths run hrun
    obtain ⟨heffort, hexhausted⟩ := haccounts.noted run hrun
    exact ⟨horderly.below run hrun, hlength, hlimit, heffort, hexhausted⟩
  · intro length hlength
    obtain ⟨run, rest, hruns, hsolve, rfl⟩ := hfront length hlength
    exact ⟨⟨run, rest, hruns, hsolve, rfl⟩, propose_of_cons hruns⟩

/-- A pool of two, whose leader leaves as much to others as it has had itself. -/
def pairPool : Strategy :=
  .pool (.make 0 5 10 2 true ⟨fun leader _ effort => effort ≤ leader.effort, fun _ _ => true⟩)

/-- The second run was out of memory in the first round and without an answer in the next one; the
first run was refuted in between, and a third one has taken its place. -/
theorem accounts_exact_pairPool :
    pairPool.Answered [.unknown, .outOfMemory, .unsatisfiable, .unknown] ∧
      ∃ p, (pairPool.after [.unknown, .outOfMemory, .unsatisfiable, .unknown]).strategy =
          .pool p ∧
        (p.pending ++ p.runs).map Run.index = [1, 2] ∧ (p.pending ++ p.runs).length ≤ 2 ∧
        (∀ run ∈ p.pending ++ p.runs, run.effort =
          unknowns [⟨0, 0, .unknown⟩, ⟨1, 5, .outOfMemory⟩, ⟨0, 0, .unsatisfiable⟩,
            ⟨1, 5, .unknown⟩] run.index) ∧
        ∃ run rest, p.runs = run :: rest ∧ run.solve = true ∧ run.length = 5 := by
  have hanswered : pairPool.Answered [.unknown, .outOfMemory, .unsatisfiable, .unknown] :=
    ((((Strategy.answered_nil _).snoc (by decide) .unknown).snoc (by decide) .outOfMemory).snoc
      (by decide) .unsatisfiable).snoc (by decide) .unknown
  obtain ⟨p, hp, -, hroom, hruns, hfront⟩ := accounts_exact (s := pairPool) rfl hanswered
  refine ⟨hanswered, p, hp, ?_, hroom, fun run hrun => (hruns run hrun).2.2.2.1,
    (hfront 5 (by decide)).1⟩
  cases hp
  decide

end Pool

end StablePlan
