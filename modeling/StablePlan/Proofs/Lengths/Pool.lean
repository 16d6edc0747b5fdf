import StablePlan.Proofs.Lengths.Dialogue

/-!
A pool of runs. The pending runs and then the active ones stand in the order of their indices, fresh
runs come after all of them, and every index that was given out is still there, refuted, or at a
shorter length than a refuted one.
-/

namespace StablePlan

/-- What stays the same of a run. -/
def Run.place (run : Run) : Nat × Nat := (run.index, run.length)

namespace Pool

variable {p p' p'' p₀ : Pool} {run leader current : Run} {rest : List Run} {outcome : Outcome}
  {trials : List Trial} {i l : Nat}

/-! ### Candidates -/

theorem lengthAt_eq (p : Pool) (i : Nat) : p.lengthAt i = p.candidate i := by
  unfold lengthAt candidate addLength mulLength
  rcases Nat.eq_zero_or_pos p.step with hzero | hpos
  · simp [hzero]
  · have hone : ∀ n, n ≤ p.step * n := fun n => Nat.le_mul_of_pos_left n hpos
    rcases le_total i maxLength with hi | hi
    · rw [min_eq_left hi]
      omega
    · have := hone i
      have := hone maxLength
      rw [min_eq_right hi]
      omega

theorem candidate_mono (p : Pool) : Monotone p.candidate := by
  intro i j hij
  have := Nat.mul_le_mul_left p.step hij
  unfold candidate
  omega

/-! ### Runs that come and go -/

/-- The runs stand in order, below every fresh one, at the lengths of their indices. -/
structure Orderly (p : Pool) : Prop where
  ascending : p.held.Pairwise fun x y => x.index < y.index
  below : ∀ run ∈ p.held, run.index < p.index
  lengths : ∀ run ∈ p.held, run.length = p.candidate run.index ∧ run.length ≤ p.limit

/-- Whatever is new is fresh. -/
structure Advances (p p' : Pool) : Prop where
  frame : ∃ index runs pending, p' = { p with index, runs, pending }
  index : p.index ≤ p'.index
  held : ∀ run' ∈ p'.held, (∃ run ∈ p.held, run.index = run'.index) ∨ p.index ≤ run'.index
  orderly : p'.Orderly

theorem Advances.refl (h : p.Orderly) : Advances p p :=
  ⟨⟨_, _, _, rfl⟩, le_rfl, fun run hrun => Or.inl ⟨run, hrun, rfl⟩, h⟩

theorem Advances.trans (h : Advances p p') (h' : Advances p' p'') : Advances p p'' := by
  refine ⟨?_, h.index.trans h'.index, fun run hrun => ?_, h'.orderly⟩
  · obtain ⟨_, _, _, rfl⟩ := h.frame
    obtain ⟨_, _, _, rfl⟩ := h'.frame
    exact ⟨_, _, _, rfl⟩
  · rcases h'.held run hrun with ⟨run', hrun', heq⟩ | hfresh
    · rcases h.held run' hrun' with ⟨run'', hrun'', heq'⟩ | hfresh
      · exact Or.inl ⟨run'', hrun'', heq'.trans heq⟩
      · exact Or.inr (heq ▸ hfresh)
    · exact Or.inr (h.index.trans hfresh)

/-- Runs may go, and those that stay may change in other things than their place. -/
theorem Advances.of_sublist (h : p.Orderly) {runs pending : List Run}
    (hsub : ((pending ++ runs).map Run.place).Sublist (p.held.map Run.place)) :
    Advances p { p with runs, pending } := by
  have hmem : ∀ run' ∈ pending ++ runs, ∃ run ∈ p.held, run.place = run'.place := fun run' hrun' =>
    List.mem_map.mp (hsub.subset (List.mem_map_of_mem hrun'))
  have hplace : ∀ {x y : Run}, x.place = y.place → x.index = y.index ∧ x.length = y.length :=
    fun heq => Prod.mk.inj heq
  refine ⟨⟨_, _, _, rfl⟩, le_rfl, fun run' hrun' => ?_, ?_, fun run' hrun' => ?_,
    fun run' hrun' => ?_⟩
  · obtain ⟨run, hrun, heq⟩ := hmem run' hrun'
    exact Or.inl ⟨run, hrun, (hplace heq).1⟩
  · have hall : (p.held.map Run.place).Pairwise fun x y => x.1 < y.1 :=
      List.pairwise_map.mpr h.ascending
    exact (List.pairwise_map (f := Run.place)).mp (hall.sublist hsub)
  · obtain ⟨run, hrun, heq⟩ := hmem run' hrun'
    exact (hplace heq).1 ▸ h.below run hrun
  · obtain ⟨run, hrun, heq⟩ := hmem run' hrun'
    rw [← (hplace heq).1, ← (hplace heq).2]
    exact h.lengths run hrun

/-- A fresh run comes behind all others. -/
theorem advances_open (h : p.Orderly) (hlimit : p.candidate p.index ≤ p.limit) :
    Advances p { p with runs := p.runs ++ [p.freshRun], index := p.index + 1 } := by
  have hheld : { p with runs := p.runs ++ [p.freshRun], index := p.index + 1 }.held =
      p.held ++ [p.freshRun] := (List.append_assoc _ _ _).symm
  have hfresh : p.freshRun.length = p.candidate p.index := p.lengthAt_eq p.index
  refine ⟨⟨_, _, _, rfl⟩, Nat.le_succ _, fun run hrun => ?_, ?_, fun run hrun => ?_,
    fun run hrun => ?_⟩
  · rcases List.mem_append.mp (hheld ▸ hrun) with hrun | hrun
    · exact Or.inl ⟨run, hrun, rfl⟩
    · exact Or.inr (List.mem_singleton.mp hrun ▸ le_rfl)
  · rw [hheld]
    refine List.pairwise_append.mpr ⟨h.ascending, List.pairwise_singleton _ _, fun x hx y hy => ?_⟩
    exact List.mem_singleton.mp hy ▸ h.below x hx
  · rcases List.mem_append.mp (hheld ▸ hrun) with hrun | hrun
    · exact (h.below run hrun).trans (Nat.lt_succ_self _)
    · rw [List.mem_singleton.mp hrun]
      exact Nat.lt_succ_self p.index
  · rcases List.mem_append.mp (hheld ▸ hrun) with hrun | hrun
    · exact h.lengths run hrun
    · rw [List.mem_singleton.mp hrun, hfresh]
      exact ⟨rfl, hlimit⟩

theorem advances_extend (h : p.Orderly) (leader : Run) (n : Nat) :
    Advances p (extend leader n p) := by
  induction n generalizing p with
  | zero => exact .refl h
  | succ n ih =>
      unfold extend
      split
      · rename_i hopen
        have hlimit : p.candidate p.index ≤ p.limit := by
          rw [Bool.and_eq_true, decide_eq_true_eq] at hopen
          exact p.lengthAt_eq p.index ▸ hopen.2
        exact (advances_open h hlimit).trans (ih (advances_open h hlimit).orderly)
      · exact .refl h

/-- The runs of an empty pool. -/
theorem held_of_runs (h : p.runs = []) : p.held = p.pending := by
  unfold held
  rw [h, List.append_nil]

theorem close_unsatisfiable (p : Pool) (current : Run) : p.close current .unsatisfiable =
    { p with pending := if p.propagateUnsat then [] else p.pending } := by
  unfold close
  dsimp only
  split <;> rfl

/-- The run that is put back has its place, whatever is noted about it. -/
theorem advances_close (h : p.Orderly) (hp : p.runs = current :: rest)
    (houtcome : outcome ≠ .satisfiable) :
    Advances p ({ p with runs := rest }.close current outcome) := by
  have hheld : p.held = p.pending ++ current :: rest := by
    unfold held
    rw [hp]
  have hback : ∀ run : Run, run.place = current.place →
      Advances p { p with runs := rest, pending := p.pending ++ [run] } := by
    intro run hrun
    refine .of_sublist h ?_
    rw [hheld]
    simp [hrun]
  cases outcome with
  | satisfiable => exact absurd rfl houtcome
  | unsatisfiable =>
      rw [close_unsatisfiable]
      refine .of_sublist h ?_
      rw [hheld]
      dsimp only
      split
      · exact ((List.sublist_cons_self _ _).trans (List.sublist_append_right _ _)).map _
      · exact ((List.sublist_cons_self _ _).append_left _).map _
  | unknown => exact hback { current with effort := current.effort + 1, exhausted := false } rfl
  | outOfMemory => exact hback { current with exhausted := true } rfl

@[simp] theorem held_skip (p : Pool) : p.skip.held = p.held := by
  unfold skip held
  rw [List.append_assoc, List.takeWhile_append_dropWhile]

theorem advances_skip (h : p.Orderly) : Advances p p.skip := by
  refine .of_sublist h ?_
  show (p.skip.held.map Run.place).Sublist (p.held.map Run.place)
  exact p.held_skip ▸ List.Sublist.refl _

/-- All pending runs come back for another round, and some of them get a turn. -/
theorem advances_recall (h : p.Orderly) (hp : p.runs = []) (hpending : p.pending = leader :: rest)
    (solve : Run → Bool) :
    Advances p { p with
      runs := { leader with solve := true } :: rest.map fun run => { run with solve := solve run }
      pending := [] } := by
  refine .of_sublist h ?_
  rw [held_of_runs hp, hpending, List.nil_append, List.map_cons, List.map_map, List.map_cons]
  exact List.Sublist.refl _

/-- An empty pool is filled, or all is given up. -/
theorem advances_refill (h : p.Orderly) (hp : p.runs = []) : Advances p p.refill.1 := by
  have hheld := held_of_runs hp
  unfold refill
  split
  · rename_i hpending
    rw [hpending] at hheld
    dsimp only
    split
    · refine ⟨⟨_, _, _, rfl⟩, Nat.le_succ _, fun run hrun => Or.inl ⟨run, hrun, rfl⟩,
        ⟨h.ascending, fun run hrun => ?_, h.lengths⟩⟩
      exact (h.below run hrun).trans (Nat.lt_succ_self _)
    · rename_i hwithin
      have hlimit : p.candidate p.index ≤ p.limit := p.lengthAt_eq p.index ▸ Nat.not_lt.mp hwithin
      have hopen := advances_open h hlimit
      rw [hp, List.nil_append] at hopen
      exact hopen.trans (advances_extend hopen.orderly _ _)
  · rename_i leader rest hpending
    split
    · exact .refl h
    · have hback := advances_recall h hp hpending fun run =>
        p.policy.admits { leader with solve := true } run.index run.effort
      exact hback.trans (advances_extend hback.orderly _ _)

theorem advances_propose (h : p.Orderly) : Advances p p.propose.2 := by
  unfold propose
  split
  · exact .refl h
  · rename_i hp
    have hrefill := advances_refill h hp
    split
    · rename_i heq
      rw [heq] at hrefill
      exact hrefill
    · rename_i heq
      rw [heq] at hrefill
      exact hrefill

theorem next_nil (hp : p.runs = []) (outcome : Outcome) : p.next (some outcome) = (none, p) := by
  unfold next
  rw [hp]

theorem next_satisfiable (hp : p.runs = current :: rest) :
    p.next (some .satisfiable) = (none, { p with runs := rest }) := by
  unfold next
  rw [hp]

theorem next_cons (hp : p.runs = current :: rest) (houtcome : outcome ≠ .satisfiable) :
    p.next (some outcome) = ({ p with runs := rest }.close current outcome).skip.propose := by
  unfold next
  rw [hp]
  cases outcome with
  | satisfiable => exact absurd rfl houtcome
  | unsatisfiable => rfl
  | unknown => rfl
  | outOfMemory => rfl

theorem advances_next (h : p.Orderly) (outcome : Outcome) :
    Advances p (p.next (some outcome)).2 := by
  cases hp : p.runs with
  | nil =>
      rw [next_nil hp]
      exact .refl h
  | cons current rest =>
      by_cases houtcome : outcome = .satisfiable
      · subst houtcome
        rw [next_satisfiable hp]
        refine .of_sublist h ?_
        unfold held
        rw [hp]
        exact ((List.sublist_cons_self _ _).append_left _).map _
      · rw [next_cons hp houtcome]
        have hclose := advances_close h hp houtcome
        have hskip := advances_skip hclose.orderly
        exact (hclose.trans hskip).trans (advances_propose hskip.orderly)

/-- The refuted run is gone, and so are those before it if that is propagated. -/
theorem not_mem_of_unsatisfiable (h : p.Orderly) (hp : p.runs = current :: rest)
    (hi : ∃ run ∈ (p.next (some .unsatisfiable)).2.held, run.index = i) :
    (p.propagateUnsat → current.index ≤ i) ∧ i ≠ current.index := by
  obtain ⟨run, hrun, rfl⟩ := hi
  rw [next_cons hp (by simp)] at hrun
  have hclose := advances_close h hp (by simp : Outcome.unsatisfiable ≠ .satisfiable)
  have hskip := advances_skip hclose.orderly
  have hheld : p.held = p.pending ++ current :: rest := by
    unfold held
    rw [hp]
  have hdistinct := h.ascending
  rw [hheld, List.pairwise_append, List.pairwise_cons] at hdistinct
  rcases (advances_propose hskip.orderly).held run hrun with ⟨run', hrun', heq⟩ | hfresh
  · rw [held_skip, close_unsatisfiable] at hrun'
    rw [← heq]
    rcases List.mem_append.mp hrun' with hpending | hrest
    · dsimp only at hpending
      split at hpending
      · exact absurd hpending List.not_mem_nil
      · rename_i hp'
        have hne := (hdistinct.2.2 run' hpending current (by simp)).ne
        exact ⟨fun hflag => absurd hflag hp', hne⟩
    · have hlt : current.index < run'.index := hdistinct.2.1.1 run' hrest
      exact ⟨fun _ => hlt.le, hlt.ne'⟩
  · have hlt : current.index < run.index :=
      (h.below current (hheld ▸ by simp)).trans_le ((hclose.trans hskip).index.trans hfresh)
    exact ⟨fun _ => hlt.le, hlt.ne'⟩

theorem orderly_make (start step limit size : Nat) (propagateUnsat : Bool) (policy : Policy) :
    (make start step limit size propagateUnsat policy).Orderly :=
  ⟨.nil, fun _ hrun => absurd hrun List.not_mem_nil, fun _ hrun => absurd hrun List.not_mem_nil⟩

/-! ### What becomes of the candidates -/

/-- The length of the index is refuted, or the run was dropped for being shorter than a refuted
one. -/
def Settled (p : Pool) (trials : List Trial) (i : Nat) : Prop :=
  Refuted trials (p.candidate i) ∨
    p.propagateUnsat ∧ Postponed trials i ∧ ∃ l, Refuted trials l ∧ p.candidate i < l

theorem Settled.concat (h : p.Settled trials i) (t : Trial) : p.Settled (trials ++ [t]) i := by
  rcases h with h | ⟨hp, hpost, l, h, hlt⟩
  · exact Or.inl (h.concat t)
  · exact Or.inr ⟨hp, hpost.concat t, l, h.concat t, hlt⟩

/-- A pool that trials have led to. Only what had its turn waits for another one, or is shorter
than a refuted length. -/
structure Tracks (p₀ : Pool) (trials : List Trial) (p : Pool) : Prop where
  frame : ∃ index runs pending, p = { p₀ with index, runs, pending }
  orderly : p.Orderly
  taken : ∀ i < p.index, p₀.candidate i ≤ p₀.limit →
    (∃ run ∈ p.held, run.index = i) ∨ p₀.Settled trials i
  exhausted : ∀ run ∈ p.held, run.exhausted → latest? trials run.index = some .outOfMemory
  pending : ∀ run ∈ p.pending, Postponed trials run.index
  waiting : ∀ run ∈ p.runs, run.solve ∨ Postponed trials run.index
  refuted : ∀ l, Refuted trials l → (∃ j < p.index, p₀.candidate j = l) ∧
    ∀ run ∈ p.held, l ≤ run.length ∨ Postponed trials run.index

/-- All runs are out of memory, or there is none and every index within the limit was given out. -/
def Ended (p₀ p : Pool) : Prop :=
  (p.held ≠ [] ∧ ∀ run ∈ p.held, run.exhausted) ∨
    p.held = [] ∧ ∀ i, p₀.candidate i ≤ p₀.limit → i < p.index

theorem Tracks.candidate_eq (h : Tracks p₀ trials p) :
    p.candidate = p₀.candidate ∧ p.limit = p₀.limit ∧ p.propagateUnsat = p₀.propagateUnsat := by
  obtain ⟨_, _, _, rfl⟩ := h.frame
  exact ⟨rfl, rfl, rfl⟩

theorem Tracks.frame_of_advances (h : Tracks p₀ trials p) (hadv : Advances p p') :
    ∃ index runs pending, p' = { p₀ with index, runs, pending } := by
  obtain ⟨_, _, _, rfl⟩ := h.frame
  obtain ⟨_, _, _, rfl⟩ := hadv.frame
  exact ⟨_, _, _, rfl⟩

theorem tracks_make (start step limit size : Nat) (propagateUnsat : Bool) (policy : Policy) :
    Tracks (make start step limit size propagateUnsat policy) []
      (make start step limit size propagateUnsat policy) :=
  ⟨⟨_, _, _, rfl⟩, orderly_make .., fun _ hi => absurd hi (Nat.not_lt_zero _), by simp [held, make],
    by simp [make], by simp [make], fun _ hrefuted => absurd hrefuted not_refuted_nil⟩

/-- The current run is put back with the outcome noted. -/
theorem Tracks.postpone (h : Tracks p₀ trials p) (hp : p.runs = current :: rest)
    (houtcome : outcome ≠ .unsatisfiable) (hrun : run.place = current.place)
    (hexhausted : run.exhausted → outcome = .outOfMemory)
    (hadv : Advances p { p with runs := rest, pending := p.pending ++ [run] }) :
    Tracks p₀ (trials ++ [⟨current.index, current.length, outcome⟩])
      { p with runs := rest, pending := p.pending ++ [run] } := by
  have hindex : run.index = current.index := (Prod.mk.inj hrun).1
  have hpost : Postponed (trials ++ [⟨current.index, current.length, outcome⟩]) run.index :=
    ⟨⟨current.index, current.length, outcome⟩, by simp, hindex.symm, houtcome⟩
  have hheld : p.held = p.pending ++ current :: rest := by
    unfold held
    rw [hp]
  -- Indices are distinct, so the new trial is about the run that is put back and no other.
  have hnew : ∀ x ∈ { p with runs := rest, pending := p.pending ++ [run] }.held,
      x = run ∨ x ∈ p.held ∧ x.index ≠ current.index := by
    intro x hx
    have hdistinct := h.orderly.ascending
    rw [hheld, List.pairwise_append, List.pairwise_cons] at hdistinct
    simp only [held, List.append_assoc, List.singleton_append, List.mem_append,
      List.mem_cons] at hx
    rw [hheld]
    rcases hx with hx | rfl | hx
    · exact Or.inr ⟨List.mem_append_left _ hx, (hdistinct.2.2 x hx current (by simp)).ne⟩
    · exact Or.inl rfl
    · exact Or.inr ⟨List.mem_append_right _ (List.mem_cons_of_mem _ hx),
        (hdistinct.2.1.1 x hx).ne'⟩
  refine ⟨h.frame_of_advances hadv, hadv.orderly, fun i hi hlimit => ?_, fun x hx hflag => ?_,
    fun x hx => ?_, fun x hx => ?_, fun l hl => ?_⟩
  · rcases h.taken i hi hlimit with ⟨x, hx, rfl⟩ | hsettled
    · left
      rw [hheld, List.mem_append, List.mem_cons] at hx
      rcases hx with hx | rfl | hx
      · exact ⟨x, by simp [held, hx], rfl⟩
      · exact ⟨run, by simp [held], hindex⟩
      · exact ⟨x, by simp [held, hx], rfl⟩
    · exact Or.inr (hsettled.concat _)
  · rw [latest?_concat]
    rcases hnew x hx with rfl | ⟨hold, hne⟩
    · rw [if_pos hindex.symm, hexhausted hflag]
    · rw [if_neg hne.symm]
      exact h.exhausted x hold hflag
  · rcases List.mem_append.mp hx with hx | hx
    · exact (h.pending x hx).concat _
    · exact List.mem_singleton.mp hx ▸ hpost
  · exact (h.waiting x (hp ▸ List.mem_cons_of_mem _ hx)).imp_right fun hpost => hpost.concat _
  · have hold := (refuted_concat.mp hl).resolve_right fun hnew => houtcome hnew.2
    obtain ⟨hcandidate, hall⟩ := h.refuted l hold
    refine ⟨hcandidate, fun x hx => ?_⟩
    rcases hnew x hx with rfl | ⟨hx, -⟩
    · exact Or.inr hpost
    · exact (hall x hx).imp_right fun hpost => hpost.concat _

/-- The current run leaves the pool, and with it the pending ones if that is propagated. -/
theorem Tracks.refute (h : Tracks p₀ trials p) (hp : p.runs = current :: rest) {pending : List Run}
    (hpending : pending = if p.propagateUnsat then [] else p.pending)
    (hadv : Advances p { p with runs := rest, pending }) :
    Tracks p₀ (trials ++ [⟨current.index, current.length, .unsatisfiable⟩])
      { p with runs := rest, pending } := by
  have hrefuted : Refuted (trials ++ [⟨current.index, current.length, .unsatisfiable⟩])
      current.length := ⟨_, List.mem_append_right _ (List.mem_singleton_self _), rfl, rfl⟩
  have hheld : p.held = p.pending ++ current :: rest := by
    unfold held
    rw [hp]
  have hdistinct := h.orderly.ascending
  rw [hheld, List.pairwise_append, List.pairwise_cons] at hdistinct
  have hsub : ∀ x ∈ pending, x ∈ p.pending := by
    intro x hx
    rw [hpending] at hx
    split at hx
    · exact absurd hx List.not_mem_nil
    · exact hx
  have hcurrent : current ∈ p.held := hheld ▸ by simp
  have hold : ∀ x ∈ { p with runs := rest, pending }.held, x ∈ p.held := by
    intro x hx
    rw [hheld]
    rcases List.mem_append.mp hx with hx | hx
    · exact List.mem_append_left _ (hsub x hx)
    · exact List.mem_append_right _ (List.mem_cons_of_mem _ hx)
  obtain ⟨hcandidate, hlimits, hflag⟩ := h.candidate_eq
  have hlengths : ∀ x ∈ p.held, x.length = p₀.candidate x.index :=
    fun x hx => hcandidate ▸ (h.orderly.lengths x hx).1
  have hlength := hlengths current hcurrent
  refine ⟨h.frame_of_advances hadv, hadv.orderly, fun i hi hlimit => ?_, fun x hx hexhausted => ?_,
    fun x hx => (h.pending x (hsub x hx)).concat _, fun x hx => ?_, fun l hl => ?_⟩
  · rcases h.taken i hi hlimit with ⟨x, hx, rfl⟩ | hsettled
    · rw [hheld, List.mem_append, List.mem_cons] at hx
      rcases hx with hx | rfl | hx
      · by_cases hp' : p.propagateUnsat
        · -- The lengths ascend with the indices, and pending runs come first.
          have hle : p₀.candidate x.index ≤ current.length :=
            hlength ▸ p₀.candidate_mono (hdistinct.2.2 x hx current (by simp)).le
          rcases hle.eq_or_lt with heq | hlt
          · exact Or.inr (Or.inl (heq ▸ hrefuted))
          · exact Or.inr (Or.inr ⟨hflag ▸ hp', (h.pending x hx).concat _, _, hrefuted, hlt⟩)
        · rw [if_neg hp'] at hpending
          exact Or.inl ⟨x, by simp [held, hpending, hx], rfl⟩
      · exact Or.inr (Or.inl (hlength ▸ hrefuted))
      · exact Or.inl ⟨x, by simp [held, hx], rfl⟩
    · exact Or.inr (hsettled.concat _)
  · have hne : current.index ≠ x.index := by
      rcases List.mem_append.mp hx with hx | hx
      · exact (hdistinct.2.2 x (hsub x hx) current (by simp)).ne'
      · exact (hdistinct.2.1.1 x hx).ne
    rw [latest?_concat, if_neg hne]
    exact h.exhausted x (hold x hx) hexhausted
  · exact (h.waiting x (hp ▸ List.mem_cons_of_mem _ hx)).imp_right fun hpost => hpost.concat _
  · rcases refuted_concat.mp hl with hbefore | ⟨rfl, -⟩
    · obtain ⟨hcandidate, hall⟩ := h.refuted l hbefore
      refine ⟨hcandidate, fun x hx => ?_⟩
      exact (hall x (hold x hx)).imp_right fun hpost => hpost.concat _
    · refine ⟨⟨current.index, h.orderly.below current hcurrent, hlength.symm⟩, fun x hx => ?_⟩
      have hlength' := hlengths x (hold x hx)
      rcases List.mem_append.mp hx with hx | hx
      · exact Or.inr ((h.pending x (hsub x hx)).concat _)
      · rw [hlength']
        exact Or.inl (hlength.trans_le (p₀.candidate_mono (hdistinct.2.1.1 x hx).le))

theorem Tracks.close (h : Tracks p₀ trials p) (hp : p.runs = current :: rest)
    (houtcome : outcome ≠ .satisfiable) :
    Tracks p₀ (trials ++ [⟨current.index, current.length, outcome⟩])
      ({ p with runs := rest }.close current outcome) := by
  have hadv := advances_close h.orderly hp houtcome
  cases outcome with
  | satisfiable => exact absurd rfl houtcome
  | unsatisfiable =>
      rw [close_unsatisfiable] at hadv ⊢
      exact h.refute hp rfl hadv
  | unknown => exact h.postpone hp (by simp) rfl (by simp) hadv
  | outOfMemory => exact h.postpone hp (by simp) rfl (fun _ => rfl) hadv

theorem Tracks.skip (h : Tracks p₀ trials p) : Tracks p₀ trials p.skip := by
  have hadv := advances_skip h.orderly
  refine ⟨h.frame_of_advances hadv, hadv.orderly, ?_, ?_, fun x hx => ?_, fun x hx => ?_, ?_⟩
  · rw [held_skip]
    exact h.taken
  · rw [held_skip]
    exact h.exhausted
  · rcases List.mem_append.mp hx with hx | hx
    · exact h.pending x hx
    · have hsolve : x.solve = false := by
        simpa using List.all_eq_true.mp List.all_takeWhile x hx
      exact (h.waiting x ((List.takeWhile_prefix _).subset hx)).resolve_left (by simp [hsolve])
  · exact h.waiting x ((List.dropWhile_suffix _).subset hx)
  · rw [held_skip]
    exact h.refuted

/-- A fresh run gets its turn in this round. -/
theorem Tracks.open (h : Tracks p₀ trials p) (hlimit : p.candidate p.index ≤ p.limit) :
    Tracks p₀ trials { p with runs := p.runs ++ [p.freshRun], index := p.index + 1 } := by
  have hadv := advances_open h.orderly hlimit
  have hheld : { p with runs := p.runs ++ [p.freshRun], index := p.index + 1 }.held =
      p.held ++ [p.freshRun] := (List.append_assoc _ _ _).symm
  refine ⟨h.frame_of_advances hadv, hadv.orderly, fun i hi hwithin => ?_, fun x hx hflag => ?_,
    h.pending, fun x hx => ?_, fun l hl => ?_⟩
  · rw [hheld]
    rcases Nat.lt_succ_iff_lt_or_eq.mp hi with hi | rfl
    · refine (h.taken i hi hwithin).imp_left ?_
      rintro ⟨x, hx, rfl⟩
      exact ⟨x, List.mem_append_left _ hx, rfl⟩
    · exact Or.inl ⟨p.freshRun, by simp, rfl⟩
  · rw [hheld] at hx
    rcases List.mem_append.mp hx with hx | hx
    · exact h.exhausted x hx hflag
    · rw [List.mem_singleton.mp hx] at hflag
      exact absurd hflag (by simp [freshRun])
  · rcases List.mem_append.mp hx with hx | hx
    · exact h.waiting x hx
    · exact Or.inl (List.mem_singleton.mp hx ▸ rfl)
  · obtain ⟨⟨j, hj, rfl⟩, hall⟩ := h.refuted l hl
    refine ⟨⟨j, hj.trans (Nat.lt_succ_self _), rfl⟩, fun x hx => ?_⟩
    rw [hheld] at hx
    rcases List.mem_append.mp hx with hx | hx
    · exact hall x hx
    · rw [List.mem_singleton.mp hx, ← h.candidate_eq.1]
      exact Or.inl ((p.candidate_mono hj.le).trans_eq (p.lengthAt_eq p.index).symm)

theorem Tracks.extend (h : Tracks p₀ trials p) (leader : Run) (n : Nat) :
    Tracks p₀ trials (extend leader n p) ∧ p.runs <+: (Pool.extend leader n p).runs := by
  induction n generalizing p with
  | zero => exact ⟨h, List.prefix_rfl⟩
  | succ n ih =>
      unfold Pool.extend
      split
      · rename_i hopen
        have hlimit : p.candidate p.index ≤ p.limit := by
          rw [Bool.and_eq_true, decide_eq_true_eq] at hopen
          exact p.lengthAt_eq p.index ▸ hopen.2
        obtain ⟨htracks, hruns⟩ := ih (h.open hlimit)
        exact ⟨htracks, (List.prefix_append _ _).trans hruns⟩
      · exact ⟨h, List.prefix_rfl⟩

/-- All pending runs come back for another round. -/
theorem Tracks.recall (h : Tracks p₀ trials p) (hp : p.runs = [])
    (hpending : p.pending = leader :: rest) (solve : Run → Bool) :
    Tracks p₀ trials { p with
      runs := { leader with solve := true } :: rest.map fun run => { run with solve := solve run }
      pending := [] } := by
  have hheld : p.held = leader :: rest := (held_of_runs hp).trans hpending
  have hadv := advances_recall h.orderly hp hpending solve
  have hold : ∀ x ∈ { leader with solve := true } :: rest.map fun run =>
      { run with solve := solve run }, ∃ run ∈ p.held, run.place = x.place ∧
        run.exhausted = x.exhausted ∧ (x.solve ∨ Postponed trials run.index) := by
    intro x hx
    rw [hheld]
    rcases List.mem_cons.mp hx with rfl | hx
    · exact ⟨leader, by simp, rfl, rfl, Or.inl rfl⟩
    · obtain ⟨run, hrun, rfl⟩ := List.mem_map.mp hx
      have hmem : run ∈ leader :: rest := List.mem_cons_of_mem _ hrun
      exact ⟨run, hmem, rfl, rfl, Or.inr (h.pending run (hpending ▸ hmem))⟩
  refine ⟨h.frame_of_advances hadv, hadv.orderly, fun i hi hlimit => ?_, fun x hx hflag => ?_,
    fun x hx => absurd hx List.not_mem_nil, fun x hx => ?_, fun l hl => ?_⟩
  · refine (h.taken i hi hlimit).imp_left ?_
    rintro ⟨run, hrun, rfl⟩
    rw [hheld] at hrun
    rcases List.mem_cons.mp hrun with rfl | hrun
    · exact ⟨_, List.mem_cons_self, rfl⟩
    · exact ⟨_, List.mem_cons_of_mem _ (List.mem_map_of_mem hrun), rfl⟩
  · obtain ⟨run, hrun, hplace, hexhausted, -⟩ := hold x hx
    exact (Prod.mk.inj hplace).1 ▸ h.exhausted run hrun (hexhausted ▸ hflag)
  · obtain ⟨run, -, hplace, -, hturn⟩ := hold x hx
    exact (Prod.mk.inj hplace).1 ▸ hturn
  · obtain ⟨hcandidate, hall⟩ := h.refuted l hl
    refine ⟨hcandidate, fun x hx => ?_⟩
    obtain ⟨run, hrun, hplace, -⟩ := hold x hx
    obtain ⟨hindex, hlength⟩ := Prod.mk.inj hplace
    exact hindex ▸ hlength ▸ hall run hrun

/-- An empty pool that passes over an index beyond the limit is at its end. -/
theorem Tracks.pass (h : Tracks p₀ trials p) (hheld : p.held = [])
    (hbeyond : p.limit < p.candidate p.index) :
    Tracks p₀ trials { p with index := p.index + 1 } ∧
      Ended p₀ { p with index := p.index + 1 } := by
  obtain ⟨hcandidate, hlimits, -⟩ := h.candidate_eq
  rw [hcandidate, hlimits] at hbeyond
  have hadv : Advances p { p with index := p.index + 1 } :=
    ⟨⟨_, _, _, rfl⟩, Nat.le_succ _, fun run hrun => Or.inl ⟨run, hrun, rfl⟩, h.orderly.ascending,
      fun run hrun => (h.orderly.below run hrun).trans (Nat.lt_succ_self _), h.orderly.lengths⟩
  refine ⟨⟨h.frame_of_advances hadv, hadv.orderly, fun i hi hlimit => ?_, h.exhausted, h.pending,
    h.waiting, fun l hl => ?_⟩, Or.inr ⟨hheld, fun i hlimit => ?_⟩⟩
  · rcases Nat.lt_succ_iff_lt_or_eq.mp hi with hi | rfl
    · exact h.taken i hi hlimit
    · exact absurd hlimit (Nat.not_le.mpr hbeyond)
  · obtain ⟨⟨j, hj, hcandidate⟩, hall⟩ := h.refuted l hl
    exact ⟨⟨j, hj.trans (Nat.lt_succ_self _), hcandidate⟩, hall⟩
  · have hi : i < p.index := by
      by_contra hge
      exact absurd (p₀.candidate_mono (Nat.not_lt.mp hge)) (by omega)
    exact hi.trans (Nat.lt_succ_self _)

/-- An empty pool is filled with some runs, or nothing is left to try. -/
theorem Tracks.refill (h : Tracks p₀ trials p) (hp : p.runs = []) :
    Tracks p₀ trials p.refill.1 ∧
      (p.refill.2 = true → p.refill.1.runs ≠ []) ∧
        (p.refill.2 = false → p.refill.1.runs = [] ∧ Ended p₀ p.refill.1) := by
  have hheld := held_of_runs hp
  have hfilled : ∀ {run : Run} {rest : List Run} {q : Pool}, q.runs = run :: rest →
      Tracks p₀ trials q → ∀ leader, Tracks p₀ trials (extendToSize leader q) ∧
        (true = true → (extendToSize leader q).runs ≠ []) ∧
          (true = false → (extendToSize leader q).runs = [] ∧
            Ended p₀ (extendToSize leader q)) := by
    intro run rest q hq htracks leader
    obtain ⟨htracks, more, hruns⟩ := htracks.extend leader (q.size - q.runs.length)
    refine ⟨htracks, fun _ hnil => ?_, fun hfalse => absurd hfalse (by simp)⟩
    unfold extendToSize at hnil
    rw [hnil, hq] at hruns
    simp at hruns
  unfold Pool.refill
  split
  · rename_i hpending
    rw [hpending] at hheld
    dsimp only
    split
    · rename_i hbeyond
      obtain ⟨htracks, hended⟩ := h.pass hheld (p.lengthAt_eq p.index ▸ hbeyond)
      exact ⟨htracks, fun hfalse => absurd hfalse (by simp), fun _ => ⟨hp, hended⟩⟩
    · rename_i hwithin
      have hopen := h.open (p.lengthAt_eq p.index ▸ Nat.not_lt.mp hwithin)
      rw [hp, List.nil_append] at hopen
      exact hfilled rfl hopen _
  · rename_i leader rest hpending
    split
    · rename_i hall
      refine ⟨h, fun hfalse => absurd hfalse (by simp),
        fun _ => ⟨hp, Or.inl ⟨?_, fun run hrun => ?_⟩⟩⟩
      · rw [hheld, hpending]
        exact List.cons_ne_nil _ _
      · exact List.all_eq_true.mp hall run (hheld ▸ hrun)
    · exact hfilled rfl (h.recall hp hpending _) _

/-- The pool proposes its first run, or gives up. -/
theorem Tracks.propose (h : Tracks p₀ trials p) : Tracks p₀ trials p.propose.2 ∧
    p.propose.1 = p.propose.2.runs.head?.map Run.length ∧
      (p.propose.1 = none → Ended p₀ p.propose.2) := by
  unfold Pool.propose
  split
  · rename_i run rest hp
    exact ⟨h, by simp [hp], fun hnone => absurd hnone (by simp)⟩
  · rename_i hp
    obtain ⟨htracks, hsome, hnone⟩ := h.refill hp
    split
    · rename_i p' heq
      rw [heq] at htracks hsome
      refine ⟨htracks, rfl, fun hnil => absurd (by simpa using hnil) (hsome rfl)⟩
    · rename_i p' heq
      rw [heq] at htracks hnone
      obtain ⟨hruns, hended⟩ := hnone rfl
      have hempty : p'.runs = [] := hruns
      exact ⟨htracks, by simp [hempty], fun _ => hended⟩

/-- What an outcome does to a pool that trials have led to. -/
theorem Tracks.next (h : Tracks p₀ trials p) (hp : p.runs = current :: rest)
    (houtcome : outcome ≠ .satisfiable) :
    Tracks p₀ (trials ++ [⟨current.index, current.length, outcome⟩]) (p.next (some outcome)).2 ∧
      (p.next (some outcome)).1 = (p.next (some outcome)).2.runs.head?.map Run.length ∧
        ((p.next (some outcome)).1 = none → Ended p₀ (p.next (some outcome)).2) := by
  rw [next_cons hp houtcome]
  exact (h.close hp houtcome).skip.propose

end Pool

end StablePlan
