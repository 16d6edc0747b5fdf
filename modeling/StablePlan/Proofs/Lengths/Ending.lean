import StablePlan.Proofs.Lengths.Strategy

/-!
When a search in which everything is refuted comes to its end. What a strategy holds, together with
the numbers up to the limit that its candidates have not reached, gets less with every refutation. A
pool alone can keep it: fresh runs are opened whether or not they are any longer than those before,
so a pool whose candidates all stay within the limit proposes forever.
-/

namespace StablePlan

namespace LengthQueue

variable {q : LengthQueue} {current l : Nat} {rest : List Nat}

/-- The lengths in the queue and those that are still to come. -/
def left (q : LengthQueue) : Nat := q.lengths.length + (q.limit - q.last)

theorem length_take_le (growth : Growth) (limit n last : Nat) (taken : List Nat) :
    (take growth limit n last taken).1.length ≤ taken.length + n := by
  induction n generalizing last taken with
  | zero => exact (List.length_reverse).le
  | succ n ih =>
      unfold take
      dsimp only
      split
      · exact (List.length_reverse).le.trans (Nat.le_add_right _ _)
      · have htail := ih (growth.grow last) (growth.grow last :: taken)
        rw [List.length_cons] at htail
        omega

theorem left_fill_le (hstart : q.start ≤ maxLength) (hsize : 1 ≤ q.size) :
    q.fill.left ≤ (q.limit + 1 - q.start) + q.size := by
  obtain ⟨k, hlast, -⟩ := (begun_fill hstart).taken
  have hfirst : q.start ≤ q.candidate k := candidate_mono hstart (Nat.zero_le k)
  have hlength : q.fill.lengths.length ≤ q.size := by
    have hfill := q.fill_eq
    split at hfill
    · rw [(Prod.mk.inj hfill).1]
      exact Nat.zero_le _
    · have htake := length_take_le q.growth q.limit (q.size - 1) q.start [q.start]
      rw [← hfill, List.length_singleton, Nat.add_sub_cancel' hsize] at htake
      exact htake
  have hlimit : q.fill.limit = q.limit := rfl
  unfold left
  omega

theorem left_advance_le (q : LengthQueue) : q.advance.left ≤ q.left := by
  unfold advance
  dsimp only
  split
  · unfold left
    rw [List.length_append, List.length_singleton]
    dsimp only
    omega
  · exact le_rfl

theorem left_next_lt (hq : q.lengths = current :: rest) :
    (q.next (some .unsatisfiable)).2.left < q.left := by
  rw [next_unsatisfiable hq]
  refine (left_advance_le _).trans_lt ?_
  have hsub := dropShorter_sublist
    { q with lengths := rest, exhausted := q.exhausted.filter (· != current) } current
  rw [dropShorter_eq] at hsub ⊢
  have hrest := hsub.length_le
  unfold left
  rw [hq, List.length_cons]
  dsimp only at hrest ⊢
  omega

end LengthQueue

namespace Pool

variable {p : Pool} {leader current : Run} {rest : List Run} {i : Nat}

/-- The runs that are held and the lengths up to the limit from the next one on. -/
def left (p : Pool) : Nat := p.held.length + (p.limit + 1 - p.candidate p.index)

/-- If candidates get beyond the limit at all, those within it ascend. -/
def Leaves (p : Pool) : Prop := ∃ i, p.limit < p.candidate i

theorem candidate_lt_succ (h : p.Leaves) (hi : p.candidate i ≤ p.limit) :
    p.candidate i < p.candidate (i + 1) := by
  obtain ⟨j, hj⟩ := h
  rcases Nat.eq_zero_or_pos p.step with hzero | hpos
  · unfold candidate at hi hj
    rw [hzero, Nat.zero_mul] at hi hj
    exact absurd hj (Nat.not_lt.mpr hi)
  · have hsucc := Nat.mul_add_one p.step i
    unfold candidate at hi hj ⊢
    omega

/-- A fresh run takes the place of at least one length that was to come. -/
theorem left_open_le (h : p.Leaves) (hlimit : p.candidate p.index ≤ p.limit) :
    { p with runs := p.runs ++ [p.freshRun], index := p.index + 1 }.left ≤ p.left := by
  have hlt := candidate_lt_succ h hlimit
  have hheld : { p with runs := p.runs ++ [p.freshRun], index := p.index + 1 }.held.length =
      p.held.length + 1 := by
    simp [held, Nat.add_assoc]
  unfold left
  rw [hheld]
  change _ + (p.limit + 1 - p.candidate (p.index + 1)) ≤ _
  omega

theorem left_extend_le (h : p.Leaves) (leader : Run) (n : Nat) :
    (extend leader n p).left ≤ p.left := by
  induction n generalizing p with
  | zero => exact le_rfl
  | succ n ih =>
      unfold extend
      split
      · rename_i hopen
        rw [Bool.and_eq_true, decide_eq_true_eq] at hopen
        have hlimit : p.candidate p.index ≤ p.limit := p.lengthAt_eq p.index ▸ hopen.2
        exact (ih (p := { p with runs := p.runs ++ [p.freshRun], index := p.index + 1 }) h).trans
          (left_open_le h hlimit)
      · exact le_rfl

theorem left_refill_le (h : p.Leaves) (hp : p.runs = []) : p.refill.1.left ≤ p.left := by
  unfold refill
  split
  · dsimp only
    split
    · have hmono : p.candidate p.index ≤ p.candidate (p.index + 1) :=
        p.candidate_mono (Nat.le_succ _)
      unfold left
      change p.held.length + (p.limit + 1 - p.candidate (p.index + 1)) ≤ _
      omega
    · rename_i hwithin
      have hopen := left_open_le h (p.lengthAt_eq p.index ▸ Nat.not_lt.mp hwithin)
      rw [hp, List.nil_append] at hopen
      refine le_trans ?_ hopen
      exact left_extend_le (p := { p with runs := [p.freshRun], index := p.index + 1 }) h _ _
  · rename_i leader rest hpending
    split
    · exact le_rfl
    · refine (left_extend_le (p := { p with
        runs := _, pending := [] }) h _ _).trans (le_of_eq ?_)
      unfold left
      simp [held, hp, hpending]
      rfl

theorem left_propose_le (h : p.Leaves) : p.propose.2.left ≤ p.left := by
  unfold propose
  split
  · exact le_rfl
  · rename_i hp
    have hrefill := left_refill_le h hp
    split <;> rename_i heq <;> rw [heq] at hrefill <;> exact hrefill

theorem left_close_lt (hp : p.runs = current :: rest) :
    ({ p with runs := rest }.close current .unsatisfiable).left < p.left := by
  rw [close_unsatisfiable]
  have hheld : p.held.length = p.pending.length + (rest.length + 1) := by
    simp [held, hp]
  have hpending : (if p.propagateUnsat then [] else p.pending).length ≤ p.pending.length := by
    split <;> simp
  unfold left
  rw [hheld]
  simp only [held, List.length_append]
  change _ + (p.limit + 1 - p.candidate p.index) < _
  omega

theorem left_next_lt (h : p.Leaves) (hp : p.runs = current :: rest) :
    (p.next (some .unsatisfiable)).2.left < p.left := by
  have hclose := left_close_lt hp
  rw [next_cons hp (by simp)]
  rw [close_unsatisfiable] at hclose ⊢
  refine (left_propose_le ?_).trans_lt ?_
  · exact h
  · unfold left
    rw [held_skip]
    exact hclose

theorem left_make_propose_le (start step limit size : Nat) (propagateUnsat : Bool)
    (policy : Policy) (h : (make start step limit size propagateUnsat policy).Leaves) :
    (make start step limit size propagateUnsat policy).propose.2.left ≤ limit + 1 - start := by
  refine (left_propose_le h).trans ?_
  obtain ⟨i, hi⟩ := h
  unfold left
  simp only [make, held, candidate] at hi ⊢
  simp
  omega

end Pool

namespace Strategy

variable {s : Strategy} {d : Dialogue} {outcomes : List Outcome}

def start : Strategy → Nat
  | .queue q => q.start
  | .pool p => p.start

/-- How many lengths are dealt with in turn, and at least one. -/
def size : Strategy → Nat
  | .queue q => q.size
  | .pool p => p.size

/-- Only a pool may fail to get beyond the limit. -/
def Stalls : Strategy → Prop
  | .queue _ => False
  | .pool p => ∀ i, p.candidate i ≤ p.limit

def left : Strategy → Nat
  | .queue q => q.left
  | .pool p => p.left

theorem Fresh.left_le (h : s.Fresh) (hstalls : ¬s.Stalls) :
    (Dialogue.start s).strategy.left ≤ (s.limit + 1 - s.start) + s.size := by
  cases h with
  | @queue start size limit growth propagateUnsat hle =>
      exact LengthQueue.left_fill_le (q := .make start size growth limit propagateUnsat) hle
        (le_max_right _ _)
  | @pool start step limit size propagateUnsat policy =>
      have hleaves : (Pool.make start step limit size propagateUnsat policy).Leaves := by
        simpa [Stalls, Pool.Leaves] using hstalls
      exact (Pool.left_make_propose_le _ _ _ _ _ _ hleaves).trans (Nat.le_add_right _ _)

/-- With every refutation less is left. -/
theorem Tracks.left_tell_lt (h : s.Tracks d) (hstalls : ¬s.Stalls) (hproposal : d.proposal ≠ none) :
    (d.tell .unsatisfiable).strategy.left < d.strategy.left := by
  cases h with
  | @queue q₀ q proposal trials hstart htracks hended hproposes =>
      obtain ⟨length, hlength⟩ := Option.ne_none_iff_exists'.mp hproposal
      have hhead : proposal = q.lengths.head? := hproposes.resolve_right fun h => hproposal h.1
      obtain ⟨rest, hq⟩ := List.head?_eq_some_iff.mp (hhead.symm.trans hlength)
      exact LengthQueue.left_next_lt hq
  | @pool p₀ p proposal trials htracks hhead hended =>
      obtain ⟨length, hlength⟩ := Option.ne_none_iff_exists'.mp hproposal
      obtain ⟨current, hcurrent, -⟩ := Option.map_eq_some_iff.mp (hhead ▸ hlength)
      obtain ⟨rest, hp⟩ := List.head?_eq_some_iff.mp hcurrent
      refine Pool.left_next_lt ?_ hp
      obtain ⟨hcandidate, hlimit, -⟩ := htracks.candidate_eq
      simpa [Stalls, Pool.Leaves, hcandidate, hlimit] using hstalls

/-- A talk goes on as long as there are proposals, or it ends by the time nothing is left. -/
theorem Tracks.exists_end (h : s.Tracks (s.after outcomes)) (hstalls : ¬s.Stalls)
    (hanswered : s.Answered outcomes) :
    ∃ n ≤ (s.after outcomes).strategy.left,
      s.Answered (outcomes ++ .replicate n .unsatisfiable) ∧
        (s.after (outcomes ++ .replicate n .unsatisfiable)).proposal = none := by
  induction hleft : (s.after outcomes).strategy.left using Nat.strong_induction_on
    generalizing outcomes with
  | _ k ih =>
      by_cases hproposal : (s.after outcomes).proposal = none
      · exact ⟨0, Nat.zero_le _, by simpa using hanswered, by simpa using hproposal⟩
      · have hrefuted : Outcome.unsatisfiable ≠ .satisfiable := by simp
        have htell := h.tell hproposal hrefuted
        have hlt := h.left_tell_lt hstalls hproposal
        rw [← after_concat] at htell hlt
        obtain ⟨n, hn, hanswered', hnone⟩ :=
          ih _ (hleft ▸ hlt) htell (hanswered.snoc hproposal _) rfl
        rw [List.append_assoc, List.singleton_append, ← List.replicate_succ] at hanswered' hnone
        exact ⟨n + 1, by omega, hanswered', hnone⟩

/-- A pool that stalls opens a fresh run whenever all that it held is refuted. -/
theorem Tracks.proposal_ne_none (h : s.Tracks d) (hstalls : s.Stalls)
    (hall : ∀ t ∈ d.trials, t.outcome = .unsatisfiable) : d.proposal ≠ none := by
  intro hnone
  cases h with
  | queue => exact hstalls
  | @pool p₀ p proposal trials htracks hhead hended =>
      rcases hended hnone with ⟨hne, hexhausted⟩ | ⟨-, hbelow⟩
      · obtain ⟨run, hrun⟩ := List.exists_mem_of_ne_nil _ hne
        obtain ⟨t, ht, -, houtcome⟩ :=
          exists_trial_of_latest? (htracks.exhausted run hrun (hexhausted run hrun))
        exact absurd ((hall t ht).symm.trans houtcome) (by simp)
      · exact absurd (hbelow p.index (hstalls _)) (lt_irrefl _)

theorem Fresh.tracks_refuted (h : s.Fresh) (hstalls : s.Stalls) (n : Nat) :
    s.Tracks (s.after (.replicate n .unsatisfiable)) ∧
      ∀ t ∈ (s.after (.replicate n .unsatisfiable)).trials, t.outcome = .unsatisfiable := by
  induction n with
  | zero => exact ⟨h.tracks, by simp [after, Dialogue.start]⟩
  | succ n ih =>
      obtain ⟨htracks, hall⟩ := ih
      have hproposal := htracks.proposal_ne_none hstalls hall
      obtain ⟨length, hlength⟩ := Option.ne_none_iff_exists'.mp hproposal
      obtain ⟨key, htrials⟩ := htracks.exists_trial hlength .unsatisfiable
      rw [List.replicate_succ', after_concat]
      refine ⟨htracks.tell hproposal (by simp), fun t ht => ?_⟩
      rw [htrials, List.mem_append, List.mem_singleton] at ht
      rcases ht with ht | rfl
      · exact hall t ht
      · rfl

/-- If every proposal is refuted, a strategy ends after as many proposals as there are lengths from
the start to the limit and lengths dealt with in turn, unless it is a pool all of whose candidates
are within the limit. That one never ends. -/
theorem ends_when_refuted (h : s.Fresh) :
    (¬s.Stalls → ∃ n ≤ (s.limit + 1 - s.start) + s.size,
      s.Answered (.replicate n .unsatisfiable) ∧
        (s.after (.replicate n .unsatisfiable)).proposal = none) ∧
      (s.Stalls → ∀ n, (s.after (.replicate n .unsatisfiable)).proposal ≠ none) := by
  refine ⟨fun hstalls => ?_, fun hstalls n => ?_⟩
  · obtain ⟨n, hn, hend⟩ :
        ∃ n ≤ (s.after []).strategy.left, s.Answered ([] ++ .replicate n .unsatisfiable) ∧
          (s.after ([] ++ .replicate n .unsatisfiable)).proposal = none :=
      Tracks.exists_end h.tracks hstalls (answered_nil s)
    exact ⟨n, hn.trans (h.left_le hstalls), hend⟩
  · obtain ⟨htracks, hall⟩ := h.tracks_refuted hstalls n
    exact htracks.proposal_ne_none hstalls hall

/-- A pool whose lengths do not grow. -/
def flatPool : Strategy := .pool (.make 0 0 0 1 true (.decay 0.9))

theorem stalls_flatPool : flatPool.Stalls := fun i => by simp [Pool.candidate, Pool.make]

/-- The queue of two lengths ends within thirteen proposals. The flat pool does not end, even though
there is no length but one. -/
theorem ends_when_refuted_pairQueue :
    (∃ n ≤ 13, pairQueue.Answered (.replicate n .unsatisfiable) ∧
        (pairQueue.after (.replicate n .unsatisfiable)).proposal = none) ∧
      ∀ n, (flatPool.after (.replicate n .unsatisfiable)).proposal ≠ none :=
  ⟨(ends_when_refuted (s := pairQueue) (.queue (by decide))).1 id,
    (ends_when_refuted (s := flatPool) .pool).2 stalls_flatPool⟩

/-- One length and room for one run make two proposals, but there is a third one. -/
theorem not_ends_when_refuted_flatPool :
    (flatPool.limit + 1 - flatPool.start) + flatPool.size = 2 ∧
      ∀ n ≤ 2, (flatPool.after (.replicate n .unsatisfiable)).proposal = some 0 := by
  decide

end Strategy

end StablePlan
