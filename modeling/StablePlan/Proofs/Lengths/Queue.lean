import StablePlan.Proofs.Lengths.Dialogue

/-!
A queue of lengths. It never holds a length beyond the last one it took, whatever it takes later is
longer, and every candidate that it took is still there, refuted, or shorter than a refuted one.
-/

namespace StablePlan

namespace Growth

variable {g : Growth} {l : Nat}

theorem grow_le_maxLength (g : Growth) (l : Nat) : g.grow l ≤ maxLength := by
  cases g with
  | linear step => exact min_le_right _ _
  | geometric ratio =>
      refine max_le ?_ (min_le_right _ _)
      unfold scale
      dsimp only
      split
      · exact le_rfl
      · exact Nat.le_pred_of_lt (UInt32.toNat_lt _)

theorem le_grow (h : l ≤ maxLength) : l ≤ g.grow l := by
  cases g with
  | linear step => exact le_min (Nat.le_add_right _ _) h
  | geometric ratio =>
      exact (le_min (Nat.le_add_right _ _) h).trans (le_max_right _ _)

end Growth

namespace LengthQueue

variable {q q' q₀ : LengthQueue} {l last current k : Nat} {lengths rest : List Nat}
  {outcome : Outcome} {trials : List Trial}

/-! ### Candidates -/

theorem candidate_succ (q : LengthQueue) (i : Nat) :
    q.candidate (i + 1) = q.growth.grow (q.candidate i) := Function.iterate_succ_apply' _ _ _

theorem candidate_le_maxLength (h : q.start ≤ maxLength) (i : Nat) :
    q.candidate i ≤ maxLength := by
  cases i with
  | zero => exact h
  | succ i => exact q.candidate_succ i ▸ Growth.grow_le_maxLength _ _

theorem candidate_mono (h : q.start ≤ maxLength) : Monotone q.candidate :=
  monotone_nat_of_le_succ fun i =>
    q.candidate_succ i ▸ Growth.le_grow (candidate_le_maxLength h i)

/-! ### Lengths that come and go -/

/-- No length is beyond the last one that was taken, nor beyond the limit. -/
def Bounded (q : LengthQueue) : Prop := ∀ l ∈ q.lengths, l ≤ q.last ∧ l ≤ q.limit

/-- Whatever is new is beyond the last length that was taken before. -/
structure Advances (q q' : LengthQueue) : Prop where
  frame : ∃ lengths last exhausted, q' = { q with lengths, last, exhausted }
  last : q.last ≤ q'.last
  held : ∀ l ∈ q'.lengths, l ∈ q.lengths ∨ q.last < l
  bounded : q'.Bounded
  nodup : q.lengths.Nodup → q'.lengths.Nodup

theorem Advances.refl (h : q.Bounded) : Advances q q :=
  ⟨⟨_, _, _, rfl⟩, le_rfl, fun _ => Or.inl, h, id⟩

theorem Advances.trans {q'' : LengthQueue} (h : Advances q q') (h' : Advances q' q'') :
    Advances q q'' := by
  refine ⟨?_, h.last.trans h'.last, fun l hl => ?_, h'.bounded, h'.nodup ∘ h.nodup⟩
  · obtain ⟨_, _, _, rfl⟩ := h.frame
    obtain ⟨_, _, _, rfl⟩ := h'.frame
    exact ⟨_, _, _, rfl⟩
  · rcases h'.held l hl with hl | hl
    · exact h.held l hl
    · exact Or.inr (h.last.trans_lt hl)

theorem Advances.of_subset (h : q.Bounded) {exhausted : List Nat} (hsub : lengths ⊆ q.lengths)
    (hnodup : q.lengths.Nodup → lengths.Nodup) :
    Advances q { q with lengths, exhausted } :=
  ⟨⟨_, _, _, rfl⟩, le_rfl, fun _ hl => Or.inl (hsub hl), fun l hl => h l (hsub hl), hnodup⟩

theorem advances_advance (h : q.Bounded) : Advances q q.advance := by
  unfold advance
  dsimp only
  split
  · rename_i hnext
    refine ⟨⟨_, _, _, rfl⟩, hnext.2.le, fun l hl => ?_, fun l hl => ?_, fun hnodup => ?_⟩
    · rcases List.mem_append.mp hl with hl | hl
      · exact Or.inl hl
      · exact Or.inr (List.mem_singleton.mp hl ▸ hnext.2)
    · rcases List.mem_append.mp hl with hl | hl
      · exact ⟨(h l hl).1.trans hnext.2.le, (h l hl).2⟩
      · rw [List.mem_singleton.mp hl]
        exact ⟨le_rfl, hnext.1⟩
    · refine List.nodup_append.mpr ⟨hnodup, List.pairwise_singleton _ _, fun x hx y hy heq => ?_⟩
      rw [List.mem_singleton.mp hy] at heq
      exact absurd (h x hx).1 (by omega)
  · exact .refl h

theorem dropShorter_eq (q : LengthQueue) (l : Nat) : q.dropShorter l =
    { q with lengths := if q.propagateUnsat then q.lengths.filter (l ≤ ·) else q.lengths } := by
  unfold dropShorter
  split <;> rfl

theorem dropShorter_sublist (q : LengthQueue) (l : Nat) :
    (q.dropShorter l).lengths.Sublist q.lengths := by
  rw [dropShorter_eq]
  dsimp only
  split
  · exact List.filter_sublist
  · exact .refl _

theorem next_nil (h : q.lengths = []) (outcome : Outcome) : q.next (some outcome) = (none, q) := by
  unfold next
  rw [h]

/-- What is left when a length is refuted. -/
theorem next_unsatisfiable (h : q.lengths = current :: rest) :
    (q.next (some .unsatisfiable)).2 =
      ({ q with lengths := rest, exhausted := q.exhausted.filter (· != current) }.dropShorter
        current).advance := by
  unfold next
  rw [h]

theorem next_unknown (h : q.lengths = current :: rest) : (q.next (some .unknown)).2 =
    { q with lengths := rest ++ [current], exhausted := q.exhausted.filter (· != current) } := by
  unfold next
  rw [h]

theorem next_outOfMemory (h : q.lengths = current :: rest) : (q.next (some .outOfMemory)).2 =
    { q with lengths := rest ++ [current], exhausted := current :: q.exhausted } := by
  unfold next
  rw [h]

theorem next_satisfiable (q : LengthQueue) : q.next (some .satisfiable) = (none, q) := by
  cases hq : q.lengths with
  | nil => exact next_nil hq _
  | cons current rest =>
      unfold next
      rw [hq]

theorem advances_dropShorter (h : q.Bounded) (hq : q.lengths = current :: rest) (l : Nat)
    (exhausted : List Nat) :
    Advances q ({ q with lengths := rest, exhausted }.dropShorter l) := by
  have hsub := (dropShorter_sublist { q with lengths := rest, exhausted } l).trans
    (hq ▸ List.sublist_cons_self current rest)
  rw [dropShorter_eq] at hsub ⊢
  exact .of_subset h hsub.subset fun hnodup => hnodup.sublist hsub

theorem advances_next (h : q.Bounded) (outcome : Outcome) :
    Advances q (q.next (some outcome)).2 := by
  cases hq : q.lengths with
  | nil =>
      rw [next_nil hq]
      exact .refl h
  | cons current rest =>
      have hrotate : (rest ++ [current]).Perm q.lengths :=
        hq ▸ List.perm_append_singleton current rest
      cases outcome with
      | satisfiable =>
          rw [next_satisfiable]
          exact .refl h
      | unsatisfiable =>
          rw [next_unsatisfiable hq]
          have hdrop := advances_dropShorter h hq current (q.exhausted.filter (· != current))
          exact hdrop.trans (advances_advance hdrop.bounded)
      | unknown =>
          rw [next_unknown hq]
          exact .of_subset h hrotate.subset hrotate.nodup_iff.mpr
      | outOfMemory =>
          rw [next_outOfMemory hq]
          exact .of_subset h hrotate.subset hrotate.nodup_iff.mpr

/-- Nothing shorter is left if that is propagated, and the length itself is left only if it was
there twice. -/
theorem not_mem_of_unsatisfiable (h : q.Bounded) (hq : q.lengths = current :: rest)
    (hl : l ∈ (q.next (some .unsatisfiable)).2.lengths) :
    (q.propagateUnsat → current ≤ l) ∧ (q.lengths.Nodup → l ≠ current) := by
  rw [next_unsatisfiable hq] at hl
  have hdrop := advances_dropShorter h hq current (q.exhausted.filter (· != current))
  have hcurrent : current ≤ q.last := (h current (hq ▸ List.mem_cons_self)).1
  rcases (advances_advance hdrop.bounded).held l hl with hl | hl
  · unfold dropShorter at hl
    refine ⟨fun hp => ?_, fun hnodup => ?_⟩
    · rw [if_pos hp] at hl
      simpa using (List.mem_filter.mp hl).2
    · have hrest : l ∈ rest := by
        split at hl
        · exact (List.mem_filter.mp hl).1
        · exact hl
      rintro rfl
      rw [hq, List.nodup_cons] at hnodup
      exact hnodup.1 hrest
  · have hlt := hdrop.last.trans_lt hl
    exact ⟨fun _ => (hcurrent.trans_lt hlt).le, fun _ => (hcurrent.trans_lt hlt).ne'⟩

/-! ### The first lengths -/

/-- The lengths that a queue has when it took the candidates up to some number. -/
structure Begun (q : LengthQueue) (lengths : List Nat) (last : Nat) : Prop where
  taken : ∃ k, last = q.candidate k ∧ ∀ i ≤ k, q.candidate i ≤ q.limit → q.candidate i ∈ lengths
  candidates : ∀ l ∈ lengths, l ≤ last ∧ l ≤ q.limit ∧ ∃ i, q.candidate i = l
  sorted : lengths.Pairwise (· ≤ ·)
  distinct : (∀ i, q.candidate (i + 1) ≤ q.limit → q.candidate i < q.candidate (i + 1)) →
    lengths.Nodup

theorem begun_take (hstart : q.start ≤ maxLength) (n : Nat) {taken : List Nat}
    (h : Begun q taken.reverse last) :
    Begun q (take q.growth q.limit n last taken).1 (take q.growth q.limit n last taken).2 := by
  induction n generalizing last taken with
  | zero => exact h
  | succ n ih =>
      obtain ⟨k, rfl, htaken⟩ := h.taken
      have hle : q.candidate k ≤ q.candidate (k + 1) := candidate_mono hstart (Nat.le_succ k)
      unfold take
      rw [← candidate_succ]
      dsimp only
      split
      · rename_i hbeyond
        refine ⟨⟨k + 1, rfl, fun i hi hlimit => ?_⟩, fun l hl => ?_, h.sorted, h.distinct⟩
        · rcases Nat.le_succ_iff.mp hi with hi | rfl
          · exact htaken i hi hlimit
          · exact absurd hlimit (Nat.not_le.mpr hbeyond)
        · obtain ⟨hlast, hrest⟩ := h.candidates l hl
          exact ⟨hlast.trans hle, hrest⟩
      · rename_i hwithin
        apply ih
        rw [List.reverse_cons]
        refine ⟨⟨k + 1, rfl, fun i hi hlimit => ?_⟩, fun l hl => ?_, ?_, fun hstrict => ?_⟩
        · rcases Nat.le_succ_iff.mp hi with hi | rfl
          · exact List.mem_append_left _ (htaken i hi hlimit)
          · simp
        · rcases List.mem_append.mp hl with hl | hl
          · obtain ⟨hlast, hrest⟩ := h.candidates l hl
            exact ⟨hlast.trans hle, hrest⟩
          · rw [List.mem_singleton.mp hl]
            exact ⟨le_rfl, by omega, k + 1, rfl⟩
        · refine List.pairwise_append.mpr ⟨h.sorted, List.pairwise_singleton _ _, ?_⟩
          intro x hx y hy
          rw [List.mem_singleton.mp hy]
          exact (h.candidates x hx).1.trans hle
        · have hlt := hstrict k (by omega)
          refine List.nodup_append.mpr ⟨h.distinct hstrict, List.pairwise_singleton _ _, ?_⟩
          intro x hx y hy heq
          rw [List.mem_singleton.mp hy] at heq
          have := (h.candidates x hx).1
          omega

theorem fill_eq (q : LengthQueue) : (q.fill.lengths, q.fill.last) =
    if q.limit < q.start then ([], q.start)
    else take q.growth q.limit (q.size - 1) q.start [q.start] := rfl

theorem begun_fill (hstart : q.start ≤ maxLength) : Begun q q.fill.lengths q.fill.last := by
  have hfill := q.fill_eq
  split at hfill
  · rename_i hbeyond
    obtain ⟨hlengths, hlast⟩ := Prod.mk.inj hfill
    rw [hlengths, hlast]
    refine ⟨⟨0, rfl, fun i hi hlimit => ?_⟩, by simp, .nil, fun _ => .nil⟩
    obtain rfl := Nat.le_zero.mp hi
    exact absurd hlimit (by simpa [candidate] using hbeyond)
  · rename_i hwithin
    obtain ⟨hlengths, hlast⟩ := Prod.mk.inj hfill
    rw [hlengths, hlast]
    apply begun_take hstart
    refine ⟨⟨0, rfl, fun i hi _ => ?_⟩, fun l hl => ?_, by simp, by simp⟩
    · obtain rfl := Nat.le_zero.mp hi
      simp [candidate]
    · simp only [List.reverse_singleton, List.mem_singleton] at hl
      subst hl
      exact ⟨le_rfl, by omega, 0, rfl⟩

/-! ### What becomes of the candidates -/

/-- The length is refuted, or it was dropped for being shorter than a refuted one. -/
def Settled (q : LengthQueue) (trials : List Trial) (l : Nat) : Prop :=
  Refuted trials l ∨
    q.propagateUnsat ∧ Postponed trials l ∧ ∃ l', Refuted trials l' ∧ l < l'

theorem Settled.concat (h : q.Settled trials l) (t : Trial) : q.Settled (trials ++ [t]) l := by
  rcases h with h | ⟨hp, hpost, l', h, hlt⟩
  · exact Or.inl (h.concat t)
  · exact Or.inr ⟨hp, hpost.concat t, l', h.concat t, hlt⟩

/-- A queue that trials have led to. A length stands before a shorter one only if that was put
back, and so for a length that was refuted. -/
structure Tracks (q₀ : LengthQueue) (trials : List Trial) (q : LengthQueue) : Prop where
  frame : ∃ lengths last exhausted, q = { q₀ with lengths, last, exhausted }
  taken : ∃ k, q.last = q₀.candidate k ∧ ∀ i ≤ k, q₀.candidate i ≤ q₀.limit →
    q₀.candidate i ∈ q.lengths ∨ q₀.Settled trials (q₀.candidate i)
  candidates : ∀ l ∈ q.lengths, l ≤ q.last ∧ l ≤ q₀.limit ∧ ∃ i, q₀.candidate i = l
  order : q.lengths.Pairwise fun x y => x ≤ y ∨ Postponed trials y
  exhausted : ∀ l ∈ q.exhausted, latest? trials l = some .outOfMemory
  refuted : ∀ l', Refuted trials l' → l' ≤ q.last ∧ ∀ l ∈ q.lengths, l' ≤ l ∨ Postponed trials l

/-- An empty queue took all candidates within the limit. -/
def Ended (q₀ q : LengthQueue) : Prop :=
  q.lengths = [] → ∀ i, q₀.candidate i ≤ q₀.limit → q₀.candidate i ≤ q.last

theorem tracks_fill (hstart : q.start ≤ maxLength) : Tracks q [] q.fill ∧ Ended q q.fill := by
  have h := begun_fill hstart
  obtain ⟨k, hlast, htaken⟩ := h.taken
  refine ⟨⟨⟨_, _, _, rfl⟩, ⟨k, hlast, fun i hi hlimit => Or.inl (htaken i hi hlimit)⟩,
    h.candidates, h.sorted.imp fun hle => Or.inl hle, by simp [fill],
    fun _ hrefuted => absurd hrefuted not_refuted_nil⟩, fun hnil i hlimit => ?_⟩
  have hfirst := candidate_mono hstart (Nat.zero_le i)
  have hmem := htaken 0 (Nat.zero_le k) (hfirst.trans hlimit)
  rw [hnil] at hmem
  exact absurd hmem List.not_mem_nil

/-- Lengths that are not beyond the last one were taken. -/
theorem Tracks.taken_of_le (h : Tracks q₀ trials q) (hstart : q₀.start ≤ maxLength) {i : Nat}
    (hlast : q₀.candidate i ≤ q.last) (hlimit : q₀.candidate i ≤ q₀.limit) :
    q₀.candidate i ∈ q.lengths ∨ q₀.Settled trials (q₀.candidate i) := by
  obtain ⟨k, heq, htaken⟩ := h.taken
  rcases le_total i k with hi | hi
  · exact htaken i hi hlimit
  · have hsame : q₀.candidate i = q₀.candidate k :=
      (heq ▸ hlast).antisymm (candidate_mono hstart hi)
    rw [hsame] at hlimit ⊢
    exact htaken k le_rfl hlimit

/-- A length goes to the end of the queue. -/
theorem Tracks.rotate (h : Tracks q₀ trials q) (hq : q.lengths = current :: rest)
    (houtcome : outcome ≠ .unsatisfiable) {exhausted : List Nat}
    (hexhausted : ∀ l ∈ exhausted,
      latest? (trials ++ [⟨current, current, outcome⟩]) l = some .outOfMemory) :
    Tracks q₀ (trials ++ [⟨current, current, outcome⟩])
      { q with lengths := rest ++ [current], exhausted } := by
  have hperm : (rest ++ [current]).Perm q.lengths := hq ▸ List.perm_append_singleton current rest
  have hpost : Postponed (trials ++ [⟨current, current, outcome⟩]) current :=
    ⟨⟨current, current, outcome⟩, by simp, rfl, houtcome⟩
  obtain ⟨lengths, last, exhausted', rfl⟩ := h.frame
  obtain ⟨k, hlast, htaken⟩ := h.taken
  refine ⟨⟨_, _, _, rfl⟩, ⟨k, hlast, fun i hi hlimit => ?_⟩, fun l hl => ?_, ?_, hexhausted,
    fun l' hl' => ?_⟩
  · rcases htaken i hi hlimit with hmem | hsettled
    · exact Or.inl (hperm.mem_iff.mpr hmem)
    · exact Or.inr (hsettled.concat _)
  · exact h.candidates l (hperm.mem_iff.mp hl)
  · have horder := h.order
    rw [hq, List.pairwise_cons] at horder
    refine List.pairwise_append.mpr ⟨horder.2.imp ?_, List.pairwise_singleton _ _, ?_⟩
    · exact fun hxy => hxy.imp_right fun hpost => hpost.concat _
    · intro x _ y hy
      rw [List.mem_singleton.mp hy]
      exact Or.inr hpost
  · have hold := (refuted_concat.mp hl').resolve_right fun hnew => houtcome hnew.2
    obtain ⟨hlast, hall⟩ := h.refuted l' hold
    refine ⟨hlast, fun l hl => ?_⟩
    exact (hall l (hperm.mem_iff.mp hl)).imp_right fun hpost => hpost.concat _

/-- The current length leaves the queue, and with it what is shorter if that is propagated. -/
theorem Tracks.refute (h : Tracks q₀ trials q) (hq : q.lengths = current :: rest) :
    Tracks q₀ (trials ++ [⟨current, current, .unsatisfiable⟩])
      ({ q with lengths := rest, exhausted := q.exhausted.filter (· != current) }.dropShorter
        current) := by
  have hrefuted : Refuted (trials ++ [⟨current, current, .unsatisfiable⟩]) current :=
    ⟨⟨current, current, .unsatisfiable⟩, by simp, rfl, rfl⟩
  have horder := h.order
  rw [hq, List.pairwise_cons] at horder
  have hsub := dropShorter_sublist
    { q with lengths := rest, exhausted := q.exhausted.filter (· != current) } current
  rw [dropShorter_eq] at hsub ⊢
  obtain ⟨k, hlast, htaken⟩ := h.taken
  refine ⟨?_, ⟨k, hlast, fun i hi hlimit => ?_⟩, fun l hl => ?_, ?_, fun l hl => ?_,
    fun l' hl' => ?_⟩
  · obtain ⟨lengths, last, exhausted, rfl⟩ := h.frame
    exact ⟨_, _, _, rfl⟩
  · rcases htaken i hi hlimit with hheld | hsettled
    · rw [hq, List.mem_cons] at hheld
      rcases hheld with heq | hrest
      · exact Or.inr (Or.inl (heq ▸ hrefuted))
      · obtain ⟨lengths, last, exhausted, rfl⟩ := h.frame
        dsimp only
        split
        · -- What is dropped stood behind a longer length, so it had been put back.
          rename_i hp
          by_cases hle : current ≤ q₀.candidate i
          · exact Or.inl (List.mem_filter.mpr ⟨hrest, by simpa using hle⟩)
          · have hpost := (horder.1 _ hrest).resolve_left hle
            exact Or.inr (Or.inr ⟨hp, hpost.concat _, current, hrefuted, Nat.not_le.mp hle⟩)
        · exact Or.inl hrest
    · exact Or.inr (hsettled.concat _)
  · exact h.candidates l (hq ▸ List.mem_cons_of_mem _ (hsub.subset hl))
  · exact (horder.2.sublist hsub).imp fun hxy => hxy.imp_right fun hpost => hpost.concat _
  · obtain ⟨hold, hne⟩ := List.mem_filter.mp hl
    rw [latest?_concat, if_neg (Ne.symm (by simpa using hne))]
    exact h.exhausted l hold
  · rcases refuted_concat.mp hl' with hold | ⟨rfl, -⟩
    · obtain ⟨hlast, hall⟩ := h.refuted l' hold
      refine ⟨hlast, fun l hl => ?_⟩
      exact (hall l (hq ▸ List.mem_cons_of_mem _ (hsub.subset hl))).imp_right
        fun hpost => hpost.concat _
    · refine ⟨(h.candidates current (hq ▸ List.mem_cons_self)).1, fun l hl => ?_⟩
      exact (horder.1 l (hsub.subset hl)).imp_right fun hpost => hpost.concat _

theorem Tracks.advance (h : Tracks q₀ trials q) (hstart : q₀.start ≤ maxLength) :
    Tracks q₀ trials q.advance ∧ Ended q₀ q.advance := by
  obtain ⟨lengths, last, exhausted, rfl⟩ := h.frame
  obtain ⟨k, hlast, htaken⟩ := h.taken
  obtain rfl : last = q₀.candidate k := hlast
  have hmono := candidate_mono hstart
  have hsucc := q₀.candidate_succ k
  unfold LengthQueue.advance
  dsimp only
  rw [← hsucc]
  split
  · rename_i hnext
    refine ⟨⟨⟨_, _, _, rfl⟩, ⟨k + 1, rfl, fun i hi hlimit => ?_⟩, fun l hl => ?_, ?_, h.exhausted,
      fun l' hl' => ?_⟩, fun hnil => absurd hnil (by simp)⟩
    · rcases Nat.le_succ_iff.mp hi with hi | rfl
      · exact (htaken i hi hlimit).imp_left (List.mem_append_left _)
      · exact Or.inl (by simp)
    · rcases List.mem_append.mp hl with hl | hl
      · obtain ⟨hle, hrest⟩ := h.candidates l hl
        exact ⟨hle.trans hnext.2.le, hrest⟩
      · rw [List.mem_singleton.mp hl]
        exact ⟨le_rfl, hnext.1, k + 1, rfl⟩
    · refine List.pairwise_append.mpr ⟨h.order, List.pairwise_singleton _ _, fun x hx y hy => ?_⟩
      rw [List.mem_singleton.mp hy]
      exact Or.inl ((h.candidates x hx).1.trans hnext.2.le)
    · obtain ⟨hle, hall⟩ := h.refuted l' hl'
      refine ⟨hle.trans hnext.2.le, fun l hl => ?_⟩
      rcases List.mem_append.mp hl with hl | hl
      · exact hall l hl
      · exact Or.inl (List.mem_singleton.mp hl ▸ hle.trans hnext.2.le)
  · rename_i hstop
    refine ⟨h, fun _ i hlimit => ?_⟩
    -- The next candidate is beyond the limit, or candidates do not grow any more.
    rcases Nat.lt_or_ge k i with hi | hi
    · have hle : q₀.candidate (k + 1) ≤ q₀.candidate i := hmono hi
      have hsame : q₀.candidate (k + 1) = q₀.candidate k := by
        have : q₀.candidate k ≤ q₀.candidate (k + 1) := hmono (Nat.le_succ k)
        have hlimit' : q₀.candidate (k + 1) ≤ q₀.limit := hle.trans hlimit
        omega
      have hfixed : ∀ j, q₀.candidate (k + j) = q₀.candidate k := by
        intro j
        induction j with
        | zero => rfl
        | succ j ih => rw [← Nat.add_assoc, candidate_succ, ih, ← hsucc, hsame]
      have heq := hfixed (i - k)
      rw [Nat.add_sub_cancel' hi.le] at heq
      exact heq.le
    · exact hmono hi

/-- What an outcome does to a queue that trials have led to. -/
theorem Tracks.next (h : Tracks q₀ trials q) (hstart : q₀.start ≤ maxLength)
    (hq : q.lengths = current :: rest) (houtcome : outcome ≠ .satisfiable) :
    Tracks q₀ (trials ++ [⟨current, current, outcome⟩]) (q.next (some outcome)).2 ∧
      Ended q₀ (q.next (some outcome)).2 := by
  have hne : rest ++ [current] ≠ [] := by simp
  cases outcome with
  | satisfiable => exact absurd rfl houtcome
  | unsatisfiable =>
      rw [next_unsatisfiable hq]
      exact (h.refute hq).advance hstart
  | unknown =>
      rw [next_unknown hq]
      refine ⟨h.rotate hq (by simp) fun l hl => ?_, fun hnil => absurd hnil hne⟩
      obtain ⟨hold, hdiffers⟩ := List.mem_filter.mp hl
      rw [latest?_concat, if_neg (Ne.symm (by simpa using hdiffers))]
      exact h.exhausted l hold
  | outOfMemory =>
      rw [next_outOfMemory hq]
      refine ⟨h.rotate hq (by simp) fun l hl => ?_, fun hnil => absurd hnil hne⟩
      rw [latest?_concat]
      split
      · rfl
      · rename_i hdiffers
        exact h.exhausted l ((List.mem_cons.mp hl).resolve_left (Ne.symm hdiffers))

end LengthQueue

end StablePlan
