import StablePlan.Proofs.Plan.Solving

/-!
Attempts. What a length needs is grounded, the query is moved to the last step, and then the length
is solved. However an attempt ends, the switches are set again as they have to be between attempts;
and one that does not come to solving leaves the backend alone.
-/

namespace StablePlan

namespace Planner

variable {β κ : Type} [Backend β] {K : Ledger β} {p p' : Planner β κ} {t : Template}
  {length target s k : Nat} {blocked : Set (List Literal)}

/-! ### New planners -/

/-- A planner that is made has the handles of its two labels. -/
theorem make_eq_ok {β : Type} {p : Planner β κ} {b : β} {readings : List Nat} {settings : Settings}
    {check : Option κ} (h : make t b readings settings check = .ok p) :
    t.external? settings.query = some p.query ∧ p.skip = t.external? settings.skip ∧
      p.strategy = settings.strategy ∧ p.memoryLimit = settings.memoryLimit ∧ p.check = check ∧
        p.unrolling = { template := t } ∧ p.backend = b ∧ p.marker = none ∧ p.tally = {} := by
  unfold make at h
  split at h
  · cases h
  · rename_i handle hquery
    obtain rfl := Except.ok.inj h
    exact ⟨hquery, rfl, rfl, rfl, rfl, rfl, rfl, rfl, rfl⟩

/-- A new planner has noted nothing. -/
theorem journal_of_make {β : Type} {p : Planner β κ} {b : β} {readings : List Nat}
    {settings : Settings} {check : Option κ} (h : make t b readings settings check = .ok p) :
    p.journal = #[] := by
  unfold make at h
  split at h
  · cases h
  · obtain rfl := Except.ok.inj h
    rfl

/-- Over no steps no switch is set. -/
theorem Steers.of_make {β : Type} {p : Planner β κ} {b : β} {readings : List Nat}
    {settings : Settings} {check : Option κ} (h : make t b readings settings check = .ok p)
    (hlaid : t.Laid) (hne : settings.query ≠ settings.skip) : p.Steers t p.steps := by
  obtain ⟨hquery, hskip, -, -, -, hunrolling, -, hmarker, -⟩ := make_eq_ok h
  have hsteps : p.steps = 0 := congrArg Unrolling.steps hunrolling
  have hhandle : ∀ {symbol k}, t.external? symbol = some k → (symbol, k) ∈ t.externals :=
    Template.mem_of_external?_eq_some
  have hvalue : ∀ s k, p.unrolling.value? s k = none := by
    rw [hunrolling]
    exact fun _ _ => rfl
  refine ⟨?_, ?_, ?_, ?_, ⟨_, hhandle hquery⟩, fun k hk => ⟨?_, ?_⟩, ?_, ?_, ?_⟩
  · rw [hunrolling]
  · rw [hunrolling, hsteps]
    rfl
  · simp [hsteps]
  · rw [hunrolling]
    exact .nil
  · exact ⟨_, hhandle (hskip.symm.trans hk)⟩
  · rintro rfl
    exact hne (hlaid.symbol_eq _ _ _ (hhandle hquery) (hhandle (hskip.symm.trans hk)))
  · rw [hmarker, if_pos hsteps]
  · intro s k v hv
    rw [hvalue] at hv
    cases hv
  · intro s k hs hle
    omega

/-- A backend that was told nothing has nothing to say to a new planner. -/
theorem Told.of_make {b : β} {readings : List Nat} {settings : Settings} {check : Option κ}
    (h : make t b readings settings check = .ok p) (hlog : K.Logs b []) : p.Told K ∅ := by
  obtain ⟨-, -, -, -, -, hunrolling, hbackend, -⟩ := make_eq_ok h
  have hsteps : p.steps = 0 := congrArg Unrolling.steps hunrolling
  have hreleases : p.releases = ∅ := by
    refine Set.eq_empty_of_forall_notMem ?_
    rintro body ⟨s, hs, -⟩
    have := hs.1
    omega
  unfold Told
  rw [hreleases, hunrolling, hbackend, Set.union_empty]
  exact Unrolling.told_empty t hlog

/-! ### Grounding more steps -/

theorem Steers.groundTo_eq_error (h : p.Steers t length) (hfits : ¬t.fits target) :
    p.groundTo target = .error (.unroll (.atomOverflow target), p) := by
  unfold groundTo
  dsimp only
  rw [Unrolling.ground_eq_error (h.template ▸ hfits)]
  simp [noteStart]

/-- Grounding up to a step that fits. -/
theorem Steers.exists_groundTo (h : p.Steers t length) (htold : p.Told K blocked)
    (hlaid : t.Laid) (hfits : t.fits target) (htarget : p.steps < target) :
    ∃ p', p.groundTo target = .ok p' ∧ Continues p p' ∧ p'.marker = p.marker ∧
      p'.unrolling = p.unrolling.groundedTo target ∧
        p'.unrolling.Told K p'.backend (p.releases ∪ blocked) := by
  obtain ⟨b, hground, htold'⟩ := Unrolling.Told.ground htold (h.template ▸ hlaid.toBanded)
    (h.template ▸ hfits) h.sorted htarget
  have hstart : ∀ q : Planner β κ, Resembles q (q.noteStart p.unrolling) := by
    intro q
    unfold noteStart
    split
    · exact resembles_note _ _
    · exact .refl q
  unfold groundTo
  dsimp only
  rw [hground]
  have hgrounded : Continues p
      { p with unrolling := p.unrolling.groundedTo target, backend := b } :=
    ⟨rfl, rfl, rfl, rfl, rfl, .rfl⟩
  have hsame := (hstart { p with unrolling := p.unrolling.groundedTo target, backend := b }).trans
    (resembles_note _ (.grounded (p.unrolling.steps + 1) target (Backend.ruleCount b)))
  refine ⟨_, rfl, hgrounded.trans hsame.toContinues, hsame.marker, hsame.unrolling, ?_⟩
  rw [hsame.unrolling, hsame.backend]
  exact htold'

/-- The query leaves the step where it was. -/
theorem exists_leaveMarker (hsorted : Ascending.IsSorted p.unrolling.assigned)
    (hmarker : ∀ s, p.marker = some s → (1 ≤ s ∧ s ≤ p.steps) ∧
      InRange maxAtom (s * p.unrolling.template.period + p.query))
    (htold : p.unrolling.Told K p.backend blocked) :
    ∃ table b, p.leaveMarker = .ok { p.assuming table with backend := b } ∧
      Ascending.IsSorted table ∧
      (∀ s k, (p.unrolling.assuming table).value? s k =
        if k = p.query ∧ p.marker = some s then if p.skip.isSome then none else some false
        else p.unrolling.value? s k) ∧
      p.unrolling.Told K b ({body | ∃ s, (p.marker = some s ∧ p.skip.isSome) ∧
        body = [.positive (s * p.unrolling.template.period + p.query)]} ∪ blocked) := by
  unfold leaveMarker
  cases hold : p.marker with
  | none =>
      refine ⟨p.unrolling.assigned, p.backend, rfl, hsorted, fun s k => ?_, ?_⟩
      · rw [if_neg (by simp)]
        rfl
      · simpa using htold
  | some old =>
      obtain ⟨hrange, hatom⟩ := hmarker old hold
      dsimp only
      cases hskip : p.skip.isSome with
      | true =>
          have hgrounded : p.unrolling.isGrounded old := by
            unfold Unrolling.isGrounded
            simpa using ⟨hrange.1, hrange.2⟩
          obtain ⟨b, hrelease, htold'⟩ := htold.release hgrounded hatom
          refine ⟨Ascending.remove ⟨old, p.query⟩ p.unrolling.assigned, b, ?_,
            Ascending.isSorted_remove hsorted _, fun s k => ?_, ?_⟩
          · rw [if_pos rfl]
            unfold Planner.release
            rw [hrelease]
            rfl
          · rw [Unrolling.value?_remove]
            refine if_congr ?_ rfl rfl
            simp [and_comm, eq_comm]
          -- What is told is the constraint of the one step that the marker leaves.
          · have hsingle : {body | ∃ s, (some old = some s ∧ True) ∧
                body = [Literal.positive (s * p.unrolling.template.period + p.query)]} =
                {[Literal.positive (old * p.unrolling.template.period + p.query)]} := by
              ext body
              simp
            simpa [hsingle] using htold'
      | false =>
          obtain ⟨p', hassign, table, rfl, hsorted', hvalue⟩ :=
            assign_sets hsorted hrange p.query false
          refine ⟨table, p.backend, ?_, hsorted', fun s k => ?_, ?_⟩
          · rw [if_neg (by simp)]
            exact hassign
          · refine (hvalue s k).trans (if_congr ?_ rfl rfl)
            simp [and_comm, eq_comm]
          · simpa using htold

/-- After the steps were grounded the query is moved to the last one. -/
theorem Steers.exists_moveQuery (h : p.Steers t p.steps) (hlaid : t.Laid)
    (hfits : t.fits target) (htarget : p.steps < target) (hquery : p'.query = p.query)
    (hskip : p'.skip = p.skip) (hmarker : p'.marker = p.marker)
    (hunrolling : p'.unrolling = p.unrolling.groundedTo target)
    (htold : p'.unrolling.Told K p'.backend (p.releases ∪ blocked)) :
    ∃ q, p'.moveQuery target = .ok q ∧ q.steps = target ∧ Continues p' q ∧
      q.Steers t target ∧ q.Told K blocked := by
  obtain ⟨htemplate, hstarted, hsteps, hsorted⟩ := Unrolling.groundedTo_frame h.sorted htarget
  rw [← hunrolling] at htemplate hstarted hsteps hsorted
  rw [h.template] at htemplate
  -- The old marker is a grounded step, so its literal exists and can be released.
  have hrange : ∀ s, p'.marker = some s → (1 ≤ s ∧ s ≤ p'.steps) ∧
      InRange maxAtom (s * p'.unrolling.template.period + p'.query) := by
    intro s hs
    rw [hmarker, h.marker_eq_some_iff] at hs
    have hle : s ≤ p'.unrolling.steps := by omega
    refine ⟨⟨by omega, hle⟩, Unrolling.inRange_handle (htemplate ▸ hlaid) ?_ hle ?_⟩
    · rw [htemplate, hsteps]
      exact hfits
    · rw [htemplate, hquery]
      exact h.query
  obtain ⟨table, b, hleave, hsorted₁, hvalue₁, htold₁⟩ := exists_leaveMarker hsorted hrange htold
  obtain ⟨q, hassign, table', rfl, hsorted₂, hvalue₂⟩ :=
    assign_sets (p := { p'.assuming table with backend := b }) hsorted₁ (s := target)
      ⟨by omega, hsteps.ge⟩ p'.query true
  have hvalue : ∀ s k, (p'.unrolling.assuming table').value? s k = p.extended t target s k := by
    intro s k
    refine (hvalue₂ s k).trans ?_
    change (if _ then _ else (p'.unrolling.assuming table).value? s k) = _
    rw [hvalue₁, hunrolling, Unrolling.value?_groundedTo, hquery, hmarker, hskip,
      h.template]
    unfold extended
    exact if_congr and_comm rfl rfl
  have hextends : p.Extends t target
      { p'.assuming table' with backend := b, marker := some target } :=
    ⟨htemplate, hstarted, hsteps, hsorted₂, hquery, hskip, rfl, hvalue⟩
  refine ⟨{ p'.assuming table' with backend := b, marker := some target }, ?_, hsteps,
    ⟨rfl, rfl, rfl, rfl, rfl, .rfl⟩, h.extend htarget hfits hextends, ?_⟩
  · unfold moveQuery
    rw [hleave]
    change Planner.assign _ target p'.query (.ofBool true) >>= _ = _
    rw [hassign]
    rfl
  · rw [hmarker, hskip, hquery, htemplate] at htold₁
    unfold Told
    rw [h.releases_extend htarget hextends, Set.union_assoc]
    exact htold₁

/-- Grounding up to a step that fits, and moving the query there. -/
theorem Steers.exists_advance (h : p.Steers t p.steps) (htold : p.Told K blocked)
    (hlaid : t.Laid) (hfits : t.fits target) (htarget : p.steps < target) (before added : Nat) :
    ∃ p₁ p₂, p.groundTo target = .ok p₁ ∧
      (p₁.readMemory.2.learn before p₁.readMemory.1 added).moveQuery target = .ok p₂ ∧
        p₂.steps = target ∧ Keeps K t target blocked p p₂ blocked := by
  obtain ⟨p₁, hground, hcontinues, hmarker, hunrolling, htold₁⟩ :=
    h.exists_groundTo htold hlaid hfits htarget
  have hsame := (resembles_readMemory p₁).trans
    (resembles_learn p₁.readMemory.2 before p₁.readMemory.1 added)
  obtain ⟨p₂, hmove, hsteps, hcontinues', hsteers, htold₂⟩ :=
    h.exists_moveQuery hlaid hfits htarget (hsame.query.trans hcontinues.query)
      (hsame.skip.trans hcontinues.skip) (hsame.marker.trans hmarker)
      (hsame.unrolling.trans hunrolling) (by rw [hsame.unrolling, hsame.backend]; exact htold₁)
  exact ⟨p₁, p₂, hground, hmove, hsteps, hsteers, htold₂,
    hcontinues.trans (hsame.toContinues.trans hcontinues'), subset_rfl, fun _ => rfl⟩

/-- The missing steps are grounded, unless memory does not admit them or they do not fit. In that
case nothing has changed that matters to the backend. -/
theorem Steers.finishes_reach (h : p.Steers t p.steps) (htold : p.Told K blocked)
    (hlaid : t.Laid) (length target : Nat) :
    Finishes (p.reach length target)
      (fun r => (r.1 = true → r.2.steps = max p.steps target ∧
          Keeps K t r.2.steps blocked p r.2 blocked) ∧
        (r.1 = false → Resembles p r.2 ∧ p.memoryLimit ≠ none))
      (fun e p' => Resembles p p' ∧ e = .unroll (.atomOverflow target) ∧ ¬t.fits target) := by
  unfold reach
  split
  · rename_i hle
    exact ⟨fun _ => ⟨(Nat.max_eq_left hle).symm, .of_resembles h htold (.refl p)⟩, nofun⟩
  · rename_i hnot
    have hsame₁ := resembles_readMemory p
    generalize p.readMemory = gauge at hsame₁ ⊢
    obtain ⟨before, p₁⟩ := gauge
    have htarget : p₁.steps < target := hsame₁.steps.trans_lt (Nat.not_le.mp hnot)
    dsimp only at hsame₁ ⊢
    split
    · rename_i memory hexceeded
      have hsame := hsame₁.trans (resembles_note p₁
        (.projected length (p₁.estimate before (target - p.steps)) memory))
      refine ⟨nofun, fun _ => ⟨hsame.trans ⟨⟨rfl, rfl, rfl, rfl, rfl, .rfl⟩, rfl, rfl, rfl⟩,
        fun hnone => ?_⟩⟩
      unfold exceeded? at hexceeded
      rw [hsame₁.memoryLimit, hnone] at hexceeded
      cases hexceeded
    · have hkeeps : Keeps K t p₁.steps blocked p p₁ blocked :=
        hsame₁.steps.symm ▸ .of_resembles h htold hsame₁
      by_cases hfits : t.fits target
      · obtain ⟨p₂, p₃, hground, hmove, hsteps, hkeeps'⟩ :=
          hkeeps.steers.exists_advance hkeeps.told hlaid hfits htarget before (target - p.steps)
        rw [hground]
        dsimp only [bind, Except.bind]
        rw [hmove]
        have hcounted : Resembles p₃ { p₃ with tally := { p₃.tally with steps := target } } :=
          ⟨⟨rfl, rfl, rfl, rfl, rfl, .rfl⟩, rfl, rfl, rfl⟩
        have hmax : max p.steps target = target := Nat.max_eq_right (Nat.le_of_not_le hnot)
        refine ⟨fun _ => ⟨hsteps.trans hmax.symm, ?_⟩, nofun⟩
        exact hsteps.symm ▸ (hkeeps.trans hkeeps').resembles hcounted
      · rw [hkeeps.steers.groundTo_eq_error hfits]
        exact ⟨hsame₁, rfl, hfits⟩

variable [ModelCheck κ]

/-- However an attempt ends, the switches are set again as they have to be between attempts. If it
does not come to solving, for want of memory or of atoms, nothing has changed that matters to the
backend. -/
theorem Steers.finishes_attempt (h : p.Steers t p.steps) (htold : p.Told K blocked)
    (hlaid : t.Laid) (length : Nat)
    (hask : ∀ q : Planner β κ, q.Steers t (p.usable length) → q.query = p.query →
      q.skip = p.skip → q.steps = p.needed length → K.Asks q.unrolling.assumptions) :
    Finishes (p.attempt length)
      (fun r => r.1.length = p.usable length ∧
        (r.1.outcome = .outOfMemory ∧ Resembles p r.2 ∧ p.memoryLimit ≠ none ∨
          r.2.steps = p.needed length ∧ ∃ blocked', Keeps K t r.2.steps blocked p r.2 blocked' ∧
            r.2.Concludes K t blocked' r.1))
      (fun e p' => e = .unroll (.atomOverflow (max (p.usable length) 1)) ∧
          ¬t.fits (max (p.usable length) 1) ∧ Resembles p p' ∨
        p'.steps = p.needed length ∧ ∃ blocked', Keeps K t p'.steps blocked p p' blocked' ∧
          p'.Fails K t (p.usable length) blocked' e) := by
  have hreach := h.finishes_reach htold hlaid (p.usable length) (max (p.usable length) 1)
  refine (hreach.mono (fun _ => id) ?_).bind ?_
  · rintro e p' ⟨hsame, he, hfits⟩
    exact Or.inl ⟨he, hfits, hsame⟩
  rintro ⟨admitted, p₁⟩ ⟨hadmitted, hrefused⟩
  change Finishes (p₁.conclude length admitted) _ _
  unfold conclude
  cases admitted with
  | false =>
      obtain ⟨hsame, hmemory⟩ := hrefused rfl
      exact ⟨congrFun (usable_congr hsame.skip) length, Or.inl ⟨rfl, hsame, hmemory⟩⟩
  | true =>
      obtain ⟨hsteps, hkeeps⟩ : p₁.steps = p.needed length ∧ _ := hadmitted rfl
      have husable := congrFun (usable_congr hkeeps.continues.skip) length
      have hcounted : Resembles p₁
          { p₁ with tally := { p₁.tally with rules := Backend.ruleCount p₁.backend } } :=
        ⟨⟨rfl, rfl, rfl, rfl, rfl, .rfl⟩, rfl, rfl, rfl⟩
      have hkeeps₂ := hkeeps.resembles hcounted
      have hle : p.usable length ≤ p₁.steps := by
        unfold needed at hsteps
        omega
      have hsolve := hkeeps₂.steers.finishes_solveMasked hkeeps₂.told
        (fun q hq hquery hskip hsteps' => hask q hq (hquery.trans hkeeps.continues.query)
          (hskip.trans hkeeps.continues.skip) (hsteps'.trans hsteps))
        hle fun hskip => one_le_usable length (hkeeps.continues.skip.symm.trans hskip)
      rw [if_pos rfl, husable]
      refine hsolve.mono ?_ ?_
      · rintro ⟨attempt, p'⟩ ⟨hsteps', hlength, blocked', hkeeps', hconcludes⟩
        have hsame : p'.steps = p₁.steps := hsteps'
        exact ⟨hlength, Or.inr ⟨hsame.trans hsteps, blocked',
          hkeeps₂.trans (hsame.symm ▸ hkeeps'), hconcludes⟩⟩
      · rintro e p' ⟨hsteps', blocked', hkeeps', hfails⟩
        have hsame : p'.steps = p₁.steps := hsteps'
        exact Or.inr ⟨hsame.trans hsteps, blocked', hkeeps₂.trans (hsame.symm ▸ hkeeps'), hfails⟩

end Planner

end StablePlan
