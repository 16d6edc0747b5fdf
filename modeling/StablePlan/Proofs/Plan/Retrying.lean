import StablePlan.Proofs.Plan.Admission
import StablePlan.Proofs.Plan.Conversation

/-!
What comes of an attempt. After the missing steps were grounded an attempt is one conversation with
the backend and the check, as long as the retries allow; its last reply decides the result. Steps
that were hidden for that time are always shown again.
-/

namespace StablePlan

namespace Planner

open Unrolling

variable {β κ : Type} {p p' p'' : Planner β κ} {length retries : Nat}

/-! ### What solving leaves as it is -/

/-- What matters to a solve call, beside the backend, is as it was. -/
structure Persists (p p' : Planner β κ) : Prop where
  unrolling : p'.unrolling = p.unrolling
  skip : p'.skip = p.skip
  marker : p'.marker = p.marker

theorem Persists.trans (h : Persists p p') (h' : Persists p' p'') : Persists p p'' :=
  ⟨h'.unrolling.trans h.unrolling, h'.skip.trans h.skip, h'.marker.trans h.marker⟩

theorem foldl_remark_eq (p : Planner β κ) (texts : List String) : ∃ journal,
    texts.foldl (fun p text => p.note (.remark text)) p = { p with journal } := by
  induction texts generalizing p with
  | nil => exact ⟨_, rfl⟩
  | cons text texts ih => exact ih (p.note (.remark text))

/-! ### Hiding steps and showing them again -/

theorem assign_cases (p : Planner β κ) (s k : Nat) (v : Bool) :
    (p.unrolling.isGrounded s ∧ ∃ table, p.assign s k (.ofBool v) = .ok (p.assuming table)) ∨
      ¬p.unrolling.isGrounded s ∧ ∃ e, p.assign s k (.ofBool v) = .error (.unroll e, p) := by
  unfold assign
  by_cases hgrounded : p.unrolling.isGrounded s
  · rw [Unrolling.assign_eq_ok hgrounded]
    exact Or.inl ⟨hgrounded, _, rfl⟩
  · unfold Unrolling.assign
    rw [if_pos (by simp [hgrounded])]
    exact Or.inr ⟨hgrounded, _, rfl⟩

theorem exists_foldlM_assign {xs : List Nat} (h : ∀ s ∈ xs, p.unrolling.isGrounded s) (k : Nat)
    (v : Bool) : ∃ table,
      xs.foldlM (fun p s => p.assign s k (.ofBool v)) p = .ok (p.assuming table) := by
  induction xs generalizing p with
  | nil => exact ⟨p.unrolling.assigned, rfl⟩
  | cons s xs ih =>
      obtain ⟨-, table, hassign⟩ | ⟨hnot, -⟩ := p.assign_cases s k v
      · obtain ⟨table', hrest⟩ := ih (p := p.assuming table) fun s' hs' =>
          h s' (List.mem_cons_of_mem s hs')
        rw [List.foldlM_cons, hassign]
        exact ⟨table', hrest⟩
      · exact absurd (h s List.mem_cons_self) hnot

/-- The steps between which the query would move are grounded. -/
def Maskable (p : Planner β κ) (length : Nat) : Prop :=
  p.skip = none → p.unrolling.isGrounded (p.marker.getD p.steps) ∧ p.unrolling.isGrounded length

theorem Persists.maskable (h : Persists p p') (hmaskable : p.Maskable length) :
    p'.Maskable length := by
  unfold Maskable steps at *
  rw [h.skip, h.marker, h.unrolling]
  exact hmaskable

theorem mask_cases (p : Planner β κ) (length : Nat) (hide : Bool) :
    (p.Maskable length ∧ ∃ table, p.mask length hide = .ok (p.assuming table)) ∨
      ¬p.Maskable length ∧ ∃ e p', p.mask length hide = .error (.unroll e, p') ∧
        p'.backend = p.backend := by
  have hvalues : (if hide then (ExternalValue.on, ExternalValue.off) else (.off, .on)) =
      (ExternalValue.ofBool hide, ExternalValue.ofBool !hide) := by
    cases hide <;> rfl
  unfold mask Maskable
  rw [hvalues]
  dsimp only
  cases p.skip with
  | some skip =>
      refine Or.inl ⟨nofun, exists_foldlM_assign (fun s hs => ?_) skip hide⟩
      have hlt : length + 1 ≤ s ∧ s < length + 1 + (p.unrolling.steps - length) :=
        List.mem_range'_1.mp hs
      simp only [Unrolling.isGrounded, Bool.and_eq_true, decide_eq_true_eq]
      omega
  | none =>
      rcases p.assign_cases (p.marker.getD p.steps) p.query !hide with
        ⟨hfirst, table, hassign⟩ | ⟨hfirst, e, hassign⟩
      · rw [hassign]
        rcases (p.assuming table).assign_cases length p.query hide with
          ⟨hsecond, table', hassign'⟩ | ⟨hsecond, e, hassign'⟩
        · exact Or.inl ⟨fun _ => ⟨hfirst, hsecond⟩, table', hassign'⟩
        · exact Or.inr ⟨fun h => hsecond (h rfl).2, e, _, hassign', rfl⟩
      · rw [hassign]
        exact Or.inr ⟨fun h => hfirst (h rfl).1, e, _, rfl, rfl⟩

variable [Backend β]

/-! ### Grounding what is needed -/

/-- The backend may have been told things, but was not asked. -/
structure Readies (p p' : Planner β κ) : Prop where
  template : p'.unrolling.template = p.unrolling.template
  skip : p'.skip = p.skip
  check : p'.check = p.check
  retry : p'.retry = p.retry
  told : ∃ told, (∀ m ∈ told, m.isSolve = false) ∧ Calls p.backend told p'.backend

theorem Readies.of_same (htemplate : p'.unrolling.template = p.unrolling.template)
    (hskip : p'.skip = p.skip) (hcheck : p'.check = p.check) (hretry : p'.retry = p.retry)
    (hbackend : p'.backend = p.backend) : Readies p p' :=
  ⟨htemplate, hskip, hcheck, hretry, [], nofun, hbackend ▸ .nil⟩

theorem Readies.trans (h : Readies p p') (h' : Readies p' p'') : Readies p p'' := by
  obtain ⟨told, hquiet, hcalls⟩ := h.told
  obtain ⟨told', hquiet', hcalls'⟩ := h'.told
  refine ⟨h'.template.trans h.template, h'.skip.trans h.skip, h'.check.trans h.check,
    h'.retry.trans h.retry, told ++ told', fun m hm => ?_, hcalls.append hcalls'⟩
  exact (List.mem_append.mp hm).elim (hquiet m) (hquiet' m)

theorem readies_of_advances {u : Unrolling} {b : β}
    (h : p.unrolling.Advances p.query p.backend (u, b)) (journal : Array Notice) :
    Readies p { p with unrolling := u, backend := b, journal } :=
  ⟨h.template, rfl, rfl, rfl, h.attends.calls⟩

/-- The unrolling has refused what it was called for, before anything was asked. -/
def Balks (p : Planner β κ) (e : PlanError) (p' : Planner β κ) : Prop :=
  Readies p p' ∧ ∃ e', e = .unroll e'

theorem Readies.balks {e : PlanError} (h : Readies p p') (h' : p'.Balks e p'') : p.Balks e p'' :=
  ⟨h.trans h'.1, h'.2⟩

theorem finishes_assign_readies (p : Planner β κ) (s k : Nat) (v : Bool) :
    Finishes (p.assign s k (.ofBool v)) (Readies p) p.Balks := by
  rcases p.assign_cases s k v with ⟨-, table, hassign⟩ | ⟨-, e, hassign⟩
  · rw [hassign]
    exact .of_same rfl rfl rfl rfl rfl
  · rw [hassign]
    exact ⟨.of_same rfl rfl rfl rfl rfl, e, rfl⟩

theorem finishes_groundTo_readies (p : Planner β κ) (target : Nat) :
    Finishes (p.groundTo target) (Readies p) p.Balks := by
  have hground := p.unrolling.finishes_ground p.backend p.query target
  unfold groundTo
  dsimp only
  split
  · rename_i u b heq
    rw [heq] at hground
    obtain ⟨journal, hnote⟩ := noteStart_eq { p with unrolling := u, backend := b } p.unrolling
    rw [hnote]
    exact readies_of_advances hground.1 _
  · rename_i e u b heq
    rw [heq] at hground
    obtain ⟨journal, hnote⟩ := noteStart_eq { p with unrolling := u, backend := b } p.unrolling
    rw [hnote]
    exact ⟨readies_of_advances hground _, e, rfl⟩

theorem finishes_leaveMarker_readies (p : Planner β κ) :
    Finishes p.leaveMarker (Readies p) p.Balks := by
  unfold leaveMarker
  split
  · exact .of_same rfl rfl rfl rfl rfl
  · rename_i old _
    split
    · have hrelease := p.unrolling.finishes_release p.backend old p.query
      unfold release
      split
      · rename_i u b heq
        rw [heq] at hrelease
        exact readies_of_advances hrelease _
      · rename_i e u b heq
        rw [heq] at hrelease
        exact ⟨readies_of_advances hrelease _, e, rfl⟩
    · exact finishes_assign_readies p old p.query false

theorem finishes_moveQuery_readies (p : Planner β κ) (target : Nat) :
    Finishes (p.moveQuery target) (Readies p) p.Balks := by
  refine p.finishes_leaveMarker_readies.bind fun p₁ h₁ => ?_
  refine ((finishes_assign_readies p₁ target p₁.query true).mono (fun _ => h₁.trans)
    fun _ _ => h₁.balks).bind fun p₂ h₂ => ?_
  exact h₂.trans (.of_same rfl rfl rfl rfl rfl)

/-- Grounding for an attempt asks nothing, and fails in the unrolling only. -/
theorem finishes_prepare_readies (p : Planner β κ) (length : Nat) :
    Finishes (p.prepare length) (fun r => Readies p r.2) p.Balks := by
  unfold prepare reach
  split
  · exact .of_same rfl rfl rfl rfl rfl
  · obtain ⟨readings, tally, hread, -⟩ := p.readMemory_eq
    rw [hread]
    dsimp only
    have hsame : Readies p { p with readings, tally } := .of_same rfl rfl rfl rfl rfl
    split
    · exact .of_same rfl rfl rfl rfl rfl
    · refine ((finishes_groundTo_readies _ _).mono (fun _ => hsame.trans) fun _ _ =>
        hsame.balks).bind fun p₁ h₁ => ?_
      obtain ⟨readings', tally', hread', -⟩ := p₁.readMemory_eq
      rw [hread']
      have hlearn : ∀ stepMemory, Readies p
          { p₁ with readings := readings', tally := tally', stepMemory } := fun _ =>
        h₁.trans (.of_same rfl rfl rfl rfl rfl)
      refine ((finishes_moveQuery_readies _ _).mono (fun _ => (hlearn _).trans) fun _ _ =>
        (hlearn _).balks).bind fun p₂ h₂ => ?_
      exact h₂.trans (.of_same rfl rfl rfl rfl rfl)

/-! ### Solving -/

theorem solveOnce_eq (p : Planner β κ) : ∃ p', Persists p p' ∧ p'.check = p.check ∧
    p'.backend = (Backend.solve p.backend p.unrolling.assumptions).2 ∧
      p.solveOnce = match (Backend.solve p.backend p.unrolling.assumptions).1 with
        | .error e => .error (.solve e, p')
        | .ok report => .ok (report.result, p') := by
  unfold solveOnce
  dsimp only
  split
  · rename_i e b heq
    have heq' : Backend.solve p.backend p.unrolling.assumptions = (.error e, b) := heq
    rw [heq']
    refine ⟨_, ?_, ?_, ?_, rfl⟩
    exacts [⟨rfl, rfl, rfl⟩, rfl, rfl]
  · rename_i report b heq
    have heq' : Backend.solve p.backend p.unrolling.assumptions = (.ok report, b) := heq
    rw [heq']
    refine ⟨_, ?_, ?_, ?_, rfl⟩
    exacts [⟨rfl, rfl, rfl⟩, rfl, rfl]

variable [ModelCheck κ] {u : Unrolling} {x x' : Except (Failure β κ) (Attempt × Planner β κ)}

/-- What is said of an attempt, apart from the planner that it leaves. -/
def said : Except (Failure β κ) (Attempt × Planner β κ) →
    Except PlanError (Outcome × Option Answer)
  | .ok (attempt, _) => .ok (attempt.outcome, attempt.answer)
  | .error (e, _) => .error e

/-- A conversation decides what is said of an attempt. -/
def Exchanges (p : Planner β κ) (u : Unrolling) (length retries : Nat)
    (x : Except (Failure β κ) (Attempt × Planner β κ)) : Prop :=
  ∃ xs last b rest, u.Converses length p.backend p.check xs last b (after x).check ∧
    xs.length ≤ retries ∧ u.Closes retries xs.length last b rest (after x).backend (said x)

theorem Exchanges.congr (h : p.Exchanges u length retries x) (hsaid : said x' = said x)
    (hbackend : (after x').backend = (after x).backend)
    (hcheck : (after x').check = (after x).check) : p.Exchanges u length retries x' := by
  unfold Exchanges
  rw [hsaid, hbackend, hcheck]
  exact h

/-- What a round makes of the reply. -/
def heed (length : Nat) (rest : Planner β κ → Except (Failure β κ) (Attempt × Planner β κ))
    (p : Planner β κ) : Reply → Except (Failure β κ) (Attempt × Planner β κ)
  | .failed e => .error (.solve e, p)
  | .unsatisfiable => .ok (⟨length, .unsatisfiable, none⟩, p)
  | .unknown => .ok (⟨length, .unknown, none⟩, p)
  | .accepted answer => .ok (⟨length, .satisfiable, some answer⟩, p)
  | .rejected atoms =>
    if atoms.isEmpty then .ok (⟨length, .unknown, none⟩, p) else p.block atoms >>= rest

/-- A round is one question and what is made of the reply. -/
theorem round_eq (p : Planner β κ) (length : Nat)
    (rest : Planner β κ → Except (Failure β κ) (Attempt × Planner β κ)) :
    ∃ p', Persists p p' ∧ (p'.backend, p'.check) = (p.unrolling.ask length p.backend p.check).2 ∧
      p.round length rest = p'.heed length rest (p.unrolling.ask length p.backend p.check).1 := by
  obtain ⟨p₁, h₁, hcheck, hbackend, hsolve⟩ := p.solveOnce_eq
  unfold round ask
  rw [hsolve, ← hcheck]
  cases heq : Backend.solve p.backend p.unrolling.assumptions with
  | mk result b =>
  rw [heq] at hbackend
  replace hbackend : p₁.backend = b := hbackend
  cases result with
  | error e => exact ⟨p₁, h₁, by rw [hbackend], rfl⟩
  | ok report =>
      simp only [bind, Except.bind]
      cases report.result with
      | unsatisfiable => exact ⟨p₁, h₁, by rw [hbackend], rfl⟩
      | unknown => exact ⟨p₁, h₁, by rw [hbackend], rfl⟩
      | satisfiable m =>
          dsimp only
          unfold judge
          rw [h₁.unrolling]
          cases hcheck₁ : p₁.check with
          | none =>
              exact ⟨p₁.note (.model length (p.unrolling.answer m length)),
                h₁.trans ⟨rfl, rfl, rfl⟩, Prod.ext hbackend hcheck₁, rfl⟩
          | some c =>
              obtain ⟨journal, hremarks⟩ := p₁.foldl_remark_eq
                (ModelCheck.remarks c (p.unrolling.answer m length) length)
              dsimp only
              rw [hremarks]
              cases ModelCheck.check c (p.unrolling.answer m length) length with
              | mk verdict c =>
              have hpersists : ∀ (tally : Tally) (journal : Array Notice),
                  Persists p { p₁ with check := some c, tally, journal } := fun _ _ =>
                h₁.trans ⟨rfl, rfl, rfl⟩
              cases verdict with
              | accept => exact ⟨_, hpersists _ _, Prod.ext hbackend rfl, rfl⟩
              | reject atoms => exact ⟨_, hpersists _ _, Prod.ext hbackend rfl, rfl⟩

/-- A round is the end of a conversation, or its beginning if another one may follow. -/
theorem exchanges_round {rest : Planner β κ → Except (Failure β κ) (Attempt × Planner β κ)}
    (hrest : ∀ p', (retries = 0 ∧ ∃ journal,
        rest p' = .ok (⟨length, .unknown, none⟩, { p' with journal })) ∨
      ∃ n, retries = n + 1 ∧ p'.Exchanges p'.unrolling length n (rest p') ∧
        Persists p' (after (rest p')))
    (p : Planner β κ) :
    p.Exchanges p.unrolling length retries (p.round length rest) ∧
      Persists p (after (p.round length rest)) := by
  obtain ⟨p₁, h₁, hstate, hround⟩ := p.round_eq length rest
  rw [hround]
  rcases hask : p.unrolling.ask length p.backend p.check with ⟨reply, b, c⟩
  rw [hask] at hstate
  obtain ⟨rfl, rfl⟩ := Prod.mk.inj hstate
  have hlast := Converses.last hask
  cases reply with
  | failed e => exact ⟨⟨[], _, _, [], hlast, Nat.zero_le _, .failed⟩, h₁⟩
  | unsatisfiable => exact ⟨⟨[], _, _, [], hlast, Nat.zero_le _, .unsatisfiable⟩, h₁⟩
  | unknown => exact ⟨⟨[], _, _, [], hlast, Nat.zero_le _, .unknown⟩, h₁⟩
  | accepted answer => exact ⟨⟨[], _, _, [], hlast, Nat.zero_le _, .accepted⟩, h₁⟩
  | rejected atoms =>
      unfold heed
      dsimp only
      by_cases hempty : atoms = []
      · subst hempty
        exact ⟨⟨[], _, _, [], hlast, Nat.zero_le _, .pointless⟩, h₁⟩
      · rw [if_neg (by simpa using hempty)]
        rcases p₁.block_cases atoms with ⟨a, ha, hnone, herror⟩ | ⟨body, hbody, hblock⟩
        · rw [herror]
          exact ⟨⟨[], _, _, [], hlast, Nat.zero_le _, .unshown ha (h₁.unrolling ▸ hnone)⟩, h₁⟩
        · have hblocks : p.unrolling.Blocks atoms body := h₁.unrolling ▸ hbody
          rw [hblock]
          cases hadd : Backend.addRule p₁.backend (.constraint body) with
          | error result =>
              obtain ⟨e, b⟩ := result
              exact ⟨⟨[], _, _, _, hlast, Nat.zero_le _,
                .refused (x := ⟨atoms, body⟩) hempty hblocks hadd⟩, h₁.trans ⟨rfl, rfl, rfl⟩⟩
          | ok b =>
              simp only [bind, Except.bind]
              set p₂ : Planner β κ := { p₁ with backend := b } with hp₂
              have h₂ : Persists p p₂ := h₁.trans ⟨rfl, rfl, rfl⟩
              rcases hrest p₂ with ⟨rfl, journal, hgaveUp⟩ | ⟨n, rfl, hnext, h₃⟩
              · rw [hgaveUp]
                exact ⟨⟨[], _, _, _, hlast, le_rfl,
                  .givesUp (x := ⟨atoms, body⟩) hempty hblocks hadd rfl⟩, h₂.trans ⟨rfl, rfl, rfl⟩⟩
              · obtain ⟨xs, last, b', rest', hconverses, hlength, hcloses⟩ := hnext
                rw [h₂.unrolling] at hconverses hcloses
                exact ⟨⟨⟨atoms, body⟩ :: xs, last, b', rest',
                  .again hask hempty hblocks hadd hconverses, Nat.succ_le_succ hlength,
                  hcloses.succ⟩, h₂.trans h₃⟩

theorem exchanges_solve (length retries : Nat) (p : Planner β κ) :
    p.Exchanges p.unrolling length retries (solve length retries p) ∧
      Persists p (after (solve length retries p)) := by
  induction retries generalizing p with
  | zero =>
      rw [solve_eq]
      exact exchanges_round (fun p' => Or.inl ⟨rfl, _, rfl⟩) p
  | succ retries ih =>
      rw [solve_eq]
      exact exchanges_round (fun p' => Or.inr ⟨retries, rfl, ih p'⟩) p

/-! ### Attempts -/

/-- Steps that were hidden are shown again, whatever has come of it. -/
theorem exchanges_solveMasked (p : Planner β κ) (length : Nat) :
    (¬(length < p.steps → p.Maskable length) ∧
        ∃ e p', p.solveMasked length = .error (.unroll e, p') ∧ p'.backend = p.backend) ∨
      (length < p.steps → p.Maskable length) ∧ ∃ u, u.template = p.unrolling.template ∧
        p.Exchanges u length p.retry.attempts (p.solveMasked length) := by
  unfold solveMasked
  split
  · rename_i hlt
    rcases p.mask_cases length true with ⟨hmaskable, table, hmask⟩ | ⟨hnot, e, p', hmask, hbackend⟩
    · rw [bind_of_ok hmask]
      obtain ⟨hexchanges, hpersists⟩ :=
        exchanges_solve length p.retry.attempts (p.assuming table)
      refine Or.inr ⟨fun _ => hmaskable, p.unrolling.assuming table, rfl, ?_⟩
      -- Hiding depends on the steps but not on the assumptions, so it can be undone.
      have hunmask : ∀ {p'}, Persists (p.assuming table) p' →
          ∃ table', p'.mask length false = .ok (p'.assuming table') := fun h =>
        (mask_cases _ length false).elim And.right fun hnot =>
          absurd (h.maskable hmaskable) hnot.1
      have hretry : (p.assuming table).retry = p.retry := rfl
      rw [hretry]
      generalize solve length p.retry.attempts (p.assuming table) = y at hexchanges hpersists ⊢
      rcases y with ⟨e, p'⟩ | ⟨attempt, p'⟩
      all_goals
        obtain ⟨table', hunmask⟩ : ∃ table', p'.mask length false = .ok (p'.assuming table') :=
          hunmask hpersists
        dsimp only
        rw [bind_of_ok hunmask]
        exact hexchanges.congr rfl rfl rfl
    · rw [bind_of_error hmask]
      exact Or.inl ⟨fun h => hnot (h hlt), e, p', rfl, hbackend⟩
  · rename_i hnot
    exact Or.inr ⟨fun hlt => absurd hlt hnot, p.unrolling, rfl,
      (exchanges_solve length p.retry.attempts p).1⟩

/-- The steps that a length needs are grounded, and those beyond it can be hidden. -/
def Asks (p : Planner β κ) (length : Nat) : Prop :=
  ∃ p', p.prepare length = .ok (true, p') ∧
    (p.usable length < p'.steps → p'.Maskable (p.usable length))

/-- An attempt is given up before anything is asked, or it is a conversation. -/
theorem exchanges_attempt (p : Planner β κ) (length : Nat) :
    ∃ p', Readies p p' ∧
      (¬p.Asks length ∧ (after (p.attempt length)).backend = p'.backend ∧
          (said (p.attempt length) = .ok (.outOfMemory, none) ∨
            ∃ e, said (p.attempt length) = .error (.unroll e)) ∨
        p.Asks length ∧ ∃ u, u.template = p.unrolling.template ∧
          p'.Exchanges u (p.usable length) p.retry.attempts (p.attempt length)) := by
  have hprepare := p.finishes_prepare_readies length
  unfold attempt Asks
  cases hresult : p.prepare length with
  | error result =>
      obtain ⟨e, p'⟩ := result
      rw [hresult] at hprepare
      obtain ⟨hreadies, e', rfl⟩ := hprepare
      exact ⟨p', hreadies, Or.inl ⟨by simp, rfl, Or.inr ⟨e', rfl⟩⟩⟩
  | ok result =>
      obtain ⟨admitted, p'⟩ := result
      rw [hresult] at hprepare
      refine ⟨p', hprepare, ?_⟩
      simp only [bind, Except.bind]
      unfold conclude
      cases admitted with
      | false => exact Or.inl ⟨by simp, rfl, Or.inl rfl⟩
      | true =>
          rw [if_pos rfl, usable_congr hprepare.skip, ← hprepare.retry, ← hprepare.template]
          have hunique : ∀ q, (.ok (true, p') : Except (Failure β κ) (Bool × Planner β κ)) =
              .ok (true, q) → q = p' := by simp [eq_comm]
          set tally := { p'.tally with rules := Backend.ruleCount p'.backend } with htally
          rcases exchanges_solveMasked { p' with tally } (p.usable length) with
            ⟨hnot, e, p'', herror, hbackend⟩ | ⟨hmaskable, hexchanges⟩
          · rw [herror]
            refine Or.inl ⟨?_, hbackend, Or.inr ⟨e, rfl⟩⟩
            rintro ⟨q, heq, hmaskable⟩
            exact hnot (hunique q heq ▸ hmaskable)
          · exact Or.inr ⟨⟨p', rfl, hmaskable⟩, hexchanges⟩

/-- What comes of an attempt is what the solve calls and the check said. If it asks, that is one
conversation within the retries that are allowed: every reply but the last one was a rejection with
atoms, and was blocked by one constraint before the next question. The last reply decides the
result. Otherwise it is given up before it comes to solving. -/
theorem attempt_reports (p : Planner β κ) (length : Nat) :
    ∃ told ms, (∀ m ∈ told, m.isSolve = false) ∧
      Calls p.backend (told ++ ms) (after (p.attempt length)).backend ∧
      ms.countP Message.isSolve ≤ p.retry.attempts + 1 ∧
      (¬p.Asks length ∧ ms = [] ∧ (said (p.attempt length) = .ok (.outOfMemory, none) ∨
          ∃ e, said (p.attempt length) = .error (.unroll e)) ∨
        p.Asks length ∧ ∃ (u : Unrolling) (xs : List Rejection) (last : Reply) (b b' : β)
          (rest : List Message),
          u.template = p.unrolling.template ∧ ms = u.script xs ++ rest ∧ Calls p.backend told b ∧
          u.Converses (p.usable length) b p.check xs last b' (after (p.attempt length)).check ∧
          xs.length ≤ p.retry.attempts ∧
          u.Reports p.retry.attempts xs.length last b' rest (after (p.attempt length)).backend
            (said (p.attempt length))) := by
  obtain ⟨p', hreadies, h⟩ := p.exchanges_attempt length
  obtain ⟨told, hquiet, hcalls⟩ := hreadies.told
  rcases h with ⟨hnot, hbackend, hsaid⟩ | ⟨hasks, u, htemplate, hexchanges⟩
  · refine ⟨told, [], hquiet, ?_, Nat.zero_le _, Or.inl ⟨hnot, rfl, hsaid⟩⟩
    rw [hbackend, List.append_nil]
    exact hcalls
  · obtain ⟨xs, last, b', rest, hconverses, hlength, hcloses⟩ := hexchanges
    exact ⟨told, u.script xs ++ rest, hquiet,
      hcalls.append (hconverses.calls.append hcloses.calls), hcloses.countP_le hlength,
      Or.inr ⟨hasks, u, xs, last, p'.backend, b', rest, htemplate, rfl, hcalls,
        hreadies.check ▸ hconverses, hlength, hcloses.reports⟩⟩

/-- The lamp is rejected at the first step, and there is no other plan of one step. -/
example : (lampReasoner.compile.toOption.any fun t =>
    (make t (⟨Reasoner.empty .unlimited, #[]⟩ : Transcript Reasoner) [] lampSettings
      (some lampScript)).toOption.any fun p =>
        (after (p.attempt 1)).backend.messages.toList.countP Message.isSolve = 2 ∧
          p.retry.attempts = 1) = true := by
  decide +kernel

end Planner

end StablePlan
