import StablePlan.Proofs.Plan.Blocking
import StablePlan.Proofs.Stable.Constraints

/-!
What becomes of a rejected plan. The constraint that blocks it stays with the reasoner, so no model
that is found later has all of its literals. A label stands for one literal only: where it is the
output of several indices, the plan can come back through another one of them.
-/

namespace StablePlan

/-- The model that a search has found. -/
def Notice.found? : Notice → Option Model
  | .searched report =>
    match report.result with
    | .satisfiable m => some m
    | _ => none
  | _ => none

theorem Notice.result_of_found? {report : SolveReport} {m : Model}
    (h : (Notice.searched report).found? = some m) : report.result = .satisfiable m := by
  obtain ⟨result, decisions⟩ := report
  cases result with
  | satisfiable m' => exact congrArg _ (Option.some.inj h)
  | unsatisfiable => cases h
  | unknown => cases h

theorem Notice.IsQuiet.found? {n : Notice} (h : n.IsQuiet) : n.found? = none := by
  cases n with
  | searched report => exact h.elim
  | _ => rfl

namespace Reasoner

variable {r r' : Reasoner} {o : Observation} {c : Clause} {body : List Literal}

theorem Ranged.grown (h : r.Ranged) (hgrown : Grown r r') : r'.Ranged := by
  have heq := hgrown.eq
  refine ⟨?_, fun c hc => ?_⟩
  · rw [heq]
    exact h.externals
  · have hc' : c ∈ r.clauses.toList := by
      rw [heq] at hc
      exact hc
    exact (h.clauses c hc').mono hgrown.le

/-- What is told is added to the clauses, unless it is refused. -/
theorem Ranged.finishes_take (h : r.Ranged) (hrule : o.rule? = some c) :
    Finishes ((r.noteAtoms o.atoms).map (·.addClauses c.shifted))
      (fun r' => r'.Ranged ∧ r'.clauses.toList = r.clauses.toList ++ c.shifted)
      (fun _ r' => r'.Ranged ∧ r'.clauses.toList = r.clauses.toList) := by
  cases hnote : r.noteAtoms o.atoms with
  | error result =>
      have hgrown := grown_of_noteAtoms_error hnote
      exact ⟨h.grown hgrown, by rw [hgrown.eq]⟩
  | ok noted =>
      obtain ⟨hgrown, hrange⟩ := grown_noteAtoms hnote
      have hclauses : noted.clauses.toList = r.clauses.toList := by rw [hgrown.eq]
      have hadded : (noted.addClauses c.shifted).clauses.toList =
          r.clauses.toList ++ c.shifted := by
        rw [← hclauses]
        exact Array.toList_appendList
      refine ⟨⟨(h.grown hgrown).externals, fun d hd => ?_⟩, hadded⟩
      rw [hadded, ← hclauses, List.mem_append] at hd
      rcases hd with hd | hd
      · exact (h.grown hgrown).clauses d hd
      · refine o.ranged_of_mem_clauses hrange ?_
        unfold Observation.clauses
        rw [hrule]
        simpa using hd

/-- Nothing that was told is forgotten. -/
theorem Ranged.hears (h : r.Ranged) (hhears : Hears o r r') :
    r'.Ranged ∧ r.clauses.toList ⊆ r'.clauses.toList := by
  have htake : ∀ {o : Observation} {c : Clause}, o.rule? = some c →
      Finishes ((r.noteAtoms o.atoms).map (·.addClauses c.shifted))
        (fun r' => r'.Ranged ∧ r.clauses.toList ⊆ r'.clauses.toList)
        (fun _ r' => r'.Ranged ∧ r.clauses.toList ⊆ r'.clauses.toList) := fun hrule =>
    (h.finishes_take hrule).mono
      (fun _ ⟨hr, heq⟩ => ⟨hr, heq ▸ List.subset_append_left _ _⟩)
      fun _ _ ⟨hr, heq⟩ => ⟨hr, heq ▸ List.Subset.refl _⟩
  cases hhears with
  | rule hrule =>
      refine Finishes.of_eq (P := fun r' => r'.Ranged ∧ r.clauses.toList ⊆ r'.clauses.toList) ?_
        hrule
      change Finishes (r.addRule _) _ _
      rw [addRule_eq]
      exact htake rfl
  | weightRule hrule =>
      refine Finishes.of_eq (P := fun r' => r'.Ranged ∧ r.clauses.toList ⊆ r'.clauses.toList) ?_
        hrule
      change Finishes (r.addWeightRule _) _ _
      rw [addWeightRule_eq]
      exact htake rfl

/-- A constraint about atoms is not refused. -/
theorem mem_clauses_of_hears (hhears : Hears (.rule (.constraint body)) r r')
    (hbody : ∀ l ∈ body, l.atom ≠ 0) : ⟨false, [], body, none⟩ ∈ r'.clauses.toList := by
  have hatoms : 0 ∉ (Observation.rule (.constraint body)).atoms := by
    intro hmem
    obtain ⟨l, hl, hzero⟩ := List.mem_map.mp hmem
    exact hbody l hl hzero
  obtain ⟨noted, hnote⟩ := noteAtoms_ok hatoms r
  cases hhears with
  | rule hrule =>
      change Finishes (r.addRule _) _ _ at hrule
      rw [addRule_eq, hnote] at hrule
      obtain rfl : noted.addClauses _ = r' := hrule
      show _ ∈ (noted.clauses ++ (Rule.constraint body).clause.shifted).toList
      rw [Array.toList_appendList]
      exact List.mem_append_right _ List.mem_cons_self

end Reasoner

namespace Planner

variable {κ : Type} {u u' : Unrolling} {x y : Notice} {notices : List Notice}

/-- What the later notice has found does not have the literals of what the earlier one rejected. -/
def Avoids (u : Unrolling) (x y : Notice) : Prop :=
  ∀ n atoms body m, x = .rejected n atoms → atoms ≠ [] → u.Blocks atoms body →
    y.found? = some m → ∃ l ∈ body, ¬m.holds l

theorem Avoids.congr (h : Avoids u x y) (hu : u'.template = u.template) : Avoids u' x y :=
  fun n atoms body m hx hne hblocks => h n atoms body m hx hne (hblocks.congr hu.symm)

theorem avoids_of_found?_eq_none (hy : y.found? = none) : Avoids u x y :=
  fun _ _ _ _ _ _ _ hfound => absurd (hy.symm.trans hfound) (by simp)

/-- The reasoner has the constraints of all rejections, and no search after a rejection has found
what was blocked. -/
structure Remembers (p : Planner Reasoner κ) : Prop where
  ranged : p.backend.Ranged
  blocked : ∀ n atoms body, .rejected n atoms ∈ p.journal → atoms ≠ [] →
    p.unrolling.Blocks atoms body → ⟨false, [], body, none⟩ ∈ p.backend.clauses.toList
  avoids : p.journal.toList.Pairwise (Avoids p.unrolling)

variable {p p' p₀ : Planner Reasoner κ}

/-- The journal goes on, and nothing was found that was blocked before. -/
theorem Remembers.next (h : p.Remembers) (hranged : p'.backend.Ranged)
    (hclauses : p.backend.clauses.toList ⊆ p'.backend.clauses.toList)
    (htemplate : p'.unrolling.template = p.unrolling.template)
    (hjournal : p'.journal.toList = p.journal.toList ++ notices)
    (hrejected : ∀ n atoms, .rejected n atoms ∉ notices)
    (hfound : ∀ x ∈ p.journal.toList, ∀ y ∈ notices, Avoids p.unrolling x y) :
    p'.Remembers := by
  refine ⟨hranged, fun n atoms body hmem hne hblocks => ?_, ?_⟩
  · refine hclauses (h.blocked n atoms body ?_ hne (hblocks.congr htemplate.symm))
    rw [← Array.mem_toList_iff, hjournal, List.mem_append] at hmem
    exact Array.mem_toList_iff.mp (hmem.resolve_right (hrejected n atoms))
  · have hpairwise : p'.journal.toList.Pairwise (Avoids p.unrolling) := by
      rw [hjournal]
      refine List.pairwise_append.mpr ⟨h.avoids, ?_, hfound⟩
      refine List.pairwise_iff_forall_sublist.mpr fun {x y} hsub n atoms body m hx => ?_
      exact absurd (hx ▸ hsub.subset List.mem_cons_self) (hrejected n atoms)
    exact hpairwise.imp fun havoids => havoids.congr htemplate

/-- A rejection is remembered together with its constraint. -/
theorem Remembers.reject (h : p.Remembers) {check : κ} {n : Nat} {atoms : List (Nat × Symbol)}
    {backend : Reasoner} (hranged : backend.Ranged)
    (hclauses : p.backend.clauses.toList ⊆ backend.clauses.toList)
    (hblocked : ∀ body, atoms ≠ [] → p.unrolling.Blocks atoms body →
      ⟨false, [], body, none⟩ ∈ backend.clauses.toList) :
    { p.noteRejected check n atoms with backend }.Remembers := by
  refine ⟨hranged, fun n' atoms' body hmem hne hblocks => ?_, ?_⟩
  · rcases Array.mem_push.mp hmem with hmem | heq
    · exact hclauses (h.blocked n' atoms' body hmem hne hblocks)
    · obtain ⟨rfl, rfl⟩ := Notice.rejected.inj heq
      exact hblocked body hne hblocks
  · show (p.journal.push (.rejected n atoms)).toList.Pairwise _
    rw [Array.toList_push]
    refine List.pairwise_append.mpr ⟨h.avoids, List.pairwise_singleton _ _, fun x _ y hy => ?_⟩
    obtain rfl := List.mem_singleton.mp hy
    exact avoids_of_found?_eq_none rfl

variable {t : Template} {limit : Limit} {readings : List Nat} {settings : Settings}
  {check : Option κ} {n : Nat} {atoms : List (Nat × Symbol)} {m : Model}

/-- A new planner has nothing to remember. -/
theorem Remembers.of_make (h : make t (Reasoner.empty limit) readings settings check = .ok p) :
    p.Remembers := by
  obtain ⟨-, -, -, -, -, -, hbackend, -⟩ := make_eq_ok h
  have hjournal := journal_of_make h
  refine ⟨?_, fun n atoms body hmem => ?_, ?_⟩
  · rw [hbackend]
    exact ⟨rfl, nofun⟩
  · rw [hjournal] at hmem
    exact absurd hmem (Array.not_mem_empty _)
  · rw [hjournal]
    exact List.Pairwise.nil

variable [ModelCheck κ]

theorem Remembers.happens (h : p.Remembers) (hp : Happens p p') : p'.Remembers := by
  cases hp with
  | drifts hdrifts =>
      obtain ⟨notices, hjournal, hquiet⟩ := hdrifts.journal
      refine h.next (hdrifts.backend ▸ h.ranged) (by rw [hdrifts.backend]; exact .refl _)
        hdrifts.template hjournal (fun n atoms hmem => hquiet _ hmem) fun x _ y hy => ?_
      exact avoids_of_found?_eq_none (hquiet y hy).found?
  | hears hdue hhears =>
      obtain ⟨hranged, hclauses⟩ := h.ranged.hears hhears
      exact h.next hranged hclauses rfl (List.append_nil _).symm nofun nofun
  | @asks report b hsolve =>
      obtain ⟨hreport, rfl⟩ := Prod.mk.inj hsolve
      have hjournal : (p.note (.searched report)).journal.toList =
          p.journal.toList ++ [.searched report] := Array.toList_push
      refine h.next h.ranged (.refl _) rfl hjournal (by simp) fun x hx y hy => ?_
      rintro n atoms body m rfl hne hblocks hfound
      obtain rfl := List.mem_singleton.mp hy
      -- The constraint was told when the rejection was noted, and no model violates it.
      have hconstraint := h.blocked n atoms body (Array.mem_toList_iff.mp hx) hne hblocks
      exact h.ranged.exists_not_holds hreport (Notice.result_of_found? hfound) hconstraint
  | asksInVain hsolve =>
      obtain ⟨-, rfl⟩ := Prod.mk.inj hsolve
      exact h.next h.ranged (.refl _) rfl (List.append_nil _).symm nofun nofun
  | accepts hcheck hverdict =>
      exact h.next h.ranged (.refl _) rfl (List.append_nil _).symm nofun nofun
  | rejects hrejects hreason =>
      refine h.reject h.ranged (.refl _) fun body hne hblocks => ?_
      rcases hreason with hnil | ⟨a, ha, hnone⟩
      · exact absurd hnil hne
      · obtain ⟨l, -, hl⟩ := hblocks.exists_literal ha
        exact absurd (hl.symm.trans hnone) (by simp)
  | blocks hrejects hblocks hhears =>
      obtain ⟨hranged, hclauses⟩ := h.ranged.hears hhears
      have hmem := Reasoner.mem_clauses_of_hears hhears fun l hl => ne_zero_of_mem_block hblocks hl
      refine h.reject hranged hclauses fun body' _ hblocks' => ?_
      exact Unrolling.Blocks.eq hblocks hblocks' ▸ hmem

theorem Remembers.course (h : p.Remembers) (hp : Course p p') : p'.Remembers := by
  induction hp with
  | refl => exact h
  | tail _ hp ih => exact ih.happens hp

/-- A rejected plan is not found again. Whatever the template, the check, the limits and the
attempts are, a model that is found after a rejection, at any length, does not have all the literals
under which the atoms are blocked. It shows all of these atoms again only if one of their labels
stands at several indices. -/
theorem rejected_not_found_again
    (hmake : make t (Reasoner.empty limit) readings settings check = .ok p₀)
    (hreached : Attempted p₀ p) (hlater : [.rejected n atoms, y].Sublist p.journal.toList)
    (hne : atoms ≠ []) (hfound : y.found? = some m) :
    (∀ body, p.unrolling.Blocks atoms body → ∃ l ∈ body, ¬m.holds l) ∧
      ((∀ a ∈ atoms, t.HasOneIndex a.2) → ∀ last, ¬atoms ⊆ (p.unrolling.answer m last).atoms) := by
  have hcourse := hreached.course
  have htemplate : p.unrolling.template = t := by
    rw [hcourse.template, (make_eq_ok hmake).2.2.2.2.2.1]
  have h := (Remembers.of_make hmake).course hcourse
  have havoids : Avoids p.unrolling (.rejected n atoms) y :=
    List.pairwise_iff_forall_sublist.mp h.avoids hlater
  refine ⟨fun body hblocks => havoids n atoms body m rfl hne hblocks hfound, ?_⟩
  intro hone last hshown
  -- What the model shows would hold under the literals that are blocked.
  have hliterals : ∀ a ∈ atoms, ∃ l, p.unrolling.outputLiteral? a.1 a.2 = some l ∧ m.holds l :=
    fun a ha => Unrolling.exists_outputLiteral? (htemplate ▸ hone a ha) (hshown ha)
  obtain ⟨body, hblocks⟩ : ∃ body, p.unrolling.Blocks atoms body :=
    exists_map_some fun a ha => (hliterals a ha).imp fun _ => And.left
  obtain ⟨l, hl, hnot⟩ := havoids n atoms body m rfl hne hblocks hfound
  obtain ⟨a, ha, hliteral⟩ := hblocks.exists_atom hl
  obtain ⟨l', hliteral', hholds⟩ := hliterals a ha
  obtain rfl := Option.some.inj (hliteral.symm.trans hliteral')
  exact hnot hholds

/-- The step with both actions was rejected, and the model that is found for two steps has both at
the other one. -/
theorem rejected_not_found_again_clashProgram : ∃ r t p₀ y m,
    (Reasoner.empty .unlimited).load clashProgram = .ok r ∧ r.compile = .ok t ∧
    make t (Reasoner.empty .unlimited) [] lampSettings (some clashCheck) = .ok p₀ ∧
    [.rejected 1 clashAtoms, y].Sublist
      (after ((after (p₀.attempt 1)).attempt 2)).journal.toList ∧
    clashAtoms ≠ [] ∧ y.found? = some m ∧ (∀ a ∈ clashAtoms, t.HasOneIndex a.2) ∧
    ∀ last, ¬clashAtoms ⊆
      ((after ((after (p₀.attempt 1)).attempt 2)).unrolling.answer m last).atoms := by
  obtain ⟨r, hload, h⟩ := exists_ok_of_any (x := (Reasoner.empty .unlimited).load clashProgram)
    (f := fun r => r.compile.toOption.any fun t => (∀ a ∈ clashAtoms, t.HasOneIndex a.2) &&
      (make t (Reasoner.empty .unlimited) [] lampSettings (some clashCheck)).toOption.any fun p =>
        let journal := (after ((after (p.attempt 1)).attempt 2)).journal.toList
        ∃ y ∈ journal, y.found?.isSome ∧ [.rejected 1 clashAtoms, y].Sublist journal)
    (by decide +kernel)
  obtain ⟨t, hcompile, h⟩ := exists_ok_of_any h
  rw [Bool.and_eq_true, decide_eq_true_eq] at h
  obtain ⟨hone, h⟩ := h
  obtain ⟨p₀, hmake, h⟩ := exists_ok_of_any h
  obtain ⟨y, -, hfound, hlater⟩ := of_decide_eq_true h
  obtain ⟨m, hfound⟩ := Option.isSome_iff_exists.mp hfound
  have hne : clashAtoms ≠ [] := by decide
  exact ⟨r, t, p₀, y, m, hload, hcompile, hmake, hlater, hne, hfound, hone,
    (rejected_not_found_again hmake (.attempt 2 (.attempt 1 .start)) hlater hne hfound).2 hone⟩

end Planner

/-! ### A label at two indices -/

/-- Two actions in each other's way, of which one is the output of two indices. The goal needs only
the second of these. -/
def twinProgram : List Statement := [
  .external 1 .free, .output (.constant "query") [.positive 1],
  .rule ⟨true, [2, 3, 4], []⟩, .output (.function "occurs" [.constant "a"]) [.positive 2],
  .output (.function "occurs" [.constant "a"]) [.positive 3],
  .output (.function "occurs" [.constant "b"]) [.positive 4],
  .rule ⟨false, [], [.positive 1, .negative 3]⟩, .rule ⟨false, [], [.positive 1, .negative 4]⟩]

namespace Planner

/-- The constraint that blocks the rejected plan is about the first index of the label, and the plan
is found again at once through the second one. -/
theorem rejected_found_again_twinProgram : ∃ r t p₀ p,
    (Reasoner.empty .unlimited).load twinProgram = .ok r ∧ r.compile = .ok t ∧
    make t (Reasoner.empty .unlimited) [] lampSettings (some clashCheck) = .ok p₀ ∧
    p = after (p₀.attempt 1) ∧
    ∃ body, p.unrolling.Blocks clashAtoms body ∧
      ⟨false, [], body, none⟩ ∈ p.backend.clauses.toList ∧
      ∃ x y m m', [x, .rejected 1 clashAtoms, y].Sublist p.journal.toList ∧
        x.found? = some m ∧ y.found? = some m' ∧
        clashCheck.check (p.unrolling.answer m 1) 1 = .reject clashAtoms ∧
        clashAtoms ⊆ (p.unrolling.answer m 1).atoms ∧
        clashAtoms ⊆ (p.unrolling.answer m' 1).atoms := by
  obtain ⟨r, hload, h⟩ := exists_ok_of_any (x := (Reasoner.empty .unlimited).load twinProgram)
    (f := fun r => r.compile.toOption.any fun t => (make t (Reasoner.empty .unlimited) []
      lampSettings (some clashCheck)).toOption.any fun p₀ =>
        let p := after (p₀.attempt 1)
        let body : List Literal := [.positive 6, .positive 8]
        clashAtoms.map (fun a => p.unrolling.outputLiteral? a.1 a.2) = body.map some ∧
          ⟨false, [], body, none⟩ ∈ p.backend.clauses.toList ∧
          ∃ x ∈ p.journal.toList, ∃ y ∈ p.journal.toList,
            [x, .rejected 1 clashAtoms, y].Sublist p.journal.toList ∧
            (∃ m ∈ x.found?, clashCheck.check (p.unrolling.answer m 1) 1 = .reject clashAtoms ∧
              clashAtoms ⊆ (p.unrolling.answer m 1).atoms) ∧
            ∃ m ∈ y.found?, clashAtoms ⊆ (p.unrolling.answer m 1).atoms)
    (by decide +kernel)
  obtain ⟨t, hcompile, h⟩ := exists_ok_of_any h
  obtain ⟨p₀, hmake, h⟩ := exists_ok_of_any h
  obtain ⟨hblocks, htold, x, -, y, -, hlater, ⟨m, hx, hcheck, hm⟩, m', hy, hm'⟩ :=
    of_decide_eq_true h
  exact ⟨r, t, p₀, _, hload, hcompile, hmake, rfl, _, hblocks, htold, x, y, m, m', hlater, hx, hy,
    hcheck, hm, hm'⟩

end Planner

end StablePlan
