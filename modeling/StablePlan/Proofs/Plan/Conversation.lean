import StablePlan.Proofs.Plan.Blocking

/-!
Conversations with a backend and a check. A length is asked for again only after an answer that was
rejected with atoms and blocked, so every reply but the last one is such a rejection; and the last
reply decides what is reported.
-/

namespace StablePlan

/-- What a solve call comes to; of a model, what the check says of its answer. -/
inductive Reply where
  | failed (error : SolveError)
  | unsatisfiable
  | unknown
  | accepted (answer : Answer)
  | rejected (atoms : List (Nat × Symbol))

/-- An answer that was rejected, and the body of the constraint that blocks it. -/
structure Rejection where
  atoms : List (Nat × Symbol)
  body : List Literal

/-! ### Calls -/

section Calls

variable {β : Type} [Backend β] {b b' b'' : β} {ms ms' : List Message}

/-- The calls that lead from one backend to another, whether they fail or not. -/
inductive Calls : β → List Message → β → Prop
  | nil {b : β} : Calls b [] b
  | rule {b b₁ b' : β} {r : Rule} {ms : List Message} :
      Finishes (Backend.addRule b r) (· = b₁) (fun _ x => x = b₁) →
        Calls b₁ ms b' → Calls b (.rule r :: ms) b'
  | weightRule {b b₁ b' : β} {r : WeightRule} {ms : List Message} :
      Finishes (Backend.addWeightRule b r) (· = b₁) (fun _ x => x = b₁) →
        Calls b₁ ms b' → Calls b (.weightRule r :: ms) b'
  | solve {b b₁ b' : β} {assumptions : List Literal} {ms : List Message} :
      (Backend.solve b assumptions).2 = b₁ →
        Calls b₁ ms b' → Calls b (.solve assumptions :: ms) b'

/-- A transcript has got just the messages of the calls. -/
theorem Calls.messages {tr tr' : Transcript β} (h : Calls tr ms tr') :
    tr'.messages.toList = tr.messages.toList ++ ms := by
  induction h with
  | nil => exact (List.append_nil _).symm
  | rule hadd _ ih =>
      rw [ih, Transcript.messages_of_after hadd, Array.toList_push, List.append_assoc]
      rfl
  | weightRule hadd _ ih =>
      rw [ih, Transcript.messages_of_after hadd, Array.toList_push, List.append_assoc]
      rfl
  | solve hsolve _ ih =>
      subst hsolve
      refine ih.trans ?_
      show (Array.push _ _).toList ++ _ = _
      rw [Array.toList_push, List.append_assoc]
      rfl

theorem Calls.append (h : Calls b ms b') (h' : Calls b' ms' b'') : Calls b (ms ++ ms') b'' := by
  induction h with
  | nil => exact h'
  | rule hadd _ ih => exact .rule hadd (ih h')
  | weightRule hadd _ ih => exact .weightRule hadd (ih h')
  | solve hsolve _ ih => exact .solve hsolve (ih h')

def Message.isSolve : Message → Bool
  | .solve _ => true
  | _ => false

/-- The calls that made a backend hear what a template has to say are no solve calls. -/
theorem Attends.calls {t : Template} {query : Nat} (h : Attends t query b b') :
    ∃ told, (∀ m ∈ told, m.isSolve = false) ∧ Calls b told b' := by
  induction h with
  | refl => exact ⟨[], nofun, .nil⟩
  | tail _ hhears ih =>
      obtain ⟨told, hquiet, hcalls⟩ := ih
      obtain ⟨o, -, hhears⟩ := hhears
      cases hhears with
      | @rule r _ _ hadd =>
          refine ⟨told ++ [.rule r], ?_, hcalls.append (.rule hadd .nil)⟩
          simpa [or_imp, forall_and, Message.isSolve] using hquiet
      | @weightRule r _ _ hadd =>
          refine ⟨told ++ [.weightRule r], ?_, hcalls.append (.weightRule hadd .nil)⟩
          simpa [or_imp, forall_and, Message.isSolve] using hquiet

end Calls

/-! ### Conversations -/

namespace Unrolling

variable {β κ : Type} [Backend β] [ModelCheck κ] {u : Unrolling} {length : Nat} {b b' : β}
  {c c' : Option κ} {xs : List Rejection} {last : Reply}

/-- Asks the backend once under the current assumptions, and the check if there is an answer. -/
def ask (u : Unrolling) (length : Nat) (b : β) (check : Option κ) : Reply × β × Option κ :=
  match Backend.solve b u.assumptions with
  | (.error e, b) => (.failed e, b, check)
  | (.ok report, b) =>
    match report.result with
    | .unsatisfiable => (.unsatisfiable, b, check)
    | .unknown => (.unknown, b, check)
    | .satisfiable m =>
      match check with
      | none => (.accepted (u.answer m length), b, none)
      | some c =>
        match ModelCheck.check c (u.answer m length) length with
        | (.accept, c) => (.accepted (u.answer m length), b, some c)
        | (.reject atoms, c) => (.rejected atoms, b, some c)

theorem backend_ask (u : Unrolling) (length : Nat) (b : β) (c : Option κ) :
    (u.ask length b c).2.1 = (Backend.solve b u.assumptions).2 := by
  unfold ask
  split
  · rename_i heq
    rw [heq]
  · rename_i heq
    rw [heq]
    split
    · rfl
    · rfl
    · split
      · rfl
      · split <;> rfl

/-- Asks once, or asks again after an answer that was rejected with atoms and is blocked. -/
inductive Converses (u : Unrolling) (length : Nat) :
    β → Option κ → List Rejection → Reply → β → Option κ → Prop
  | last {b b' : β} {c c' : Option κ} {reply : Reply} :
      u.ask length b c = (reply, b', c') → Converses u length b c [] reply b' c'
  | again {b b₁ b₂ b' : β} {c c₁ c' : Option κ} {x : Rejection} {xs : List Rejection}
      {reply : Reply} : u.ask length b c = (.rejected x.atoms, b₁, c₁) → x.atoms ≠ [] →
        u.Blocks x.atoms x.body → Backend.addRule b₁ (.constraint x.body) = .ok b₂ →
          Converses u length b₂ c₁ xs reply b' c' → Converses u length b c (x :: xs) reply b' c'

/-- The calls of a conversation: after every rejection one constraint, and then one solve call. -/
def script (u : Unrolling) (xs : List Rejection) : List Message :=
  xs.flatMap (fun x => [.solve u.assumptions, .rule (.constraint x.body)]) ++
    [.solve u.assumptions]

theorem Converses.calls (h : u.Converses length b c xs last b' c') :
    Calls b (u.script xs) b' := by
  induction h with
  | @last b b' c c' reply hask =>
      have hbackend := u.backend_ask length b c
      rw [hask] at hbackend
      exact .solve hbackend.symm .nil
  | @again b b₁ b₂ b' c c₁ c' x xs reply hask _ _ hadd _ ih =>
      have hbackend := u.backend_ask length b c
      rw [hask] at hbackend
      exact .solve hbackend.symm (.rule (by rw [hadd]; rfl) ih)

theorem countP_script (u : Unrolling) (xs : List Rejection) :
    (u.script xs).countP Message.isSolve = xs.length + 1 := by
  induction xs with
  | nil => rfl
  | cons x xs ih =>
      show (.solve u.assumptions :: .rule (.constraint x.body) :: u.script xs).countP _ = _
      rw [List.countP_cons_of_pos rfl, List.countP_cons_of_neg Bool.false_ne_true, ih,
        List.length_cons]

/-! ### The end of a conversation -/

/-- How an attempt ends after its last reply, and what is told in between: nothing, or the
constraint that blocks the last answer. -/
inductive Closes (u : Unrolling) (retries rejections : Nat) : Reply → β → List Message → β →
    Except PlanError (Outcome × Option Answer) → Prop
  | failed {b : β} {e : SolveError} :
      Closes u retries rejections (.failed e) b [] b (.error (.solve e))
  | unsatisfiable {b : β} :
      Closes u retries rejections .unsatisfiable b [] b (.ok (.unsatisfiable, none))
  | unknown {b : β} : Closes u retries rejections .unknown b [] b (.ok (.unknown, none))
  | accepted {b : β} {answer : Answer} :
      Closes u retries rejections (.accepted answer) b [] b (.ok (.satisfiable, some answer))
  | pointless {b : β} :
      Closes u retries rejections (.rejected []) b [] b (.ok (.unknown, none))
  | unshown {b : β} {atoms : List (Nat × Symbol)} {a : Nat × Symbol} : a ∈ atoms →
      u.outputLiteral? a.1 a.2 = none →
        Closes u retries rejections (.rejected atoms) b [] b (.error (.unshown a.1 a.2))
  | refused {b b' : β} {x : Rejection} {e : SolveError} : x.atoms ≠ [] →
      u.Blocks x.atoms x.body → Backend.addRule b (.constraint x.body) = .error (e, b') →
        Closes u retries rejections (.rejected x.atoms) b [.rule (.constraint x.body)] b'
          (.error (.solve e))
  | givesUp {b b' : β} {x : Rejection} : x.atoms ≠ [] → u.Blocks x.atoms x.body →
      Backend.addRule b (.constraint x.body) = .ok b' → rejections = retries →
        Closes u retries rejections (.rejected x.atoms) b [.rule (.constraint x.body)] b'
          (.ok (.unknown, none))

variable {retries rejections : Nat} {rest : List Message}
  {result : Except PlanError (Outcome × Option Answer)}

/-- One more rejection is one more retry. -/
theorem Closes.succ (h : u.Closes retries rejections last b rest b' result) :
    u.Closes (retries + 1) (rejections + 1) last b rest b' result := by
  cases h with
  | failed => exact .failed
  | unsatisfiable => exact .unsatisfiable
  | unknown => exact .unknown
  | accepted => exact .accepted
  | pointless => exact .pointless
  | unshown ha hnone => exact .unshown ha hnone
  | refused hne hblocks hadd => exact .refused hne hblocks hadd
  | givesUp hne hblocks hadd heq => exact .givesUp hne hblocks hadd (congrArg (· + 1) heq)

theorem Closes.calls (h : u.Closes retries rejections last b rest b' result) :
    Calls b rest b' := by
  cases h with
  | refused _ _ hadd => exact .rule (by rw [hadd]; rfl) .nil
  | givesUp _ _ hadd _ => exact .rule (by rw [hadd]; rfl) .nil
  | _ => exact .nil

/-- Nothing is asked after the last reply, so there is one question more than there are rejections
before it. -/
theorem Closes.countP_le (h : u.Closes retries xs.length last b rest b' result)
    (hlength : xs.length ≤ retries) :
    (u.script xs ++ rest).countP Message.isSolve ≤ retries + 1 := by
  have hrest : rest.countP Message.isSolve = 0 := by
    cases h <;> rfl
  rw [List.countP_append, countP_script, hrest]
  exact Nat.succ_le_succ hlength

/-- The last answer was rejected with atoms, and this is how it is blocked. -/
structure Rejects (u : Unrolling) (last : Reply) (x : Rejection) : Prop where
  last : last = .rejected x.atoms
  nonempty : x.atoms ≠ []
  blocks : u.Blocks x.atoms x.body

theorem Rejects.eq {x x' : Rejection} (h : u.Rejects last x) (h' : u.Rejects last x') :
    x = x' := by
  obtain ⟨atoms, body⟩ := x
  obtain ⟨atoms', body'⟩ := x'
  obtain rfl : atoms = atoms' := Reply.rejected.inj (h.last.symm.trans h'.last)
  exact congrArg (Rejection.mk atoms) (h.blocks.eq h'.blocks)

theorem rejects_iff {x : Rejection} (hne : x.atoms ≠ []) (hblocks : u.Blocks x.atoms x.body)
    (x' : Rejection) : u.Rejects (.rejected x.atoms) x' ↔ x' = x :=
  ⟨fun h => h.eq ⟨rfl, hne, hblocks⟩, by rintro rfl; exact ⟨rfl, hne, hblocks⟩⟩

/-- All atoms of a rejection that is blocked are shown. -/
theorem Rejects.all_shown {x : Rejection} (h : u.Rejects last x) :
    ¬∃ atoms, last = .rejected atoms ∧ ∃ a ∈ atoms, u.outputLiteral? a.1 a.2 = none := by
  rintro ⟨atoms, hlast, a, ha, hnone⟩
  obtain rfl := Reply.rejected.inj (h.last.symm.trans hlast)
  obtain ⟨l, -, hl⟩ := h.blocks.exists_literal ha
  exact Option.some_ne_none l (hl.symm.trans hnone)

/-- What the last reply has to do with the result, and with what is told after it. -/
structure Reports (u : Unrolling) (retries rejections : Nat) (last : Reply) (b : β)
    (rest : List Message) (b' : β) (result : Except PlanError (Outcome × Option Answer)) :
    Prop where
  satisfiable : ∀ answer?, result = .ok (.satisfiable, answer?) ↔
    ∃ answer, answer? = some answer ∧ last = .accepted answer
  unsatisfiable : ∀ answer?, result = .ok (.unsatisfiable, answer?) ↔
    answer? = none ∧ last = .unsatisfiable
  unknown : ∀ answer?, result = .ok (.unknown, answer?) ↔ answer? = none ∧
    (last = .unknown ∨ last = .rejected [] ∨ rejections = retries ∧
      ∃ x, u.Rejects last x ∧ Backend.addRule b (.constraint x.body) = .ok b')
  unshown : (∃ s label, result = .error (.unshown s label)) ↔
    ∃ atoms, last = .rejected atoms ∧ ∃ a ∈ atoms, u.outputLiteral? a.1 a.2 = none
  failed : ∀ e, result = .error (.solve e) ↔ last = .failed e ∨
    ∃ x, u.Rejects last x ∧ Backend.addRule b (.constraint x.body) = .error (e, b')
  blocks : ∀ x, u.Rejects last x → rest = [.rule (.constraint x.body)]
  quiet : (∀ x, ¬u.Rejects last x) → rest = [] ∧ b' = b

theorem Closes.reports (h : u.Closes retries rejections last b rest b' result) :
    u.Reports retries rejections last b rest b' result := by
  cases h with
  | @failed _ e =>
      have hno : ∀ x, ¬u.Rejects (.failed e) x := fun x hx => nomatch hx.last
      constructor <;> simp [hno]
  | unsatisfiable =>
      have hno : ∀ x, ¬u.Rejects .unsatisfiable x := fun x hx => nomatch hx.last
      constructor <;> simp [hno, eq_comm]
  | unknown =>
      have hno : ∀ x, ¬u.Rejects .unknown x := fun x hx => nomatch hx.last
      constructor <;> simp [hno, eq_comm]
  | @accepted _ answer =>
      have hno : ∀ x, ¬u.Rejects (.accepted answer) x := fun x hx => nomatch hx.last
      constructor <;> simp [hno, eq_comm]
  | pointless =>
      have hno : ∀ x, ¬u.Rejects (.rejected []) x := fun x hx =>
        hx.nonempty (Reply.rejected.inj hx.last).symm
      constructor <;> simp [hno, eq_comm]
  | @unshown _ atoms a ha hnone =>
      have hunshown : ∃ atoms', Reply.rejected atoms = .rejected atoms' ∧
          ∃ a ∈ atoms', u.outputLiteral? a.1 a.2 = none := ⟨atoms, rfl, a, ha, hnone⟩
      have hno : ∀ x, ¬u.Rejects (.rejected atoms) x := fun x hx => hx.all_shown hunshown
      constructor
      case unshown => exact iff_of_true ⟨_, _, rfl⟩ hunshown
      all_goals simp [hno, List.ne_nil_of_mem ha]
  | @refused _ _ x e hne hblocks hadd =>
      have hx := rejects_iff hne hblocks
      constructor
      case unshown => exact iff_of_false (by simp) ((hx x).mpr rfl).all_shown
      all_goals simp [hx, hne, hadd]
  | @givesUp _ _ x hne hblocks hadd heq =>
      have hx := rejects_iff hne hblocks
      constructor
      case unshown => exact iff_of_false (by simp) ((hx x).mpr rfl).all_shown
      all_goals simp [hx, hadd, heq, eq_comm]

end Unrolling

end StablePlan
