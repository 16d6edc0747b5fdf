import StablePlan.Proofs.Plan.Search
import StablePlan.Proofs.Unrolling.Recording

/-!
The steering externals are always in order. Whatever attempts a planner has made, and however they
ended, between attempts the query is assumed true at the last step and nothing else is; and every
solve call of an attempt is made under the assumptions that belong to its length. It does not
matter what the backend answers, as long as it takes rules, as a reasoner does.
-/

namespace StablePlan

namespace Template

variable {t : Template} {assumptions : List Literal} {symbol : Symbol} {s k : Nat} {v : Bool}

/-- The external with the label is assumed to have a value at a step. -/
def Assumes (t : Template) (assumptions : List Literal) (symbol : Symbol) (s : Nat) (v : Bool) :
    Prop :=
  ∃ k l, t.external? symbol = some k ∧ t.literal? s k = some l ∧
    (if v then l else l.negate) ∈ assumptions

/-- The external with the label was made false at a step for good. -/
def Releases (t : Template) (messages : Array Message) (symbol : Symbol) (s : Nat) : Prop :=
  ∃ k l, t.external? symbol = some k ∧ t.literal? s k = some l ∧
    .rule (.constraint [l]) ∈ messages

/-- The assumptions for a plan of some length within `n` steps. With skip the query is assumed at
the last step and skip at the steps beyond the plan; without it the query is assumed where the plan
ends. Nothing else is assumed true. -/
def Masks (t : Template) (query skip : Symbol) (n length : Nat) (assumptions : List Literal) :
    Prop :=
  ∀ symbol, (t.external? symbol).isSome → ∀ s,
    t.Assumes assumptions symbol s true ↔ (1 ≤ s ∧ s ≤ n) ∧
      (symbol = query ∧ s = t.goal skip n length ∨ symbol = skip ∧ length < s)

end Template

namespace Planner

section Assumptions

variable {β κ : Type} {p : Planner β κ} {t : Template} {symbol : Symbol} {length s k : Nat}
  {v : Bool}

/-- The assumptions are the values of the switches. -/
theorem Steers.assumes_iff (h : p.Steers t length) (hlaid : t.Laid)
    (hk : t.external? symbol = some k) :
    t.Assumes p.unrolling.assumptions symbol s v ↔ p.unrolling.value? s k = some v := by
  have hassumable := h.assumable hlaid
  have hhandle : t.IsHandle k := ⟨symbol, Template.mem_of_external?_eq_some hk⟩
  unfold Template.Assumes
  constructor
  · rintro ⟨j, l, hj, hl, hmem⟩
    obtain rfl := Option.some.inj (hk.symm.trans hj)
    obtain ⟨s', k', v', hv, heq⟩ :=
      (Unrolling.mem_assumptions_iff h.sorted hassumable).mp hmem
    rw [h.template] at heq
    have hrange := hlaid.handle_range k hhandle
    have hrange' := hlaid.handle_range k' (h.values s' k' v' hv).1.2
    obtain rfl : Literal.positive (s * t.period + k) = l := by
      unfold Template.literal? Literal.checked at hl
      split at hl
      · exact Option.some.inj hl
      · cases hl
    -- The literal has a sign and an atom, and the atom lies in one band only.
    obtain ⟨rfl, hatom⟩ := Literal.signed_injective (by omega) heq
    obtain ⟨rfl, rfl⟩ := Template.eq_of_mul_add_eq hrange hrange' hatom
    exact hv
  · intro hv
    refine ⟨k, .positive (s * t.period + k), hk, ?_, ?_⟩
    · have hrange := hassumable s k v hv
      rw [h.template] at hrange
      exact if_pos hrange
    · refine (Unrolling.mem_assumptions_iff h.sorted hassumable).mpr ⟨s, k, v, hv, ?_⟩
      rw [h.template]
      rfl

theorem Steers.masks (h : p.Steers t length) (hlaid : t.Laid) {query skip : Symbol}
    (hquery : t.external? query = some p.query) (hskip : p.skip = t.external? skip) :
    t.Masks query skip p.steps length p.unrolling.assumptions := by
  intro symbol hsymbol s
  obtain ⟨k, hk⟩ := Option.isSome_iff_exists.mp hsymbol
  have hhandle : t.IsHandle k := ⟨symbol, Template.mem_of_external?_eq_some hk⟩
  rw [h.assumes_iff hlaid hk, ← hlaid.wants_iff hquery hk, ← hskip]
  constructor
  · intro hv
    obtain ⟨⟨hs, -⟩, hwants⟩ := h.values s k true hv
    exact ⟨hs, hwants.mp rfl⟩
  · rintro ⟨⟨hs, hle⟩, hwants⟩
    cases hv : p.unrolling.value? s k with
    | some v => rw [(h.values s k v hv).2.mpr hwants]
    | none =>
        -- Only a query may be left open, and only where it is not wanted.
        obtain ⟨rfl, -⟩ := h.complete s k hs hle hhandle hv
        exact absurd hwants (h.not_wants_of_released ⟨⟨hs, hle⟩, hv⟩)

end Assumptions

variable {β κ : Type} {p p₀ : Planner (Transcript β) κ} {t : Template} {query skip : Symbol}

/-- What is assumed between attempts. The query is true at the last step, and false or released at
every other one; every other external with a handle is false. -/
structure InOrder (p : Planner (Transcript β) κ) (t : Template) (query : Symbol) : Prop where
  last : 0 < p.steps → t.Assumes p.unrolling.assumptions query p.steps true
  earlier : ∀ s, 1 ≤ s → s < p.steps → t.Assumes p.unrolling.assumptions query s false ∨
    t.Releases p.backend.messages query s
  others : ∀ symbol, symbol ≠ query → (t.external? symbol).isSome → ∀ s, 1 ≤ s → s ≤ p.steps →
    t.Assumes p.unrolling.assumptions symbol s false
  only : ∀ symbol s, t.Assumes p.unrolling.assumptions symbol s true →
    (symbol = query ∧ s = p.steps) ∧ ¬t.Assumes p.unrolling.assumptions symbol s false

/-- A planner between attempts, with a transcript of all that the backend was told. -/
structure Recorded (p : Planner (Transcript β) κ) (t : Template) (query skip : Symbol) : Prop where
  steers : p.Steers t p.steps
  told : ∃ blocked, ∀ o, o ∈ p.backend.messages.toList.filterMap Message.told? ↔
    o ∈ p.unrolling.told ∨ ∃ body ∈ p.releases ∪ blocked, o = .rule (.constraint body)
  query : t.external? query = some p.query
  skip : p.skip = t.external? skip

/-- Where nothing is assumed of the query any more, the transcript says that it is false. -/
theorem Recorded.releases (h : p.Recorded t query skip) (hlaid : t.Laid) {s : Nat}
    (hs : p.Released s) : t.Releases p.backend.messages query s := by
  obtain ⟨blocked, htold⟩ := h.told
  have hmem := (htold (.rule (.constraint [.positive (s * t.period + p.query)]))).mpr
    (Or.inr ⟨_, Or.inl ⟨s, hs, by rw [h.steers.template]⟩, rfl⟩)
  obtain ⟨message, hmessage, htold'⟩ := List.mem_filterMap.mp hmem
  have hfits : t.fits p.unrolling.steps := h.steers.fits (hs.1.1.trans hs.1.2)
  have hrange := Unrolling.inRange_handle (h.steers.template.symm ▸ hlaid)
    (h.steers.template.symm ▸ hfits) (show s ≤ p.unrolling.steps from hs.1.2)
    (h.steers.template.symm ▸ h.steers.query)
  rw [h.steers.template] at hrange
  refine ⟨p.query, .positive (s * t.period + p.query), h.query, if_pos hrange, ?_⟩
  cases message with
  | rule r =>
      obtain rfl := Observation.rule.inj (Option.some.inj htold')
      exact Array.mem_toList_iff.mp hmessage
  | weightRule r => cases htold'
  | solve assumptions => cases htold'

theorem Recorded.inOrder (h : p.Recorded t query skip) (hlaid : t.Laid) : p.InOrder t query := by
  have hvalue : ∀ {s k}, 1 ≤ s → s ≤ p.steps → t.IsHandle k →
      (∃ v, p.unrolling.value? s k = some v ∧ (v = true ↔ k = p.query ∧ s = p.steps)) ∨
        k = p.query ∧ s < p.steps ∧ p.unrolling.value? s k = none := by
    intro s k hs hle hk
    cases hv : p.unrolling.value? s k with
    | some v => exact Or.inl ⟨v, rfl, (h.steers.values s k v hv).2.trans (wants_self_iff hle)⟩
    | none =>
        obtain ⟨hquery, -, hlt⟩ := h.steers.complete s k hs hle hk hv
        exact Or.inr ⟨hquery, hlt, rfl⟩
  have hassumes : ∀ {symbol k s v}, t.external? symbol = some k →
      (t.Assumes p.unrolling.assumptions symbol s v ↔ p.unrolling.value? s k = some v) :=
    h.steers.assumes_iff hlaid
  constructor
  · intro hpos
    rw [hassumes h.query]
    rcases hvalue hpos le_rfl h.steers.query with ⟨v, hv, htrue⟩ | ⟨-, hlt, -⟩
    · rw [hv, htrue.mpr ⟨rfl, rfl⟩]
    · exact absurd hlt (lt_irrefl _)
  · intro s hs hlt
    rcases hvalue hs hlt.le h.steers.query with ⟨v, hv, htrue⟩ | ⟨-, -, hnone⟩
    · left
      rw [hassumes h.query, hv]
      have hne : v ≠ true := fun heq => hlt.ne (htrue.mp heq).2
      exact congrArg some (Bool.eq_false_of_not_eq_true hne)
    · exact Or.inr (h.releases hlaid ⟨⟨hs, hlt.le⟩, hnone⟩)
  · intro symbol hne hsymbol s hs hle
    obtain ⟨k, hk⟩ := Option.isSome_iff_exists.mp hsymbol
    have hmem := Template.mem_of_external?_eq_some hk
    have hquery : k ≠ p.query := by
      rintro rfl
      exact hne (hlaid.symbol_eq _ _ _ hmem (Template.mem_of_external?_eq_some h.query))
    rw [hassumes hk]
    rcases hvalue hs hle ⟨symbol, hmem⟩ with ⟨v, hv, htrue⟩ | ⟨heq, -⟩
    · rw [hv]
      exact congrArg some (Bool.eq_false_of_not_eq_true fun heq => hquery (htrue.mp heq).1)
    · exact absurd heq hquery
  · intro symbol s htrue
    obtain ⟨k, -, hk, -⟩ := id htrue
    rw [hassumes hk] at htrue ⊢
    obtain ⟨⟨⟨hs, hle⟩, -⟩, hwants⟩ := h.steers.values s k true htrue
    obtain ⟨rfl, rfl⟩ := (wants_self_iff hle).mp (hwants.mp rfl)
    refine ⟨⟨?_, rfl⟩, by simp [htrue]⟩
    exact hlaid.symbol_eq _ _ _ (Template.mem_of_external?_eq_some hk)
      (Template.mem_of_external?_eq_some h.query)

variable [Backend β] [ModelCheck κ]

/-- What an attempt leaves. Every solve call since was made under the assumptions for its length. -/
structure Orders (t : Template) (query skip : Symbol) (length : Nat)
    (p p' : Planner (Transcript β) κ) : Prop where
  recorded : p'.Recorded t query skip
  solves : ∃ new, p'.backend.messages = p.backend.messages ++ new ∧ ∀ assumptions,
    .solve assumptions ∈ new → t.Masks query skip p'.steps length assumptions

theorem Recorded.finishes_attempt (h : p.Recorded t query skip) (hlaid : t.Laid)
    (htakes : TakesRules β) (length : Nat) :
    Finishes (p.attempt length)
      (fun r => Orders t query skip (p.usable length) p r.2 ∧
        (r.1.outcome = .outOfMemory → Resembles p r.2))
      (fun e p' => Orders t query skip (p.usable length) p p' ∧
        ∀ s, e = .unroll (.atomOverflow s) → Resembles p p') := by
  obtain ⟨blocked, htold⟩ := h.told
  -- The account that starts with what was said so far.
  set K : Ledger (Transcript β) := Transcript.ledger htakes p.backend.messages
    (t.Masks query skip (p.needed length) (p.usable length)) with hK
  have htoldK : p.Told K blocked := ⟨_, Transcript.Logs.start, htold⟩
  have hfinishes := h.steers.finishes_attempt htoldK hlaid length
    fun q hq hquery hskip hsteps => by
      have hmasks := hq.masks hlaid (hquery ▸ h.query) (hskip.trans h.skip)
      rw [hsteps] at hmasks
      exact hmasks
  have hkeeps : ∀ {p' blocked'}, p'.steps = p.needed length →
      Keeps K t p'.steps blocked p p' blocked' →
        Orders t query skip (p.usable length) p p' := by
    intro p' blocked' hsteps hkeeps
    obtain ⟨log, ⟨hgrown, hlog⟩, hmem⟩ := hkeeps.told
    refine ⟨⟨hkeeps.steers, ⟨blocked', hlog ▸ hmem⟩, hkeeps.continues.query ▸ h.query,
      hkeeps.continues.skip.trans h.skip⟩, ?_⟩
    rw [hsteps]
    exact hgrown
  have hsame : ∀ {p'}, Resembles p p' → Orders t query skip (p.usable length) p p' := by
    intro p' hsame
    have hrecorded := Keeps.of_resembles h.steers htoldK hsame
    refine ⟨⟨hsame.steps.symm ▸ hrecorded.steers, ?_, hsame.query ▸ h.query,
      hsame.skip.trans h.skip⟩, #[], by rw [hsame.backend, Array.append_empty], by simp⟩
    obtain ⟨log, ⟨-, hlog⟩, hmem⟩ := hrecorded.told
    exact ⟨blocked, hlog ▸ hmem⟩
  refine hfinishes.mono ?_ ?_
  · rintro ⟨attempt, p'⟩ ⟨-, ⟨-, hresembles, -⟩ | ⟨hsteps, blocked', hkeeps', hends⟩⟩
    · exact ⟨hsame hresembles, fun _ => hresembles⟩
    · refine ⟨hkeeps hsteps hkeeps', fun hmemory => ?_⟩
      obtain ⟨q, report, -, -, houtcome⟩ := hends
      replace hmemory : attempt.outcome = .outOfMemory := hmemory
      rw [hmemory] at houtcome
      exact houtcome.elim
  · rintro e p' (⟨-, -, hresembles⟩ | ⟨hsteps, blocked', hkeeps', hfails⟩)
    · exact ⟨hsame hresembles, fun _ _ => hresembles⟩
    · refine ⟨hkeeps hsteps hkeeps', ?_⟩
      rintro s rfl
      rcases hfails with ⟨-, step, label, he⟩ | ⟨q, error, -, -, he⟩
      · cases he
      · cases he

theorem Recorded.attempted (h : p₀.Recorded t query skip) (hlaid : t.Laid)
    (htakes : TakesRules β) (hreached : Attempted p₀ p) : p.Recorded t query skip := by
  induction hreached with
  | start => exact h
  | attempt length _ ih =>
      have hfinishes := ih.finishes_attempt hlaid htakes length
      apply after_of_finishes (I := fun p => p.Recorded t query skip)
      exact hfinishes.mono (fun r hr => hr.1.recorded) fun e p' he => he.1.recorded

end Planner

end StablePlan
