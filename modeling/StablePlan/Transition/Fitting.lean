import StablePlan.Stable.Reasoner
import StablePlan.Transition.Draft

/-!
Fitting a draft: truth values that are known are propagated through the rules until nothing more
is resolved. Known atoms wait in three queues; true ones are taken before false ones, and cautious
ones only when both other queues are empty. A rule that is settled is retired, and an atom that
loses its last rule becomes false. A step that fails says what state it leaves.
-/

namespace StablePlan

inductive CompileError where
  | unsatTemplate
  | conflict (atom : Nat)
  | anonymousExternal (atom : Nat)
  | dangling (atom : Nat)
  | solve (error : SolveError)
  deriving DecidableEq

def CompileError.message : CompileError → String
  | .unsatTemplate => "the transition template has no stable model"
  | .conflict atom => "atom " ++ toString atom ++ " was forced both true and false"
  | .anonymousExternal atom => "external atom " ++ toString atom ++ " has no output symbol"
  | .dangling atom =>
    "atom " ++ toString atom ++ " survived simplification without a template id"
  | .solve e => e.message

/-- A draft under propagation. The facts are the atoms that were ever queued as true; losing
their rules does not make them false. -/
structure Fitting where
  draft : Draft
  trueQueue : List Nat := []
  falseQueue : List Nat := []
  cautiousQueue : List Nat := []
  facts : List Nat := []
  log : Array (Nat × Resolution) := #[]

namespace Fitting

abbrev Step := Except (CompileError × Fitting) Fitting

def mention (f : Fitting) (atom : Nat) : Fitting := { f with draft := f.draft.mention atom }

def queueTrue (f : Fitting) (atom : Nat) : Fitting :=
  { f.mention atom with trueQueue := f.trueQueue ++ [atom], facts := atom :: f.facts }

def queueFalse (f : Fitting) (atom : Nat) : Fitting :=
  { f with falseQueue := f.falseQueue ++ [atom] }

def queueCautious (f : Fitting) (atom : Nat) : Fitting :=
  { f with cautiousQueue := f.cautiousQueue ++ [atom] }

/-- Queues atoms that are false in every stable model. -/
def assumeFalse (f : Fitting) (atoms : List Nat) : Fitting :=
  atoms.foldl (fun f atom => (f.mention atom).queueFalse atom) f

/-- Queues atoms that are true in every stable model. -/
def assumeCautious (f : Fitting) (atoms : List Nat) : Fitting :=
  atoms.foldl (fun f atom => (f.mention atom).queueCautious atom) f

/-- Starts from the atoms that a draft has queued. -/
def ofDraft (d : Draft) : Fitting :=
  let f : Fitting := { draft := { d with facts := [], falsified := [], cautious := [] } }
  ((d.facts.foldl queueTrue f).assumeFalse d.falsified).assumeCautious d.cautious

/-- Queues what a constraint of one literal says. -/
def constrain (f : Fitting) (l : Literal) : Fitting :=
  if l.isPositive then f.queueFalse l.atom else f.queueCautious l.atom

def isDecided (d : Draft) (atom : Nat) : Bool :=
  d.resolution atom == some .on || d.resolution atom == some .off

/-- An atom without a rule is false, unless it is external, a fact, or decided. -/
def checkSupport (f : Fitting) (atom : Nat) : Fitting :=
  if (f.draft.occurrences atom).isSupported || f.draft.externals.contains atom ||
      f.facts.contains atom || isDecided f.draft atom then f
  else f.queueFalse atom

def mapOccurrences (f : Fitting) (atom : Nat) (g : Occurrences → Occurrences) : Fitting :=
  { f with draft := f.draft.mapOccurrences atom g }

def setRule (f : Fitting) (i : Nat) (rule : Option Rule) : Fitting :=
  { f with draft := { f.draft with rules := f.draft.rules.setIfInBounds i rule } }

def setWeightRule (f : Fitting) (i : Nat) (rule : Option WeightRule) : Fitting :=
  { f with draft := { f.draft with weightRules := f.draft.weightRules.setIfInBounds i rule } }

/-- Drops a rule and what the records say of it. -/
def retire (f : Fitting) (i : Nat) : Fitting :=
  match f.draft.rule? i with
  | none => f
  | some rule =>
    let forget := fun (is : List Nat) => is.erase i
    let f := f.setRule i none
    let f := rule.body.foldl (fun f l => f.mapOccurrences l.atom (.inBody forget l)) f
    rule.head.foldl (fun f h => (f.mapOccurrences h (.inHead forget)).checkSupport h) f

def retireWeight (f : Fitting) (i : Nat) : Fitting :=
  match f.draft.weightRule? i with
  | none => f
  | some rule =>
    let forget := fun (is : List Nat) => is.erase i
    let f := f.setWeightRule i none
    let f := rule.body.foldl (fun f e => f.mapOccurrences e.1.atom (.inWeightBody forget e.1)) f
    rule.head.foldl (fun f h => (f.mapOccurrences h (.inWeightHead forget)).checkSupport h) f

/-- Looks again at a rule that lost a head atom or a body literal. -/
def review (f : Fitting) (i : Nat) : Step :=
  match f.draft.rule? i with
  | none => .ok f
  | some rule =>
    match rule.choice, rule.head, rule.body with
    | true, [], _ => .ok (f.retire i)
    | false, [], [] => .error (.unsatTemplate, f)
    | false, [h], [] => .ok ((f.queueTrue h).retire i)
    | false, [], [l] => .ok ((f.retire i).constrain l)
    | _, _, _ => .ok f

/-- Keeps the head of a weight rule whose bound is reached: as a fact, or as a rule without a
body. -/
def release (f : Fitting) (choice : Bool) (head : List Nat) : Step :=
  match choice, head with
  | false, [] => .error (.unsatTemplate, f)
  | false, [h] => .ok (f.queueTrue h)
  | _, _ => .ok { f with draft := f.draft.pushRule ⟨choice, head, []⟩ }

def reviewWeight (f : Fitting) (i : Nat) : Step :=
  match f.draft.weightRule? i with
  | none => .ok f
  | some rule =>
    if rule.choice && rule.head.isEmpty then .ok (f.retireWeight i)
    else if rule.lower ≤ 0 then do
      let f ← f.release rule.choice rule.head
      .ok (f.retireWeight i)
    else if rule.total < rule.lower then .ok (f.retireWeight i)
    else
      match rule.choice, rule.head, rule.body with
      | false, [], [(l, w)] =>
        let f := f.retireWeight i
        .ok (if rule.lower ≤ w then f.constrain l else f)
      | _, _, _ => .ok f

/-- The atom is decided: a true head satisfies its rule, other heads lose the atom. -/
def resolveHead (atom : Nat) (value : Bool) (f : Fitting) (i : Nat) : Step :=
  match f.draft.rule? i with
  | none => .ok f
  | some rule =>
    if value && !rule.choice then .ok (f.retire i)
    else (f.setRule i (some { rule with head := rule.head.erase atom })).review i

def resolveWeightHead (atom : Nat) (value : Bool) (f : Fitting) (i : Nat) : Step :=
  match f.draft.weightRule? i with
  | none => .ok f
  | some rule =>
    if value && !rule.choice then .ok (f.retireWeight i)
    else (f.setWeightRule i (some { rule with head := rule.head.erase atom })).reviewWeight i

/-- The literal is true: the body loses it. -/
def satisfy (l : Literal) (f : Fitting) (i : Nat) : Step :=
  match f.draft.rule? i with
  | none => .ok f
  | some rule => (f.setRule i (some { rule with body := rule.body.erase l })).review i

def withoutLiteral (l : Literal) (body : List (Literal × Int)) : List (Literal × Int) :=
  body.filter fun e => e.1 != l

/-- The literal is true: its weight is taken off the bound. -/
def satisfyWeight (l : Literal) (f : Fitting) (i : Nat) : Step :=
  match f.draft.weightRule? i with
  | none => .ok f
  | some rule =>
    let weight := totalWeight (rule.body.filter fun e => e.1 == l)
    let lower := wrapWeight (rule.lower - weight)
    let rule := { rule with lower, body := withoutLiteral l rule.body }
    (f.setWeightRule i (some rule)).reviewWeight i

/-- The literal is false: its weight cannot be had. -/
def falsifyWeight (l : Literal) (f : Fitting) (i : Nat) : Step :=
  match f.draft.weightRule? i with
  | none => .ok f
  | some rule =>
    (f.setWeightRule i (some { rule with body := withoutLiteral l rule.body })).reviewWeight i

def record (f : Fitting) (atom : Nat) (r : Resolution) : Fitting :=
  let d := f.draft.setEntry atom { f.draft.entry atom with resolution := some r }
  { f with draft := d, log := f.log.push (atom, r) }

/-- Propagates the value of an atom through all its rules: heads first, then the bodies that have
it as it is, then those that have its opposite. -/
def propagate (f : Fitting) (atom : Nat) (value : Bool) : Step := do
  let l := if value then Literal.positive atom else .negative atom
  let o := f.draft.occurrences atom
  let f := f.mapOccurrences atom fun _ => {}
  let f ← o.heads.foldlM (resolveHead atom value) f
  let f ← o.weightHeads.foldlM (resolveWeightHead atom value) f
  let f ← (if value then o.positive else o.negative).foldlM (satisfy l) f
  let f := (if value then o.negative else o.positive).foldl retire f
  let f ← (if value then o.weightedPositive else o.weightedNegative).foldlM (satisfyWeight l) f
  (if value then o.weightedNegative else o.weightedPositive).foldlM (falsifyWeight l.negate) f

def resolve (f : Fitting) (atom : Nat) (value : Bool) : Step :=
  let f := f.mention atom
  let goal := if value then Resolution.on else .off
  match f.draft.resolution atom with
  | none => (f.record atom goal).propagate atom value
  | some r =>
    if r = goal then .ok f
    else if r = .cautious && value then (f.record atom goal).propagate atom value
    else .error (.conflict atom, f)

/-- The atom holds in every model, so rules that need it false never apply. -/
def caution (f : Fitting) (atom : Nat) : Step :=
  let f := f.mention atom
  match f.draft.resolution atom with
  | some .off => .error (.conflict atom, f)
  | some _ => .ok f
  | none => do
    let f := f.record atom .cautious
    let o := f.draft.occurrences atom
    let f := f.mapOccurrences atom fun o => { o with negative := [], weightedNegative := [] }
    let f := o.negative.foldl retire f
    o.weightedNegative.foldlM (falsifyWeight (.negative atom)) f

def isSettled (f : Fitting) (goal : Resolution) (atom : Nat) : Bool :=
  f.draft.resolution atom == some goal ||
    (goal == .cautious && f.draft.resolution atom == some .on)

/-- The next atom that is not settled yet, and the fitting without it and what was settled before
it. -/
def next? (f : Fitting) : Option (Resolution × Nat × Fitting) :=
  match f.trueQueue.dropWhile (f.isSettled .on) with
  | atom :: rest => some (.on, atom, { f with trueQueue := rest })
  | [] =>
    match f.falseQueue.dropWhile (f.isSettled .off) with
    | atom :: rest => some (.off, atom, { f with trueQueue := [], falseQueue := rest })
    | [] =>
      match f.cautiousQueue.dropWhile (f.isSettled .cautious) with
      | atom :: rest =>
        some (.cautious, atom, { f with trueQueue := [], falseQueue := [], cautiousQueue := rest })
      | [] => none

def settle (f : Fitting) (goal : Resolution) (atom : Nat) : Step :=
  match goal with
  | .on => f.resolve atom true
  | .off => f.resolve atom false
  | .cautious => f.caution atom

/-- Settles up to so many atoms. -/
def runFor : Nat → Fitting → Step
  | 0, f => .ok f
  | n + 1, f =>
    match f.next? with
    | none => .ok { f with trueQueue := [], falseQueue := [], cautiousQueue := [] }
    | some (goal, atom, f) => do
      let f ← f.settle goal atom
      runFor n f

/-- Settles atoms until none is left. An atom is settled at most twice, first as cautious and then
as true. -/
def run (f : Fitting) : Step :=
  if f.draft.bottom then .error (.unsatTemplate, f)
  else f.runFor (2 * f.draft.entries.size + 1)

/-- Whether a rule mentions an atom that is decided, or needs a cautious atom false. -/
def isStale (d : Draft) (head : List Nat) (body : List Literal) : Bool :=
  head.any (isDecided d) ||
    body.any fun l =>
      isDecided d l.atom || (!l.isPositive && d.resolution l.atom == some .cautious)

def isTrivial (rule : Rule) : Bool :=
  match rule.choice, rule.head, rule.body with
  | true, [], _ | false, [_], [] | false, [], [] | false, [], [_] => true
  | _, _, _ => false

def isTrivialWeight (rule : WeightRule) : Bool :=
  rule.lower ≤ 0 || rule.total < rule.lower || (rule.choice && rule.head.isEmpty) ||
    (!rule.choice && rule.head.isEmpty && rule.body.length == 1)

/-- Whether nothing is left to settle: no atom waits, no record names a retired rule, and no rule
is stale or trivial. -/
def isFixpoint (f : Fitting) : Bool :=
  f.trueQueue.isEmpty && f.falseQueue.isEmpty && f.cautiousQueue.isEmpty &&
    (f.draft.entries.all fun e =>
      e.occurrences.rules.all (fun i => (f.draft.rule? i).isSome) &&
        e.occurrences.weightRules.all (fun i => (f.draft.weightRule? i).isSome)) &&
    (f.draft.liveRules.all fun rule => !isStale f.draft rule.head rule.body && !isTrivial rule) &&
    f.draft.liveWeightRules.all fun rule =>
      !isStale f.draft rule.head (rule.body.map Prod.fst) && !isTrivialWeight rule

end Fitting

end StablePlan
