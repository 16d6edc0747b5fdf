import StablePlan.Ascending
import StablePlan.Program.Statement

/-!
The draft of a template: the rules of one replay, with a record for every atom of where it occurs.
Facts and constraints of one literal are queued for propagation instead of being stored, rules
that can never apply are dropped, and heads and normal bodies become sets.
-/

namespace StablePlan

/-- The rules in which an atom occurs, by number and role. -/
structure Occurrences where
  heads : List Nat := []
  positive : List Nat := []
  negative : List Nat := []
  weightHeads : List Nat := []
  weightedPositive : List Nat := []
  weightedNegative : List Nat := []
  deriving DecidableEq, Inhabited

namespace Occurrences

def isSupported (o : Occurrences) : Bool := !o.heads.isEmpty || !o.weightHeads.isEmpty

def rules (o : Occurrences) : List Nat := o.heads ++ o.positive ++ o.negative

def weightRules (o : Occurrences) : List Nat :=
  o.weightHeads ++ o.weightedPositive ++ o.weightedNegative

/-- Changes the rules that hold the literal in their body. -/
def inBody (f : List Nat → List Nat) (l : Literal) (o : Occurrences) : Occurrences :=
  if l.isPositive then { o with positive := f o.positive }
  else { o with negative := f o.negative }

/-- Changes the weight rules that hold the literal in their body. -/
def inWeightBody (f : List Nat → List Nat) (l : Literal) (o : Occurrences) : Occurrences :=
  if l.isPositive then { o with weightedPositive := f o.weightedPositive }
  else { o with weightedNegative := f o.weightedNegative }

def inHead (f : List Nat → List Nat) (o : Occurrences) : Occurrences :=
  { o with heads := f o.heads }

def inWeightHead (f : List Nat → List Nat) (o : Occurrences) : Occurrences :=
  { o with weightHeads := f o.weightHeads }

end Occurrences

/-- What propagation decides about an atom. A cautious atom is true in every stable model but
still needs a rule that derives it. -/
inductive Resolution where
  | on
  | off
  | cautious
  deriving DecidableEq, Inhabited

structure Entry where
  mentioned : Bool := false
  occurrences : Occurrences := {}
  resolution : Option Resolution := none
  deriving Inhabited

/-- The sum of the weights of a body. -/
def WeightRule.total (r : WeightRule) : Int := totalWeight r.body

/-- Numbered rules, of which retired ones leave a gap; the queued atoms wait for propagation. -/
structure Draft where
  entries : Array Entry := #[]
  rules : Array (Option Rule) := #[]
  weightRules : Array (Option WeightRule) := #[]
  externals : List Nat := []
  outputs : Array (Symbol × Nat) := #[]
  facts : List Nat := []
  falsified : List Nat := []
  cautious : List Nat := []
  bottom : Bool := false

namespace Draft

def maxAtom (d : Draft) : Nat := d.entries.size - 1

def entry (d : Draft) (atom : Nat) : Entry := d.entries.getD atom {}

def occurrences (d : Draft) (atom : Nat) : Occurrences := (d.entry atom).occurrences

def resolution (d : Draft) (atom : Nat) : Option Resolution := (d.entry atom).resolution

def isMentioned (d : Draft) (atom : Nat) : Bool := (d.entry atom).mentioned

def rule? (d : Draft) (i : Nat) : Option Rule := d.rules.getD i none

def weightRule? (d : Draft) (i : Nat) : Option WeightRule := d.weightRules.getD i none

def liveRules (d : Draft) : List Rule := d.rules.toList.filterMap id

def liveWeightRules (d : Draft) : List WeightRule := d.weightRules.toList.filterMap id

/-- The first label of an atom. -/
def label? (d : Draft) (atom : Nat) : Option Symbol :=
  if atom = 0 then none else (d.outputs.find? (·.2 == atom)).map Prod.fst

/-- The atom that bears a label, 0 for a fact; of several the last. -/
def labelled? (d : Draft) (symbol : Symbol) : Option Nat :=
  (d.outputs.toList.reverse.find? (·.1 = symbol)).map Prod.snd

/-- The labels in order, each with its atom. -/
def labels (d : Draft) : List (Symbol × Nat) :=
  d.outputs.toList.foldl (fun table (symbol, atom) => Ascending.put symbol atom table) []

def setEntry (d : Draft) (atom : Nat) (e : Entry) : Draft :=
  { d with entries := d.entries.setIfInBounds atom e }

/-- Makes room for an atom and marks it as occurring. -/
def mention (d : Draft) (atom : Nat) : Draft :=
  let room := Array.replicate (atom + 1 - d.entries.size) ({} : Entry)
  let d := { d with entries := d.entries ++ room }
  d.setEntry atom { d.entry atom with mentioned := true }

def mapOccurrences (d : Draft) (atom : Nat) (f : Occurrences → Occurrences) : Draft :=
  d.setEntry atom { d.entry atom with occurrences := f (d.occurrences atom) }

def mentionIn (d : Draft) (atom : Nat) (f : Occurrences → Occurrences) : Draft :=
  (d.mention atom).mapOccurrences atom f

/-- Stores a rule and notes where its atoms occur. -/
def pushRule (d : Draft) (rule : Rule) : Draft :=
  let note := Ascending.insert d.rules.size
  let d := rule.head.foldl (fun d h => d.mentionIn h (.inHead note)) d
  let d := rule.body.foldl (fun d l => d.mentionIn l.atom (.inBody note l)) d
  { d with rules := d.rules.push (some rule) }

def pushWeightRule (d : Draft) (rule : WeightRule) : Draft :=
  let note := Ascending.insert d.weightRules.size
  let d := rule.head.foldl (fun d h => d.mentionIn h (.inWeightHead note)) d
  let d := rule.body.foldl (fun d e => d.mentionIn e.1.atom (.inWeightBody note e.1)) d
  { d with weightRules := d.weightRules.push (some rule) }

/-- Queues what a constraint of one literal says. -/
def constrain (d : Draft) (l : Literal) : Draft :=
  let d := d.mention l.atom
  if l.isPositive then { d with falsified := d.falsified ++ [l.atom] }
  else { d with cautious := d.cautious ++ [l.atom] }

/-- Takes a rule over, head and body being sets. -/
def addRule (d : Draft) (rule : Rule) : Draft :=
  match rule.choice, rule.head, rule.body with
  | true, [], _ => d
  | false, [], [] => { d with bottom := true }
  | false, [h], [] =>
    let d := d.mention h
    { d with facts := d.facts ++ [h] }
  | false, [], [l] => d.constrain l
  | _, _, _ => d.pushRule rule

/-- Takes a weight rule over. With nothing to reach, its body goes; a bound out of reach leaves
only the atoms. -/
def addWeightRule (d : Draft) (rule : WeightRule) : Draft :=
  if rule.lower ≤ 0 then d.addRule ⟨rule.choice, rule.head, []⟩
  else if rule.total < rule.lower then
    let d := rule.head.foldl mention d
    rule.body.foldl (fun d e => d.mention e.1.atom) d
  else
    match rule.choice, rule.head, rule.body with
    | false, [], [(l, w)] => if rule.lower ≤ w then d.constrain l else d
    | _, _, _ => d.pushWeightRule rule

def observe (d : Draft) : Observation → Draft
  | .rule r => d.addRule ⟨r.choice, Ascending.ofList r.head, Ascending.ofList r.body⟩
  | .weightRule r => d.addWeightRule { r with head := Ascending.ofList r.head }
  | .external atom value =>
    let d := d.mention atom
    if value = .release then d else { d with externals := Ascending.insert atom d.externals }
  | .label symbol atom =>
    let d := if atom = 0 then d else d.mention atom
    { d with outputs := d.outputs.push (symbol, atom) }

def ofReplay (replay : List Observation) : Draft := replay.foldl observe {}

end Draft

end StablePlan
