import StablePlan.Transition.Fitting
import StablePlan.Transition.Template

/-!
Laying a fitted draft out in two bands. The atoms that remain get the slots of the current band in
order. A primed external takes the slot of its unprimed counterpart in the band before; without a
counterpart that has one, it gets a fresh slot, whose value is fixed. What the draft has resolved
about atoms that keep a slot is stated by constraints.
-/

namespace StablePlan.Draft

def atoms (d : Draft) : List Nat := List.range' 1 d.maxAtom

/-- The class of an atom before bridges are laid. -/
def classify (d : Draft) (atom : Nat) : Except CompileError AtomClass :=
  if atom = 0 || !d.isMentioned atom then .ok .eliminated
  else if d.externals.contains atom then
    match d.label? atom with
    | some symbol => .ok (if symbol.isPrimed then .bridgeIn else .bridgeOut)
    | none => .error (.anonymousExternal atom)
  else
    match d.resolution atom with
    | some .on => .ok .forcedTrue
    | some .off => .ok .forcedFalse
    | _ => .ok .internal

/-- The atom that bears the unprimed label of a primed external. -/
def counterpart? (d : Draft) (atom : Nat) : Option Nat :=
  (d.label? atom).bind fun symbol => d.labelled? symbol.unprimed

end StablePlan.Draft

namespace StablePlan

/-- A draft with the classes of its atoms, the atoms that own a slot, in order, and the bridges. -/
structure Bands where
  draft : Draft
  classes : Array AtomClass
  owners : List Nat
  bridges : List Bridge

namespace Bands

/-- The atoms of one of the given classes, in order. -/
def atomsOf (wanted : List AtomClass) (classes : List AtomClass) : List Nat :=
  (classes.zipIdx.filter fun entry => wanted.contains entry.1).map Prod.snd

/-- The index of an atom that owns a slot. -/
def slotIn (owners : List Nat) (atom : Nat) : Option Nat := (owners.idxOf? atom).map (· + 1)

/-- Lays bridges; those whose counterpart has no slot take fresh ones from `next` on. -/
def layBridges (d : Draft) (owners : List Nat) : (next : Nat) → List Nat → List Bridge
  | _, [] => []
  | next, atom :: atoms =>
    let counterpart := d.counterpart? atom
    let shown := counterpart.filter (· != 0)
    match counterpart.bind (slotIn owners) with
    | some k => ⟨atom, shown, k⟩ :: layBridges d owners next atoms
    | none => ⟨atom, shown, next⟩ :: layBridges d owners (next + 1) atoms

def ofDraft (d : Draft) : Except CompileError Bands := do
  let classes ← (List.range (d.maxAtom + 1)).mapM d.classify
  let owners := atomsOf [.internal, .bridgeOut] classes
  let bridges := layBridges d owners (owners.length + 1) (atomsOf [.bridgeIn] classes)
  .ok ⟨d, classes.toArray, owners, bridges⟩

def classOf (b : Bands) (atom : Nat) : AtomClass := b.classes.getD atom .eliminated

def slot? (b : Bands) (atom : Nat) : Option Nat := slotIn b.owners atom

/-- The bridges with a fresh slot. -/
def freshBridges (b : Bands) : List Bridge :=
  b.bridges.filter fun bridge => b.owners.length < bridge.index

def period (b : Bands) : Nat := b.owners.length + b.freshBridges.length

/-- The value of a fresh slot: whether the counterpart is a fact. -/
def freshValue (b : Bands) (bridge : Bridge) : Bool :=
  match b.draft.counterpart? bridge.atom with
  | some 0 => true
  | some atom => b.classOf atom = .forcedTrue
  | none => false

/-- The index of a primed external in the band before. -/
def previous? (b : Bands) (atom : Nat) : Option Nat :=
  (b.bridges.find? (·.atom == atom)).map Bridge.index

/-- The template's name for an atom: in the band before for a bridge, else in the current one. -/
def id? (b : Bands) (atom : Nat) : Option Nat :=
  match b.previous? atom with
  | some k => some k
  | none => (b.slot? atom).map (b.period + ·)

/-- The names of all atoms, to look them up at once. -/
def ids (b : Bands) : Array (Option Nat) :=
  ((List.range (b.draft.maxAtom + 1)).map b.id?).toArray

/-- The classes once bridges are laid: one with a fresh slot owns it. -/
def finalClasses (b : Bands) : Array AtomClass :=
  b.freshBridges.foldl (fun classes bridge => classes.setIfInBounds bridge.atom .internal) b.classes

def renameAtom (ids : Array (Option Nat)) (atom : Nat) : Except CompileError Nat :=
  match ids.getD atom none with
  | some id => .ok id
  | none => .error (.dangling atom)

def renameLiteral (ids : Array (Option Nat)) (l : Literal) : Except CompileError Literal := do
  let atom ← renameAtom ids l.atom
  .ok (l.withAtom atom)

def renameElement (ids : Array (Option Nat)) (e : Literal × Int) :
    Except CompileError (Literal × Int) := do
  let l ← renameLiteral ids e.1
  .ok (l, e.2)

def renameRule (ids : Array (Option Nat)) (rule : Rule) : Except CompileError Rule := do
  let head ← rule.head.mapM (renameAtom ids)
  let body ← rule.body.mapM (renameLiteral ids)
  .ok ⟨rule.choice, head, body⟩

def renameWeightRule (ids : Array (Option Nat)) (rule : WeightRule) :
    Except CompileError WeightRule := do
  let head ← rule.head.mapM (renameAtom ids)
  let body ← rule.body.mapM (renameElement ids)
  .ok ⟨rule.choice, head, rule.lower, body⟩

/-- The constraint that an atom has a value. -/
def fix (atom : Nat) (value : Bool) : Rule :=
  .constraint [if value then .negative atom else .positive atom]

/-- An external may be chosen either way, and a resolved atom is fixed. -/
def slotRules (b : Bands) (atom target : Nat) : List Rule :=
  (if b.classOf atom = .bridgeOut then [⟨true, [target], []⟩] else []) ++
    match b.draft.resolution atom with
    | some .on | some .cautious => [fix target true]
    | some .off => [fix target false]
    | none => []

def freshRule (b : Bands) (bridge : Bridge) : Rule :=
  let slot := b.period + bridge.index
  if b.freshValue bridge then .fact slot else fix slot false

/-- Drops what repeats its neighbour. -/
def dedup : List Rule → List Rule
  | [] => []
  | r :: rs =>
    match dedup rs with
    | [] => [r]
    | s :: ss => if r = s then s :: ss else r :: s :: ss

/-- The rules that the draft no longer has but its resolutions say. -/
def boundaryRules (b : Bands) (ids : Array (Option Nat)) : List Rule :=
  b.draft.atoms.flatMap (fun atom =>
    match ids.getD atom none with
    | some target => b.slotRules atom target
    | none => []) ++ b.freshBridges.map b.freshRule

/-- The externals by label, with their indices. -/
def externals (b : Bands) : List (Symbol × Nat) :=
  (b.draft.atoms.filter fun atom => b.classOf atom = .bridgeOut).foldl (fun table atom =>
    match b.draft.label? atom, b.slot? atom with
    | some symbol, some k => Ascending.put symbol k table
    | _, _ => table) []

def isFact (b : Bands) (atom : Nat) : Bool := atom == 0 || b.draft.resolution atom == some .on

/-- The fluent that holds initially, if the label says so and is a fact. -/
def initial? (b : Bands) (output : Symbol × Nat) : Option Symbol :=
  match output.1 with
  | .function name [fluent] =>
    if name = "init" && b.isFact output.2 then some fluent else none
  | _ => none

/-- The index of the bridge through which a fluent gets its initial value. -/
def initialIndex? (b : Bands) (fluent : Symbol) : Option Nat :=
  (b.draft.labelled? fluent.primed).bind b.previous?

/-- The labels of initial fluents, each with its fluent. -/
def initials (b : Bands) : List (Symbol × Symbol) :=
  b.draft.outputs.toList.filterMap fun output =>
    (b.initial? output).map fun fluent => (output.1, fluent)

def init (b : Bands) : List Nat :=
  Ascending.ofList (b.initials.filterMap fun (_, fluent) => b.initialIndex? fluent)

/-- The index and the label under which an atom is shown. A bridge shows the fluent itself. -/
def shown? (b : Bands) (output : Symbol × Nat) : Option (Nat × Symbol) :=
  if b.isFact output.2 then none
  else
    match b.previous? output.2 with
    | some k => some (k, output.1.unprimed)
    | none => (b.slot? output.2).map fun k => (k, output.1)

/-- The first occurrence of every element. -/
def firsts {α : Type} [DecidableEq α] (xs : List α) : List α :=
  xs.foldl (fun seen x => if x ∈ seen then seen else seen ++ [x]) []

def output (b : Bands) : List (Nat × Symbol) := firsts (b.draft.outputs.toList.filterMap b.shown?)

def facts (b : Bands) : List Symbol :=
  firsts ((b.draft.outputs.toList.filter fun output => b.isFact output.2).map Prod.fst)

def template (b : Bands) : Except CompileError Template := do
  let ids := b.ids
  let rules ← b.draft.liveRules.mapM (renameRule ids)
  let weightRules ← b.draft.liveWeightRules.mapM (renameWeightRule ids)
  .ok {
    period := b.period
    rules := dedup (rules ++ b.boundaryRules ids)
    weightRules
    bridges := b.bridges
    externals := b.externals
    init := b.init
    output := b.output
    facts := b.facts
    classes := b.finalClasses
    ids }

end Bands

end StablePlan
