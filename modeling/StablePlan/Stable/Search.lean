import StablePlan.Stable.Propagation

/-!
Backtracking search for stable models. The first unassigned atom is tried false, then true; each
choice is propagated, and a total assignment counts if it is stable. A visitor takes the models
in turn and says whether to go on. The budget is looked at before every decision.
-/

namespace StablePlan

/-- What one search may spend: decisions, and nanoseconds. How fast time passes is left out: the
clock of a search stands still once it has begun, so an allowance of time is used up at once or
never. -/
structure Limit where
  decisions : Option Nat
  time : Option Nat
  deriving DecidableEq, Inhabited

namespace Limit

def unlimited : Limit := ⟨none, none⟩

/-- The nanoseconds that are taken to be over before the first decision. -/
def leadTime : Nat := 300

def reached (limit : Limit) (decisions : Nat) : Bool :=
  (match limit.decisions with
    | some bound => bound ≤ decisions
    | none => false) ||
  limit.time.any (· < leadTime)

end Limit

/-- How a search ended: every branch was closed, the budget was used up, or the visitor had
enough. -/
inductive Flow where
  | exhausted
  | interrupted
  | stopped
  deriving DecidableEq, Inhabited

structure Progress (α : Type) where
  assignment : Assignment
  decisions : Nat
  found : α
  flow : Flow

namespace Problem

variable {α : Type}

/-- Searches below a saturated assignment with at most `depth` open atoms. The assignment that
comes back from a closed branch is to be taken back by the caller. -/
def explore (p : Problem) (limit : Limit) (visit : α → Model → α × Bool) :
    (depth : Nat) → Assignment → (decisions : Nat) → α → Progress α
  | depth, a, decisions, found =>
    match a.unassigned.first? with
    | none =>
      if p.isStable a then
        let (found, more) := visit found a.toModel
        ⟨a, decisions, found, if more then .exhausted else .stopped⟩
      else ⟨a, decisions, found, .exhausted⟩
    | some atom =>
      if limit.reached decisions then ⟨a, decisions, found, .interrupted⟩
      else
        match depth with
        | 0 => ⟨a, decisions, found, .exhausted⟩
        | depth + 1 =>
          let mark := a.unassigned.size
          let first :=
            match p.saturate (a.assign (.negative atom)).1 with
            | (a, true) => explore p limit visit depth a (decisions + 1) found
            | (a, false) => ⟨a, decisions + 1, found, .exhausted⟩
          match first with
          | ⟨a, decisions, found, .exhausted⟩ =>
            match p.saturate ((a.undo mark).assign (.positive atom)).1 with
            | (a, true) => explore p limit visit depth a decisions found
            | (a, false) => ⟨a, decisions, found, .exhausted⟩
          | first => first

/-- Searches from the literals that hold at the root. -/
def search (p : Problem) (limit : Limit) (root : List Literal) (visit : α → Model → α × Bool)
    (found : α) : Progress α :=
  match Assignment.assignAll root (.empty p.maxAtom) with
  | (a, true) =>
    match p.saturate a with
    | (a, true) => p.explore limit visit a.unassigned.size a 0 found
    | (a, false) => ⟨a, 0, found, .exhausted⟩
  | (a, false) => ⟨a, 0, found, .exhausted⟩

end Problem

end StablePlan
