import StablePlan.Transition.Compile

/-!
Accounts of a compilation: what there is to say at each stage for those who want to follow it, up
to the stage that fails, and the template. Giving the account does not change the result.
-/

namespace StablePlan

structure Account where
  remarks : List String
  result : Except CompileError Template

/-- How a search for all models ended. -/
def Progress.remark {α : Type} (p : Progress α) : String :=
  (match p.flow with
    | .exhausted => "Exhausted"
    | .interrupted => "Interrupted"
    | .stopped => "Model") ++ " after " ++ toString p.decisions ++ " decisions"

def Resolution.text : Resolution → String
  | .on => "True"
  | .off => "False"
  | .cautious => "Cautious"

namespace Draft

def remark (d : Draft) : String :=
  "Collected " ++ toString d.rules.size ++ " rules and " ++ toString d.weightRules.size ++
    " weight rules over " ++ toString d.maxAtom ++ " atoms"

end Draft

namespace Fitting

/-- What was settled, in order. -/
def remarks (f : Fitting) : List String :=
  f.log.toList.map fun (atom, r) => "Resolved " ++ toString atom ++ " " ++ r.text

def summary (f : Fitting) : String :=
  "Fitting resolved " ++ toString f.log.size ++ " atoms; " ++ toString f.draft.liveRules.length ++
    " rules and " ++ toString f.draft.liveWeightRules.length ++ " weight rules remain"

end Fitting

/-- The initial fluents for which no bridge is laid. -/
def Bands.remarks (b : Bands) : List String :=
  b.initials.filterMap fun (label, fluent) =>
    if (b.initialIndex? fluent).isSome then none
    else some ("Skipping " ++ toString label ++ ": " ++ toString fluent.primed ++ " is no bridge")

def Template.remark (t : Template) : String :=
  "Period " ++ toString t.period ++ ": " ++ toString t.rules.length ++ " rules, " ++
    toString t.weightRules.length ++ " weight rules, " ++ toString t.bridges.length ++
    " bridges, " ++ toString t.externals.length ++ " externals"

namespace Account

def failed (remarks : List String) (e : CompileError) : Account := ⟨remarks, .error e⟩

/-- Says something first. -/
def after (remarks : List String) (a : Account) : Account := ⟨remarks ++ a.remarks, a.result⟩

def ofDraft (d : Draft) : Account :=
  match Bands.ofDraft d with
  | .error e => failed [] e
  | .ok b =>
    match b.template with
    | .error e => failed [] e
    | .ok t => ⟨b.remarks ++ [t.remark], .ok t⟩

def ofFitting (f : Fitting) : Account :=
  match f.run with
  | .error (e, f) => failed f.remarks e
  | .ok f => (ofDraft f.draft).after (f.remarks ++ [f.summary])

end Account

def Reasoner.account (r : Reasoner) : Account :=
  let draft := Draft.ofReplay r.replay.toList
  let opening := ["Replaying " ++ toString r.replay.size ++ " statements", draft.remark]
  let possible := r.enumerate (· || ·)
  let opening := opening ++ [possible.remark]
  match requireModel (Reasoner.gathered possible) with
  | .error e => .failed opening e
  | .ok brave =>
    let certain := r.enumerate (· && ·)
    let opening := opening ++ [certain.remark]
    match requireModel (Reasoner.gathered certain) with
    | .error e => .failed opening e
    | .ok cautious =>
      let counts := toString (draft.never brave).length ++ " atoms are never true, " ++
        toString cautious.length ++ " always"
      (Account.ofFitting (fittingOf draft brave cautious)).after (opening ++ [counts])

end StablePlan
