import StablePlan.Proofs.Stable.Search

/-!
Descents. Literals are assigned, marks are set on the way, and the assignment is taken back to the
mark that was set last; all that is kept of a mark is how many atoms were unassigned. However often
that happens, the array of atoms stays a permutation with its inverse beside it, and every mark that
stands leads back to the values and the open atoms that there were. The assignment that a search
comes back with is the end of such a descent.
-/

namespace StablePlan

open Assignment

namespace Unassigned.Valid

variable {u : Unassigned} {max atom i : Nat}

theorem getElem?_order (h : u.Valid max) (hi : i < max) : u.order[i]? = some (u.atomAt i) := by
  have hsize : i < u.order.size := by
    rw [h.size_order]
    exact hi
  simp [atomAt, hsize]

/-- Every atom has its place, so there is no room for any other or for the same one twice. -/
theorem perm_order (h : u.Valid max) : u.order.toList.Perm (List.range' 1 max) := by
  have hsub : List.range' 1 max ⊆ u.order.toList := by
    intro atom hatom
    obtain ⟨hpos, hlt⟩ := List.mem_range'_1.mp hatom
    have hplace := h.getElem?_order (h.placeOf_lt atom hpos (by omega))
    rw [h.atomAt_placeOf atom hpos (by omega)] at hplace
    exact Array.mem_toList_iff.mpr (Array.mem_of_getElem? hplace)
  have hsubperm := List.subperm_of_subset List.nodup_range' hsub
  apply (hsubperm.perm_of_length_le _).symm
  rw [Array.length_toList, List.length_range', h.size_order]

/-- Places and atoms name each other. -/
theorem order_eq_some_iff (h : u.Valid max) (hi : i < max) :
    u.order[i]? = some atom ↔ u.position[atom]? = some i := by
  rw [h.getElem?_order hi, h.getElem?_position]
  constructor
  · intro heq
    obtain rfl : u.atomAt i = atom := Option.some.inj heq
    rw [if_pos (h.atomAt_le i hi), h.placeOf_atomAt i hi]
  · intro heq
    split at heq
    · rename_i hle
      obtain rfl : u.placeOf atom = i := Option.some.inj heq
      have hpos : 0 < atom := by
        rcases Nat.eq_zero_or_pos atom with rfl | hpos
        · have hzero := h.placeOf_zero
          omega
        · exact hpos
      rw [h.atomAt_placeOf atom hpos hle]
    · simp at heq

end Unassigned.Valid

namespace Assignment

variable {a b : Assignment} {max : Nat}

theorem Valid.values_eq (ha : a.Valid max) (hb : b.Valid max)
    (h : ∀ atom, a.atomValue atom = b.atomValue atom) : a.values = b.values := by
  apply Array.ext
  · rw [ha.size_values, hb.size_values]
  · intro i hi hi'
    have hvalue := h i
    simpa [atomValue, hi, hi'] using hvalue

theorem Valid.contains_eq (ha : a.Valid max) (hb : b.Valid max)
    (h : ∀ atom, a.atomValue atom = b.atomValue atom) (atom : Nat) :
    a.unassigned.contains atom = b.unassigned.contains atom := by
  apply Bool.eq_iff_iff.mpr
  by_cases hr : InRange max atom
  · rw [ha.contains_iff atom hr, hb.contains_iff atom hr, h]
  · have hout : ∀ {u : Unassigned}, u.Valid max → ¬u.contains atom := by
      intro u hu hcontains
      obtain ⟨hpos, hle, -⟩ := hu.contains_iff.mp hcontains
      exact hr ⟨hpos, hle⟩
    exact iff_of_false (hout ha.unassigned) (hout hb.unassigned)

/-- A literal that has a value already is left as it is, and so the rest is. -/
theorem Valid.reaches_assign (ha : a.Valid max) {l : Literal} (hr : InRange max l.atom) :
    Reaches max a (a.assign l).1 :=
  (Sound.assign_fst (K := fun _ => False) ha hr fun _ h => h.elim).1

end Assignment

/-! ### Moves -/

inductive Move where
  | assign (l : Literal)
  | mark
  | undo

/-- An assignment on the way down, and what it was at the marks that stand, the last one first. -/
structure Descent where
  assignment : Assignment
  marks : List Assignment

/-- Only literals of the problem are assigned. -/
def Move.Ranged (max : Nat) : Move → Prop
  | .assign l => InRange max l.atom
  | .mark => True
  | .undo => True

instance (max : Nat) : DecidablePred (Move.Ranged max)
  | .assign l => inferInstanceAs (Decidable (InRange max l.atom))
  | .mark => inferInstanceAs (Decidable True)
  | .undo => inferInstanceAs (Decidable True)

namespace Descent

def start (max : Nat) : Descent := ⟨.empty max, []⟩

/-- To go back is told nothing but the number of atoms that were unassigned at the last mark. -/
def move (d : Descent) : Move → Descent
  | .assign l => { d with assignment := (d.assignment.assign l).1 }
  | .mark => { d with marks := d.assignment :: d.marks }
  | .undo =>
    match d.marks with
    | [] => d
    | b :: marks => ⟨d.assignment.undo b.unassigned.size, marks⟩

def run (d : Descent) (moves : List Move) : Descent := moves.foldl move d

variable {d d' d'' : Descent} {max : Nat} {a b : Assignment} {marks : List Assignment}
  {moves : List Move} {m : Move}

/-- The assignment differs from what it was at a mark only in atoms that were open there, and the
same is true from one mark to the next. -/
structure Nested (max : Nat) (d : Descent) : Prop where
  valid : d.assignment.Valid max
  marks : ∀ b ∈ d.marks, b.Valid max ∧ Below b d.assignment
  order : d.marks.Pairwise fun later earlier => Below earlier later

theorem nested_start (max : Nat) : (start max).Nested max := ⟨valid_empty max, nofun, .nil⟩

theorem Nested.of_reaches (h : Nested max ⟨a, marks⟩) (hreach : Reaches max a b) :
    Nested max ⟨b, marks⟩ := by
  refine ⟨hreach.valid h.valid, ?_, h.order⟩
  intro c hc
  obtain ⟨hvalid, hbelow⟩ := h.marks c hc
  exact ⟨hvalid, hbelow.trans (hreach.isBelow h.valid)⟩

theorem Nested.mark (h : Nested max ⟨a, marks⟩) : Nested max ⟨a, a :: marks⟩ := by
  refine ⟨h.valid, ?_, ?_⟩
  · exact List.forall_mem_cons.mpr ⟨⟨h.valid, Below.refl a⟩, h.marks⟩
  · exact List.pairwise_cons.mpr ⟨fun c hc => (h.marks c hc).2, h.order⟩

/-- What was below the last mark is back at it, and so it is below the marks before. -/
theorem Nested.undo (h : Nested max ⟨a, b :: marks⟩) :
    Nested max ⟨a.undo b.unassigned.size, marks⟩ := by
  obtain ⟨⟨hb, hbelow⟩, hmarks⟩ := List.forall_mem_cons.mp h.marks
  obtain ⟨hlast, horder⟩ := List.pairwise_cons.mp h.order
  have hback : Below b (a.undo b.unassigned.size) := hbelow.undo hb h.valid
  refine ⟨h.valid.undo hb.unassigned.size_le hbelow.size_le, ?_, horder⟩
  intro c hc
  exact ⟨(hmarks c hc).1, (hlast c hc).trans hback⟩

theorem Nested.move (h : d.Nested max) (hm : m.Ranged max) : (d.move m).Nested max := by
  obtain ⟨a, marks⟩ := d
  cases m with
  | assign l => exact h.of_reaches (h.valid.reaches_assign hm)
  | mark => exact h.mark
  | undo =>
      cases marks with
      | nil => exact h
      | cons b marks => exact h.undo

theorem Nested.run (h : d.Nested max) (hmoves : ∀ m ∈ moves, m.Ranged max) :
    (d.run moves).Nested max := by
  induction moves generalizing d with
  | nil => exact h
  | cons m moves ih =>
      obtain ⟨hm, hrest⟩ := List.forall_mem_cons.mp hmoves
      exact ih (h.move hm) hrest

/-- Taken back to any mark that stands, the assignment is what it was there, but for the order of
the open atoms. -/
theorem Nested.undo_eq (h : d.Nested max) (hb : b ∈ d.marks) :
    (d.assignment.undo b.unassigned.size).values = b.values ∧
      ∀ atom, (d.assignment.undo b.unassigned.size).unassigned.contains atom =
        b.unassigned.contains atom := by
  obtain ⟨hvalid, hbelow⟩ := h.marks b hb
  have hundone := h.valid.undo hvalid.unassigned.size_le hbelow.size_le
  have hsame := hbelow.atomValue_undo hvalid h.valid
  exact ⟨hundone.values_eq hvalid hsame, hundone.contains_eq hvalid hsame⟩

/-- However a descent has gone, an atom has no value if and only if it is among the unassigned ones;
their array is a permutation of all atoms, with the positions as its inverse; and taking the
assignment back to the number of a mark that stands gives the values and the unassigned atoms that
there were when the mark was set. -/
theorem undo_exact (hmoves : ∀ m ∈ moves, m.Ranged max) (hd : d = (start max).run moves) :
    (∀ atom, InRange max atom →
      (d.assignment.atomValue atom = none ↔ d.assignment.unassigned.contains atom)) ∧
    d.assignment.unassigned.order.toList.Perm (List.range' 1 max) ∧
    (∀ i < max, ∀ atom, d.assignment.unassigned.order[i]? = some atom ↔
      d.assignment.unassigned.position[atom]? = some i) ∧
    ∀ b ∈ d.marks,
      (d.assignment.undo b.unassigned.size).values = b.values ∧
        ∀ atom, (d.assignment.undo b.unassigned.size).unassigned.contains atom =
          b.unassigned.contains atom := by
  have hnested : d.Nested max := hd ▸ (nested_start max).run hmoves
  have hvalid := hnested.valid
  refine ⟨?_, hvalid.unassigned.perm_order, ?_, fun b hb => hnested.undo_eq hb⟩
  · intro atom hr
    exact (hvalid.contains_iff atom hr).symm
  · intro i hi atom
    exact hvalid.unassigned.order_eq_some_iff hi

/-- A decision below a literal, and another one that is in its second branch. -/
def secondBranch : List Move :=
  [.assign (.positive 2), .mark, .assign (.negative 1), .mark, .assign (.negative 3), .undo,
    .assign (.positive 3)]

/-- The first decision is still to be taken back; three atoms were unassigned then. -/
theorem undo_exact_secondBranch :
    (∀ m ∈ secondBranch, m.Ranged 4) ∧
      ((start 4).run secondBranch).assignment.unassigned.order.toList.Perm [1, 2, 3, 4] ∧
      ∃ b ∈ ((start 4).run secondBranch).marks, b.unassigned.size = 3 ∧
        b.values = #[none, none, some true, none, none] ∧
        (((start 4).run secondBranch).assignment.undo 3).values = b.values ∧
        ∀ atom, (((start 4).run secondBranch).assignment.undo 3).unassigned.contains atom =
          b.unassigned.contains atom := by
  have hmoves : ∀ m ∈ secondBranch, m.Ranged 4 := by decide
  obtain ⟨-, hperm, -, hundo⟩ := undo_exact hmoves rfl
  have hmark : ((start 4).run [.assign (.positive 2)]).assignment ∈
      ((start 4).run secondBranch).marks := List.mem_singleton.mpr rfl
  exact ⟨hmoves, hperm, _, hmark, rfl, rfl, hundo _ hmark⟩

/-! ### The descent of a search -/

/-- Some moves lead from one descent to the other. -/
def Leads (max : Nat) (d d' : Descent) : Prop :=
  ∃ moves, (∀ m ∈ moves, Move.Ranged max m) ∧ d.run moves = d'

theorem Leads.refl (max : Nat) (d : Descent) : Leads max d d := ⟨[], nofun, rfl⟩

theorem Leads.trans (h : Leads max d d') (h' : Leads max d' d'') : Leads max d d'' := by
  obtain ⟨moves, hmoves, rfl⟩ := h
  obtain ⟨moves', hmoves', rfl⟩ := h'
  exact ⟨moves ++ moves', List.forall_mem_append.mpr ⟨hmoves, hmoves'⟩, List.foldl_append⟩

theorem leads_move (hm : m.Ranged max) : Leads max d (d.move m) :=
  ⟨[m], List.forall_mem_singleton.mpr hm, rfl⟩

theorem Leads.nested (h : Leads max d d') (hd : d.Nested max) : d'.Nested max := by
  obtain ⟨moves, hmoves, rfl⟩ := h
  exact hd.run hmoves

theorem leads_of_reaches (h : Reaches max a b) (marks : List Assignment) :
    Leads max ⟨a, marks⟩ ⟨b, marks⟩ := by
  induction h with
  | refl => exact .refl max _
  | @assign a b l _ hr _ ih => exact (leads_move (m := .assign l) hr).trans ih

variable {α : Type} {p : Problem} {visit : α → Model → α × Bool} {r : Progress α}

/-- Moves lead to what a search comes back with. The marks that were set on the way are gone, unless
the search broke off. -/
def Descends (max : Nat) (d : Descent) (r : Progress α) : Prop :=
  ∃ above, Leads max d ⟨r.assignment, above ++ d.marks⟩ ∧ (r.flow = .exhausted → above = [])

theorem Descends.of_eq {r' : Progress α} (h : Descends max d r) (heq : r = r') :
    Descends max d r' :=
  heq ▸ h

theorem Descends.of_leads (h : Leads max ⟨a, marks⟩ ⟨b, marks⟩)
    (h' : Descends max ⟨b, marks⟩ r) : Descends max ⟨a, marks⟩ r := by
  obtain ⟨above, hleads, habove⟩ := h'
  exact ⟨above, h.trans hleads, habove⟩

theorem descends_saturate (hp : p.Ranged) (hd : Nested p.maxAtom ⟨a, marks⟩) (found : α)
    (next : Assignment → Progress α) (decisions : Nat)
    (hnext : ∀ b, Nested p.maxAtom ⟨b, marks⟩ → Descends p.maxAtom ⟨b, marks⟩ (next b)) :
    Descends p.maxAtom ⟨a, marks⟩
      (match p.saturate a with
        | (b, true) => next b
        | (b, false) => ⟨b, decisions, found, .exhausted⟩) := by
  have hreach := (Problem.sound_saturate hp hd.valid).1
  rcases hsaturate : p.saturate a with ⟨b, _ | _⟩
  · rw [hsaturate] at hreach
    exact ⟨[], leads_of_reaches hreach marks, fun _ => rfl⟩
  · rw [hsaturate] at hreach
    have hleads := leads_of_reaches hreach marks
    exact .of_leads hleads (hnext b (hd.of_reaches hreach))

theorem descends_self (h : r.assignment = a) : Descends max ⟨a, marks⟩ r := by
  subst h
  exact ⟨[], .refl max _, fun _ => rfl⟩

/-- A decision sets a mark before the first branch and goes back to it for the second one. -/
theorem descends_explore (hp : p.Ranged) (limit : Limit) (depth decisions : Nat) (found : α)
    (hd : Nested p.maxAtom ⟨a, marks⟩) :
    Descends p.maxAtom ⟨a, marks⟩ (p.explore limit visit depth a decisions found) := by
  induction depth generalizing a marks decisions found with
  | zero =>
      rw [Problem.explore]
      split
      · split <;> exact descends_self rfl
      · split <;> exact descends_self rfl
  | succ depth ih =>
      rw [Problem.explore]
      split
      · split <;> exact descends_self rfl
      · rename_i atom hfirst
        split
        · exact descends_self rfl
        · have hcontains := hd.valid.unassigned.contains_of_first? hfirst
          obtain ⟨hpos, hle, -⟩ := hd.valid.unassigned.contains_iff.mp hcontains
          have hneg : (Move.assign (.negative atom)).Ranged p.maxAtom := by
            simpa [Move.Ranged, InRange, Literal.negative, Literal.atom] using ⟨hpos, hle⟩
          have hposi : (Move.assign (.positive atom)).Ranged p.maxAtom := by
            simpa [Move.Ranged, InRange, Literal.positive, Literal.atom] using ⟨hpos, hle⟩
          have hdown : Leads p.maxAtom ⟨a, marks⟩ ⟨(a.assign (.negative atom)).1, a :: marks⟩ :=
            (leads_move (m := .mark) trivial).trans (leads_move hneg)
          have hbranch := descends_saturate hp (hdown.nested hd) found
            (fun b => p.explore limit visit depth b (decisions + 1) found) (decisions + 1)
            fun b hb => ih (decisions + 1) found hb
          dsimp only
          split
          · rename_i c decisions' found' heq
            -- The branch is closed, so the mark of this decision is the last one that stands.
            obtain ⟨above, hleads, habove⟩ := hbranch.of_eq heq
            obtain rfl := habove rfl
            have hback : Leads p.maxAtom ⟨c, a :: marks⟩ ⟨c.undo a.unassigned.size, marks⟩ :=
              leads_move (m := .undo) trivial
            have hup := ((hdown.trans hleads).trans hback).trans (leads_move hposi)
            exact .of_leads hup (descends_saturate hp (hup.nested hd) found'
              (fun b => p.explore limit visit depth b decisions' found') decisions'
              fun b hb => ih decisions' found' hb)
          · rename_i hflow
            obtain ⟨above, hleads, -⟩ := hbranch
            refine ⟨above ++ [a], ?_, ?_⟩
            · rw [List.append_assoc]
              exact hdown.trans hleads
            · intro hexhausted
              exact absurd (Progress.eq_of_flow hexhausted) (hflow _ _ _)

/-- From the empty assignment such moves lead to the one that a search comes back with. -/
theorem exists_moves_search (hp : p.Ranged) (limit : Limit) {root : List Literal}
    (hroot : ∀ l ∈ root, InRange p.maxAtom l.atom) (visit : α → Model → α × Bool) (found : α) :
    ∃ moves, (∀ m ∈ moves, Move.Ranged p.maxAtom m) ∧
      ((start p.maxAtom).run moves).assignment =
        (p.search limit root visit found).assignment := by
  have hreach : Reaches p.maxAtom (.empty p.maxAtom) (assignAll root (.empty p.maxAtom)).1 :=
    (Sound.assignAll (K := fun _ => False) (valid_empty _) hroot fun _ h => h.elim).1
  have hleads := leads_of_reaches hreach []
  have hnested := (nested_start p.maxAtom).of_reaches hreach
  have hdescends : Descends p.maxAtom (start p.maxAtom) (p.search limit root visit found) := by
    rw [Problem.search]
    rcases hassign : assignAll root (.empty p.maxAtom) with ⟨a, _ | _⟩
    · rw [hassign] at hleads
      exact .of_leads hleads (descends_self rfl)
    · rw [hassign] at hleads hnested
      exact .of_leads hleads (descends_saturate hp hnested found
        (fun b => p.explore limit visit b.unassigned.size b 0 found) 0
        fun b hb => descends_explore hp limit _ 0 found hb)
  obtain ⟨above, ⟨moves, hmoves, hrun⟩, -⟩ := hdescends
  exact ⟨moves, hmoves, congrArg Descent.assignment hrun⟩

end Descent

end StablePlan
