import StablePlan.Proofs.Program.Obeys
import StablePlan.Transition.Fitting

/-!
What is left of a rule once some atoms are known. A rule loses the atoms of its head that are
decided and the literals of its body that hold, and it is spent once it can derive nothing new.
Rules that have lost a part of this already are spent by the same knowledge as the rules that they
come from: it does not matter what was learned first.
-/

namespace StablePlan

/-- What is known of atoms: which are on, which are off, and which hold in any case. -/
abbrev Knowledge := Resolution → Nat → Bool

variable {K L : Knowledge} {l : Literal} {x : Nat}

namespace Knowledge

theorem le_iff : K ≤ L ↔ ∀ known a, K known a → L known a := Iff.rfl

/-- What is on holds in any case, and what holds in any case is not off. -/
structure Consistent (K : Knowledge) : Prop where
  cautious : ∀ a, K .on a → K .cautious a
  apart : ∀ a, K .off a → ¬K .cautious a

def decides (K : Knowledge) (a : Nat) : Bool := K .on a || K .off a

theorem decides_iff : K.decides x ↔ K .on x ∨ K .off x := by
  simp [decides]

theorem decides_mono (h : K ≤ L) (hx : K.decides x) : L.decides x :=
  decides_iff.mpr ((decides_iff.mp hx).imp (h .on x) (h .off x))

theorem Consistent.not_off (hK : K.Consistent) (hx : K .on x) : ¬K .off x := fun hoff =>
  hK.apart x hoff (hK.cautious x hx)

end Knowledge

namespace Literal

def HoldsBy (K : Knowledge) (l : Literal) : Bool := K (if l.isPositive then .on else .off) l.atom

/-- A literal also fails if it needs an atom false that holds in any case. -/
def FailsBy (K : Knowledge) (l : Literal) : Bool :=
  K (if l.isPositive then .off else .cautious) l.atom

theorem holdsBy_mono (h : K ≤ L) (hl : l.HoldsBy K) : l.HoldsBy L := h _ _ hl

theorem failsBy_mono (h : K ≤ L) (hl : l.FailsBy K) : l.FailsBy L := h _ _ hl

theorem not_failsBy (hK : K.Consistent) (hl : l.HoldsBy K) : ¬l.FailsBy K := by
  unfold HoldsBy at hl
  unfold FailsBy
  intro hfails
  cases hsign : l.isPositive with
  | true =>
      simp only [hsign, if_true] at hl hfails
      exact hK.not_off hl hfails
  | false =>
      simp only [hsign, Bool.false_eq_true, if_false] at hl hfails
      exact hK.apart _ hl hfails

end Literal

/-! ### Lists that lose elements -/

/-- A list has lost elements that satisfy a condition, each wherever it stood. -/
def Sheds {α : Type} (lost : α → Prop) (xs ys : List α) : Prop :=
  ∃ p : α → Bool, ys = xs.filter p ∧ ∀ x, p x = false → lost x

namespace Sheds

variable {α : Type} {lost lost' : α → Prop} {p : α → Bool} {xs ys zs : List α}

theorem refl (lost : α → Prop) (xs : List α) : Sheds lost xs xs :=
  ⟨fun _ => true, (List.filter_eq_self.mpr fun _ _ => rfl).symm, fun _ h => absurd h (by simp)⟩

theorem mono (h : Sheds lost xs ys) (hlost : ∀ x, lost x → lost' x) : Sheds lost' xs ys := by
  obtain ⟨p, hys, hp⟩ := h
  exact ⟨p, hys, fun x hx => hlost x (hp x hx)⟩

theorem filter (h : Sheds lost xs ys) (hq : ∀ x, p x = false → lost x) :
    Sheds lost xs (ys.filter p) := by
  obtain ⟨q, rfl, hlost⟩ := h
  refine ⟨fun x => p x && q x, List.filter_filter, fun x hx => ?_⟩
  rcases Bool.and_eq_false_iff.mp hx with hx | hx
  · exact hq x hx
  · exact hlost x hx

theorem erase [DecidableEq α] (h : Sheds lost xs ys) (hys : ys.Nodup) {x : α} (hx : lost x) :
    Sheds lost xs (ys.erase x) := by
  rw [hys.erase_eq_filter]
  refine h.filter fun y hy => ?_
  obtain rfl : y = x := by simpa using hy
  exact hx

theorem mem_of_mem (h : Sheds lost xs ys) {x : α} (hx : x ∈ ys) : x ∈ xs := by
  obtain ⟨p, rfl, -⟩ := h
  exact (List.mem_filter.mp hx).1

theorem mem_or_lost (h : Sheds lost xs ys) {x : α} (hx : x ∈ xs) : x ∈ ys ∨ lost x := by
  obtain ⟨p, rfl, hlost⟩ := h
  cases hp : p x with
  | true => exact Or.inl (List.mem_filter.mpr ⟨hx, hp⟩)
  | false => exact Or.inr (hlost x hp)

/-- What still gets filtered out as lost is no longer than what has lost less. -/
theorem length_filter_le (h : Sheds lost xs ys) (hp : ∀ x, lost x → p x = false) :
    (xs.filter p).length ≤ ys.length := by
  obtain ⟨q, rfl, hlost⟩ := h
  rw [← List.countP_eq_length_filter, ← List.countP_eq_length_filter]
  refine List.countP_mono_left fun x _ hx => ?_
  by_contra hq
  exact absurd (hp x (hlost x (by simpa using hq))) (by simp [hx])

/-- A list that has lost everything is what filtering leaves. -/
theorem eq_filter (h : Sheds lost xs ys) (hp : ∀ x, lost x → p x = false)
    (hkept : ∀ y ∈ ys, p y = true) : ys = xs.filter p := by
  obtain ⟨q, rfl, hlost⟩ := h
  refine List.filter_congr fun x hx => ?_
  cases hq : q x with
  | true => exact (hkept x (List.mem_filter.mpr ⟨hx, hq⟩)).symm
  | false => exact (hp x (hlost x hq)).symm

end Sheds

/-! ### Rules -/

/-- Whether a head has nothing left to derive: an atom of it is on, or all that it leaves open are
decided. -/
def Knowledge.closesHead (K : Knowledge) (choice : Bool) (head : List Nat) : Bool :=
  if choice then head.all K.decides else head.any (K .on)

theorem Knowledge.closesHead_mono (h : K ≤ L) {choice : Bool} {head : List Nat}
    (hK : K.closesHead choice head) : L.closesHead choice head := by
  unfold closesHead at hK ⊢
  cases choice with
  | true =>
      simp only [if_true, List.all_eq_true] at hK ⊢
      exact fun x hx => decides_mono h (hK x hx)
  | false =>
      simp only [Bool.false_eq_true, if_false, List.any_eq_true] at hK ⊢
      obtain ⟨x, hx, hon⟩ := hK
      exact ⟨x, hx, h .on x hon⟩

/-- What may be lost of a head. -/
def Knowledge.OmitsHead (K : Knowledge) (choice : Bool) (x : Nat) : Prop :=
  if choice then K.decides x else K .off x

theorem Knowledge.OmitsHead.decides {choice : Bool} (h : K.OmitsHead choice x) : K.decides x := by
  unfold OmitsHead at h
  split at h
  · exact h
  · exact decides_iff.mpr (Or.inr h)

theorem Knowledge.OmitsHead.mono (h : K ≤ L) {choice : Bool} (hx : K.OmitsHead choice x) :
    L.OmitsHead choice x := by
  unfold OmitsHead at hx ⊢
  cases choice with
  | true => exact decides_mono h hx
  | false => exact h .off x hx

section Head

variable {choice : Bool} {head head' : List Nat}

/-- A head that has lost atoms is closed just if it was before. -/
theorem Knowledge.closesHead_of_sheds (h : Sheds (K.OmitsHead choice) head head') (hKL : K ≤ L)
    (hL : L.closesHead choice head') : L.closesHead choice head := by
  unfold closesHead at hL ⊢
  cases choice with
  | true =>
      simp only [if_true, List.all_eq_true] at hL ⊢
      intro x hx
      rcases h.mem_or_lost hx with hx | hlost
      · exact hL x hx
      · exact decides_mono hKL hlost.decides
  | false =>
      simp only [Bool.false_eq_true, if_false, List.any_eq_true] at hL ⊢
      obtain ⟨x, hx, hon⟩ := hL
      exact ⟨x, h.mem_of_mem hx, hon⟩

theorem Knowledge.Consistent.closesHead_of_sheds (hL : L.Consistent)
    (h : Sheds (K.OmitsHead choice) head head') (hKL : K ≤ L) (hhead : L.closesHead choice head) :
    L.closesHead choice head' := by
  unfold closesHead at hhead ⊢
  cases choice with
  | true =>
      simp only [if_true, List.all_eq_true] at hhead ⊢
      exact fun x hx => hhead x (h.mem_of_mem hx)
  | false =>
      simp only [Bool.false_eq_true, if_false, List.any_eq_true] at hhead ⊢
      obtain ⟨x, hx, hon⟩ := hhead
      refine ⟨x, (h.mem_or_lost hx).resolve_right fun hlost => ?_, hon⟩
      exact hL.not_off hon (hKL .off x hlost)

end Head

namespace Rule

variable {r s : Rule}

/-- What is left of a rule. -/
def residue (K : Knowledge) (r : Rule) : Rule :=
  { r with
    head := r.head.filter fun x => !K.decides x
    body := r.body.filter fun l => !l.HoldsBy K }

/-- Whether a rule derives nothing new. -/
def spent (K : Knowledge) (r : Rule) : Bool :=
  r.body.any (·.FailsBy K) || K.closesHead r.choice r.head

theorem spent_iff : r.spent K ↔ (∃ l ∈ r.body, l.FailsBy K) ∨ K.closesHead r.choice r.head := by
  simp [spent]

theorem spent_mono (h : K ≤ L) (hr : r.spent K) : r.spent L := by
  rw [spent_iff] at hr ⊢
  refine hr.imp (fun hbody => ?_) (Knowledge.closesHead_mono h)
  obtain ⟨l, hl, hfails⟩ := hbody
  exact ⟨l, hl, Literal.failsBy_mono h hfails⟩

/-- Whether a rule, as far as it goes, has told all that it says of single atoms. -/
def Quiet (K : Knowledge) (r : Rule) : Prop :=
  r.spent K ∨ Fitting.isTrivial (r.residue K) = false

/-- The second rule is the first one less what is known. -/
structure Leaves (K : Knowledge) (r s : Rule) : Prop where
  choice : s.choice = r.choice
  head : Sheds (K.OmitsHead r.choice) r.head s.head
  body : Sheds (fun l => l.HoldsBy K) r.body s.body

theorem Leaves.refl (K : Knowledge) (r : Rule) : Leaves K r r := ⟨rfl, .refl _ _, .refl _ _⟩

theorem Leaves.mono (h : K ≤ L) (hr : Leaves K r s) : Leaves L r s :=
  ⟨hr.choice, hr.head.mono fun _ => .mono h, hr.body.mono fun _ => Literal.holdsBy_mono h⟩

theorem Leaves.spent (h : Leaves K r s) (hKL : K ≤ L) (hs : s.spent L) : r.spent L := by
  rw [spent_iff] at hs ⊢
  rcases hs with ⟨l, hl, hfails⟩ | hhead
  · exact Or.inl ⟨l, h.body.mem_of_mem hl, hfails⟩
  · exact Or.inr (Knowledge.closesHead_of_sheds h.head hKL (h.choice ▸ hhead))

theorem Leaves.spent_of_consistent (h : Leaves K r s) (hKL : K ≤ L) (hL : L.Consistent)
    (hr : r.spent L) : s.spent L := by
  rw [spent_iff] at hr ⊢
  rcases hr with ⟨l, hl, hfails⟩ | hhead
  · refine Or.inl ⟨l, (h.body.mem_or_lost hl).resolve_right fun hholds => ?_, hfails⟩
    exact Literal.not_failsBy hL (Literal.holdsBy_mono hKL hholds) hfails
  · exact Or.inr (h.choice ▸ hL.closesHead_of_sheds h.head hKL hhead)

theorem isTrivial_iff : Fitting.isTrivial r ↔
    if r.choice then r.head = [] else r.head.length + r.body.length ≤ 1 := by
  obtain ⟨choice, head, body⟩ := r
  unfold Fitting.isTrivial
  rcases choice with _ | _ <;> rcases head with _ | ⟨x, _ | ⟨y, head⟩⟩ <;>
    rcases body with _ | ⟨l, _ | ⟨m, body⟩⟩ <;> simp
  omega

/-- Of a rule that is left trivial nothing but trivial is left. -/
theorem Leaves.isTrivial_residue (h : Leaves K r s) (hKL : K ≤ L) (hs : Fitting.isTrivial s) :
    Fitting.isTrivial (r.residue L) := by
  have hhead : (r.head.filter fun x => !L.decides x).length ≤ s.head.length :=
    h.head.length_filter_le fun x hx => by simpa using Knowledge.decides_mono hKL hx.decides
  have hbody : (r.body.filter fun l => !l.HoldsBy L).length ≤ s.body.length :=
    h.body.length_filter_le fun l hl => by simpa using Literal.holdsBy_mono hKL hl
  rw [isTrivial_iff, h.choice] at hs
  rw [isTrivial_iff]
  unfold residue
  dsimp only
  split
  · rename_i hchoice
    rw [if_pos hchoice] at hs
    rw [hs] at hhead
    exact List.eq_nil_of_length_eq_zero (Nat.le_zero.mp hhead)
  · rename_i hchoice
    rw [if_neg hchoice] at hs
    omega

/-- If a rule is quiet, what is left of it is spent as soon as it is trivial. -/
theorem Leaves.spent_of_quiet (h : Leaves K r s) (hKL : K ≤ L) (hL : L.Consistent)
    (hr : r.Quiet L) (hs : Fitting.isTrivial s) : s.spent L := by
  rcases hr with hspent | hresidue
  · exact h.spent_of_consistent hKL hL hspent
  · exact absurd (h.isTrivial_residue hKL hs) (by simp [hresidue])

theorem Leaves.eraseHead (h : Leaves K r s) (hs : s.head.Nodup) (hx : K.OmitsHead r.choice x) :
    Leaves K r { s with head := s.head.erase x } :=
  ⟨h.choice, h.head.erase hs hx, h.body⟩

theorem Leaves.eraseBody (h : Leaves K r s) (hs : s.body.Nodup) (hl : l.HoldsBy K) :
    Leaves K r { s with body := s.body.erase l } :=
  ⟨h.choice, h.head, h.body.erase hs hl⟩

theorem Leaves.eq_residue (h : Leaves K r s) (hhead : ∀ x ∈ s.head, ¬K.decides x)
    (hbody : ∀ l ∈ s.body, ¬l.HoldsBy K) : s = r.residue K := by
  obtain ⟨choice, head, body⟩ := s
  obtain rfl := h.choice
  have hhead : head = r.head.filter fun x => !K.decides x :=
    h.head.eq_filter (fun x hx => by simpa using hx.decides) fun x hx => by simpa using hhead x hx
  have hbody : body = r.body.filter fun l => !l.HoldsBy K :=
    h.body.eq_filter (fun l hl => by simpa using hl) fun l hl => by simpa using hbody l hl
  rw [hhead, hbody]
  rfl

end Rule

/-! ### Weights -/

section Weights

variable {es : List (Literal × Int)} {p q : Literal × Int → Bool}

theorem exactWeight_filter (es : List (Literal × Int)) (p : Literal × Int → Bool) :
    exactWeight (es.filter p) = (es.map fun e => if p e then e.2 else 0).sum := by
  induction es with
  | nil => rfl
  | cons e es ih =>
      rw [List.filter_cons, List.map_cons, List.sum_cons, ← ih]
      split <;> simp

theorem exactWeight_filter_mono (hw : ∀ e ∈ es, 0 ≤ e.2) (h : ∀ e ∈ es, p e → q e) :
    exactWeight (es.filter p) ≤ exactWeight (es.filter q) := by
  rw [exactWeight_filter, exactWeight_filter]
  refine sum_map_mono fun e he => ?_
  have hweight := hw e he
  by_cases hp : p e
  · rw [if_pos hp, if_pos (h e he hp)]
  · rw [if_neg hp]
    split <;> omega

theorem exactWeight_filter_split (es : List (Literal × Int)) (p q : Literal × Int → Bool) :
    exactWeight (es.filter p) =
      exactWeight ((es.filter q).filter p) + exactWeight (es.filter fun e => !q e && p e) := by
  rw [List.filter_filter, exactWeight_filter, exactWeight_filter, exactWeight_filter]
  induction es with
  | nil => rfl
  | cons e es ih =>
      simp only [List.map_cons, List.sum_cons, ih]
      cases p e <;> cases q e <;> simp <;> omega

end Weights

namespace WeightRule

variable {r s : WeightRule}

/-- What the sum is at least, and what it may still come to. -/
def sure (K : Knowledge) (r : WeightRule) : Int :=
  exactWeight (r.body.filter fun e => e.1.HoldsBy K)

def possible (K : Knowledge) (r : WeightRule) : Int :=
  exactWeight (r.body.filter fun e => !e.1.FailsBy K)

/-- What is left of a weight rule. -/
def residue (K : Knowledge) (r : WeightRule) : WeightRule :=
  { r with
    head := r.head.filter fun x => !K.decides x
    lower := r.lower - r.sure K
    body := r.body.filter fun e => !e.1.HoldsBy K && !e.1.FailsBy K }

/-- The rule that is left once the bound is reached. -/
def freed (r : WeightRule) : Rule := ⟨r.choice, r.head, []⟩

def Reached (K : Knowledge) (r : WeightRule) : Prop := r.lower ≤ r.sure K

def spent (K : Knowledge) (r : WeightRule) : Bool :=
  decide (r.possible K < r.lower) || K.closesHead r.choice r.head

theorem spent_iff : r.spent K ↔ r.possible K < r.lower ∨ K.closesHead r.choice r.head := by
  simp [spent]

theorem spent_freed : r.freed.spent K = K.closesHead r.choice r.head := by
  simp [Rule.spent, freed]

/-- Whether a weight rule, or the rule that it leaves, has told all that it says of single atoms. -/
def Quiet (K : Knowledge) (r : WeightRule) : Prop :=
  r.spent K ∨ Fitting.isTrivialWeight (r.residue K) = false ∨ r.Reached K ∧ r.freed.Quiet K

theorem possible_anti (hw : r.HasNonnegWeights) (h : K ≤ L) : r.possible L ≤ r.possible K := by
  refine exactWeight_filter_mono hw fun e _ hL => ?_
  by_contra hK
  simp only [Bool.not_eq_true', Bool.not_eq_false] at hL hK
  exact absurd (Literal.failsBy_mono h hK) (by simp [hL])

theorem spent_mono (hw : r.HasNonnegWeights) (h : K ≤ L) (hr : r.spent K) : r.spent L := by
  rw [spent_iff] at hr ⊢
  refine hr.imp (fun hbound => ?_) (Knowledge.closesHead_mono h)
  exact (possible_anti hw h).trans_lt hbound

theorem sure_mono (hw : r.HasNonnegWeights) (h : K ≤ L) : r.sure K ≤ r.sure L :=
  exactWeight_filter_mono hw fun _ _ hK => Literal.holdsBy_mono h hK

theorem Reached.mono (hw : r.HasNonnegWeights) (h : K ≤ L) (hr : r.Reached K) : r.Reached L :=
  hr.trans (sure_mono hw h)

theorem sure_le_possible (hw : r.HasNonnegWeights) (hK : K.Consistent) :
    r.sure K ≤ r.possible K :=
  exactWeight_filter_mono hw fun _ _ hholds => by simpa using Literal.not_failsBy hK hholds

/-- A bound that is reached is not out of reach. -/
theorem Reached.closesHead (hw : r.HasNonnegWeights) (hK : K.Consistent) (hr : r.Reached K)
    (hspent : r.spent K) : K.closesHead r.choice r.head := by
  refine (spent_iff.mp hspent).resolve_left fun hbound => ?_
  exact absurd (hr.trans (sure_le_possible hw hK)) (not_le.mpr hbound)

/-- A bound above all weights is out of reach. -/
theorem spent_of_total_lt (hw : r.HasFittingBound) (h : r.total < r.lower) : r.spent K := by
  rw [WeightRule.total, hw.weights.totalWeight_eq] at h
  refine spent_iff.mpr (Or.inl (lt_of_le_of_lt ?_ h))
  have hall : r.body.filter (fun _ => true) = r.body := List.filter_eq_self.mpr fun _ _ => rfl
  have hle : r.possible K ≤ exactWeight (r.body.filter fun _ => true) :=
    exactWeight_filter_mono hw.weights.nonneg fun _ _ _ => rfl
  rwa [hall] at hle

/-- The second weight rule is the first one less what is known. The weights of the literals that
hold have been taken off the bound. -/
structure Leaves (K : Knowledge) (r s : WeightRule) : Prop where
  choice : s.choice = r.choice
  head : Sheds (K.OmitsHead r.choice) r.head s.head
  body : ∃ p : Literal × Int → Bool, s.body = r.body.filter p ∧
    (∀ e, p e = false → e.1.HoldsBy K ∨ e.1.FailsBy K) ∧
    s.lower = r.lower - exactWeight (r.body.filter fun e => !p e && e.1.HoldsBy K)

theorem Leaves.refl (K : Knowledge) (r : WeightRule) : Leaves K r r := by
  refine ⟨rfl, .refl _ _, fun _ => true, (List.filter_eq_self.mpr fun _ _ => rfl).symm,
    fun _ h => absurd h (by simp), ?_⟩
  have hnil : (r.body.filter fun e => !true && e.1.HoldsBy K) = [] :=
    List.filter_eq_nil_iff.mpr (by simp)
  rw [hnil]
  simp [exactWeight]

theorem Leaves.sheds (h : Leaves K r s) :
    Sheds (fun e => e.1.HoldsBy K ∨ e.1.FailsBy K) r.body s.body := by
  obtain ⟨p, hbody, hlost, -⟩ := h.body
  exact ⟨p, hbody, hlost⟩

theorem Leaves.freed (h : Leaves K r s) : Rule.Leaves K r.freed s.freed :=
  ⟨h.choice, h.head, .refl _ _⟩

theorem Leaves.mono (h : K ≤ L) (hL : L.Consistent) (hr : Leaves K r s) : Leaves L r s := by
  refine ⟨hr.choice, hr.head.mono fun _ => .mono h, ?_⟩
  obtain ⟨p, hbody, hlost, hlower⟩ := hr.body
  refine ⟨p, hbody, fun e he => (hlost e he).imp (Literal.holdsBy_mono h)
    (Literal.failsBy_mono h), hlower.trans ?_⟩
  congr 2
  refine List.filter_congr fun e _ => ?_
  cases hp : p e with
  | true => rfl
  | false =>
      have hsame : e.1.HoldsBy K = e.1.HoldsBy L := by
        rw [Bool.eq_iff_iff]
        refine ⟨Literal.holdsBy_mono h, fun hholds => (hlost e hp).resolve_right fun hfails => ?_⟩
        exact Literal.not_failsBy hL hholds (Literal.failsBy_mono h hfails)
      rw [hsame]

theorem Leaves.eraseHead (h : Leaves K r s) (hs : s.head.Nodup) (hx : K.OmitsHead r.choice x) :
    Leaves K r { s with head := s.head.erase x } :=
  ⟨h.choice, h.head.erase hs hx, h.body⟩

/-- A literal of which something is known goes, and its weight with it if the literal holds. -/
theorem Leaves.without (h : Leaves K r s) {taken : Int}
    (hl : l.HoldsBy K ∨ l.FailsBy K) (htaken : taken = exactWeight (s.body.filter fun e =>
      e.1 == l && e.1.HoldsBy K)) :
    Leaves K r { s with lower := s.lower - taken, body := Fitting.withoutLiteral l s.body } := by
  obtain ⟨p, hbody, hlost, hlower⟩ := h.body
  refine ⟨h.choice, h.head, fun e => p e && e.1 != l, ?_, fun e he => ?_, ?_⟩
  · dsimp only
    rw [hbody, Fitting.withoutLiteral, List.filter_filter]
    exact List.filter_congr fun e _ => Bool.and_comm _ _
  · rcases Bool.and_eq_false_iff.mp he with he | he
    · exact hlost e he
    · obtain rfl : e.1 = l := by simpa using he
      exact hl
  · have hsplit := exactWeight_filter_split r.body
      (fun e => !(p e && e.1 != l) && e.1.HoldsBy K) p
    have hkept : (r.body.filter p).filter (fun e => !(p e && e.1 != l) && e.1.HoldsBy K) =
        s.body.filter fun e => e.1 == l && e.1.HoldsBy K := by
      rw [hbody]
      refine List.filter_congr fun e he => ?_
      simp [(List.mem_filter.mp he).2, bne]
    have hgone : (r.body.filter fun e => !p e && (!(p e && e.1 != l) && e.1.HoldsBy K)) =
        r.body.filter fun e => !p e && e.1.HoldsBy K := by
      refine List.filter_congr fun e _ => ?_
      cases p e <;> simp
    rw [hkept, hgone] at hsplit
    dsimp only
    omega

/-- Where the weights fit, they still do with a part of them taken off the bound. -/
theorem Leaves.hasFittingBound (h : Leaves K r s) (hr : r.HasFittingBound) :
    s.HasFittingBound := by
  obtain ⟨p, hbody, -, hlower⟩ := h.body
  have hsplit := exactWeight_filter_add r.body p
  have htaken : exactWeight (r.body.filter fun e => !p e && e.1.HoldsBy K) ≤
      exactWeight (r.body.filter fun e => !p e) :=
    exactWeight_filter_mono hr.weights.nonneg fun e _ he => (Bool.and_eq_true_iff.mp he).1
  have hnonneg := exactWeight_nonneg (hr.weights.sublist (List.filter_sublist
    (p := fun e => !p e && e.1.HoldsBy K))).nonneg
  have hbound := hr.lower
  have hupper := hr.upper
  refine ⟨hbody ▸ hr.weights.sublist List.filter_sublist, ?_, ?_⟩
  · rw [hbody]
    omega
  · omega

theorem Leaves.satisfy (h : Leaves K r s) (hr : r.HasFittingBound) (hl : l.HoldsBy K) :
    Leaves K r { s with
      lower := wrapWeight (s.lower - totalWeight (s.body.filter fun e => e.1 == l))
      body := Fitting.withoutLiteral l s.body } := by
  rw [(h.hasFittingBound hr).wrapWeight_lower]
  refine h.without (Or.inl hl) (congrArg exactWeight (List.filter_congr fun e _ => ?_))
  by_cases he : e.1 = l <;> simp [he, hl]

theorem Leaves.falsify (h : Leaves K r s) (hK : K.Consistent) (hl : l.FailsBy K) :
    Leaves K r { s with body := Fitting.withoutLiteral l s.body } := by
  have hnil : (s.body.filter fun e => e.1 == l && e.1.HoldsBy K) = [] := by
    refine List.filter_eq_nil_iff.mpr fun e _ he => ?_
    obtain ⟨heq, hholds⟩ : e.1 = l ∧ e.1.HoldsBy K := by simpa using he
    exact Literal.not_failsBy hK hholds (heq ▸ hl)
  have hwithout : Leaves K r { s with
      lower := s.lower - 0
      body := Fitting.withoutLiteral l s.body } :=
    h.without (Or.inr hl) (by rw [hnil]; rfl)
  rwa [Int.sub_zero] at hwithout

theorem Leaves.hasNonnegWeights (h : Leaves K r s) (hw : r.HasNonnegWeights) :
    s.HasNonnegWeights := fun e he => hw e (h.sheds.mem_of_mem he)

/-- What may still be had has not become less than what was lost counted for. -/
theorem Leaves.possible_le (h : Leaves K r s) (hw : r.HasNonnegWeights) (hKL : K ≤ L) :
    r.possible L - r.lower ≤ s.possible L - s.lower := by
  obtain ⟨p, hbody, hlost, hlower⟩ := h.body
  have hsplit := exactWeight_filter_split r.body (fun e => !e.1.FailsBy L) p
  have hrest : exactWeight (r.body.filter fun e => !p e && !e.1.FailsBy L) ≤
      exactWeight (r.body.filter fun e => !p e && e.1.HoldsBy K) := by
    refine exactWeight_filter_mono hw fun e _ he => ?_
    simp only [Bool.and_eq_true, Bool.not_eq_true'] at he ⊢
    refine ⟨he.1, (hlost e he.1).resolve_right fun hfails => ?_⟩
    exact absurd (Literal.failsBy_mono hKL hfails) (by simp [he.2])
  unfold possible
  rw [hbody]
  omega

theorem Leaves.possible_eq (h : Leaves K r s) (hw : r.HasNonnegWeights) (hKL : K ≤ L)
    (hL : L.Consistent) : r.possible L - r.lower = s.possible L - s.lower := by
  refine le_antisymm (h.possible_le hw hKL) ?_
  obtain ⟨p, hbody, hlost, hlower⟩ := h.body
  have hsplit := exactWeight_filter_split r.body (fun e => !e.1.FailsBy L) p
  have hrest : exactWeight (r.body.filter fun e => !p e && e.1.HoldsBy K) ≤
      exactWeight (r.body.filter fun e => !p e && !e.1.FailsBy L) := by
    refine exactWeight_filter_mono hw fun e _ he => ?_
    simp only [Bool.and_eq_true, Bool.not_eq_true'] at he ⊢
    exact ⟨he.1, by simpa using Literal.not_failsBy hL (Literal.holdsBy_mono hKL he.2)⟩
  unfold possible
  rw [hbody]
  omega

theorem Leaves.sure_le (h : Leaves K r s) (hw : r.HasNonnegWeights) (hKL : K ≤ L) :
    s.sure L - s.lower ≤ r.sure L - r.lower := by
  obtain ⟨p, hbody, hlost, hlower⟩ := h.body
  have hsplit := exactWeight_filter_split r.body (fun e => e.1.HoldsBy L) p
  have hrest : exactWeight (r.body.filter fun e => !p e && e.1.HoldsBy K) ≤
      exactWeight (r.body.filter fun e => !p e && e.1.HoldsBy L) := by
    refine exactWeight_filter_mono hw fun e _ he => ?_
    simp only [Bool.and_eq_true, Bool.not_eq_true'] at he ⊢
    exact ⟨he.1, Literal.holdsBy_mono hKL he.2⟩
  unfold sure
  rw [hbody]
  omega

theorem Leaves.spent (h : Leaves K r s) (hw : r.HasNonnegWeights) (hKL : K ≤ L)
    (hs : s.spent L) : r.spent L := by
  rw [spent_iff] at hs ⊢
  rcases hs with hbound | hhead
  · have := h.possible_le hw hKL
    exact Or.inl (by omega)
  · exact Or.inr (Knowledge.closesHead_of_sheds h.head hKL (h.choice ▸ hhead))

theorem Leaves.spent_of_consistent (h : Leaves K r s) (hw : r.HasNonnegWeights) (hKL : K ≤ L)
    (hL : L.Consistent) (hr : r.spent L) : s.spent L := by
  rw [spent_iff] at hr ⊢
  rcases hr with hbound | hhead
  · have := h.possible_eq hw hKL hL
    exact Or.inl (by omega)
  · exact Or.inr (h.choice ▸ hL.closesHead_of_sheds h.head hKL hhead)

theorem Leaves.reached (h : Leaves K r s) (hw : r.HasNonnegWeights) (hKL : K ≤ L)
    (hs : s.lower ≤ 0) : r.Reached L := by
  have hsure : 0 ≤ s.sure L :=
    exactWeight_nonneg fun e he => h.hasNonnegWeights hw e (List.mem_filter.mp he).1
  have := h.sure_le hw hKL
  unfold Reached
  omega

/-- If a weight rule is quiet, so is what it leaves once its bound is reached. -/
theorem Quiet.freed (hr : r.Quiet K) (hw : r.HasNonnegWeights) (hK : K.Consistent)
    (hreached : r.Reached K) : r.freed.Quiet K := by
  rcases hr with hspent | hresidue | hfreed
  · exact Or.inl (spent_freed.trans (hreached.closesHead hw hK hspent))
  · have hlower : (r.residue K).lower ≤ 0 := Int.sub_nonpos_of_le hreached
    unfold Fitting.isTrivialWeight at hresidue
    simp [hlower] at hresidue
  · exact hfreed.2

theorem isTrivialWeight_of_le_one (hchoice : r.choice = false) (hhead : r.head = [])
    (hbody : r.body.length ≤ 1) : Fitting.isTrivialWeight r := by
  obtain ⟨choice, head, lower, body⟩ := r
  obtain rfl : choice = false := hchoice
  obtain rfl : head = [] := hhead
  rcases body with _ | ⟨e, _ | ⟨e', body⟩⟩
  · by_cases hlower : lower ≤ 0
    · simp [Fitting.isTrivialWeight, hlower]
    · simp [Fitting.isTrivialWeight, WeightRule.total, totalWeight, not_le.mp hlower]
  · simp [Fitting.isTrivialWeight]
  · simp at hbody

/-- If a weight rule without atoms to derive is quiet, the only literal left of it fails, if it
reaches the bound. -/
theorem Leaves.failsBy (h : Leaves K r s) (hw : r.HasNonnegWeights) (hKL : K ≤ L)
    (hL : L.Consistent) (hr : r.Quiet L) (hchoice : s.choice = false) (hhead : s.head = [])
    {w : Int} (hbody : s.body = [(l, w)]) (hreach : s.lower ≤ w) : l.FailsBy L := by
  have hopen : ¬L.closesHead r.choice r.head := by
    intro hclosed
    have := hL.closesHead_of_sheds h.head hKL hclosed
    rw [← h.choice, hchoice, hhead] at this
    simp [Knowledge.closesHead] at this
  have htrivial : Fitting.isTrivial (r.freed.residue L) := by
    refine h.freed.isTrivial_residue hKL (Rule.isTrivial_iff.mpr ?_)
    simp [WeightRule.freed, hchoice, hhead]
  -- Only the first of the three reasons to be quiet is left, as nothing but the literal is.
  rcases hr with hspent | hresidue | ⟨-, hfreed⟩
  · have hspent := h.spent_of_consistent hw hKL hL hspent
    rcases spent_iff.mp hspent with hbound | hclosed
    · by_contra hfails
      rw [Bool.not_eq_true] at hfails
      unfold possible at hbound
      rw [hbody] at hbound
      simp [hfails] at hbound
      omega
    · rw [hchoice, hhead] at hclosed
      simp [Knowledge.closesHead] at hclosed
  · have hlength : (r.residue L).body.length ≤ 1 := by
      have hle := h.sheds.length_filter_le (p := fun e => !e.1.HoldsBy L && !e.1.FailsBy L)
        fun e he => by
          rcases he with he | he
          · simp [Literal.holdsBy_mono hKL he]
          · simp [Literal.failsBy_mono hKL he]
      rwa [hbody] at hle
    have hnil : (r.residue L).head = [] := by
      have hle := h.head.length_filter_le (p := fun x => !L.decides x) fun x hx => by
        simpa using Knowledge.decides_mono hKL hx.decides
      rw [hhead] at hle
      exact List.eq_nil_of_length_eq_zero (Nat.le_zero.mp hle)
    have hplain : (r.residue L).choice = false := h.choice.symm.trans hchoice
    exact absurd (isTrivialWeight_of_le_one hplain hnil hlength) (by simp [hresidue])
  · rcases hfreed with hspent | hresidue
    · exact absurd (spent_freed.symm.trans hspent) hopen
    · exact absurd htrivial (by simp [hresidue])

theorem Leaves.eq_residue (h : Leaves K r s) (hhead : ∀ x ∈ s.head, ¬K.decides x)
    (hbody : ∀ e ∈ s.body, ¬e.1.HoldsBy K ∧ ¬e.1.FailsBy K) : s = r.residue K := by
  obtain ⟨choice, head, lower, body⟩ := s
  obtain rfl := h.choice
  have hhead : head = r.head.filter fun x => !K.decides x :=
    h.head.eq_filter (fun x hx => by simpa using hx.decides) fun x hx => by simpa using hhead x hx
  have hkept : body = r.body.filter fun e => !e.1.HoldsBy K && !e.1.FailsBy K := by
    refine h.sheds.eq_filter (fun e he => ?_) fun e he => by simpa using hbody e he
    rcases he with he | he <;> simp [he]
  have hlower : lower = r.lower - r.sure K := by
    obtain ⟨p, hp, -, hlower⟩ := h.body
    refine hlower.trans (congrArg (r.lower - exactWeight ·) (List.filter_congr fun e he => ?_))
    cases hkeep : p e with
    | false => rfl
    | true =>
        have hp : body = r.body.filter p := hp
        have hmem : e ∈ body := by
          rw [hp]
          exact List.mem_filter.mpr ⟨he, hkeep⟩
        simpa using (hbody e hmem).1
  rw [hhead, hkept, hlower]
  rfl

end WeightRule

end StablePlan
