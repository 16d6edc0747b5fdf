import StablePlan.Text.Decimal

/-!
Reading numerals back. A run of characters of one class is taken whole if what follows it is of
another class; so a written number is read as the number, unless a digit follows.
-/

namespace StablePlan

/-! ### Runs -/

namespace Text

variable {p : Char → Bool} {run rest : List Char} {c : Char}

/-- A text whose first character, if it has one, is not of a class. -/
def Stops (p : Char → Bool) (text : List Char) : Prop := ∀ c ∈ text.head?, p c = false

@[simp] theorem stops_nil (p : Char → Bool) : Stops p [] := by
  simp [Stops]

@[simp] theorem stops_cons : Stops p (c :: rest) ↔ p c = false := by
  simp [Stops]

theorem Stops.takeWhile (h : Stops p rest) : rest.takeWhile p = [] := by
  cases rest with
  | nil => rfl
  | cons c rest => simp [stops_cons.mp h]

theorem Stops.dropWhile (h : Stops p rest) : rest.dropWhile p = rest := by
  cases rest with
  | nil => rfl
  | cons c rest => simp [stops_cons.mp h]

theorem Stops.takeWhile_append (h : Stops p rest) (hrun : ∀ c ∈ run, p c) :
    (run ++ rest).takeWhile p = run := by
  rw [List.takeWhile_append_of_pos hrun, h.takeWhile, List.append_nil]

theorem Stops.dropWhile_append (h : Stops p rest) (hrun : ∀ c ∈ run, p c) :
    (run ++ rest).dropWhile p = rest := by
  rw [List.dropWhile_append_of_pos hrun, h.dropWhile]

end Text

namespace Scan

variable {α : Type} {text rest : List Char} {v : α}

/-- What is read, apart from the proof that the rest is shorter. -/
def Reads (scan : Option (Scan α text)) (v : α) (rest : List Char) : Prop :=
  scan.map toPair = some (v, rest)

theorem reads_iff {scan : Option (Scan α text)} :
    Reads scan v rest ↔ ∃ s, scan = some s ∧ s.value = v ∧ s.rest = rest := by
  unfold Reads
  rw [Option.map_eq_some_iff]
  simp only [toPair, Prod.mk.injEq]

@[simp] theorem reads_some {s : Scan α text} :
    Reads (some s) v rest ↔ s.value = v ∧ s.rest = rest := by
  simp [Reads, toPair]

@[simp] theorem not_reads_none : ¬Reads (none : Option (Scan α text)) v rest := by
  simp [Reads]

theorem Reads.map {β : Type} {scan : Option (Scan α text)} (h : Reads scan v rest) (f : α → β) :
    Reads (scan.map (Scan.map f)) (f v) rest := by
  obtain ⟨s, rfl, rfl, rfl⟩ := reads_iff.mp h
  exact rfl

end Scan

namespace Decimal

open Text

variable {n : Nat} {z : Int} {rest : List Char}

/-! ### Digits -/

theorem value_eq (digits : List Char) : value digits = Nat.ofDigitChars 10 digits 0 := rfl

theorem natural_eq (n : Nat) : natural n = Nat.toDigits 10 n := by
  unfold natural
  rw [Nat.toString_eq_repr, Nat.toList_repr]

@[simp] theorem natural_ne_nil (n : Nat) : natural n ≠ [] := by
  rw [natural_eq]
  exact Nat.toDigits_ne_nil

theorem isDigit_of_mem_natural {c : Char} (h : c ∈ natural n) : c.isDigit := by
  rw [natural_eq] at h
  exact Nat.isDigit_of_mem_toDigits (by decide) (by decide) h

@[simp] theorem value_natural (n : Nat) : value (natural n) = n := by
  rw [value_eq, natural_eq, Nat.ofDigitChars_ten_toDigits]

theorem integer_of_nonneg (h : 0 ≤ z) : integer z = natural z.toNat := by
  unfold integer natural
  rw [Int.toString_eq_repr, Int.repr_eq_if, if_pos h, Nat.toString_eq_repr]

theorem integer_of_neg (h : z < 0) : integer z = '-' :: natural (-z).toNat := by
  unfold integer natural
  rw [Int.toString_eq_repr, Int.repr_eq_if, if_neg (by omega), Nat.toString_eq_repr]
  simp

/-- The first character of a number is a digit or a minus sign. -/
theorem head_integer (z : Int) : ∃ c text, integer z = c :: text ∧ (c.isDigit ∨ c = '-') := by
  by_cases hz : 0 ≤ z
  · obtain ⟨c, text, htext⟩ := List.exists_cons_of_ne_nil (natural_ne_nil z.toNat)
    rw [integer_of_nonneg hz, htext]
    exact ⟨c, text, rfl, Or.inl (isDigit_of_mem_natural (htext ▸ List.mem_cons_self))⟩
  · rw [integer_of_neg (by omega)]
    exact ⟨'-', _, rfl, Or.inr rfl⟩

/-! ### Reading -/

theorem reads_scanNatural {digits : List Char} (hdigits : ∀ c ∈ digits, c.isDigit)
    (hne : digits ≠ []) (hrest : Stops Char.isDigit rest) :
    Scan.Reads (scanNatural (digits ++ rest)) (value digits) rest := by
  have htake := hrest.takeWhile_append hdigits
  have hdrop := hrest.dropWhile_append hdigits
  unfold scanNatural
  rw [dif_pos (by rwa [htake])]
  exact Scan.reads_some.mpr ⟨congrArg value htake, hdrop⟩

theorem reads_scanNatural_natural (n : Nat) (hrest : Stops Char.isDigit rest) :
    Scan.Reads (scanNatural (natural n ++ rest)) n rest := by
  have h := reads_scanNatural (fun _ => isDigit_of_mem_natural) (natural_ne_nil n) hrest
  rwa [value_natural] at h

theorem scanNatural_eq_none {text : List Char} (h : Stops Char.isDigit text) :
    scanNatural text = none := by
  unfold scanNatural
  rw [dif_neg (by rw [h.takeWhile]; simp)]

theorem scanInteger_of_ne {text : List Char} (h : text.head? ≠ some '-') :
    scanInteger text = (scanNatural text).map (Scan.map Int.ofNat) := by
  unfold scanInteger
  split
  · exact absurd rfl h
  · rfl

theorem reads_scanInteger_integer (z : Int) (hrest : Stops Char.isDigit rest) :
    Scan.Reads (scanInteger (integer z ++ rest)) z rest := by
  by_cases hz : 0 ≤ z
  · obtain ⟨c, text, htext⟩ := List.exists_cons_of_ne_nil (natural_ne_nil z.toNat)
    have hc : c.isDigit := isDigit_of_mem_natural (htext ▸ List.mem_cons_self)
    have hsign : (integer z ++ rest).head? ≠ some '-' := by
      rw [integer_of_nonneg hz, htext]
      rintro h
      obtain rfl : c = '-' := by simpa using h
      exact absurd hc (by decide)
    rw [scanInteger_of_ne hsign, integer_of_nonneg hz]
    have h := (reads_scanNatural_natural z.toNat hrest).map Int.ofNat
    rwa [Int.ofNat_eq_natCast, Int.toNat_of_nonneg hz] at h
  · rw [integer_of_neg (by omega)]
    obtain ⟨s, hs, hvalue, hrest⟩ := Scan.reads_iff.mp
      (reads_scanNatural_natural (-z).toNat hrest)
    refine Scan.reads_iff.mpr ⟨_, congrArg (Option.map _) hs, ?_, hrest⟩
    change -(s.value : Int) = z
    omega

theorem scanInteger_eq_none {text : List Char} (hdigit : Stops Char.isDigit text)
    (hsign : text.head? ≠ some '-') : scanInteger text = none := by
  rw [scanInteger_of_ne hsign, scanNatural_eq_none hdigit]
  rfl

end Decimal

end StablePlan
