import Mathlib.Data.List.TakeWhile
import StablePlan.Proofs.Text.Decimal
import StablePlan.Text.Blank

/-!
Lines without the white space at their ends. The carriage return in front of a line feed is white
space, so it makes no difference whether it counts as a part of the line; what is left of the lines
of a text is what is left of each.
-/

namespace StablePlan.Text

variable {c : Char} {text line rest : List Char} {p : Char → Bool}

/-! ### Digits are not blank -/

theorem isGap_of_isDigit (h : c.isDigit) : isGap c = false := by
  unfold isGap
  rw [Bool.or_eq_false_iff, beq_eq_false_iff_ne, beq_eq_false_iff_ne]
  constructor <;> rintro rfl <;> exact absurd h (by decide)

theorem isWhiteSpace_of_isDigit (h : c.isDigit) : isWhiteSpace c = false := by
  have hrange : 48 ≤ c.toNat ∧ c.toNat ≤ 57 := Char.isDigit_iff_toNat.mp h
  unfold isWhiteSpace
  simp only [Bool.or_eq_false_iff, Bool.and_eq_false_iff, decide_eq_false_iff_not,
    beq_eq_false_iff_ne]
  omega

/-! ### The end of a line -/

@[simp] theorem trimEnd_nil : trimEnd [] = [] := rfl

theorem trimEnd_cons (c : Char) (text : List Char) :
    trimEnd (c :: text) = if trimEnd text = [] ∧ isWhiteSpace c then [] else c :: trimEnd text := by
  unfold trimEnd
  rw [List.reverse_cons, List.dropWhile_append]
  cases htext : text.reverse.dropWhile isWhiteSpace with
  | nil => cases hc : isWhiteSpace c <;> simp [hc]
  | cons d more => simp

theorem trimEnd_eq_nil_iff : trimEnd text = [] ↔ ∀ c ∈ text, isWhiteSpace c := by
  unfold trimEnd
  rw [List.reverse_eq_nil_iff, List.dropWhile_eq_nil_iff]
  simp only [List.mem_reverse]

theorem trimEnd_append (h : trimEnd rest ≠ []) :
    trimEnd (text ++ rest) = text ++ trimEnd rest := by
  induction text with
  | nil => rfl
  | cons c text ih =>
      rw [List.cons_append, trimEnd_cons, ih, if_neg, List.cons_append]
      simp [h]

/-- Nothing in front of a character that is not white is lost. -/
theorem trimEnd_append_cons (hc : isWhiteSpace c = false) (text rest : List Char) :
    trimEnd (text ++ c :: rest) = text ++ c :: trimEnd rest := by
  have hcons : trimEnd (c :: rest) = c :: trimEnd rest := by
    rw [trimEnd_cons, if_neg]
    simp [hc]
  rw [trimEnd_append (by simp [hcons]), hcons]

/-- A text that loses nothing, and has something to lose. -/
def IsTrimmed (text : List Char) : Prop := text ≠ [] ∧ trimEnd text = text

theorem IsTrimmed.append (h : IsTrimmed rest) (text : List Char) : IsTrimmed (text ++ rest) :=
  ⟨by simp [h.1], by rw [trimEnd_append (h.2.symm ▸ h.1), h.2]⟩

theorem IsTrimmed.append_of (h : IsTrimmed text) (hrest : rest = [] ∨ IsTrimmed rest) :
    IsTrimmed (text ++ rest) := by
  rcases hrest with rfl | hrest
  · rwa [List.append_nil]
  · exact hrest.append text

theorem isTrimmed_of_forall (hne : text ≠ []) (h : ∀ c ∈ text, isWhiteSpace c = false) :
    IsTrimmed text := by
  obtain ⟨init, c, rfl⟩ := (List.eq_nil_or_concat text).resolve_left hne
  rw [List.concat_eq_append] at hne h ⊢
  exact ⟨hne, trimEnd_append_cons (h c (by simp)) init []⟩

theorem Stops.trimEnd (h : Stops p text) : Stops p (trimEnd text) := by
  cases text with
  | nil => exact h
  | cons c text =>
      rw [trimEnd_cons]
      split
      · exact stops_nil p
      · exact stops_cons.mpr (stops_cons.mp h)

/-! ### The lines of a text -/

/-- The lines of a text, without the white space at their ends. -/
def trimmedLines (text : List Char) : List (List Char) := (lines text).map trimEnd

/-- Lines as they stand in a file, each with a line feed at its end. -/
def unlines (ls : List (List Char)) : List Char := ls.flatMap fun line => line ++ ['\n']

theorem lines_cons (hfeed : c ≠ '\n') (hreturn : c = '\r' → text.head? ≠ some '\n') :
    lines (c :: text) = match lines text with
      | [] => [[c]]
      | line :: more => (c :: line) :: more := by
  refine (lines.eq_4 c text hfeed fun rest hc htext => hreturn hc (by rw [htext]; rfl)).trans ?_
  cases lines text <;> rfl

theorem trimmedLines_feed (text : List Char) :
    trimmedLines ('\n' :: text) = [] :: trimmedLines text := by
  simp [trimmedLines, lines]

/-- The first line takes a further character, unless that ends it. -/
theorem trimmedLines_cons (hfeed : c ≠ '\n') {more : List (List Char)}
    (h : trimmedLines text = trimEnd line :: more) :
    trimmedLines (c :: text) = trimEnd (c :: line) :: more := by
  -- A carriage return right before a line feed is no character of the line.
  by_cases hreturn : c = '\r' → text.head? ≠ some '\n'
  · unfold trimmedLines at h ⊢
    obtain ⟨first, others, hlines, hfirst, rfl⟩ := List.map_eq_cons_iff.mp h
    rw [lines_cons hfeed hreturn, hlines]
    simp only [List.map_cons, trimEnd_cons, hfirst]
  · obtain ⟨rfl, hhead⟩ : c = '\r' ∧ text.head? = some '\n' := by simpa using hreturn
    obtain ⟨rest, rfl⟩ : ∃ rest, text = '\n' :: rest := by
      cases text with
      | nil => simp at hhead
      | cons d rest => exact ⟨rest, by rw [Option.some.inj hhead]⟩
    rw [trimmedLines_feed] at h
    obtain ⟨hline, rfl⟩ := List.cons.inj h
    rw [trimEnd_cons, ← hline]
    simp [trimmedLines, lines, isWhiteSpace]

theorem trimmedLines_append_feed (hfeed : '\n' ∉ line) (rest : List Char) :
    trimmedLines (line ++ '\n' :: rest) = trimEnd line :: trimmedLines rest := by
  induction line with
  | nil => exact trimmedLines_feed rest
  | cons c line ih =>
      obtain ⟨hc, hline⟩ := List.ne_and_not_mem_of_not_mem_cons hfeed
      exact trimmedLines_cons hc.symm (ih hline)

theorem trimmedLines_unlines {ls : List (List Char)} (hfeed : ∀ line ∈ ls, '\n' ∉ line)
    (rest : List Char) :
    trimmedLines (unlines ls ++ rest) = ls.map trimEnd ++ trimmedLines rest := by
  induction ls with
  | nil => rfl
  | cons line ls ih =>
      have hcons : unlines (line :: ls) ++ rest = line ++ '\n' :: (unlines ls ++ rest) := by
        simp [unlines]
      rw [hcons, trimmedLines_append_feed (hfeed line List.mem_cons_self),
        ih fun l hl => hfeed l (List.mem_cons_of_mem line hl)]
      rfl

/-- The first line begins as the text does. -/
theorem Stops.of_lines {first : List Char} {others : List (List Char)} (h : Stops p text)
    (hlines : lines text = first :: others) : Stops p first := by
  fun_cases lines text with
  | case1 => simp [lines] at hlines
  | case2 rest =>
      rw [lines] at hlines
      exact (List.cons.inj hlines).1 ▸ stops_nil p
  | case3 rest =>
      rw [lines] at hlines
      exact (List.cons.inj hlines).1 ▸ stops_nil p
  | case4 c rest hfeed hreturn hnil =>
      rw [lines.eq_4 c rest hfeed hreturn, hnil] at hlines
      exact (List.cons.inj hlines).1 ▸ stops_cons.mpr (stops_cons.mp h)
  | case5 c rest hfeed hreturn line more hmore =>
      rw [lines.eq_4 c rest hfeed hreturn, hmore] at hlines
      exact (List.cons.inj hlines).1 ▸ stops_cons.mpr (stops_cons.mp h)

theorem trimmedLines_cons_of_stops (hc : isWhiteSpace c = false) (h : Stops p text) :
    ∃ line more, trimmedLines (c :: text) = (c :: line) :: more ∧ Stops p line := by
  have hne : c ≠ '\n' ∧ c ≠ '\r' := by
    constructor <;> rintro rfl <;> exact absurd hc (by decide)
  have hcons : lines (c :: text) = match lines text with
      | [] => [[c]]
      | line :: more => (c :: line) :: more :=
    lines_cons hne.1 fun hreturn => absurd hreturn hne.2
  have htrim := fun line => trimEnd_append_cons hc [] line
  unfold trimmedLines
  cases hlines : lines text with
  | nil => exact ⟨[], [], by rw [hcons, hlines]; exact congrArg (· :: []) (htrim []), stops_nil p⟩
  | cons first others =>
      refine ⟨trimEnd first, others.map trimEnd, ?_, (h.of_lines hlines).trimEnd⟩
      rw [hcons, hlines]
      exact congrArg (· :: others.map trimEnd) (htrim first)

end StablePlan.Text
