import Mathlib.Tactic.ByContra
import StablePlan.Proofs.Text.Decimal
import StablePlan.Text.Quoted

/-!
Reading quoted texts back. A character is plain if it is written as it is or with one of the three
escapes that a reader knows. A text of plain characters is read back; the first other character in
a written text stops the reader, whatever follows.
-/

namespace StablePlan.Text

variable {c : Char} {text rest : List Char}

/-- Written as it is, or as the escape of the backslash, the quote or the line feed. -/
def IsPlain (c : Char) : Prop :=
  escape c = [c] ∨ escape c = ['\\', '\\'] ∨ escape c = ['\\', '"'] ∨ escape c = ['\\', 'n']

instance (c : Char) : Decidable (IsPlain c) :=
  inferInstanceAs (Decidable (_ ∨ _ ∨ _ ∨ _))

/-- How a character is written. -/
inductive Written (c : Char) : Prop
  | plainly (h : escape c = [c]) (hbackslash : c ≠ '\\') (hquote : c ≠ '"')
  | escaped (d : Char) (h : escape c = ['\\', d]) (hd : unescape d = some c)
  | otherwise (d : Char) (more : List Char) (h : escape c = '\\' :: d :: more)
      (hd : unescape d = none)

theorem written (c : Char) : Written c := by
  by_cases hquote : c = '"'
  · subst hquote
    exact .escaped '"' rfl rfl
  by_cases hbackslash : c = '\\'
  · subst hbackslash
    exact .escaped '\\' rfl rfl
  by_cases hfeed : c = '\n'
  · subst hfeed
    exact .escaped 'n' rfl rfl
  have hescape : escape c = if c = '\r' then ['\\', 'r'] else if c = '\t' then ['\\', 't']
      else if c.toNat = 0 then ['\\', '0'] else if needsCodePoint c then
        ['\\', 'u', '\x7b'] ++ hexDigits c.toNat ++ ['\x7d'] else [c] := by
    unfold escape
    rw [if_neg hquote, if_neg hbackslash, if_neg hfeed]
  split at hescape
  · exact .otherwise 'r' [] hescape rfl
  split at hescape
  · exact .otherwise 't' [] hescape rfl
  split at hescape
  · exact .otherwise '0' [] hescape rfl
  split at hescape
  · exact .otherwise 'u' _ hescape rfl
  · exact .plainly hescape hbackslash hquote

theorem isPlain_of_unescape {d : Char} (h : escape c = ['\\', d]) (hd : unescape d = some c) :
    IsPlain c := by
  unfold unescape at hd
  split at hd
  · rename_i hor
    rcases hor with rfl | rfl
    · exact Or.inr (Or.inl h)
    · exact Or.inr (Or.inr (Or.inl h))
  split at hd
  · rename_i hn
    exact Or.inr (Or.inr (Or.inr (hn ▸ h)))
  · exact absurd hd (by simp)

theorem not_isPlain_of_unescape {d : Char} {more : List Char} (h : escape c = '\\' :: d :: more)
    (hd : unescape d = none) : ¬IsPlain c := by
  unfold IsPlain
  rw [h]
  rintro (heq | heq | heq | heq)
  · simp at heq
  · obtain rfl : d = '\\' := by simp_all
    exact absurd hd (by decide)
  · obtain rfl : d = '"' := by simp_all
    exact absurd hd (by decide)
  · obtain rfl : d = 'n' := by simp_all
    exact absurd hd (by decide)

/-! ### The inside of the quotes -/

theorem scanQuotedBody_cons (hquote : c ≠ '"') (hbackslash : c ≠ '\\') (rest : List Char) :
    scanQuotedBody (c :: rest) = (scanQuotedBody rest).map fun s =>
      ⟨c :: s.value, s.rest, Nat.lt_succ_of_lt s.rest_lt⟩ := by
  rw [scanQuotedBody.eq_5 c rest hquote (fun _ _ h => absurd h hbackslash)
    fun h => absurd h hbackslash]
  cases scanQuotedBody rest <;> rfl

theorem scanQuotedBody_escaped {d : Char} (hd : unescape d = some c) (rest : List Char) :
    scanQuotedBody ('\\' :: d :: rest) = (scanQuotedBody rest).map fun s =>
      ⟨c :: s.value, s.rest, Nat.lt_succ_of_lt (Nat.lt_succ_of_lt s.rest_lt)⟩ := by
  rw [scanQuotedBody, hd]
  cases scanQuotedBody rest <;> rfl

/-- An escape that is not known stops the reader. -/
theorem scanQuotedBody_eq_none {d : Char} (hd : unescape d = none) (rest : List Char) :
    scanQuotedBody ('\\' :: d :: rest) = none := by
  rw [scanQuotedBody, hd]

/-- A plain character is read back. -/
theorem map_scanQuotedBody_escape (hplain : IsPlain c) (rest : List Char) :
    (scanQuotedBody (escape c ++ rest)).map Scan.toPair =
      (scanQuotedBody rest).map fun s => (c :: s.value, s.rest) := by
  rcases written c with ⟨h, hbackslash, hquote⟩ | ⟨d, h, hd⟩ | ⟨d, more, h, hd⟩
  · rw [h, List.singleton_append, scanQuotedBody_cons hquote hbackslash, Option.map_map]
    rfl
  · rw [h]
    change (scanQuotedBody ('\\' :: d :: rest)).map Scan.toPair = _
    rw [scanQuotedBody_escaped hd, Option.map_map]
    rfl
  · exact absurd hplain (not_isPlain_of_unescape h hd)

theorem scanQuotedBody_escape_eq_none (hplain : ¬IsPlain c) (rest : List Char) :
    scanQuotedBody (escape c ++ rest) = none := by
  rcases written c with ⟨h, -, -⟩ | ⟨d, h, hd⟩ | ⟨d, more, h, hd⟩
  · exact absurd (Or.inl h) hplain
  · exact absurd (isPlain_of_unescape h hd) hplain
  · rw [h]
    exact scanQuotedBody_eq_none hd (more ++ rest)

/-! ### Whole texts -/

theorem reads_scanQuotedBody (h : ∀ c ∈ text, IsPlain c) (rest : List Char) :
    Scan.Reads (scanQuotedBody (text.flatMap escape ++ '"' :: rest)) text rest := by
  induction text with
  | nil => exact rfl
  | cons c text ih =>
      obtain ⟨s, hs, hvalue, hrest⟩ := Scan.reads_iff.mp (ih fun x hx => h x (by simp [hx]))
      unfold Scan.Reads
      rw [List.flatMap_cons, List.append_assoc, map_scanQuotedBody_escape (h c (by simp)), hs,
        Option.map_some, hvalue, hrest]

theorem scanQuotedBody_eq_none_of_mem (h : ∃ c ∈ text, ¬IsPlain c) (rest : List Char) :
    scanQuotedBody (text.flatMap escape ++ rest) = none := by
  induction text with
  | nil => simp at h
  | cons c text ih =>
      rw [List.flatMap_cons, List.append_assoc]
      by_cases hc : IsPlain c
      · have hnone := ih (by simpa [hc] using h)
        have hmap := map_scanQuotedBody_escape hc (text.flatMap escape ++ rest)
        rw [hnone] at hmap
        simpa using hmap
      · exact scanQuotedBody_escape_eq_none hc _

theorem scanQuoted_quote_append (text rest : List Char) :
    (scanQuoted (quote text ++ rest)).map Scan.toPair =
      (scanQuotedBody (text.flatMap escape ++ '"' :: rest)).map Scan.toPair := by
  have hquote : quote text ++ rest = '"' :: (text.flatMap escape ++ '"' :: rest) := by
    simp [quote]
  rw [hquote, scanQuoted]
  cases scanQuotedBody (text.flatMap escape ++ '"' :: rest) <;> rfl

/-- A text of plain characters is read back from its written form. -/
theorem reads_scanQuoted (h : ∀ c ∈ text, IsPlain c) (rest : List Char) :
    Scan.Reads (scanQuoted (quote text ++ rest)) text rest :=
  (scanQuoted_quote_append text rest).trans (reads_scanQuotedBody h rest)

theorem scanQuoted_quote_eq_none (h : ∃ c ∈ text, ¬IsPlain c) (rest : List Char) :
    scanQuoted (quote text ++ rest) = none := by
  have hnone := scanQuoted_quote_append text rest
  rw [scanQuotedBody_eq_none_of_mem h] at hnone
  simpa using hnone

theorem scanQuoted_eq_none (h : text.head? ≠ some '"') : scanQuoted text = none := by
  unfold scanQuoted
  split
  · exact absurd rfl h
  · rfl

end StablePlan.Text
