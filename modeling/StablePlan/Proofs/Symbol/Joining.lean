import StablePlan.Proofs.Symbol.Reading
import StablePlan.Symbol.Facts

/-!
Joining files of facts. What ends in a full stop is read alike whatever follows it: a number or a
name needs a character behind it that ends it, a name no bracket, and a list its own bracket. A line
feed ends a comment that had no line end of its own. So a file that is read to its end may be put in
front of another one, and what is wrong with the other one is found as if it stood alone.
-/

namespace StablePlan

variable {text rest : List Char}

/-! ### Blanks -/

namespace Text

theorem runs_append {p : Char → Bool} (h : text.dropWhile p ≠ []) (more : List Char) :
    (text ++ more).takeWhile p = text.takeWhile p ∧
      (text ++ more).dropWhile p = text.dropWhile p ++ more := by
  induction text with
  | nil => exact absurd rfl h
  | cons c text ih =>
      cases hc : p c with
      | false => simp [hc]
      | true =>
          simp only [List.dropWhile_cons_of_pos hc] at h
          simp [hc, ih h]

theorem skipBlanks_append (h : skipBlanks text ≠ []) (more : List Char) :
    skipBlanks (text ++ more) = skipBlanks text ++ more :=
  (runs_append h more).2

theorem skipBlanks_append_of_cons {c : Char} (h : skipBlanks text = c :: rest)
    (more : List Char) : skipBlanks (text ++ more) = c :: (rest ++ more) := by
  rw [skipBlanks_append (by simp [h]), h, List.cons_append]

theorem Stops.append {p : Char → Bool} (h : Stops p text) (hne : text ≠ [])
    (more : List Char) : Stops p (text ++ more) := by
  obtain ⟨c, text, rfl⟩ := List.exists_cons_of_ne_nil hne
  exact stops_cons.mpr (stops_cons.mp h)

/-- Blanks that were skipped are not missed. -/
theorem skipBlanks_skipBlanks_append (text more : List Char) :
    skipBlanks (skipBlanks text ++ more) = skipBlanks (text ++ more) := by
  induction text with
  | nil => rfl
  | cons c text ih =>
      cases hc : isBlank c with
      | false => simp [skipBlanks, hc]
      | true =>
          simp only [skipBlanks, List.cons_append, List.dropWhile_cons_of_pos hc] at ih ⊢
          exact ih

/-! ### Numbers and quoted texts -/

/-- Nothing behind the closing quote is looked at. -/
theorem reads_scanQuotedBody_append {v : List Char}
    (h : Scan.Reads (scanQuotedBody text) v rest) (more : List Char) :
    Scan.Reads (scanQuotedBody (text ++ more)) v (rest ++ more) := by
  fun_induction scanQuotedBody text generalizing v with
  | case1 | case4 | case5 | case7 => exact absurd h Scan.not_reads_none
  | case2 =>
      obtain ⟨rfl, rfl⟩ := Scan.reads_some.mp h
      exact Scan.reads_some.mpr ⟨rfl, rfl⟩
  | case3 c text d s hs hd ih =>
      obtain ⟨rfl, rfl⟩ := Scan.reads_some.mp h
      obtain ⟨t, ht, hvalue, hafter⟩ := Scan.reads_iff.mp (ih (hs ▸ Scan.reads_some.mpr ⟨rfl, rfl⟩))
      simp only [List.cons_append]
      rw [scanQuotedBody_escaped hd, ht]
      exact Scan.reads_some.mpr ⟨congrArg (d :: ·) hvalue, hafter⟩
  | case6 c text hquote hescape hend s hs ih =>
      obtain ⟨rfl, rfl⟩ := Scan.reads_some.mp h
      obtain ⟨t, ht, hvalue, hafter⟩ := Scan.reads_iff.mp (ih (hs ▸ Scan.reads_some.mpr ⟨rfl, rfl⟩))
      have hbackslash : c ≠ '\\' := fun hc => by
        cases text with
        | nil => exact hend hc rfl
        | cons d text => exact hescape d text hc rfl
      rw [List.cons_append, scanQuotedBody_cons hquote hbackslash, ht]
      exact Scan.reads_some.mpr ⟨congrArg (c :: ·) hvalue, hafter⟩

theorem reads_scanQuoted_append {v : List Char} (h : Scan.Reads (scanQuoted text) v rest)
    (more : List Char) : Scan.Reads (scanQuoted (text ++ more)) v (rest ++ more) := by
  unfold scanQuoted at h
  split at h
  · split at h
    · rename_i text s hs
      obtain ⟨rfl, rfl⟩ := Scan.reads_some.mp h
      obtain ⟨t, ht, hvalue, hafter⟩ := Scan.reads_iff.mp
        (reads_scanQuotedBody_append (hs ▸ Scan.reads_some.mpr ⟨rfl, rfl⟩) more)
      rw [List.cons_append, scanQuoted, ht]
      exact Scan.reads_some.mpr ⟨hvalue, hafter⟩
    · exact absurd h Scan.not_reads_none
  · exact absurd h Scan.not_reads_none

end Text

namespace Decimal

/-- A numeral with a character behind it goes on no further. -/
theorem reads_scanNatural_append {n : Nat} (h : Scan.Reads (scanNatural text) n rest)
    (hrest : rest ≠ []) (more : List Char) :
    Scan.Reads (scanNatural (text ++ more)) n (rest ++ more) := by
  unfold scanNatural at h ⊢
  split at h
  · rename_i hdigits
    obtain ⟨rfl, rfl⟩ := Scan.reads_some.mp h
    obtain ⟨htake, hdrop⟩ := Text.runs_append hrest more
    rw [dif_pos (htake ▸ hdigits)]
    exact Scan.reads_some.mpr ⟨congrArg value htake, hdrop⟩
  · exact absurd h Scan.not_reads_none

theorem reads_scanInteger_append {z : Int} (h : Scan.Reads (scanInteger text) z rest)
    (hrest : rest ≠ []) (more : List Char) :
    Scan.Reads (scanInteger (text ++ more)) z (rest ++ more) := by
  obtain ⟨s, hs, rfl, rfl⟩ := Scan.reads_iff.mp h
  unfold scanInteger at hs
  split at hs
  · obtain ⟨t, ht, rfl⟩ := Option.map_eq_some_iff.mp hs
    obtain ⟨u, hu, hvalue, hafter⟩ := Scan.reads_iff.mp
      (reads_scanNatural_append (ht ▸ Scan.reads_some.mpr ⟨rfl, rfl⟩) hrest more)
    rw [List.cons_append, scanInteger, hu]
    exact Scan.reads_some.mpr ⟨congrArg (fun n : Nat => -(n : Int)) hvalue, hafter⟩
  · rename_i hsign
    obtain ⟨t, ht, rfl⟩ := Option.map_eq_some_iff.mp hs
    have hne : text ≠ [] := fun hnil => absurd t.rest_lt (by simp [hnil])
    rw [scanInteger_of_ne]
    · exact (reads_scanNatural_append (ht ▸ Scan.reads_some.mpr ⟨rfl, rfl⟩) hrest more).map _
    · obtain ⟨c, text, rfl⟩ := List.exists_cons_of_ne_nil hne
      rintro hc
      exact hsign text (by simpa using hc)

end Decimal

namespace Symbol

open Text

variable {v : Symbol} {xs : List Symbol} {c : Char}

theorem reads_scanNumber_append {z : Int} (h : Scan.Reads (scanNumber text) z rest)
    (hrest : rest ≠ []) (more : List Char) :
    Scan.Reads (scanNumber (text ++ more)) z (rest ++ more) := by
  obtain ⟨s, hs, rfl, rfl⟩ := Scan.reads_iff.mp h
  obtain ⟨hscan, hfits⟩ := Option.filter_eq_some_iff.mp hs
  obtain ⟨t, ht, hvalue, hafter⟩ := Scan.reads_iff.mp
    (Decimal.reads_scanInteger_append (hscan ▸ Scan.reads_some.mpr ⟨rfl, rfl⟩) hrest more)
  rw [scanNumber_eq_filter, ht, Option.filter_some, hvalue, if_pos hfits]
  exact Scan.reads_some.mpr ⟨hvalue, hafter⟩

/-- A name is taken as far as it goes. -/
theorem scanName_eq_append {t : Scan (List Char) text} (h : scanName text = some t) :
    text = t.value ++ t.rest ∧ Stops isNameRest t.rest := by
  induction text with
  | nil => exact absurd (show none = some t from h) (by simp)
  | cons c text ih =>
      rw [scanName_cons] at h
      split at h
      · obtain rfl := Option.some.inj h
        refine ⟨congrArg (c :: ·) List.takeWhile_append_dropWhile.symm, fun d hd => ?_⟩
        have hnot := List.head?_dropWhile_not isNameRest text
        rwa [show (text.dropWhile isNameRest).head? = some d from hd] at hnot
      · split at h
        · obtain ⟨u, hu, rfl⟩ := Option.map_eq_some_iff.mp h
          obtain ⟨htext, hstops⟩ := ih hu
          exact ⟨congrArg (c :: ·) htext, hstops⟩
        · exact absurd h (by simp)

/-! ### Terms -/

/-- What is behind a term, if nothing that may follow becomes part of the term. -/
def IsFirm (text : List Char) : Prop := ∃ c, text.head? = some c ∧ c ≠ '('

theorem IsFirm.ne_nil (h : IsFirm text) : text ≠ [] := by
  rintro rfl
  obtain ⟨c, hc, -⟩ := h
  exact absurd hc (by simp)

theorem IsFirm.append (h : IsFirm text) (more : List Char) : IsFirm (text ++ more) := by
  obtain ⟨c, hhead, hc⟩ := h
  exact ⟨c, by simp [hhead], hc⟩

theorem IsFirm.head?_ne (h : IsFirm text) : text.head? ≠ some '(' := by
  obtain ⟨c, hhead, hc⟩ := h
  simpa [hhead] using hc

theorem isFirm_of_skipBlanks (h : skipBlanks text = c :: rest) (hc : c ≠ '(') : IsFirm text := by
  cases text with
  | nil => exact absurd h (by simp [skipBlanks])
  | cons d text =>
      refine ⟨d, rfl, fun hd => ?_⟩
      subst hd
      have hskip : skipBlanks ('(' :: text) = '(' :: text := Stops.dropWhile (stops_cons.mpr rfl)
      exact hc (List.cons.inj (h.symm.trans hskip)).1

/-- No term opens with a blank, a percent sign or a closing bracket. -/
theorem scanTerm_eq_none (h : isBlank c = true ∨ c = '%' ∨ c = ')') (rest : List Char) :
    scanTerm (c :: rest) = none := by
  have hc : c.isDigit = false ∧ c ≠ '-' ∧ c ≠ '"' ∧ isNameStart c = false ∧ c ≠ '_' ∧ c ≠ '(' := by
    simp only [isBlank, isGap, Bool.or_eq_true, beq_iff_eq] at h
    rcases h with (((rfl | rfl) | rfl) | rfl) | rfl | rfl <;> decide
  obtain ⟨hdigit, hsign, hquote, hstart, hscore, hbracket⟩ := hc
  have hname : scanName (c :: rest) = none := by
    rw [scanName_cons, if_neg (by simp [hstart]), if_neg hscore]
  rw [scanTerm, scanNumber_eq_none hdigit hsign, scanQuoted_eq_none (by simpa using hquote), hname]
  simp only [@scanArguments_eq_none (c :: rest) (by simpa using hbracket), Option.map_none]

theorem scanTerm_nil : scanTerm [] = none := by
  cases h : scanTerm [] with
  | none => rfl
  | some t => exact absurd t.rest_lt (by simp)

/-- A list is closed by the first bracket behind the blanks. -/
theorem reads_closeList_iff {arguments : List Symbol} {text rest after : List Char}
    (h : rest.length ≤ text.length) :
    Scan.Reads (closeList arguments rest h) xs after ↔
      arguments = xs ∧ skipBlanks rest = ')' :: after := by
  unfold closeList
  split
  · rename_i more heq
    simp [heq]
  · rename_i hno
    exact iff_of_false Scan.not_reads_none fun h => hno after h.2

/-- Where a list is closed, its last item has an end. -/
theorem isFirm_of_scanTail (h : skipBlanks (scanTail text).rest = ')' :: rest) : IsFirm text := by
  rw [scanTail] at h
  split at h
  · rename_i more heq
    exact isFirm_of_skipBlanks heq (by decide)
  · exact isFirm_of_skipBlanks h (by decide)

theorem scanTail_of_comma {inner : List Char} {t : Scan Symbol (skipBlanks inner)}
    (hcomma : skipBlanks text = ',' :: inner) (ht : scanTerm (skipBlanks inner) = some t) :
    (scanTail text).items = t.value :: (scanTail t.rest).items ∧
      (scanTail text).rest = (scanTail t.rest).rest := by
  rw [scanTail]
  split
  · rename_i more heq
    obtain ⟨-, rfl⟩ := List.cons.inj (hcomma.symm.trans heq)
    simp only [ht, and_self]
  · rename_i hno
    exact absurd hcomma (hno inner)

theorem scanTail_of_bracket (h : skipBlanks text = ')' :: rest) :
    (scanTail text).items = [] ∧ (scanTail text).rest = text := by
  rw [scanTail]
  split
  · rename_i more heq
    exact absurd (heq.symm.trans h) (by simp)
  · exact ⟨rfl, rfl⟩

/-- What is read is read alike with more text behind it, for the texts of a given length. -/
structure ReadsAlike (n : Nat) : Prop where
  term : ∀ text : List Char, text.length = n → ∀ v rest, Scan.Reads (scanTerm text) v rest →
    IsFirm rest → ∀ more, Scan.Reads (scanTerm (text ++ more)) v (rest ++ more)
  arguments : ∀ text : List Char, text.length = n → ∀ xs rest,
    Scan.Reads (scanArguments text) xs rest →
      ∀ more, Scan.Reads (scanArguments (text ++ more)) xs (rest ++ more)
  tail : ∀ text : List Char, text.length = n → ∀ rest,
    skipBlanks (scanTail text).rest = ')' :: rest →
      ∀ more, (scanTail (text ++ more)).items = (scanTail text).items ∧
        skipBlanks (scanTail (text ++ more)).rest = ')' :: (rest ++ more)

section Step

variable (ih : ∀ n < text.length, ReadsAlike n)
include ih

/-- An item of a list and those behind it are read alike, if the list is closed. -/
theorem scanItems_append {inner : List Char} (hinner : inner.length < text.length)
    {t : Scan Symbol (skipBlanks inner)} (ht : scanTerm (skipBlanks inner) = some t)
    (hend : skipBlanks (scanTail t.rest).rest = ')' :: rest) (more : List Char) :
    ∃ u, scanTerm (skipBlanks (inner ++ more)) = some u ∧ u.value = t.value ∧
      (scanTail u.rest).items = (scanTail t.rest).items ∧
      skipBlanks (scanTail u.rest).rest = ')' :: (rest ++ more) := by
  have hskip := skipBlanks_length inner
  have hrest := t.rest_lt
  have hne : skipBlanks inner ≠ [] := fun hnil => by simp [hnil] at hrest
  have hterm := (ih _ (by omega)).term _ rfl _ _ (Scan.reads_iff.mpr ⟨t, ht, rfl, rfl⟩)
    (isFirm_of_scanTail hend) more
  rw [← skipBlanks_append hne] at hterm
  obtain ⟨u, hu, hvalue, hafter⟩ := Scan.reads_iff.mp hterm
  refine ⟨u, hu, hvalue, ?_⟩
  rw [hafter]
  exact (ih _ (by omega)).tail t.rest rfl _ hend more

/-- A list is read alike, since it is closed. -/
theorem reads_scanArguments_append (h : Scan.Reads (scanArguments text) xs rest)
    (more : List Char) : Scan.Reads (scanArguments (text ++ more)) xs (rest ++ more) := by
  rw [scanArguments.eq_def] at h
  split at h
  · rename_i inner
    rw [List.cons_append]
    split at h
    · rename_i t ht
      obtain ⟨rfl, hend⟩ := (reads_closeList_iff _).mp h
      obtain ⟨u, hu, hvalue, hitems, hend'⟩ := scanItems_append ih (by simp) ht hend more
      obtain ⟨h, hlist⟩ := scanArguments_bracket hu
      rw [hlist, reads_closeList_iff, hvalue, hitems]
      exact ⟨rfl, hend'⟩
    · obtain ⟨rfl, hclose⟩ := (reads_closeList_iff _).mp h
      have hskip := skipBlanks_append_of_cons hclose more
      obtain ⟨h, hlist⟩ := @scanArguments_bracket_of_none (inner ++ more)
        (by rw [hskip]; exact scanTerm_eq_none (by simp) _)
      rw [hlist, reads_closeList_iff]
      exact ⟨rfl, hskip⟩
  · exact absurd h Scan.not_reads_none

/-- The rest of a list is read alike, if it is closed. -/
theorem scanTail_append (h : skipBlanks (scanTail text).rest = ')' :: rest) (more : List Char) :
    (scanTail (text ++ more)).items = (scanTail text).items ∧
      skipBlanks (scanTail (text ++ more)).rest = ')' :: (rest ++ more) := by
  have hend := h
  rw [scanTail] at hend
  split at hend
  · rename_i inner hcomma
    have hskip := skipBlanks_length text
    simp only [hcomma, List.length_cons] at hskip
    split at hend
    · rename_i t ht
      obtain ⟨u, hu, hvalue, hitems, hend'⟩ := scanItems_append ih (by omega) ht hend more
      obtain ⟨hitems', hrest'⟩ := scanTail_of_comma (skipBlanks_append_of_cons hcomma more) hu
      rw [hitems', hrest', (scanTail_of_comma hcomma ht).1, hvalue, hitems]
      exact ⟨rfl, hend'⟩
    · exact absurd (hcomma.symm.trans hend) (by simp)
  · have hskip := skipBlanks_append_of_cons hend more
    rw [(scanTail_of_bracket hend).1, (scanTail_of_bracket hskip).1,
      (scanTail_of_bracket hskip).2]
    exact ⟨rfl, hskip⟩

/-- A term goes on no further, if what is behind it is firm. The first character says which of the
four readers succeeds, so that the ones before it fail again. -/
theorem reads_scanTerm_append (h : Scan.Reads (scanTerm text) v rest) (hrest : IsFirm rest)
    (more : List Char) : Scan.Reads (scanTerm (text ++ more)) v (rest ++ more) := by
  rw [scanTerm] at h
  split at h
  · rename_i t ht
    obtain ⟨rfl, rfl⟩ := Scan.reads_some.mp h
    obtain ⟨u, hu, hvalue, hafter⟩ := Scan.reads_iff.mp
      (reads_scanNumber_append (ht ▸ Scan.reads_some.mpr ⟨rfl, rfl⟩) hrest.ne_nil more)
    rw [scanTerm, hu]
    exact Scan.reads_some.mpr ⟨congrArg Symbol.number hvalue, hafter⟩
  · split at h
    · rename_i hnumber t ht
      obtain ⟨rfl, rfl⟩ := Scan.reads_some.mp h
      obtain ⟨u, hu, hvalue, hafter⟩ := Scan.reads_iff.mp
        (reads_scanQuoted_append (ht ▸ Scan.reads_some.mpr ⟨rfl, rfl⟩) more)
      obtain ⟨text, rfl⟩ : ∃ inner, text = '"' :: inner := by
        refine List.head?_eq_some_iff.mp (by_contra fun hhead => ?_)
        exact absurd (ht.symm.trans (scanQuoted_eq_none hhead)) (by simp)
      rw [scanTerm, List.cons_append, scanNumber_eq_none (by decide) (by decide),
        ← List.cons_append, hu]
      exact Scan.reads_some.mpr ⟨congrArg (fun v => Symbol.string (String.ofList v)) hvalue, hafter⟩
    · split at h
      · rename_i hnumber hquoted t ht
        obtain ⟨htext, hstops⟩ := scanName_eq_append ht
        have hname := fun hne => scanTerm_name (isName_of_scanName ht) (hstops.append hne more)
        rw [← List.append_assoc, ← htext] at hname
        split at h
        · rename_i u hu
          obtain ⟨rfl, rfl⟩ := Scan.reads_some.mp h
          have hne : t.rest ≠ [] := fun hnil => by
            have hlt := u.rest_lt
            simp [hnil] at hlt
          exact (hname hne).1 _ _ ((ih _ t.rest_lt).arguments t.rest rfl _ _
            (Scan.reads_iff.mpr ⟨u, hu, rfl, rfl⟩) more)
        · obtain ⟨rfl, rfl⟩ := Scan.reads_some.mp h
          exact (hname hrest.ne_nil).2 (scanArguments_eq_none (hrest.append more).head?_ne)
      · obtain ⟨t, ht, hvalue, hafter⟩ := Scan.reads_iff.mp h
        obtain ⟨u, hu, rfl⟩ := Option.map_eq_some_iff.mp ht
        have harguments := reads_scanArguments_append ih
          (Scan.reads_iff.mpr ⟨u, hu, rfl, hafter⟩) more
        obtain ⟨text, rfl⟩ : ∃ inner, text = '(' :: inner := by
          refine List.head?_eq_some_iff.mp (by_contra fun hhead => ?_)
          exact absurd (hu.symm.trans (scanArguments_eq_none hhead)) (by simp)
        rw [List.cons_append] at harguments ⊢
        rw [scanTerm_bracket, ← hvalue]
        exact harguments.map _

end Step

theorem readsAlike (n : Nat) : ReadsAlike n := by
  induction n using Nat.strong_induction_on with
  | _ n ih =>
      exact ⟨fun text hn _ _ h hrest => reads_scanTerm_append (hn ▸ ih) h hrest,
        fun text hn _ _ h => reads_scanArguments_append (hn ▸ ih) h,
        fun text hn _ h => scanTail_append (hn ▸ ih) h⟩

/-! ### Comments -/

/-- A comment at the end of a text is ended by a line feed. -/
theorem skipComment_append {after : List Char} (h : skipComment text = some after)
    (more : List Char) : skipComment (text ++ '\n' :: more) = some (after ++ '\n' :: more) := by
  fun_induction skipComment text with
  | case1 | case2 | case3 =>
      obtain rfl := Option.some.inj h
      rfl
  | case4 => exact absurd h (by simp)
  | case5 c text hfeed hpair hreturn ih =>
      rw [List.cons_append, skipComment, ih h]
      · exact hfeed
      · exact fun rest hc _ => hreturn hc
      · exact hreturn

/-- What is skipped is found behind the blanks. -/
theorem skipComments_eq (text : List Char) : skipComments text =
    match skipBlanks text with
    | '%' :: rest => (skipComment rest).elim ('%' :: rest) skipComments
    | other => other := by
  rw [skipComments]
  split
  · rename_i rest heq
    split <;> rename_i hcomment <;> simp [heq, hcomment]
  · rename_i hno
    split
    · rename_i rest heq
      exact absurd heq (hno rest)
    · rfl

theorem skipComments_congr {text text' : List Char} (h : skipBlanks text = skipBlanks text') :
    skipComments text = skipComments text' := by
  rw [skipComments_eq, h, ← skipComments_eq]

/-- Blanks and comments may be skipped before or after more is put behind them. -/
theorem skipComments_append (text more : List Char) :
    skipComments (text ++ '\n' :: more) = skipComments (skipComments text ++ '\n' :: more) := by
  fun_induction skipComments text with
  | case1 text rest h after h' _ ih =>
      rw [← ih, skipComments_eq, skipBlanks_append_of_cons h]
      simp only [skipComment_append h' more, Option.elim_some]
  | case2 text rest h h' =>
      refine skipComments_congr ?_
      rw [← h, skipBlanks_skipBlanks_append]
  | case3 text h =>
      refine skipComments_congr ?_
      rw [skipBlanks_skipBlanks_append]

/-- A term opens with neither a blank nor a comment. -/
theorem skipComments_of_scanTerm {t : Scan Symbol text} (h : scanTerm text = some t) :
    skipComments text = text := by
  cases text with
  | nil => exact absurd (scanTerm_nil.symm.trans h) (by simp)
  | cons c text =>
      have hmark : ¬(isBlank c = true ∨ c = '%' ∨ c = ')') := fun hmark =>
        absurd ((scanTerm_eq_none hmark text).symm.trans h) (by simp)
      simp only [not_or] at hmark
      have hskip : skipBlanks (c :: text) = c :: text :=
        Stops.dropWhile (stops_cons.mpr (by simpa using hmark.1))
      rw [skipComments_eq, hskip]
      split
      · rename_i heq
        exact absurd (List.cons.inj heq).1 hmark.2.1
      · rfl

/-! ### Facts -/

/-- A fact is a term behind what is skipped, and its full stop. -/
theorem reads_scanFact_iff : Scan.Reads (scanFact text) v rest ↔ ∃ after,
    Scan.Reads (scanTerm (skipComments text)) v after ∧ skipBlanks after = '.' :: rest := by
  unfold scanFact
  cases hterm : scanTerm (skipComments text) with
  | none => simp
  | some s =>
      simp only [Scan.reads_some]
      split
      · rename_i more heq
        rw [Scan.reads_some]
        constructor
        · rintro ⟨rfl, rfl⟩
          exact ⟨s.rest, ⟨rfl, rfl⟩, heq⟩
        · rintro ⟨_, ⟨rfl, rfl⟩, hstop⟩
          exact ⟨rfl, (List.cons.inj (heq.symm.trans hstop)).2⟩
      · rename_i hno
        refine iff_of_false Scan.not_reads_none ?_
        rintro ⟨_, ⟨rfl, rfl⟩, hstop⟩
        exact hno rest hstop

theorem scanFact_eq_none (h : scanTerm (skipComments text) = none) : scanFact text = none := by
  unfold scanFact
  rw [h]

/-- A fact is read alike in front of another line. -/
theorem reads_scanFact_append (h : Scan.Reads (scanFact text) v rest) (more : List Char) :
    Scan.Reads (scanFact (text ++ '\n' :: more)) v (rest ++ '\n' :: more) := by
  obtain ⟨after, hterm, hstop⟩ := reads_scanFact_iff.mp h
  have hread := (readsAlike _).term _ rfl _ _ hterm (isFirm_of_skipBlanks hstop (by decide))
    ('\n' :: more)
  obtain ⟨t, ht, -⟩ := Scan.reads_iff.mp hread
  refine reads_scanFact_iff.mpr ⟨after ++ '\n' :: more, ?_, skipBlanks_append_of_cons hstop _⟩
  rwa [skipComments_append, skipComments_of_scanTerm ht]

theorem readFacts_of_reads (h : Scan.Reads (scanFact text) v rest) :
    readFacts text = (readFacts rest).map (v :: ·) := by
  obtain ⟨s, hs, rfl, rfl⟩ := Scan.reads_iff.mp h
  unfold readFacts
  rw [scanFacts, hs]
  simp only
  split <;> simp_all [Except.map]

theorem readFacts_of_none (h : scanFact text = none) : readFacts text =
    match skipComments text with
    | [] => .ok []
    | left => .error (.symbol (String.ofList (firstLine left))) := by
  have hscan : scanFacts text = ([], text) := by rw [scanFacts, h]
  unfold readFacts
  exact hscan ▸ rfl

/-- Blanks and comments in front do not matter. -/
theorem readFacts_congr {text text' : List Char} (h : skipComments text = skipComments text') :
    readFacts text = readFacts text' := by
  have hreads : ∀ v rest, Scan.Reads (scanFact text) v rest ↔ Scan.Reads (scanFact text') v rest :=
    fun v rest => by rw [reads_scanFact_iff, reads_scanFact_iff, h]
  cases hfact : scanFact text with
  | some s =>
      have hread := Scan.reads_iff.mpr ⟨s, hfact, rfl, rfl⟩
      rw [readFacts_of_reads hread, readFacts_of_reads ((hreads _ _).mp hread)]
  | none =>
      have hnone : scanFact text' = none := by
        cases hfact' : scanFact text' with
        | none => rfl
        | some s =>
            have hread := (hreads _ _).mpr (Scan.reads_iff.mpr ⟨s, hfact', rfl, rfl⟩)
            rw [hfact] at hread
            exact absurd hread Scan.not_reads_none
      rw [readFacts_of_none hfact, readFacts_of_none hnone, h]

/-- Reading stops in front of what is no fact. -/
theorem scanFact_scanFacts (text : List Char) : scanFact (scanFacts text).2 = none := by
  fun_induction scanFacts text with
  | case1 text s hs facts rest hrest ih => rwa [hrest] at ih
  | case2 text hnone => exact hnone

theorem readFacts_append_of_ok {a : List Char} {facts : List Symbol}
    (h : readFacts a = .ok facts) (b : List Char) :
    readFacts (a ++ '\n' :: b) = (readFacts b).map (facts ++ ·) := by
  fun_induction scanFacts a generalizing facts with
  | case1 a s hs _ _ _ ih =>
      have hread := Scan.reads_iff.mpr ⟨s, hs, rfl, rfl⟩
      rw [readFacts_of_reads hread] at h
      rw [readFacts_of_reads (reads_scanFact_append hread b)]
      cases hrest : readFacts s.rest with
      | error e =>
          rw [hrest] at h
          exact absurd h (by simp [Except.map])
      | ok facts' =>
          rw [hrest] at h
          obtain rfl := Except.ok.inj h
          rw [ih hrest]
          cases readFacts b <;> rfl
  | case2 a hnone =>
      -- Nothing is left of the first file but blanks and comments.
      rw [readFacts_of_none hnone] at h
      split at h
      · rename_i hnil
        obtain rfl := Except.ok.inj h
        have hskip : skipComments (a ++ '\n' :: b) = skipComments b := by
          rw [skipComments_append, hnil]
          exact skipComments_congr rfl
        rw [readFacts_congr hskip]
        cases readFacts b <;> rfl
      · exact absurd h (by simp)

/-- A file of facts that is read may be put in front of another one: then the facts of both are
read, or what is reported is the line in the other one in which the first malformed fact begins. -/
theorem readFacts_append {a b : List Char} {facts : List Symbol} (h : readFacts a = .ok facts) :
    readFacts (a ++ '\n' :: b) = (readFacts b).map (facts ++ ·) ∧
      ∀ e, readFacts b = .error e → ∃ read rest, scanFacts b = (read, rest) ∧
        scanFact rest = none ∧ skipComments rest ≠ [] ∧
        e = .symbol (String.ofList (firstLine (skipComments rest))) := by
  refine ⟨readFacts_append_of_ok h b, fun e he => ?_⟩
  refine ⟨_, _, rfl, scanFact_scanFacts b, ?_⟩
  unfold readFacts at he
  simp only at he
  split at he
  · exact absurd he (by simp)
  · rename_i hleft
    exact ⟨hleft, (Except.error.inj he).symm⟩

/-- A fact and a comment without a line end. -/
def commented : List Char := ['p', '(', '1', ')', '.', '%', 'x']

theorem readFacts_commented : readFacts commented = .ok [.function "p" [.number 1]] := by
  have hnumber : Scan.Reads (scanNumber ['1', ')', '.', '%', 'x']) 1 [')', '.', '%', 'x'] := rfl
  obtain ⟨t, ht, hvalue, hafter⟩ := Scan.reads_iff.mp hnumber
  have hterm : Scan.Reads (scanTerm ['1', ')', '.', '%', 'x']) (.number 1)
      [')', '.', '%', 'x'] := by
    rw [scanTerm, ht]
    exact Scan.reads_some.mpr ⟨congrArg Symbol.number hvalue, hafter⟩
  have harguments : Scan.Reads (scanArguments ['(', '1', ')', '.', '%', 'x']) [.number 1]
      ['.', '%', 'x'] :=
    reads_scanArguments hterm (scanTail_of_ne rfl (by decide) (by decide))
  have hname : IsName ['p'] := Or.inl ⟨rfl, by simp⟩
  have hfirst := (scanTerm_name hname (stops_cons.mpr (by decide))).1 _ _ harguments
  obtain ⟨u, hu, -⟩ := Scan.reads_iff.mp hfirst
  have hfact : Scan.Reads (scanFact commented) (.function "p" [.number 1]) ['%', 'x'] := by
    refine reads_scanFact_iff.mpr ⟨['.', '%', 'x'], ?_, rfl⟩
    rwa [show skipComments commented = commented from skipComments_of_scanTerm hu]
  have hskip : skipComments ['%', 'x'] = [] := by
    rw [skipComments_eq]
    exact skipComments_eq []
  have hnone : scanFact ['%', 'x'] = none := scanFact_eq_none (by rw [hskip, scanTerm_nil])
  rw [readFacts_of_reads hfact, readFacts_of_none hnone, hskip]
  rfl

/-- The comment does not reach into the next file. -/
theorem readFacts_append_commented :
    readFacts (commented ++ '\n' :: commented) =
      .ok [.function "p" [.number 1], .function "p" [.number 1]] ∧
    readFacts (commented ++ '\n' :: [')', '\n', 'q', '.']) = .error (.symbol ")") := by
  have hskip : skipComments [')', '\n', 'q', '.'] = [')', '\n', 'q', '.'] := skipComments_eq _
  have hnone : scanFact [')', '\n', 'q', '.'] = none :=
    scanFact_eq_none (by rw [hskip, scanTerm_eq_none (by simp)])
  have hbad : readFacts [')', '\n', 'q', '.'] = .error (.symbol ")") := by
    rw [readFacts_of_none hnone, hskip]
    rfl
  rw [(readFacts_append readFacts_commented).1, (readFacts_append readFacts_commented).1,
    readFacts_commented, hbad]
  exact ⟨rfl, rfl⟩

end Symbol

end StablePlan
