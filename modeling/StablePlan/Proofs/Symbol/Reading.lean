import Mathlib.Data.List.TakeWhile
import StablePlan.Proofs.Text.Quoted
import StablePlan.Symbol.Reader

/-!
Reading symbols back. What a reader yields has names that are names and numbers of 64 bits. Such a
symbol is read back from its written form if all texts in it are plain; if one is not, the reader
fails at it, or stops in front of the argument list that it stands in, which nothing may follow.
-/

namespace StablePlan.Symbol

open Text

variable {s x : Symbol} {xs : List Symbol} {text rest : List Char}

/-! ### What a reader yields -/

/-- A name as it is read: any underscores, a lower-case letter, and what may follow it. -/
def IsName : List Char → Prop
  | [] => False
  | c :: rest => isNameStart c = true ∧ (∀ x ∈ rest, isNameRest x = true) ∨ c = '_' ∧ IsName rest

mutual

/-- Numbers have 64 bits, and functions have a name or none. -/
def IsReadable : Symbol → Prop
  | .number n => Decimal.fitsInt64 n = true
  | .string _ => True
  | .function name xs => (name = "" ∨ IsName name.toList) ∧ AllReadable xs

def AllReadable : List Symbol → Prop
  | [] => True
  | x :: xs => IsReadable x ∧ AllReadable xs

end

mutual

/-- The texts in a symbol, from left to right. -/
def strings : Symbol → List String
  | .number _ => []
  | .string s => [s]
  | .function _ xs => allStrings xs

def allStrings : List Symbol → List String
  | [] => []
  | x :: xs => strings x ++ allStrings xs

end

/-- All characters of all texts in it are plain. -/
def IsPlain (s : Symbol) : Prop := ∀ u ∈ s.strings, ∀ c ∈ u.toList, Text.IsPlain c

def AllPlain (xs : List Symbol) : Prop := ∀ u ∈ allStrings xs, ∀ c ∈ u.toList, Text.IsPlain c

theorem allPlain_cons : AllPlain (x :: xs) ↔ x.IsPlain ∧ AllPlain xs := by
  unfold AllPlain IsPlain
  rw [allStrings, List.forall_mem_append]

theorem scanName_cons (c : Char) (rest : List Char) : scanName (c :: rest) =
    if isNameStart c then
      some ⟨c :: rest.takeWhile isNameRest, rest.dropWhile isNameRest,
        Nat.lt_succ_of_le (dropWhile_length_le isNameRest rest)⟩
    else if c = '_' then
      (scanName rest).map fun s => ⟨c :: s.value, s.rest, Nat.lt_succ_of_lt s.rest_lt⟩
    else none := rfl

theorem isName_of_scanName {t : Scan (List Char) text} (h : scanName text = some t) :
    IsName t.value := by
  induction text with
  | nil => exact absurd (show none = some t from h) (by simp)
  | cons c rest ih =>
      rw [scanName_cons] at h
      split at h
      · rename_i hstart
        obtain rfl := Option.some.inj h
        exact Or.inl ⟨hstart, fun x hx => by simpa using List.mem_takeWhile_imp hx⟩
      · split at h
        · rename_i hscore
          obtain ⟨u, hu, rfl⟩ := Option.map_eq_some_iff.mp h
          exact Or.inr ⟨hscore, ih hu⟩
        · exact absurd h (by simp)

theorem closeList_eq_some {arguments : List Symbol} {h : rest.length ≤ text.length}
    {t : Scan (List Symbol) text} (hclose : closeList arguments rest h = some t) :
    t.value = arguments ∧ skipBlanks rest = ')' :: t.rest := by
  unfold closeList at hclose
  split at hclose
  · rename_i heq
    obtain rfl := Option.some.inj hclose
    exact ⟨rfl, heq⟩
  · exact absurd hclose (by simp)

/-- What is yielded is readable, for the texts of a given length. -/
structure YieldsReadable (n : Nat) : Prop where
  term : ∀ text : List Char, text.length = n → ∀ t, scanTerm text = some t → t.value.IsReadable
  arguments : ∀ text : List Char, text.length = n → ∀ t, scanArguments text = some t →
    AllReadable t.value
  tail : ∀ text : List Char, text.length = n → AllReadable (scanTail text).items

/-- The argument list of a text goes on with shorter texts, and a term goes on with the argument
list of the same text or with shorter ones. -/
theorem yieldsReadable (n : Nat) : YieldsReadable n := by
  induction n using Nat.strong_induction_on with
  | _ n ih =>
      have htail : ∀ text : List Char, text.length = n → AllReadable (scanTail text).items := by
        intro text hn
        have hskip := skipBlanks_length text
        rw [scanTail]
        split
        · rename_i rest hcomma
          have hskip' := skipBlanks_length rest
          simp only [hcomma, List.length_cons] at hskip
          split
          · rename_i t ht
            have hrest := t.rest_lt
            exact ⟨(ih _ (by omega)).term _ rfl t ht, (ih _ (by omega)).tail t.rest rfl⟩
          · trivial
        · trivial
      have harguments : ∀ text : List Char, text.length = n → ∀ t, scanArguments text = some t →
          AllReadable t.value := by
        intro text hn t ht
        rw [scanArguments.eq_def] at ht
        split at ht
        · rename_i rest
          have hskip := skipBlanks_length rest
          simp only [List.length_cons] at hn
          split at ht
          · rename_i u hu
            have hrest := u.rest_lt
            rw [(closeList_eq_some ht).1]
            exact ⟨(ih _ (by omega)).term _ rfl u hu, (ih _ (by omega)).tail u.rest rfl⟩
          · rw [(closeList_eq_some ht).1]
            trivial
        · exact absurd ht (by simp)
      refine ⟨fun text hn t ht => ?_, harguments, htail⟩
      rw [scanTerm] at ht
      split at ht
      · rename_i u hu
        obtain rfl := Option.some.inj ht
        have hfits := Option.filter_eq_some_iff.mp hu
        exact hfits.2
      · split at ht
        · obtain rfl := Option.some.inj ht
          trivial
        · split at ht
          · rename_i u hu
            have hname : IsName (String.ofList u.value).toList := by
              rw [String.toList_ofList]
              exact isName_of_scanName hu
            have hrest := u.rest_lt
            split at ht
            · rename_i v hv
              obtain rfl := Option.some.inj ht
              exact ⟨Or.inr hname, (ih _ (by omega)).arguments u.rest rfl v hv⟩
            · obtain rfl := Option.some.inj ht
              exact ⟨Or.inr hname, trivial⟩
          · obtain ⟨u, hu, rfl⟩ := Option.map_eq_some_iff.mp ht
            exact ⟨Or.inl rfl, harguments text hn u hu⟩

theorem isReadable_of_read? (h : read? text = some s) : s.IsReadable := by
  unfold read? at h
  split at h
  · rename_i t ht
    split at h
    · obtain rfl := Option.some.inj h
      exact (yieldsReadable _).term _ rfl t ht
    · exact absurd h (by simp)
  · exact absurd h (by simp)

/-! ### Characters -/

/-- Where a written term ends: at the end of the text, a comma or a closing bracket. -/
def Ends (text : List Char) : Prop := ∀ c ∈ text.head?, c = ',' ∨ c = ')'

theorem ends_nil : Ends [] := by
  simp [Ends]

theorem ends_tailText (xs : List Symbol) (rest : List Char) : Ends (tailText xs ++ rest) := by
  cases xs with
  | nil => simp [Ends, tailText]
  | cons x xs => simp [Ends, tailText]

theorem Ends.stops (h : Ends rest) {p : Char → Bool} (hcomma : p ',' = false)
    (hclose : p ')' = false) : Stops p rest := by
  intro c hc
  rcases h c hc with rfl | rfl
  · exact hcomma
  · exact hclose

/-- A character that opens no number and no quoted text, and is no blank. -/
def OpensName (c : Char) : Prop :=
  c.isDigit = false ∧ c ≠ '-' ∧ c ≠ '"' ∧ isBlank c = false ∧ c ≠ ')' ∧ c ≠ '('

theorem opensName_of_isNameStart {c : Char} (h : isNameStart c = true) : OpensName c := by
  have hne : ∀ d, isNameStart d = false → c ≠ d := by
    rintro d hd rfl
    exact absurd (h.symm.trans hd) (by simp)
  refine ⟨?_, hne '-' (by decide), hne '"' (by decide), ?_, hne ')' (by decide),
    hne '(' (by decide)⟩
  · have hstart : 'a' ≤ c := by
      unfold isNameStart at h
      simp only [Bool.and_eq_true, decide_eq_true_eq] at h
      exact h.1
    have hlow : 97 ≤ c.toNat := hstart
    rw [← Bool.not_eq_true, Char.isDigit_iff_toNat]
    intro hdigit
    have hhigh : c.toNat ≤ 57 := hdigit.2
    omega
  · simp [isBlank, isGap, hne ' ' (by decide), hne '\t' (by decide), hne '\r' (by decide),
      hne '\n' (by decide)]

theorem IsName.head {name : List Char} (h : IsName name) :
    ∃ c more, name = c :: more ∧ OpensName c := by
  cases name with
  | nil => exact h.elim
  | cons c more =>
      refine ⟨c, more, rfl, ?_⟩
      rcases h with ⟨hstart, -⟩ | ⟨rfl, -⟩
      · exact opensName_of_isNameStart hstart
      · exact ⟨by decide, by decide, by decide, by decide, by decide, by decide⟩

/-- A written symbol begins with no blank and no closing bracket. -/
theorem head_text (h : s.IsReadable) :
    ∃ c more, s.text = c :: more ∧ isBlank c = false ∧ c ≠ ')' := by
  have hname : ∀ name : String, name ≠ "" → (name = "" ∨ IsName name.toList) →
      ∀ more, ∃ c more', name.toList ++ more = c :: more' ∧ isBlank c = false ∧ c ≠ ')' := by
    intro name hne hor more
    obtain ⟨c, text, htext, -, -, -, hblank, hclose, -⟩ := (hor.resolve_left hne).head
    exact ⟨c, text ++ more, by rw [htext]; rfl, hblank, hclose⟩
  cases s with
  | number n =>
      obtain ⟨c, more, htext, hc⟩ := Decimal.head_integer n
      refine ⟨c, more, htext, ?_⟩
      rcases hc with hdigit | rfl
      · have hne : ∀ d, d.isDigit = false → c ≠ d := by
          rintro d hd rfl
          exact absurd (hdigit.symm.trans hd) (by simp)
        refine ⟨?_, hne ')' (by decide)⟩
        simp [isBlank, isGap, hne ' ' (by decide), hne '\t' (by decide), hne '\r' (by decide),
          hne '\n' (by decide)]
      · decide
  | string u => exact ⟨'"', _, rfl, by decide, by decide⟩
  | function name xs =>
      cases xs with
      | nil =>
          rw [text]
          by_cases hempty : name = ""
          · rw [if_pos hempty]
            exact ⟨'(', _, rfl, by decide, by decide⟩
          · rw [if_neg hempty]
            obtain ⟨c, more, htext, hc⟩ := hname name hempty h.1 []
            exact ⟨c, more, by rwa [List.append_nil] at htext, hc⟩
      | cons x xs =>
          rw [text, List.append_assoc]
          by_cases hempty : name = ""
          · subst hempty
            exact ⟨'(', _, rfl, by decide, by decide⟩
          · exact hname name hempty h.1 _

theorem skipBlanks_text (h : s.IsReadable) (rest : List Char) :
    skipBlanks (s.text ++ rest) = s.text ++ rest := by
  obtain ⟨c, more, htext, hblank, -⟩ := head_text h
  rw [htext]
  exact Stops.dropWhile (stops_cons.mpr hblank)

/-! ### Parts of terms -/

theorem reads_scanName {name : List Char} (h : IsName name) (hrest : Stops isNameRest rest) :
    Scan.Reads (scanName (name ++ rest)) name rest := by
  induction name with
  | nil => exact h.elim
  | cons c name ih =>
      rw [List.cons_append, scanName_cons]
      rcases h with ⟨hstart, hmore⟩ | ⟨rfl, hname⟩
      · rw [if_pos hstart]
        exact Scan.reads_some.mpr ⟨congrArg (c :: ·) (hrest.takeWhile_append hmore),
          hrest.dropWhile_append hmore⟩
      · obtain ⟨t, ht, hvalue, hafter⟩ := Scan.reads_iff.mp (ih hname)
        rw [if_neg (by decide), if_pos rfl, ht]
        exact Scan.reads_some.mpr ⟨congrArg ('_' :: ·) hvalue, hafter⟩

theorem scanNumber_eq_none {c : Char} (hdigit : c.isDigit = false) (hsign : c ≠ '-') :
    scanNumber (c :: rest) = none := by
  unfold scanNumber
  rw [Decimal.scanInteger_eq_none (stops_cons.mpr hdigit) (by simpa using hsign)]
  rfl

theorem reads_closeList (arguments : List Symbol) {after : List Char}
    (hafter : rest = ')' :: after) (h : rest.length ≤ text.length) :
    Scan.Reads (closeList arguments rest h) arguments after := by
  have hskip : skipBlanks rest = ')' :: after := by
    rw [hafter]
    exact Stops.dropWhile (stops_cons.mpr rfl)
  unfold closeList
  split
  · rename_i more heq
    obtain ⟨-, rfl⟩ := List.cons.inj (hskip.symm.trans heq)
    exact Scan.reads_some.mpr ⟨rfl, rfl⟩
  · rename_i hno
    exact absurd hskip (hno after)

/-- A list is not closed by what is no blank and no closing bracket. -/
theorem closeList_eq_none {arguments : List Symbol} {c : Char} (hhead : rest.head? = some c)
    (hblank : isBlank c = false) (hclose : c ≠ ')') (h : rest.length ≤ text.length) :
    closeList arguments rest h = none := by
  unfold closeList
  split
  · rename_i after heq
    obtain ⟨more, rfl⟩ := List.head?_eq_some_iff.mp hhead
    have hskip : skipBlanks (c :: more) = c :: more := Stops.dropWhile (stops_cons.mpr hblank)
    exact absurd (List.cons.inj (hskip.symm.trans heq)).1 hclose
  · rfl

theorem scanArguments_eq_none (h : rest.head? ≠ some '(') : scanArguments rest = none := by
  rw [scanArguments.eq_def]
  split
  · exact absurd rfl h
  · rfl

theorem scanArguments_bracket {inner : List Char} {t : Scan Symbol (skipBlanks inner)}
    (ht : scanTerm (skipBlanks inner) = some t) : ∃ h, scanArguments ('(' :: inner) =
      closeList (t.value :: (scanTail t.rest).items) (scanTail t.rest).rest h := by
  have hle := (scanTail t.rest).rest_le
  have hlt := t.rest_lt
  have hskip := skipBlanks_length inner
  refine ⟨by simp only [List.length_cons]; omega, ?_⟩
  rw [scanArguments]
  simp only [ht]

theorem scanArguments_bracket_of_none {inner : List Char}
    (hnone : scanTerm (skipBlanks inner) = none) :
    ∃ h, scanArguments ('(' :: inner) = closeList [] inner h := by
  refine ⟨Nat.le_succ _, ?_⟩
  rw [scanArguments]
  simp only [hnone]

theorem scanTail_comma {inner : List Char} {t : Scan Symbol (skipBlanks inner)}
    (ht : scanTerm (skipBlanks inner) = some t) :
    (scanTail (',' :: inner)).items = t.value :: (scanTail t.rest).items ∧
      (scanTail (',' :: inner)).rest = (scanTail t.rest).rest := by
  have hskip : skipBlanks (',' :: inner) = ',' :: inner := Stops.dropWhile (stops_cons.mpr rfl)
  rw [scanTail]
  split
  · rename_i more heq
    obtain ⟨-, rfl⟩ := List.cons.inj (hskip.symm.trans heq)
    simp only [ht, and_self]
  · rename_i hno
    exact absurd hskip (hno inner)

/-- Nothing is read after a comma without a term. -/
theorem scanTail_comma_of_none {inner : List Char}
    (hnone : scanTerm (skipBlanks inner) = none) :
    (scanTail (',' :: inner)).rest = ',' :: inner := by
  rw [scanTail]
  split
  · rename_i more heq
    have hskip : skipBlanks (',' :: inner) = ',' :: inner := Stops.dropWhile (stops_cons.mpr rfl)
    obtain ⟨-, rfl⟩ := List.cons.inj (hskip.symm.trans heq)
    simp only [hnone]
  · rfl

/-- Nothing is read without a comma. -/
theorem scanTail_of_ne {c : Char} (hhead : rest.head? = some c) (hblank : isBlank c = false)
    (hcomma : c ≠ ',') : (scanTail rest).items = [] ∧ (scanTail rest).rest = rest := by
  obtain ⟨more, rfl⟩ := List.head?_eq_some_iff.mp hhead
  have hskip : skipBlanks (c :: more) = c :: more := Stops.dropWhile (stops_cons.mpr hblank)
  rw [scanTail]
  split
  · rename_i after heq
    exact absurd (List.cons.inj (hskip.symm.trans heq)).1 hcomma
  · exact ⟨rfl, rfl⟩

/-- A term that opens with a name is the name with its argument list, if there is one. -/
theorem scanTerm_name {name : List Char} (hname : IsName name) (hrest : Stops isNameRest rest) :
    (∀ xs after, Scan.Reads (scanArguments rest) xs after →
      Scan.Reads (scanTerm (name ++ rest)) (.function (String.ofList name) xs) after) ∧
    (scanArguments rest = none →
      Scan.Reads (scanTerm (name ++ rest)) (.constant (String.ofList name)) rest) := by
  obtain ⟨t, ht, hvalue, hafter⟩ := Scan.reads_iff.mp (reads_scanName hname hrest)
  obtain ⟨c, more, hcons, hdigit, hsign, hquote, -⟩ := hname.head
  have hnumber : scanNumber (name ++ rest) = none := by
    rw [hcons]
    exact scanNumber_eq_none hdigit hsign
  have hquoted : scanQuoted (name ++ rest) = none := by
    rw [hcons]
    exact scanQuoted_eq_none (by simpa using hquote)
  rw [scanTerm, hnumber, hquoted, ht]
  constructor
  · intro xs after hread
    rw [← hafter] at hread
    obtain ⟨u, hu, rfl, rfl⟩ := Scan.reads_iff.mp hread
    simp only [hu, hvalue]
    exact Scan.reads_some.mpr ⟨rfl, rfl⟩
  · intro hnone
    rw [← hafter] at hnone
    simp only [hnone]
    exact Scan.reads_some.mpr ⟨congrArg (fun n => constant (String.ofList n)) hvalue, hafter⟩

theorem scanTerm_bracket (rest : List Char) : scanTerm ('(' :: rest) =
    (scanArguments ('(' :: rest)).map (Scan.map (.function "")) := by
  have hnumber : scanNumber ('(' :: rest) = none := scanNumber_eq_none (by decide) (by decide)
  have hquoted : scanQuoted ('(' :: rest) = none := scanQuoted_eq_none (by simp)
  have hname : scanName ('(' :: rest) = none := by
    rw [scanName_cons, if_neg (by decide), if_neg (by decide)]
  rw [scanTerm, hnumber, hquoted, hname]

/-! ### Plain symbols -/

theorem Ends.ne_bracket (h : Ends rest) : rest.head? ≠ some '(' := by
  intro hhead
  rcases h '(' hhead with heq | heq <;> exact absurd heq (by decide)

theorem scanNumber_eq_filter (text : List Char) :
    scanNumber text = (Decimal.scanInteger text).filter fun t => Decimal.fitsInt64 t.value := rfl

theorem reads_scanNumber {n : Int} (hfits : Decimal.fitsInt64 n = true)
    (hrest : Stops Char.isDigit rest) :
    Scan.Reads (scanNumber (Decimal.integer n ++ rest)) n rest := by
  obtain ⟨t, ht, hvalue, hafter⟩ :=
    Scan.reads_iff.mp (Decimal.reads_scanInteger_integer n hrest)
  rw [← hvalue] at hfits
  rw [scanNumber_eq_filter, ht, Option.filter_some, if_pos hfits]
  exact Scan.reads_some.mpr ⟨hvalue, hafter⟩

/-- An argument list is read if its first argument is, and the others up to the bracket. -/
theorem reads_scanArguments {inner after : List Char}
    (hterm : Scan.Reads (scanTerm (skipBlanks inner)) x rest)
    (htail : (scanTail rest).items = xs ∧ (scanTail rest).rest = ')' :: after) :
    Scan.Reads (scanArguments ('(' :: inner)) (x :: xs) after := by
  obtain ⟨t, ht, rfl, rfl⟩ := Scan.reads_iff.mp hterm
  obtain ⟨rfl, hafter⟩ := htail
  obtain ⟨h, hlist⟩ := scanArguments_bracket ht
  rw [hlist]
  exact reads_closeList _ hafter h

theorem reads_scanArguments_nil (after : List Char) :
    Scan.Reads (scanArguments ('(' :: ')' :: after)) [] after := by
  have hskip : skipBlanks (')' :: after) = ')' :: after := Stops.dropWhile (stops_cons.mpr rfl)
  have hnumber : scanNumber (')' :: after) = none := scanNumber_eq_none (by decide) (by decide)
  have hquoted : scanQuoted (')' :: after) = none := scanQuoted_eq_none (by simp)
  have hname : scanName (')' :: after) = none := by
    rw [scanName_cons, if_neg (by decide), if_neg (by decide)]
  have hnone : scanTerm (')' :: after) = none := by
    rw [scanTerm, hnumber, hquoted, hname]
    simp only [@scanArguments_eq_none (')' :: after) (by simp), Option.map_none]
  obtain ⟨h, hlist⟩ := @scanArguments_bracket_of_none (')' :: after) (by rwa [hskip])
  rw [hlist]
  exact reads_closeList [] rfl h

mutual

/-- A plain symbol is read back from its written form. -/
theorem reads_scanTerm : (s : Symbol) → s.IsReadable → s.IsPlain → ∀ {rest : List Char},
    Ends rest → Scan.Reads (scanTerm (s.text ++ rest)) s rest
  | .number n, hr, _, rest, hrest => by
      obtain ⟨t, ht, hvalue, hafter⟩ := Scan.reads_iff.mp
        (reads_scanNumber hr (hrest.stops (by decide) (by decide)))
      rw [text, scanTerm, ht]
      exact Scan.reads_some.mpr ⟨congrArg Symbol.number hvalue, hafter⟩
  | .string u, _, hp, rest, _ => by
      have hplain : ∀ c ∈ u.toList, Text.IsPlain c := hp u (by simp [strings])
      obtain ⟨t, ht, hvalue, hafter⟩ := Scan.reads_iff.mp (reads_scanQuoted hplain rest)
      have hnumber : scanNumber (quote u.toList ++ rest) = none :=
        scanNumber_eq_none (by decide) (by decide)
      rw [text, scanTerm, hnumber, ht]
      refine Scan.reads_some.mpr ⟨?_, hafter⟩
      change Symbol.string (String.ofList t.value) = .string u
      rw [hvalue, String.ofList_toList]
  | .function name [], hr, _, rest, hrest => by
      rw [text]
      by_cases hempty : name = ""
      · subst hempty
        rw [if_pos rfl]
        change Scan.Reads (scanTerm ('(' :: ')' :: rest)) _ _
        rw [scanTerm_bracket]
        exact (reads_scanArguments_nil rest).map _
      · rw [if_neg hempty]
        have h := (scanTerm_name (hr.1.resolve_left hempty)
          (hrest.stops (by decide) (by decide))).2 (scanArguments_eq_none hrest.ne_bracket)
        rwa [String.ofList_toList] at h
  | .function name (x :: xs), hr, hp, rest, hrest => by
      obtain ⟨hpx, hpxs⟩ := allPlain_cons.mp hp
      obtain ⟨hx, hxs⟩ := hr.2
      have hterm := reads_scanTerm x hx hpx (ends_tailText xs rest)
      rw [← skipBlanks_text hx] at hterm
      have harguments := reads_scanArguments hterm (scanTail_tailText xs hxs hpxs rest)
      have htext : text (.function name (x :: xs)) ++ rest =
          name.toList ++ '(' :: (x.text ++ (tailText xs ++ rest)) := by
        simp [text]
      rw [htext]
      by_cases hempty : name = ""
      · subst hempty
        change Scan.Reads (scanTerm ('(' :: (x.text ++ (tailText xs ++ rest)))) _ _
        rw [scanTerm_bracket]
        exact harguments.map _
      · have h := (scanTerm_name (hr.1.resolve_left hempty) (stops_cons.mpr (by decide))).1
          _ _ harguments
        rwa [String.ofList_toList] at h

/-- Plain arguments are read back up to the bracket that closes them. -/
theorem scanTail_tailText : (xs : List Symbol) → AllReadable xs → AllPlain xs →
    ∀ rest : List Char, (scanTail (tailText xs ++ rest)).items = xs ∧
      (scanTail (tailText xs ++ rest)).rest = ')' :: rest
  | [], _, _, rest => by
      rw [tailText]
      exact scanTail_of_ne rfl (by decide) (by decide)
  | x :: xs, hr, hp, rest => by
      obtain ⟨hpx, hpxs⟩ := allPlain_cons.mp hp
      obtain ⟨hx, hxs⟩ := hr
      have hterm := reads_scanTerm x hx hpx (ends_tailText xs rest)
      rw [← skipBlanks_text hx] at hterm
      obtain ⟨t, ht, hvalue, hrest⟩ := Scan.reads_iff.mp hterm
      have htail := scanTail_tailText xs hxs hpxs rest
      rw [← hrest] at htail
      have hcomma := scanTail_comma ht
      have htext : tailText (x :: xs) ++ rest = ',' :: (x.text ++ (tailText xs ++ rest)) := by
        simp [tailText]
      rw [htext, hcomma.1, hcomma.2, hvalue, htail.1, htail.2]
      exact ⟨rfl, rfl⟩

end

/-! ### Symbols that are not plain -/

/-- A reader that stops here can neither go on with a list nor close it. -/
def IsStuck (text : List Char) : Prop :=
  ∃ c, text.head? = some c ∧ isBlank c = false ∧ c ≠ ')'

theorem IsStuck.closeList_eq_none (h : IsStuck rest) {arguments : List Symbol}
    (hle : rest.length ≤ text.length) : closeList arguments rest hle = none := by
  obtain ⟨c, hhead, hblank, hclose⟩ := h
  exact Symbol.closeList_eq_none hhead hblank hclose hle

theorem isStuck_text (h : s.IsReadable) (rest : List Char) : IsStuck (s.text ++ rest) := by
  obtain ⟨c, more, htext, hblank, hclose⟩ := head_text h
  exact ⟨c, by rw [htext]; rfl, hblank, hclose⟩

/-- An argument list fails at the first argument, or where a later one keeps it from closing. -/
theorem scanArguments_eq_none_of_stuck (hx : x.IsReadable)
    (hterm : ∀ v after, Scan.Reads (scanTerm (x.text ++ rest)) v after →
      IsStuck (scanTail after).rest) :
    scanArguments ('(' :: (x.text ++ rest)) = none := by
  rw [← skipBlanks_text hx rest] at hterm
  cases hscan : scanTerm (skipBlanks (x.text ++ rest)) with
  | none =>
      obtain ⟨h, hlist⟩ := scanArguments_bracket_of_none hscan
      rw [hlist]
      exact (isStuck_text hx rest).closeList_eq_none h
  | some t =>
      obtain ⟨h, hlist⟩ := scanArguments_bracket hscan
      rw [hlist]
      exact (hterm _ _ (Scan.reads_iff.mpr ⟨t, hscan, rfl, rfl⟩)).closeList_eq_none h

theorem isStuck_bracket (h : text.head? = some '(') : IsStuck (scanTail text).rest := by
  rw [(scanTail_of_ne h (by decide) (by decide)).2]
  exact ⟨'(', h, by decide, by decide⟩

mutual

/-- A symbol that is not plain is not read: the reader fails, or stops at an argument list. -/
theorem head_of_reads_scanTerm : (s : Symbol) → s.IsReadable → ¬s.IsPlain →
    ∀ (rest : List Char) v after, Scan.Reads (scanTerm (s.text ++ rest)) v after →
      after.head? = some '('
  | .number n, _, hp, _, _, _, _ => absurd (by simp [IsPlain, strings]) hp
  | .string u, _, hp, rest, v, after, hread => by
      have hother : ∃ c ∈ u.toList, ¬Text.IsPlain c := by
        simpa [IsPlain, strings] using hp
      have hnumber : scanNumber (quote u.toList ++ rest) = none :=
        scanNumber_eq_none (by decide) (by decide)
      have hname : scanName (quote u.toList ++ rest) = none := by
        change scanName ('"' :: _) = none
        rw [scanName_cons, if_neg (by decide), if_neg (by decide)]
      have harguments : scanArguments (quote u.toList ++ rest) = none :=
        scanArguments_eq_none (by simp [quote])
      rw [Symbol.text, scanTerm, hnumber, scanQuoted_quote_eq_none hother, hname] at hread
      simp only [harguments, Option.map_none] at hread
      exact absurd hread Scan.not_reads_none
  | .function _ [], _, hp, _, _, _, _ => absurd (by simp [IsPlain, strings, allStrings]) hp
  | .function name (x :: xs), hr, hp, rest, v, after, hread => by
      obtain ⟨hx, hxs⟩ := hr.2
      have hnone : scanArguments ('(' :: (x.text ++ (tailText xs ++ rest))) = none := by
        refine scanArguments_eq_none_of_stuck hx fun v after hfirst => ?_
        by_cases hpx : x.IsPlain
        · have hpxs : ¬AllPlain xs := fun h => hp (allPlain_cons.mpr ⟨hpx, h⟩)
          have hplain := reads_scanTerm x hx hpx (ends_tailText xs rest)
          obtain ⟨-, rfl⟩ := Prod.mk.inj (Option.some.inj (hfirst.symm.trans hplain))
          exact isStuck_scanTail xs hxs hpxs rest
        · exact isStuck_bracket (head_of_reads_scanTerm x hx hpx _ v after hfirst)
      have htext : Symbol.text (.function name (x :: xs)) ++ rest =
          name.toList ++ '(' :: (x.text ++ (tailText xs ++ rest)) := by
        simp [Symbol.text]
      rw [htext] at hread
      by_cases hempty : name = ""
      · subst hempty
        change Scan.Reads (scanTerm ('(' :: _)) _ _ at hread
        rw [scanTerm_bracket, hnone] at hread
        exact absurd hread Scan.not_reads_none
      · have hname := (scanTerm_name (hr.1.resolve_left hempty) (stops_cons.mpr (by decide))).2
          hnone
        obtain ⟨-, rfl⟩ := Prod.mk.inj (Option.some.inj (hread.symm.trans hname))
        rfl

/-- Arguments that are not all plain are followed by what does not close the list. -/
theorem isStuck_scanTail : (xs : List Symbol) → AllReadable xs → ¬AllPlain xs →
    ∀ rest : List Char, IsStuck (scanTail (tailText xs ++ rest)).rest
  | [], _, hp, _ => absurd (by simp [AllPlain, allStrings]) hp
  | x :: xs, hr, hp, rest => by
      obtain ⟨hx, hxs⟩ := hr
      have htext : tailText (x :: xs) ++ rest = ',' :: (x.text ++ (tailText xs ++ rest)) := by
        simp [tailText]
      rw [htext]
      cases hscan : scanTerm (skipBlanks (x.text ++ (tailText xs ++ rest))) with
      | none =>
          rw [scanTail_comma_of_none hscan]
          exact ⟨',', rfl, by decide, by decide⟩
      | some t =>
          have hread := Scan.reads_iff.mpr ⟨t, hscan, rfl, rfl⟩
          rw [(scanTail_comma hscan).2]
          by_cases hpx : x.IsPlain
          · have hpxs : ¬AllPlain xs := fun h => hp (allPlain_cons.mpr ⟨hpx, h⟩)
            have hplain := reads_scanTerm x hx hpx (ends_tailText xs rest)
            rw [← skipBlanks_text hx] at hplain
            obtain ⟨-, hrest⟩ := Prod.mk.inj (Option.some.inj (hread.symm.trans hplain))
            rw [hrest]
            exact isStuck_scanTail xs hxs hpxs rest
          · have hhead := head_of_reads_scanTerm x hx hpx (tailText xs ++ rest)
            rw [← skipBlanks_text hx] at hhead
            exact isStuck_bracket (hhead _ _ hread)

end

/-! ### Whole texts -/

theorem read?_eq_some_iff :
    read? text = some s ↔ ∃ rest, Scan.Reads (scanTerm (skipBlanks text)) s rest ∧
      skipBlanks rest = [] := by
  unfold read?
  cases scanTerm (skipBlanks text) with
  | none => simp
  | some t =>
      rw [Option.ite_none_right_eq_some]
      constructor
      · rintro ⟨hrest, hvalue⟩
        exact ⟨t.rest, Scan.reads_some.mpr ⟨Option.some.inj hvalue, rfl⟩, hrest⟩
      · rintro ⟨rest, hread, hrest⟩
        obtain ⟨hvalue, rfl⟩ := Scan.reads_some.mp hread
        exact ⟨hrest, congrArg some hvalue⟩

theorem read?_text_of_isPlain (hr : s.IsReadable) (hp : s.IsPlain) : read? s.text = some s := by
  have hskip := skipBlanks_text hr []
  have hread := reads_scanTerm s hr hp ends_nil
  rw [List.append_nil] at hskip hread
  refine read?_eq_some_iff.mpr ⟨[], ?_, rfl⟩
  rwa [hskip]

/-- Nothing reads the bracket that the reader stops at. -/
theorem read?_text_of_not_isPlain (hr : s.IsReadable) (hp : ¬s.IsPlain) : read? s.text = none := by
  refine Option.eq_none_iff_forall_ne_some.mpr fun v hv => ?_
  obtain ⟨rest, hread, hrest⟩ := read?_eq_some_iff.mp hv
  have hhead := head_of_reads_scanTerm s hr hp [] v rest
  rw [← skipBlanks_text hr, List.append_nil] at hhead
  obtain ⟨more, rfl⟩ := List.head?_eq_some_iff.mp (hhead hread)
  have hstays : skipBlanks ('(' :: more) = '(' :: more := Stops.dropWhile (stops_cons.mpr rfl)
  exact absurd (hstays.symm.trans hrest) (by simp)

/-- A symbol that was read is read back from its written form just if all its texts are plain, and
otherwise its written form is refused. -/
theorem read?_text_iff (h : read? text = some s) :
    (read? s.text = some s ↔ ∀ u ∈ s.strings, ∀ c ∈ u.toList, Text.IsPlain c) ∧
      ((∃ u ∈ s.strings, ∃ c ∈ u.toList, ¬Text.IsPlain c) → read? s.text = none) := by
  have hr := isReadable_of_read? h
  refine ⟨⟨fun hread => ?_, read?_text_of_isPlain hr⟩, fun ⟨u, hu, c, hc, hno⟩ =>
    read?_text_of_not_isPlain hr fun hp => hno (hp u hu c hc)⟩
  by_contra hno
  exact absurd (hread.symm.trans (read?_text_of_not_isPlain hr hno)) (by simp)

/-- A term `p(-1,("a\"b","\n"),q')`. -/
def nested : Symbol :=
  .function "p" [.number (-1), .function "" [.string "a\"b", .string "\n"], .constant "q'"]

theorem read?_tab : read? ['(', '"', '\t', '"', ')'] = some (.function "" [.string "\t"]) := by
  have hquoted : Scan.Reads (scanQuoted ['"', '\t', '"', ')']) ['\t'] [')'] := rfl
  obtain ⟨t, ht, hvalue, hafter⟩ := Scan.reads_iff.mp hquoted
  have hterm : Scan.Reads (scanTerm (skipBlanks ['"', '\t', '"', ')'])) (.string "\t") [')'] := by
    change Scan.Reads (scanTerm ['"', '\t', '"', ')']) _ _
    rw [scanTerm, scanNumber_eq_none (by decide) (by decide), ht]
    exact Scan.reads_some.mpr ⟨congrArg (fun u => Symbol.string (String.ofList u)) hvalue, hafter⟩
  have harguments := reads_scanArguments hterm (scanTail_of_ne rfl (by decide) (by decide))
  refine read?_eq_some_iff.mpr ⟨[], ?_, rfl⟩
  change Scan.Reads (scanTerm ['(', '"', '\t', '"', ')']) _ _
  rw [scanTerm_bracket]
  exact harguments.map _

theorem read?_text_iff_nested_tab :
    (read? nested.text = some nested ↔ ∀ u ∈ nested.strings, ∀ c ∈ u.toList, Text.IsPlain c) ∧
      read? (Symbol.function "" [.string "\t"]).text = none := by
  have hname : IsName "p".toList ∧ IsName "q'".toList :=
    ⟨Or.inl ⟨rfl, by simp⟩, Or.inl ⟨rfl, List.forall_mem_singleton.mpr rfl⟩⟩
  have hall : nested.strings.all fun u => u.toList.all fun c => Text.IsPlain c := by decide
  have hplain : ∀ u ∈ nested.strings, ∀ c ∈ u.toList, Text.IsPlain c := by
    simpa only [List.all_eq_true, decide_eq_true_eq] using hall
  have hread : read? nested.text = some nested :=
    read?_text_of_isPlain ⟨Or.inr hname.1, rfl, ⟨Or.inl rfl, trivial, trivial, trivial⟩,
      ⟨Or.inr hname.2, trivial⟩, trivial⟩ hplain
  exact ⟨(read?_text_iff hread).1,
    (read?_text_iff read?_tab).2 ⟨"\t", by decide, '\t', by decide, by decide⟩⟩

end StablePlan.Symbol
