import StablePlan.Program.Aspif
import StablePlan.Proofs.Text.Lines

/-!
Statements as they are written: one blank in front of every number but the first, lists with their
lengths in front. Each reader of the format takes such a field whole, whatever follows that does not
begin with a digit; so a line is read to its end and gives the statement it was written for. A list
of 2 ^ 32 items or more has no length that is read, and neither has its line.
-/

namespace StablePlan

namespace Statement

/-- Atoms and numbers within the range of the format. -/
def InRange : Statement → Prop
  | .rule r => (∀ a ∈ r.head, a ≤ maxAtom) ∧ ∀ l ∈ r.body, l.atom ≤ maxAtom
  | .weightRule r => (∀ a ∈ r.head, a ≤ maxAtom) ∧ Decimal.fitsInt64 r.lower ∧
      ∀ e ∈ r.body, e.1.atom ≤ maxAtom ∧ Decimal.fitsInt64 e.2
  | .output _ condition => ∀ l ∈ condition, l.atom ≤ maxAtom
  | .external a _ => a ≤ maxAtom

instance : (s : Statement) → Decidable s.InRange
  | .rule _ => inferInstanceAs (Decidable (_ ∧ _))
  | .weightRule _ => inferInstanceAs (Decidable (_ ∧ _ ∧ _))
  | .output _ condition => inferInstanceAs (Decidable (∀ l ∈ condition, l.atom ≤ maxAtom))
  | .external a _ => inferInstanceAs (Decidable (a ≤ maxAtom))

/-- The lengths of the lists of a statement. -/
def lengths : Statement → List Nat
  | .rule r => [r.head.length, r.body.length]
  | .weightRule r => [r.head.length, r.body.length]
  | .output _ condition => [condition.length]
  | .external _ _ => []

/-- Whether every list has a length of 32 bits. -/
def IsCountable (s : Statement) : Prop := ∀ n ∈ s.lengths, Decimal.fitsNat32 n

instance (s : Statement) : Decidable s.IsCountable :=
  inferInstanceAs (Decidable (∀ n ∈ s.lengths, Decimal.fitsNat32 n))

end Statement

namespace Aspif

open Text

/-! ### Fields -/

def naturalField (n : Nat) : List Char := ' ' :: Decimal.natural n

def integerField (z : Int) : List Char := ' ' :: Decimal.integer z

def literalField (l : Literal) : List Char := integerField l.raw

def elementField (e : Literal × Int) : List Char := literalField e.1 ++ integerField e.2

variable {α : Type}

/-- The length of a list and its items. -/
def countedFields (field : α → List Char) (xs : List α) : List Char :=
  naturalField xs.length ++ xs.flatMap field

def headFields (choice : Bool) (head : List Nat) : List Char :=
  naturalField choice.toNat ++ countedFields naturalField head

/-! ### Lines -/

def ruleFields (r : Rule) : List Char :=
  headFields r.choice r.head ++ (naturalField 0 ++ countedFields literalField r.body)

def weightRuleFields (r : WeightRule) : List Char :=
  headFields r.choice r.head ++
    (naturalField 1 ++ (integerField r.lower ++ countedFields elementField r.body))

/-- The label stands there as it is, with its length in bytes in front. -/
def outputFields (label : List Char) (condition : List Literal) : List Char :=
  naturalField (String.ofList label).utf8ByteSize ++
    ' ' :: (label ++ countedFields literalField condition)

def valueNumber : ExternalValue → Nat
  | .free => 0
  | .on => 1
  | .off => 2
  | .release => 3

def externalFields (atom : Nat) (value : ExternalValue) : List Char :=
  naturalField atom ++ naturalField (valueNumber value)

/-- The lines that say a statement. A symbol may be written in any way that is read as it. -/
inductive Spells : List Char → Statement → Prop
  | rule (r : Rule) : Spells (Decimal.natural 1 ++ ruleFields r) (.rule r)
  | weightRule (r : WeightRule) : Spells (Decimal.natural 1 ++ weightRuleFields r) (.weightRule r)
  | output {label : List Char} {symbol : Symbol} (hlabel : Symbol.read? label = some symbol)
      (hfeed : '\n' ∉ label) (hsize : Decimal.fitsNat32 (String.ofList label).utf8ByteSize)
      (condition : List Literal) :
      Spells (Decimal.natural 4 ++ outputFields label condition) (.output symbol condition)
  | external (atom : Nat) (value : ExternalValue) :
      Spells (Decimal.natural 5 ++ externalFields atom value) (.external atom value)

/-! ### Fields are read whole -/

variable {text rest : List Char} {n : Nat} {z : Int}

theorem skipGaps_of_stops (h : Stops isGap text) : skipGaps text = text := h.dropWhile

theorem skipGaps_integer (z : Int) (rest : List Char) :
    skipGaps (Decimal.integer z ++ rest) = Decimal.integer z ++ rest := by
  obtain ⟨c, more, hz, hc⟩ := Decimal.head_integer z
  refine skipGaps_of_stops ?_
  rw [hz, List.cons_append, stops_cons]
  rcases hc with hdigit | rfl
  · exact isGap_of_isDigit hdigit
  · rfl

theorem skipGaps_natural (n : Nat) (rest : List Char) :
    skipGaps (Decimal.natural n ++ rest) = Decimal.natural n ++ rest := by
  have h := skipGaps_integer n rest
  rwa [Decimal.integer_of_nonneg (Int.natCast_nonneg n), Int.toNat_natCast] at h

theorem readNatural_eq (text : List Char) : readNatural text =
    ((Decimal.scanNatural (skipGaps text)).map Scan.toPair).filter fun r =>
      Decimal.fitsNat32 r.1 := by
  unfold readNatural
  cases Decimal.scanNatural (skipGaps text) with
  | none => rfl
  | some s => rw [Option.map_some, Option.filter_some]; rfl

theorem readNatural_natural (hrest : Stops Char.isDigit rest) :
    readNatural (Decimal.natural n ++ rest) =
      if Decimal.fitsNat32 n then some (n, rest) else none := by
  have hscan : (Decimal.scanNatural (Decimal.natural n ++ rest)).map Scan.toPair =
    some (n, rest) := Decimal.reads_scanNatural_natural n hrest
  rw [readNatural_eq, skipGaps_natural, hscan, Option.filter_some]

theorem readNatural_field (hrest : Stops Char.isDigit rest) :
    readNatural (naturalField n ++ rest) =
      if Decimal.fitsNat32 n then some (n, rest) else none := by
  rw [← readNatural_natural hrest, readNatural_eq, readNatural_eq]
  rfl

theorem readInteger_field (z : Int) (hrest : Stops Char.isDigit rest) :
    readInteger (integerField z ++ rest) = some (z, rest) := by
  change (Decimal.scanInteger (skipGaps (Decimal.integer z ++ rest))).map Scan.toPair = _
  rw [skipGaps_integer]
  exact Decimal.reads_scanInteger_integer z hrest

theorem fitsNat32_of_le (h : n ≤ maxAtom) : Decimal.fitsNat32 n := by
  have hmax : maxAtom < Nat.pow 2 32 := by decide
  exact decide_eq_true (h.trans_lt hmax)

theorem readAtom_field (hn : n ≤ maxAtom) (hrest : Stops Char.isDigit rest) :
    readAtom (naturalField n ++ rest) = some (n, rest) := by
  unfold readAtom
  rw [readNatural_field hrest, if_pos (fitsNat32_of_le hn)]
  simp [hn]

theorem readLiteral_field {l : Literal} (hl : l.atom ≤ maxAtom) (hrest : Stops Char.isDigit rest) :
    readLiteral (literalField l ++ rest) = some (l, rest) := by
  have hraw : l.raw.natAbs ≤ maxAtom := hl
  unfold readLiteral literalField
  rw [readInteger_field l.raw hrest]
  simp [hraw]

theorem readWeight_field (hz : Decimal.fitsInt64 z) (hrest : Stops Char.isDigit rest) :
    readWeight (integerField z ++ rest) = some (z, rest) := by
  unfold readWeight
  rw [readInteger_field z hrest]
  simp [hz]

/-- No field begins with a digit. -/
theorem stops_blank (text : List Char) : Stops Char.isDigit (' ' :: text) := stops_cons.mpr rfl

theorem readElement_field {e : Literal × Int} (hl : e.1.atom ≤ maxAtom)
    (hw : Decimal.fitsInt64 e.2) (hrest : Stops Char.isDigit rest) :
    readElement (elementField e ++ rest) = some (e, rest) := by
  have hnext : Stops Char.isDigit (integerField e.2 ++ rest) := stops_blank _
  unfold readElement elementField
  rw [List.append_assoc, readLiteral_field hl hnext]
  change (readWeight _).bind _ = _
  rw [readWeight_field hw hrest]
  rfl

/-! ### Lists -/

variable {read : List Char → Option (α × List Char)} {field : α → List Char} {xs : List α}

theorem stops_flatMap (hfield : ∀ x text, Stops Char.isDigit (field x ++ text))
    (hrest : Stops Char.isDigit rest) : Stops Char.isDigit (xs.flatMap field ++ rest) := by
  cases xs with
  | nil => exact hrest
  | cons x xs =>
      rw [List.flatMap_cons, List.append_assoc]
      exact hfield x _

theorem readMany_flatMap
    (hread : ∀ x ∈ xs, ∀ {rest}, Stops Char.isDigit rest → read (field x ++ rest) = some (x, rest))
    (hfield : ∀ x text, Stops Char.isDigit (field x ++ text)) (hrest : Stops Char.isDigit rest) :
    readMany read xs.length (xs.flatMap field ++ rest) = some (xs, rest) := by
  induction xs with
  | nil => rfl
  | cons x xs ih =>
      rw [List.flatMap_cons, List.append_assoc, List.length_cons, readMany,
        hread x List.mem_cons_self (stops_flatMap hfield hrest)]
      change (readMany read xs.length _).bind _ = _
      rw [ih fun y hy => hread y (List.mem_cons_of_mem x hy)]
      rfl

/-- A list is read if its length is. -/
theorem readCounted_fields
    (hread : ∀ x ∈ xs, ∀ {rest}, Stops Char.isDigit rest → read (field x ++ rest) = some (x, rest))
    (hfield : ∀ x text, Stops Char.isDigit (field x ++ text)) (hrest : Stops Char.isDigit rest) :
    readCounted read (countedFields field xs ++ rest) =
      if Decimal.fitsNat32 xs.length then some (xs, rest) else none := by
  unfold readCounted countedFields
  rw [List.append_assoc, readNatural_field (stops_flatMap hfield hrest)]
  split
  · exact readMany_flatMap hread hfield hrest
  · rfl

theorem readCounted_atoms {head : List Nat} (h : ∀ a ∈ head, a ≤ maxAtom)
    (hrest : Stops Char.isDigit rest) :
    readCounted readAtom (countedFields naturalField head ++ rest) =
      if Decimal.fitsNat32 head.length then some (head, rest) else none :=
  readCounted_fields (fun a ha _ => readAtom_field (h a ha)) (fun _ _ => stops_blank _) hrest

theorem readCounted_literals {body : List Literal} (h : ∀ l ∈ body, l.atom ≤ maxAtom)
    (hrest : Stops Char.isDigit rest) :
    readCounted readLiteral (countedFields literalField body ++ rest) =
      if Decimal.fitsNat32 body.length then some (body, rest) else none :=
  readCounted_fields (fun l hl _ => readLiteral_field (h l hl)) (fun _ _ => stops_blank _) hrest

theorem readCounted_elements {body : List (Literal × Int)}
    (h : ∀ e ∈ body, e.1.atom ≤ maxAtom ∧ Decimal.fitsInt64 e.2)
    (hrest : Stops Char.isDigit rest) :
    readCounted readElement (countedFields elementField body ++ rest) =
      if Decimal.fitsNat32 body.length then some (body, rest) else none :=
  readCounted_fields (fun e he _ => readElement_field (h e he).1 (h e he).2)
    (fun _ _ => stops_blank _) hrest

/-! ### Statements are read whole -/

/-- What a rule has behind its head. -/
def readBody (choice : Bool) (head : List Nat) (text : List Char) :
    Option (Statement × List Char) := do
  let (bodyKind, text) ← readNatural text
  match bodyKind with
  | 0 =>
    let (body, text) ← readCounted readLiteral text
    some (.rule ⟨choice, head, body⟩, text)
  | 1 =>
    let (lower, text) ← readWeight text
    let (body, text) ← readCounted readElement text
    some (.weightRule ⟨choice, head, lower, body⟩, text)
  | _ => none

theorem readRule_headFields {choice : Bool} {head : List Nat} (h : ∀ a ∈ head, a ≤ maxAtom)
    (hrest : Stops Char.isDigit rest) :
    readRule (headFields choice head ++ rest) =
      if Decimal.fitsNat32 head.length then readBody choice head rest else none := by
  have hcount : Stops Char.isDigit (countedFields naturalField head ++ rest) := stops_blank _
  have hkind : headKind? choice.toNat = some choice := by cases choice <;> rfl
  have hfits : Decimal.fitsNat32 choice.toNat := by cases choice <;> rfl
  unfold readRule headFields
  rw [List.append_assoc, readNatural_field hcount, if_pos hfits]
  change (headKind? choice.toNat).bind (fun choice => (readCounted readAtom _).bind _) = _
  rw [hkind, Option.bind_some, readCounted_atoms h hrest]
  split <;> rfl

theorem readRule_ruleFields {r : Rule} (h : (Statement.rule r).InRange) :
    readRule (ruleFields r) =
      if (Statement.rule r).IsCountable then some (.rule r, []) else none := by
  have hkind : Stops Char.isDigit (naturalField 0 ++ countedFields literalField r.body) :=
    stops_blank _
  have hcount : Stops Char.isDigit (countedFields literalField r.body) := stops_blank _
  have hliterals := readCounted_literals h.2 (stops_nil Char.isDigit)
  rw [List.append_nil] at hliterals
  have hbody : readBody r.choice r.head (naturalField 0 ++ countedFields literalField r.body) =
      if Decimal.fitsNat32 r.body.length then some (.rule r, []) else none := by
    unfold readBody
    rw [readNatural_field hcount, if_pos (show Decimal.fitsNat32 0 from rfl)]
    change (readCounted readLiteral _).bind _ = _
    rw [hliterals]
    split <;> rfl
  unfold ruleFields
  rw [readRule_headFields h.1 hkind, hbody, ← ite_and]
  simp [Statement.IsCountable, Statement.lengths]

theorem readRule_weightRuleFields {r : WeightRule} (h : (Statement.weightRule r).InRange) :
    readRule (weightRuleFields r) =
      if (Statement.weightRule r).IsCountable then some (.weightRule r, []) else none := by
  have hkind : Stops Char.isDigit (naturalField 1 ++
      (integerField r.lower ++ countedFields elementField r.body)) := stops_blank _
  have hlower : Stops Char.isDigit (integerField r.lower ++ countedFields elementField r.body) :=
    stops_blank _
  have hcount : Stops Char.isDigit (countedFields elementField r.body) := stops_blank _
  have helements := readCounted_elements h.2.2 (stops_nil Char.isDigit)
  rw [List.append_nil] at helements
  have hbody : readBody r.choice r.head (naturalField 1 ++
      (integerField r.lower ++ countedFields elementField r.body)) =
      if Decimal.fitsNat32 r.body.length then some (.weightRule r, []) else none := by
    unfold readBody
    rw [readNatural_field hlower, if_pos (show Decimal.fitsNat32 1 from rfl)]
    change (readWeight _).bind (fun s => (readCounted readElement s.2).bind _) = _
    rw [readWeight_field h.2.1 hcount, Option.bind_some, helements]
    split <;> rfl
  unfold weightRuleFields
  rw [readRule_headFields h.1 hkind, hbody, ← ite_and]
  simp [Statement.IsCountable, Statement.lengths]

theorem splitBytes_cons {c : Char} (h : c.utf8Size ≤ n) (text : List Char) :
    splitBytes n (c :: text) =
      (splitBytes (n - c.utf8Size) text).map fun s => (c :: s.1, s.2) := by
  cases n with
  | zero => exact absurd h (by have := c.utf8Size_pos; omega)
  | succ n =>
      rw [splitBytes, if_pos h]
      cases splitBytes (n + 1 - c.utf8Size) text <;> rfl

/-- As many bytes as a text has are the text. -/
theorem splitBytes_append (text rest : List Char) :
    splitBytes (String.ofList text).utf8ByteSize (text ++ rest) = some (text, rest) := by
  induction text with
  | nil => exact splitBytes.eq_1 rest
  | cons c text ih =>
      have hsize : (String.ofList (c :: text)).utf8ByteSize =
          c.utf8Size + (String.ofList text).utf8ByteSize := by
        rw [String.ofList_cons, String.utf8ByteSize_append, String.utf8ByteSize_singleton]
      rw [List.cons_append, hsize, splitBytes_cons (Nat.le_add_right _ _), Nat.add_sub_cancel_left,
        ih]
      rfl

theorem readOutput_outputFields {label : List Char} {symbol : Symbol} {condition : List Literal}
    (h : (Statement.output symbol condition).InRange) (hlabel : Symbol.read? label = some symbol)
    (hsize : Decimal.fitsNat32 (String.ofList label).utf8ByteSize) :
    readOutput (outputFields label condition) =
      if (Statement.output symbol condition).IsCountable then
        some (.output symbol condition, []) else none := by
  have hliterals := readCounted_literals h (stops_nil Char.isDigit)
  rw [List.append_nil] at hliterals
  unfold readOutput outputFields
  rw [readNatural_field (stops_blank _), if_pos hsize]
  change (splitBytes _ _).bind (fun s => (Symbol.read? s.1).bind fun symbol =>
    (readCounted readLiteral s.2).bind _) = _
  rw [splitBytes_append, Option.bind_some, hlabel, Option.bind_some, hliterals]
  simp only [Statement.IsCountable, Statement.lengths, List.forall_mem_singleton]
  split <;> rfl

theorem readExternal_externalFields {atom : Nat} (h : atom ≤ maxAtom) (value : ExternalValue) :
    readExternal (externalFields atom value) = some (.external atom value, []) := by
  have hvalue : Stops Char.isDigit (naturalField (valueNumber value)) := stops_blank _
  have hread := readNatural_field (n := valueNumber value) (stops_nil Char.isDigit)
  rw [List.append_nil, if_pos (by cases value <;> rfl)] at hread
  unfold readExternal externalFields
  rw [readAtom_field h hvalue]
  change (readNatural _).bind (fun s => (externalValue? s.1).bind _) = _
  rw [hread]
  cases value <;> rfl

/-- The reader of what follows the kind of a statement. -/
def reader? : Nat → Option (List Char → Option (Statement × List Char))
  | 1 => some readRule
  | 4 => some readOutput
  | 5 => some readExternal
  | _ => none

/-- The line is a rule, an output or an external, and is read to its end. -/
def Says (line : List Char) (s : Statement) : Prop :=
  ∃ kind rest read, readNatural line = some (kind, rest) ∧ reader? kind = some read ∧
    read rest = some (s, [])

/-- A line without a kind, or a rule, an output or an external that is not read to its end. -/
inductive IsMalformed (line : List Char) : Prop
  | unnumbered (hne : line ≠ []) (h : readNatural line = none)
  | incomplete {kind : Nat} {rest : List Char}
      {read : List Char → Option (Statement × List Char)}
      (h : readNatural line = some (kind, rest)) (hreader : reader? kind = some read)
      (hpartial : ∀ s, read rest ≠ some (s, []))

/-- A written statement is read to its end if its lists can be counted, and not otherwise. -/
theorem Spells.reading {line : List Char} {s : Statement} (h : Spells line s)
    (hrange : s.InRange) : if s.IsCountable then Says line s else IsMalformed line := by
  obtain ⟨kind, rest, read, hline, hreader, hread⟩ : ∃ kind rest read,
      readNatural line = some (kind, rest) ∧ reader? kind = some read ∧
        read rest = if s.IsCountable then some (s, []) else none := by
    cases h with
    | rule r =>
        exact ⟨1, ruleFields r, readRule, readNatural_natural (stops_blank _), rfl,
          readRule_ruleFields hrange⟩
    | weightRule r =>
        exact ⟨1, weightRuleFields r, readRule, readNatural_natural (stops_blank _), rfl,
          readRule_weightRuleFields hrange⟩
    | @output label symbol hlabel _ hsize condition =>
        exact ⟨4, outputFields label condition, readOutput, readNatural_natural (stops_blank _),
          rfl, readOutput_outputFields hrange hlabel hsize⟩
    | external atom value =>
        have hcountable : (Statement.external atom value).IsCountable := by
          simp [Statement.IsCountable, Statement.lengths]
        rw [if_pos hcountable]
        exact ⟨5, externalFields atom value, readExternal, readNatural_natural (stops_blank _), rfl,
          readExternal_externalFields hrange value⟩
  split at hread
  · rw [if_pos ‹_›]
    exact ⟨kind, rest, read, hline, hreader, hread⟩
  · rw [if_neg ‹_›]
    exact .incomplete hline hreader fun s' => by simp [hread]

/-! ### Lines as they stand -/

theorem isTrimmed_natural (n : Nat) : IsTrimmed (Decimal.natural n) :=
  isTrimmed_of_forall (Decimal.natural_ne_nil n) fun _ hc =>
    isWhiteSpace_of_isDigit (Decimal.isDigit_of_mem_natural hc)

theorem isTrimmed_integer (z : Int) : IsTrimmed (Decimal.integer z) := by
  by_cases hz : 0 ≤ z
  · rw [Decimal.integer_of_nonneg hz]
    exact isTrimmed_natural _
  · rw [Decimal.integer_of_neg (by omega)]
    exact (isTrimmed_natural _).append ['-']

theorem isTrimmed_naturalField (n : Nat) : IsTrimmed (naturalField n) :=
  (isTrimmed_natural n).append [' ']

theorem isTrimmed_integerField (z : Int) : IsTrimmed (integerField z) :=
  (isTrimmed_integer z).append [' ']

theorem isTrimmed_countedFields (hfield : ∀ x, IsTrimmed (field x)) (xs : List α) :
    IsTrimmed (countedFields field xs) := by
  refine (isTrimmed_naturalField xs.length).append_of ?_
  induction xs with
  | nil => exact Or.inl rfl
  | cons x xs ih => exact Or.inr ((hfield x).append_of ih)

/-- A statement is written without white space at the end. -/
theorem Spells.isTrimmed {line : List Char} {s : Statement} (h : Spells line s) :
    IsTrimmed line := by
  have hliterals := isTrimmed_countedFields fun l : Literal => isTrimmed_integerField l.raw
  have helements := isTrimmed_countedFields fun e : Literal × Int =>
    (isTrimmed_integerField e.2).append (literalField e.1)
  cases h with
  | rule r => exact (((hliterals r.body).append _).append _).append _
  | weightRule r => exact ((((helements r.body).append _).append _).append _).append _
  | @output label symbol hlabel hfeed hsize condition =>
      exact ((((hliterals condition).append label).append [' ']).append _).append _
  | external atom value => exact ((isTrimmed_naturalField _).append _).append _

theorem feed_notMem_natural (n : Nat) : '\n' ∉ Decimal.natural n := fun h =>
  absurd (Decimal.isDigit_of_mem_natural h) (by decide)

theorem feed_notMem_integer (z : Int) : '\n' ∉ Decimal.integer z := by
  by_cases hz : 0 ≤ z
  · rw [Decimal.integer_of_nonneg hz]
    exact feed_notMem_natural _
  · rw [Decimal.integer_of_neg (by omega)]
    simp [feed_notMem_natural]

theorem feed_notMem_countedFields (hfield : ∀ x, '\n' ∉ field x) (xs : List α) :
    '\n' ∉ countedFields field xs := by
  simp [countedFields, naturalField, feed_notMem_natural, hfield]

theorem feed_notMem_headFields (choice : Bool) (head : List Nat) :
    '\n' ∉ headFields choice head := by
  have hfield : ∀ a, '\n' ∉ naturalField a := fun a => by
    simp [naturalField, feed_notMem_natural]
  have hcount := feed_notMem_countedFields hfield head
  simp [headFields, naturalField, feed_notMem_natural, hcount]

/-- A statement is written in one line. -/
theorem Spells.feed_notMem {line : List Char} {s : Statement} (h : Spells line s) :
    '\n' ∉ line := by
  have hliteral : ∀ l, '\n' ∉ literalField l := fun l => by
    simp [literalField, integerField, feed_notMem_integer]
  have helement : ∀ e, '\n' ∉ elementField e := fun e => by
    simp [elementField, literalField, integerField, feed_notMem_integer]
  have hliterals := feed_notMem_countedFields hliteral
  have helements := feed_notMem_countedFields helement
  cases h with
  | rule r =>
      simp [ruleFields, naturalField, feed_notMem_natural, feed_notMem_headFields, hliterals]
  | weightRule r =>
      simp [weightRuleFields, naturalField, integerField, feed_notMem_natural, feed_notMem_integer,
        feed_notMem_headFields, helements]
  | output hlabel hfeed hsize condition =>
      simp [outputFields, naturalField, feed_notMem_natural, hfeed, hliterals]
  | external atom value => simp [externalFields, naturalField, feed_notMem_natural]

end Aspif

end StablePlan
