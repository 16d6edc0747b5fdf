import StablePlan.Proofs.Program.Writing
import StablePlan.Proofs.Symbol.Reading

/-!
Programs are read back. The lines of a file that come before some line are read through one by one;
what they say is put in front of what the rest says, and the numbers go on from there. So a written
program is read as its statements, and the first line that is not read to its end is the one that
the error names.
-/

namespace StablePlan.Aspif

open Text

variable {text line rest bad : List Char} {body rest' : List (List Char)} {s : Statement}
  {ss : List Statement} {n : Nat}

/-! ### Numbers of lines -/

/-- The lines that count, if so many lines come before. -/
def number (n : Nat) (ls : List (List Char)) : List (Nat × List Char) :=
  (ls.mapIdx fun i line => (n + i + 1, line)).filter fun line => !line.2.isEmpty

theorem numberedLines_eq (text : List Char) :
    numberedLines text = number 0 (trimmedLines text) := by
  unfold numberedLines number trimmedLines
  exact congrArg _ (List.ext_getElem (by simp) fun i _ _ => by simp)

theorem number_cons (n : Nat) (line : List Char) (ls : List (List Char)) :
    number n (line :: ls) =
      if line = [] then number (n + 1) ls else (n + 1, line) :: number (n + 1) ls := by
  have hshift : (fun (i : Nat) (line : List Char) => (n + (i + 1) + 1, line)) =
      fun i line => (n + 1 + i + 1, line) := by
    funext i line
    rw [← Nat.add_assoc n i 1, Nat.add_right_comm n i 1]
  unfold number
  rw [List.mapIdx_cons, hshift, List.filter_cons]
  cases line <;> simp

/-! ### Lists of lines -/

/-- Lines of which some stand for a statement, in the sense of `q`, and the others may be skipped,
in the sense of `p`. -/
inductive Listing (p : List Char → Prop) (q : List Char → Statement → Prop) :
    List (List Char) → List Statement → Prop
  | nil : Listing p q [] []
  | skip {line : List Char} {ls : List (List Char)} {ss : List Statement} (h : p line)
      (hrest : Listing p q ls ss) : Listing p q (line :: ls) ss
  | say {line : List Char} {s : Statement} {ls : List (List Char)} {ss : List Statement}
      (h : q line s) (hrest : Listing p q ls ss) : Listing p q (line :: ls) (s :: ss)

/-- Nothing is left of the line, or it is a comment. -/
def IsSkipped (line : List Char) : Prop := line = [] ∨ ∃ rest, readNatural line = some (10, rest)

/-- A blank line or a comment, as it may stand in a file. -/
def IsFiller (line : List Char) : Prop :=
  '\n' ∉ line ∧ ((∀ c ∈ line, isWhiteSpace c) ∨
    ∃ gaps rest, line = gaps ++ Decimal.natural 10 ++ rest ∧ (∀ c ∈ gaps, isGap c) ∧
      Stops Char.isDigit rest)

/-- What may follow the statements: nothing, or a line with the number zero and any text. -/
def IsEnding (text : List Char) : Prop :=
  text = [] ∨ ∃ rest, text = '0' :: rest ∧ Stops Char.isDigit rest

/-! ### One line -/

theorem readLine_of_reader {kind : Nat} {more : List Char}
    {read : List Char → Option (Statement × List Char)} (h : readNatural line = some (kind, more))
    (hreader : reader? kind = some read) (k : Nat) :
    readLine k line = match read more with
      | some (s, []) => .ok (.statement s)
      | _ => .error (.malformed k (String.ofList line)) := by
  unfold readLine
  rw [h]
  unfold reader? at hreader
  split at hreader
  case h_4 => exact absurd hreader (by simp)
  all_goals
    obtain rfl := Option.some.inj hreader
    rfl

theorem readNatural_nil : readNatural [] = none := rfl

theorem Says.ne_nil (h : Says line s) : line ≠ [] := by
  rintro rfl
  obtain ⟨kind, more, read, hline, -⟩ := h
  exact absurd (readNatural_nil.symm.trans hline) (by simp)

theorem IsMalformed.ne_nil (h : IsMalformed line) : line ≠ [] := by
  rintro rfl
  cases h with
  | unnumbered hne _ => exact hne rfl
  | incomplete hline _ _ => exact absurd (readNatural_nil.symm.trans hline) (by simp)

theorem Says.readLines_cons (h : Says line s) (k : Nat) (rest : List (Nat × List Char)) :
    readLines ((k, line) :: rest) = (readLines rest).map (s :: ·) := by
  obtain ⟨kind, more, read, hline, hreader, hread⟩ := h
  have hstatement : readLine k line = .ok (.statement s) := by
    rw [readLine_of_reader hline hreader, hread]
  rw [readLines, hstatement]
  cases readLines rest <;> rfl

theorem readLines_comment {more : List Char} (h : readNatural line = some (10, more)) (k : Nat)
    (rest : List (Nat × List Char)) : readLines ((k, line) :: rest) = readLines rest := by
  have hcomment : readLine k line = .ok .comment := by
    unfold readLine
    rw [h]
    rfl
  rw [readLines, hcomment]

theorem readLines_stop {more : List Char} (h : readNatural line = some (0, more)) (k : Nat)
    (rest : List (Nat × List Char)) : readLines ((k, line) :: rest) = .ok [] := by
  have hstop : readLine k line = .ok .stop := by
    unfold readLine
    rw [h]
    rfl
  rw [readLines, hstop]

theorem IsMalformed.readLines_cons (h : IsMalformed line) (k : Nat)
    (rest : List (Nat × List Char)) :
    readLines ((k, line) :: rest) = .error (.malformed k (String.ofList line)) := by
  have hmalformed : readLine k line = .error (.malformed k (String.ofList line)) := by
    cases h with
    | unnumbered _ hline =>
        unfold readLine
        rw [hline]
    | @incomplete kind more read hline hreader hpartial =>
        rw [readLine_of_reader hline hreader]
        split
        · rename_i s hread
          exact absurd hread (hpartial s)
        · rfl
  rw [readLines, hmalformed]

/-! ### Many lines -/

/-- What was read through is put in front of what the rest says. -/
theorem Listing.readLines_number (h : Listing IsSkipped Says body ss) (n : Nat)
    (rest : List (List Char)) : readLines (number n (body ++ rest)) =
      (readLines (number (n + body.length) rest)).map (ss ++ ·) := by
  induction h generalizing n with
  | nil =>
      rw [List.nil_append]
      cases readLines (number n rest) <;> rfl
  | @skip line ls ss hskip _ ih =>
      rw [List.cons_append, number_cons, List.length_cons, Nat.add_comm ls.length 1,
        ← Nat.add_assoc, ← ih (n + 1)]
      split
      · rfl
      · obtain ⟨more, hline⟩ := hskip.resolve_left ‹_›
        exact readLines_comment hline _ _
  | @say line s ls ss hline _ ih =>
      rw [List.cons_append, number_cons, if_neg hline.ne_nil, hline.readLines_cons, ih,
        List.length_cons, Nat.add_comm ls.length 1, ← Nat.add_assoc]
      cases readLines (number (n + 1 + ls.length) rest) <;> rfl

theorem number_blanks {blanks : List (List Char)} (h : ∀ line ∈ blanks, line = []) (n : Nat)
    (rest : List (List Char)) :
    number n (blanks ++ rest) = number (n + blanks.length) rest := by
  induction blanks generalizing n with
  | nil => rfl
  | cons line blanks ih =>
      rw [List.cons_append, number_cons, if_pos (h line List.mem_cons_self),
        ih fun l hl => h l (List.mem_cons_of_mem line hl), List.length_cons,
        Nat.add_comm blanks.length 1, ← Nat.add_assoc]

theorem isHeader_ne_nil (h : isHeader line) : line ≠ [] := by
  rintro rfl
  exact absurd h (by decide)

/-- What a program says whose lines were read through up to some line. -/
theorem read_of_listing {text : String} {blanks : List (List Char)} {first : List Char}
    (htext : trimmedLines text.toList = blanks ++ first :: (body ++ rest'))
    (hblanks : ∀ line ∈ blanks, line = []) (hfirst : isHeader first)
    (hbody : Listing IsSkipped Says body ss) :
    read text = (readLines (number (blanks.length + 1 + body.length) rest')).map (ss ++ ·) := by
  unfold read
  rw [numberedLines_eq, htext, number_blanks hblanks, number_cons, if_neg (isHeader_ne_nil hfirst)]
  dsimp only
  rw [if_pos hfirst, hbody.readLines_number, Nat.zero_add]

/-- The first line that is not read to its end is refused, and named. -/
theorem read_malformed {text : String} {blanks post : List (List Char)} {first : List Char}
    (htext : trimmedLines text.toList = blanks ++ first :: (body ++ bad :: post))
    (hblanks : ∀ line ∈ blanks, line = []) (hfirst : isHeader first)
    (hbody : Listing IsSkipped Says body ss) (hbad : IsMalformed bad) :
    read text = .error (.malformed ((blanks ++ first :: body).length + 1) (String.ofList bad)) := by
  have hlength : (blanks ++ first :: body).length = blanks.length + 1 + body.length := by
    rw [List.length_append, List.length_cons, Nat.add_comm body.length 1, ← Nat.add_assoc]
  rw [read_of_listing htext hblanks hfirst hbody, number_cons, if_neg hbad.ne_nil,
    hbad.readLines_cons, hlength]
  rfl

/-! ### Written programs -/

theorem readNatural_gaps {gaps : List Char} (h : ∀ c ∈ gaps, isGap c) (text : List Char) :
    readNatural (gaps ++ text) = readNatural text := by
  have hskip : skipGaps (gaps ++ text) = skipGaps text := List.dropWhile_append_of_pos h
  rw [readNatural_eq, readNatural_eq, hskip]

theorem IsFiller.isSkipped (h : IsFiller line) : IsSkipped (trimEnd line) := by
  obtain ⟨-, hblank | ⟨gaps, rest, rfl, hgaps, hrest⟩⟩ := h
  · exact Or.inl (trimEnd_eq_nil_iff.mpr hblank)
  · have hten : gaps ++ Decimal.natural 10 ++ rest = gaps ++ ['1'] ++ '0' :: rest := by
      rw [show Decimal.natural 10 = ['1', '0'] from rfl]
      simp
    have htrim : trimEnd (gaps ++ Decimal.natural 10 ++ rest) =
        gaps ++ (Decimal.natural 10 ++ trimEnd rest) := by
      rw [hten, trimEnd_append_cons (by decide)]
      simp [show Decimal.natural 10 = ['1', '0'] from rfl]
    refine Or.inr ⟨trimEnd rest, ?_⟩
    rw [htrim, readNatural_gaps hgaps, readNatural_natural hrest.trimEnd]
    rfl

theorem IsEnding.readLines {ending : List Char} (h : IsEnding ending) (n : Nat) :
    readLines (number n (trimmedLines ending)) = .ok [] := by
  rcases h with rfl | ⟨rest, rfl, hrest⟩
  · rfl
  · have hdark : isWhiteSpace '0' = false := rfl
    obtain ⟨line, more, hlines, hline⟩ := trimmedLines_cons_of_stops hdark hrest
    have hzero : readNatural ('0' :: line) = some (0, line) := readNatural_natural (n := 0) hline
    rw [hlines, number_cons, if_neg (by simp)]
    exact readLines_stop hzero _ _

/-- Every line of a written program is read through, if all lists can be counted. -/
theorem Listing.trimmed (h : Listing IsFiller Spells body ss) (hrange : ∀ s ∈ ss, s.InRange)
    (hcount : ∀ s ∈ ss, s.IsCountable) : Listing IsSkipped Says (body.map trimEnd) ss := by
  induction h with
  | nil => exact .nil
  | skip hskip _ ih => exact .skip hskip.isSkipped (ih hrange hcount)
  | @say line s ls ss hspells _ ih =>
      obtain ⟨hhead, hrest⟩ := List.forall_mem_cons.mp hrange
      obtain ⟨hs, hss⟩ := List.forall_mem_cons.mp hcount
      have hline := hspells.reading hhead
      rw [if_pos hs] at hline
      rw [List.map_cons, hspells.isTrimmed.2]
      exact .say hline (ih hrest hss)

/-- Otherwise some line is not read to its end, and those before it are. -/
theorem Listing.exists_isMalformed (h : Listing IsFiller Spells body ss)
    (hrange : ∀ s ∈ ss, s.InRange) (hcount : ¬∀ s ∈ ss, s.IsCountable) :
    ∃ pre bad post said, body.map trimEnd = pre ++ bad :: post ∧
      Listing IsSkipped Says pre said ∧ IsMalformed bad := by
  induction h with
  | nil => exact absurd (by simp) hcount
  | @skip line ls ss hskip _ ih =>
      obtain ⟨pre, bad, post, said, hbody, hpre, hbad⟩ := ih hrange hcount
      exact ⟨trimEnd line :: pre, bad, post, said, by rw [List.map_cons, hbody]; rfl,
        .skip hskip.isSkipped hpre, hbad⟩
  | @say line s ls ss hspells _ ih =>
      obtain ⟨hhead, hrest⟩ := List.forall_mem_cons.mp hrange
      have hline := hspells.reading hhead
      rw [List.map_cons, hspells.isTrimmed.2]
      -- The first statement that cannot be counted has the line that is asked for.
      split at hline
      · have hlater : ¬∀ s ∈ ss, s.IsCountable := fun hss =>
          hcount (List.forall_mem_cons.mpr ⟨‹_›, hss⟩)
        obtain ⟨pre, bad, post, said, hbody, hpre, hbad⟩ := ih hrest hlater
        exact ⟨line :: pre, bad, post, s :: said, by rw [hbody]; rfl, .say hline hpre, hbad⟩
      · exact ⟨[], line, ls.map trimEnd, [], rfl, .nil, hline⟩

theorem Listing.feed_notMem (h : Listing IsFiller Spells body ss) :
    ∀ line ∈ body, '\n' ∉ line := by
  induction h with
  | nil => simp
  | skip hskip _ ih => exact List.forall_mem_cons.mpr ⟨hskip.1, ih⟩
  | say hspells _ ih => exact List.forall_mem_cons.mpr ⟨hspells.feed_notMem, ih⟩

/-- The header as it is written. -/
def header : List Char := "asp 1 0 0".toList

/-- A written program is read as its statements just if each of its lists has a length of 32 bits,
whatever blank lines and comments stand in it and whatever follows the line with the number zero. A
longer list has a count that no field of the format can hold, so its line is refused. In any text,
the first line that is not read to its end is refused, and named by its number. -/
theorem reads_back :
    (∀ (blanks body : List (List Char)) (ss : List Statement) (ending : List Char),
      (∀ line ∈ blanks, '\n' ∉ line ∧ ∀ c ∈ line, isWhiteSpace c) →
      Listing IsFiller Spells body ss → (∀ s ∈ ss, s.InRange) → IsEnding ending →
        (read (String.ofList (unlines (blanks ++ header :: body) ++ ending)) = .ok ss ↔
          ∀ s ∈ ss, s.IsCountable)) ∧
    ∀ (text : String) (blanks body post : List (List Char)) (first bad : List Char)
      (ss : List Statement), trimmedLines text.toList = blanks ++ first :: (body ++ bad :: post) →
      (∀ line ∈ blanks, line = []) → isHeader first → Listing IsSkipped Says body ss →
      IsMalformed bad → read text =
        .error (.malformed ((blanks ++ first :: body).length + 1) (String.ofList bad)) := by
  refine ⟨fun blanks body ss ending hblanks hbody hrange hending => ?_,
    fun _ _ _ _ _ _ _ => read_malformed⟩
  have hheader : trimEnd header = header ∧ isHeader header ∧ '\n' ∉ header := by decide
  have hfeed : ∀ line ∈ blanks ++ header :: body, '\n' ∉ line :=
    List.forall_mem_append.mpr ⟨fun line hline => (hblanks line hline).1,
      List.forall_mem_cons.mpr ⟨hheader.2.2, hbody.feed_notMem⟩⟩
  have htext := trimmedLines_unlines hfeed ending
  have hempty : ∀ line ∈ blanks.map trimEnd, line = [] :=
    List.forall_mem_map.mpr fun line hline => trimEnd_eq_nil_iff.mpr (hblanks line hline).2
  rw [List.map_append, List.map_cons, hheader.1, List.append_assoc, List.cons_append,
    ← String.toList_ofList (l := unlines _ ++ ending)] at htext
  refine ⟨fun hread => ?_, fun hcount => ?_⟩
  -- If some list could not be counted, its line would be refused, and nothing read.
  · by_contra hcount
    obtain ⟨pre, bad, post, said, hsplit, hpre, hbad⟩ := hbody.exists_isMalformed hrange hcount
    rw [hsplit, List.append_assoc, List.cons_append] at htext
    have herror := read_malformed htext hempty hheader.2.1 hpre hbad
    exact absurd (hread.symm.trans herror) (by simp)
  · rw [read_of_listing htext hempty hheader.2.1 (hbody.trimmed hrange hcount), hending.readLines]
    simp [Except.map]

/-- The label `p("ä b")`, which has a blank and a character of two bytes. -/
def spacedLabel : Symbol := .function "p" [.string "ä b"]

def spacedStatements : List Statement := [
  .rule ⟨true, [1, 2], []⟩,
  .weightRule ⟨false, [3], -2, [(.positive 1, 1), (.negative 2, -5)]⟩,
  .output spacedLabel [.negative 3], .external 4 .release]

/-- A file of these statements, with comments, and one in which a literal is missing. -/
theorem reads_back_spacedStatements :
    read ("\t\nasp 1 0 0\n1 1 2 1 2 0 0\n\n 10 x\n1 0 1 3 1 -2 2 1 1 -2 -5\n" ++
        "4 9 p(\"ä b\") 1 -3\n10\r\n5 4 3\n0\n?") = .ok spacedStatements ∧
      read "asp 1 0 0\n5 1 0\n\n1 0 1 3 0 2 1  \n0\n" =
        .error (.malformed 4 "1 0 1 3 0 2 1") := by
  have hall : spacedLabel.strings.all fun u => u.toList.all fun c => Text.IsPlain c := by decide
  have hplain : ∀ u ∈ spacedLabel.strings, ∀ c ∈ u.toList, Text.IsPlain c := by
    simpa only [List.all_eq_true, decide_eq_true_eq] using hall
  have hread : Symbol.read? spacedLabel.text = some spacedLabel :=
    Symbol.read?_text_of_isPlain ⟨Or.inr (Or.inl ⟨rfl, by simp⟩), trivial, trivial⟩ hplain
  constructor
  · have hlisting : Listing IsFiller Spells [Decimal.natural 1 ++ ruleFields ⟨true, [1, 2], []⟩, [],
        " 10 x".toList, Decimal.natural 1 ++
          weightRuleFields ⟨false, [3], -2, [(.positive 1, 1), (.negative 2, -5)]⟩,
        Decimal.natural 4 ++ outputFields spacedLabel.text [.negative 3], "10\r".toList,
        Decimal.natural 5 ++ externalFields 4 .release] spacedStatements :=
      .say (.rule _) <| .skip ⟨by decide, Or.inl (by simp)⟩ <|
        .skip ⟨by decide, Or.inr ⟨[' '], [' ', 'x'], rfl, by simp [isGap], stops_blank _⟩⟩ <|
        .say (.weightRule _) <| .say (.output hread (by decide) (by decide) _) <|
        .skip ⟨by decide, Or.inr ⟨[], ['\r'], rfl, by simp, stops_cons.mpr rfl⟩⟩ <|
        .say (.external _ _) .nil
    have hblank : ∀ line ∈ ["\t".toList], '\n' ∉ line ∧ ∀ c ∈ line, isWhiteSpace c :=
      List.forall_mem_singleton.mpr ⟨by decide, List.forall_mem_singleton.mpr rfl⟩
    exact (reads_back.1 _ _ _ "0\n?".toList hblank hlisting (by decide)
      (Or.inr ⟨['\n', '?'], rfl, stops_cons.mpr rfl⟩)).mpr (by decide)
  · have hexternal : Says "5 1 0".toList (.external 1 .free) :=
      ⟨5, " 1 0".toList, readExternal, rfl, rfl, rfl⟩
    have hpartial : readRule " 0 1 3 0 2 1".toList = none := by decide
    have hbad : IsMalformed "1 0 1 3 0 2 1".toList :=
      .incomplete (show _ = some (1, " 0 1 3 0 2 1".toList) from rfl) rfl
        fun s h => absurd (hpartial.symm.trans h) (by simp)
    exact reads_back.2 _ [] ["5 1 0".toList, []] ["0".toList] header _ _ (by decide) (by simp)
      (by decide) (.say hexternal <| .skip (Or.inl rfl) .nil) hbad

end StablePlan.Aspif
