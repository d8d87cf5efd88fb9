import Mathlib.Algebra.BigOperators.Ring.List
import Mathlib.Algebra.Group.Nat.Even
import Mathlib.Algebra.Ring.Parity
import HardwareLinker.Proofs.Constraint.Reading
import HardwareLinker.Proofs.Pairs
import HardwareLinker.Proofs.Text.Split

/-!
What a constraint file is cut into, told without the state of the cutting. Each character belongs to
the code, to a string or to a comment, and semicolons of the code part the text into chunks; a chunk
becomes a statement with the text that stands outside comments.
-/

namespace HardwareLinker.Constraint

/-! ### Strings and comments -/

/-- What the characters of a text belong to. -/
inductive Region where
  | code
  | string
  | comment
deriving DecidableEq, Repr

namespace Region

/-- What the next character belongs to: quotes belong to their string, a hash to its comment, and
the line feed after a comment to the code. -/
def enter (r : Region) (c : Char) : Region :=
  match r with
  | code => if c = '"' then string else if c = '#' then comment else code
  | string => string
  | comment => if c = '\n' then code else comment

/-- What is open after the next character. -/
def next (r : Region) (c : Char) : Region :=
  if r = string ∧ c = '"' then code else r.enter c

/-- What is open where a quote may be open. -/
def ofQuoted (quoted : Bool) : Region := if quoted then string else code

theorem enter_ofQuoted {quoted : Bool} {c : Char} :
    (ofQuoted quoted).enter c = comment ↔ quoted = false ∧ c = '#' := by
  cases quoted with
  | true => simp [ofQuoted, enter]
  | false =>
      by_cases quote : c = '"'
      · simp [ofQuoted, enter, quote]
      · simp [ofQuoted, enter, quote]

end Region

/-- A character of a text, its line and what it belongs to. -/
structure Mark where
  char : Char
  line : Nat
  region : Region
deriving DecidableEq, Repr

namespace Mark

/-- The end of a statement. -/
def separates (m : Mark) : Bool := m.char == ';' && m.region == .code

def shown (m : Mark) : Bool := m.region != .comment

/-- The character as a statement shows it; line ends are blanks. -/
def text (m : Mark) : Char := if m.char = '\n' then ' ' else m.char

theorem text_eq_iff {m : Mark} {c : Char} (visible : Text.isBlank c = false) :
    m.text = c ↔ m.char = c := by
  unfold text
  split
  · next newline =>
    rw [newline]
    constructor <;> rintro rfl <;> cases visible
  · rfl

end Mark

/-- The characters of a text with their lines. -/
def characters (source : List Char) : List (Char × Nat) :=
  ((Text.lines source).zipIdx 1).flatMap fun (line, n) => (line ++ ['\n']).map (·, n)

def marks (r : Region) : List (Char × Nat) → List Mark
  | [] => []
  | (c, line) :: rest => ⟨c, line, r.enter c⟩ :: marks (r.next c) rest

/-- What is open after the characters. -/
def regionAfter (r : Region) (cs : List (Char × Nat)) : Region := cs.foldl (fun r e => r.next e.1) r

/-- What stands between the semicolons of the code. -/
def chunks (source : List Char) : List (List Mark) :=
  (marks .code (characters source)).splitOnP Mark.separates

/-- What a chunk says, without its comments. -/
def textOf (chunk : List Mark) : List Char := (chunk.filter Mark.shown).map Mark.text

/-- The line of the first character outside comments that begins a statement. -/
def lineOf (begins : Char → Bool) (chunk : List Mark) : Option Nat :=
  ((chunk.filter Mark.shown).find? (begins ·.char)).map (·.line)

/-- The statement that a chunk is if a character begins one. -/
def statementFrom (begins : Char → Bool) (chunk : List Mark) : Option (Nat × List Char) :=
  (lineOf begins chunk).map (·, textOf chunk)

/-- The characters that the reader lets begin a statement. -/
def unquoted (c : Char) : Bool := !Text.isBlank c && c != '"'

theorem marks_append (r : Region) (xs ys : List (Char × Nat)) :
    marks r (xs ++ ys) = marks r xs ++ marks (regionAfter r xs) ys := by
  induction xs generalizing r with
  | nil => rfl
  | cons x xs ih => exact congrArg (_ :: ·) (ih _)

theorem textOf_append (front back : List Mark) :
    textOf (front ++ back) = textOf front ++ textOf back := by
  rw [textOf, List.filter_append, List.map_append]
  rfl

theorem textOf_singleton (m : Mark) : textOf [m] = if m.shown then [m.text] else [] := by
  cases shown : m.shown <;> simp [textOf, shown]

theorem lineOf_append_singleton (begins : Char → Bool) (chunk : List Mark) (m : Mark) :
    lineOf begins (chunk ++ [m]) =
      (lineOf begins chunk).or (if m.shown ∧ begins m.char then some m.line else none) := by
  cases shown : m.shown <;> cases first : begins m.char <;>
    simp [lineOf, List.filter_append, List.find?_append, shown, first]

theorem modifyHead_nil_append (l : List (List Mark)) : l.modifyHead ([] ++ ·) = l := by
  cases l <;> rfl

/-! ### The cutting, character by character -/

namespace Scan

/-- Takes in one character of which it is known what it belongs to. -/
def feed (s : Scan) (m : Mark) : Scan :=
  if m.region = .comment then s
  else if m.separates then s.close
  else if m.char = '"' then { s.push m.char with quoted := !s.quoted }
  else if m.char = '\n' then s.push ' '
  else s.take m.line m.char

/-- A comment is skipped up to the end of its line. -/
theorem feed_comment {line : List Char} (n : Nat) (s : Scan) (one : '\n' ∉ line) :
    (marks .comment ((line ++ ['\n']).map (·, n))).foldl feed s = s.push ' ' ∧
      regionAfter .comment ((line ++ ['\n']).map (·, n)) = .code := by
  induction line with
  | nil => exact ⟨rfl, rfl⟩
  | cons c line ih =>
      rw [List.mem_cons, not_or] at one
      have stays : Region.comment.enter c = .comment := if_neg (Ne.symm one.1)
      have goesOn : Region.comment.next c = .comment := (if_neg (by simp)).trans stays
      simp only [List.cons_append, List.map_cons, marks, List.foldl_cons, regionAfter,
        stays, goesOn]
      exact ih one.2

/-- Outside comments a character is taken in as what it is. -/
theorem readLine_cons {c : Char} (line : List Char) (n : Nat) (s : Scan) (other : c ≠ '\n')
    (code : (Region.ofQuoted s.quoted).enter c ≠ .comment) :
    readLine n s (c :: line) =
        readLine n (s.feed ⟨c, n, (Region.ofQuoted s.quoted).enter c⟩) line ∧
      (Region.ofQuoted s.quoted).next c =
        .ofQuoted (s.feed ⟨c, n, (Region.ofQuoted s.quoted).enter c⟩).quoted := by
  by_cases quote : c = '"'
  · subst quote
    cases quoted : s.quoted <;>
      simp [readLine, feed, Mark.separates, Region.ofQuoted, Region.enter, Region.next, quoted]
  cases quoted : s.quoted with
  | true =>
      simp [readLine, feed, Mark.separates, Region.ofQuoted, Region.enter, Region.next,
        quoted, quote, other, take, push]
  | false =>
      have hash : c ≠ '#' := fun hash => code (Region.enter_ofQuoted.mpr ⟨quoted, hash⟩)
      by_cases semicolon : c = ';'
      · subst semicolon
        cases start : s.start <;>
          simp [readLine, feed, Mark.separates, Region.ofQuoted, Region.enter, Region.next, quoted,
            close, start]
      · simp [readLine, feed, Mark.separates, Region.ofQuoted, Region.enter, Region.next, quoted,
          quote, other, hash, semicolon, take, push]

/-- A line is taken in as its characters are; strings may be open before and after it, comments are
not. -/
theorem readLine_eq_feed {line : List Char} (n : Nat) (s : Scan) (one : '\n' ∉ line) :
    readLine n s line = (marks (.ofQuoted s.quoted) ((line ++ ['\n']).map (·, n))).foldl feed s ∧
      regionAfter (.ofQuoted s.quoted) ((line ++ ['\n']).map (·, n)) =
        .ofQuoted (readLine n s line).quoted := by
  induction line generalizing s with
  | nil =>
      rcases s with ⟨found, current, start, _ | _⟩ <;> exact ⟨rfl, rfl⟩
  | cons c line ih =>
      rw [List.mem_cons, not_or] at one
      have other : c ≠ '\n' := Ne.symm one.1
      simp only [List.cons_append, List.map_cons, marks, List.foldl_cons, regionAfter]
      by_cases comment : (Region.ofQuoted s.quoted).enter c = .comment
      case pos =>
        -- The reader leaves the line here; the characters up to its end change nothing.
        obtain ⟨outside, rfl⟩ := Region.enter_ofQuoted.mp comment
        have read : readLine n s ('#' :: line) = s.push ' ' := by simp [readLine, outside]
        have fed : s.feed ⟨'#', n, .comment⟩ = s := if_pos rfl
        have opened : (Region.ofQuoted s.quoted).next '#' = .comment :=
          (if_neg (by simp)).trans comment
        obtain ⟨skipped, ended⟩ := feed_comment n s one.2
        rw [comment, opened, fed, read]
        refine ⟨skipped.symm, ended.trans ?_⟩
        simp [push, outside, Region.ofQuoted]
      case neg =>
        obtain ⟨read, opened⟩ := readLine_cons line n s other comment
        rw [read, opened]
        exact ih _ one.2

theorem foldl_readLine (ls : List (List Char × Nat)) (s : Scan) (one : ∀ l ∈ ls, '\n' ∉ l.1) :
    ls.foldl (fun s (line, n) => readLine n s line) s =
      (marks (.ofQuoted s.quoted) (ls.flatMap fun (line, n) => (line ++ ['\n']).map (·, n))).foldl
        feed s := by
  induction ls generalizing s with
  | nil => rfl
  | cons l ls ih =>
      obtain ⟨here, later⟩ := List.forall_mem_cons.mp one
      obtain ⟨read, opened⟩ := readLine_eq_feed l.2 s here
      rw [List.flatMap_cons, marks_append, List.foldl_append, opened, ← read]
      exact ih _ later

/-- The statement being read, told by the part of its chunk that has been read. -/
structure Holds (s : Scan) (chunk : List Mark) : Prop where
  current : s.current.reverse = textOf chunk
  start : s.start = lineOf unquoted chunk

theorem Holds.close {s : Scan} {chunk : List Mark} (holds : s.Holds chunk) :
    s.close.found = s.found ++ (statementFrom unquoted chunk).toList ∧ s.close.Holds [] := by
  rw [statementFrom, ← holds.start, ← holds.current]
  cases start : s.start with
  | none => simpa [Scan.close, start] using ⟨rfl, rfl⟩
  | some line => simpa [Scan.close, start] using ⟨rfl, rfl⟩

theorem Holds.feed {s : Scan} {chunk : List Mark} {m : Mark} (holds : s.Holds chunk)
    (inside : m.separates = false) :
    (s.feed m).found = s.found ∧ (s.feed m).Holds (chunk ++ [m]) := by
  by_cases comment : m.region = .comment
  case pos =>
    have hidden : m.shown = false := by simp [Mark.shown, comment]
    have same : s.feed m = s := if_pos comment
    rw [same]
    exact ⟨rfl, by simp [textOf_append, textOf_singleton, hidden, holds.current],
      by simp [lineOf_append_singleton, hidden, holds.start]⟩
  case neg =>
    have shown : m.shown = true := by simpa [Mark.shown] using comment
    have fed : s.feed m = if m.char = '"' then { s.push m.char with quoted := !s.quoted }
        else if m.char = '\n' then s.push ' ' else s.take m.line m.char := by
      rw [Scan.feed, if_neg comment, if_neg (by simp [inside])]
    have current : (s.feed m).current.reverse = textOf (chunk ++ [m]) := by
      rw [fed, textOf_append, textOf_singleton, if_pos shown, ← holds.current]
      split
      · next quote => simp [push, Mark.text, quote]
      · split
        · next newline => simp [push, Mark.text, newline]
        · next other => simp [take, push, Mark.text, other]
    refine ⟨by rw [fed]; split_ifs <;> rfl, current, ?_⟩
    rw [fed, lineOf_append_singleton, ← holds.start]
    split
    · next quote => simp [push, unquoted, quote]
    · split
      · next newline => simp [push, unquoted, newline, Text.isBlank, Text.blankRanges]
      · next quote other =>
          cases start : s.start <;> simp [take, push, unquoted, quote, shown, start]

/-- The statements that are found are those of the chunks, the first of which has been read in
part. -/
theorem found_foldl_feed (ms : List Mark) (s : Scan) (chunk : List Mark) (holds : s.Holds chunk) :
    (ms.foldl feed s).close.found = s.found ++
      ((ms.splitOnP Mark.separates).modifyHead (chunk ++ ·)).filterMap
        (statementFrom unquoted) := by
  induction ms generalizing s chunk with
  | nil =>
      rw [List.foldl_nil, holds.close.1]
      cases said : statementFrom unquoted chunk <;> simp [said]
  | cons m ms ih =>
      rw [List.foldl_cons, List.splitOnP_cons_eq_if_modifyHead]
      split
      case isTrue separates =>
        have fed : s.feed m = s.close := by
          have code : m.region ≠ .comment := by
            rintro comment
            simp [Mark.separates, comment] at separates
          rw [feed, if_neg code, if_pos separates]
        obtain ⟨found, fresh⟩ := holds.close
        rw [fed, ih _ _ fresh, found, modifyHead_nil_append]
        cases said : statementFrom unquoted chunk <;> simp [said]
      case isFalse inside =>
        obtain ⟨found, goes⟩ := holds.feed (Bool.eq_false_iff.mpr inside)
        rw [ih _ _ goes, found, List.modifyHead_modifyHead]
        simp [Function.comp_def]

end Scan

/-- The statements of a file are its chunks, those of quotes and blanks alone left out. -/
theorem statements_eq (source : List Char) :
    statements source = (chunks source).filterMap (statementFrom unquoted) := by
  have one : ∀ l ∈ (Text.lines source).zipIdx 1, '\n' ∉ l.1 := fun l mem =>
    Text.not_mem_of_mem_lines (List.fst_mem_of_mem_zipIdx mem)
  have read := Scan.foldl_readLine _ {} one
  have cut := Scan.found_foldl_feed (marks .code (characters source)) {} [] ⟨rfl, rfl⟩
  rw [modifyHead_nil_append] at cut
  exact (congrArg (·.close.found) read).trans cut

/-! ### Open strings -/

theorem Region.next_eq_string {r : Region} {c : Char} :
    r.next c = .string ↔ (r = .string ↔ ¬ (c = '"' ∧ r ≠ .comment)) := by
  by_cases quote : c = '"'
  · cases r <;> simp [Region.next, Region.enter, quote]
  · cases r <;> simp [Region.next, Region.enter, quote] <;> split <;> simp

theorem count_textOf_mark (r : Region) (c : Char) (line : Nat) :
    (textOf [⟨c, line, r.enter c⟩]).count '"' = if c = '"' ∧ r ≠ .comment then 1 else 0 := by
  rw [textOf_singleton]
  by_cases quote : c = '"'
  · subst quote
    cases r <;> simp [Mark.shown, Mark.text, Region.enter]
  · have other : Mark.text ⟨c, line, r.enter c⟩ ≠ '"' := (quote <| (Mark.text_eq_iff rfl).mp ·)
    cases Mark.shown ⟨c, line, r.enter c⟩ <;> simp [quote, other]

/-- The number of quotes tells whether a string has been opened or closed. -/
theorem even_quotes_marks (r : Region) (cs : List (Char × Nat)) :
    Even ((textOf (marks r cs)).count '"') ↔ (r = .string ↔ regionAfter r cs = .string) := by
  induction cs generalizing r with
  | nil => simp [marks, textOf, regionAfter]
  | cons e cs ih =>
      obtain ⟨c, line⟩ := e
      have cut : textOf (marks r ((c, line) :: cs)) =
          textOf [⟨c, line, r.enter c⟩] ++ textOf (marks (r.next c) cs) := textOf_append [_] _
      have after : regionAfter r ((c, line) :: cs) = regionAfter (r.next c) cs := rfl
      rw [cut, List.count_append, count_textOf_mark, Nat.even_add, ih, after, Region.next_eq_string]
      split <;> grind

/-- The quotes of a text that has tokens come in pairs. -/
theorem Token.even_quotes {cs : List Char} {tokens : List Token} (read : ofList? cs = some tokens) :
    Even (cs.count '"') := by
  have aside {c : Char} {rest : List Char} (other : c ≠ '"') (even : Even (rest.count '"')) :
      Even ((c :: rest).count '"') := by rwa [List.count_cons_of_ne other]
  fun_induction ofList? cs generalizing tokens with
  | case1 => simp
  | case2 c rest blank ih =>
      refine aside ?_ (ih read)
      rintro rfl
      simp [Text.isBlank, Text.blankRanges] at blank
  | case3 c rest _ punctuation ih | case4 c rest _ _ punctuation ih =>
      obtain ⟨later, read, -⟩ := Option.map_eq_some_iff.mp read
      refine aside ?_ (ih read)
      rintro rfl
      cases punctuation
  | case5 => cases read
  | case6 c rest _ _ _ quote inside after found _ ih =>
      obtain ⟨later, read, -⟩ := Option.map_eq_some_iff.mp read
      obtain ⟨rfl, fresh⟩ := Text.splitOnce_eq_some.mp found
      obtain rfl : c = '"' := by simpa using quote
      rw [List.count_cons_self, List.count_append, List.count_cons_self,
        List.count_eq_zero_of_not_mem fresh, Nat.zero_add]
      exact (ih read).add even_two
  | case7 c rest _ _ _ other _ ih =>
      obtain ⟨later, read, -⟩ := Option.map_eq_some_iff.mp read
      have front : '"' ∉ rest.takeWhile (! endsWord ·) := fun mem => by
        have := List.mem_takeWhile_imp mem
        simp [endsWord] at this
      refine aside (by simpa using other) ?_
      rw [← List.takeWhile_append_dropWhile (l := rest) (p := (! endsWord ·)), List.count_append,
        List.count_eq_zero_of_not_mem front, Nat.zero_add]
      exact ih read

theorem count_textOf_splitOnP (ms : List Mark) : (textOf ms).count '"' =
    ((ms.splitOnP Mark.separates).map fun chunk => (textOf chunk).count '"').sum := by
  induction ms with
  | nil => rfl
  | cons m ms ih =>
      have cut : textOf (m :: ms) = textOf [m] ++ textOf ms := textOf_append [m] ms
      rw [cut, List.count_append, ih, List.splitOnP_cons_eq_if_modifyHead]
      split
      case isTrue separates =>
        have none : (textOf [m]).count '"' = 0 := by
          simp only [Mark.separates, Bool.and_eq_true, beq_iff_eq] at separates
          obtain ⟨semicolon, -⟩ := separates
          rw [textOf_singleton]
          split <;> simp [Mark.text, semicolon]
        have empty : (textOf []).count '"' = 0 := rfl
        rw [none, List.map_cons, List.sum_cons, empty]
      case isFalse inside =>
        obtain ⟨chunk, later, cut⟩ :=
          List.exists_cons_of_ne_nil (List.splitOnP_ne_nil Mark.separates ms)
        have front : textOf (m :: chunk) = textOf [m] ++ textOf chunk := textOf_append [m] chunk
        simp [cut, front, Nat.add_assoc]

/-- The first character that is neither blank nor in a comment is no quote. -/
def OpensUnquoted (chunk : List Mark) : Prop :=
  ∀ m ∈ (chunk.filter Mark.shown).find? (!Text.isBlank ·.char), m.char ≠ '"'

instance (chunk : List Mark) : Decidable (OpensUnquoted chunk) :=
  inferInstanceAs (Decidable (∀ m ∈ (chunk.filter Mark.shown).find? _, m.char ≠ '"'))

theorem lineOf_of_opensUnquoted {chunk : List Mark} (opens : OpensUnquoted chunk) :
    lineOf unquoted chunk = lineOf (!Text.isBlank ·) chunk := by
  unfold lineOf
  unfold OpensUnquoted at opens
  generalize chunk.filter Mark.shown = shown at opens ⊢
  induction shown with
  | nil => rfl
  | cons m shown ih =>
      cases blank : Text.isBlank m.char with
      | true =>
          simp only [List.find?_cons, unquoted, blank] at opens ⊢
          exact ih opens
      | false =>
          simp only [List.find?_cons, blank] at opens
          simp [unquoted, blank, opens m rfl]

theorem even_of_lineOf_eq_none {chunk : List Mark} (none : lineOf (!Text.isBlank ·) chunk = none) :
    Even ((textOf chunk).count '"') := by
  have missing : '"' ∉ textOf chunk := by
    intro mem
    obtain ⟨m, mem, quote⟩ := List.mem_map.mp mem
    rw [Mark.text_eq_iff rfl] at quote
    have blank := List.find?_eq_none.mp (Option.map_eq_none_iff.mp none) m mem
    simp [quote, Text.isBlank, Text.blankRanges] at blank
  rw [List.count_eq_zero_of_not_mem missing]
  exact Even.zero

/-- A text that ends in an open string has a chunk whose quotes do not pair. -/
theorem exists_odd_chunk {source : List Char}
    (unclosed : regionAfter .code (characters source) = .string) :
    ∃ chunk ∈ chunks source, ¬ Even ((textOf chunk).count '"') := by
  by_contra paired
  push Not at paired
  have whole : Even ((textOf (marks .code (characters source))).count '"') := by
    rw [count_textOf_splitOnP, even_iff_two_dvd]
    refine List.dvd_sum fun n mem => ?_
    obtain ⟨chunk, listed, rfl⟩ := List.mem_map.mp mem
    exact even_iff_two_dvd.mp (paired chunk listed)
  have closed := ((even_quotes_marks _ _).mp whole).mpr unclosed
  cases closed

theorem even_of_reads {α : Type} [Scalar α] {texts : List (Nat × List Char)}
    {ss : List (Statement α)} (reads : Draft.Reads texts ss) {e : Nat × List Char}
    (mem : e ∈ texts) : Even (e.2.count '"') := by
  have paired : List.Forall₂ (fun (e : Nat × List Char) (s : Statement α) =>
      Even (e.2.count '"') ∧ Statement.ofList e.2 = .ok s) texts ss := by
    refine reads.imp fun e s read => ⟨?_, read⟩
    cases tokens : Token.ofList? e.2 with
    | none => simp [Statement.ofList, tokens] at read
    | some tokens' => exact Token.even_quotes tokens
  exact (List.forall₂_and_left _ _).mp paired |>.1 e mem

end HardwareLinker.Constraint

namespace HardwareLinker

open Constraint

/-- **Cutting loses quotes alone.** The statements of a file are its chunks in order, each with its
text outside comments and the line of its first character that is neither blank nor a quote; a chunk
without such a character is dropped. Where no chunk opens with a quote these are exactly the chunks
that are not blank, with the lines that they begin on, and a file with a string left open is
refused. -/
theorem ConstraintSet.statements_chunks {α : Type} [Scalar α] (source : String) :
    statements source.toList = (chunks source.toList).filterMap (statementFrom unquoted) ∧
      ((∀ chunk ∈ chunks source.toList, OpensUnquoted chunk) →
        statements source.toList =
            (chunks source.toList).filterMap (statementFrom (!Text.isBlank ·)) ∧
          ∀ set : ConstraintSet α, ofText source = .ok set →
            regionAfter .code (characters source.toList) ≠ .string) := by
  refine ⟨statements_eq _, fun opens => ⟨?_, fun set read unclosed => ?_⟩⟩
  · rw [statements_eq]
    refine List.filterMap_congr fun chunk mem => ?_
    rw [statementFrom, lineOf_of_opensUnquoted (opens chunk mem)]
    rfl
  · obtain ⟨ss, reads, -⟩ := ofText_eq_ok_iff.mp read
    obtain ⟨chunk, mem, odd⟩ := exists_odd_chunk unclosed
    cases line : lineOf unquoted chunk with
    | none => exact odd (even_of_lineOf_eq_none (lineOf_of_opensUnquoted (opens chunk mem) ▸ line))
    | some n =>
        have stated : (n, textOf chunk) ∈ statements source.toList := by
          rw [statements_eq]
          exact List.mem_filterMap.mpr ⟨chunk, mem, by rw [statementFrom, line]; rfl⟩
        exact odd (even_of_reads reads stated)

/-- A string over two lines with a semicolon and a hash, and a comment with a semicolon and a
quote. -/
def markedSource : String :=
  "DIMENSION FPGA 10,10; # ends; \"here\nAREAGROUP a\n= \"x;#\ny\";;\nRESOURCES a 4"

theorem ConstraintSet.statements_chunks_marked :
    (∀ chunk ∈ chunks markedSource.toList, OpensUnquoted chunk) ∧
    (chunks markedSource.toList).filterMap (statementFrom (!Text.isBlank ·)) =
      [(1, "DIMENSION FPGA 10,10".toList), (2, "  AREAGROUP a = \"x;# y\"".toList),
        (5, " RESOURCES a 4 ".toList)] ∧
    statements markedSource.toList =
      (chunks markedSource.toList).filterMap (statementFrom (!Text.isBlank ·)) ∧
    ∀ set : ConstraintSet Rat, ofText markedSource = .ok set →
      regionAfter .code (characters markedSource.toList) ≠ .string := by
  have opens : ∀ chunk ∈ chunks markedSource.toList, OpensUnquoted chunk := by decide +kernel
  exact ⟨opens, by decide +kernel, (statements_chunks markedSource).2 opens⟩

/-- A string that is opened at the very end. -/
def openSource : String := "DIMENSION FPGA 10,10;\n\""

/-- The last chunk of the text holds a quote; it is dropped, and the text is accepted although its
string is not closed. -/
theorem ConstraintSet.open_string_accepted :
    (chunks openSource.toList).filterMap (statementFrom (!Text.isBlank ·)) =
      [(1, "DIMENSION FPGA 10,10".toList), (2, " \" ".toList)] ∧
    statements openSource.toList = [(1, "DIMENSION FPGA 10,10".toList)] ∧
    regionAfter .code (characters openSource.toList) = .string ∧
    ∃ set : ConstraintSet Rat, ofText openSource = .ok set := by
  refine ⟨by decide +kernel, by decide +kernel, by decide +kernel, ?_⟩
  have accepted : (ConstraintSet.ofText (α := Rat) openSource).toOption.isSome = true := by
    decide +kernel
  obtain ⟨set, read⟩ := Option.isSome_iff_exists.mp accepted
  exact ⟨set, toOption_eq_some.mp read⟩

end HardwareLinker
