import HardwareLinker.Proofs.Constraint.Chunks

/-!
Texts put together from statements. What a file is cut into holds no semicolon and no hash outside
strings and no line end, so statements that are read may be written one after the other, each with a
semicolon behind it, and are cut apart again as they were.
-/

namespace HardwareLinker.Constraint

/-! ### The text of a statement -/

/-- What is open where comments have been taken out. -/
def Region.uncommented (r : Region) : Region := if r = comment then code else r

theorem Region.uncommented_of_ne {r : Region} (h : r ≠ comment) : r.uncommented = r := if_neg h

/-- Within a comment it stays open. -/
theorem Region.next_of_enter {r : Region} {c : Char} (hidden : r.enter c = comment) :
    r.next c = comment ∧ r.uncommented = code := by
  cases r with
  | string => cases hidden
  | code | comment => exact ⟨(if_neg (by simp)).trans hidden, rfl⟩

/-- What a statement shows of a character belongs to what the character does. -/
theorem Region.enter_text {r : Region} {c : Char} (line : Nat) (shown : r.enter c ≠ comment) :
    r.uncommented.enter (Mark.text ⟨c, line, r.enter c⟩) = r.enter c ∧
      r.uncommented.next (Mark.text ⟨c, line, r.enter c⟩) = (r.next c).uncommented := by
  by_cases newline : c = '\n'
  · subst newline
    cases r <;> exact ⟨rfl, rfl⟩
  · have text : Mark.text ⟨c, line, r.enter c⟩ = c := if_neg newline
    have code : r ≠ comment := by
      rintro rfl
      exact shown (if_neg newline)
    have next : r.next c ≠ comment := by
      unfold Region.next
      split
      · simp
      · exact shown
    rw [text, uncommented_of_ne code, uncommented_of_ne next]
    exact ⟨rfl, rfl⟩

/-- The text of a chunk belongs to code and strings as the chunk does. -/
theorem marks_textOf (n : Nat) (r : Region) (cs : List (Char × Nat)) :
    marks r.uncommented ((textOf (marks r cs)).map (·, n)) =
        ((marks r cs).filter Mark.shown).map (fun m => ⟨m.text, n, m.region⟩) ∧
      regionAfter r.uncommented ((textOf (marks r cs)).map (·, n)) =
        (regionAfter r cs).uncommented := by
  induction cs generalizing r with
  | nil => exact ⟨rfl, rfl⟩
  | cons e cs ih =>
      obtain ⟨c, line⟩ := e
      have after : regionAfter r ((c, line) :: cs) = regionAfter (r.next c) cs := rfl
      obtain ⟨marked, opened⟩ := ih (r.next c)
      by_cases hidden : r.enter c = .comment
      case pos =>
        obtain ⟨stays, outside⟩ := Region.next_of_enter hidden
        have skipped : (marks r ((c, line) :: cs)).filter Mark.shown =
            (marks (r.next c) cs).filter Mark.shown :=
          List.filter_cons_of_neg (by simp [Mark.shown, hidden])
        have same : r.uncommented = (r.next c).uncommented := by rw [outside, stays]; rfl
        rw [textOf, skipped, after, same]
        exact ⟨marked, opened⟩
      case neg =>
        obtain ⟨enters, next⟩ := Region.enter_text line hidden
        have kept : (marks r ((c, line) :: cs)).filter Mark.shown =
            ⟨c, line, r.enter c⟩ :: (marks (r.next c) cs).filter Mark.shown :=
          List.filter_cons_of_pos (by simp [Mark.shown, hidden])
        rw [textOf, kept, after]
        simp only [List.map_cons, marks, regionAfter, List.foldl_cons, enters, next]
        exact ⟨congrArg _ marked, opened⟩

/-- Each chunk is cut off where the code goes on. -/
theorem exists_splitOnP_marks (r : Region) (cs : List (Char × Nat)) :
    ∃ segment rest, (marks r cs).splitOnP Mark.separates = marks r segment :: rest ∧
      (∀ m ∈ marks r segment, m.separates = false) ∧
      ∀ chunk ∈ rest,
        ∃ segment, chunk = marks .code segment ∧ ∀ m ∈ chunk, m.separates = false := by
  induction cs generalizing r with
  | nil => exact ⟨[], [], rfl, by simp [marks], by simp⟩
  | cons e cs ih =>
      obtain ⟨c, line⟩ := e
      obtain ⟨segment, rest, cut, inside, later⟩ := ih (r.next c)
      rw [marks, List.splitOnP_cons_eq_if_modifyHead]
      split
      case isTrue separates =>
        have opened : r.next c = .code := by
          simp only [Mark.separates, Bool.and_eq_true, beq_iff_eq] at separates
          obtain ⟨rfl, code⟩ := separates
          exact (if_neg (by simp)).trans code
        rw [cut]
        refine ⟨[], _, rfl, by simp [marks], List.forall_mem_cons.mpr ⟨?_, later⟩⟩
        exact ⟨segment, by rw [opened], inside⟩
      case isFalse other =>
        rw [cut]
        refine ⟨(c, line) :: segment, rest, rfl, ?_, later⟩
        exact List.forall_mem_cons.mpr ⟨Bool.eq_false_iff.mpr other, inside⟩

theorem exists_segment {source : List Char} {chunk : List Mark} (mem : chunk ∈ chunks source) :
    ∃ segment, chunk = marks .code segment ∧ ∀ m ∈ chunk, m.separates = false := by
  obtain ⟨segment, rest, cut, inside, later⟩ := exists_splitOnP_marks .code (characters source)
  rw [chunks, cut] at mem
  rcases List.mem_cons.mp mem with rfl | mem
  · exact ⟨segment, rfl, inside⟩
  · exact later chunk mem

theorem newline_not_mem_textOf (chunk : List Mark) : '\n' ∉ textOf chunk := by
  intro mem
  obtain ⟨m, -, newline⟩ := List.mem_map.mp mem
  unfold Mark.text at newline
  split at newline
  · cases newline
  · next other => exact other newline

/-- On one line a text without comments is shown as it stands. -/
theorem textOf_marks {n : Nat} {r : Region} {body : List Char}
    (shown : ∀ m ∈ marks r (body.map (·, n)), m.shown = true) (oneLine : '\n' ∉ body) :
    textOf (marks r (body.map (·, n))) = body := by
  induction body generalizing r with
  | nil => rfl
  | cons c body ih =>
      rw [List.mem_cons, not_or] at oneLine
      obtain ⟨here, later⟩ := List.forall_mem_cons.mp shown
      have text : Mark.text ⟨c, n, r.enter c⟩ = c := if_neg (Ne.symm oneLine.1)
      have front : textOf [⟨c, n, r.enter c⟩] = [c] := by rw [textOf_singleton, if_pos here, text]
      exact (textOf_append [_] _).trans (congr (congrArg _ front) (ih later oneLine.2))

/-- A text that is one statement as it stands, if a semicolon follows. -/
structure Plain (body : List Char) : Prop where
  inside : ∀ m ∈ marks .code (body.map (·, 1)), m.shown = true ∧ m.separates = false
  closed : regionAfter .code (body.map (·, 1)) = .code
  begins : ∃ c ∈ body, unquoted c = true
  oneLine : '\n' ∉ body

theorem inside_textOf {segment : List (Char × Nat)}
    (inside : ∀ m ∈ marks .code segment, m.separates = false) :
    ∀ m ∈ marks .code ((textOf (marks .code segment)).map (·, 1)),
      m.shown = true ∧ m.separates = false := by
  intro m mem
  have marked : marks .code ((textOf (marks .code segment)).map (·, 1)) = _ :=
    (marks_textOf 1 .code segment).1
  rw [marked] at mem
  obtain ⟨m, listed, rfl⟩ := List.mem_map.mp mem
  obtain ⟨listed, shown⟩ := List.mem_filter.mp listed
  refine ⟨shown, ?_⟩
  have here := inside m listed
  simp only [Mark.separates, Bool.and_eq_false_iff, beq_eq_false_iff_ne] at here ⊢
  exact here.imp_left fun other => other ∘ (Mark.text_eq_iff rfl).mp

/-- Quotes that come in pairs leave no string open. -/
theorem closed_textOf {segment : List (Char × Nat)}
    (inside : ∀ m ∈ marks .code segment, m.separates = false)
    (even : Even ((textOf (marks .code segment)).count '"')) :
    regionAfter .code ((textOf (marks .code segment)).map (·, 1)) = .code := by
  have whole :=
    textOf_marks (fun m mem => (inside_textOf inside m mem).1) (newline_not_mem_textOf _)
  have paired := even_quotes_marks .code ((textOf (marks .code segment)).map (·, 1))
  rw [whole] at paired
  have noString := (paired.mp even).not.mp (by simp)
  have opened : regionAfter .code ((textOf (marks .code segment)).map (·, 1)) = _ :=
    (marks_textOf 1 .code segment).2
  rw [opened] at noString ⊢
  cases after : regionAfter .code segment with
  | string => exact absurd (congrArg Region.uncommented after) noString
  | code | comment => rfl

theorem begins_textOf {chunk : List Mark} {n : Nat} (first : lineOf unquoted chunk = some n) :
    ∃ c ∈ textOf chunk, unquoted c = true := by
  obtain ⟨m, found, -⟩ := Option.map_eq_some_iff.mp first
  have opens := List.find?_some found
  have other : m.char ≠ '\n' := by
    intro newline
    rw [newline] at opens
    cases opens
  have text : m.text = m.char := if_neg other
  exact ⟨m.char, List.mem_map.mpr ⟨m, List.mem_of_find?_eq_some found, text⟩, opens⟩

theorem plain_of_mem_statements {source : List Char} {e : Nat × List Char}
    (mem : e ∈ statements source) (even : Even (e.2.count '"')) : Plain e.2 := by
  rw [statements_eq] at mem
  obtain ⟨chunk, listed, said⟩ := List.mem_filterMap.mp mem
  obtain ⟨n, first, rfl⟩ := Option.map_eq_some_iff.mp said
  obtain ⟨segment, rfl, inside⟩ := exists_segment listed
  exact ⟨inside_textOf inside, closed_textOf inside even, begins_textOf first,
    newline_not_mem_textOf _⟩

/-! ### Statements one after the other -/

/-- The texts, each with a semicolon behind it. -/
def joined (bodies : List (List Char)) : List Char := bodies.flatMap (· ++ [';'])

theorem line_of_mem_marks {n : Nat} {r : Region} {body : List Char} :
    ∀ m ∈ marks r (body.map (·, n)), m.line = n := by
  induction body generalizing r with
  | nil => simp [marks]
  | cons c body ih => exact List.forall_mem_cons.mpr ⟨rfl, ih⟩

theorem exists_mark_of_mem {n : Nat} {r : Region} {body : List Char} {c : Char} (mem : c ∈ body) :
    ∃ m ∈ marks r (body.map (·, n)), m.char = c := by
  induction body generalizing r with
  | nil => cases mem
  | cons b body ih =>
      rcases List.mem_cons.mp mem with rfl | mem
      · exact ⟨_, List.mem_cons_self, rfl⟩
      · obtain ⟨m, listed, char⟩ := ih (r := r.next b) mem
        exact ⟨m, List.mem_cons_of_mem _ listed, char⟩

theorem Plain.statementFrom_marks {body : List Char} (plain : Plain body) :
    statementFrom unquoted (marks .code (body.map (·, 1))) = some (1, body) := by
  have shown : ∀ m ∈ marks .code (body.map (·, 1)), m.shown = true := fun m mem =>
    (plain.inside m mem).1
  obtain ⟨c, mem, opens⟩ := plain.begins
  obtain ⟨m, listed, rfl⟩ := exists_mark_of_mem (n := 1) (r := .code) mem
  have found : ((marks .code (body.map (·, 1))).find? (unquoted ·.char)).isSome :=
    List.find?_isSome.mpr ⟨m, listed, opens⟩
  obtain ⟨first, found⟩ := Option.isSome_iff_exists.mp found
  have line : first.line = 1 := line_of_mem_marks first (List.mem_of_find?_eq_some found)
  rw [statementFrom, textOf_marks shown plain.oneLine, lineOf, List.filter_eq_self.mpr shown, found,
    Option.map_some, line, Option.map_some]

/-- The semicolons that are put in cut the texts apart, and no other ones do. -/
theorem splitOnP_marks_joined {bodies : List (List Char)} (plain : ∀ body ∈ bodies, Plain body) :
    (marks .code ((joined bodies ++ ['\n']).map (·, 1))).splitOnP Mark.separates =
      bodies.map (fun body => marks .code (body.map (·, 1))) ++ [[⟨'\n', 1, .code⟩]] := by
  induction bodies with
  | nil => rfl
  | cons body bodies ih =>
      obtain ⟨here, later⟩ := List.forall_mem_cons.mp plain
      have cut : marks .code ((joined (body :: bodies) ++ ['\n']).map (·, 1)) =
          marks .code (body.map (·, 1)) ++
            ⟨';', 1, .code⟩ :: marks .code ((joined bodies ++ ['\n']).map (·, 1)) := by
        simp only [joined, List.flatMap_cons, List.append_assoc, List.map_append, marks_append,
          here.closed]
        rfl
      have inside : ∀ m ∈ marks .code (body.map (·, 1)), m.separates = false := fun m mem =>
        (here.inside m mem).2
      rw [cut, List.splitOnP_append_cons_of_forall_mem inside _ rfl, ih later]
      rfl

theorem characters_of_oneLine {cs : List Char} (oneLine : '\n' ∉ cs) (nonempty : cs ≠ []) :
    characters cs = (cs ++ ['\n']).map (·, 1) := by
  obtain ⟨c, rest, rfl⟩ := List.exists_cons_of_ne_nil nonempty
  have lines : Text.lines (c :: rest) = [c :: rest] := by
    rw [Text.lines, List.splitOn_eq_singleton oneLine]
    rfl
  rw [characters, lines]
  simp

/-- Texts that are statements are cut apart again where they have been put together. -/
theorem statements_joined {bodies : List (List Char)} (plain : ∀ body ∈ bodies, Plain body) :
    statements (joined bodies) = bodies.map (1, ·) := by
  have oneLine : '\n' ∉ joined bodies := by
    intro mem
    obtain ⟨body, listed, mem⟩ := List.mem_flatMap.mp mem
    rcases List.mem_append.mp mem with mem | mem
    · exact (plain body listed).oneLine mem
    · simp at mem
  by_cases empty : bodies = []
  case pos =>
    subst empty
    rfl
  case neg =>
    have nonempty : joined bodies ≠ [] := by
      obtain ⟨body, rest, rfl⟩ := List.exists_cons_of_ne_nil empty
      simp [joined]
    have last : statementFrom unquoted [⟨'\n', 1, .code⟩] = none := rfl
    have each : (bodies.map fun body => marks .code (body.map (·, 1))).filterMap
        (statementFrom unquoted) = bodies.map (1, ·) := by
      rw [List.filterMap_map, ← List.filterMap_eq_map (f := (1, ·))]
      exact List.filterMap_congr fun body mem => (plain body mem).statementFrom_marks
    rw [statements_eq, chunks, characters_of_oneLine oneLine nonempty, splitOnP_marks_joined plain,
      List.filterMap_append, each]
    simp [last]

end HardwareLinker.Constraint
