import HardwareLinker.Proofs.Text.Split

/-!
Texts put together from lines and lines from words, and what the readers of lines and words make of
them.
-/

namespace HardwareLinker.Text

/-! ### Words -/

/-- A word: some characters, none of them blank. -/
structure Solid (w : List Char) : Prop where
  some : w ≠ []
  unbroken : ∀ c ∈ w, isBlank c = false

theorem solid_iff {w : List Char} : Solid w ↔ (! w.isEmpty && w.all (! isBlank ·)) = true := by
  rw [Bool.and_eq_true, List.all_eq_true, Bool.not_eq_true', List.isEmpty_eq_false_iff]
  constructor
  · exact fun solid => ⟨solid.some, fun c at_c => by rw [solid.unbroken c at_c]; rfl⟩
  · exact fun both => ⟨both.1, fun c at_c => Bool.not_inj (both.2 c at_c)⟩

instance (w : List Char) : Decidable (Solid w) := decidable_of_iff _ solid_iff.symm

/-- Words with runs of blanks before, between and after them. -/
inductive Spaced : List Char → List (List Char) → Prop where
  | none {gap : List Char} (blank : ∀ c ∈ gap, isBlank c = true) : Spaced gap []
  | word (gap : List Char) {w rest : List Char} {ws : List (List Char)}
      (blank : ∀ c ∈ gap, isBlank c = true)
      (solid : Solid w) (apart : ∀ c ∈ rest.head?, isBlank c = true) (more : Spaced rest ws) :
      Spaced (gap ++ (w ++ rest)) (w :: ws)

theorem words_eq (cs : List Char) : words cs = match trimStart cs with
    | [] => []
    | c :: rest => (c :: rest.takeWhile (! isBlank ·)) :: words (rest.dropWhile (! isBlank ·)) := by
  rw [words]
  split
  · next none => rw [none]
  · next some => simp only [some]

theorem words_of_spaced {cs : List Char} {ws : List (List Char)} (spaced : Spaced cs ws) :
    words cs = ws := by
  induction spaced with
  | none blank =>
      rw [words_eq, trimStart, List.dropWhile_eq_nil_iff.mpr blank]
  | @word gap w rest ws blank solid apart more ih =>
      obtain ⟨first, others, rfl⟩ := List.exists_cons_of_ne_nil solid.some
      obtain ⟨solid_first, solid⟩ := List.forall_mem_cons.mp solid.unbroken
      have start : trimStart (gap ++ (first :: others ++ rest)) = first :: (others ++ rest) := by
        rw [trimStart, List.dropWhile_append_of_pos blank, List.cons_append,
          List.dropWhile_cons_of_neg (by simp [solid_first])]
      have inside : ∀ c ∈ others, (! isBlank c) = true := fun c at_c => by rw [solid c at_c]; rfl
      have stop : rest.takeWhile (! isBlank ·) = [] ∧ rest.dropWhile (! isBlank ·) = rest := by
        cases rest with
        | nil => exact ⟨rfl, rfl⟩
        | cons c rest => simp [apart c rfl]
      rw [words_eq, start]
      simp only
      rw [List.takeWhile_append_of_pos inside, List.dropWhile_append_of_pos inside, stop.1,
        stop.2, ih, List.append_nil]

/-- Words, each behind one space. -/
def spread (ws : List (List Char)) : List Char := ws.flatMap (' ' :: ·)

theorem spread_append (ws ws' : List (List Char)) : spread (ws ++ ws') = spread ws ++ spread ws' :=
  List.flatMap_append

theorem spaced_spread {ws : List (List Char)} (solid : ∀ w ∈ ws, Solid w) :
    Spaced (spread ws) ws := by
  induction ws with
  | nil => exact .none fun c at_c => absurd at_c List.not_mem_nil
  | cons w ws ih =>
      obtain ⟨here, later⟩ := List.forall_mem_cons.mp solid
      refine .word [' '] (fun c at_c => ?_) here ?_ (ih later)
      · rw [List.mem_singleton.mp at_c]
        rfl
      · cases ws with
        | nil => exact fun c at_c => nomatch at_c
        | cons next ws =>
            intro c at_c
            cases at_c
            rfl

/-! ### Lines -/

/-- A line holds no line feed and does not end in a carriage return. -/
structure OneLine (line : List Char) : Prop where
  feed : '\n' ∉ line
  unreturned : line.getLast? ≠ some '\r'

instance (line : List Char) : Decidable (OneLine line) :=
  decidable_of_iff ('\n' ∉ line ∧ line.getLast? ≠ some '\r')
    ⟨fun h => ⟨h.1, h.2⟩, fun h => ⟨h.feed, h.unreturned⟩⟩

/-- A line whose only blanks are spaces. -/
theorem oneLine_of_spaces {line : List Char} (only : ∀ c ∈ line, c = ' ' ∨ isBlank c = false) :
    OneLine line where
  feed at_line := absurd (only '\n' at_line) (by decide)
  unreturned at_end := absurd (only '\r' (List.mem_of_getLast? at_end)) (by decide)

theorem spaces_of_mem_spread {ws : List (List Char)} (solid : ∀ w ∈ ws, Solid w) {c : Char}
    (at_c : c ∈ spread ws) : c = ' ' ∨ isBlank c = false := by
  obtain ⟨w, at_w, at_c⟩ := List.mem_flatMap.mp at_c
  exact (List.mem_cons.mp at_c).imp_right ((solid w at_w).unbroken c)

/-- The lines of a text, each with a line feed after it. -/
def unlines (ls : List (List Char)) : List Char := ls.flatMap (· ++ ['\n'])

theorem dropReturn_of_oneLine {line : List Char} (one : OneLine line) : dropReturn line = line := by
  rw [dropReturn]
  split
  · next rest returned =>
    have last : line.getLast? = some '\r' := by
      rw [← List.head?_reverse, returned]
      rfl
    exact absurd last one.unreturned
  · rfl

theorem unlines_eq (ls : List (List Char)) : unlines ls = ['\n'].intercalate (ls ++ [[]]) := by
  induction ls with
  | nil => rfl
  | cons line rest ih =>
      rw [List.cons_append, List.intercalate_cons_of_ne_nil
        (List.append_ne_nil_of_right_ne_nil _ (by simp)), ← ih]
      rfl

theorem lines_unlines {ls : List (List Char)} (one : ∀ line ∈ ls, OneLine line) :
    lines (unlines ls) = ls := by
  have chunks : (unlines ls).splitOn '\n' = ls ++ [[]] := by
    refine splitOn_eq_iff.mpr ⟨unlines_eq ls, List.append_ne_nil_of_right_ne_nil _ (by simp), ?_⟩
    intro field at_field
    cases List.mem_append.mp at_field with
    | inl line => exact (one field line).feed
    | inr last => rw [List.mem_singleton.mp last]; exact List.not_mem_nil
  have kept : ls.map dropReturn = ls :=
    (List.map_congr_left fun line at_line => dropReturn_of_oneLine (one line at_line)).trans
      (List.map_id ls)
  rw [lines, chunks]
  simp [kept]

end HardwareLinker.Text
