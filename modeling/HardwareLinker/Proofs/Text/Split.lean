import Mathlib.Data.List.DropRight
import Mathlib.Data.List.Infix
import HardwareLinker.Text.Blank
import HardwareLinker.Text.Lines

/-!
What the cuts of a text give, told without their recursions: where a separator or a mark first
stands, the fields between separators, and a text without the blanks at its end.
-/

namespace HardwareLinker.Text

theorem splitOnce_eq_some {sep : Char} {cs before after : List Char} :
    splitOnce sep cs = some (before, after) ↔ cs = before ++ sep :: after ∧ sep ∉ before := by
  induction cs generalizing before with
  | nil => simp [splitOnce]
  | cons c cs ih =>
      unfold splitOnce
      cases before with
      | nil =>
          by_cases hc : c = sep
          · simp [hc]
          · simp [hc, Option.map_eq_some_iff]
      | cons b before =>
          by_cases hc : c = sep
          · simp only [beq_iff_eq, hc, if_true, Option.some.injEq, Prod.mk.injEq, List.nil_eq,
              reduceCtorEq, false_and, List.cons_append, List.cons.injEq, List.mem_cons, false_iff]
            rintro ⟨⟨rfl, -⟩, fresh⟩
            exact fresh (.inl rfl)
          · simp only [beq_iff_eq, hc, if_false, Option.map_eq_some_iff, Prod.mk.injEq,
              List.cons.injEq, Prod.exists, List.cons_append, List.mem_cons, not_or]
            constructor
            · rintro ⟨front, back, found, ⟨rfl, rfl⟩, rfl⟩
              obtain ⟨rfl, fresh⟩ := ih.mp found
              exact ⟨⟨rfl, rfl⟩, Ne.symm hc, fresh⟩
            · rintro ⟨⟨rfl, rfl⟩, -, fresh⟩
              exact ⟨before, after, ih.mpr ⟨rfl, fresh⟩, ⟨rfl, rfl⟩, rfl⟩

/-! ### The first occurrence of a mark -/

/-- The mark stands in the text with `before` in front of it, and nowhere earlier. -/
structure FirstMark (mark before after cs : List Char) : Prop where
  stands : cs = before ++ mark ++ after
  first : ∀ front, front ++ mark <+: cs → before.length ≤ front.length

theorem after?_eq_none {mark cs : List Char} : after? mark cs = none ↔ ¬ mark <:+: cs := by
  induction cs with
  | nil => cases mark <;> simp [after?]
  | cons c cs ih =>
      unfold after?
      split
      case isTrue h => simpa using (List.isPrefixOf_iff_prefix.mp h).isInfix
      case isFalse h =>
        rw [List.isPrefixOf_iff_prefix] at h
        rw [ih, List.infix_cons_iff, not_or]
        exact ⟨fun later => ⟨h, later⟩, And.right⟩

/-- A mark at the very start of a text is the first one. -/
theorem firstMark_nil (mark after : List Char) : FirstMark mark [] after (mark ++ after) where
  stands := rfl
  first := by simp

theorem exists_firstMark_iff {mark cs after : List Char} (h : mark <+: cs) :
    (∃ before, FirstMark mark before after cs) ↔ cs = mark ++ after := by
  constructor
  · rintro ⟨before, stands, first⟩
    obtain rfl : before = [] := by simpa using first [] h
    simpa using stands
  · rintro rfl
    exact ⟨[], firstMark_nil ..⟩

/-- Where the mark is not at the start, the first one is that of the rest. -/
theorem exists_firstMark_cons {c : Char} {mark cs after : List Char} (h : ¬ mark <+: c :: cs) :
    (∃ before, FirstMark mark before after (c :: cs)) ↔
      ∃ before, FirstMark mark before after cs := by
  constructor
  · rintro ⟨before, stands, first⟩
    cases before with
    | nil => exact absurd ⟨after, by simp [stands]⟩ h
    | cons b before =>
        obtain ⟨rfl, rfl⟩ : c = b ∧ cs = before ++ mark ++ after := by simpa using stands
        refine ⟨before, rfl, fun front hfront => ?_⟩
        have later := first (c :: front) (List.cons_prefix_cons.mpr ⟨rfl, hfront⟩)
        simpa using later
  · rintro ⟨before, stands, first⟩
    refine ⟨c :: before, by simp [stands], fun front hfront => ?_⟩
    cases front with
    | nil => exact absurd hfront h
    | cons f front =>
        have later := first front (List.cons_prefix_cons.mp hfront).2
        simpa using later

theorem after?_eq_some {mark cs after : List Char} :
    after? mark cs = some after ↔ ∃ before, FirstMark mark before after cs := by
  induction cs with
  | nil =>
      cases mark with
      | nil =>
          rw [exists_firstMark_iff List.nil_prefix]
          simp [after?]
      | cons m mark =>
          constructor
          · simp [after?]
          · rintro ⟨before, stands, -⟩
            simp at stands
  | cons c cs ih =>
      unfold after?
      split
      case isTrue h =>
        rw [List.isPrefixOf_iff_prefix] at h
        rw [exists_firstMark_iff h]
        obtain ⟨rest, hrest⟩ := h
        rw [← hrest, List.drop_left, Option.some.injEq, List.append_cancel_left_eq]
      case isFalse h =>
        rw [List.isPrefixOf_iff_prefix] at h
        rw [ih, exists_firstMark_cons h]

/-! ### Blanks at the end -/

theorem trimEnd_eq_iff {cs text : List Char} :
    trimEnd cs = text ↔
      (∃ blanks, cs = text ++ blanks ∧ ∀ c ∈ blanks, isBlank c = true) ∧
        ∀ c ∈ text.getLast?, isBlank c = false := by
  change cs.rdropWhile isBlank = text ↔ _
  constructor
  · rintro rfl
    refine ⟨⟨cs.rtakeWhile isBlank, (List.rdropWhile_append_rtakeWhile ..).symm,
      fun c => List.mem_rtakeWhile_imp⟩, fun c hc => ?_⟩
    obtain ⟨nonempty, rfl⟩ := List.mem_getLast?_eq_getLast hc
    simpa using List.rdropWhile_last_not isBlank cs nonempty
  · rintro ⟨⟨blanks, rfl, blank⟩, last⟩
    induction blanks using List.reverseRecOn with
    | nil =>
        rw [List.append_nil, List.rdropWhile_eq_self_iff]
        intro nonempty
        simpa using last _ (List.getLast_mem_getLast? nonempty)
    | append_singleton blanks c ih =>
        rw [← List.append_assoc, List.rdropWhile_concat_pos _ _ _ (blank c (by simp))]
        exact ih fun b hb => blank b (by simp [hb])

/-! ### Fields between separators -/

theorem not_mem_of_mem_splitOn {sep : Char} {cs field : List Char} (h : field ∈ cs.splitOn sep) :
    sep ∉ field := by
  induction cs generalizing field with
  | nil => simp_all
  | cons c cs ih =>
      rw [List.splitOn_cons_eq_if_modifyHead] at h
      split at h
      case isTrue hc =>
        rcases List.mem_cons.mp h with rfl | h
        · simp
        · exact ih h
      case isFalse hc =>
        cases hs : cs.splitOn sep with
        | nil => simp [hs] at h
        | cons first rest =>
            rw [hs, List.modifyHead_cons, List.mem_cons] at h
            rcases h with rfl | h
            · have fresh : sep ∉ first := ih (by simp [hs])
              rw [List.mem_cons, not_or]
              exact ⟨fun he => hc (by simp [he]), fresh⟩
            · exact ih (by simp [hs, h])

theorem dropReturn_sublist (line : List Char) : (dropReturn line).Sublist line := by
  unfold dropReturn
  split
  · next rest reversed =>
    rw [← List.reverse_sublist, reversed, List.reverse_reverse]
    exact List.sublist_cons_self ..
  · exact List.Sublist.refl _

theorem not_mem_of_mem_lines {cs line : List Char} (h : line ∈ lines cs) : '\n' ∉ line := by
  have terminated (h : line ∈ (cs.splitOn '\n').dropLast.map dropReturn) : '\n' ∉ line := by
    obtain ⟨field, mem, rfl⟩ := List.mem_map.mp h
    have fresh : '\n' ∉ field := not_mem_of_mem_splitOn (List.mem_of_mem_dropLast mem)
    exact fun stands => fresh ((dropReturn_sublist field).subset stands)
  simp only [lines] at h
  split at h
  · exact terminated h
  · exact terminated h
  · next last _ found =>
    rcases List.mem_append.mp h with h | h
    · exact terminated h
    · obtain rfl := List.mem_singleton.mp h
      exact not_mem_of_mem_splitOn (List.mem_of_getLast? found)

/-- A text falls into exactly the fields that give it when they are joined. -/
theorem splitOn_eq_iff {sep : Char} {cs : List Char} {fields : List (List Char)} :
    cs.splitOn sep = fields ↔
      cs = [sep].intercalate fields ∧ fields ≠ [] ∧ ∀ field ∈ fields, sep ∉ field := by
  constructor
  · rintro rfl
    exact ⟨(List.intercalate_splitOn sep).symm, List.splitOn_ne_nil sep cs,
      fun _ => not_mem_of_mem_splitOn⟩
  · rintro ⟨rfl, nonempty, free⟩
    exact List.splitOn_intercalate sep free nonempty

end HardwareLinker.Text
