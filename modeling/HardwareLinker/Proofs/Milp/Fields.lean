import HardwareLinker.Milp.LpText
import HardwareLinker.Milp.SolutionText
import HardwareLinker.Proofs.Decimal.Text

/-!
Lines of fields, as the texts for the external solvers and the answers of these solvers have them:
what the readers take a line apart into, and the numbers among the fields.
-/

namespace HardwareLinker.Milp

theorem fieldsOf_eq {line : List Char} {fields : List String}
    (spaced : Text.Spaced line (fields.map String.toList)) : fieldsOf line = fields := by
  rw [fieldsOf, Text.words_of_spaced spaced, List.map_map]
  exact (List.map_congr_left fun field _ => String.ofList_toList).trans (List.map_id fields)

/-- A line with the given fields, however they are spaced. -/
structure Holds (line : List Char) (fields : List String) : Prop where
  one : Text.OneLine line
  spaced : Text.Spaced line (fields.map String.toList)

theorem holds_spread (fields : List String) (solid : ∀ field ∈ fields, Text.Solid field.toList) :
    Holds (Text.spread (fields.map String.toList)) fields := by
  have words : ∀ w ∈ fields.map String.toList, Text.Solid w := by
    intro w at_w
    obtain ⟨field, at_field, rfl⟩ := List.mem_map.mp at_w
    exact solid field at_field
  exact ⟨Text.oneLine_of_spaces fun c => Text.spaces_of_mem_spread words, Text.spaced_spread words⟩

/-! ### Numbers -/

/-- Equal numbers; the two zeros are one number. -/
def SameNumber (x y : Binary64) : Prop := x = y ∨ x.isZero = true ∧ y.isZero = true

theorem SameNumber.via {x y z : Binary64} (left : SameNumber x z) (right : SameNumber y z) :
    SameNumber x y := by
  cases left with
  | inl same =>
      subst same
      cases right with
      | inl same => exact .inl same.symm
      | inr zeros => exact .inr ⟨zeros.2, zeros.1⟩
  | inr zeros =>
      cases right with
      | inl same => exact .inr ⟨zeros.1, same ▸ zeros.2⟩
      | inr zeros' => exact .inr ⟨zeros.1, zeros'.1⟩

theorem readValue?_text {x : Binary64} (number : x.isNaN = false) :
    readValue? (Scalar.text x) = some x := by
  rw [← Decimal.ofString?_text number, readValue?]
  exact Option.map_eq_bind.symm

/-- No number is written like a word that is no number. -/
theorem text_ne {x : Binary64} (number : x.isNaN = false) (word : String)
    (unread : readValue? (α := Binary64) word = none) : Scalar.text x ≠ word := by
  intro same
  exact absurd (readValue?_text number) (by rw [same, unread]; exact nofun)

/-! ### Names -/

theorem nameOf_eq {m : Model Binary64} {v : Nat} (within : v < m.vars.size) :
    m.nameOf v = m.vars[v].name := by
  rw [Model.nameOf, Array.getElem?_eq_getElem within]
  rfl

end HardwareLinker.Milp
