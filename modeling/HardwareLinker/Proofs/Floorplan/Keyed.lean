import HardwareLinker.Floorplan.Basic
import HardwareLinker.Proofs.NameMap

/-!
Groups bound to their own names. Constraint files declare them so, and elaboration, rules and
batches change groups without renaming them.
-/

namespace HardwareLinker

variable {α : Type}

/-- Every group is bound to its own name. -/
def AreaGroup.Keyed (groups : NameMap (AreaGroup α)) : Prop := ∀ e ∈ groups.entries, e.2.name = e.1

/-- Every group of the plan is bound to its own name. -/
def Floorplan.Keyed (p : Floorplan α) : Prop := AreaGroup.Keyed p.groups

instance (p : Floorplan α) : Decidable p.Keyed :=
  inferInstanceAs (Decidable (∀ e ∈ p.groups.entries, e.2.name = e.1))

namespace AreaGroup

variable {groups : NameMap (AreaGroup α)} {name : String} {g : AreaGroup α}

theorem Keyed.empty : Keyed (.empty : NameMap (AreaGroup α)) := by
  intro e he
  cases he

theorem Keyed.insert (keyed : Keyed groups) (hg : g.name = name) :
    Keyed (groups.insert name g) := by
  intro e he
  rcases NameMap.mem_insert.mp he with rfl | ⟨he, -⟩
  · exact hg
  · exact keyed e he

theorem Keyed.mapValues (keyed : Keyed groups) {f : String → AreaGroup α → AreaGroup α}
    (hf : ∀ k g, (f k g).name = g.name) : Keyed (groups.mapValues f) := by
  rintro ⟨k, h⟩ he
  obtain ⟨g, hg, rfl⟩ := NameMap.mem_mapValues.mp he
  exact (hf k g).trans (keyed _ hg)

theorem Keyed.modify (keyed : Keyed groups) {f : AreaGroup α → AreaGroup α}
    (hf : ∀ g, (f g).name = g.name) : Keyed (groups.modify name f) := by
  refine keyed.mapValues fun k g => ?_
  split
  · exact hf g
  · rfl

theorem Keyed.name_eq (keyed : Keyed groups) (found : groups.find? name = some g) : g.name = name :=
  keyed _ (NameMap.find?_eq_some.mp found)

end AreaGroup

namespace Floorplan.Keyed

variable {p : Floorplan α} {g : AreaGroup α}

theorem find? (keyed : p.Keyed) (hg : g ∈ p.groups.values) : p.groups.find? g.name = some g := by
  obtain ⟨name, mem⟩ := NameMap.mem_values.mp hg
  rw [show g.name = name from keyed _ mem]
  exact NameMap.find?_eq_some.mpr mem

theorem values_name (keyed : p.Keyed) : p.groups.values.map (·.name) = p.groups.keys := by
  rw [NameMap.values, NameMap.keys, List.map_map]
  exact List.map_congr_left keyed

end Floorplan.Keyed
end HardwareLinker
