import HardwareLinker.Proofs.Floorplan.Elaboration

/-!
Where the size of a group comes from. A file gives a size by a statement or by two corners, and only
the corners are compared; a group without a size gets sizes to choose from, all of them computed
from a positive area.
-/

namespace HardwareLinker

variable {α : Type} [Scalar α]

namespace Constraint

/-- The sizes that a file gives a group: none, that of a statement, or that between two corners. -/
inductive Gives (source : String) (name : String) : Dimension α → Prop where
  | unset : Gives source name .unset
  | stated {s : Size α} (states : States source (.size name s)) : Gives source name (.fixed s)
  | between (p q : Corner α) (right : ¬ q.x ≤ p.x) (above : ¬ q.y ≤ p.y) :
      Gives source name (.fixed ⟨q.x - p.x, q.y - p.y⟩)

theorem gives_ofText {source : String} {set : ConstraintSet α}
    (read : ConstraintSet.ofText source = .ok set) :
    set.groups.Each fun name g => Gives source name g.dimension :=
  each_ofText (fun _ _ _ _ same gives => same ▸ gives) (fun _ _ => .unset)
    (fun _ _ _ states _ => .stated states)
    (fun _ p q right above _ _ => .between p q right above) read

end Constraint

namespace Floorplan

theorem mem_aspectOptions {area : α} {ratios : List α} {s : Size α}
    (mem : s ∈ aspectOptions area ratios) :
    ¬ area ≤ 0 ∧ ∃ ratio ∈ ratios, s = aspectOption area ratio := by
  unfold aspectOptions at mem
  split at mem
  · cases mem
  next positive =>
  refine ⟨positive, ?_⟩
  revert mem
  refine List.foldlRecOn (motive := fun sizes => s ∈ sizes → _) ratios _ (by simp) ?_
  intro sizes before ratio hratio
  dsimp only
  split
  · exact before
  · intro mem
    rcases List.mem_append.mp mem with mem | mem
    · exact before mem
    · exact ⟨ratio, hratio, List.mem_singleton.mp mem⟩

/-- The group has the size and the centre of the declared group of its name, if the file gives that
one a size; else it may have sizes to choose from, which follow from its area. -/
inductive SizedFrom (declared : NameMap (AreaGroup α)) (ratios : List α) (name : String)
    (g : AreaGroup α) : Prop where
  | fixed (g₀ : AreaGroup α) (s : Size α) (found : declared.find? name = some g₀)
      (size₀ : g₀.dimension = .fixed s) (size : g.dimension = .fixed s) (x : g.x = g₀.x)
      (y : g.y = g₀.y)
  | unset (none : g.dimension = .unset)
  | offered (sizes : g.dimension = .options (aspectOptions g.area ratios))

theorem SizedFrom.mem_aspectOptions {declared : NameMap (AreaGroup α)} {ratios : List α}
    {name : String} {g : AreaGroup α} {s : Size α} (sized : SizedFrom declared ratios name g)
    (unsized : ∀ s, g.dimension ≠ .fixed s) (mem : s ∈ g.dimension.choices) :
    s ∈ aspectOptions g.area ratios := by
  cases sized with
  | fixed g₀ s found size₀ size => exact absurd size (unsized s)
  | unset none =>
      rw [none] at mem
      cases mem
  | offered sizes => rwa [sizes] at mem

variable {source : String} {set : ConstraintSet α} {areas : NameMap α}
  {settings : PlacementSettings α} {p : Floorplan α}

theorem elaborate_sizes (read : ConstraintSet.ofText source = .ok set)
    (elaborated : elaborate set areas settings = .ok p) :
    p.groups.Each (SizedFrom set.groups settings.aspectRatios) := by
  -- up to the last pass no group has sizes to choose from
  let Early (name : String) (g : AreaGroup α) : Prop := g.dimension = .unset ∨
    ∃ g₀, set.groups.find? name = some g₀ ∧ g.dimension = g₀.dimension ∧ g.x = g₀.x ∧ g.y = g₀.y
  have tabled : (withTableGroups set.groups areas).Each Early := by
    unfold withTableGroups
    refine List.foldlRecOn (motive := fun groups : NameMap (AreaGroup α) => groups.Each Early)
      areas.entries _ (fun name g found => .inr ⟨g, found, rfl, rfl, rfl⟩) ?_
    intro groups each entry _
    dsimp only
    split
    · exact each
    · exact each.insert (.inl rfl)
  have sized (name : String) (g : AreaGroup α) (early : Early name g) :
      SizedFrom set.groups settings.aspectRatios name g := by
    rcases early with unset | ⟨g₀, found, size, x, y⟩
    · exact .unset unset
    · have gives : Constraint.Gives source name g₀.dimension :=
        Constraint.gives_ofText read name g₀ found
      cases declared : g₀.dimension with
      | unset => exact .unset (size.trans declared)
      | fixed s => exact .fixed g₀ s found declared (size.trans declared) x y
      | options sizes =>
          rw [declared] at gives
          cases gives
  unfold elaborate at elaborated
  split at elaborated
  · cases elaborated
  cases elaborated
  refine ((tabled.mapValues (Q := Early) ?_).mapValues (Q := Early) ?_).mapValues ?_
  · intro name g early
    unfold assignArea
    split
    · exact early
    · split <;> exact early
  · intro name g early
    unfold sumChildren
    split <;> exact early
  · intro name g early
    unfold offerSizes
    split
    · next sizes => exact .offered (congrArg Dimension.options sizes.symm)
    · exact sized name g early

end Floorplan
end HardwareLinker
