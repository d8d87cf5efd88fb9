import HardwareLinker.Floorplan.Elaboration
import HardwareLinker.Proofs.Except
import HardwareLinker.Proofs.Floorplan.Keyed

/-!
From a constraint file to a plan. The file declares every group under its own name, and elaboration
keeps what the file fixes: only areas change, and the sizes of groups without a size.
-/

namespace HardwareLinker

variable {α : Type} [Scalar α]

/-! ### Constraint files -/

namespace Constraint

/-- The file holds the statement. -/
def States (source : String) (s : Statement α) : Prop :=
  ∃ e ∈ statements source.toList, Statement.ofList e.2 = .ok s

/-- The property depends on the name and the size of a group alone. -/
def OfNameAndSize (P : String → AreaGroup α → Prop) : Prop :=
  ∀ name g g', g'.name = g.name → g'.dimension = g.dimension → P name g → P name g'

namespace Draft

variable {d d' : Draft α} {name : String} {line : Nat} {P : String → AreaGroup α → Prop}

theorem onLine_eq_ok {β : Type} {x : Except StatementFault β} {b : β} :
    onLine line x = .ok b ↔ x = .ok b := by
  cases x <;> simp [onLine]

omit [Scalar α] in
theorem each_update (each : d.declared.groups.Each P) {f : AreaGroup α → AreaGroup α}
    (run : d.update name f = .ok d') (hf : ∀ g, P name g → P name (f g)) :
    d'.declared.groups.Each P := by
  unfold update at run
  split at run
  · cases run
    exact each.modify hf
  · cases run

omit [Scalar α] in
theorem each_nest (stable : OfNameAndSize P) (each : d.declared.groups.Each P)
    {child parent : String} (run : d.nest line child parent = .ok d') :
    d'.declared.groups.Each P := by
  unfold nest at run
  dsimp only at run
  repeat' split at run
  all_goals cases run
  refine NameMap.Each.modify (each.modify fun g => ?_) fun g => ?_ <;> exact stable _ _ _ rfl rfl

theorem each_apply {s : Statement α} (stable : OfNameAndSize P)
    (fresh : ∀ name path, P name { name, sourcePath := path, area := 0 })
    (sized : ∀ name size g, s = .size name size → P name g →
      P name { g with dimension := .fixed size })
    (each : d.declared.groups.Each P) (run : d.apply line s = .ok d') :
    d'.declared.groups.Each P := by
  cases s with
  | chip size =>
      simp only [apply, setChip] at run
      repeat' split at run
      all_goals cases run
      exact each
  | declare name path =>
      have run := onLine_eq_ok.mp run
      unfold declare at run
      split at run
      · cases run
      · cases run
        exact each.insert (fresh name path)
  | nest child parent => exact each_nest stable each run
  | locate name x y => exact each_update each (onLine_eq_ok.mp run) fun g => stable _ _ _ rfl rfl
  | size name size => exact each_update each (onLine_eq_ok.mp run) fun g => sized name size g rfl
  | area name area => exact each_update each (onLine_eq_ok.mp run) fun g => stable _ _ _ rfl rfl
  | «attribute» name key value =>
      exact each_update each (onLine_eq_ok.mp run) fun g => stable _ _ _ rfl rfl
  | corner name upper x y =>
      have run := onLine_eq_ok.mp run
      unfold setCorner at run
      split at run
      · cases run
        exact each
      · cases run

theorem each_resolve {set set' : ConstraintSet α} {e : String × Corners α}
    (boxed : ∀ p q : Corner α, ¬ q.x ≤ p.x → ¬ q.y ≤ p.y → ∀ g, P e.1 g →
      P e.1 (g.place ((p.x + q.x) / 2.0) ((p.y + q.y) / 2.0) ⟨q.x - p.x, q.y - p.y⟩))
    (each : set.groups.Each P) (run : resolve set e = .ok set') : set'.groups.Each P := by
  unfold resolve at run
  split at run
  · split at run
    · cases run
    · next ordered =>
      simp only [Bool.or_eq_true, decide_eq_true_eq, not_or] at ordered
      cases run
      exact each.modify (boxed _ _ ordered.1 ordered.2)
  · cases run
  · cases run
  · cases run
    exact each

end Draft

/-- What every statement of a file and every pair of corners keeps holds of the groups that the file
declares. -/
theorem each_ofText {source : String} {set : ConstraintSet α} {P : String → AreaGroup α → Prop}
    (stable : OfNameAndSize P) (fresh : ∀ name path, P name { name, sourcePath := path, area := 0 })
    (sized : ∀ name size g, States source (.size name size) → P name g →
      P name { g with dimension := .fixed size })
    (boxed : ∀ name (p q : Corner α), ¬ q.x ≤ p.x → ¬ q.y ≤ p.y → ∀ g, P name g →
      P name (g.place ((p.x + q.x) / 2.0) ((p.y + q.y) / 2.0) ⟨q.x - p.x, q.y - p.y⟩))
    (read : ConstraintSet.ofText source = .ok set) : set.groups.Each P := by
  unfold ConstraintSet.ofText at read
  obtain ⟨draft, stated, read⟩ := bind_eq_ok_iff.mp read
  obtain ⟨resolved, corners, read⟩ := bind_eq_ok_iff.mp read
  have declared : draft.declared.groups.Each P := by
    refine foldlM_invariant_of_mem
      (P := fun d : Draft α => d.declared.groups.Each P) ?_ .empty stated
    intro e he d d' each run
    obtain ⟨s, text, applied⟩ := bind_eq_ok_iff.mp run
    refine Draft.each_apply stable fresh ?_ each applied
    rintro name size g rfl
    exact sized name size g ⟨e, he, Draft.onLine_eq_ok.mp text⟩
  have each : resolved.groups.Each P :=
    foldlM_invariant (P := fun set : ConstraintSet α => set.groups.Each P)
      (fun _ e _ each run => Draft.each_resolve (boxed e.1) each run) declared corners
  split at read
  · cases read
  · cases read
    exact each

end Constraint

theorem ConstraintSet.keyed_ofText {source : String} {set : ConstraintSet α}
    (read : ConstraintSet.ofText source = .ok set) : AreaGroup.Keyed set.groups := by
  have each : set.groups.Each fun name g => g.name = name :=
    Constraint.each_ofText (fun _ _ _ same _ named => same.trans named) (fun _ _ => rfl)
      (fun _ _ _ _ => id) (fun _ _ _ _ _ _ => id) read
  exact fun e he => each e.1 e.2 (NameMap.find?_eq_some.mpr he)

/-! ### Elaboration -/

/-- The group as it is elaborated: what the file fixes is kept. -/
structure AreaGroup.Elaborated (g g' : AreaGroup α) : Prop where
  name : g'.name = g.name
  x : g'.x = g.x
  y : g'.y = g.y
  size : ∀ s, g.dimension = .fixed s → g'.dimension = .fixed s

namespace AreaGroup.Elaborated

variable {g g' g'' : AreaGroup α}

omit [Scalar α] in
theorem trans (h : g.Elaborated g') (h' : g'.Elaborated g'') : g.Elaborated g'' :=
  ⟨h'.name.trans h.name, h'.x.trans h.x, h'.y.trans h.y, fun s hs => h'.size s (h.size s hs)⟩

theorem assignArea (areas : NameMap α) (g : AreaGroup α) :
    g.Elaborated (Floorplan.assignArea areas g) := by
  unfold Floorplan.assignArea
  split
  · exact ⟨rfl, rfl, rfl, fun _ => id⟩
  · split <;> exact ⟨rfl, rfl, rfl, fun _ => id⟩

theorem sumChildren (groups : NameMap (AreaGroup α)) (g : AreaGroup α) :
    g.Elaborated (Floorplan.sumChildren groups g) := by
  unfold Floorplan.sumChildren
  split <;> exact ⟨rfl, rfl, rfl, fun _ => id⟩

theorem offerSizes (ratios : List α) (g : AreaGroup α) :
    g.Elaborated (Floorplan.offerSizes ratios g) := by
  unfold Floorplan.offerSizes
  split
  · next unset _ =>
    refine ⟨rfl, rfl, rfl, fun s hs => ?_⟩
    rw [unset] at hs
    cases hs
  · exact ⟨rfl, rfl, rfl, fun _ => id⟩

omit [Scalar α] in
theorem isPlaced (h : g.Elaborated g') (placed : g.isPlaced = true) : g'.isPlaced = true := by
  unfold AreaGroup.isPlaced at placed ⊢
  rw [h.x, h.y]
  cases hd : g.dimension with
  | fixed s =>
      rw [hd] at placed
      rwa [h.size s hd]
  | unset => simp [hd, Dimension.fixed?] at placed
  | options sizes => simp [hd, Dimension.fixed?] at placed

end AreaGroup.Elaborated

namespace Floorplan

variable {set : ConstraintSet α} {areas : NameMap α} {settings : PlacementSettings α}
  {p : Floorplan α} {declared : NameMap (AreaGroup α)}

omit [Scalar α] in
/-- Entries of the table add groups under their own names, and leave the declared ones as they
are. -/
theorem withTableGroups_spec (keyed : AreaGroup.Keyed declared) (areas : NameMap α) :
    AreaGroup.Keyed (withTableGroups declared areas) ∧
      ∀ name g, declared.find? name = some g →
        (withTableGroups declared areas).find? name = some g := by
  unfold withTableGroups
  refine List.foldlRecOn (motive := fun groups : NameMap (AreaGroup α) => AreaGroup.Keyed groups ∧
    ∀ name g, declared.find? name = some g → groups.find? name = some g) areas.entries _
    ⟨keyed, fun _ _ => id⟩ ?_
  rintro groups ⟨keyed, kept⟩ ⟨entry, area⟩ -
  dsimp only
  split
  · exact ⟨keyed, kept⟩
  · next new =>
    refine ⟨keyed.insert rfl, fun name g found => ?_⟩
    rw [NameMap.find?_insert, if_neg, kept name g found]
    rintro rfl
    have declared : declared.contains name = true :=
      NameMap.contains_iff.mpr (NameMap.mem_keys_iff.mpr ⟨g, found⟩)
    simp [declared] at new

/-- The plan holds every declared group under its name, and keeps what the file fixes. -/
theorem elaborate_spec (keyed : AreaGroup.Keyed set.groups)
    (elaborated : elaborate set areas settings = .ok p) :
    p.Keyed ∧ ∀ name g, set.groups.find? name = some g →
      ∃ g', p.groups.find? name = some g' ∧ g.Elaborated g' := by
  unfold elaborate at elaborated
  split at elaborated
  · cases elaborated
  · cases elaborated
    obtain ⟨keyed, kept⟩ := withTableGroups_spec keyed areas
    constructor
    · refine ((keyed.mapValues ?_).mapValues ?_).mapValues ?_
      · exact fun _ g => (AreaGroup.Elaborated.assignArea areas g).name
      · exact fun _ g => (AreaGroup.Elaborated.sumChildren _ g).name
      · exact fun _ g => (AreaGroup.Elaborated.offerSizes _ g).name
    · intro name g found
      let assigned := (withTableGroups set.groups areas).mapValues fun _ => assignArea areas
      have kept_by_passes := (AreaGroup.Elaborated.assignArea areas g).trans <|
        (AreaGroup.Elaborated.sumChildren assigned _).trans <|
          AreaGroup.Elaborated.offerSizes settings.aspectRatios _
      refine ⟨_, ?_, kept_by_passes⟩
      simp only [NameMap.find?_mapValues, kept name g found, Option.map_some, assigned]

end Floorplan
end HardwareLinker
