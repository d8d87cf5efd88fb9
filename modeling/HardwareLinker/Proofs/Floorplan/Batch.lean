import HardwareLinker.Proofs.Except
import HardwareLinker.Proofs.Floorplan.Relate
import HardwareLinker.Proofs.Pairs

/-!
How the model of a batch is built: first the groups of the batch, one after another, then the placed
groups around them, which need no variables, and then a part for every pair. The groups of the model
are those of the batch as an assignment picks them, followed by the placed ones.
-/

namespace HardwareLinker.Floorplan

open Milp

variable {a : Assignment Rat} {P : Assignment Rat → Prop}

/-! ### Parts one after another -/

/-- A model to which parts are added one after another, each with its variables behind all
others. -/
def addParts {α β : Type} [Scalar α] (part : β → Nat → Block α) (m : Model α) (l : List β) :
    Model α :=
  l.foldl (fun m x => addBlock m (part x m.vars.size)) m

section
variable {β : Type} {part : β → Nat → Block Rat} {m : Model Rat} {l : List β}

theorem size_addBlock {α : Type} [Scalar α] (m : Model α) (b : Block α) :
    (addBlock m b).vars.size = m.vars.size + b.vars.length := by
  simp [addBlock]

theorem holdsAt_of_addParts (h : (addParts part m l).Feasible a) :
    m.Feasible a ∧ ∀ x ∈ l, ∃ first, (part x first).HoldsAt first a := by
  induction l generalizing m with
  | nil => exact ⟨h, by simp⟩
  | cons x l ih =>
      obtain ⟨front, rest⟩ := ih h
      obtain ⟨before, here⟩ := feasible_addBlock.mp front
      exact ⟨before, List.forall_mem_cons.mpr ⟨⟨_, here⟩, rest⟩⟩

/-- What each part costs at least, the model costs together. -/
theorem sum_le_of_addParts {cost : β → Rat} (h : (addParts part m l).Feasible a)
    (least : ∀ x ∈ l, ∀ first, (part x first).HoldsAt first a →
      cost x ≤ (part x first).objective.eval a) :
    m.objective.eval a + (l.map cost).sum ≤ (addParts part m l).objective.eval a := by
  induction l generalizing m with
  | nil => simp [addParts]
  | cons x l ih =>
      obtain ⟨leastX, leastL⟩ := List.forall_mem_cons.mp least
      have later : (addParts part (addBlock m (part x m.vars.size)) l).Feasible a := h
      have here := leastX _ (feasible_addBlock.mp (holdsAt_of_addParts later).1).2
      have rest := ih later leastL
      rw [addBlock, Terms.eval_append] at rest
      rw [List.map_cons, List.sum_cons, ← add_assoc]
      exact (add_le_add_left (add_le_add_right here _) _).trans rest

/-- If each part can be satisfied wherever `P` at some cost, then all of them can together at the
sum of their costs. -/
theorem addParts_attains {cost : β → Rat}
    (attains : ∀ x ∈ l, ∀ first, (part x first).Attains first P (cost x)) :
    ∃ values, ∀ a, P a → a.Lists m.vars.size values → m.Feasible a →
      (addParts part m l).Feasible a ∧
        (addParts part m l).objective.eval a = m.objective.eval a + (l.map cost).sum := by
  induction l generalizing m with
  | nil => exact ⟨[], fun a _ _ feasible => ⟨feasible, by simp [addParts]⟩⟩
  | cons x l ih =>
      obtain ⟨attainsX, attainsL⟩ := List.forall_mem_cons.mp attains
      obtain ⟨xs, hxs, solves⟩ := attainsX m.vars.size
      obtain ⟨ys, rest⟩ := ih (m := addBlock m (part x m.vars.size)) attainsL
      refine ⟨xs ++ ys, fun a ha lists feasible => ?_⟩
      obtain ⟨listsX, listsL⟩ := EachFrom.append.mp lists
      rw [hxs, ← size_addBlock] at listsL
      obtain ⟨holds, here⟩ := solves a ha listsX
      obtain ⟨all, objective⟩ := rest a ha listsL (feasible_addBlock.mpr ⟨feasible, holds⟩)
      refine ⟨all, objective.trans ?_⟩
      rw [addBlock, Terms.eval_append, here, List.map_cons, List.sum_cons, add_assoc]

end

/-! ### The groups of the batch -/

variable {p : Floorplan Rat} {b b' : BatchModel Rat} {name : String} {c : Pick} {picks : List Pick}
  {chip : Size Rat}

/-- The model `b'` is `b` with the groups of these picks added. From the first new variable on it
has the variables of the picks; where they have the values of the picks, the model sees the groups
as picked, and it says of them that they lie on the chip. -/
structure Added (chip : Size Rat) (picks : List Pick) (b b' : BatchModel Rat)
    (geos : List (Geometry Rat)) : Prop where
  geometries : b'.geometries = b.geometries ++ geos
  free : ∀ geo ∈ geos, geo.choice.isSome = true
  size : b'.model.vars.size = b.model.vars.size + (picks.flatMap Pick.values).length
  takes : ∀ a, List.Forall₂ (fun geo c => geo.Takes a c) geos picks ↔
    a.Lists b.model.vars.size (picks.flatMap Pick.values)
  shown : ∀ a, a.Lists b.model.vars.size (picks.flatMap Pick.values) →
    List.Forall₂ (fun geo g => geo.Shows a g) geos (picks.map Pick.placed)
  feasible : ∀ a, a.Lists b.model.vars.size (picks.flatMap Pick.values) →
    (b'.model.Feasible a ↔ b.model.Feasible a ∧
      ∀ g ∈ picks.map Pick.placed, ∀ r ∈ g.bounds?, r.Within (chipBounds chip))

theorem addFree_eq (found : p.groups.find? name = some c.group) (suits : c.Suits) :
    BatchModel.addFree p b name =
      .ok ⟨addBlock b.model (freeGroup p.chip b.geometries.length b.model.vars.size c.group).2,
        b.geometries ++ [(freeGroup p.chip b.geometries.length b.model.vars.size c.group).1]⟩ := by
  have positive : hasPositiveSizes c.group = true := by
    have nonempty := List.length_pos_iff.mp (Nat.zero_lt_of_lt suits.candidate)
    simp only [hasPositiveSizes, Bool.and_eq_true, Bool.not_eq_true', List.isEmpty_eq_false_iff,
      List.any_eq_false, Bool.or_eq_true, decide_eq_true_eq, not_or, not_le]
    exact ⟨nonempty, suits.positive⟩
  simp [BatchModel.addFree, found, positive]

theorem added_addFree (found : p.groups.find? name = some c.group) (suits : c.Suits) :
    ∃ b' geo, BatchModel.addFree p b name = .ok b' ∧ Added p.chip [c] b b' [geo] := by
  refine ⟨_, (freeGroup p.chip b.geometries.length b.model.vars.size c.group).1,
    addFree_eq found suits, ?_⟩
  have shown {a : Assignment Rat} (lists : a.Lists b.model.vars.size ([c].flatMap Pick.values)) :=
    freeGroup_shows p.chip b.geometries.length suits (by simpa using lists)
  constructor
  case geometries => rfl
  case free => simp [freeGroup_choice]
  case size => simp [size_addBlock, freeGroup_vars, Pick.values]
  case takes =>
    intro a
    simp [freeGroup_takes]
  case shown =>
    intro a lists
    exact .cons (shown lists) .nil
  case feasible =>
    intro a lists
    have values : a.Lists b.model.vars.size c.values := by simpa using lists
    rw [feasible_addBlock, freeGroup_holdsAt suits values]
    simp [(shown lists).bounds]

theorem Added.nil : Added chip [] b b [] where
  geometries := (List.append_nil _).symm
  free := by simp
  size := rfl
  takes a := iff_of_true .nil EachFrom.nil
  shown a _ := .nil
  feasible a _ := by simp

theorem Added.cons {b₁ b₂ b₃ : BatchModel Rat} {geo : Geometry Rat} {geos : List (Geometry Rat)}
    (head : Added chip [c] b₁ b₂ [geo]) (tail : Added chip picks b₂ b₃ geos) :
    Added chip (c :: picks) b₁ b₃ (geo :: geos) := by
  have values : (c :: picks).flatMap Pick.values =
      [c].flatMap Pick.values ++ picks.flatMap Pick.values := by simp
  have split {a : Assignment Rat} :
      a.Lists b₁.model.vars.size ((c :: picks).flatMap Pick.values) ↔
        a.Lists b₁.model.vars.size ([c].flatMap Pick.values) ∧
          a.Lists b₂.model.vars.size (picks.flatMap Pick.values) := by
    rw [values, head.size]
    exact EachFrom.append
  constructor
  case geometries => rw [tail.geometries, head.geometries, List.append_assoc, List.singleton_append]
  case free =>
    exact List.forall_mem_cons.mpr ⟨head.free geo (List.mem_singleton.mpr rfl), tail.free⟩
  case size => rw [tail.size, head.size, values, List.length_append, Nat.add_assoc]
  case takes =>
    intro a
    rw [split, ← head.takes, ← tail.takes]
    simp
  case shown =>
    intro a lists
    obtain ⟨listsHead, listsTail⟩ := split.mp lists
    cases head.shown a listsHead with
    | cons first _ => exact .cons first (tail.shown a listsTail)
  case feasible =>
    intro a lists
    obtain ⟨listsHead, listsTail⟩ := split.mp lists
    rw [tail.feasible a listsTail, head.feasible a listsHead]
    simp [and_assoc]

theorem added_foldlM {batch : List String}
    (found : List.Forall₂ (fun name c => p.groups.find? name = some c.group) batch picks)
    (suits : ∀ c ∈ picks, c.Suits) :
    ∃ b' geos, batch.foldlM (BatchModel.addFree p) b = .ok b' ∧ Added p.chip picks b b' geos := by
  induction found generalizing b with
  | nil => exact ⟨b, [], rfl, Added.nil⟩
  | cons first _ ih =>
      obtain ⟨suitsFirst, suitsRest⟩ := List.forall_mem_cons.mp suits
      obtain ⟨b₁, geo, step, head⟩ := added_addFree (b := b) first suitsFirst
      obtain ⟨b₂, geos, run, tail⟩ := ih (b := b₁) suitsRest
      refine ⟨b₂, geo :: geos, ?_, head.cons tail⟩
      rw [List.foldlM_cons, step]
      exact run

/-! ### The groups around the batch -/

/-- The placed groups that are not in the batch. -/
def placedAround (p : Floorplan Rat) (batch : List String) : List (AreaGroup Rat) :=
  p.groups.values.filter fun g => !batch.contains g.name && g.isPlaced

theorem placedGroup?_eq_none {g : AreaGroup Rat} (h : g.isPlaced = false) :
    placedGroup? g = none := by
  unfold placedGroup? AreaGroup.centre?
  unfold AreaGroup.isPlaced at h
  cases hx : g.x <;> cases hy : g.y <;> cases hd : g.dimension.fixed? <;> simp_all

theorem placedGroup?_shows {g : AreaGroup Rat} (h : g.isPlaced = true) :
    ∃ geo, placedGroup? g = some geo ∧ geo.choice = none ∧ ∀ a, geo.Shows a g := by
  simp only [AreaGroup.isPlaced, Bool.and_eq_true, Option.isSome_iff_exists] at h
  obtain ⟨⟨⟨x, hx⟩, y, hy⟩, s, hs⟩ := h
  have seen : placedGroup? g = some
      { name := g.name, emptyBox := g.isEmptyBox, parent := g.parent
        centreX := .ofConstant x, centreY := .ofConstant y
        halfWidth := .ofConstant (s.width / 2.0), halfHeight := .ofConstant (s.height / 2.0)
        choice := none } := by
    simp [placedGroup?, AreaGroup.centre?, hx, hy, hs]
  refine ⟨_, seen, rfl, fun a => ⟨rfl, rfl, rfl, ?_⟩⟩
  simp [AreaGroup.bounds?, AreaGroup.centre?, hx, hy, hs, Geometry.bounds]

theorem filterMap_placedGroup (groups : List (AreaGroup Rat)) :
    List.Forall₂ (fun geo g => geo.choice = none ∧ ∀ a, geo.Shows a g)
      (groups.filterMap placedGroup?) (groups.filter AreaGroup.isPlaced) := by
  induction groups with
  | nil => exact .nil
  | cons g groups ih =>
      cases hplaced : g.isPlaced with
      | false =>
          rw [List.filterMap_cons_none (placedGroup?_eq_none hplaced),
            List.filter_cons_of_neg (by simp [hplaced])]
          exact ih
      | true =>
          obtain ⟨geo, hgeo, free, shown⟩ := placedGroup?_shows hplaced
          rw [List.filterMap_cons_some hgeo, List.filter_cons_of_pos hplaced]
          exact .cons ⟨free, shown⟩ ih

theorem surroundings_shown (p : Floorplan Rat) (batch : List String) :
    List.Forall₂ (fun geo g => geo.choice = none ∧ ∀ a, geo.Shows a g)
      (BatchModel.surroundings p batch) (placedAround p batch) := by
  have around : placedAround p batch =
      (p.groups.values.filter fun g => !batch.contains g.name).filter AreaGroup.isPlaced := by
    rw [List.filter_filter]
    simp only [placedAround, Bool.and_comm]
  rw [around]
  exact filterMap_placedGroup _

/-! ### The whole model -/

/-- The groups of the batch as picked, and then the placed ones around them. -/
def modelled (p : Floorplan Rat) (batch : List String) (picks : List Pick) : List (AreaGroup Rat) :=
  picks.map Pick.placed ++ placedAround p batch

/-- What a pair of modelled groups adds to the objective, given how many of them are in the batch:
two groups that were placed before add nothing, nor do two empty boxes. -/
def pairCost (traffic : TrafficTable Rat) (settings : PlacementSettings Rat) (free : Nat)
    (pair : (AreaGroup Rat × Nat) × (AreaGroup Rat × Nat)) : Rat :=
  if (free ≤ pair.1.2 ∧ free ≤ pair.2.2) ∨
      (pair.1.1.isEmptyBox = true ∧ pair.2.1.isEmptyBox = true) then 0
  else pair.1.1.wiring traffic settings pair.2.1

/-- The weighted distances of all pairs of modelled groups, each pair once. -/
def wireLength (p : Floorplan Rat) (batch : List String) (traffic : TrafficTable Rat)
    (settings : PlacementSettings Rat) (picks : List Pick) : Rat :=
  ((orderedPairs (modelled p batch picks).zipIdx).map (pairCost traffic settings picks.length)).sum

/-- The part of the model about a pair of groups. -/
def pairPart {α : Type} [Scalar α] (far : α) (traffic : TrafficTable α)
    (settings : PlacementSettings α)
    (pair : (Geometry α × Nat) × (Geometry α × Nat)) (first : Nat) : Block α :=
  relate far traffic settings first pair.1 pair.2

theorem build_eq {α : Type} [Scalar α] {p : Floorplan α} {batch : List String}
    {traffic : TrafficTable α} {settings : PlacementSettings α} {free : BatchModel α}
    (run : batch.foldlM (BatchModel.addFree p) ⟨.empty, []⟩ = .ok free) :
    BatchModel.build p batch traffic settings =
      .ok ⟨addParts (pairPart (p.chip.width + p.chip.height) traffic settings) free.model
          (orderedPairs (free.geometries ++ BatchModel.surroundings p batch).zipIdx),
        free.geometries ++ BatchModel.surroundings p batch⟩ := by
  rw [BatchModel.build, run]
  rfl

theorem exists_of_getElem? {β γ : Type} {R : β → γ → Prop} {l : List β} {m : List γ}
    (h : List.Forall₂ R l m) {k : Nat} {x : β} (hx : l[k]? = some x) :
    ∃ y, m[k]? = some y ∧ R x y := by
  induction h generalizing k with
  | nil => simp at hx
  | cons head _ ih =>
      cases k with
      | zero =>
          obtain rfl : _ = x := by simpa using hx
          exact ⟨_, rfl, head⟩
      | succ k => exact ih hx

section
variable {batch : List String} {free : BatchModel Rat} {geos : List (Geometry Rat)}

theorem Added.shown_all (batch : List String)
    (added : Added p.chip picks ⟨.empty, []⟩ free geos)
    (lists : a.Lists 0 (picks.flatMap Pick.values)) :
    List.Forall₂ (fun geo g => geo.Shows a g) (geos ++ BatchModel.surroundings p batch)
      (modelled p batch picks) :=
  List.rel_append (added.shown a lists) ((surroundings_shown p batch).imp fun _ _ h => h.2 a)

/-- Each geometry shows one modelled group, whichever assignment has the values of the picks. -/
theorem Added.exists_shown (added : Added p.chip picks ⟨.empty, []⟩ free geos) {i : Nat}
    {geo : Geometry Rat} (hi : (geos ++ BatchModel.surroundings p batch)[i]? = some geo) :
    ∃ g, (modelled p batch picks)[i]? = some g ∧
      ∀ a, a.Lists 0 (picks.flatMap Pick.values) → geo.Shows a g := by
  obtain ⟨g, hg, -⟩ := exists_of_getElem? (added.shown_all batch (Assignment.lists_toArray _)) hi
  refine ⟨g, hg, fun a lists => ?_⟩
  obtain ⟨g', hg', shown⟩ := exists_of_getElem? (added.shown_all batch lists) hi
  obtain rfl : g' = g := Option.some.inj (hg'.symm.trans hg)
  exact shown

theorem Added.length (added : Added p.chip picks ⟨.empty, []⟩ free geos) :
    geos.length = picks.length := by
  have shown := added.shown _ (Assignment.lists_toArray (picks.flatMap Pick.values))
  rw [shown.length_eq, List.length_map]

theorem mem_surroundings {α : Type} [Scalar α] {p : Floorplan α} {batch : List String}
    {geo : Geometry α} (h : geo ∈ BatchModel.surroundings p batch) : geo.choice = none := by
  obtain ⟨g, -, placed⟩ := List.mem_filterMap.mp h
  simp only [placedGroup?, Option.bind_eq_bind, Option.bind_eq_some_iff, Option.pure_def,
    Option.some.injEq] at placed
  obtain ⟨-, -, -, -, rfl⟩ := placed
  rfl

/-- The groups of the batch come first. -/
theorem Added.choice_isSome (added : Added p.chip picks ⟨.empty, []⟩ free geos) {i : Nat}
    {geo : Geometry Rat} (hi : (geos ++ BatchModel.surroundings p batch)[i]? = some geo) :
    geo.choice.isSome = true ↔ i < picks.length := by
  rw [← added.length]
  rcases Nat.lt_or_ge i geos.length with lt | ge
  · rw [List.getElem?_append_left lt] at hi
    exact iff_of_true (added.free geo (List.mem_of_getElem? hi)) lt
  · rw [List.getElem?_append_right ge] at hi
    exact iff_of_false (by simp [mem_surroundings (List.mem_of_getElem? hi)]) (Nat.not_lt.mpr ge)

end
end HardwareLinker.Floorplan
