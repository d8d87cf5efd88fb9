import HardwareLinker.Proofs.Floorplan.Exact
import HardwareLinker.Proofs.Floorplan.Keyed
import HardwareLinker.Proofs.Floorplan.Variables

/-!
The model of a batch is well formed: its names are different, its rows and its objective mention
nothing but its variables, a row none of them twice, and each group of the batch has one row that
selects its size. Adding a group keeps this for the groups before it, and so does adding the parts
of the pairs.
-/

namespace HardwareLinker.Floorplan

open Milp

variable {α : Type} [Scalar α]

/-! ### Selection rows -/

/-- One of the sizes is selected. -/
def pickRow (i : Nat) (sizes : List (Nat × Size α)) : Row α :=
  ⟨s!"pick_{i}", sizes.map fun e => (e.1, 1), .equal, 1⟩

/-- At this position the model has a free geometry for the group of this name: a binary for each
candidate size, and one row over these binaries, with none of them missing. No other equation
mentions them. -/
structure BatchModel.Selects (b : BatchModel α) (p : Floorplan α) (i : Nat) (name : String)
    (g : AreaGroup α) (geo : Geometry α) (choice : Choice α) : Prop where
  found : p.groups.find? name = some g
  geometry : b.geometries[i]? = some geo
  named : geo.name = g.name
  free : geo.choice = some choice
  nonempty : choice.sizes ≠ []
  sizes : choice.sizes.map Prod.snd = g.dimension.choices
  binaries : ∀ (k v : Nat) (s : Size α), choice.sizes[k]? = some (v, s) →
    b.model.vars[v]? = some (binary s!"s_{i}_{k}")
  row : pickRow i choice.sizes ∈ b.model.rows
  only : ∀ r ∈ b.model.rows, r.sense = .equal →
    (∃ v ∈ r.terms.map Prod.fst, v ∈ choice.sizes.map Prod.fst) → r = pickRow i choice.sizes

variable {p : Floorplan α} {b b' : BatchModel α} {i : Nat} {name : String} {g : AreaGroup α}
  {geo : Geometry α} {choice : Choice α} {block : Block α} {names : List String}

theorem BatchModel.Selects.size_lt (h : b.Selects p i name g geo choice) {v : Nat}
    (hv : v ∈ choice.sizes.map Prod.fst) : v < b.model.vars.size := by
  obtain ⟨⟨v, s⟩, he, rfl⟩ := List.mem_map.mp hv
  obtain ⟨k, hk⟩ := List.mem_iff_getElem?.mp he
  exact (Array.getElem?_eq_some_iff.mp (h.binaries k v s hk)).1

theorem BatchModel.Selects.append (h : b.Selects p i name g geo choice) (more : List (Geometry α)) :
    BatchModel.Selects ⟨b.model, b.geometries ++ more⟩ p i name g geo choice where
  found := h.found
  geometry := by
    have hi := (List.getElem?_eq_some_iff.mp h.geometry).1
    rw [List.getElem?_append_left hi, h.geometry]
  named := h.named
  free := h.free
  nonempty := h.nonempty
  sizes := h.sizes
  binaries := h.binaries
  row := h.row
  only := h.only

/-- A part whose equations are about its own variables leaves the selection of earlier groups
alone. -/
theorem BatchModel.Selects.addBlock (h : b.Selects p i name g geo choice)
    (own : ∀ r ∈ block.rows, r.sense = .equal → ∀ v ∈ r.terms.map Prod.fst, b.model.vars.size ≤ v) :
    BatchModel.Selects ⟨Floorplan.addBlock b.model block, b.geometries⟩ p i name g geo choice where
  found := h.found
  geometry := h.geometry
  named := h.named
  free := h.free
  nonempty := h.nonempty
  sizes := h.sizes
  binaries k v s hk := by
    have := h.binaries k v s hk
    have hv := (Array.getElem?_eq_some_iff.mp this).1
    simpa [Floorplan.addBlock, Array.getElem?_append, hv] using this
  row := List.mem_append_left _ h.row
  only r hr equation := by
    rintro ⟨v, hv, shared⟩
    rcases List.mem_append.mp hr with hr | hr
    · exact h.only r hr equation ⟨v, hv, shared⟩
    · have := own r hr equation v hv
      have := h.size_lt shared
      omega

/-! ### The groups of the batch -/

/-- The model after the groups of some names were added. -/
structure Begun (p : Floorplan α) (names : List String) (b : BatchModel α) : Prop where
  length : b.geometries.length = names.length
  varNames : Labelled (fun stem found => stem ∈ groupVarStems ∧ ∃ i ∈ found.head?, i < names.length)
    (b.model.vars.toList.map (·.name))
  rowNames : Labelled (fun stem found => stem ∈ groupRowStems ∧ ∃ i ∈ found.head?, i < names.length)
    (b.model.rows.map (·.name))
  closed : b.model.Closed
  drawn : ∀ geo ∈ b.geometries, geo.Drawn 0 b.model.vars.size
  disjoint : b.geometries.Pairwise fun g h => (g.across ++ g.upward).Disjoint (h.across ++ h.upward)
  selects : ∀ i name, names[i]? = some name → ∃ g geo choice, b.Selects p i name g geo choice

theorem begun_nil (p : Floorplan α) : Begun p [] ⟨.empty, []⟩ where
  length := rfl
  varNames := .nil
  rowNames := .nil
  closed := ⟨nofun, nofun⟩
  drawn := nofun
  disjoint := .nil
  selects := nofun

/-- The names of one more group are new, as its position is. -/
theorem Labelled.concat {stems xs ys : List String} {n : Nat}
    (h : Labelled (fun stem found => stem ∈ stems ∧ ∃ i ∈ found.head?, i < n) xs)
    (h' : Labelled (fun stem found => stem ∈ stems ∧ found.head? = some n) ys) :
    Labelled (fun stem found => stem ∈ stems ∧ ∃ i ∈ found.head?, i < n + 1) (xs ++ ys) := by
  refine (h.append h' ?_).imp ?_
  · rintro stem found ⟨-, i, hi, lt⟩ ⟨-, head⟩
    rw [head] at hi
    cases hi
    exact Nat.lt_irrefl n lt
  · rintro stem found (⟨hs, i, hi, lt⟩ | ⟨hs, head⟩)
    · exact ⟨hs, i, hi, Nat.lt_succ_of_lt lt⟩
    · exact ⟨hs, n, head, Nat.lt_succ_self n⟩

theorem map_fst_pickRow (i : Nat) (sizes : List (Nat × Size α)) :
    (pickRow i sizes).terms.map Prod.fst = sizes.map Prod.fst := by
  simp [pickRow, Function.comp_def]

/-- The one equation of a free group selects its size. -/
theorem equation_freeGroup {chip : Size α} {i first : Nat} {r : Row α}
    (hr : r ∈ (freeGroup chip i first g).2.rows) (equation : r.sense = .equal) :
    r = pickRow i (selectors first g) := by
  rw [freeGroup_rows] at hr
  simp only [List.mem_cons, List.not_mem_nil, or_false] at hr
  rcases hr with rfl | rfl | rfl | rfl | rfl
  · rfl
  all_goals cases equation

theorem selects_freeGroup (found : p.groups.find? name = some g)
    (positive : hasPositiveSizes g = true) (closed : b.model.Closed) :
    BatchModel.Selects
      ⟨addBlock b.model (freeGroup p.chip b.geometries.length b.model.vars.size g).2,
        b.geometries ++ [(freeGroup p.chip b.geometries.length b.model.vars.size g).1]⟩ p
      b.geometries.length name g (freeGroup p.chip b.geometries.length b.model.vars.size g).1
      ⟨b.model.vars.size + g.dimension.choices.length,
        b.model.vars.size + g.dimension.choices.length + 1, selectors b.model.vars.size g⟩ where
  found := found
  geometry := by simp
  named := rfl
  free := freeGroup_choice
  nonempty := by
    simp only [hasPositiveSizes, Bool.and_eq_true, Bool.not_eq_true', List.isEmpty_eq_false_iff]
      at positive
    simpa [selectors] using positive.1
  sizes := map_snd_selectors
  binaries k v s hk := by
    obtain ⟨hs, rfl⟩ := getElem?_selectors.mp hk
    have hk := (List.getElem?_eq_some_iff.mp hs).1
    simp only [addBlock, freeGroup_vars, Array.getElem?_append,
      Nat.not_lt.mpr (Nat.le_add_right _ k), if_false, Nat.add_sub_cancel_left,
      List.getElem?_toArray]
    rw [List.getElem?_append_left (by simpa using hk)]
    simp [hs]
  row := List.mem_append_right _ List.mem_cons_self
  only r hr equation := by
    rintro ⟨v, hv, own⟩
    rcases List.mem_append.mp hr with hr | hr
    · have old := (closed.rows r hr).below v hv
      rw [map_fst_selectors] at own
      have := (List.mem_range'_1.mp own).1
      omega
    · exact equation_freeGroup hr equation

theorem Begun.addFree (h : Begun p names b) (step : BatchModel.addFree p b name = .ok b') :
    Begun p (names ++ [name]) b' := by
  obtain ⟨g, found, positive, rfl⟩ := addFree_eq_ok step
  have size :
      (addBlock b.model (freeGroup p.chip b.geometries.length b.model.vars.size g).2).vars.size =
      b.model.vars.size + (g.dimension.choices.length + 2) := by
    rw [size_addBlock, length_freeGroup]
  have drawn := freeGroup_drawn p.chip b.geometries.length b.model.vars.size g
  constructor
  case length => simp [h.length]
  case varNames =>
    rw [List.length_append, List.length_singleton]
    simp only [addBlock, Array.toList_append, List.map_append]
    exact h.varNames.concat (h.length ▸ freeGroup_varNames)
  case rowNames =>
    rw [List.length_append, List.length_singleton]
    simp only [addBlock, List.map_append]
    exact h.rowNames.concat (h.length ▸ freeGroup_rowNames)
  case closed => exact closed_addBlock h.closed (freeGroup_closedAt _ _ _ g)
  case drawn =>
    refine List.forall_mem_append.mpr ⟨fun geo hgeo => ?_, List.forall_mem_singleton.mpr ?_⟩
    · exact (h.drawn geo hgeo).mono (size ▸ Nat.le_add_right _ _)
    · rw [size]
      exact ⟨drawn.across, drawn.upward, fun v _ => Nat.zero_le v⟩
  case disjoint =>
    refine List.pairwise_append.mpr ⟨h.disjoint, List.pairwise_singleton _ _, ?_⟩
    intro geo hgeo new hnew
    cases List.mem_singleton.mp hnew
    exact (h.drawn geo hgeo).disjoint drawn
  case selects =>
    intro i name' hi
    rcases Nat.lt_or_ge i names.length with lt | ge
    · rw [List.getElem?_append_left lt] at hi
      obtain ⟨g', geo, choice, selects⟩ := h.selects i name' hi
      refine ⟨g', geo, choice, (selects.addBlock fun r hr equation v hv => ?_).append _⟩
      rw [equation_freeGroup hr equation, map_fst_pickRow, map_fst_selectors] at hv
      exact (List.mem_range'_1.mp hv).1
    · rw [List.getElem?_append_right ge] at hi
      have here : i = b.geometries.length ∧ name = name' := by
        have last : i - names.length < 1 := (List.getElem?_eq_some_iff.mp hi).1
        have same : i = names.length := by omega
        rw [same, Nat.sub_self] at hi
        exact ⟨same.trans h.length.symm, Option.some.inj hi⟩
      obtain ⟨rfl, rfl⟩ := here
      exact ⟨_, _, _, selects_freeGroup found positive h.closed⟩

theorem Begun.foldlM {batch : List String} (h : Begun p names b)
    (run : batch.foldlM (BatchModel.addFree p) b = .ok b') : Begun p (names ++ batch) b' := by
  induction batch generalizing names b with
  | nil =>
      cases run
      rwa [List.append_nil]
  | cons name batch ih =>
      rw [List.foldlM_cons] at run
      obtain ⟨b₁, head, tail⟩ := bind_eq_ok run
      have := ih (h.addFree head) tail
      rwa [List.append_assoc, List.singleton_append] at this

/-! ### The parts of the pairs -/

section Parts

variable {β : Type} {part : β → Nat → Block α} {m : Model α} {l : List β}

theorem addParts_induction {motive : Model α → Prop} (start : motive m)
    (step : ∀ x ∈ l, ∀ m', m.vars.size ≤ m'.vars.size → motive m' →
      motive (addBlock m' (part x m'.vars.size))) : motive (addParts part m l) := by
  have run : m.vars.size ≤ (addParts part m l).vars.size ∧ motive (addParts part m l) := by
    refine List.foldlRecOn l _ (motive := fun m' => m.vars.size ≤ m'.vars.size ∧ motive m')
      ⟨Nat.le_refl _, start⟩ fun m' h x hx => ⟨?_, step x hx m' h.1 h.2⟩
    rw [size_addBlock]
    exact Nat.le_trans h.1 (Nat.le_add_right _ _)
  exact run.2

/-- Parts with families of names that have nothing in common keep all names different. -/
theorem addParts_names (ofModel : Model α → List String) (ofBlock : Block α → List String)
    (added : ∀ m b, ofModel (addBlock m b) = ofModel m ++ ofBlock b)
    {family : String → List Nat → Prop} {families : β → String → List Nat → Prop}
    (start : Labelled family (ofModel m))
    (each : ∀ x ∈ l, ∀ first, Labelled (families x) (ofBlock (part x first)))
    (new : ∀ x ∈ l, ∀ stem found, family stem found → ¬ families x stem found)
    (apart : l.Pairwise fun x y => ∀ stem found, families x stem found → ¬ families y stem found) :
    (ofModel (addParts part m l)).Nodup := by
  induction l generalizing m family with
  | nil => exact start.distinct
  | cons x l ih =>
      obtain ⟨eachX, eachL⟩ := List.forall_mem_cons.mp each
      obtain ⟨newX, newL⟩ := List.forall_mem_cons.mp new
      obtain ⟨apartX, apartL⟩ := List.pairwise_cons.mp apart
      have here := start.append (eachX m.vars.size) newX
      rw [← added] at here
      refine ih here eachL (fun y hy stem found => ?_) apartL
      rintro (before | beside)
      · exact newL y hy stem found before
      · exact apartX y hy stem found beside

end Parts

/-- Pairs are nested or separated by inequalities. -/
theorem relate_no_equation {far : α} {traffic : TrafficTable α} {settings : PlacementSettings α}
    {first : Nat} {x y : Geometry α × Nat} {r : Row α}
    (hr : r ∈ (relate far traffic settings first x y).rows) : r.sense ≠ .equal := by
  rcases relate_cases far traffic settings first x y with none | ⟨block, kind, shape⟩
  · rw [none] at hr
    cases hr
  have inequalities : ∀ r ∈ block.rows, r.sense ≠ .equal := by
    rcases kind with rfl | rfl | rfl <;> simp [containChild, separate, Linear.row]
  rcases shape with shape | ⟨weight, shape⟩
  · rw [shape] at hr
    exact inequalities r hr
  · rw [shape] at hr
    rcases List.mem_append.mp hr with hr | hr
    · exact inequalities r hr
    · have : ∀ r ∈ (distance s!"{x.2}_{y.2}" (first + block.vars.length) x.1 y.1 weight far).rows,
          r.sense ≠ .equal := by simp [distance, Linear.row]
      exact this r hr

omit [Scalar α] in
theorem pairs_apart {geos : List (Geometry α)} :
    (orderedPairs geos.zipIdx).Pairwise fun x y =>
      ([x.1.2, x.2.2] : List Nat) ≠ [y.1.2, y.2.2] := by
  refine (pairwise_orderedPairs (pairwise_zipIdx geos)).imp fun {x y} h same => ?_
  simp only [List.cons.injEq, and_true] at same
  rcases h with lt | ⟨-, lt⟩ <;> omega

/-- The parts of the pairs take names of their own, after those of the groups. -/
theorem addPairs_names {part : (Geometry α × Nat) × (Geometry α × Nat) → Nat → Block α}
    {m : Model α} {geos : List (Geometry α)} {n : Nat} {groupStems pairStems : List String}
    (ofModel : Model α → List String) (ofBlock : Block α → List String)
    (added : ∀ m b, ofModel (addBlock m b) = ofModel m ++ ofBlock b)
    (start : Labelled (fun stem found => stem ∈ groupStems ∧ ∃ i ∈ found.head?, i < n) (ofModel m))
    (each : ∀ x first, Labelled (fun stem found => stem ∈ pairStems ∧ found = [x.1.2, x.2.2])
      (ofBlock (part x first)))
    (other : ∀ stem ∈ groupStems, stem ∉ pairStems) :
    (ofModel (addParts part m (orderedPairs geos.zipIdx))).Nodup := by
  refine addParts_names ofModel ofBlock added start (fun x _ => each x) ?_ ?_
  · rintro x - stem found ⟨group, -⟩ ⟨pair, -⟩
    exact other stem group pair
  · exact pairs_apart.imp fun differ _ _ here there => differ (here.2.symm.trans there.2)

/-! ### The whole model -/

/-- The names of the model are different, its rows and its objective mention its own variables, a
row each of them once, and each group of the batch has one selection row. -/
structure BatchModel.WellFormed (b : BatchModel α) (p : Floorplan α) (batch : List String) :
    Prop where
  varNames : (b.model.vars.toList.map (·.name)).Nodup
  rowNames : (b.model.rows.map (·.name)).Nodup
  closed : b.model.Closed
  selects : ∀ i name, batch[i]? = some name →
    ∃ g geo choice, geo.name = name ∧ b.Selects p i name g geo choice

/-- Together with the placed groups around them, the groups of the batch are apart from each
other. -/
theorem Begun.pairs (h : Begun p names b) {x y : Geometry α × Nat}
    (hpair : (x, y) ∈ orderedPairs (b.geometries ++ BatchModel.surroundings p names).zipIdx) :
    x.1.Apart y.1 b.model.vars.size := by
  have bare {geo : Geometry α} (hgeo : geo ∈ BatchModel.surroundings p names) :
      geo.across = [] ∧ geo.upward = [] := by
    obtain ⟨g, -, placed⟩ := List.mem_filterMap.mp hgeo
    exact placedGroup?_vars placed
  have drawn : ∀ geo ∈ b.geometries ++ BatchModel.surroundings p names,
      geo.Drawn 0 b.model.vars.size := by
    refine List.forall_mem_append.mpr ⟨h.drawn, fun geo hgeo => ?_⟩
    obtain ⟨across, upward⟩ := bare hgeo
    exact ⟨across ▸ ⟨.nil, nofun⟩, upward ▸ ⟨.nil, nofun⟩, fun v _ => Nat.zero_le v⟩
  have disjoint : (b.geometries ++ BatchModel.surroundings p names).Pairwise fun g h =>
      (g.across ++ g.upward).Disjoint (h.across ++ h.upward) := by
    have none {g h : Geometry α} (hh : h ∈ BatchModel.surroundings p names) :
        (g.across ++ g.upward).Disjoint (h.across ++ h.upward) := by
      rw [(bare hh).1, (bare hh).2]
      exact List.disjoint_nil_right _
    exact List.pairwise_append.mpr ⟨h.disjoint,
      List.pairwise_of_forall_mem_list fun _ _ _ hh => none hh, fun _ _ _ hh => none hh⟩
  have numbered : (b.geometries ++ BatchModel.surroundings p names).zipIdx.Pairwise fun g h =>
      (g.1.across ++ g.1.upward).Disjoint (h.1.across ++ h.1.upward) := by
    rw [← List.zipIdx_map_fst 0 (b.geometries ++ BatchModel.surroundings p names)] at disjoint
    exact (List.pairwise_map (f := Prod.fst)).mp disjoint
  obtain ⟨hx, hy⟩ := mem_of_mem_orderedPairs hpair
  exact Geometry.apart_of_disjoint (drawn x.1 (List.fst_mem_of_mem_zipIdx hx))
    (drawn y.1 (List.fst_mem_of_mem_zipIdx hy)) (rel_of_mem_orderedPairs numbered hpair)

/-- Every batch that is built makes a well-formed model. -/
theorem BatchModel.build_wellFormed (keyed : p.Keyed) {batch : List String}
    {traffic : TrafficTable α} {settings : PlacementSettings α}
    (h : build p batch traffic settings = .ok b) : b.WellFormed p batch := by
  obtain ⟨free, run, -⟩ := bind_eq_ok h
  obtain rfl := Except.ok.inj ((build_eq run).symm.trans h)
  have begun : Begun p batch free := (begun_nil p).foldlM run
  constructor
  case varNames =>
    exact addPairs_names (fun m => m.vars.toList.map (·.name)) (fun b => b.vars.map (·.name))
      (by simp [addBlock]) begun.varNames
      (fun x first => (relate_labelled _ traffic settings first x.1 x.2).1) (by decide)
  case rowNames =>
    exact addPairs_names (fun m => m.rows.map (·.name)) (fun b => b.rows.map (·.name))
      (by simp [addBlock]) begun.rowNames
      (fun x first => (relate_labelled _ traffic settings first x.1 x.2).2) (by decide)
  case closed =>
    refine addParts_induction begun.closed fun x hx m' le closed => ?_
    exact closed_addBlock closed (relate_closedAt _ _ _ ((begun.pairs hx).mono le))
  case selects =>
    intro i name hi
    obtain ⟨g, geo, choice, selects⟩ := begun.selects i name hi
    refine ⟨g, geo, choice, selects.named.trans (keyed.name_eq selects.found), ?_⟩
    refine addParts_induction (motive := fun m =>
      Selects ⟨m, free.geometries ++ surroundings p batch⟩ p i name g geo choice)
      (selects.append _) fun x _ m' _ selects => ?_
    exact selects.addBlock fun r hr equation => absurd equation (relate_no_equation hr)

/-- A child that is to stay in a placed group, and a group that is to stay beside both. -/
theorem BatchModel.build_wellFormed_nested :
    nestedPlan.Keyed ∧ ["inner", "outer"].Nodup ∧
    ∃ b, build nestedPlan ["inner", "outer"] .empty {} = .ok b ∧
      b.model.vars.size = 13 ∧ b.model.rows.length = 26 ∧
      b.WellFormed nestedPlan ["inner", "outer"] := by
  have keyed : nestedPlan.Keyed := by decide +kernel
  have sizes : (build nestedPlan ["inner", "outer"] .empty {}).toOption.map
      (fun b => (b.model.vars.size, b.model.rows.length)) = some (13, 26) := by decide +kernel
  obtain ⟨b, built, sizes⟩ := Option.map_eq_some_iff.mp sizes
  obtain ⟨vars, rows⟩ := Prod.mk.inj sizes
  have run := toOption_eq_some.mp built
  exact ⟨keyed, by decide, b, run, vars, rows, build_wellFormed keyed run⟩

end HardwareLinker.Floorplan
