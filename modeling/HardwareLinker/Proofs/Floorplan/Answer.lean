import Mathlib.Algebra.Order.BigOperators.Group.List
import HardwareLinker.Proofs.Floorplan.Exact
import HardwareLinker.Proofs.Floorplan.Rounding

/-!
Reading an answer. In an assignment that the model of a batch admits exactly one size is selected
for every group of the batch, so the assignment is the encoding of picks; these make a valid
arrangement, and they are what is read back, with their centres rounded. No such answer is refused.
-/

namespace HardwareLinker.Floorplan

open Milp

variable {a : Assignment Rat} {c : Pick} {picks : List Pick} {p : Floorplan Rat}
  {batch : List String} {traffic : TrafficTable Rat} {settings : PlacementSettings Rat}

/-! ### One size is selected -/

/-- Zeros and ones that add up to one: a single one among zeros. -/
theorem exists_of_sum_eq_one {v : Nat → Rat} {n : Nat} (integral : ∀ k < n, v k = 0 ∨ v k = 1)
    (one : ((List.range n).map v).sum = 1) : ∃ i < n, ∀ k < n, v k = if k = i then 1 else 0 := by
  induction n with
  | zero => simp at one
  | succ n ih =>
      have below : ∀ k < n, v k = 0 ∨ v k = 1 := fun k hk => integral k (by omega)
      rw [List.range_succ, List.map_append, List.sum_append, List.map_singleton,
        List.sum_singleton] at one
      rcases integral n (Nat.lt_succ_self n) with last | last
      · obtain ⟨i, hi, selected⟩ := ih below (by rwa [last, add_zero] at one)
        refine ⟨i, by omega, fun k hk => ?_⟩
        rcases Nat.lt_succ_iff_lt_or_eq.mp hk with hk | rfl
        · exact selected k hk
        · rw [last, if_neg (by omega)]
      · -- the others add up to zero, and none of them is negative
        have zero : ∀ k < n, v k = 0 := by
          intro k hk
          have nonneg : ∀ x ∈ (List.range n).map v, 0 ≤ x := by
            intro x hx
            obtain ⟨k, hk, rfl⟩ := List.mem_map.mp hx
            rcases below k (List.mem_range.mp hk) with h | h <;> simp [h]
          refine List.all_zero_of_le_zero_le_of_sum_eq_zero nonneg (by linarith) ?_
          exact List.mem_map_of_mem (List.mem_range.mpr hk)
        refine ⟨n, by omega, fun k hk => ?_⟩
        rcases Nat.lt_succ_iff_lt_or_eq.mp hk with hk | rfl
        · rw [zero k hk, if_neg (by omega)]
        · rw [last, if_pos rfl]

theorem pick_eval {g : AreaGroup Rat} {first : Nat} :
    Terms.eval ((selectors first g).map fun e => (e.1, 1)) a =
      ((List.range g.dimension.choices.length).map fun k => a.value (first + k)).sum := by
  rw [List.range_eq_range', ← List.zipIdx_map_snd 0 g.dimension.choices, List.map_map]
  simp [Terms.eval, Scalar.sum_eq, selectors, Function.comp_def]

theorem eq_of_range {fixed : Option Rat} {limit x : Rat}
    (allowed : (coordinateRange fixed limit).1 ≤ x ∧ x ≤ (coordinateRange fixed limit).2) :
    ∀ f ∈ fixed, x = f := by
  rintro f ⟨⟩
  exact le_antisymm allowed.2 allowed.1

/-- Where the part of a group holds, the assignment has the values of a pick. -/
theorem exists_pick {chip : Size Rat} {i first : Nat} {g : AreaGroup Rat}
    (positive : hasPositiveSizes g = true) (holds : (freeGroup chip i first g).2.HoldsAt first a) :
    ∃ c : Pick, c.group = g ∧ c.Suits ∧ a.Lists first c.values := by
  simp only [hasPositiveSizes, Bool.and_eq_true, Bool.not_eq_true', List.isEmpty_eq_false_iff,
    List.any_eq_false, Bool.or_eq_true, decide_eq_true_eq, not_or, not_le] at positive
  obtain ⟨-, positive⟩ := positive
  let n := g.dimension.choices.length
  let centred (k : Nat) : Pick := ⟨g, k, a.value (first + n), a.value (first + n + 1)⟩
  obtain ⟨vars, rows⟩ := holds
  rw [freeGroup_vars, AllowsFrom, EachFrom.append, EachFrom.cons,
    EachFrom.singleton, List.length_map, List.length_zipIdx] at vars
  obtain ⟨selectors, x, y⟩ := vars
  rw [continuous_allows] at x y
  have one := rows _ (by rw [freeGroup_rows]; exact List.mem_cons_self)
  have integral : ∀ k < n, a.value (first + k) = 0 ∨ a.value (first + k) = 1 := by
    intro k hk
    refine binary_allows.mp (selectors k (binary s!"s_{i}_{k}") ?_)
    simp [List.getElem?_eq_getElem hk]
  obtain ⟨k, hk, selected⟩ := exists_of_sum_eq_one integral (pick_eval.symm.trans one)
  exact ⟨centred k, rfl, ⟨hk, positive, eq_of_range x, eq_of_range y⟩,
    lists_values.mpr ⟨selected, rfl, rfl⟩⟩

/-! ### The picks of a batch -/

theorem addFree_eq_ok {α : Type} [Scalar α] {p : Floorplan α} {b b' : BatchModel α} {name : String}
    (h : BatchModel.addFree p b name = .ok b') :
    ∃ g, p.groups.find? name = some g ∧ hasPositiveSizes g = true ∧
      b' = ⟨addBlock b.model (freeGroup p.chip b.geometries.length b.model.vars.size g).2,
        b.geometries ++ [(freeGroup p.chip b.geometries.length b.model.vars.size g).1]⟩ := by
  unfold BatchModel.addFree at h
  split at h
  · cases h
  · next g found =>
    split at h
    · next positive => exact ⟨g, found, positive, (Except.ok.inj h).symm⟩
    · cases h

/-- Where the groups of the batch are modelled, an admitted assignment has the values of picks. -/
theorem exists_picks {b b' : BatchModel Rat} (run : batch.foldlM (BatchModel.addFree p) b = .ok b')
    (feasible : b'.model.Feasible a) :
    ∃ picks, List.Forall₂ (fun name c => p.groups.find? name = some c.group) batch picks ∧
      (∀ c ∈ picks, c.Suits) ∧ a.Lists b.model.vars.size (picks.flatMap Pick.values) := by
  induction batch generalizing b with
  | nil => exact ⟨[], .nil, by simp, EachFrom.nil⟩
  | cons name batch ih =>
      rw [List.foldlM_cons] at run
      obtain ⟨b₁, head, tail⟩ := bind_eq_ok run
      obtain ⟨picks, found, suits, lists⟩ := ih tail
      -- the part of the first group holds in the model as it is before the others are added
      obtain ⟨_, _, tail', added⟩ := added_foldlM (b := b₁) found suits
      obtain rfl := Except.ok.inj (tail.symm.trans tail')
      have before := ((added.feasible a lists).mp feasible).1
      obtain ⟨g, hg, positive, rfl⟩ := addFree_eq_ok head
      obtain ⟨c, rfl, suitsHead, listsHead⟩ := exists_pick positive (feasible_addBlock.mp before).2
      have behind : b.model.vars.size + c.values.length = (addBlock b.model
          (freeGroup p.chip b.geometries.length b.model.vars.size c.group).2).vars.size := by
        simp [size_addBlock, freeGroup_vars, Pick.values]
      refine ⟨c :: picks, .cons hg found, List.forall_mem_cons.mpr ⟨suitsHead, suits⟩, ?_⟩
      rw [List.flatMap_cons]
      exact EachFrom.append.mpr ⟨listsHead, behind ▸ lists⟩

/-! ### Reading back -/

/-- Of two sizes the one whose selector has the greater value, the second one if they are equal. -/
def preferred (a : Assignment Rat) (b s : Nat × Size Rat) : Nat × Size Rat :=
  if a.value s.1 < a.value b.1 then b else s

theorem selected?_cons (b : Nat × Size Rat) (sizes : List (Nat × Size Rat)) :
    BatchModel.selected? (b :: sizes) a = some (sizes.foldl (preferred a) b).2 := by
  have compared (b s : Nat × Size Rat) : (if Scalar.compareTotal (a.value b.1) (a.value s.1) == .gt
      then some b else some s) = some (preferred a b s) := by
    have order : (Scalar.compareTotal (a.value b.1) (a.value s.1) == .gt) =
        decide (a.value s.1 < a.value b.1) := by
      change ((if a.value b.1 < a.value s.1 then Ordering.lt
        else if a.value s.1 < a.value b.1 then .gt else .eq) == .gt) = _
      split
      · next less => simp [less.le]
      · split <;> simp [*]
    rw [order, preferred]
    split <;> simp_all
  unfold BatchModel.selected?
  rw [List.foldl_cons]
  induction sizes generalizing b with
  | nil => rfl
  | cons s sizes ih =>
      rw [List.foldl_cons, List.foldl_cons, ← ih]
      dsimp only
      rw [compared]

/-- The selected size has the greatest value. -/
theorem foldl_preferred_spec (b : Nat × Size Rat) (sizes : List (Nat × Size Rat)) :
    sizes.foldl (preferred a) b ∈ b :: sizes ∧
      ∀ e ∈ b :: sizes, a.value e.1 ≤ a.value (sizes.foldl (preferred a) b).1 := by
  induction sizes generalizing b with
  | nil => simp
  | cons s sizes ih =>
      obtain ⟨mem, most⟩ := ih (preferred a b s)
      have among : preferred a b s = b ∨ preferred a b s = s := by
        unfold preferred
        split <;> simp
      have least : a.value b.1 ≤ a.value (preferred a b s).1 ∧
          a.value s.1 ≤ a.value (preferred a b s).1 := by
        unfold preferred
        split
        · next less => exact ⟨le_rfl, less.le⟩
        · next ge => exact ⟨not_lt.mp ge, le_rfl⟩
      obtain ⟨top, rest⟩ := List.forall_mem_cons.mp most
      rw [List.foldl_cons]
      constructor
      · rcases List.mem_cons.mp mem with head | tail
        · rw [head]
          rcases among with h | h <;> simp [h]
        · exact List.mem_cons_of_mem _ (List.mem_cons_of_mem _ tail)
      · exact List.forall_mem_cons.mpr ⟨least.1.trans top,
          List.forall_mem_cons.mpr ⟨least.2.trans top, rest⟩⟩

/-- The placement is that of the pick, with the centre rounded. -/
structure Pick.ReadAs (c : Pick) (q : Placement Rat) : Prop where
  name : q.name = c.group.name
  x : q.x = BatchModel.snap c.x
  y : q.y = BatchModel.snap c.y
  size : c.group.dimension.choices[c.candidate]? = some q.size

theorem selected?_of_takes {choice : Choice Rat} {s : Size Rat}
    (selected : ∀ k v s, choice.sizes[k]? = some (v, s) →
      a.value v = if k = c.candidate then 1 else 0)
    {v : Nat} (hv : choice.sizes[c.candidate]? = some (v, s)) :
    BatchModel.selected? choice.sizes a = some s := by
  have candidate := List.mem_of_getElem? hv
  obtain ⟨b, sizes, hsizes⟩ := List.exists_cons_of_ne_nil (List.ne_nil_of_mem candidate)
  obtain ⟨mem, most⟩ := foldl_preferred_spec (a := a) b sizes
  rw [hsizes, selected?_cons]
  rw [← hsizes] at mem most
  -- no selector but that of the candidate reaches one
  obtain ⟨k, hk⟩ := List.getElem?_of_mem mem
  have reaches := most _ candidate
  rw [selected _ _ _ hv, if_pos rfl, selected _ _ _ hk] at reaches
  obtain rfl : k = c.candidate := by
    by_contra other
    rw [if_neg other] at reaches
    exact absurd reaches (by norm_num)
  rw [Option.some.inj (hk.symm.trans hv)]

theorem readPlacement_of_takes {geo : Geometry Rat} (name : geo.name = c.group.name)
    (takes : geo.Takes a c) (suits : c.Suits) :
    ∃ choice q, geo.choice = some choice ∧
      BatchModel.readPlacement a geo.name choice = .ok q ∧ c.ReadAs q := by
  obtain ⟨choice, hchoice, sizes, x, y, selected⟩ := takes
  obtain ⟨s, hs, wide, high⟩ := suits.size
  have candidate : ∃ v, choice.sizes[c.candidate]? = some (v, s) := by
    rw [← sizes, List.getElem?_map] at hs
    obtain ⟨⟨v, s'⟩, hv, rfl⟩ := Option.map_eq_some_iff.mp hs
    exact ⟨v, hv⟩
  obtain ⟨v, hv⟩ := candidate
  have positive : (s.width ≤ 0 || s.height ≤ 0) = false := by simp [wide, high]
  refine ⟨choice, ⟨geo.name, BatchModel.snap (a.value choice.x),
    BatchModel.snap (a.value choice.y), s⟩,
    hchoice, ?_, name, congrArg BatchModel.snap x, congrArg BatchModel.snap y, hs⟩
  simp only [BatchModel.readPlacement, selected?_of_takes selected hv, positive]
  rfl

theorem Pick.name_placed (c : Pick) : c.placed.name = c.group.name := by
  unfold placed
  split <;> rfl

theorem forall₂_and {β γ : Type} {R S : β → γ → Prop} {l : List β} {m : List γ}
    (hR : List.Forall₂ R l m) (hS : List.Forall₂ S l m) :
    List.Forall₂ (fun x y => R x y ∧ S x y) l m := by
  induction hR with
  | nil => exact .nil
  | cons head _ ih =>
      cases hS with
      | cons head' tail' => exact .cons ⟨head, head'⟩ (ih tail')

theorem mapM_readPlacement {geos : List (Geometry Rat)}
    (encoded : List.Forall₂ (fun geo c => geo.name = c.group.name ∧ geo.Takes a c) geos picks)
    (suits : ∀ c ∈ picks, c.Suits) :
    ∃ placements, (geos.filterMap fun g => g.choice.map fun c => (g.name, c)).mapM
        (fun (name, c) => BatchModel.readPlacement a name c) = .ok placements ∧
      List.Forall₂ Pick.ReadAs picks placements := by
  induction encoded with
  | nil => exact ⟨[], rfl, .nil⟩
  | cons head _ ih =>
      obtain ⟨suitsHead, suitsTail⟩ := List.forall_mem_cons.mp suits
      obtain ⟨choice, q, hchoice, read, readAs⟩ := readPlacement_of_takes head.1 head.2 suitsHead
      obtain ⟨placements, run, readAll⟩ := ih suitsTail
      refine ⟨q :: placements, ?_, .cons readAs readAll⟩
      rw [List.filterMap_cons_some (by rw [hchoice]; rfl), List.mapM_cons, run]
      simp [read, bind, Except.bind, pure, Except.pure]

/-- What an answer says of a batch: a size and a centre for every group of it, in a valid
arrangement. -/
structure Answered (p : Floorplan Rat) (batch : List String) (picks : List Pick) : Prop where
  found : List.Forall₂ (fun name c => p.groups.find? name = some c.group) batch picks
  suits : ∀ c ∈ picks, c.Suits
  arranged : Arranged p batch picks

theorem extract_eq {b : BatchModel Rat} (feasible : b.model.Feasible a) :
    b.extract a = (b.geometries.filterMap fun g => g.choice.map fun c => (g.name, c)).mapM
      fun (name, c) => BatchModel.readPlacement a name c := by
  unfold BatchModel.extract
  rw [(Model.feasible_iff.mp feasible).1]
  exact if_neg (by norm_num)

/-- An admitted answer is not refused: what is read from it are picks in a valid arrangement, with
their centres rounded. -/
theorem extract_of_feasible {built : BatchModel Rat}
    (run : BatchModel.build p batch traffic settings = .ok built)
    (feasible : built.model.Feasible a) :
    ∃ picks placements, Answered p batch picks ∧ built.extract a = .ok placements ∧
      List.Forall₂ Pick.ReadAs picks placements := by
  obtain ⟨free, groups, -⟩ := bind_eq_ok run
  obtain rfl := Except.ok.inj ((build_eq groups).symm.trans run)
  obtain ⟨picks, found, suits, lists⟩ := exists_picks groups (holdsAt_of_addParts feasible).1
  obtain ⟨_, geos, groups', added⟩ := added_foldlM (b := ⟨.empty, []⟩) found suits
  obtain rfl := Except.ok.inj (groups.symm.trans groups')
  have geometries : free.geometries = geos := added.geometries
  have encoded :
      List.Forall₂ (fun geo c => geo.name = c.group.name ∧ geo.Takes a c) geos picks := by
    have shown := List.forall₂_map_right_iff.mp (added.shown a lists)
    refine (forall₂_and shown ((added.takes a).mpr lists)).imp ?_
    rintro geo c ⟨shows, takes⟩
    exact ⟨shows.name.trans c.name_placed, takes⟩
  obtain ⟨placements, read, readAs⟩ := mapM_readPlacement encoded suits
  rw [geometries] at feasible
  refine ⟨picks, placements, ⟨found, suits, added.arranged_of_feasible lists feasible⟩, ?_, readAs⟩
  have placed : ((BatchModel.surroundings p batch).filterMap fun g =>
      g.choice.map fun c => (g.name, c)) = [] := by
    refine List.filterMap_eq_nil_iff.mpr fun geo h => ?_
    rw [mem_surroundings h]
    rfl
  rw [extract_eq (by rwa [geometries]), geometries, List.filterMap_append, placed,
    List.append_nil, read]

end HardwareLinker.Floorplan
