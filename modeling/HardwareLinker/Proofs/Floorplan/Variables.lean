import Mathlib.Data.List.Nodup
import HardwareLinker.Proofs.Floorplan.Labels

/-!
Variables in the rows of a batch. The expressions of one group along one axis share no variable, nor
do those of two groups, and a part's own variables lie behind all others; so no row mentions a
variable twice, and every variable that is mentioned is there by then.
-/

namespace HardwareLinker

/-- Different positions below a bound. -/
structure DistinctBelow (n : Nat) (l : List Nat) : Prop where
  distinct : l.Nodup
  below : ∀ v ∈ l, v < n

namespace DistinctBelow

variable {n m : Nat} {l l' : List Nat}

theorem mono (h : DistinctBelow n l) (le : n ≤ m) : DistinctBelow m l :=
  ⟨h.distinct, fun v hv => Nat.lt_of_lt_of_le (h.below v hv) le⟩

theorem sublist (h : DistinctBelow n l) (sub : l'.Sublist l) : DistinctBelow n l' :=
  ⟨h.distinct.sublist sub, fun v hv => h.below v (sub.subset hv)⟩

theorem perm (h : DistinctBelow n l) (p : l.Perm l') : DistinctBelow n l' :=
  ⟨p.nodup_iff.mp h.distinct, fun v hv => h.below v (p.mem_iff.mpr hv)⟩

theorem concat (h : DistinctBelow n l) (le : n ≤ m) : DistinctBelow (m + 1) (l ++ [m]) := by
  refine ⟨h.distinct.append (List.nodup_singleton m) fun v hv hm => ?_, fun v hv => ?_⟩
  · have := h.below v hv
    cases List.mem_singleton.mp hm
    omega
  · rcases List.mem_append.mp hv with hv | hv
    · have := h.below v hv
      omega
    · cases List.mem_singleton.mp hv
      omega

end DistinctBelow

namespace Milp

variable {α : Type}

/-- Rows and objective only mention variables of the model, a row each of them once. -/
structure Model.Closed (m : Model α) : Prop where
  rows : ∀ r ∈ m.rows, DistinctBelow m.vars.size (r.terms.map Prod.fst)
  objective : ∀ t ∈ m.objective, t.1 < m.vars.size

end Milp

namespace Floorplan

open Milp

variable {α : Type}

/-! ### Expressions -/

namespace Linear

def vars (l : Linear α) : List Nat := l.terms.map Prod.fst

variable {l m : Linear α} {k : α} {v : Nat}

@[simp] theorem vars_ofConstant (c : α) : (ofConstant c).vars = [] := rfl

@[simp] theorem vars_plusVariable : (l.plusVariable k v).vars = l.vars ++ [v] := by
  simp [vars, plusVariable]

variable [Scalar α]

@[simp] theorem vars_ofVariable (v : Nat) : (ofVariable v : Linear α).vars = [v] := rfl

@[simp] theorem vars_plus : (l.plus k m).vars = l.vars ++ m.vars := by
  simp [vars, plus, Function.comp_def]

@[simp] theorem map_fst_row (name : String) (sense : Sense) (bound : α) :
    (l.row name sense bound).terms.map Prod.fst = l.vars := rfl

end Linear

@[simp] theorem vars_halfExtent [Scalar α] (extent : Size α → α) (sizes : List (Nat × Size α)) :
    (halfExtent extent sizes).vars = sizes.map Prod.fst := by
  have add (l : Linear α) :
      (sizes.foldl (fun l e => l.plusVariable (extent e.2 / 2.0) e.1) l).vars =
        l.vars ++ sizes.map Prod.fst := by
    induction sizes generalizing l with
    | nil => simp
    | cons e sizes ih => simp [ih]
  exact add _

/-! ### Groups -/

namespace Geometry

/-- The variables along the horizontal axis. -/
def across (g : Geometry α) : List Nat := g.centreX.vars ++ g.halfWidth.vars

/-- The variables along the vertical axis. -/
def upward (g : Geometry α) : List Nat := g.centreY.vars ++ g.halfHeight.vars

/-- Along each axis the expressions use different variables, and only those between two
positions. -/
structure Drawn (g : Geometry α) (first next : Nat) : Prop where
  across : DistinctBelow next g.across
  upward : DistinctBelow next g.upward
  after : ∀ v ∈ g.across ++ g.upward, first ≤ v

/-- Along each axis two groups together use different variables below a bound. -/
structure Apart (g h : Geometry α) (n : Nat) : Prop where
  across : DistinctBelow n (g.across ++ h.across)
  upward : DistinctBelow n (g.upward ++ h.upward)

variable {g h : Geometry α} {first next next' n m : Nat}

theorem Drawn.disjoint (d : g.Drawn first next) (e : h.Drawn next next') :
    (g.across ++ g.upward).Disjoint (h.across ++ h.upward) := by
  intro v hv hv'
  have before : v < next := (List.mem_append.mp hv).elim (d.across.below v) (d.upward.below v)
  have := e.after v hv'
  omega

theorem apart_of_disjoint {first' : Nat} (d : g.Drawn first n) (e : h.Drawn first' n)
    (disjoint : (g.across ++ g.upward).Disjoint (h.across ++ h.upward)) : g.Apart h n where
  across := ⟨d.across.distinct.append e.across.distinct fun _ hv hv' =>
      disjoint (List.mem_append_left _ hv) (List.mem_append_left _ hv'),
    List.forall_mem_append.mpr ⟨d.across.below, e.across.below⟩⟩
  upward := ⟨d.upward.distinct.append e.upward.distinct fun _ hv hv' =>
      disjoint (List.mem_append_right _ hv) (List.mem_append_right _ hv'),
    List.forall_mem_append.mpr ⟨d.upward.below, e.upward.below⟩⟩

theorem Drawn.mono (d : g.Drawn first n) (le : n ≤ m) : g.Drawn first m :=
  ⟨d.across.mono le, d.upward.mono le, d.after⟩

theorem Apart.symm (a : g.Apart h n) : h.Apart g n :=
  ⟨a.across.perm List.perm_append_comm, a.upward.perm List.perm_append_comm⟩

theorem Apart.mono (a : g.Apart h n) (le : n ≤ m) : g.Apart h m :=
  ⟨a.across.mono le, a.upward.mono le⟩

end Geometry

/-- A placed group has no variables. -/
theorem placedGroup?_vars [Scalar α] {g : AreaGroup α} {geo : Geometry α}
    (h : placedGroup? g = some geo) : geo.across = [] ∧ geo.upward = [] := by
  simp only [placedGroup?, Option.bind_eq_bind, Option.bind_eq_some_iff, Option.pure_def,
    Option.some.injEq] at h
  obtain ⟨-, -, -, -, rfl⟩ := h
  exact ⟨rfl, rfl⟩

/-! ### Parts -/

namespace Block

/-- A part whose own variables begin at a position only mentions those and earlier ones. -/
structure ClosedAt (b : Block α) (first : Nat) : Prop where
  rows : ∀ r ∈ b.rows, DistinctBelow (first + b.vars.length) (r.terms.map Prod.fst)
  objective : ∀ t ∈ b.objective, t.1 < first + b.vars.length

variable {b c : Block α} {first : Nat}

theorem ClosedAt.append (hb : b.ClosedAt first) (hc : c.ClosedAt (first + b.vars.length)) :
    (b.append c).ClosedAt first := by
  have size : first + (b.append c).vars.length = first + b.vars.length + c.vars.length := by
    simp [Block.append, Nat.add_assoc]
  constructor
  · rw [size]
    exact List.forall_mem_append.mpr
      ⟨fun r hr => (hb.rows r hr).mono (Nat.le_add_right _ _), hc.rows⟩
  · rw [size]
    exact List.forall_mem_append.mpr
      ⟨fun t ht => Nat.lt_of_lt_of_le (hb.objective t ht) (Nat.le_add_right _ _), hc.objective⟩

end Block

variable [Scalar α]

theorem closed_addBlock {m : Model α} {b : Block α} (hm : m.Closed) (hb : b.ClosedAt m.vars.size) :
    (addBlock m b).Closed := by
  constructor
  · rw [size_addBlock]
    exact List.forall_mem_append.mpr
      ⟨fun r hr => (hm.rows r hr).mono (Nat.le_add_right _ _), hb.rows⟩
  · rw [size_addBlock]
    exact List.forall_mem_append.mpr
      ⟨fun t ht => Nat.lt_of_lt_of_le (hm.objective t ht) (Nat.le_add_right _ _), hb.objective⟩

section Group

variable (chip : Size α) (i first : Nat) (g : AreaGroup α)

omit [Scalar α] in
theorem map_fst_selectors :
    (selectors first g).map Prod.fst = List.range' first g.dimension.choices.length := by
  have positions : (g.dimension.choices.zipIdx.map Prod.snd).map (first + ·) =
      List.range' first g.dimension.choices.length := by
    rw [List.zipIdx_map_snd, List.map_add_range', Nat.add_zero]
  rw [← positions, selectors, List.map_map, List.map_map]
  rfl

theorem length_freeGroup :
    (freeGroup chip i first g).2.vars.length = g.dimension.choices.length + 2 := by
  simp [freeGroup_vars]

/-- Behind the variables that select a size lies the one of the centre. -/
theorem freeGroup_axes :
    (freeGroup chip i first g).1.across =
      (first + g.dimension.choices.length) :: List.range' first g.dimension.choices.length ∧
    (freeGroup chip i first g).1.upward =
      (first + g.dimension.choices.length + 1) :: List.range' first g.dimension.choices.length := by
  have half (extent : Size α → α) : (halfExtent extent (selectors first g)).vars =
      List.range' first g.dimension.choices.length := by
    rw [vars_halfExtent, map_fst_selectors]
  exact ⟨congrArg _ (half (·.width)), congrArg _ (half (·.height))⟩

theorem freeGroup_drawn :
    (freeGroup chip i first g).1.Drawn first (first + (g.dimension.choices.length + 2)) := by
  obtain ⟨across, upward⟩ := freeGroup_axes chip i first g
  have sizes : DistinctBelow (first + g.dimension.choices.length)
      (List.range' first g.dimension.choices.length) := by
    refine ⟨List.nodup_range', fun v hv => ?_⟩
    simp only [List.mem_range'_1] at hv
    exact hv.2
  have axis {n : Nat} (le : first + g.dimension.choices.length ≤ n)
      (lt : n < first + (g.dimension.choices.length + 2)) :
      DistinctBelow (first + (g.dimension.choices.length + 2))
        (n :: List.range' first g.dimension.choices.length) :=
    ((sizes.concat le).perm List.perm_append_comm).mono lt
  refine ⟨across ▸ axis (Nat.le_refl _) (by omega), upward ▸ axis (Nat.le_succ _) (by omega), ?_⟩
  rw [across, upward]
  intro v hv
  simp only [List.mem_append, List.mem_cons, List.mem_range'_1] at hv
  omega

theorem freeGroup_closedAt : (freeGroup chip i first g).2.ClosedAt first := by
  have drawn := freeGroup_drawn chip i first g
  refine ⟨?_, nofun⟩
  have pick : DistinctBelow (first + (g.dimension.choices.length + 2))
      (((selectors first g).map fun e => (e.1, (1 : α))).map Prod.fst) := by
    have axes := freeGroup_axes chip i first g
    rw [List.map_map, show Prod.fst ∘ (fun e : Nat × Size α => (e.1, (1 : α))) = Prod.fst from rfl,
      map_fst_selectors]
    exact drawn.across.sublist (axes.1 ▸ List.sublist_cons_self _ _)
  rw [length_freeGroup, freeGroup_rows]
  simp only [List.forall_mem_cons, List.not_mem_nil, false_imp_iff, implies_true, and_true,
    Linear.map_fst_row, Linear.vars_plus]
  exact ⟨pick, drawn.across, drawn.across, drawn.upward, drawn.upward⟩

end Group

section Pair

variable {a b parent child : Geometry α} {far weight : α} {tag : String} {first : Nat}

theorem containChild_closedAt (apart : child.Apart parent first) :
    (containChild tag parent child).ClosedAt first := by
  refine ⟨?_, nofun⟩
  simp only [containChild, List.forall_mem_cons, List.not_mem_nil, false_imp_iff, implies_true,
    and_true, Linear.map_fst_row, Linear.vars_plus, List.append_assoc]
  have across := apart.across
  have upward := apart.upward
  simp only [Geometry.across, Geometry.upward, List.append_assoc] at across upward
  exact ⟨across, across, upward, upward⟩

theorem vars_reach {centre half centre' half' : Linear α} :
    (reach centre half centre' half').vars =
      (centre.vars ++ half.vars) ++ (centre'.vars ++ half'.vars) := by
  simp [reach]

theorem separate_closedAt (apart : a.Apart b first) :
    (separate tag first a b far).ClosedAt first := by
  refine ⟨?_, nofun⟩
  have named {l : List Nat} (h : DistinctBelow first l) :
      DistinctBelow (first + 2) (l ++ [first] ++ [first + 1]) :=
    (h.concat (Nat.le_refl _)).concat (Nat.le_refl _)
  simp only [separate, List.forall_mem_cons, List.not_mem_nil, false_imp_iff, implies_true,
    and_true, Linear.map_fst_row, Linear.vars_plusVariable, vars_reach]
  exact ⟨named apart.across, named apart.symm.across, named apart.upward, named apart.symm.upward⟩

theorem distance_closedAt (apart : a.Apart b first) :
    (distance tag first a b weight far).ClosedAt first := by
  have centres {c h c' h' : List Nat} (axis : DistinctBelow first ((c ++ h) ++ (c' ++ h')))
      {n : Nat} (le : first ≤ n) (lt : n < first + 2) :
      DistinctBelow (first + 2) ([n] ++ (c ++ c')) := by
    have both : (c ++ c').Sublist ((c ++ h) ++ (c' ++ h')) :=
      (List.sublist_append_left c h).append (List.sublist_append_left c' h')
    exact (((axis.sublist both).concat le).perm List.perm_append_comm).mono lt
  constructor
  · simp only [distance, List.forall_mem_cons, List.not_mem_nil, false_imp_iff, implies_true,
      and_true, Linear.map_fst_row, Linear.vars_plus, Linear.vars_ofVariable]
    have x := centres apart.across (Nat.le_refl first) (by omega)
    have y := centres apart.upward (Nat.le_succ first) (by omega)
    exact ⟨x, x, y, y⟩
  · simp [distance]

theorem relate_closedAt (far : α) (traffic : TrafficTable α) (settings : PlacementSettings α)
    {a b : Geometry α × Nat} (apart : a.1.Apart b.1 first) :
    (relate far traffic settings first a b).ClosedAt first := by
  rcases relate_cases far traffic settings first a b with none | ⟨block, kind, shape⟩
  · rw [none]
    exact ⟨nofun, nofun⟩
  have closed : block.ClosedAt first := by
    rcases kind with rfl | rfl | rfl
    · exact containChild_closedAt apart
    · exact containChild_closedAt apart.symm
    · exact separate_closedAt apart
  rcases shape with shape | ⟨weight, shape⟩
  · rwa [shape]
  · rw [shape]
    exact closed.append (distance_closedAt (apart.mono (Nat.le_add_right _ _)))

end Pair

end Floorplan
end HardwareLinker
