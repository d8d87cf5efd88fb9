import HardwareLinker.Proofs.Binary64.Order
import HardwareLinker.Proofs.Floorplan.Keyed
import HardwareLinker.Proofs.Tour.Permutation

/-!
The tour that a search returns is no longer than any it has gone through. An evaluation leaves the
current order as it was or moves to the turned one, so that the stored length and score stay those
of the stored orders; where lengths are ordered, the best order then stays at least as short as the
current one. Lengths of tours through finite points are sums of roots of squares, which are ordered
also over binary64.
-/

namespace HardwareLinker.Tour

variable {α σ : Type} [Scalar α] {src : Source σ α} {points : Array (Point α)} {cooling : α}
  {st st' : State σ α}

/-! ### One evaluation -/

/-- The stored length is that of the current order, the stored score that of the best one. -/
structure State.Scores (points : Array (Point α)) (st : State σ α) : Prop where
  current : st.length = Tour.length points st.order
  best : st.best.score = -Tour.length points st.best.order

theorem State.Scores.evaluates (scores : st.Scores points) (evaluates : Evaluates points st st') :
    st'.Scores points := by
  cases evaluates with
  | kept => exact ⟨scores.current, scores.best⟩
  | moved =>
      refine ⟨rfl, ?_⟩
      unfold State.moveTo
      dsimp only
      split
      · rfl
      · exact scores.best

/-- Lengths of tours through the points are ordered, and negation turns the order around. -/
structure Comparable (points : Array (Point α)) : Prop where
  total : ∀ a b, length points a ≤ length points b ∨ length points b ≤ length points a
  trans : ∀ {a b c}, length points a ≤ length points b → length points b ≤ length points c →
    length points a ≤ length points c
  neg_lt_neg : ∀ {a b}, -length points a < -length points b ↔ ¬ length points a ≤ length points b

theorem Comparable.refl (comparable : Comparable points) (a : List Nat) :
    length points a ≤ length points a :=
  (comparable.total a a).elim id id

/-- The best order is at least as short as the current one. -/
structure State.Leads (points : Array (Point α)) (st : State σ α) :
    Prop extends st.Scores points where
  leads : Tour.length points st.best.order ≤ Tour.length points st.order

/-- A candidate becomes the best order only where the best order is not at least as short. -/
theorem best_le_moveTo (comparable : Comparable points) (scores : st.Scores points)
    (order : List Nat) :
    length points (st.moveTo order (length points order)).best.order ≤
        length points st.best.order ∧
      length points (st.moveTo order (length points order)).best.order ≤ length points order := by
  unfold State.moveTo
  dsimp only
  rw [scores.best]
  split
  · next higher =>
    exact ⟨(comparable.total _ _).resolve_left (comparable.neg_lt_neg.mp higher), comparable.refl _⟩
  · next lower => exact ⟨comparable.refl _, not_not.mp (mt comparable.neg_lt_neg.mpr lower)⟩

theorem State.Leads.evaluates (comparable : Comparable points) (leads : st.Leads points)
    (evaluates : Evaluates points st st') :
    st'.Leads points ∧ Tour.length points st'.best.order ≤ Tour.length points st.best.order := by
  have scores := leads.toScores.evaluates evaluates
  cases evaluates with
  | kept => exact ⟨⟨scores, leads.leads⟩, comparable.refl _⟩
  | moved =>
      obtain ⟨shorter, first⟩ := best_le_moveTo comparable ⟨leads.current, leads.best⟩ _
      exact ⟨⟨scores, first⟩, shorter⟩

/-! ### The search -/

/-- The best order only ever gets shorter. -/
theorem State.Leads.steps (comparable : Comparable points) (leads : st.Leads points) (n : Nat) :
    (Tour.steps src points cooling n st).Leads points ∧ Tour.length points
      (Tour.steps src points cooling n st).best.order ≤ Tour.length points st.best.order := by
  refine steps_of_evaluates (P := fun later => later.Leads points ∧
    Tour.length points later.best.order ≤ Tour.length points st.best.order) ?_ n
    ⟨leads, comparable.refl _⟩
  rintro now next ⟨leads, shorter⟩ evaluates
  obtain ⟨kept, shortest⟩ := leads.evaluates comparable evaluates
  exact ⟨kept, comparable.trans shortest shorter⟩

theorem steps_add (m n : Nat) (st : State σ α) :
    steps src points cooling (m + n) st =
      steps src points cooling n (steps src points cooling m st) := by
  induction m generalizing st with
  | zero => rw [Nat.zero_add]; rfl
  | succ m ih => rw [Nat.succ_add]; exact ih _

/-- The best order after a run is at least as short as what is current in its course. -/
theorem State.Leads.best_le (comparable : Comparable points) (leads : st.Leads points) {k n : Nat}
    (h : k ≤ n) : Tour.length points (Tour.steps src points cooling n st).best.order ≤
      Tour.length points (Tour.steps src points cooling k st).order := by
  obtain ⟨m, rfl⟩ := Nat.exists_eq_add_of_le h
  have ahead : (Tour.steps src points cooling k st).Leads points := (leads.steps comparable k).1
  rw [steps_add]
  exact comparable.trans (ahead.steps comparable m).2 ahead.leads

/-- Where a search starts: with the order that the points are listed in. -/
def State.start (source : σ) (points : Array (Point α)) (settings : TourSettings α) :
    State σ α where
  order := List.range points.size
  length := Tour.length points (List.range points.size)
  best := ⟨List.range points.size, -Tour.length points (List.range points.size)⟩
  temperature := settings.initialTemperature
  source

/-- How many evaluations a search makes. -/
def evaluations (points : Array (Point α)) (settings : TourSettings α) : Nat :=
  if points.size < 4 then 0 else settings.maxEvaluations

/-- The tours that a search goes through: the order that the points are listed in, and what is
current after each evaluation, which is the candidate where that has been accepted. -/
def toursOf (src : Source σ α) (source : σ) (points : Array (Point α)) (settings : TourSettings α) :
    List (List Nat) :=
  (List.range (evaluations points settings + 1)).map fun k =>
    (steps src points settings.cooling k (.start source points settings)).order

theorem range_mem_toursOf (src : Source σ α) (source : σ) (points : Array (Point α))
    (settings : TourSettings α) : List.range points.size ∈ toursOf src source points settings :=
  List.mem_map.mpr ⟨0, List.mem_range.mpr (Nat.succ_pos _), rfl⟩

theorem anneal_eq (src : Source σ α) (source : σ) (points : Array (Point α))
    (settings : TourSettings α) :
    anneal src source points settings =
      (steps src points settings.cooling (evaluations points settings)
        (.start source points settings)).best := by
  unfold anneal evaluations
  split
  · rfl
  · rfl

theorem State.scores_start (source : σ) (points : Array (Point α)) (settings : TourSettings α) :
    (State.start source points settings).Scores points :=
  ⟨rfl, rfl⟩

theorem anneal_score (src : Source σ α) (source : σ) (points : Array (Point α))
    (settings : TourSettings α) : (anneal src source points settings).score =
      -length points (anneal src source points settings).order := by
  rw [anneal_eq]
  exact (steps_of_evaluates State.Scores.evaluates _ (State.scores_start ..)).best

theorem anneal_le (comparable : Comparable points) (src : Source σ α) (source : σ)
    (settings : TourSettings α) : ∀ order ∈ toursOf src source points settings,
      length points (anneal src source points settings).order ≤ length points order := by
  intro order current
  obtain ⟨k, inside, rfl⟩ := List.mem_map.mp current
  have leads : (State.start source points settings).Leads points :=
    ⟨State.scores_start .., comparable.refl _⟩
  rw [anneal_eq]
  exact leads.best_le comparable (Nat.le_of_lt_succ (List.mem_range.mp inside))

/-! ### Lengths over binary64 -/

/-- Neither coordinate is infinite or no number. -/
def Point.IsFinite (p : Point Binary64) : Prop := p.1.isFinite = true ∧ p.2.isFinite = true

instance (p : Point Binary64) : Decidable p.IsFinite :=
  inferInstanceAs (Decidable (p.1.isFinite = true ∧ p.2.isFinite = true))

theorem isFinite_pointAt {points : Array (Point Binary64)} (finite : ∀ p ∈ points, Point.IsFinite p)
    (i : Nat) : Point.IsFinite (pointAt points i) := by
  unfold pointAt
  rw [Array.getD_eq_getD_getElem?]
  cases listed : points[i]? with
  | none => exact ⟨by decide, by decide⟩
  | some p => exact finite p (Array.mem_of_getElem? listed)

open Binary64 Float.Model in
theorem signed_stepLength {p q : Point Binary64} (hp : p.IsFinite) (hq : q.IsFinite) :
    Signed .positive (stepLength p q).parts :=
  signed_sqrt (signed_add (signed_square (isNaN_sub (isNaN_of_isFinite hq.1) hp.1))
    (signed_square (isNaN_sub (isNaN_of_isFinite hq.2) hp.2)))

open Binary64 Float.Model in
theorem signed_length {points : Array (Point Binary64)} (finite : ∀ p ∈ points, Point.IsFinite p)
    (order : List Nat) : Signed .positive (length points order).parts := by
  have none : Signed .positive (0 : Binary64).parts := .zero
  unfold length
  split
  · exact none
  · refine List.foldlRecOn
      (motive := fun total : Binary64 => Signed .positive total.parts) _ _ none ?_
    intro total positive _ _
    exact signed_add positive (signed_stepLength (isFinite_pointAt finite _)
      (isFinite_pointAt finite _))

theorem comparable_of_finite {points : Array (Point Binary64)}
    (finite : ∀ p ∈ points, Point.IsFinite p) : Comparable points := by
  have number (order : List Nat) : (length points order).isNaN = false :=
    Binary64.not_isNaN_of_signed (signed_length finite order)
  exact
    { total := fun a b => Binary64.le_total (number a) (number b)
      trans := Binary64.le_trans (number _) (number _) (number _)
      neg_lt_neg := Binary64.neg_lt_neg (number _) (number _) }

/-! ### What a search returns -/

theorem groupOrder_nodup {p : Floorplan α} (keyed : p.Keyed) (src : Source σ α) (source : σ)
    (settings : TourSettings α) : (groupOrder src source p settings).Nodup := by
  have all : (p.groups.values.map (·.name)).Nodup := keyed.values_name ▸ p.groups.keys_nodup
  rw [(groupOrder_perm src source p settings).nodup_iff]
  exact all.sublist (List.filter_sublist.map _)

/-- **A search returns a tour no longer than any it has gone through.** Whatever is drawn, the tour
through finite points visits each of them once, its score is its negated length, and neither the
listed order nor any tour that the search accepts is shorter. Of the groups of a plan each that has
a centre is listed once. -/
theorem anneal_noLonger {σ : Type} (src : Source σ Binary64) (source : σ)
    (settings : TourSettings Binary64) :
    (∀ points : Array (Point Binary64), (∀ p ∈ points, Point.IsFinite p) →
      (anneal src source points settings).order.Perm (List.range points.size) ∧
      (anneal src source points settings).score =
        -length points (anneal src source points settings).order ∧
      length points (anneal src source points settings).order ≤
        length points (List.range points.size) ∧
      ∀ order ∈ toursOf src source points settings,
        length points (anneal src source points settings).order ≤ length points order) ∧
    ∀ p : Floorplan Binary64,
      (groupOrder src source p settings).Perm
        ((p.groups.values.filter (·.centre?.isSome)).map (·.name)) ∧
      (p.Keyed → (groupOrder src source p settings).Nodup) := by
  refine ⟨fun points finite => ?_, fun p =>
    ⟨groupOrder_perm .., fun keyed => groupOrder_nodup keyed src source settings⟩⟩
  have noLonger := anneal_le (comparable_of_finite finite) src source settings
  exact ⟨anneal_perm .., anneal_score .., noLonger _ (range_mem_toursOf ..), noLonger⟩

/-- The corners of a square, in an order that crosses itself. -/
def corners : List (Point Binary64) := [(0, 0), (1, 1), (1, 0), (0, 1)]

/-- A group at each corner. -/
def cornerPlan : Floorplan Binary64 :=
  .ofGroups (.ofList ((["a", "b", "c", "d"].zip corners).map fun (name, x, y) =>
    (name, { name, area := 1, x := some x, y := some y })))

/-- Draws that are set out beforehand. -/
def dealt : Source (List Nat) Binary64 := ⟨fun n s => (s.headD 0 % n, s.tail), fun s => (0, s)⟩

/-- One turn takes the crossing out. -/
theorem corners_noLonger :
    (∀ p ∈ corners.toArray, Point.IsFinite p) ∧ cornerPlan.Keyed ∧
    (anneal dealt [1, 2] corners.toArray { maxEvaluations := 1 }).order = [0, 2, 1, 3] ∧
    [0, 2, 1, 3].Perm (List.range 4) ∧
    length corners.toArray [0, 2, 1, 3] ≤ length corners.toArray [0, 1, 2, 3] ∧
    groupOrder dealt [1, 2] cornerPlan { maxEvaluations := 1 } = ["a", "c", "b", "d"] ∧
    (groupOrder dealt [1, 2] cornerPlan { maxEvaluations := 1 }).Nodup := by
  have finite : ∀ p ∈ corners.toArray, Point.IsFinite p := by decide +kernel
  have keyed : cornerPlan.Keyed := by decide +kernel
  have order :
      (anneal dealt [1, 2] corners.toArray { maxEvaluations := 1 }).order = [0, 2, 1, 3] := by
    decide +kernel
  obtain ⟨tours, groups⟩ := anneal_noLonger dealt [1, 2] { maxEvaluations := 1 }
  obtain ⟨perm, -, shorter, -⟩ := tours corners.toArray finite
  rw [order] at perm shorter
  exact ⟨finite, keyed, order, perm, shorter, by decide +kernel, (groups cornerPlan).2 keyed⟩

end HardwareLinker.Tour
