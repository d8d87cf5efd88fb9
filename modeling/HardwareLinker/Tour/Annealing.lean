import HardwareLinker.Floorplan.Basic
import HardwareLinker.Settings
import HardwareLinker.Tour.KeyStream

/-!
Closed tours over points, improved by reversing stretches under a falling temperature. Where the
draws come from is a parameter, so what holds of every tour does not depend on chance.
-/

namespace HardwareLinker.Tour

/-- A source of draws: numbers below a bound, and numbers from zero up to one. -/
structure Source (σ α : Type) where
  below : Nat → σ → Nat × σ
  unit : σ → α × σ

def keyStreamSource : Source KeyStream Binary64 := ⟨KeyStream.below, KeyStream.unit⟩

variable {α : Type} [Scalar α]

abbrev Point (α : Type) := α × α

def pointAt (points : Array (Point α)) (i : Nat) : Point α := points.getD i (0, 0)

def stepLength (p q : Point α) : α :=
  Scalar.sqrt (Scalar.square (q.1 - p.1) + Scalar.square (q.2 - p.2))

/-- The length of the closed tour that visits the points in the given order. -/
def length (points : Array (Point α)) (order : List Nat) : α :=
  if order.length < 2 then 0
  else
    (order.zip (order.tail ++ order.take 1)).foldl (fun total (i, j) =>
      total + stepLength (pointAt points i) (pointAt points j)) 0

/-- Turns the stretch between two positions around, both included. -/
def reverseBetween (i j : Nat) (order : List Nat) : List Nat :=
  order.take i ++ ((order.drop i).take (j + 1 - i)).reverse ++ order.drop (j + 1)

/-- A visiting order with its score, the negated length. -/
structure Scored (α : Type) where
  order : List Nat
  score : α

/-- Where the search stands. -/
structure State (σ α : Type) where
  order : List Nat
  length : α
  best : Scored α
  temperature : α
  source : σ

/-- A longer candidate is taken with a chance that falls with its excess. -/
def accepts {σ : Type} (src : Source σ α) (excess temperature : α) (s : σ) : Bool × σ :=
  if excess ≤ 0 then (true, s)
  else
    let (u, s) := src.unit s
    (u < Scalar.exp (-excess / temperature), s)

/-- The candidate order becomes the current one, and the best one if its score is higher. -/
def State.moveTo {σ : Type} (st : State σ α) (order : List Nat) (length : α) : State σ α :=
  { st with
    order, length
    best := if st.best.score < -length then ⟨order, -length⟩ else st.best }

/-- One evaluation: two positions are drawn and the stretch between them is turned around; if the
result is not accepted the stretch is turned back. -/
def step {σ : Type} (src : Source σ α) (points : Array (Point α)) (cooling : α) (st : State σ α) :
    State σ α :=
  let (a, s) := src.below points.size st.source
  let (b, s) := src.below points.size s
  let cooled := st.temperature * cooling
  if a = b then { st with source := s, temperature := cooled }
  else
    let turn := reverseBetween (Nat.min a b) (Nat.max a b)
    let order := turn st.order
    let length := length points order
    let (accepted, s) := accepts src (length - st.length) st.temperature s
    let st := { st with source := s, temperature := cooled }
    if accepted then st.moveTo order length else { st with order := turn order }

def steps {σ : Type} (src : Source σ α) (points : Array (Point α)) (cooling : α) :
    Nat → State σ α → State σ α
  | 0, st => st
  | n + 1, st => steps src points cooling n (step src points cooling st)

/-- The best tour seen. Fewer than four points are left in their order. -/
def anneal {σ : Type} (src : Source σ α) (source : σ) (points : Array (Point α))
    (settings : TourSettings α) : Scored α :=
  let order := List.range points.size
  let start := length points order
  let best : Scored α := ⟨order, -start⟩
  if points.size < 4 then best
  else
    (steps src points settings.cooling settings.maxEvaluations
      { order, length := start, best, temperature := settings.initialTemperature, source }).best

/-- The groups with a centre, in tour order. -/
def groupOrder {σ : Type} (src : Source σ α) (source : σ) (p : Floorplan α)
    (settings : TourSettings α) : List String :=
  let located := p.groups.values.filterMap fun g => g.centre?.map fun c => (g.name, c)
  let tour := anneal src source (located.map Prod.snd).toArray settings
  tour.order.filterMap fun i => (located[i]?).map Prod.fst

def ofPoints (points : Array (Point Binary64)) (settings : TourSettings Binary64) :
    Scored Binary64 :=
  anneal keyStreamSource (KeyStream.ofSeed settings.seed.toUInt64) points settings

def ofGroups (p : Floorplan Binary64) (settings : TourSettings Binary64) : List String :=
  groupOrder keyStreamSource (KeyStream.ofSeed settings.seed.toUInt64) p settings

end HardwareLinker.Tour
