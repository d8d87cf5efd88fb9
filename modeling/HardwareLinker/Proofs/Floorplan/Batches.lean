import HardwareLinker.Proofs.Floorplan.Settled

/-!
Runs of batches whose solver answers only what the model admits. Such a run stops early only where a
model is not built or the solver gives no answer: what is read from an answer is never refused, and
the plan at the end passes the final check, although every batch sees the ones before with their
centres rounded.
-/

namespace HardwareLinker.Floorplan

open Milp

/-- The placed groups alone. -/
def placedPart {α : Type} [Scalar α] (p : Floorplan α) : Floorplan α :=
  { p with groups := p.groups.filter fun _ g => g.isPlaced }

/-- Every answer of the solver is admitted by its model. -/
def Run.Exact (r : Run Rat) : Prop :=
  ∀ asked m a, r.solver asked m = .ok a → m.Feasible a

/-- The batches end without a plan, because a model is not built or the solver gives no answer. -/
inductive Run.GivesUp {α : Type} [Scalar α] (r : Run α) :
    Floorplan α → List (List String) → List (Model α) → Fault α → Prop where
  | unbuilt {p batch rest asked f}
      (build : BatchModel.build p batch r.traffic r.settings = .error f) :
      GivesUp r p (batch :: rest) asked f
  | unanswered {p batch rest asked built failure}
      (build : BatchModel.build p batch r.traffic r.settings = .ok built)
      (solver : r.solver asked.length built.model = .error failure) :
      GivesUp r p (batch :: rest) asked (.solver failure)
  | later {p q batch rest asked asked' f} (placed : r.placeBatch p batch asked = (.ok q, asked'))
      (tail : GivesUp r q rest asked' f) : GivesUp r p (batch :: rest) asked f

/-! ### The order of the batches -/

theorem flatten_chunks {β : Type} (size : Nat) (l : List β) : (chunks size l).flatten = l := by
  induction l using chunks.induct size with
  | case1 => simp [chunks]
  | case2 x rest ih => simp [chunks, ih]

variable {p q : Floorplan Rat} {picks : List Pick} {batch : List String}
  {batches : List (List String)} {r : Run Rat} {asked : List (Model Rat)}

theorem mem_solveOrder {α : Type} [Scalar α] {p : Floorplan α} {name : String} :
    name ∈ solveOrder p ↔ ∃ g ∈ p.groups.values, g.isPlaced = false ∧ g.name = name := by
  simp [solveOrder, and_assoc]

theorem Keyed.solveOrder_nodup (keyed : p.Keyed) : (solveOrder p).Nodup := by
  have sorted := List.mergeSort_perm (p.groups.values.filter (!·.isPlaced)) solvesBefore
  have filtered : ((p.groups.values.filter (!·.isPlaced)).map (·.name)).Sublist p.groups.keys :=
    keyed.values_name ▸ List.filter_sublist.map _
  exact (sorted.map _).nodup_iff.mpr (filtered.nodup p.groups.keys_nodup)

theorem Keyed.awaits_chunks (keyed : p.Keyed) (size : Nat) :
    Awaits p [] (chunks size (solveOrder p)).flatten where
  distinct := (flatten_chunks size (solveOrder p)).symm ▸ keyed.solveOrder_nodup
  fresh := by simp
  free := by
    intro name hname g found
    rw [flatten_chunks] at hname
    obtain ⟨h, hh, unplaced, rfl⟩ := mem_solveOrder.mp hname
    obtain rfl := Option.some.inj ((keyed.find? hh).symm.trans found)
    exact unplaced

/-! ### One batch -/

/-- A batch gets picks that keep the plan settled, or the run gives up. -/
theorem placeBatch_settled (exact : r.Exact) (keyed : p.Keyed) (settled : Settled p picks)
    (awaits : Awaits p picks batch) :
    (∃ more asked', more.map (·.group.name) = batch ∧ Settled p (picks ++ more) ∧
      r.placeBatch (p.withPicks picks) batch asked = (.ok (p.withPicks (picks ++ more)), asked')) ∨
    ∃ f asked', r.placeBatch (p.withPicks picks) batch asked = (.error f, asked') ∧
      ∀ rest, r.GivesUp (p.withPicks picks) (batch :: rest) asked f := by
  unfold Run.placeBatch
  cases build : BatchModel.build (p.withPicks picks) batch r.traffic r.settings with
  | error f => exact .inr ⟨f, asked, rfl, fun _ => .unbuilt build⟩
  | ok built =>
      cases answer : r.solver asked.length built.model with
      | error failure =>
          exact .inr ⟨_, asked ++ [built.model], by simp only [answer],
            fun _ => .unanswered build answer⟩
      | ok a =>
          obtain ⟨more, placements, answered, read, readAs⟩ :=
            extract_of_feasible build (exact _ _ _ answer)
          have after := settled.append keyed awaits answered
          obtain ⟨names, found⟩ := answered.names keyed awaits
          have placed := placeAll_withPicks found after.distinct readAs
          refine .inl ⟨more, asked ++ [built.model], names, after, ?_⟩
          simp only [answer, read, Except.map, placed]

/-! ### All batches -/

theorem Awaits.front {rest : List String} (awaits : Awaits p picks (batch ++ rest)) :
    Awaits p picks batch where
  distinct := (List.nodup_append'.mp awaits.distinct).1
  fresh name h := awaits.fresh name (List.mem_append_left _ h)
  free name h := awaits.free name (List.mem_append_left _ h)

theorem Awaits.rest {rest : List String} {more : List Pick}
    (awaits : Awaits p picks (batch ++ rest)) (names : more.map (·.group.name) = batch) :
    Awaits p (picks ++ more) rest where
  distinct := (List.nodup_append'.mp awaits.distinct).2.1
  fresh name h := by
    rw [List.map_append, names, List.mem_append, not_or]
    refine ⟨awaits.fresh name (List.mem_append_right _ h), fun before => ?_⟩
    exact (List.nodup_append'.mp awaits.distinct).2.2 before h
  free name h := awaits.free name (List.mem_append_right _ h)

/-- All batches get picks that keep the plan settled, and the final check follows, or the run gives
up. -/
theorem placeBatches_settled (exact : r.Exact) (keyed : p.Keyed) (settled : Settled p picks)
    (awaits : Awaits p picks batches.flatten) (asked : List (Model Rat)) :
    (∃ more, more.map (·.group.name) = batches.flatten ∧ Settled p (picks ++ more) ∧
      (r.placeBatches (p.withPicks picks) batches asked).1 =
        (verify (p.withPicks (picks ++ more))).map fun _ => p.withPicks (picks ++ more)) ∨
    ∃ f, (r.placeBatches (p.withPicks picks) batches asked).1 = .error f ∧
      r.GivesUp (p.withPicks picks) batches asked f := by
  induction batches generalizing picks asked with
  | nil => exact .inl ⟨[], rfl, by rwa [List.append_nil], by rw [List.append_nil]; rfl⟩
  | cons batch rest ih =>
      rw [List.flatten_cons] at awaits
      simp only [Run.placeBatches]
      rcases placeBatch_settled exact keyed settled awaits.front with
        ⟨more, asked', names, after, placed⟩ | ⟨f, asked', stopped, givesUp⟩
      · rw [placed]
        rcases ih after (awaits.rest names) asked' with
          ⟨others, names', settled', result⟩ | ⟨f, result, givesUp⟩
        · rw [List.append_assoc] at settled' result
          exact .inl ⟨more ++ others, by rw [List.map_append, names, names', List.flatten_cons],
            settled', result⟩
        · exact .inr ⟨f, result, .later placed givesUp⟩
      · rw [stopped]
        exact .inr ⟨f, rfl, givesUp rest⟩

/-- What batches of one size or another, and so a whole run, hand out is the plan that they start
from with picks that keep it settled. -/
theorem tryBatchSizes_settled (exact : r.Exact) (keyed : p.Keyed) {sizes : List Nat}
    {last : Option (Fault Rat)}
    (h : (r.tryBatchSizes p (solveOrder p) sizes last asked).1 = .ok q) :
    ∃ picks, Settled p picks ∧ q = p.withPicks picks := by
  induction sizes generalizing last asked with
  | nil => cases h
  | cons size rest ih =>
      rw [Run.tryBatchSizes] at h
      split at h
      · next placed asked' hplaced =>
        cases h
        rcases placeBatches_settled exact keyed (.nil p) (keyed.awaits_chunks size) asked with
          ⟨picks, -, settled, result⟩ | ⟨f, failed, -⟩
        · rw [withPicks_nil, hplaced] at result
          obtain ⟨⟨⟩, -, placed⟩ := map_eq_ok result.symm
          exact ⟨[] ++ picks, settled, placed.symm⟩
        · rw [withPicks_nil, hplaced] at failed
          cases failed
      · exact ih h

theorem solve_settled {prior : Option (NameMap (AreaGroup Rat))} (exact : r.Exact)
    (keyed : (r.base p prior).Keyed) (h : r.solve p prior = .ok q) :
    ∃ picks, Settled (r.base p prior) picks ∧ q = (r.base p prior).withPicks picks := by
  unfold Run.solve Run.solveAsking at h
  dsimp only at h
  split at h
  · exact ⟨[], .nil _, (withPicks_nil _).symm ▸ (Except.ok.inj h).symm⟩
  · exact tryBatchSizes_settled exact keyed h

/-! ### The final check -/

theorem mem_placedPart {α : Type} [Scalar α] {p : Floorplan α} {e : String × AreaGroup α} :
    e ∈ p.placedPart.groups.entries ↔ e ∈ p.groups.entries ∧ e.2.isPlaced = true := by
  simp [placedPart, NameMap.filter]

/-- A settled plan without free groups is valid if it was so before, as far as it was placed. -/
theorem Settled.valid (settled : Settled p picks) (sound : p.placedPart.Valid)
    (all : ∀ e ∈ p.groups.entries, e.2.isPlaced = false → e.1 ∈ picks.map (·.group.name)) :
    (p.withPicks picks).Valid := by
  have inside : ∀ g ∈ (p.withPicks picks).groups.values, (p.withPicks picks).contains g = true := by
    intro g hg
    obtain ⟨name, mem⟩ := NameMap.mem_values.mp hg
    rcases cases_of_mem_withPicks mem with ⟨c, hc, -, rfl⟩ | ⟨fresh, mem⟩
    · exact settled.inside c hc
    · have placed : g.isPlaced = true := by
        by_contra unplaced
        exact fresh (all _ mem (by simpa using unplaced))
      exact sound.inside g (NameMap.mem_values.mpr ⟨_, mem_placedPart.mpr ⟨mem, placed⟩⟩)
  have placed {e : String × AreaGroup Rat} (he : e ∈ (p.withPicks picks).groups.entries) :
      e.2.isPlaced = true :=
    isPlaced_of_contains (inside e.2 (NameMap.mem_values.mpr ⟨_, he⟩))
  refine ⟨fun g hg => isPlaced_of_contains (inside g hg), inside, fun a ha b hb different => ?_⟩
  rcases settled.agree_of_mem ha hb different (placed ha) (placed hb) with agree | ⟨ha', hb'⟩
  · exact agree.apart
  · exact sound.apart a (mem_placedPart.mpr ⟨ha', placed ha⟩) b
      (mem_placedPart.mpr ⟨hb', placed hb⟩) different

/-- **A run of batches fails only for want of a model or an answer.** Around placed groups that pass
the final check among themselves, batches of any size over all free groups, with a solver that
answers only what the model admits, end with a plan that passes the final check, or because a model
is not built or the solver gives no answer; nothing that is read from such an answer is refused. -/
theorem Run.placeBatches_reliable (r : Run Rat) (p : Floorplan Rat) (size : Nat)
    (asked : List (Model Rat)) (exact : r.Exact) (keyed : p.Keyed)
    (sound : verify p.placedPart = .ok ()) :
    ((∃ q, (r.placeBatches p (chunks size (solveOrder p)) asked).1 = .ok q ∧ verify q = .ok ()) ∨
      ∃ f, (r.placeBatches p (chunks size (solveOrder p)) asked).1 = .error f ∧
        r.GivesUp p (chunks size (solveOrder p)) asked f) ∧
    ∀ q batch built a, BatchModel.build q batch r.traffic r.settings = .ok built →
      built.model.Feasible a → ∃ placements, built.extract a = .ok placements := by
  constructor
  · have outcome := placeBatches_settled exact keyed (.nil p) (keyed.awaits_chunks size) asked
    rw [withPicks_nil] at outcome
    refine outcome.imp_left ?_
    rintro ⟨picks, names, settled, result⟩
    have accepted : verify (p.withPicks picks) = .ok () := by
      refine verify_eq_ok.mpr (settled.valid (verify_eq_ok.mp sound) fun e he unplaced => ?_)
      rw [List.nil_append, names, flatten_chunks]
      exact mem_solveOrder.mpr ⟨e.2, NameMap.mem_values.mpr ⟨_, he⟩, unplaced, keyed e he⟩
    rw [List.nil_append, accepted] at result
    exact ⟨_, result, accepted⟩
  · intro q batch built a build feasible
    obtain ⟨-, placements, -, read, -⟩ := extract_of_feasible build feasible
    exact ⟨placements, read⟩

/-- A solver that goes through a list of answers and gives only those that the model admits. -/
def vetting (answers : List (Assignment Rat)) : Run Rat :=
  { replaying answers with
    solver := fun asked m => match answers[asked]? with
      | some a =>
        if m.violation a = 0 ∧ ∀ e ∈ m.vars.toList.zipIdx, e.1.binary = true →
            a.value e.2 = 0 ∨ a.value e.2 = 1 then .ok a
        else .error (.infeasible "not admitted")
      | none => .error (.failed "no answer") }

theorem vetting_exact (answers : List (Assignment Rat)) : (vetting answers).Exact := by
  intro asked m a answer
  simp only [vetting] at answer
  split at answer
  · split at answer
    · next admitted =>
      cases answer
      refine Model.feasible_iff.mpr ⟨admitted.1, fun i v hv => admitted.2 (v, i) ?_⟩
      simpa [List.mem_zipIdx_iff_getElem?] using hv
    · cases answer
  · cases answer

/-- The group beside the placed one, at a height that is rounded; then the child in its parent, at a
height that is rounded too. -/
def nestedAnswers : List (Assignment Rat) :=
  [#[1, 10, 91 / 3, 0, 0], #[0, 1, 60, 121 / 3, 10, 29 / 3, 1, 0]]

/-- The plan with both groups placed. -/
def nestedPlaced : Floorplan Rat :=
  { nestedPlan with
    groups :=
      (nestedPlan.groups.insert "outer" (outerGroup.place 10 (30333333 / 1000000) ⟨20, 20⟩)).insert
      "inner" (innerGroup.place 60 (40333333 / 1000000) ⟨20, 5⟩) }

theorem nestedPlan_order : solveOrder nestedPlan = ["outer", "inner"] :=
  solveOrder_of_swapped (a := innerGroup) (b := outerGroup) (by decide +kernel)
    (by decide +kernel)

theorem nestedPlan_placed :
    ((vetting nestedAnswers).placeBatches nestedPlan (chunks 1 ["outer", "inner"]) []).1 =
      .ok nestedPlaced := by
  have batches : chunks 1 ["outer", "inner"] = [["outer"], ["inner"]] := by simp [chunks]
  rw [batches, ← toOption_eq_some]
  decide +kernel

theorem Run.placeBatches_reliable_nested :
    (vetting nestedAnswers).Exact ∧ nestedPlan.Keyed ∧ verify nestedPlan.placedPart = .ok () ∧
    ((vetting nestedAnswers).placeBatches nestedPlan (chunks 1 (solveOrder nestedPlan)) []).1 =
      .ok nestedPlaced ∧ verify nestedPlaced = .ok () := by
  have keyed : nestedPlan.Keyed := by decide +kernel
  have sound : verify nestedPlan.placedPart = .ok () :=
    toOption_eq_some.mp (by decide +kernel)
  have placed := nestedPlan_placed
  rw [← nestedPlan_order] at placed
  refine ⟨vetting_exact _, keyed, sound, placed, ?_⟩
  rcases (placeBatches_reliable _ nestedPlan 1 [] (vetting_exact nestedAnswers) keyed sound).1 with
    ⟨q, done, accepted⟩ | ⟨f, failed, -⟩
  · rw [placed] at done
    cases done
    exact accepted
  · rw [placed] at failed
    cases failed

end HardwareLinker.Floorplan
