import HardwareLinker.Proofs.Tree.Links
import HardwareLinker.Proofs.Tree.Total

/-!
Buffers of a tree. A node spends the budget of its split on its links in the order in which they are
made: the channels, the chains across the children, the rings closed at the root. The budget is what
the oracle answers for the two sides of the split, and nothing where a lone module is closed as a
root.
-/

namespace HardwareLinker

variable {α : Type}

/-! ### Spending a budget -/

namespace Reconcile

theorem length_spendBuffers (budget : Nat) (links : List Link) :
    (spendBuffers budget links).1.length = links.length := by
  simpa using congrArg List.length (plain_spendBuffers budget links)

/-- The first links are buffered, as many as the budget covers. -/
theorem buffered_spendBuffers (budget : Nat) (links : List Link) :
    (spendBuffers budget links).1.map (·.buffered) =
      List.replicate (min budget links.length) true ++
        List.replicate (links.length - min budget links.length) false := by
  induction links generalizing budget with
  | nil => simp [spendBuffers]
  | cons l links ih =>
      rw [spendBuffers, List.map_cons, ih]
      cases budget with
      | zero => simp [List.replicate_succ]
      | succ budget => simp [Nat.succ_min_succ, List.replicate_succ]

end Reconcile

namespace MergeTree

open Reconcile

/-! ### The sides of a split in the tree that comes of it -/

/-- The modules that a subtree holds, in the order of the graph. -/
def membersIn (g : Graph α) (t : MergeTree α) : List String :=
  g.moduleNames.filter (t.moduleNames.contains ·)

theorem filter_contains_of_sublist {part whole : List String} (h : part.Sublist whole)
    (distinct : whole.Nodup) : whole.filter (part.contains ·) = part := by
  induction h with
  | slnil => rfl
  | @cons part whole x h ih =>
      obtain ⟨absent, distinct⟩ := List.nodup_cons.mp distinct
      rw [List.filter_cons_of_neg, ih distinct]
      simpa using fun hx => absent (h.subset hx)
  | @cons_cons part whole x h ih =>
      obtain ⟨absent, distinct⟩ := List.nodup_cons.mp distinct
      rw [List.filter_cons_of_pos (by simp)]
      refine congrArg (x :: ·) ((List.filter_congr fun y hy => ?_).trans (ih distinct))
      have other : y ≠ x := fun e => absent (e ▸ hy)
      simp [other]

theorem membersIn_eq {g : Graph α} {t : MergeTree α} {members : List String}
    (perm : t.moduleNames.Perm members) (sub : members.Sublist g.moduleNames) :
    t.membersIn g = members := by
  rw [← filter_contains_of_sublist sub g.modules.keys_nodup]
  refine List.filter_congr fun name _ => ?_
  rw [Bool.eq_iff_iff, List.contains_iff_mem, List.contains_iff_mem, perm.mem_iff]

theorem side_sublist (zero : Bool) {members : List String} {labels : List Nat}
    (h : labels.length = members.length) : (side zero members labels).Sublist members := by
  have firsts : (members.zip labels).map Prod.fst = members :=
    List.map_fst_zip (Nat.le_of_eq h.symm)
  conv => rhs; rw [← firsts]
  exact List.filter_sublist.map Prod.fst

/-! ### The budget of every node -/

/-- What the oracle grants to the split between two subtrees. The root over a lone module is no
split and is granted nothing. -/
def Plan.budget (p : Plan α) (left right : MergeTree α) : Nat :=
  if p.graph.moduleNames.length = 1 then 0
  else p.hints.bufferBudget (left.membersIn p.graph) (right.membersIn p.graph)

/-- A merge node reconciles its children under the budget of their split, and the oracle was asked
for it. Nothing is said of leaves. -/
def Plan.Budgeted (p : Plan α) (asked : List (Question α)) (root : Bool) : MergeTree α → Prop
  | .merge _ links _ _ left right =>
    (∃ o, reconcile p.graph root (p.budget left right) left.interface right.interface = .ok o ∧
      o.links = links) ∧
    (p.graph.moduleNames.length ≠ 1 →
      .bufferBudget (left.membersIn p.graph) (right.membersIn p.graph) ∈ asked)
  | _ => True

theorem Plan.Budgeted.mono {p : Plan α} {asked asked' : List (Question α)} {root : Bool}
    {t : MergeTree α} (h : p.Budgeted asked root t) (sub : asked ⊆ asked') :
    p.Budgeted asked' root t := by
  cases t with
  | module i => trivial
  | placeholder name => trivial
  | merge i links exported boundary left right => exact ⟨h.1, fun more => sub (h.2 more)⟩

/-- Growing keeps the questions, and all nodes it makes are budgeted, the topmost one with the
flag. -/
structure Plan.Accounts (p : Plan α) (root : Bool) (asked : List (Question α)) (t : MergeTree α)
    (asked' : List (Question α)) : Prop where
  kept : asked ⊆ asked'
  top : p.Budgeted asked' root t
  below : ∀ n ∈ t.preorder, n ≠ t → p.Budgeted asked' false n

section Growing

variable {p : Plan α} {root : Bool} {b b' : Builder α} {t : MergeTree α}

theorem asked_join {budget : Nat} {left right : MergeTree α}
    (h : join p root budget left right b = (.ok t, b')) : b'.asked = b.asked := by
  obtain ⟨o, -, -, rfl⟩ := join_eq_ok h
  rfl

/-- Two subtrees that are accounted for are joined under the budget of their split. -/
theorem Plan.Accounts.join {asked : List (Question α)} {b₁ b₂ : Builder α}
    {left right : MergeTree α} (hl : p.Accounts false asked left b₁.asked)
    (hr : p.Accounts false b₁.asked right b₂.asked)
    (question : p.graph.moduleNames.length ≠ 1 →
      .bufferBudget (left.membersIn p.graph) (right.membersIn p.graph) ∈ asked)
    (h : MergeTree.join p root (p.budget left right) left right b₂ = (.ok t, b')) :
    p.Accounts root asked t b'.asked := by
  rw [asked_join h]
  obtain ⟨o, ho, rfl, -⟩ := join_eq_ok h
  have onward {n : MergeTree α} (hn : p.Budgeted b₁.asked false n) : p.Budgeted b₂.asked false n :=
    hn.mono hr.kept
  refine ⟨List.Subset.trans hl.kept hr.kept,
    ⟨⟨o, ho, rfl⟩, fun more => hr.kept (hl.kept (question more))⟩, ?_⟩
  intro n hn other
  rw [preorder_node] at hn
  rcases List.mem_append.mp ((List.mem_cons.mp hn).resolve_left other) with hn | hn
  · by_cases top : n = left
    · exact onward (top ▸ hl.top)
    · exact onward (hl.below n hn top)
  · by_cases top : n = right
    · exact top ▸ hr.top
    · exact hr.below n hn top

theorem accounts_leaf (p : Plan α) (b : Builder α) (name : String) :
    p.Accounts false b.asked (b.leaf p.graph name).1 (b.leaf p.graph name).2.asked where
  kept := List.Subset.refl _
  top := trivial
  below _ hn other := absurd (List.mem_singleton.mp hn) other

theorem accounts_filler (p : Plan α) (b : Builder α) :
    p.Accounts false b.asked b.filler.1 b.filler.2.asked where
  kept := List.Subset.refl _
  top := trivial
  below _ hn other := absurd (List.mem_singleton.mp hn) other

/-- Every node of a grown tree is budgeted. -/
theorem accounts_of_grow [Scalar α] {members : List String}
    (sub : members.Sublist p.graph.moduleNames)
    (whole : root = true → members = p.graph.moduleNames)
    (h : grow p root members b = (.ok t, b')) : p.Accounts root b.asked t b'.asked := by
  -- A side is no part of the list of members, so the induction is on their number.
  induction hn : members.length using Nat.strongRecOn generalizing root members b b' t with
  | ind n ih =>
      subst hn
      match members with
      | [] =>
          rw [grow] at h
          cases root with
          | true => cases h
          | false =>
              cases h
              exact accounts_filler p b
      | [only] =>
          rw [grow] at h
          cases root with
          | false =>
              cases h
              exact accounts_leaf p b only
          | true =>
              have alone : p.graph.moduleNames.length = 1 := by rw [← whole rfl]; rfl
              refine (accounts_leaf p b only).join (accounts_filler p _) (absurd alone) ?_
              rw [Plan.budget, if_pos alone]
              exact h
      | x :: y :: rest =>
          obtain ⟨labels, left, right, b₁, b₂, hlabels, hzero, hone, hleft, hright, hjoin⟩ :=
            grow_split h
          have hlength := Plan.length_split hlabels
          have zero := (side_sublist true hlength).trans sub
          have one := (side_sublist false hlength).trans sub
          have ltree := (grown_of_grow hleft).modules
          have rtree := (grown_of_grow hright).modules
          have more : p.graph.moduleNames.length ≠ 1 := by
            have := sub.length_le
            simp only [List.length_cons] at this
            omega
          have hl := ih _ hzero zero (fun h => absurd h Bool.false_ne_true) hleft rfl
          have hr := ih _ hone one (fun h => absurd h Bool.false_ne_true) hright rfl
          rw [← membersIn_eq ltree zero, ← membersIn_eq rtree one] at hjoin hl
          have granted : p.budget left right =
            p.hints.bufferBudget (left.membersIn p.graph) (right.membersIn p.graph) := if_neg more
          rw [← granted] at hjoin
          have done := hl.join hr (fun _ => by simp [Builder.ask]) hjoin
          refine ⟨fun q hq => done.kept ?_, done.top, done.below⟩
          simp [Builder.ask, hq]

end Growing

/-! ### Buffers of a tree that is built -/

/-- The links of a node over two subtrees are the channels paired, then the chains paired across,
then the rings closed, and exactly the first of them are buffered, as many as the budget covers. -/
structure SpendsInOrder (g : Graph α) (root : Bool) (budget : Nat) (left right : MergeTree α)
    (links : List Link) : Prop where
  made : ∃ o channels chains ring opened,
    Passes g root budget left.interface right.interface o channels chains ring opened ∧
    links.map Link.plain = channels.pairs.map (link g.owner? .channel) ++
      chains.pairs.map (link g.owner? .chain) ++ ring.map (link g.owner? .chain)
  buffered : links.map (·.buffered) = List.replicate (min budget links.length) true ++
    List.replicate (links.length - min budget links.length) false

theorem spendsInOrder_of_reconcile {g : Graph α} {root : Bool} {budget : Nat}
    {left right : MergeTree α} {o : Outcome α}
    (h : reconcile g root budget left.interface right.interface = .ok o) :
    SpendsInOrder g root budget left right o.links := by
  obtain ⟨channels, chains, ring, opened, passes⟩ := reconcile_passes h
  constructor
  · refine ⟨o, channels, chains, ring, opened, passes, ?_⟩
    rw [passes.links, plain_spendBuffers, List.map_append, plain_map_link, plain_map_link,
      List.map_append, List.append_assoc]
  · rw [passes.links, length_spendBuffers]
    exact buffered_spendBuffers _ _

/-- A node of a tree that is built spends the budget of its split on its first links; only the
topmost node closes rings. The oracle is asked for every budget but that of a lone module. -/
theorem build_spendsInOrder [Scalar α] {g : Graph α} {hints : Hints α} {threshold : Nat}
    {t : MergeTree α} (h : build g hints threshold = .ok t) :
    ∃ asked, buildAsking g hints threshold = .ok (t, asked) ∧
      ∀ i links exported boundary left right,
        MergeTree.merge i links exported boundary left right ∈ t.preorder →
        (∃ root, (root = true ↔ MergeTree.merge i links exported boundary left right = t) ∧
          SpendsInOrder g root
            (if g.moduleNames.length = 1 then 0
              else hints.bufferBudget (left.membersIn g) (right.membersIn g)) left right links) ∧
        (g.moduleNames.length ≠ 1 →
          Question.bufferBudget (left.membersIn g) (right.membersIn g) ∈ asked) := by
  obtain ⟨⟨t', asked⟩, ask, rfl⟩ := map_eq_ok h
  refine ⟨asked, ask, ?_⟩
  have accounts : (Plan.new g hints threshold).Accounts true [] t' asked := by
    unfold buildAsking at ask
    split at ask
    · cases ask
    · next hgrow =>
      split at ask
      · cases ask
      · cases ask
        exact accounts_of_grow (.refl _) (fun _ => rfl) hgrow
  intro i links exported boundary left right hn
  by_cases top : MergeTree.merge i links exported boundary left right = t'
  · obtain ⟨⟨o, ho, rfl⟩, question⟩ := top ▸ accounts.top
    exact ⟨⟨true, iff_of_true rfl top, spendsInOrder_of_reconcile ho⟩, question⟩
  · obtain ⟨⟨o, ho, rfl⟩, question⟩ := accounts.below _ hn top
    exact ⟨⟨false, iff_of_false Bool.false_ne_true top, spendsInOrder_of_reconcile ho⟩, question⟩

end MergeTree

/-- Two buffers for every split. -/
def twoBuffers : MergeTree.Hints Rat := ⟨fun _ _ => none, fun _ _ => 2⟩

/-- The minimum cuts of the pipeline, as an oracle answers them. -/
def pipelineCuts : MergeTree.Hints Rat where
  bisect members _ :=
    if members = ["a", "b", "c"] then some [0, 0, 1]
    else if members = ["a", "b"] then some [0, 1]
    else none
  bufferBudget _ _ := 2

theorem build_pipelineCuts : MergeTree.build Graph.pipeline pipelineCuts 4 =
    MergeTree.build Graph.pipeline twoBuffers 4 := by
  refine MergeTree.build_of_splits rfl fun members => ?_
  by_cases all : members = ["a", "b", "c"]
  · subst all
    have traffic : (MergeTree.Plan.new Graph.pipeline twoBuffers 4).trafficAmong ["a", "b", "c"] =
        [(0, 1, 2), (1, 2, 2), (2, 0, 1)] := by cbv
    rw [traffic]
    exact (MergeTree.Plan.split_of_bisect rfl rfl).trans
      (MergeTree.Plan.split_of_cut rfl (by decide +kernel)).symm
  · by_cases two : members = ["a", "b"]
    · subst two
      have traffic : (MergeTree.Plan.new Graph.pipeline twoBuffers 4).trafficAmong ["a", "b"] =
          [(0, 1, 2)] := by cbv
      rw [traffic]
      exact (MergeTree.Plan.split_of_bisect rfl rfl).trans
        (MergeTree.Plan.split_of_cut rfl (by decide +kernel)).symm
    · simp [MergeTree.Plan.split, MergeTree.Plan.new, pipelineCuts, twoBuffers, all, two]

/-- The root makes a link in each of the three passes, a channel, a chain and a ring; the ring goes
without a buffer. -/
theorem Graph.pipeline_build_spendsInOrder :
    ∃ t, MergeTree.build Graph.pipeline twoBuffers 4 = .ok t ∧
      t.links.map (·.buffered) = [true, true, false] := by
  have hnames : Graph.pipeline.moduleNames.length ≠ 1 := by decide +kernel
  have hlinks : (MergeTree.build Graph.pipeline twoBuffers 4).toOption.map
      (·.links.length) = some 3 := by
    rw [← build_pipelineCuts]
    cbv
  cases hbuild : MergeTree.build Graph.pipeline twoBuffers 4 with
  | error e => simp [hbuild, Except.toOption] at hlinks
  | ok t =>
      rw [hbuild] at hlinks
      have hlength : t.links.length = 3 := Option.some.inj hlinks
      refine ⟨t, rfl, ?_⟩
      cases t with
      | module i => cases hlength
      | placeholder name => cases hlength
      | merge i links exported boundary left right =>
          obtain ⟨asked, -, spends⟩ := MergeTree.build_spendsInOrder hbuild
          obtain ⟨⟨root, -, spent⟩, -⟩ :=
            spends i links exported boundary left right List.mem_cons_self
          have buffered := spent.buffered
          rw [show links.length = 3 from hlength, if_neg hnames] at buffered
          exact buffered

end HardwareLinker
