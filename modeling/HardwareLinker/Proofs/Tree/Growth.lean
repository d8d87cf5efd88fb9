import Mathlib.Data.List.Nodup
import HardwareLinker.Proofs.Cut.Sides
import HardwareLinker.Proofs.Tree.Assembled
import HardwareLinker.Proofs.Tree.Names

/-!
Growing a tree. Whatever the oracle answers, the members are split into two sides that hold each of
them once, so the tree that comes out is assembled from one leaf a member. Its nodes are counted,
and the names it makes up are new and different.
-/

namespace HardwareLinker.MergeTree

variable {α : Type} [Scalar α]

/-! ### Splitting the members -/

theorem side_perm {members : List String} {labels : List Nat}
    (h : labels.length = members.length) :
    (side true members labels ++ side false members labels).Perm members := by
  have hnot : (fun e : String × Nat => (e.2 == 0) == false) = fun e => !((e.2 == 0) == true) := by
    funext e
    cases e.2 == 0 <;> rfl
  unfold side
  rw [← List.map_append, hnot]
  refine ((List.filter_append_perm _ _).map Prod.fst).trans ?_
  rw [List.map_fst_zip (Nat.le_of_eq h.symm)]

theorem side_ne_nil {members : List String} {labels : List Nat} {zero : Bool} {l : Nat}
    (h : labels.length = members.length) (hl : l ∈ labels) (hz : (l == 0) = zero) :
    side zero members labels ≠ [] := by
  obtain ⟨i, hi, rfl⟩ := List.mem_iff_getElem.mp hl
  have hmem : (members[i], labels[i]) ∈ members.zip labels := by
    refine List.mem_iff_getElem.mpr ⟨i, ?_, List.getElem_zip⟩
    rw [List.length_zip]
    omega
  refine List.ne_nil_of_mem (List.mem_map.mpr ⟨_, List.mem_filter.mpr ⟨hmem, ?_⟩, rfl⟩)
  simpa using hz

theorem isProperSplit_iff {labels : List Nat} {size : Nat} :
    isProperSplit labels size = true ↔
      labels.length = size ∧ (∀ l ∈ labels, l ≤ 1) ∧ 0 ∈ labels ∧ 1 ∈ labels := by
  simp [isProperSplit, and_assoc]

theorem Plan.split_eq_ok {p : Plan α} {members : List String} {traffic : List (Nat × Nat × α)}
    {labels : List Nat} (h : p.split members traffic = .ok labels) :
    isProperSplit labels members.length = true ∨
      ∃ cut, Cut.minimum? members.length traffic = some cut ∧ cut.labels = labels := by
  unfold split at h
  split at h
  · next found hfound =>
    cases h
    exact .inl (Option.filter_eq_some_iff.mp hfound).2
  · split at h
    · next cut hcut =>
      cases h
      exact .inr ⟨cut, hcut, rfl⟩
    · cases h

theorem Plan.split_of_bisect {p : Plan α} {members : List String} {traffic : List (Nat × Nat × α)}
    {labels : List Nat} (answer : p.hints.bisect members traffic = some labels)
    (proper : isProperSplit labels members.length = true) :
    p.split members traffic = .ok labels := by
  rw [split, answer, Option.filter_some, if_pos proper]

theorem Plan.split_of_cut {p : Plan α} {members : List String} {traffic : List (Nat × Nat × α)}
    {labels : List Nat} (silent : p.hints.bisect members traffic = none)
    (cut : (Cut.minimum? members.length traffic).map (·.labels) = some labels) :
    p.split members traffic = .ok labels := by
  obtain ⟨c, found, rfl⟩ := Option.map_eq_some_iff.mp cut
  rw [split, silent, Option.filter_none, found]

theorem Plan.length_split {p : Plan α} {members : List String} {traffic : List (Nat × Nat × α)}
    {labels : List Nat} (h : p.split members traffic = .ok labels) :
    labels.length = members.length := by
  rcases split_eq_ok h with h | ⟨cut, hcut, rfl⟩
  · exact (isProperSplit_iff.mp h).1
  · exact Cut.length_labels_minimum? hcut

theorem Plan.sides_ne_nil [Scalar.Cancelling α] {p : Plan α} {members : List String}
    {traffic : List (Nat × Nat × α)} {labels : List Nat}
    (h : p.split members traffic = .ok labels) :
    side true members labels ≠ [] ∧ side false members labels ≠ [] := by
  have hlength := length_split h
  have hboth : 0 ∈ labels ∧ 1 ∈ labels := by
    rcases split_eq_ok h with h | ⟨cut, hcut, rfl⟩
    · exact (isProperSplit_iff.mp h).2.2
    · exact (Cut.labels_minimum?_proper hcut).2
  exact ⟨side_ne_nil hlength hboth.1 rfl, side_ne_nil hlength hboth.2 rfl⟩

theorem Plan.sides_shorter [Scalar.Cancelling α] {p : Plan α} {members : List String}
    {traffic : List (Nat × Nat × α)} {labels : List Nat}
    (h : p.split members traffic = .ok labels) :
    (side true members labels).length < members.length ∧
      (side false members labels).length < members.length := by
  have hsize := (side_perm (length_split h)).length_eq
  have hzero := List.length_pos_of_ne_nil (sides_ne_nil h).1
  have hone := List.length_pos_of_ne_nil (sides_ne_nil h).2
  rw [List.length_append] at hsize
  omega

theorem Plan.split_ok (p : Plan α) {members : List String} (traffic : List (Nat × Nat × α))
    (h2 : 2 ≤ members.length) : ∃ labels, p.split members traffic = .ok labels := by
  unfold split
  split
  · exact ⟨_, rfl⟩
  · split
    · exact ⟨_, rfl⟩
    · next hnone => exact absurd hnone ((Cut.minimum?_spec members.length traffic).2 h2)

/-! ### What a grown tree is like -/

def innerNames (t : MergeTree α) : List String :=
  (t.preorder.filter (·.moduleName?.isNone)).map (·.name)

omit [Scalar α] in
@[simp] theorem innerNames_node (name : String) (root : Bool) (threshold : Nat)
    (o : Reconcile.Outcome α) (left right : MergeTree α) :
    (node name root threshold o left right).innerNames =
      name :: (left.innerNames ++ right.innerNames) := by
  rw [innerNames, preorder_node, List.filter_cons_of_pos rfl, List.filter_append, List.map_cons,
    List.map_append]
  rfl

/-- A tree over the members that was grown from one builder to the next: every node was counted, and
the names of its inner nodes are new. -/
structure Grown (p : Plan α) (root : Bool) (members : List String) (b : Builder α)
    (t : MergeTree α) (b' : Builder α) : Prop where
  assembled : Assembled p.graph root t
  modules : t.moduleNames.Perm members
  nodes : b'.nodes = b.nodes + t.size
  taken : ∀ n ∈ b.names.taken, n ∈ b'.names.taken
  fresh : ∀ n ∈ t.innerNames, n ∉ b.names.taken ∧ n ∈ b'.names.taken
  distinct : t.innerNames.Nodup

omit [Scalar α] in
/-- Questions do not count. -/
theorem Grown.ask {p : Plan α} {root : Bool} {members : List String} {b b' : Builder α}
    {t : MergeTree α} {q : Question α} (h : Grown p root members (b.ask q) t b') :
    Grown p root members b t b' :=
  ⟨h.assembled, h.modules, h.nodes, h.taken, h.fresh, h.distinct⟩

omit [Scalar α] in
theorem Grown.perm {p : Plan α} {root : Bool} {members members' : List String} {b b' : Builder α}
    {t : MergeTree α} (h : Grown p root members b t b') (hp : members.Perm members') :
    Grown p root members' b t b' :=
  ⟨h.assembled, h.modules.trans hp, h.nodes, h.taken, h.fresh, h.distinct⟩

omit [Scalar α] in
theorem grown_leaf (p : Plan α) (b : Builder α) (name : String) :
    Grown p false [name] b (b.leaf p.graph name).1 (b.leaf p.graph name).2 where
  assembled := .module name
  modules := by
    show [(leafInterface p.graph name).name].Perm [name]
    rw [name_leaf]
  nodes := rfl
  taken _ h := h
  fresh _ h := nomatch h
  distinct := .nil

omit [Scalar α] in
theorem grown_filler (p : Plan α) (b : Builder α) :
    Grown p false [] b b.filler.1 b.filler.2 where
  assembled := .placeholder _
  modules := .nil
  nodes := rfl
  taken _ h := List.mem_cons_of_mem _ h
  fresh n h := by
    cases List.mem_singleton.mp h
    exact ⟨b.names.fresh_not_taken _, List.mem_cons_self⟩
  distinct := List.nodup_singleton _

omit [Scalar α] in
theorem join_eq_ok {p : Plan α} {root : Bool} {budget : Nat} {left right t : MergeTree α}
    {b b' : Builder α} (h : join p root budget left right b = (.ok t, b')) :
    ∃ o, Reconcile.reconcile p.graph root budget left.interface right.interface = .ok o ∧
      t = node b.names.node.1 root p.threshold o left right ∧
      b' = { b with names := b.names.node.2, nodes := b.nodes + 1 } := by
  unfold join at h
  simp only at h
  split at h
  · cases h
  · next o ho =>
    cases h
    exact ⟨o, ho, rfl, rfl⟩

omit [Scalar α] in
theorem Grown.join {p : Plan α} {root : Bool} {budget : Nat} {zero one : List String}
    {b b₁ b₂ b' : Builder α} {left right t : MergeTree α} (hl : Grown p false zero b left b₁)
    (hr : Grown p false one b₁ right b₂) (h : join p root budget left right b₂ = (.ok t, b')) :
    Grown p root (zero ++ one) b t b' := by
  obtain ⟨o, ho, rfl, rfl⟩ := join_eq_ok h
  have hnew := b₂.names.fresh_not_taken "lim_node"
  refine ⟨.node hl.assembled hr.assembled ho, ?_, ?_, fun n hn => ?_, fun n hn => ?_, ?_⟩
  · rw [moduleNames_node]
    exact hl.modules.append hr.modules
  · show b₂.nodes + 1 = b.nodes + (left.size + right.size + 1)
    rw [hr.nodes, hl.nodes]
    omega
  · exact List.mem_cons_of_mem _ (hr.taken n (hl.taken n hn))
  · rw [innerNames_node] at hn
    rcases List.mem_cons.mp hn with rfl | hn
    · exact ⟨fun hm => hnew (hr.taken _ (hl.taken _ hm)), List.mem_cons_self⟩
    · rcases List.mem_append.mp hn with hn | hn
      · exact ⟨(hl.fresh n hn).1, List.mem_cons_of_mem _ (hr.taken n (hl.fresh n hn).2)⟩
      · exact ⟨fun hm => (hr.fresh n hn).1 (hl.taken n hm),
          List.mem_cons_of_mem _ (hr.fresh n hn).2⟩
  · rw [innerNames_node]
    refine List.nodup_cons.mpr ⟨fun hm => hnew ?_, ?_⟩
    · exact (List.mem_append.mp hm).elim (fun hm => hr.taken _ (hl.fresh _ hm).2)
        fun hm => (hr.fresh _ hm).2
    · exact hl.distinct.append hr.distinct fun n hn hn' => (hr.fresh n hn').1 (hl.fresh n hn).2

/-- Growing over two members or more splits them, grows both sides and joins them. -/
theorem grow_split {p : Plan α} {root : Bool} {x y : String} {rest : List String}
    {b b' : Builder α} {t : MergeTree α} (h : grow p root (x :: y :: rest) b = (.ok t, b')) :
    ∃ labels left right b₁ b₂,
      p.split (x :: y :: rest) (p.trafficAmong (x :: y :: rest)) = .ok labels ∧
      (side true (x :: y :: rest) labels).length < (x :: y :: rest).length ∧
      (side false (x :: y :: rest) labels).length < (x :: y :: rest).length ∧
      grow p false (side true (x :: y :: rest) labels)
        ((b.ask (.bisect (x :: y :: rest) (p.trafficAmong (x :: y :: rest)))).ask
          (.bufferBudget (side true (x :: y :: rest) labels)
            (side false (x :: y :: rest) labels))) = (.ok left, b₁) ∧
      grow p false (side false (x :: y :: rest) labels) b₁ = (.ok right, b₂) ∧
      join p root (p.hints.bufferBudget (side true (x :: y :: rest) labels)
        (side false (x :: y :: rest) labels)) left right b₂ = (.ok t, b') := by
  rw [grow] at h
  simp only at h
  split at h
  · cases h
  · next labels hlabels =>
    split at h
    · next hsides =>
      split at h
      · cases h
      · next left b₁ hleft =>
        split at h
        · cases h
        · next right b₂ hright =>
          exact ⟨labels, left, right, b₁, b₂, hlabels, hsides.1, hsides.2, hleft, hright, h⟩
    · cases h

/-- A tree depends on its oracle by the splits and the budgets only. -/
theorem grow_of_splits {p : Plan α} {hints : Hints α}
    (budget : hints.bufferBudget = p.hints.bufferBudget)
    (split : ∀ members, { p with hints }.split members (p.trafficAmong members) =
      p.split members (p.trafficAmong members))
    (root : Bool) (members : List String) (b : Builder α) :
    grow { p with hints } root members b = grow p root members b := by
  induction hn : members.length using Nat.strongRecOn generalizing root members b with
  | ind n ih =>
      subst hn
      match members with
      | [] => rw [grow, grow]
      | [only] =>
          rw [grow, grow]
          rfl
      | x :: y :: rest =>
          rw [grow, grow]
          have traffic : { p with hints }.trafficAmong (x :: y :: rest) =
            p.trafficAmong (x :: y :: rest) := rfl
          simp only [traffic, split, budget]
          cases p.split (x :: y :: rest) (p.trafficAmong (x :: y :: rest)) with
          | error d => rfl
          | ok labels =>
              dsimp only
              split
              · next shorter =>
                rw [ih _ shorter.1 _ _ _ rfl]
                split
                · rfl
                · rw [ih _ shorter.2 _ _ _ rfl]
                  rfl
              · rfl

/-- Whatever the oracle answers, a tree that is grown has one leaf a member. -/
theorem grown_of_grow {p : Plan α} {root : Bool} {members : List String} {b b' : Builder α}
    {t : MergeTree α} (h : grow p root members b = (.ok t, b')) :
    Grown p root members b t b' := by
  -- A side is no part of the list of members, so the induction is on their number.
  induction hn : members.length using Nat.strongRecOn generalizing root members b b' t with
  | ind n ih =>
      subst hn
      match members with
      | [] =>
          rw [grow] at h
          cases root with
          | true => cases h
          | false =>
              cases h
              exact grown_filler p b
      | [only] =>
          rw [grow] at h
          cases root with
          | true => exact (grown_leaf p b only).join (grown_filler p _) h
          | false =>
              cases h
              exact grown_leaf p b only
      | x :: y :: rest =>
          obtain ⟨labels, left, right, b₁, b₂, hlabels, hzero, hone, hleft, hright, hjoin⟩ :=
            grow_split h
          have hl := ih _ hzero hleft rfl
          have hr := ih _ hone hright rfl
          exact ((hl.join hr hjoin).ask.ask).perm (side_perm (Plan.length_split hlabels))

theorem build_of_splits {g : Graph α} {hints hints' : Hints α} {threshold : Nat}
    (budget : hints'.bufferBudget = hints.bufferBudget)
    (split : ∀ members, (Plan.new g hints' threshold).split members
      ((Plan.new g hints threshold).trafficAmong members) =
        (Plan.new g hints threshold).split members
          ((Plan.new g hints threshold).trafficAmong members)) :
    build g hints' threshold = build g hints threshold := by
  have grown : grow (Plan.new g hints' threshold) true g.moduleNames (Builder.new g) =
      grow (Plan.new g hints threshold) true g.moduleNames (Builder.new g) :=
    grow_of_splits budget split true g.moduleNames (Builder.new g)
  unfold build buildAsking
  rw [grown]

theorem grow_of_build {g : Graph α} {hints : Hints α} {threshold : Nat} {t : MergeTree α}
    (h : build g hints threshold = .ok t) :
    ∃ b, grow (Plan.new g hints threshold) true g.moduleNames (Builder.new g) = (.ok t, b) := by
  obtain ⟨r, hr, rfl⟩ := map_eq_ok h
  unfold buildAsking at hr
  split at hr
  · cases hr
  · next b hgrow =>
    split at hr
    · cases hr
    · cases hr
      exact ⟨b, hgrow⟩

/-- A tree that is built is assembled from the modules of the graph, each once. -/
theorem assembled_of_build {g : Graph α} {hints : Hints α} {threshold : Nat} {t : MergeTree α}
    (h : build g hints threshold = .ok t) :
    Assembled g true t ∧ t.moduleNames.Perm g.moduleNames ∧ t.moduleNames.Nodup := by
  obtain ⟨b, hgrow⟩ := grow_of_build h
  have hg := grown_of_grow hgrow
  exact ⟨hg.assembled, hg.modules, hg.modules.nodup_iff.mpr g.modules.keys_nodup⟩

/-- Growing succeeds as soon as all siblings that can come about are reconciled. -/
theorem grow_ok [Scalar.Cancelling α] {p : Plan α}
    (hjoin : ∀ (root : Bool) (budget : Nat) (left right : MergeTree α),
      Assembled p.graph false left → Assembled p.graph false right →
      (left.moduleNames ++ right.moduleNames).Nodup →
      ∃ o, Reconcile.reconcile p.graph root budget left.interface right.interface = .ok o)
    {root : Bool} {members : List String} (hd : members.Nodup) (hne : root = true → members ≠ [])
    (b : Builder α) : ∃ t b', grow p root members b = (.ok t, b') := by
  have joined {root : Bool} (budget : Nat) {zero one : List String} {b b₁ b₂ : Builder α}
      {left right : MergeTree α} (hl : Grown p false zero b left b₁)
      (hr : Grown p false one b₁ right b₂) (hd : (zero ++ one).Nodup) :
      ∃ t b', join p root budget left right b₂ = (.ok t, b') := by
    obtain ⟨o, ho⟩ := hjoin root budget left right hl.assembled hr.assembled
      (((hl.modules.append hr.modules).nodup_iff).mpr hd)
    unfold join
    simp only [ho]
    exact ⟨_, _, rfl⟩
  induction hn : members.length using Nat.strongRecOn generalizing root members b with
  | ind n ih =>
      subst hn
      match members with
      | [] =>
          cases root with
          | true => exact absurd rfl (hne rfl)
          | false => exact ⟨_, _, by rw [grow]; rfl⟩
      | [only] =>
          rw [grow]
          cases root with
          | true => exact joined 0 (grown_leaf p b only) (grown_filler p _) hd
          | false => exact ⟨_, _, rfl⟩
      | x :: y :: rest =>
          have grown {side : List String} (hlt : side.length < (x :: y :: rest).length)
              (hd : side.Nodup) (b : Builder α) : ∃ t b', grow p false side b = (.ok t, b') :=
            ih _ hlt hd (fun h => absurd h Bool.false_ne_true) b rfl
          have h2 : 2 ≤ (x :: y :: rest).length := Nat.le_add_left 2 rest.length
          obtain ⟨labels, hlabels⟩ := p.split_ok (p.trafficAmong (x :: y :: rest)) h2
          have hfewer := Plan.sides_shorter hlabels
          have hsides := (side_perm (Plan.length_split hlabels)).nodup_iff.mpr hd
          rw [grow]
          simp only [hlabels]
          rw [dif_pos hfewer]
          obtain ⟨left, b₁, hleft⟩ := grown hfewer.1 hsides.of_append_left
            ((b.ask (.bisect (x :: y :: rest) (p.trafficAmong (x :: y :: rest)))).ask
              (.bufferBudget (side true (x :: y :: rest) labels)
                (side false (x :: y :: rest) labels)))
          obtain ⟨right, b₂, hright⟩ := grown hfewer.2 hsides.of_append_right b₁
          simp only [hleft, hright]
          exact joined _ (grown_of_grow hleft) (grown_of_grow hright) hsides

end HardwareLinker.MergeTree
