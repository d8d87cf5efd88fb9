import Mathlib.Data.List.Forall2
import HardwareLinker.Proofs.Tree.Assembled

/-!
The links of a tree with the nodes that hold them. The links of a node are the pairs that
reconciliation made there, in order; buffers change nothing but their own mark.
-/

namespace HardwareLinker

variable {α : Type}

def Link.plain (l : Link) : Link := { l with buffered := false }

namespace Reconcile

theorem link_of_source {owner? : ConnectionId → Option String} {family : Link.Family}
    {p : PortPair α} (h : p.1.port.connection.kind.isSource = true) :
    link owner? family p = ⟨family, p.1.port.connection.name, p.1.child, p.2.child,
      (owner? p.1.port.origin).getD "", (owner? p.2.port.origin).getD "", false⟩ := by
  unfold link
  rw [if_pos h]

theorem link_of_sink {owner? : ConnectionId → Option String} {family : Link.Family}
    {p : PortPair α} (h : ¬ p.1.port.connection.kind.isSource = true) :
    link owner? family p = ⟨family, p.2.port.connection.name, p.2.child, p.1.child,
      (owner? p.2.port.origin).getD "", (owner? p.1.port.origin).getD "", false⟩ := by
  unfold link
  rw [if_neg h]

theorem family_link (owner? : ConnectionId → Option String) (family : Link.Family)
    (p : PortPair α) : (link owner? family p).family = family := rfl

theorem plain_spendBuffers (budget : Nat) (links : List Link) :
    (spendBuffers budget links).1.map Link.plain = links.map Link.plain := by
  induction links generalizing budget with
  | nil => rfl
  | cons l links ih =>
      rw [spendBuffers, List.map_cons, List.map_cons, ih]
      rfl

theorem plain_map_link (owner? : ConnectionId → Option String) (family : Link.Family)
    (ps : List (PortPair α)) :
    (ps.map (link owner? family)).map Link.plain = ps.map (link owner? family) := by
  rw [List.map_map]
  rfl

theorem plain_filter_family (family : Link.Family) (links : List Link) :
    (links.filter (·.family == family)).map Link.plain =
      (links.map Link.plain).filter (·.family == family) := by
  rw [List.filter_map]
  rfl

/-- The links of one family that a node gets, but for the buffers. -/
theorem Passes.plain_links {g : Graph α} {root : Bool} {budget : Nat} {left right : Interface α}
    {o : Outcome α} {channels chains : Paired α} {ring : List (PortPair α)}
    {opened : List (ChildPort α)}
    (h : Passes g root budget left right o channels chains ring opened) (family : Link.Family) :
    (o.links.filter (·.family == family)).map Link.plain =
      (if family = .channel then channels.pairs else chains.pairs ++ ring).map
        (link g.owner? family) := by
  have pick (f f' : Link.Family) (ps : List (PortPair α)) :
      (ps.map (link g.owner? f)).filter (·.family == f') =
        if f = f' then ps.map (link g.owner? f) else [] := by
    rw [List.filter_map]
    by_cases hf : f = f' <;> simp [hf, Function.comp_def, family_link]
  rw [plain_filter_family, h.links, plain_spendBuffers, List.map_append, plain_map_link,
    plain_map_link, List.filter_append, pick, pick]
  cases family <;> simp

end Reconcile

namespace MergeTree

/-- The links of one family, each with the node that holds it, in pre-order. -/
def placedLinks (t : MergeTree α) (family : Link.Family) : List (MergeTree α × Link) :=
  t.preorder.flatMap fun n => (n.links.filter (·.family == family)).map fun l => (n, l)

theorem placedLinks_node (name : String) (root : Bool) (threshold : Nat)
    (o : Reconcile.Outcome α) (left right : MergeTree α) (family : Link.Family) :
    (node name root threshold o left right).placedLinks family =
      (o.links.filter (·.family == family)).map
        (fun l => (node name root threshold o left right, l)) ++
      (left.placedLinks family ++ right.placedLinks family) := by
  rw [placedLinks, preorder_node, List.flatMap_cons, List.flatMap_append]
  rfl

theorem exists_of_forall₂ {β γ : Type} {R : γ → β → Prop} {l : List γ} {l' : List β}
    (h : List.Forall₂ R l l') {b : β} (hb : b ∈ l') : ∃ c ∈ l, R c b := by
  induction h with
  | nil => cases hb
  | cons hr _ ih =>
      rcases List.mem_cons.mp hb with rfl | hb
      · exact ⟨_, List.mem_cons_self, hr⟩
      · obtain ⟨c, hc, hr⟩ := ih hb
        exact ⟨c, List.mem_cons_of_mem _ hc, hr⟩

/-- Links that are pairs but for their buffers correspond to the pairs one by one. -/
theorem forall₂_of_plain_eq {β γ : Type} {R : γ → β → Prop} {links : List Link}
    {ps : List β} {f : β → Link} {place : Link → γ}
    (h : links.map Link.plain = ps.map f)
    (hR : ∀ p ∈ ps, ∀ l, l.plain = f p → R (place l) p) :
    List.Forall₂ R (links.map place) ps := by
  induction links generalizing ps with
  | nil =>
      cases ps with
      | nil => exact .nil
      | cons p rest => cases h
  | cons l links ih =>
      cases ps with
      | nil => cases h
      | cons p rest =>
          obtain ⟨hl, h⟩ := List.cons.inj h
          obtain ⟨hp, hR⟩ := List.forall_mem_cons.mp hR
          exact .cons (hp l hl) (ih h hR)

end MergeTree
end HardwareLinker
