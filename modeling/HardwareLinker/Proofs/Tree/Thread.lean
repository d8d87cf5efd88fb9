import Mathlib.Data.List.Permutation

/-!
Threads through modules. A thread enters its first module at an open sink and leaves its last one at
an open source. Linking one source with one sink of two threads makes one thread of them; linking
all that is open makes a cycle.
-/

namespace HardwareLinker.Thread

def steps : List String → List (String × String)
  | a :: b :: rest => (a, b) :: steps (b :: rest)
  | _ => []

/-- From the end of one thread to the start of another one. -/
def bridge (p q : List String) : List (String × String) :=
  match p.getLast?, q.head? with
  | some a, some b => [(a, b)]
  | _, _ => []

def cycle (p : List String) : List (String × String) := steps p ++ bridge p p

/-- An open end: whether it is a source, and its module. -/
abbrev End := Bool × String

/-- What a thread leaves open, its source first. -/
def ends (p : List String) : List End :=
  p.getLast?.toList.map (true, ·) ++ p.head?.toList.map (false, ·)

/-- The step that links two ends, from its source. -/
def step (p : End × End) : String × String :=
  if p.1.1 then (p.1.2, p.2.2) else (p.2.2, p.1.2)

@[simp] theorem steps_nil : steps [] = [] := rfl

@[simp] theorem ends_nil : ends [] = [] := rfl

@[simp] theorem bridge_nil_left (q : List String) : bridge [] q = [] := rfl

theorem steps_append (p q : List String) :
    steps (p ++ q) = steps p ++ bridge p q ++ steps q := by
  induction p with
  | nil => rfl
  | cons a rest ih =>
      cases rest with
      | nil =>
          cases q with
          | nil => rfl
          | cons b q => rfl
      | cons b rest =>
          have hbridge : bridge (a :: b :: rest) q = bridge (b :: rest) q := by
            simp only [bridge, List.getLast?_cons_cons]
          rw [hbridge]
          simp only [List.cons_append, steps] at ih ⊢
          rw [ih]

theorem ends_of_ne_nil {p : List String} (h : p ≠ []) :
    ∃ a b, p.head? = some a ∧ p.getLast? = some b ∧ ends p = [(true, b), (false, a)] := by
  refine ⟨p.head h, p.getLast h, List.head?_eq_some_head h, List.getLast?_eq_some_getLast h, ?_⟩
  rw [ends, List.head?_eq_some_head h, List.getLast?_eq_some_getLast h]
  rfl

theorem ends_append {p q : List String} {a b : String} (ha : p.head? = some a)
    (hb : q.getLast? = some b) : ends (p ++ q) = [(true, b), (false, a)] := by
  simp [ends, List.head?_append, List.getLast?_append, ha, hb]

theorem length_cycle (p : List String) : (cycle p).length = p.length := by
  have along (a : String) (rest : List String) : (steps (a :: rest)).length = rest.length := by
    induction rest generalizing a with
    | nil => rfl
    | cons b rest ih => rw [steps, List.length_cons, List.length_cons, ih]
  cases p with
  | nil => rfl
  | cons a rest =>
      rw [cycle, List.length_append, along, bridge, List.getLast?_cons, List.head?_cons]
      rfl

theorem bridge_eq {p q : List String} {a b : String} (hb : p.getLast? = some b)
    (ha : q.head? = some a) : bridge p q = [(b, a)] := by
  simp [bridge, ha, hb]

/-- Which ends of two threads are linked, and which ones stay open on either side. -/
structure Crossed (p q : List String) (linked : List (End × End)) (left right : List End) :
    Prop where
  lefts : (linked.map Prod.fst ++ left).Perm (ends p)
  rights : (linked.map Prod.snd ++ right).Perm (ends q)
  fit : ∀ l ∈ linked, l.1.1 ≠ l.2.1

theorem Crossed.left_nil {q : List String} {linked : List (End × End)} {left right : List End}
    (h : Crossed [] q linked left right) : linked = [] ∧ left = [] ∧ right.Perm (ends q) := by
  have hl := h.lefts.eq_nil
  rw [List.append_eq_nil_iff, List.map_eq_nil_iff] at hl
  obtain ⟨rfl, rfl⟩ := hl
  exact ⟨rfl, rfl, h.rights⟩

theorem Crossed.right_nil {p : List String} {linked : List (End × End)} {left right : List End}
    (h : Crossed p [] linked left right) : linked = [] ∧ right = [] ∧ left.Perm (ends p) := by
  have hr := h.rights.eq_nil
  rw [List.append_eq_nil_iff, List.map_eq_nil_iff] at hr
  obtain ⟨rfl, rfl⟩ := hr
  exact ⟨rfl, rfl, h.lefts⟩

/-- Between two threads with modules nothing, one pair or both pairs are linked. -/
theorem Crossed.cases {p q : List String} {a b c d : String} {linked : List (End × End)}
    {left right : List End} (h : Crossed p q linked left right)
    (hp : ends p = [(true, b), (false, a)]) (hq : ends q = [(true, d), (false, c)]) :
    (linked = [] ∧ (true, b) ∈ left ∧ (false, c) ∈ right) ∨
    (linked = [((true, b), (false, c))] ∧ left = [(false, a)] ∧ right = [(true, d)]) ∨
    (linked = [((false, a), (true, d))] ∧ left = [(true, b)] ∧ right = [(false, c)]) ∨
    (linked.map step).Perm [(b, c), (d, a)] ∧ left = [] ∧ right = [] := by
  obtain ⟨lefts, rights, fit⟩ := h
  rw [hp, List.perm_pair] at lefts
  rw [hq, List.perm_pair] at rights
  -- Each thread has two ends, so there are two pairs at most.
  match linked with
  | [] =>
      refine .inl ⟨rfl, ?_, ?_⟩
      · rcases lefts with h | h <;> simp_all
      · rcases rights with h | h <;> simp_all
  | [(x, y)] =>
      have hf := fit (x, y) List.mem_cons_self
      rcases lefts with h | h <;> rcases rights with h' | h' <;> simp at h h' <;>
        obtain ⟨rfl, rfl⟩ := h <;> obtain ⟨rfl, rfl⟩ := h' <;> simp at hf
      · exact .inr (.inl ⟨rfl, rfl, rfl⟩)
      · exact .inr (.inr (.inl ⟨rfl, rfl, rfl⟩))
  | [(x, y), (x', y')] =>
      have hf := fit (x, y) List.mem_cons_self
      refine .inr (.inr (.inr ?_))
      rcases lefts with h | h <;> rcases rights with h' | h' <;> simp at h h' <;>
        obtain ⟨rfl, rfl, rfl⟩ := h <;> obtain ⟨rfl, rfl, rfl⟩ := h' <;> simp at hf
      · exact ⟨.refl _, rfl, rfl⟩
      · exact ⟨.swap _ _ _, rfl, rfl⟩
  | _ :: _ :: _ :: _ =>
      rcases lefts with h | h <;> simp at h

/-- Two threads of which at most one pair of ends is linked, and one if both have modules, are one
thread again. -/
theorem Crossed.join {p q : List String} {linked : List (End × End)} {left right : List End}
    (h : Crossed p q linked left right) (hone : linked.length ≤ 1)
    (hmost : ∀ a ∈ left, ∀ b ∈ right, linked ≠ [] ∨ a.1 = b.1) :
    ∃ path, path.Perm (p ++ q) ∧
      (linked.map step ++ (steps p ++ steps q)).Perm (steps path) ∧
      (left ++ right).Perm (ends path) := by
  rcases eq_or_ne p [] with rfl | hp
  · obtain ⟨rfl, rfl, hr⟩ := h.left_nil
    exact ⟨q, .refl _, .refl _, hr⟩
  rcases eq_or_ne q [] with rfl | hq
  · obtain ⟨rfl, rfl, hl⟩ := h.right_nil
    refine ⟨p, by rw [List.append_nil], ?_, by rwa [List.append_nil]⟩
    rw [List.map_nil, List.nil_append, steps_nil, List.append_nil]
  obtain ⟨a, b, ha, hb, hep⟩ := ends_of_ne_nil hp
  obtain ⟨c, d, hc, hd, heq⟩ := ends_of_ne_nil hq
  rcases h.cases hep heq with ⟨rfl, hs, hk⟩ | ⟨rfl, rfl, rfl⟩ | ⟨rfl, rfl, rfl⟩ | ⟨hperm, -⟩
  · rcases hmost _ hs _ hk with h | h
    · exact absurd rfl h
    · cases h
  · refine ⟨p ++ q, .refl _, ?_, ?_⟩
    · rw [steps_append, bridge_eq hb hc, List.append_assoc]
      show ((b, c) :: (steps p ++ steps q)).Perm (steps p ++ (b, c) :: steps q)
      exact List.perm_middle.symm
    · rw [ends_append ha hd]
      exact .swap _ _ _
  · refine ⟨q ++ p, List.perm_append_comm, ?_, ?_⟩
    · rw [steps_append, bridge_eq hd ha, List.append_assoc]
      show ((d, a) :: (steps p ++ steps q)).Perm (steps q ++ (d, a) :: steps p)
      exact (List.perm_append_comm.cons _).trans List.perm_middle.symm
    · rw [ends_append hc hb]
      exact .refl _
  · have := hperm.length_eq
    rw [List.length_map] at this
    simp only [List.length_cons, List.length_nil] at this
    omega

/-- What a thread leaves open is linked with itself when it is closed. -/
theorem close_thread {p : List String} {found : List (End × End)} {kept : List End}
    (h : (found.flatMap (fun l => [l.1, l.2]) ++ kept).Perm (ends p))
    (hfit : ∀ l ∈ found, l.1.1 ≠ l.2.1) (hapart : kept.Pairwise fun a b => a.1 = b.1) :
    found.map step = bridge p p ∧ kept = [] := by
  rcases eq_or_ne p [] with rfl | hp
  · have h := h.eq_nil
    rw [List.append_eq_nil_iff, List.flatMap_eq_nil_iff] at h
    obtain ⟨hfound, rfl⟩ := h
    cases found with
    | nil => exact ⟨rfl, rfl⟩
    | cons l rest => cases hfound l List.mem_cons_self
  · obtain ⟨a, b, ha, hb, hep⟩ := ends_of_ne_nil hp
    rw [hep, List.perm_pair] at h
    rw [bridge_eq hb ha]
    match found with
    | [] =>
        rcases h with h | h <;> simp at h <;> subst h <;> simp at hapart
    | [(x, y)] =>
        rcases h with h | h <;> simp at h <;> obtain ⟨rfl, rfl, rfl⟩ := h <;> exact ⟨rfl, rfl⟩
    | _ :: _ :: _ =>
        rcases h with h | h <;> simp at h

/-- Two threads whose fitting ends are all linked, across first and then whatever is left, make one
cycle. -/
theorem Crossed.close {p q : List String} {linked found : List (End × End)}
    {left right kept : List End} (h : Crossed p q linked left right)
    (hmost : ∀ a ∈ left, ∀ b ∈ right, a.1 = b.1)
    (hring : (found.flatMap (fun l => [l.1, l.2]) ++ kept).Perm (left ++ right))
    (hfit : ∀ l ∈ found, l.1.1 ≠ l.2.1) (hapart : kept.Pairwise fun a b => a.1 = b.1) :
    ∃ path, path.Perm (p ++ q) ∧
      ((linked ++ found).map step ++ (steps p ++ steps q)).Perm (cycle path) ∧ kept = [] := by
  rcases eq_or_ne p [] with rfl | hp
  · obtain ⟨rfl, rfl, hr⟩ := h.left_nil
    obtain ⟨hfound, hkept⟩ := close_thread (hring.trans hr) hfit hapart
    refine ⟨q, .refl _, ?_, hkept⟩
    rw [List.nil_append, hfound]
    exact List.perm_append_comm
  rcases eq_or_ne q [] with rfl | hq
  · obtain ⟨rfl, rfl, hl⟩ := h.right_nil
    rw [List.append_nil] at hring
    obtain ⟨hfound, hkept⟩ := close_thread (hring.trans hl) hfit hapart
    refine ⟨p, by rw [List.append_nil], ?_, hkept⟩
    rw [List.nil_append, hfound, steps_nil, List.append_nil]
    exact List.perm_append_comm
  obtain ⟨a, b, ha, hb, hep⟩ := ends_of_ne_nil hp
  obtain ⟨c, d, hc, hd, heq⟩ := ends_of_ne_nil hq
  rcases h.cases hep heq with ⟨rfl, hs, hk⟩ | ⟨rfl, rfl, rfl⟩ | ⟨rfl, rfl, rfl⟩ | ⟨hperm, rfl, rfl⟩
  · cases hmost _ hs _ hk
  · cases hmost _ List.mem_cons_self _ List.mem_cons_self
  · cases hmost _ List.mem_cons_self _ List.mem_cons_self
  · obtain ⟨hfound, hkept⟩ := close_thread (p := []) hring hfit hapart
    refine ⟨p ++ q, .refl _, ?_, hkept⟩
    have hends : bridge (p ++ q) (p ++ q) = [(d, a)] :=
      bridge_eq (by simp [List.getLast?_append, hd]) (by simp [List.head?_append, ha])
    rw [cycle, steps_append, bridge_eq hb hc, hends, List.map_append, hfound, bridge_nil_left,
      List.append_nil]
    refine (hperm.append_right _).trans ?_
    rw [List.append_assoc, List.append_assoc]
    show ((b, c) :: (d, a) :: (steps p ++ steps q)).Perm
      (steps p ++ (b, c) :: (steps q ++ [(d, a)]))
    refine List.Perm.trans (List.Perm.cons _ ?_) List.perm_middle.symm
    rw [← List.append_assoc]
    exact (List.perm_append_singleton _ _).symm

end HardwareLinker.Thread
