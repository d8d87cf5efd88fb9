/-!
Finite maps from names, in ascending name order. The order is part of the type, so two maps with
the same bindings are equal.
-/

namespace HardwareLinker

structure NameMap (β : Type) where
  entries : List (String × β)
  ascending : entries.Pairwise (fun a b => a.1 < b.1)

namespace NameMap

variable {β γ : Type}

theorem ext_entries {a b : NameMap β} (h : a.entries = b.entries) : a = b := by
  cases a; cases b; cases h; rfl

instance [DecidableEq β] : DecidableEq (NameMap β) := fun a b =>
  if h : a.entries = b.entries then isTrue (ext_entries h)
  else isFalse fun e => h (by rw [e])

def empty : NameMap β := ⟨[], .nil⟩

instance : Inhabited (NameMap β) := ⟨empty⟩

def insertEntry (k : String) (v : β) : List (String × β) → List (String × β)
  | [] => [(k, v)]
  | e :: rest =>
    if k < e.1 then (k, v) :: e :: rest
    else if e.1 < k then e :: insertEntry k v rest
    else (k, v) :: rest

theorem lt_trichotomy (a b : String) : a < b ∨ a = b ∨ b < a := by
  by_cases h : a < b
  · exact .inl h
  · by_cases h' : b < a
    · exact .inr (.inr h')
    · exact .inr (.inl (String.le_antisymm (String.not_lt.1 h') (String.not_lt.1 h)))

theorem mem_insertEntry {k : String} {v : β} {l : List (String × β)} {e : String × β}
    (h : e ∈ insertEntry k v l) : e = (k, v) ∨ e ∈ l := by
  induction l with
  | nil => simpa [insertEntry] using h
  | cons d rest ih =>
    simp only [insertEntry] at h
    split at h
    · simpa using h
    · split at h
      · rcases List.mem_cons.1 h with h | h
        · exact .inr (by simp [h])
        · exact (ih h).imp id (List.mem_cons_of_mem _)
      · exact (List.mem_cons.1 h).imp id (List.mem_cons_of_mem _)

theorem pairwise_insertEntry {k : String} {v : β} {l : List (String × β)}
    (h : l.Pairwise (fun a b => a.1 < b.1)) :
    (insertEntry k v l).Pairwise (fun a b => a.1 < b.1) := by
  induction l with
  | nil => simp [insertEntry]
  | cons d rest ih =>
    obtain ⟨hd, hr⟩ := List.pairwise_cons.1 h
    simp only [insertEntry]
    split
    · next hk =>
      refine List.pairwise_cons.2 ⟨fun e he => ?_, h⟩
      rcases List.mem_cons.1 he with he | he
      · exact he ▸ hk
      · exact String.lt_trans hk (hd e he)
    · split
      · next hk =>
        refine List.pairwise_cons.2 ⟨fun e he => ?_, ih hr⟩
        rcases mem_insertEntry he with he | he
        · exact he ▸ hk
        · exact hd e he
      · next h1 h2 =>
        have hk : k = d.1 := by
          rcases lt_trichotomy k d.1 with h | h | h
          · exact absurd h h1
          · exact h
          · exact absurd h h2
        exact List.pairwise_cons.2 ⟨fun e he => hk ▸ hd e he, hr⟩

/-- Binds a name; an earlier binding of it is lost. -/
def insert (m : NameMap β) (k : String) (v : β) : NameMap β :=
  ⟨insertEntry k v m.entries, pairwise_insertEntry m.ascending⟩

def find? (m : NameMap β) (k : String) : Option β :=
  (m.entries.find? fun e => e.1 == k).map Prod.snd

def contains (m : NameMap β) (k : String) : Bool := m.entries.any fun e => e.1 == k

def keys (m : NameMap β) : List String := m.entries.map Prod.fst

def values (m : NameMap β) : List β := m.entries.map Prod.snd

def size (m : NameMap β) : Nat := m.entries.length

def isEmpty (m : NameMap β) : Bool := m.entries.isEmpty

/-- A later binding of a name wins. -/
def insertAll (m : NameMap β) (l : List (String × β)) : NameMap β :=
  l.foldl (fun m e => m.insert e.1 e.2) m

def ofList (l : List (String × β)) : NameMap β := empty.insertAll l

/-- Changes every value, seeing its name, and keeps the names. -/
def mapValues (f : String → β → γ) (m : NameMap β) : NameMap γ :=
  ⟨m.entries.map fun e => (e.1, f e.1 e.2), by
    rw [List.pairwise_map]; exact m.ascending⟩

/-- Changes the value bound to one name, if there is one. -/
def modify (m : NameMap β) (k : String) (f : β → β) : NameMap β :=
  m.mapValues fun key v => if key == k then f v else v

def filter (m : NameMap β) (p : String → β → Bool) : NameMap β :=
  ⟨m.entries.filter fun e => p e.1 e.2, m.ascending.filter _⟩

def erase (m : NameMap β) (k : String) : NameMap β := m.filter fun key _ => key != k

/-- Adds an item to the list bound to a name. -/
def append (m : NameMap (List β)) (k : String) (v : β) : NameMap (List β) :=
  m.insert k ((m.find? k).getD [] ++ [v])

end NameMap

/-- Finite sets of names, as their ascending lists. -/
abbrev NameSet := NameMap Unit

namespace NameSet

def ofList (names : List String) : NameSet := NameMap.ofList (names.map fun n => (n, ()))

def toList (s : NameSet) : List String := NameMap.keys s

end NameSet
end HardwareLinker
