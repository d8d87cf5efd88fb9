import HardwareLinker.Command.Session
import HardwareLinker.Workspace
import HardwareLinker.Proofs.Graph.LoadOrder

/-!
Loading logs in any order. A run that loads logs merges what they announce, one after another, and
stops at the first that cannot be read or merged. For designs that connect every channel between two
points the order of the logs decides neither whether that succeeds nor, handles apart, what it
gives.
-/

namespace HardwareLinker.Command

open HardwareLinker.Graph (PointToPoint mergeAll AllFree Fit)

/-! ### What logs announce -/

/-- The text of a file as a command reads it. -/
def textAt (w : Workspace) (path : String) : Except IoFault String :=
  (w.read path).bind Host.textOfBytes

/-- The ends that a log announces, if it can be read and has no malformed record. -/
def announced? (w : Workspace) (path : String) : Option (List (Connection Binary64)) :=
  (textAt w path).toOption.bind fun text => (Graph.endsOfLog text).toOption

/-- None for a log that cannot be loaded at all. -/
def announced (w : Workspace) (path : String) : List (Connection Binary64) :=
  (announced? w path).getD []

theorem allFree_endsOfLines {lines : List String} {first : Nat}
    {ends : List (Connection Binary64)} (h : Graph.endsOfLines lines first = .ok ends) :
    AllFree ends := by
  induction lines generalizing first ends with
  | nil =>
      cases h
      exact nofun
  | cons line rest ih =>
      unfold Graph.endsOfLines at h
      cases hr : Connection.Record.ofLine line with
      | error f =>
          rw [hr] at h
          cases h
      | ok record =>
          rw [hr] at h
          obtain ⟨others, hothers, rfl⟩ := map_eq_ok h
          refine List.forall_mem_append.mpr ⟨?_, ih hothers⟩
          intro e he
          cases record with
          | none => cases he
          | some r =>
              obtain ⟨kind, -, rfl⟩ := List.mem_map.mp he
              exact ⟨rfl, rfl⟩

theorem allFree_announced (w : Workspace) (path : String) : AllFree (announced w path) := by
  unfold announced
  cases h : announced? w path with
  | none => exact nofun
  | some ends =>
      obtain ⟨text, -, h⟩ := Option.bind_eq_some_iff.mp h
      exact allFree_endsOfLines (toOption_eq_some.mp h)

/-! ### Runs -/

/-- A run that loads logs ends with a graph. -/
def Loads (w : Workspace) (paths : List String) (g : Graph Binary64) : Prop :=
  ((loadGraph .empty paths : Action (StateM Workspace) _).run.run w).1 = .ok (.ok g)

theorem run_loadGraph_cons (w : Workspace) (g : Graph Binary64) (path : String)
    (rest : List String) :
    (loadGraph g (path :: rest) : Action (StateM Workspace) _).run.run w =
      match textAt w path with
      | .error e => (.error ("cannot read " ++ path ++ ": " ++ e.message), w)
      | .ok text =>
        match extend g text with
        | .ok g => (loadGraph g rest : Action (StateM Workspace) _).run.run w
        | .error f => (.ok (.error (graphReport path f)), w) := by
  rw [loadGraph]
  change (ExceptT.bindCont _ ((textAt w path).mapError fun e =>
    "cannot read " ++ path ++ ": " ++ e.message) : StateM Workspace _) w = _
  cases textAt w path with
  | error e => rfl
  | ok text =>
      simp only [Except.mapError, ExceptT.bindCont]
      cases extend g text <;> rfl

theorem extend_eq_ok {g g' : Graph Binary64} {text : String} : extend g text = .ok g' ↔
    ∃ ends incoming, Graph.endsOfLog text = .ok ends ∧ Graph.ofConnections ends = .ok incoming ∧
      g.merge incoming = .ok g' := by
  constructor
  · intro h
    obtain ⟨ends, he, h⟩ := bind_eq_ok h
    obtain ⟨incoming, hi, h⟩ := bind_eq_ok h
    exact ⟨ends, incoming, he, hi, h⟩
  · intro ⟨ends, incoming, he, hi, h⟩
    unfold extend
    rw [he]
    change Graph.ofConnections ends >>= _ = _
    rw [hi]
    exact h

/-- A run ends with a graph just where every log announces ends and these merge to that graph. -/
theorem run_loadGraph_iff {w : Workspace} {g g' : Graph Binary64} {paths : List String} :
    ((loadGraph g paths : Action (StateM Workspace) _).run.run w).1 = .ok (.ok g') ↔
      (∀ path ∈ paths, (announced? w path).isSome = true) ∧
        mergeAll g (paths.map (announced w)) = .ok g' := by
  induction paths generalizing g with
  | nil =>
      rw [and_iff_right fun _ h => absurd h List.not_mem_nil]
      change Except.ok (Except.ok g) = _ ↔ Except.ok g = _
      simp
  | cons path rest ih =>
      rw [run_loadGraph_cons, List.forall_mem_cons, List.map_cons, Graph.mergeAll_cons]
      cases ht : textAt w path with
      | error e => simp [announced?, ht, Except.toOption]
      | ok text =>
          have announces {ends : List (Connection Binary64)} :
              announced? w path = some ends ↔ Graph.endsOfLog text = .ok ends := by
            rw [announced?, ht]
            exact toOption_eq_some
          constructor
          · intro h
            cases hx : extend g text with
            | error f => simp [hx] at h
            | ok merged =>
                simp only [hx] at h
                obtain ⟨later, h⟩ := ih.mp h
                obtain ⟨ends, incoming, he, hi, hm⟩ := extend_eq_ok.mp hx
                have hends := announces.mpr he
                refine ⟨⟨Option.isSome_of_eq_some hends, later⟩, incoming, merged, ?_, hm, h⟩
                rwa [announced, hends]
          · rintro ⟨⟨hsome, later⟩, incoming, merged, hi, hm, h⟩
            obtain ⟨ends, hends⟩ := Option.isSome_iff_exists.mp hsome
            rw [announced, hends] at hi
            have hx := extend_eq_ok.mpr ⟨ends, incoming, announces.mp hends, hi, hm⟩
            simp only [hx]
            exact ih.mpr ⟨later, h⟩

theorem allFree_map_announced (w : Workspace) (paths : List String) :
    ∀ part ∈ paths.map (announced w), AllFree part := by
  intro part hm
  obtain ⟨path, -, rfl⟩ := List.mem_map.mp hm
  exact allFree_announced w path

theorem loads_iff {w : Workspace} {paths : List String} : (∃ g, Loads w paths g) ↔
    (∀ path ∈ paths, (announced? w path).isSome = true) ∧ Fit (paths.map (announced w)) := by
  rw [← Graph.mergeAll_ok_iff (allFree_map_announced w paths), ← exists_and_left]
  exact exists_congr fun g => run_loadGraph_iff

/-! ### The order of logs -/

/-- Equal but for handles, together with what is derived from the graphs. -/
structure SameButHandles (g g' : Graph Binary64) (ρ : ConnectionId → ConnectionId) : Prop where
  renamed : g.Renamed ρ g'
  partners : ∀ c, g'.partner? (ρ c) = (g.partner? c).map ρ
  edges : g'.edges = g.edges
  unmatched : g'.unmatched = g.unmatched.map ρ
  hasUnmatched : g'.hasUnmatched = g.hasUnmatched

theorem sameButHandles {g g' : Graph Binary64} {ρ : ConnectionId → ConnectionId}
    (h : g.Renamed ρ g') : SameButHandles g g' ρ :=
  ⟨h, h.partner?, h.edges, h.unmatched, h.hasUnmatched⟩

/-- Where all logs together have at most one sending and one receiving end of every channel name,
the logs load in any order or in none; and all orders give one graph, which is also that of all
their ends at once, but for handles. -/
theorem loadGraph_order {w : Workspace} {paths paths' : List String} (hperm : paths.Perm paths')
    (hp : PointToPoint (paths.flatMap (announced w))) :
    ((∃ g, Loads w paths g) ↔ ∃ g, Loads w paths' g) ∧
    ∀ g, Loads w paths g →
      (∃ g', Loads w paths' g' ∧ ∃ ρ, SameButHandles g g' ρ) ∧
      ∃ g', Graph.ofConnections (paths.flatMap (announced w)) = .ok g' ∧
        ∃ ρ, SameButHandles g g' ρ := by
  have parts := hperm.map (announced w)
  have readable : (∀ path ∈ paths, (announced? w path).isSome = true) ↔
      ∀ path ∈ paths', (announced? w path).isSome = true :=
    forall_congr' fun path => by rw [hperm.mem_iff]
  constructor
  · rw [loads_iff, loads_iff, readable]
    exact and_congr_right fun _ => ⟨fun fit => fit.perm parts, fun fit => fit.perm parts.symm⟩
  · intro g hg
    obtain ⟨announces, merged⟩ := run_loadGraph_iff.mp hg
    obtain ⟨⟨g', h', ρ, renamed⟩, g'', h'', ρ', renamed'⟩ :=
      Graph.mergeAll_perm parts (allFree_map_announced w paths) hp merged
    exact ⟨⟨g', run_loadGraph_iff.mpr ⟨readable.mp announces, h'⟩, ρ, sameButHandles renamed⟩,
      g'', h'', ρ', sameButHandles renamed'⟩

/-! ### Three logs -/

def plainRecord (kind : Connection.RecordKind) (name owner : String) : Connection.Record :=
  { kind, type := "Bit#(1)", index := 0, name, optional := false, width := 1, owner,
    chainRoot := none }

def logOf (records : List Connection.Record) : Entry :=
  .file ("\n".intercalate (records.map fun r => "Dangling" ++ r.text)).toUTF8.toList

def headRecords : List Connection.Record := [plainRecord .send "x" "a", plainRecord .chain "s" "a"]

def bodyRecords : List Connection.Record := [plainRecord .recv "x" "b", plainRecord .chain "s" "b"]

def tailRecords : List Connection.Record := [plainRecord .chain "s" "c"]

/-- A channel from `a` to `b` and a chain through `a`, `b` and `c`, with a log for each module. -/
def threeLogs : Workspace :=
  { entries := [(["a.log"], logOf headRecords), (["b.log"], logOf bodyRecords),
      (["c.log"], logOf tailRecords)] }

theorem threeLogs_announced :
    announced? threeLogs "a.log" = some (headRecords.flatMap Connection.Record.connections) ∧
    announced? threeLogs "b.log" = some (bodyRecords.flatMap Connection.Record.connections) ∧
    announced? threeLogs "c.log" = some (tailRecords.flatMap Connection.Record.connections) := by
  decide +kernel

/-- With the last log first the modules come in another order, but the same graph is loaded. -/
theorem threeLogs_order :
    ["a.log", "b.log", "c.log"].Perm ["c.log", "a.log", "b.log"] ∧
    PointToPoint (["a.log", "b.log", "c.log"].flatMap (announced threeLogs)) ∧
    ∃ g g' ρ, Loads threeLogs ["a.log", "b.log", "c.log"] g ∧
      Loads threeLogs ["c.log", "a.log", "b.log"] g' ∧ SameButHandles g g' ρ := by
  obtain ⟨head, body, tail⟩ := threeLogs_announced
  have perm : ["a.log", "b.log", "c.log"].Perm ["c.log", "a.log", "b.log"] := by decide
  have parts : ["a.log", "b.log", "c.log"].map (announced threeLogs) =
      [headRecords, bodyRecords, tailRecords].map fun records =>
        records.flatMap Connection.Record.connections := by
    simp [announced, head, body, tail]
  have points : PointToPoint (["a.log", "b.log", "c.log"].flatMap (announced threeLogs)) := by
    rw [List.flatMap_def, parts]
    exact Graph.pointToPoint_of_nodup (by decide +kernel)
  obtain ⟨g, hg⟩ : ∃ g, Loads threeLogs ["a.log", "b.log", "c.log"] g := by
    rw [loads_iff, parts]
    exact ⟨by simp [head, body, tail], by decide +kernel, by decide +kernel⟩
  obtain ⟨⟨g', hg', ρ, same⟩, -⟩ := (loadGraph_order perm points).2 g hg
  exact ⟨perm, points, g, g', ρ, hg, hg', same⟩

end HardwareLinker.Command
