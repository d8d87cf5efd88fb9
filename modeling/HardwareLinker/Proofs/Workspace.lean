import HardwareLinker.Workspace
import HardwareLinker.Proofs.Pairs

/-!
What file operations do. A walk that succeeds ends where its names lead, and it goes on succeeding
as long as no directory is lost; so the files of one directory are told by the entries of places.
-/

namespace HardwareLinker

/-! ### Paths -/

namespace Route

/-- A name that can stand behind a directory. -/
structure Plain (name : String) : Prop where
  noSlash : '/' ∉ name.toList
  nonempty : name.isEmpty = false
  notDots : isDots name = false
  short : name.utf8ByteSize ≤ Workspace.nameLimit

def namesIn (text : List Char) : List String :=
  ((text.splitOn '/').map String.ofList).filter (! ·.isEmpty)

theorem namesIn_append (before after : List Char) :
    namesIn (before ++ '/' :: after) = namesIn before ++ namesIn after := by
  simp [namesIn, List.splitOn_append_cons_self]

theorem namesIn_plain {name : String} (h : Plain name) : namesIn name.toList = [name] := by
  rw [namesIn, List.splitOn_eq_singleton h.noSlash]
  simp [h.nonempty]

theorem startsWith_slash {s : String} : s.startsWith "/" = true ↔ s.toList.head? = some '/' := by
  rw [String.startsWith_string_iff]
  cases s.toList <;> simp [eq_comm]

theorem endsWith_slash {s : String} :
    s.endsWith "/" = true ↔ ∃ front, s.toList = front ++ ['/'] := by
  change s.toSlice.endsWith "/" = true ↔ _
  rw [String.Slice.endsWith_string_iff, String.copy_toSlice]
  exact exists_congr fun front => eq_comm

theorem ofText_joinPath {directory name : String} (h : Plain name) :
    ofText (joinPath directory name) =
      { ofText directory with
        names := (ofText directory).names ++ [name], asksDirectory := false } := by
  have filled : name.toList ≠ [] := fun e => by
    simpa [String.toList_eq_nil_iff.mp e] using h.nonempty
  have unrooted : name.toList.head? ≠ some '/' := fun e => h.noSlash (List.mem_of_head? e)
  -- The text of the directory is followed by a slash, be it its own, unless it is empty.
  obtain ⟨front, joined, start, names⟩ : ∃ front,
      (joinPath directory name).toList = front ++ name.toList ∧
      ((front ++ name.toList).head? = some '/' ↔ directory.toList.head? = some '/') ∧
      namesIn (front ++ name.toList) = namesIn directory.toList ++ [name] := by
    by_cases none : directory = ""
    · subst none
      refine ⟨[], by simp [joinPath], by simpa using unrooted, ?_⟩
      rw [List.nil_append, namesIn_plain h]
      rfl
    have start (after : List Char) :
        (directory.toList ++ after).head? = some '/' ↔ directory.toList.head? = some '/' := by
      rw [List.head?_append_of_ne_nil _ fun e => none (String.toList_eq_nil_iff.mp e)]
    by_cases slash : directory.endsWith "/" = true
    · obtain ⟨before, hbefore⟩ := endsWith_slash.mp slash
      refine ⟨directory.toList, by simp [joinPath, slash], start _, ?_⟩
      rw [hbefore, List.append_assoc, List.singleton_append, namesIn_append, namesIn_append,
        namesIn_plain h]
      exact congrArg (· ++ [name]) (List.append_nil _).symm
    · refine ⟨directory.toList ++ ['/'], by simp [joinPath, slash, none], ?_, ?_⟩
      · rw [List.append_assoc]
        exact start _
      · rw [List.append_assoc, List.singleton_append, namesIn_append, namesIn_plain h]
  have absolute : (joinPath directory name).startsWith "/" = directory.startsWith "/" := by
    rw [Bool.eq_iff_iff, startsWith_slash, startsWith_slash, joined, start]
  have asks : (joinPath directory name).endsWith "/" = false := by
    rw [← Bool.not_eq_true, endsWith_slash, joined]
    rintro ⟨other, e⟩
    have last := congrArg List.getLast? e
    rw [List.getLast?_append_of_ne_nil _ filled, List.getLast?_concat] at last
    exact h.noSlash (List.mem_of_getLast? last)
  simp only [ofText, absolute, asks]
  congr 1
  exact joined ▸ names

theorem mem_above {r above : Route} (h : above ∈ r.above) :
    above.absolute = r.absolute ∧ above.names <+: r.names.filter (· != ".") := by
  have shorter {l : List String} (h : above ∈ Route.above.shorten r l) :
      above.absolute = r.absolute ∧ above.names <+: l.reverse := by
    induction l with
    | nil => cases h
    | cons name rest ih =>
        rcases List.mem_cons.mp h with rfl | h
        · exact ⟨rfl, List.prefix_refl _⟩
        · refine ⟨(ih h).1, (ih h).2.trans ?_⟩
          rw [List.reverse_cons]
          exact List.prefix_append _ _
  obtain ⟨start, names⟩ := shorter h
  rw [List.reverse_reverse] at names
  exact ⟨start, names.trans (List.dropLast_prefix _)⟩

end Route

namespace Workspace

variable {w w' : Workspace} {p q : Place}

/-! ### Places -/

def fileAt (w : Workspace) (place : Place) : Option (List UInt8) :=
  match w.entry? place with
  | some (.file bytes) => some bytes
  | _ => none

theorem fileAt_eq_some {bytes : List UInt8} :
    w.fileAt p = some bytes ↔ w.entry? p = some (.file bytes) := by
  unfold fileAt
  split
  · next h => simp [h]
  · next h => simpa using fun e => h bytes e

theorem entry?_erase (hq : q ≠ []) :
    Workspace.entry? (w.erase q) p = if p = q then none else w.entry? p := by
  have kept (l : List (Place × Entry)) :
      (l.filter fun e => e.1 != q).lookup p = if p = q then none else l.lookup p := by
    induction l with
    | nil => simp
    | cons e rest ih =>
        obtain ⟨r, x⟩ := e
        by_cases hr : r = q
        · rw [List.filter_cons_of_neg (by simpa using hr), ih, List.lookup_cons]
          split
          · rfl
          · next hp => simp [show (p == r) = false by simpa [hr] using hp]
        · rw [List.filter_cons_of_pos (by simpa using hr), List.lookup_cons, List.lookup_cons, ih]
          by_cases hp : p = r
          · simp [hp, hr]
          · simp [show (p == r) = false by simpa using hp]
  by_cases root : p = []
  · subst root
    simp [hq.symm, entry?]
  · simp [root, erase, kept, entry?]

theorem entry?_put (hq : q ≠ []) (e : Entry) :
    Workspace.entry? (w.put q e) p = if p = q then some e else w.entry? p := by
  by_cases root : p = []
  · subst root
    simp [hq.symm, entry?]
  · have others := entry?_erase (w := w) (p := p) hq
    simp only [List.isEmpty_iff, root, if_false, entry?] at others ⊢
    rw [put, List.lookup_append, others, List.lookup_cons]
    by_cases hp : p = q
    · simp [hp]
    · simp [hp, show (p == q) = false by simpa using hp]

/-! ### Walks -/

theorem demandDirectory_eq_ok : w.demandDirectory p = .ok () ↔ w.entry? p = some .directory := by
  unfold demandDirectory
  split <;> simp_all

/-- Where a step leads if nothing hinders it. -/
def follow (here : Place) (name : String) : Place :=
  if name == "." then here else if name == ".." then here.dropLast else here ++ [name]

def destination (home : Place) (r : Route) : Place :=
  r.names.foldl follow (if r.absolute then [] else home)

theorem step_eq_ok {here : Place} {name : String} : w.step here name = .ok p ↔
    w.entry? here = some .directory ∧
      (Route.isDots name = true ∨ name.utf8ByteSize ≤ nameLimit) ∧ p = follow here name := by
  rw [← demandDirectory_eq_ok]
  unfold step follow Route.isDots
  cases hd : w.demandDirectory here with
  | error e => simp [bind, Except.bind]
  | ok =>
      change (if name == "." then .ok here else if name == ".." then .ok here.dropLast
        else if nameLimit < name.utf8ByteSize then .error .nameTooLong
        else .ok (here ++ [name]) : Except IoFault Place) = .ok p ↔ _
      generalize (name == ".") = one, (name == "..") = two
      cases one
      · cases two
        · by_cases long : nameLimit < name.utf8ByteSize
          · simp [long, Nat.not_le.mpr long]
          · simp [long, Nat.not_lt.mp long, eq_comm]
        · simp [eq_comm]
      · simp [eq_comm]

/-- Nothing is moved and no directory is lost. -/
structure Keeps (w w' : Workspace) : Prop where
  home : w'.home = w.home
  directories : ∀ {p}, w.entry? p = some .directory → w'.entry? p = some .directory

theorem Keeps.refl (w : Workspace) : Keeps w w := ⟨rfl, id⟩

theorem Keeps.trans {w'' : Workspace} (h : Keeps w w') (h' : Keeps w' w'') : Keeps w w'' :=
  ⟨h'.home.trans h.home, fun there => h'.directories (h.directories there)⟩

/-- A route leads to a directory. -/
def Leads (w : Workspace) (r : Route) (p : Place) : Prop :=
  w.walk r = .ok p ∧ w.entry? p = some .directory

theorem walk_eq_ok {r : Route} (h : w.walk r = .ok p) : p = destination w.home r := by
  have walked {names : List String} {here : Place} (h : names.foldlM w.step here = .ok p) :
      p = names.foldl follow here := by
    induction names generalizing here with
    | nil => exact (Except.ok.inj h).symm
    | cons name rest ih =>
        obtain ⟨there, hstep, h⟩ := bind_eq_ok h
        rw [List.foldl_cons, ← (step_eq_ok.mp hstep).2.2]
        exact ih h
  exact walked h

theorem Leads.eq_destination {r : Route} (h : w.Leads r p) : p = destination w.home r :=
  walk_eq_ok h.1

theorem Keeps.leads {r : Route} (kept : Keeps w w') (h : w.Leads r p) : w'.Leads r p := by
  have walked {names : List String} {here : Place} (h : names.foldlM w.step here = .ok p) :
      names.foldlM w'.step here = .ok p := by
    induction names generalizing here with
    | nil => exact h
    | cons name rest ih =>
        obtain ⟨there, hstep, h⟩ := bind_eq_ok h
        obtain ⟨hhere, hname, hthere⟩ := step_eq_ok.mp hstep
        rw [List.foldlM_cons, step_eq_ok.mpr ⟨kept.directories hhere, hname, hthere⟩]
        exact ih h
  have h' := walked h.1
  rw [← kept.home] at h'
  exact ⟨h', kept.directories h.2⟩

/-! ### The files of a directory -/

/-- A name in a directory is looked for at a place. -/
structure Looks (w : Workspace) (directory name : String) (q : Place) : Prop where
  short : (joinPath directory name).utf8ByteSize ≤ pathLimit
  leads : ∃ p, w.Leads (.ofText directory) p ∧ q = p ++ [name]

theorem Looks.eq_destination {directory name : String} (h : w.Looks directory name q) :
    q = destination w.home (.ofText directory) ++ [name] := by
  obtain ⟨p, hp, rfl⟩ := h.leads
  rw [hp.eq_destination]

theorem Keeps.looks {directory name : String} (kept : Keeps w w') (h : w.Looks directory name q) :
    w'.Looks directory name q := by
  obtain ⟨p, hp, e⟩ := h.leads
  exact ⟨h.short, p, kept.leads hp, e⟩

section

variable {directory name : String} (plain : Route.Plain name)

include plain

theorem step_plain {here : Place} :
    w.step here name = .ok q ↔ w.entry? here = some .directory ∧ q = here ++ [name] := by
  have dots := plain.notDots
  simp only [Route.isDots, Bool.or_eq_false_iff] at dots
  simp [step_eq_ok, follow, dots, Route.isDots, plain.short]

theorem walk_joinPath : w.walk (.ofText (joinPath directory name)) = .ok q ↔
    ∃ p, w.Leads (.ofText directory) p ∧ q = p ++ [name] := by
  rw [Route.ofText_joinPath plain]
  change ((Route.ofText directory).names ++ [name]).foldlM w.step _ = _ ↔ _
  rw [List.foldlM_append]
  change (w.walk (.ofText directory) >>= fun p => [name].foldlM w.step p) = _ ↔ _
  simp only [List.foldlM_cons, List.foldlM_nil, bind_pure]
  constructor
  · intro h
    obtain ⟨p, hp, h⟩ := bind_eq_ok h
    obtain ⟨hd, hq⟩ := (step_plain plain).mp h
    exact ⟨p, ⟨hp, hd⟩, hq⟩
  · rintro ⟨p, ⟨hp, hd⟩, hq⟩
    rw [hp]
    exact (step_plain plain).mpr ⟨hd, hq⟩

theorem site_joinPath {x : Place × Option String} :
    w.site (.ofText (joinPath directory name)) = .ok x ↔
      ∃ p, w.Leads (.ofText directory) p ∧ x = (p, some name) := by
  rw [Route.ofText_joinPath plain]
  unfold site
  simp only [List.dropLast_concat, List.getLast?_concat, Option.filter, plain.notDots,
    Bool.not_false, if_true]
  constructor
  · intro h
    obtain ⟨p, hp, h⟩ := bind_eq_ok h
    obtain ⟨⟨⟩, hd, h⟩ := bind_eq_ok h
    exact ⟨p, ⟨hp, demandDirectory_eq_ok.mp hd⟩, (Except.ok.inj h).symm⟩
  · rintro ⟨p, ⟨hp, hd⟩, rfl⟩
    change (w.walk (.ofText directory) >>= _) = _
    rw [hp]
    change (w.demandDirectory p >>= _) = _
    rw [demandDirectory_eq_ok.mpr hd]
    rfl

theorem routeOf_joinPath {r : Route} : routeOf (joinPath directory name) = .ok r ↔
    (joinPath directory name).utf8ByteSize ≤ pathLimit ∧
      r = .ofText (joinPath directory name) := by
  have filled : (joinPath directory name).isEmpty = false := by
    have := plain.nonempty
    unfold joinPath
    split <;> simp_all
  unfold routeOf
  rw [filled]
  by_cases long : pathLimit < (joinPath directory name).utf8ByteSize
  · simp [long, Nat.not_le.mpr long]
  · simp [long, Nat.not_lt.mp long, eq_comm]

theorem asksDirectory_joinPath :
    (Route.ofText (joinPath directory name)).asksDirectory = false := by
  rw [Route.ofText_joinPath plain]

theorem bind_walk_joinPath {β : Type} {f : Route → Place → Except IoFault β} {y : β} :
    (do let r ← routeOf (joinPath directory name)
        let q ← w.walk r
        f r q) = .ok y ↔
      ∃ q, w.Looks directory name q ∧ f (.ofText (joinPath directory name)) q = .ok y := by
  constructor
  · intro h
    obtain ⟨r, hr, h⟩ := bind_eq_ok h
    obtain ⟨short, rfl⟩ := (routeOf_joinPath plain).mp hr
    obtain ⟨q, hq, h⟩ := bind_eq_ok h
    exact ⟨q, ⟨short, (walk_joinPath plain).mp hq⟩, h⟩
  · rintro ⟨q, looks, h⟩
    rw [(routeOf_joinPath plain).mpr ⟨looks.short, rfl⟩]
    change (w.walk _ >>= _) = _
    rw [(walk_joinPath plain).mpr looks.leads]
    exact h

theorem read_joinPath {bytes : List UInt8} : w.read (joinPath directory name) = .ok bytes ↔
    ∃ q, w.Looks directory name q ∧
      (w.entry? q = some (.file bytes) ∨ w.entry? q = some .void ∧ bytes = []) := by
  refine (bind_walk_joinPath plain).trans (exists_congr fun q => and_congr_right fun _ => ?_)
  rw [asksDirectory_joinPath plain]
  rcases w.entry? q with - | ⟨⟨⟩ | - | -⟩ <;>
    simp [throw, throwThe, MonadExceptOf.throw, pure, Except.pure, eq_comm]

theorem bind_site_joinPath {β : Type} {f : Route → Place × Option String → Except IoFault β}
    {y : β} :
    (do let r ← routeOf (joinPath directory name)
        let x ← w.site r
        f r x) = .ok y ↔
      ∃ q, w.Looks directory name q ∧
        f (.ofText (joinPath directory name)) (q.dropLast, some name) = .ok y := by
  constructor
  · intro h
    obtain ⟨r, hr, h⟩ := bind_eq_ok h
    obtain ⟨short, rfl⟩ := (routeOf_joinPath plain).mp hr
    obtain ⟨x, hx, h⟩ := bind_eq_ok h
    obtain ⟨p, hp, rfl⟩ := (site_joinPath plain).mp hx
    exact ⟨p ++ [name], ⟨short, p, hp, rfl⟩, by rwa [List.dropLast_concat]⟩
  · rintro ⟨q, ⟨short, p, hp, rfl⟩, h⟩
    rw [(routeOf_joinPath plain).mpr ⟨short, rfl⟩]
    change (w.site _ >>= _) = _
    rw [(site_joinPath plain).mpr ⟨p, hp, rfl⟩]
    rwa [List.dropLast_concat] at h

theorem Looks.step (h : w.Looks directory name q) : w.step q.dropLast name = .ok q := by
  obtain ⟨p, hp, rfl⟩ := h.leads
  rw [List.dropLast_concat]
  exact (step_plain plain).mpr ⟨hp.2, rfl⟩

theorem write_joinPath {bytes : List UInt8} : w.write (joinPath directory name) bytes = .ok w' ↔
    ∃ q, w.Looks directory name q ∧ w.entry? q ≠ some .directory ∧
      w' = if w.entry? q = some .void then w else w.put q (.file bytes) := by
  refine (bind_site_joinPath plain).trans (exists_congr fun q => and_congr_right fun looks => ?_)
  rw [asksDirectory_joinPath plain]
  change (w.step q.dropLast name >>= _) = _ ↔ _
  rw [looks.step plain]
  simp only [bind, Except.bind]
  rcases w.entry? q with - | ⟨⟨⟩ | - | -⟩ <;>
    simp [throw, throwThe, MonadExceptOf.throw, pure, Except.pure, eq_comm]

theorem remove_joinPath : w.remove (joinPath directory name) = .ok w' ↔
    ∃ q, w.Looks directory name q ∧ w.entry? q ≠ some .directory ∧ w.entry? q ≠ none ∧
      w' = w.erase q := by
  refine (bind_walk_joinPath plain).trans (exists_congr fun q => and_congr_right fun _ => ?_)
  rw [asksDirectory_joinPath plain]
  rcases w.entry? q with - | ⟨⟨⟩ | - | -⟩ <;>
    simp [throw, throwThe, MonadExceptOf.throw, pure, Except.pure, eq_comm]

end

/-! ### Changes in one place -/

theorem change_of_ok {f : Workspace → Except IoFault Workspace} (h : f w = .ok w') :
    change f w = (.ok (), w') := by
  unfold change
  rw [h]

theorem change_of_error {f : Workspace → Except IoFault Workspace} {e : IoFault}
    (h : f w = .error e) : change f w = (.error e, w) := by
  unfold change
  rw [h]

/-- One place is changed, where no directory was; now a file is there or nothing. -/
structure EditedAt (w w' : Workspace) (q : Place) : Prop where
  home : w'.home = w.home
  others : ∀ p, p ≠ q → w'.entry? p = w.entry? p
  before : w.entry? q ≠ some .directory
  now : w'.entry? q = none ∨ ∃ bytes, w'.entry? q = some (.file bytes)

theorem EditedAt.keeps (h : EditedAt w w' q) : w.Keeps w' := by
  refine ⟨h.home, fun {p} hp => ?_⟩
  rw [h.others p fun e => h.before (e ▸ hp)]
  exact hp

theorem EditedAt.fileAt (h : EditedAt w w' q) (hp : p ≠ q) : w'.fileAt p = w.fileAt p := by
  unfold Workspace.fileAt
  rw [h.others p hp]

/-- An edit brings nothing but files. -/
theorem EditedAt.ne (h : EditedAt w w' q) {e : Entry} (he : ∀ bytes, e ≠ .file bytes)
    (hp : w.entry? p ≠ some e) : w'.entry? p ≠ some e := by
  by_cases same : p = q
  · subst same
    obtain now | ⟨bytes, now⟩ := h.now
    · simp [now]
    · rw [now]
      exact fun same => he bytes (Option.some.inj same).symm
  · rwa [h.others p same]

theorem ne_root (h : w.entry? q ≠ some .directory) : q ≠ [] := fun root => h (root ▸ rfl)

theorem editedAt_put {bytes : List UInt8} (h : w.entry? q ≠ some .directory) :
    EditedAt w (w.put q (.file bytes)) q where
  home := rfl
  others p hp := by rw [entry?_put (ne_root h), if_neg hp]
  before := h
  now := .inr ⟨bytes, by rw [entry?_put (ne_root h), if_pos rfl]⟩

theorem editedAt_erase (h : w.entry? q ≠ some .directory) : EditedAt w (w.erase q) q where
  home := rfl
  others p hp := by rw [entry?_erase (ne_root h), if_neg hp]
  before := h
  now := .inl (by rw [entry?_erase (ne_root h), if_pos rfl])

theorem route_of_routeOf {path : String} {r : Route} (h : routeOf path = .ok r) :
    r = .ofText path := by
  unfold routeOf at h
  split at h
  · cases h
  · split at h
    · cases h
    · exact (Except.ok.inj h).symm

/-- A file is written where its path leads to, unless there is a device. -/
theorem editedAt_of_write {path : String} {bytes : List UInt8} (h : w.write path bytes = .ok w') :
    w' = w ∨ EditedAt w w' (destination w.home (.ofText path)) := by
  obtain ⟨r, route, h⟩ := bind_eq_ok h
  obtain rfl := route_of_routeOf route
  obtain ⟨⟨here, last⟩, site, h⟩ := bind_eq_ok h
  obtain ⟨here', walked, site⟩ := bind_eq_ok site
  obtain ⟨-, -, site⟩ := bind_eq_ok site
  cases site
  cases last : ((Route.ofText path).names.getLast?.filter (! Route.isDots ·)) with
  | none =>
      rw [last] at h
      cases h
  | some name =>
      rw [last] at h
      dsimp only at h
      split at h
      · cases h
      obtain ⟨place, step, h⟩ := bind_eq_ok h
      obtain ⟨-, -, rfl⟩ := step_eq_ok.mp step
      have there : follow here name = destination w.home (.ofText path) := by
        have names := List.dropLast_append_getLast? name (Option.filter_eq_some_iff.mp last).1
        rw [walk_eq_ok walked, destination, destination]
        conv_rhs => rw [← names, List.foldl_append]
        rfl
      rw [there] at h
      split at h
      · cases h
      · exact .inl (Except.ok.inj h).symm
      · next free _ =>
        cases h
        exact .inr (editedAt_put free)

/-! ### New directories -/

/-- Nothing has changed but that directories have come where nothing was. -/
structure Grown (w w' : Workspace) : Prop where
  home : w'.home = w.home
  entries : ∀ p, w'.entry? p = w.entry? p ∨ w.entry? p = none ∧ w'.entry? p = some .directory

theorem Grown.refl (w : Workspace) : w.Grown w := ⟨rfl, fun _ => .inl rfl⟩

theorem Grown.trans {w'' : Workspace} (h : w.Grown w') (h' : w'.Grown w'') : w.Grown w'' := by
  refine ⟨h'.home.trans h.home, fun p => ?_⟩
  obtain e' | ⟨none', some'⟩ := h'.entries p
  · rw [e']
    exact h.entries p
  · obtain e | ⟨-, found⟩ := h.entries p
    · exact .inr ⟨e ▸ none', some'⟩
    · rw [none'] at found
      cases found

theorem Grown.keeps (h : w.Grown w') : w.Keeps w' := by
  refine ⟨h.home, fun {p} hp => ?_⟩
  obtain e | ⟨-, found⟩ := h.entries p
  · exact e.trans hp
  · exact found

theorem Grown.fileAt (h : w.Grown w') : w'.fileAt p = w.fileAt p := by
  unfold Workspace.fileAt
  obtain e | ⟨none, found⟩ := h.entries p
  · rw [e]
  · rw [none, found]

theorem grown_put (h : w.entry? q = none) : w.Grown (w.put q .directory) := by
  have hq : q ≠ [] := fun root => by
    rw [root] at h
    cases h
  refine ⟨rfl, fun p => ?_⟩
  rw [entry?_put hq]
  split
  · next hp => exact .inr ⟨hp ▸ h, rfl⟩
  · exact .inl rfl

theorem grown_makeDirectory {r : Route} (h : w.makeDirectory r = .ok w') : w.Grown w' := by
  obtain ⟨⟨here, name⟩, -, h⟩ := bind_eq_ok h
  cases name with
  | none => cases h
  | some name =>
      obtain ⟨q, -, h⟩ := bind_eq_ok h
      by_cases there : (w.entry? q).isSome = true
      · simp only [there, if_true] at h
        cases h
      · simp only [there] at h
        cases h
        exact grown_put (by simpa using there)

theorem grown_ensureDirectory {r : Route} (h : w.ensureDirectory r = .ok w') : w.Grown w' := by
  unfold ensureDirectory at h
  split at h
  · next made =>
    cases h
    exact grown_makeDirectory made
  · split at h
    · cases h
      exact .refl w
    · cases h

theorem grown_finish (r : Route) (w : Workspace) : w.Grown (ensureAlong.finish r w).2 := by
  unfold ensureAlong.finish
  split
  · next made => exact grown_ensureDirectory made
  · exact .refl w

theorem grown_ensureAlong (r : Route) (above : List Route) (w : Workspace) :
    w.Grown (w.ensureAlong r above).2 := by
  induction above generalizing r with
  | nil => exact grown_finish r w
  | cons next rest ih =>
      unfold ensureAlong
      split
      · next made => exact grown_ensureDirectory made
      · have first := ih next
        split
        · next h =>
          rw [h] at first
          exact first.trans (grown_finish r _)
        · exact first
      · exact .refl w

theorem grown_makeDirectories (w : Workspace) (path : String) :
    w.Grown (w.makeDirectories path).2 := by
  unfold makeDirectories
  by_cases none : path.isEmpty = true
  · rw [if_pos none]
    exact .refl w
  · rw [if_neg none]
    cases routeOf path with
    | ok r => exact grown_ensureAlong r _ w
    | error e => exact .refl w

/-- What is there is not made. -/
theorem not_leads_of_makeDirectory {r : Route} (h : w.makeDirectory r = .ok w') (p : Place) :
    ¬ w.Leads r p := by
  intro led
  obtain ⟨⟨here, name⟩, hsite, h⟩ := bind_eq_ok h
  obtain ⟨above, habove, hsite⟩ := bind_eq_ok hsite
  obtain ⟨⟨⟩, -, hsite⟩ := bind_eq_ok hsite
  obtain ⟨rfl, hname⟩ := Prod.mk.inj (Except.ok.inj hsite)
  cases name with
  | none => cases h
  | some name =>
      obtain ⟨q, hstep, h⟩ := bind_eq_ok h
      have last : r.names.dropLast ++ [name] = r.names :=
        List.dropLast_append_getLast? name (Option.filter_eq_some_iff.mp hname).1
      have walked : w.walk r = .ok q := by
        unfold walk
        rw [← last, List.foldlM_append]
        change (w.walk { r with names := r.names.dropLast } >>= _) = _
        rw [habove]
        simp only [List.foldlM_cons, List.foldlM_nil, bind_pure]
        exact hstep
      obtain rfl := Except.ok.inj (walked.symm.trans led.1)
      simp only [led.2, Option.isSome_some, if_true] at h
      cases h

theorem ensureDirectory_of_leads {r : Route} (led : w.Leads r p) : w.ensureDirectory r = .ok w := by
  have there : w.isDirectory r = true := by
    unfold isDirectory
    rw [led.1]
    exact decide_eq_true led.2
  unfold ensureDirectory
  split
  · next made => exact absurd led (not_leads_of_makeDirectory made p)
  · rw [if_pos there]

/-- Where a route leads to a directory, all that it leads through are directories. -/
theorem leads_above {r above : Route} (led : w.Leads r p) (h : above ∈ r.above) :
    ∃ q, w.Leads above q := by
  have through {names part : List String} {here : Place}
      (h : names.foldlM w.step here = .ok p) (hpart : part <+: names.filter (· != ".")) :
      ∃ q, part.foldlM w.step here = .ok q ∧ w.entry? q = some .directory := by
    induction names generalizing here part with
    | nil =>
        obtain rfl := List.prefix_nil.mp hpart
        exact ⟨p, h, led.2⟩
    | cons name rest ih =>
        obtain ⟨there, hstep, hrest⟩ := bind_eq_ok h
        obtain ⟨hhere, -, hthere⟩ := step_eq_ok.mp hstep
        by_cases dot : name = "."
        · subst dot
          obtain rfl : there = here := hthere
          exact ih hrest hpart
        · rw [List.filter_cons_of_pos (by simpa using dot)] at hpart
          cases part with
          | nil => exact ⟨here, rfl, hhere⟩
          | cons first part =>
              obtain ⟨rfl, shorter⟩ := List.cons_prefix_cons.mp hpart
              rw [List.foldlM_cons, hstep]
              exact ih hrest shorter
  obtain ⟨start, names⟩ := Route.mem_above h
  obtain ⟨q, hq, there⟩ := through led.1 names
  refine ⟨q, ?_, there⟩
  unfold walk
  rw [start]
  exact hq

theorem makeDirectories_of_leads {path : String} (led : w.Leads (.ofText path) p)
    (short : path.utf8ByteSize ≤ pathLimit) : w.makeDirectories path = (.ok (), w) := by
  unfold makeDirectories
  by_cases none : path.isEmpty = true
  · rw [if_pos none]
  · have route : routeOf path = .ok (.ofText path) := by
      unfold routeOf
      rw [if_neg none, if_neg (Nat.not_lt.mpr short)]
    rw [if_neg none, route]
    change w.ensureAlong _ _ = _
    cases (Route.ofText path).above <;>
      simp only [ensureAlong, ensureAlong.finish, ensureDirectory_of_leads led]

end Workspace
end HardwareLinker
