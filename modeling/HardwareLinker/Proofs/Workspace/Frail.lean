import HardwareLinker.Proofs.Workspace

/-!
A machine that nothing can be relied on: before it has done what it was told it may refuse to go on
or stop, and what it has done until then stays. A program is run by it as by a machine that is
sound, but may end in many ways.
-/

namespace HardwareLinker

/-- The ends that a program may come to from given files: what it gives, if the machine does not
stop, and the files then. -/
def Frail (β : Type) : Type := Workspace → Option β → Workspace → Prop

namespace Frail

open Workspace

instance : Monad Frail where
  pure x := fun w result w' => result = some x ∧ w' = w
  bind program rest := fun w result w' =>
    (∃ x w₁, program w (some x) w₁ ∧ rest x w₁ result w') ∨ program w none w' ∧ result = none

/-- The ends of one operation, by its end on a sound machine and the files that a part of it
leaves. -/
inductive Attempt {β : Type} (whole : Except IoFault β × Workspace) (part : Workspace → Prop) :
    Option (Except IoFault β) → Workspace → Prop
  | done : Attempt whole part (some whole.1) whole.2
  | refused (reason : String) {w' : Workspace} (h : part w') :
    Attempt whole part (some (.error (.other reason))) w'
  | stopped {w' : Workspace} (h : part w') : Attempt whole part none w'

/-- Some of the directories of given routes have been made. -/
inductive PartlyMade (routes : List Route) (w : Workspace) : Workspace → Prop
  | start : PartlyMade routes w w
  | next {w₁ w₂ : Workspace} {r : Route} (h : PartlyMade routes w w₁) (hr : r ∈ routes)
    (made : w₁.makeDirectory r = .ok w₂) : PartlyMade routes w w₂

/-- A file has been written up to some byte. -/
inductive PartlyWritten (path : String) (bytes : List UInt8) (w : Workspace) : Workspace → Prop
  | start : PartlyWritten path bytes w w
  | upTo {w' : Workspace} (n : Nat) (h : w.write path (bytes.take n) = .ok w') :
    PartlyWritten path bytes w w'

/-- A file is renamed or removed at once or not at all. -/
instance : Host Frail where
  read path := fun w => Attempt (w.read path, w) (· = w)
  write path bytes := fun w =>
    Attempt (change (·.write path bytes) w) (PartlyWritten path bytes w)
  makeDirectories path := fun w =>
    Attempt (w.makeDirectories path) (PartlyMade (.ofText path :: (Route.ofText path).above) w)
  rename source target := fun w => Attempt (change (·.rename source target) w) (· = w)
  remove path := fun w => Attempt (change (·.remove path) w) (· = w)
  print s := fun w result w' =>
    result = some () ∧ w' = { w with printed := w.printed ++ s } ∨ result = none ∧ w' = w
  report s := fun w result w' =>
    result = some () ∧ w' = { w with reported := w.reported ++ s } ∨ result = none ∧ w' = w

variable {w w' : Workspace} {path : String}

/-- What a sound machine does may be done. -/
theorem Attempt.of_eq {β : Type} {whole : Except IoFault β × Workspace} {part : Workspace → Prop}
    {answer : Except IoFault β} (h : whole = (answer, w')) :
    Attempt whole part (some answer) w' := by
  rw [← Prod.eta whole, Prod.mk.injEq] at h
  obtain ⟨rfl, rfl⟩ := h
  exact .done

theorem Attempt.of_change {f : Workspace → Except IoFault Workspace} {part : Workspace → Prop}
    (h : f w = .ok w') : Attempt (change f w) part (some (.ok ())) w' :=
  of_eq (change_of_ok h)

theorem map_ends {β γ : Type} {program : Frail β} {f : β → γ} {result : Option γ}
    (h : (do return f (← program)) w result w') :
    ∃ answer, program w answer w' ∧ result = answer.map f := by
  obtain ⟨x, w₁, h, rfl, rfl⟩ | ⟨h, rfl⟩ := h
  · exact ⟨some x, h, rfl⟩
  · exact ⟨none, h, rfl⟩

theorem PartlyMade.grown {routes : List Route} (h : PartlyMade routes w w') : w.Grown w' := by
  induction h with
  | start => exact .refl w
  | next _ _ made ih => exact ih.trans (grown_makeDirectory made)

/-- Directories may be made or not, but nothing else happens. -/
theorem grown_of_makeDirectories {result : Option (Except IoFault Unit)}
    (h : (Host.makeDirectories path : Frail _) w result w') : w.Grown w' := by
  cases h with
  | done => exact grown_makeDirectories w path
  | refused _ h => exact h.grown
  | stopped h => exact h.grown

/-- Directories that are there are not made again. -/
theorem eq_of_makeDirectories {p : Place} (led : w.Leads (.ofText path) p)
    (short : path.utf8ByteSize ≤ pathLimit) {result : Option (Except IoFault Unit)}
    (h : (Host.makeDirectories path : Frail _) w result w') : w' = w := by
  have still {w'} (h : PartlyMade (.ofText path :: (Route.ofText path).above) w w') : w' = w := by
    induction h with
    | start => rfl
    | @next w₁ _ r _ hr made ih =>
        subst ih
        obtain ⟨q, there⟩ : ∃ q, w₁.Leads r q := by
          rcases List.mem_cons.mp hr with rfl | above
          · exact ⟨p, led⟩
          · exact leads_above led above
        exact absurd there (not_leads_of_makeDirectory made q)
  cases h with
  | done => rw [makeDirectories_of_leads led short]
  | refused _ h => exact still h
  | stopped h => exact still h

theorem eq_of_read {result : Option (Except IoFault (List UInt8))}
    (h : (Host.read path : Frail _) w result w') : w' = w := by
  cases h with
  | done => rfl
  | refused _ h => exact h
  | stopped h => exact h

theorem Attempt.change_ends {f : Workspace → Except IoFault Workspace} {part : Workspace → Prop}
    {result : Option (Except IoFault Unit)} (h : Attempt (change f w) part result w') :
    result = some (.ok ()) ∧ f w = .ok w' ∨
      (∃ e, result = some (.error e) ∧ f w = .error e ∧ w' = w) ∨
      part w' ∧ ∀ answer, result = some answer → ∃ reason, answer = .error (.other reason) := by
  cases h with
  | done =>
      unfold change
      cases f w with
      | ok changed => exact .inl ⟨rfl, rfl⟩
      | error e => exact .inr (.inl ⟨e, rfl, rfl, rfl⟩)
  | refused reason h => exact .inr (.inr ⟨h, fun _ e => ⟨reason, (Option.some.inj e).symm⟩⟩)
  | stopped h => exact .inr (.inr ⟨h, nofun⟩)

/-- A change that does not succeed is not made or made in part. -/
theorem Attempt.change_ok_or {f : Workspace → Except IoFault Workspace} {part : Workspace → Prop}
    {result : Option (Except IoFault Unit)} (h : Attempt (change f w) part result w') :
    result = some (.ok ()) ∧ f w = .ok w' ∨ (∀ x, result ≠ some (.ok x)) ∧ (w' = w ∨ part w') := by
  obtain h | ⟨e, rfl, -, rfl⟩ | ⟨h, refused⟩ := h.change_ends
  · exact .inl h
  · exact .inr ⟨nofun, .inl rfl⟩
  · refine .inr ⟨fun x hx => ?_, .inr h⟩
    obtain ⟨reason, e⟩ := refused _ hx
    cases e

theorem write_ends {bytes : List UInt8} {result : Option (Except IoFault Unit)}
    (h : (Host.write path bytes : Frail _) w result w') :
    result = some (.ok ()) ∧ w.write path bytes = .ok w' ∨
      (∀ x, result ≠ some (.ok x)) ∧ (w' = w ∨ ∃ part, w.write path part = .ok w') := by
  refine (Attempt.change_ok_or h).imp id fun h => ⟨h.1, h.2.elim .inl fun part => ?_⟩
  cases part with
  | start => exact .inl rfl
  | upTo n h => exact .inr ⟨_, h⟩

theorem rename_ends {target : String} {result : Option (Except IoFault Unit)}
    (h : (Host.rename path target : Frail _) w result w') :
    result = some (.ok ()) ∧ w.rename path target = .ok w' ∨
      (∀ x, result ≠ some (.ok x)) ∧ w' = w :=
  (Attempt.change_ok_or h).imp id fun h => ⟨h.1, h.2.elim id id⟩

/-- A machine that says that a file is missing looked for it. -/
theorem remove_ends {result : Option (Except IoFault Unit)}
    (h : (Host.remove path : Frail _) w result w') :
    result = some (.ok ()) ∧ w.remove path = .ok w' ∨
      (∀ x, result ≠ some (.ok x)) ∧ w' = w ∧
        (result = some (.error .notFound) → w.remove path = .error .notFound) := by
  obtain h | ⟨e, rfl, failed, rfl⟩ | ⟨h, refused⟩ := Attempt.change_ends h
  · exact .inl h
  · exact .inr ⟨nofun, rfl, fun he => by rw [failed, Except.error.inj (Option.some.inj he)]⟩
  · refine .inr ⟨fun x hx => ?_, h, fun missing => ?_⟩
    · obtain ⟨reason, e⟩ := refused _ hx
      cases e
    · obtain ⟨reason, e⟩ := refused _ missing
      cases e

end Frail
end HardwareLinker
