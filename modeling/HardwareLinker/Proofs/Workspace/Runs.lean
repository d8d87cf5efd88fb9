import HardwareLinker.Proofs.Workspace.Frail

/-!
Runs of programs on a machine that is sound. Of two programs one after the other the second goes on
with the files that the first has left, unless the first fails; and every such run is one that a
machine on which nothing can be relied on may make as well.
-/

namespace HardwareLinker

variable {ε β γ : Type} {w w' : Workspace}

/-! ### Ends -/

/-- Started on given files, a program ends with a result and leaves other files. -/
def Ends (program : ExceptT ε (StateM Workspace) β) (w : Workspace) (result : Except ε β)
    (w' : Workspace) : Prop :=
  program.run.run w = (result, w')

theorem Ends.unique {program : ExceptT ε (StateM Workspace) β} {result result' : Except ε β}
    {w'' : Workspace} (h : Ends program w result w') (h' : Ends program w result' w'') :
    result = result' ∧ w' = w'' :=
  Prod.mk.inj (h.symm.trans h')

theorem ends_pure {x : β} {result : Except ε β} :
    Ends (pure x : ExceptT ε (StateM Workspace) β) w result w' ↔ result = .ok x ∧ w' = w := by
  change (Except.ok x, w) = (result, w') ↔ _
  rw [Prod.mk.injEq, eq_comm, @eq_comm _ w]

theorem ends_lift {program : StateM Workspace β} {result : Except ε β} :
    Ends (ExceptT.lift program : ExceptT ε (StateM Workspace) β) w result w' ↔
      result = .ok (program.run w).1 ∧ w' = (program.run w).2 := by
  change (Except.ok (program.run w).1, (program.run w).2) = (result, w') ↔ _
  rw [Prod.mk.injEq, eq_comm, @eq_comm _ (program.run w).2]

theorem ends_bind {program : ExceptT ε (StateM Workspace) β}
    {rest : β → ExceptT ε (StateM Workspace) γ} {result : Except ε γ} :
    Ends (program >>= rest) w result w' ↔
      (∃ x w₁, Ends program w (.ok x) w₁ ∧ Ends (rest x) w₁ result w') ∨
        ∃ e, Ends program w (.error e) w' ∧ result = .error e := by
  unfold Ends
  change (ExceptT.bindCont rest (program.run.run w).1 : StateM Workspace _) (program.run.run w).2 =
    (result, w') ↔ _
  rcases program.run.run w with ⟨e | x, w₁⟩
  · constructor
    · intro h
      obtain ⟨rfl, rfl⟩ := Prod.mk.inj h
      exact .inr ⟨e, rfl, rfl⟩
    · rintro (⟨x, w₂, first, -⟩ | ⟨e', first, rfl⟩)
      · cases first
      · cases first
        rfl
  · constructor
    · exact fun h => .inl ⟨x, w₁, rfl, h⟩
    · rintro (⟨x', w₂, first, h⟩ | ⟨e', first, -⟩)
      · cases first
        exact h
      · cases first

/-- After a program that does not fail another one goes on. -/
theorem Ends.bind {program : ExceptT ε (StateM Workspace) β}
    {rest : β → ExceptT ε (StateM Workspace) γ} {result : Except ε γ} {x : β} {w₁ : Workspace}
    (first : Ends program w (.ok x) w₁) (then_ : Ends (rest x) w₁ result w') :
    Ends (program >>= rest) w result w' :=
  ends_bind.mpr (.inl ⟨x, w₁, first, then_⟩)

theorem ends_adapt {ε' : Type} {program : ExceptT ε (StateM Workspace) β} {f : ε → ε'}
    {result : Except ε' β} : Ends (program.adapt f) w result w' ↔
      ∃ answer, Ends program w answer w' ∧ result = answer.mapError f := by
  constructor
  · intro h
    obtain ⟨rfl, rfl⟩ := Prod.mk.inj h
    exact ⟨_, rfl, rfl⟩
  · rintro ⟨answer, h, rfl⟩
    change (((program.run.run w).1).mapError f, (program.run.run w).2) = _
    rw [h]

theorem run_bind {program : StateM Workspace β} {rest : β → StateM Workspace γ} {x : β}
    {w₁ : Workspace} (h : program.run w = (x, w₁)) :
    (program >>= rest).run w = (rest x).run w₁ := by
  change (rest (program.run w).1).run (program.run w).2 = _
  rw [h]

/-! ### Programs that only read -/

/-- Whatever comes of it, nothing is changed. -/
def Reads (program : StateM Workspace β) : Prop := ∀ w, (program.run w).2 = w

theorem Reads.eq {program : ExceptT ε (StateM Workspace) β} (reads : Reads program.run)
    {result : Except ε β} (h : Ends program w result w') : w' = w := by
  have same := reads w
  rwa [show program.run.run w = (result, w') from h] at same

theorem Reads.pure (x : β) : Reads (Pure.pure x) := fun _ => rfl

theorem Reads.bind {program : StateM Workspace β} {rest : β → StateM Workspace γ}
    (reads : Reads program) (reads' : ∀ x, Reads (rest x)) : Reads (program >>= rest) :=
  fun w => (reads' _ _).trans (reads w)

theorem Reads.bindExcept {program : ExceptT ε (StateM Workspace) β}
    {rest : β → ExceptT ε (StateM Workspace) γ} (reads : Reads program.run)
    (reads' : ∀ x, Reads (rest x).run) : Reads (program >>= rest).run := by
  change Reads (program.run >>= ExceptT.bindCont rest)
  refine reads.bind fun answer => ?_
  cases answer with
  | error e => exact .pure _
  | ok x => exact reads' x

/-! ### Sound and frail machines -/

/-- What a program does on a sound machine, one that is frail may do. -/
def Sound (program : StateM Workspace β) (frail : Frail β) : Prop :=
  ∀ w, frail w (some (program.run w).1) (program.run w).2

theorem Sound.pure (x : β) : Sound (Pure.pure x) (Pure.pure x) := fun _ => ⟨rfl, rfl⟩

theorem Sound.bind {program : StateM Workspace β} {frail : Frail β}
    {rest : β → StateM Workspace γ} {rest' : β → Frail γ} (h : Sound program frail)
    (h' : ∀ x, Sound (rest x) (rest' x)) : Sound (program >>= rest) (frail >>= rest') :=
  fun w => .inl ⟨_, _, h w, h' _ _⟩

theorem Sound.map {program : StateM Workspace β} {frail : Frail β} (f : β → γ)
    (h : Sound program frail) : Sound (f <$> program) (f <$> frail) :=
  fun w => .inl ⟨_, _, h w, rfl, rfl⟩

theorem Sound.bindExcept {program : ExceptT ε (StateM Workspace) β} {frail : ExceptT ε Frail β}
    {rest : β → ExceptT ε (StateM Workspace) γ} {rest' : β → ExceptT ε Frail γ}
    (h : Sound program.run frail.run) (h' : ∀ x, Sound (rest x).run (rest' x).run) :
    Sound (program >>= rest).run (frail >>= rest').run := by
  change Sound (program.run >>= ExceptT.bindCont rest) (frail.run >>= ExceptT.bindCont rest')
  refine Sound.bind h fun answer => ?_
  cases answer with
  | error e => exact .pure _
  | ok x => exact h' x

theorem Sound.ends {program : ExceptT ε (StateM Workspace) β} {frail : ExceptT ε Frail β}
    (h : Sound program.run frail.run) {result : Except ε β} (ran : Ends program w result w') :
    frail.run w (some result) w' := by
  have may := h w
  rwa [show program.run.run w = (result, w') from ran] at may

/-! ### Streams -/

/-- Nothing but what has been printed and reported differs. -/
def SameFiles (w w' : Workspace) : Prop := ∃ printed reported, w' = { w with printed, reported }

theorem SameFiles.refl (w : Workspace) : SameFiles w w := ⟨_, _, rfl⟩

theorem SameFiles.trans {w'' : Workspace} (h : SameFiles w w') (h' : SameFiles w' w'') :
    SameFiles w w'' := by
  obtain ⟨_, _, rfl⟩ := h
  obtain ⟨printed, reported, rfl⟩ := h'
  exact ⟨printed, reported, rfl⟩

theorem SameFiles.read (h : SameFiles w w') (path : String) : w'.read path = w.read path := by
  obtain ⟨printed, reported, rfl⟩ := h
  rfl

end HardwareLinker
