/-!
When a computation that may stop with an error succeeds, and when it stops, step by step.
-/

namespace HardwareLinker

variable {ε β γ : Type} {c : γ}

theorem bind_eq_ok_iff {x : Except ε β} {f : β → Except ε γ} :
    x >>= f = .ok c ↔ ∃ b, x = .ok b ∧ f b = .ok c := by
  cases x <;> simp [bind, Except.bind]

theorem bind_eq_error_iff {x : Except ε β} {f : β → Except ε γ} {e : ε} :
    x >>= f = .error e ↔ x = .error e ∨ ∃ b, x = .ok b ∧ f b = .error e := by
  cases x <;> simp [bind, Except.bind]

theorem map_eq_ok_iff {x : Except ε β} {f : β → γ} :
    x.map f = .ok c ↔ ∃ b, x = .ok b ∧ f b = c := by
  cases x <;> simp [Except.map]

theorem map_eq_error_iff {x : Except ε β} {f : β → γ} {e : ε} :
    x.map f = .error e ↔ x = .error e := by
  cases x <;> simp [Except.map]

/-- A check that stops the computation, and what it goes on with otherwise. -/
theorem refuse_eq_ok_iff {p : Prop} [Decidable p] {e : ε} {k : β → Except ε γ} {x : Except ε γ} :
    (if p then throw e >>= k else x) = .ok c ↔ ¬ p ∧ x = .ok c := by
  by_cases h : p <;> simp [h, bind, Except.bind, throw, throwThe, MonadExceptOf.throw]

/-- What every step keeps holds at the end. -/
theorem foldlM_invariant_of_mem {σ : Type} {f : σ → β → Except ε σ} {P : σ → Prop} {l : List β}
    (step : ∀ b ∈ l, ∀ s s', P s → f s b = .ok s' → P s') {s s' : σ} (start : P s)
    (run : l.foldlM f s = .ok s') : P s' := by
  induction l generalizing s with
  | nil =>
      cases run
      exact start
  | cons b l ih =>
      obtain ⟨here, later⟩ := List.forall_mem_cons.mp step
      rw [List.foldlM_cons] at run
      obtain ⟨s₁, head, tail⟩ := bind_eq_ok_iff.mp run
      exact ih later (here s s₁ start head) tail

theorem foldlM_invariant {σ : Type} {f : σ → β → Except ε σ} {P : σ → Prop}
    (step : ∀ s b s', P s → f s b = .ok s' → P s') {l : List β} {s s' : σ} (start : P s)
    (run : l.foldlM f s = .ok s') : P s' :=
  foldlM_invariant_of_mem (fun b _ s => step s b) start run

/-- An item that no state gets past stops the whole run. -/
theorem foldlM_error_of_mem {σ : Type} {f : σ → β → Except ε σ} {P : σ → Prop}
    (step : ∀ s b s', P s → f s b = .ok s' → P s') {l : List β} {b : β} (at_b : b ∈ l)
    (stops : ∀ s, P s → ∃ e, f s b = .error e) {s : σ} (start : P s) :
    ∃ e, l.foldlM f s = .error e := by
  induction l generalizing s with
  | nil => exact absurd at_b List.not_mem_nil
  | cons first l ih =>
      rw [List.foldlM_cons]
      cases List.mem_cons.mp at_b with
      | inl here =>
          obtain ⟨e, stopped⟩ := stops s start
          exact ⟨e, bind_eq_error_iff.mpr (.inl (here ▸ stopped))⟩
      | inr later =>
          cases head : f s first with
          | error e => exact ⟨e, rfl⟩
          | ok s₁ => exact ih later (step s first s₁ start head)

/-- What a list of results holds has been read from an item of the list. -/
theorem exists_of_mapM {f : β → Except ε γ} {l : List β} {results : List γ}
    (run : l.mapM f = .ok results) : ∀ c ∈ results, ∃ b ∈ l, f b = .ok c := by
  induction l generalizing results with
  | nil =>
      cases run
      simp
  | cons b l ih =>
      rw [List.mapM_cons] at run
      obtain ⟨head, hhead, run⟩ := bind_eq_ok_iff.mp run
      obtain ⟨tail, htail, run⟩ := bind_eq_ok_iff.mp run
      cases run
      refine List.forall_mem_cons.mpr ⟨⟨b, List.mem_cons_self, hhead⟩, fun c hc => ?_⟩
      obtain ⟨b', hb', read⟩ := ih htail c hc
      exact ⟨b', List.mem_cons_of_mem _ hb', read⟩

end HardwareLinker
