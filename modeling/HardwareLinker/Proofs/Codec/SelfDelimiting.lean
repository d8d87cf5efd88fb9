import HardwareLinker.Proofs.Codec

/-!
A value says itself where it ends. Reading looks at no byte behind the value that it gives, so more
bytes there change nothing; hence nothing can be read from what was written if its end is missing.
-/

namespace HardwareLinker.Codec

variable {β γ : Type}

/-- Bytes behind a value change neither the value nor where it ends. -/
def SelfDelimiting (c : Codec β) : Prop :=
  ∀ bytes x rest, c.read bytes = some (x, rest) → ∀ more,
    c.read (bytes ++ more) = some (x, rest ++ more)

/-- Nothing is read from a value that was not written to its end. -/
theorem SelfDelimiting.read_torn {c : Codec β} (h : c.SelfDelimiting) {x : β} (back : c.ReadsBack x)
    {torn : List UInt8} (cut : torn <+: c.write x) (strict : torn ≠ c.write x) :
    c.read torn = none := by
  rw [Option.eq_none_iff_forall_ne_some]
  intro ⟨y, rest⟩ hread
  obtain ⟨missing, whole⟩ := cut
  have early := h torn y rest hread missing
  have complete := back []
  rw [List.append_nil, ← whole, early] at complete
  have nothing : rest ++ missing = [] := (Prod.mk.inj (Option.some.inj complete)).2
  obtain ⟨-, rfl⟩ := List.append_eq_nil_iff.mp nothing
  exact strict (by rw [← whole, List.append_nil])

/-! ### Numbers -/

theorem raw_eq_some {width : Nat} {bytes digits rest : List UInt8} :
    (raw width).read bytes = some (digits, rest) ↔
      digits.length = width ∧ bytes = digits ++ rest := by
  simp only [raw]
  constructor
  · intro h
    split at h
    · next enough =>
      obtain ⟨rfl, rfl⟩ : bytes.take width = digits ∧ bytes.drop width = rest := by
        simpa [List.splitAt_eq] using h
      exact ⟨by rw [List.length_take, Nat.min_eq_left enough], (List.take_append_drop ..).symm⟩
    · cases h
  · rintro ⟨rfl, rfl⟩
    simp [List.splitAt_eq]

theorem raw_eq_none {width : Nat} {bytes : List UInt8} :
    (raw width).read bytes = none ↔ bytes.length < width := by
  simp [raw]

theorem selfDelimiting_raw (width : Nat) : (raw width).SelfDelimiting := by
  intro bytes digits rest h more
  obtain ⟨length, rfl⟩ := raw_eq_some.mp h
  exact raw_eq_some.mpr ⟨length, List.append_assoc ..⟩

theorem selfDelimiting_word (width : Nat) : (word width).SelfDelimiting := by
  intro bytes n rest h more
  obtain ⟨⟨digits, behind⟩, hdigits, h⟩ := Option.bind_eq_some_iff.mp h
  obtain ⟨rfl, rfl⟩ : ofLittleEndian digits = n ∧ behind = rest := by simpa using h
  simp [word, selfDelimiting_raw width _ _ _ hdigits more]

theorem selfDelimiting_varying (forms : List (UInt8 × Nat)) : (varying forms).SelfDelimiting := by
  intro bytes n rest h more
  cases bytes with
  | nil => cases h
  | cons b behind =>
      simp only [varying, List.cons_append] at h ⊢
      split at h
      · next small =>
        obtain ⟨rfl, rfl⟩ : b.toNat = n ∧ behind = rest := by simpa using h
        rw [if_pos small]
      · next large =>
        rw [if_neg large]
        cases hwidth : forms.lookup b with
        | none => simp [hwidth] at h
        | some width =>
            simp only [hwidth] at h ⊢
            exact selfDelimiting_word width _ _ _ h more

/-! ### Codecs put together -/

theorem SelfDelimiting.refine {c : Codec β} (h : c.SelfDelimiting) (ofOther? : β → Option γ)
    (toOther : γ → β) : (c.refine ofOther? toOther).SelfDelimiting := by
  intro bytes x rest hread more
  obtain ⟨⟨y, behind⟩, hy, hread⟩ := Option.bind_eq_some_iff.mp hread
  obtain ⟨z, hz, hread⟩ := Option.bind_eq_some_iff.mp hread
  obtain ⟨rfl, rfl⟩ : z = x ∧ behind = rest := by simpa using hread
  simp [Codec.refine, h _ _ _ hy more, hz]

theorem SelfDelimiting.iso {c : Codec β} (h : c.SelfDelimiting) (ofOther : β → γ)
    (toOther : γ → β) : (c.iso ofOther toOther).SelfDelimiting :=
  h.refine (some ∘ ofOther) toOther

theorem SelfDelimiting.pair {c : Codec β} {d : Codec γ} (hc : c.SelfDelimiting)
    (hd : d.SelfDelimiting) : (c.pair d).SelfDelimiting := by
  intro bytes p rest hread more
  obtain ⟨⟨x, middle⟩, hx, hread⟩ := Option.bind_eq_some_iff.mp hread
  obtain ⟨⟨y, behind⟩, hy, hread⟩ := Option.bind_eq_some_iff.mp hread
  obtain ⟨rfl, rfl⟩ : (x, y) = p ∧ behind = rest := by simpa using hread
  simp [Codec.pair, hc _ _ _ hx more, hd _ _ _ hy more]

theorem SelfDelimiting.readMany {c : Codec β} (h : c.SelfDelimiting) {n : Nat} {bytes : List UInt8}
    {xs : List β} {rest : List UInt8} (hread : readMany c n bytes = some (xs, rest))
    (more : List UInt8) : readMany c n (bytes ++ more) = some (xs, rest ++ more) := by
  induction n generalizing bytes xs with
  | zero =>
      obtain ⟨rfl, rfl⟩ : [] = xs ∧ bytes = rest := by simpa [Codec.readMany] using hread
      rfl
  | succ n ih =>
      obtain ⟨⟨x, middle⟩, hx, hread⟩ := Option.bind_eq_some_iff.mp hread
      obtain ⟨⟨others, behind⟩, hothers, hread⟩ := Option.bind_eq_some_iff.mp hread
      obtain ⟨rfl, rfl⟩ : x :: others = xs ∧ behind = rest := by simpa using hread
      simp [Codec.readMany, h _ _ _ hx more, ih hothers]

theorem selfDelimiting_long : long.SelfDelimiting := selfDelimiting_varying _

theorem selfDelimiting_short : short.SelfDelimiting := selfDelimiting_varying _

theorem SelfDelimiting.list {c : Codec β} (h : c.SelfDelimiting) : (list c).SelfDelimiting := by
  intro bytes xs rest hread more
  obtain ⟨⟨n, behind⟩, hn, hread⟩ := Option.bind_eq_some_iff.mp hread
  simp [Codec.list, selfDelimiting_long _ _ _ hn more, h.readMany hread more]

theorem selfDelimiting_bytes : bytes.SelfDelimiting := by
  intro whole bs rest hread more
  obtain ⟨⟨n, behind⟩, hn, hread⟩ := Option.bind_eq_some_iff.mp hread
  simp [bytes, selfDelimiting_long _ _ _ hn more, selfDelimiting_raw n _ _ _ hread more]

theorem selfDelimiting_text : text.SelfDelimiting := selfDelimiting_bytes.refine _ _

theorem selfDelimiting_float : float.SelfDelimiting := (selfDelimiting_word 8).iso _ _

theorem SelfDelimiting.option {c : Codec β} (h : c.SelfDelimiting) : (option c).SelfDelimiting := by
  intro bytes x rest hread more
  simp only [Codec.option] at hread ⊢
  split at hread
  · obtain ⟨rfl, rfl⟩ := Prod.mk.inj (Option.some.inj hread)
    rfl
  · obtain ⟨⟨y, behind⟩, hy, hread⟩ := Option.bind_eq_some_iff.mp hread
    obtain ⟨rfl, rfl⟩ : some y = x ∧ behind = rest := by simpa using hread
    simp [h _ _ _ hy more]
  · cases hread

theorem SelfDelimiting.map {c : Codec β} (h : c.SelfDelimiting) : (map c).SelfDelimiting :=
  (selfDelimiting_text.pair h).list.iso _ _

end HardwareLinker.Codec
