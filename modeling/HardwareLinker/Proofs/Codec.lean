import Mathlib.Algebra.Group.Nat.Defs
import HardwareLinker.Codec
import HardwareLinker.Proofs.NameMap

/-!
Reading undoes writing. Each codec reads back what it wrote, whatever stands behind it, as long as
the bytes can be counted in eight bytes; so codecs that are put together read back as well.
-/

namespace HardwareLinker

theorem NameMap.insertEntry_append {β : Type} {l : List (String × β)} {k : String} {v : β}
    (h : ∀ e ∈ l, e.1 < k) : insertEntry k v l = l ++ [(k, v)] := by
  induction l with
  | nil => rfl
  | cons d rest ih =>
      obtain ⟨hd, hrest⟩ := List.forall_mem_cons.mp h
      have after : ¬ k < d.1 := fun hlt => String.lt_irrefl _ (String.lt_trans hd hlt)
      simp [insertEntry, hd, after, ih hrest]

/-- A map is made of its entries. -/
theorem NameMap.ofList_entries {β : Type} (m : NameMap β) : ofList m.entries = m := by
  have added (l : List (String × β)) (m : NameMap β)
      (h : (m.entries ++ l).Pairwise fun a b => a.1 < b.1) :
      (m.insertAll l).entries = m.entries ++ l := by
    induction l generalizing m with
    | nil => simp [insertAll]
    | cons e rest ih =>
        have last : (m.insert e.1 e.2).entries = m.entries ++ [e] :=
          insertEntry_append fun d hd => (List.pairwise_append.mp h).2.2 d hd e List.mem_cons_self
        change ((m.insert e.1 e.2).insertAll rest).entries = _
        rw [ih (m.insert e.1 e.2) (by simpa [last] using h), last, List.append_assoc,
          List.singleton_append]
  exact ext_entries (added m.entries .empty m.ascending)

namespace Codec

variable {β γ : Type}

/-- What is read where this value was written is this value and what stands behind it. -/
def ReadsBack (c : Codec β) (x : β) : Prop := ∀ rest, c.read (c.write x ++ rest) = some (x, rest)

/-- The bytes that a machine can count. -/
def byteLimit : Nat := 2 ^ 64

/-- Every value reads back, if it takes no more bytes than can be counted; and it takes some. -/
structure Faithful (c : Codec β) : Prop where
  reads : ∀ x, (c.write x).length < byteLimit → c.ReadsBack x
  nonempty : ∀ x, 0 < (c.write x).length

/-! ### Numbers -/

@[simp] theorem length_littleEndian (width n : Nat) : (littleEndian width n).length = width := by
  induction width generalizing n with
  | zero => rfl
  | succ width ih => simp [littleEndian, ih]

theorem ofLittleEndian_littleEndian {width n : Nat} (h : n < 256 ^ width) :
    ofLittleEndian (littleEndian width n) = n := by
  induction width generalizing n with
  | zero => simp_all [littleEndian, ofLittleEndian]
  | succ width ih =>
      have high : n / 256 < 256 ^ width := by
        rw [Nat.div_lt_iff_lt_mul (by decide), ← Nat.pow_succ]
        exact h
      have step : ofLittleEndian (littleEndian (width + 1) n) =
          n % 256 + 256 * ofLittleEndian (littleEndian width (n / 256)) := by
        simp [littleEndian, ofLittleEndian]
      rw [step, ih high, Nat.mod_add_div]

theorem readsBack_raw {width : Nat} {bytes : List UInt8} (h : bytes.length = width) :
    (raw width).ReadsBack bytes := by
  intro rest
  simp [raw, ← h]

theorem readsBack_word {width n : Nat} (h : n < 256 ^ width) : (word width).ReadsBack n := by
  intro rest
  have digits :
      (raw width).read (littleEndian width n ++ rest) = some (littleEndian width n, rest) :=
    readsBack_raw (length_littleEndian width n) rest
  simp [word, digits, ofLittleEndian_littleEndian h]

/-- A number reads back if it is small or some form holds it, the marks of the forms being distinct
and no small numbers. -/
theorem readsBack_varying {forms : List (UInt8 × Nat)}
    (marks : ∀ form ∈ forms, singleLimit ≤ form.1.toNat ∧ forms.lookup form.1 = some form.2)
    {n : Nat} (h : ∃ form ∈ forms, n < 256 ^ form.2) : (varying forms).ReadsBack n := by
  intro rest
  by_cases small : n < singleLimit
  · have single : (UInt8.ofNat n).toNat = n := by
      rw [UInt8.toNat_ofNat', Nat.mod_eq_of_lt]
      exact Nat.lt_trans small (by decide)
    simp [varying, small, single]
  · obtain ⟨form, hm, hform⟩ := h
    obtain ⟨found, hfound⟩ := Option.isSome_iff_exists.mp
      (List.find?_isSome.mpr ⟨form, hm, decide_eq_true hform⟩ :
        (forms.find? fun form => n < 256 ^ form.2).isSome = true)
    obtain ⟨large, known⟩ := marks found (List.mem_of_find?_eq_some hfound)
    have holds : n < 256 ^ found.2 := by simpa using List.find?_some hfound
    have written : (varying forms).write n = found.1 :: littleEndian found.2 n := by
      simp [varying, small, hfound]
    have marked : (varying forms).read (found.1 :: littleEndian found.2 n ++ rest) =
        (word found.2).read (littleEndian found.2 n ++ rest) := by
      simp [varying, Nat.not_lt.mpr large, known]
    rw [written, marked]
    exact readsBack_word holds rest

theorem readsBack_short {n : Nat} (h : n < 2 ^ 32) : short.ReadsBack n :=
  readsBack_varying (by decide) ⟨(252, 4), by decide, h⟩

theorem readsBack_long {n : Nat} (h : n < byteLimit) : long.ReadsBack n :=
  readsBack_varying (by decide) ⟨(253, 8), by decide, h⟩

theorem length_varying_pos {forms : List (UInt8 × Nat)} {n : Nat}
    (h : ∃ form ∈ forms, n < 256 ^ form.2) : 0 < ((varying forms).write n).length := by
  obtain ⟨form, hm, hform⟩ := h
  simp only [varying]
  split
  · simp
  · split
    · simp
    · next hnone =>
      exact absurd (decide_eq_true hform) (List.find?_eq_none.mp hnone form hm)

theorem length_long_pos {n : Nat} (h : n < byteLimit) : 0 < (long.write n).length :=
  length_varying_pos ⟨(253, 8), by decide, h⟩

/-! ### Codecs put together -/

theorem ReadsBack.refine {c : Codec β} {ofOther? : β → Option γ} {toOther : γ → β} {x : γ}
    (h : c.ReadsBack (toOther x)) (back : ofOther? (toOther x) = some x) :
    (c.refine ofOther? toOther).ReadsBack x := by
  intro rest
  simp [Codec.refine, h rest, back]

theorem Faithful.refine {c : Codec β} (h : c.Faithful) {ofOther? : β → Option γ} {toOther : γ → β}
    (back : ∀ x, ofOther? (toOther x) = some x) : (c.refine ofOther? toOther).Faithful where
  reads x hx := (h.reads (toOther x) hx).refine (back x)
  nonempty x := h.nonempty (toOther x)

theorem Faithful.iso {c : Codec β} (h : c.Faithful) {ofOther : β → γ} {toOther : γ → β}
    (back : ∀ x, ofOther (toOther x) = x) : (c.iso ofOther toOther).Faithful :=
  h.refine fun x => congrArg some (back x)

theorem ReadsBack.pair {c : Codec β} {d : Codec γ} {x : β} {y : γ} (hx : c.ReadsBack x)
    (hy : d.ReadsBack y) : (c.pair d).ReadsBack (x, y) := by
  intro rest
  simp [Codec.pair, hx _, hy rest]

theorem Faithful.pair {c : Codec β} {d : Codec γ} (hc : c.Faithful) (hd : d.Faithful) :
    (c.pair d).Faithful where
  reads p h := by
    simp only [Codec.pair, List.length_append] at h
    exact (hc.reads p.1 (by omega)).pair (hd.reads p.2 (by omega))
  nonempty p := by
    have := hc.nonempty p.1
    simp only [Codec.pair, List.length_append]
    omega

theorem readMany_flatMap {c : Codec β} (xs : List β) (h : ∀ x ∈ xs, c.ReadsBack x)
    (rest : List UInt8) : readMany c xs.length (xs.flatMap c.write ++ rest) = some (xs, rest) := by
  induction xs with
  | nil => rfl
  | cons x xs ih =>
      obtain ⟨hx, hxs⟩ := List.forall_mem_cons.mp h
      simp [readMany, hx _, ih hxs]

/-- There are no more items than bytes. -/
theorem Faithful.length_le {c : Codec β} (h : c.Faithful) (xs : List β) :
    xs.length ≤ (xs.flatMap c.write).length := by
  induction xs with
  | nil => exact Nat.zero_le _
  | cons x xs ih =>
      have := h.nonempty x
      simp only [List.flatMap_cons, List.length_append, List.length_cons]
      omega

theorem length_le_flatMap {c : Codec β} {xs : List β} {x : β} (h : x ∈ xs) :
    (c.write x).length ≤ (xs.flatMap c.write).length := by
  obtain ⟨before, after, rfl⟩ := List.append_of_mem h
  simp only [List.flatMap_append, List.flatMap_cons, List.length_append]
  omega

theorem Faithful.list {c : Codec β} (h : c.Faithful) : (list c).Faithful where
  reads xs hxs := by
    simp only [Codec.list, List.length_append] at hxs
    have count := readsBack_long (Nat.lt_of_le_of_lt (h.length_le xs) (by omega))
    have items := readMany_flatMap xs fun x hx =>
      h.reads x (Nat.lt_of_le_of_lt (length_le_flatMap hx) (by omega))
    intro rest
    simp [Codec.list, count _, items rest]
  nonempty xs := by
    simp only [Codec.list, List.length_append]
    cases xs with
    | nil => exact Nat.add_pos_left (length_long_pos (Nat.pow_pos (by decide))) _
    | cons x xs =>
        have := h.length_le (x :: xs)
        rw [List.length_cons] at this
        omega

theorem faithful_bytes : bytes.Faithful where
  reads bs h := by
    simp only [bytes, List.length_append] at h
    have count := readsBack_long (show bs.length < byteLimit by omega)
    intro rest
    have items : (raw bs.length).read (bs ++ rest) = some (bs, rest) := readsBack_raw rfl rest
    simp [bytes, count _, items]
  nonempty bs := by
    simp only [bytes, List.length_append]
    cases bs with
    | nil => exact Nat.add_pos_left (length_long_pos (Nat.pow_pos (by decide))) _
    | cons b bs =>
        rw [List.length_cons]
        omega

theorem toList_eq (bs : ByteArray) : bs.toList = bs.data.toList := by
  have read (i : Nat) (done : List UInt8) :
      ByteArray.toList.loop bs i done = done.reverse ++ bs.data.toList.drop i := by
    induction i, done using ByteArray.toList.loop.induct bs with
    | case1 i done within ih =>
        have hi : i < bs.data.toList.length := by simpa using within
        have this : bs.get! i = bs.data.toList[i] := getElem!_pos bs.data i (by simpa using within)
        rw [ByteArray.toList.loop, if_pos within, ih, List.drop_eq_getElem_cons hi, this]
        simp
    | case2 i done past =>
        have : bs.data.toList.length ≤ i := by simpa using past
        rw [ByteArray.toList.loop, if_neg past, List.drop_eq_nil_of_le this, List.append_nil]
  rw [ByteArray.toList, read]
  simp

theorem fromUTF8?_toUTF8 (s : String) : String.fromUTF8? ⟨s.toUTF8.toList.toArray⟩ = some s := by
  have whole : (⟨s.toUTF8.toList.toArray⟩ : ByteArray) = s.toByteArray := by
    simp [toList_eq]
  rw [whole, String.fromUTF8?, dif_pos s.isValidUTF8]
  rfl

theorem faithful_text : text.Faithful := faithful_bytes.refine fromUTF8?_toUTF8

theorem length_text (s : String) :
    (text.write s).length = (long.write s.utf8ByteSize).length + s.utf8ByteSize := by
  have all : s.toUTF8.toList.length = s.utf8ByteSize := by simp [toList_eq]
  rw [← all, ← List.length_append]
  rfl

theorem faithful_float : float.Faithful where
  reads x _ := by
    refine (readsBack_word ?_).refine ?_
    · exact x.bits.toNat_lt
    · simp
  nonempty x := by simp [float, iso, Codec.refine, word]

theorem Faithful.option {c : Codec β} (h : c.Faithful) : (option c).Faithful where
  reads x hx := by
    cases x with
    | none => exact fun _ => rfl
    | some y =>
        simp only [Codec.option, List.length_cons] at hx
        have value := h.reads y (by omega)
        intro rest
        simp [Codec.option, value rest]
  nonempty x := by cases x <;> simp [Codec.option]

theorem Faithful.map {c : Codec β} (h : c.Faithful) : (map c).Faithful :=
  (faithful_text.pair h).list.iso NameMap.ofList_entries

end Codec
end HardwareLinker
