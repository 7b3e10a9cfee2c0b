/-
Steps that can fail, one after the other.  A sequence succeeds exactly when
every step of it does, so a result is taken apart step by step.  A reader whose
accepted and refused inputs make up all inputs is settled in both directions.
-/

namespace ShieldedPool

universe u v w

variable {ε ε' : Type u} {α β : Type v}

@[simp] theorem ok_bind (a : α) (f : α → Except ε β) : (Except.ok a >>= f) = f a := rfl

@[simp] theorem pure_eq_ok (a : α) : (pure a : Except ε α) = .ok a := rfl

@[simp] theorem throw_eq_error (refusal : ε) :
    (throw refusal : Except ε α) = .error refusal := rfl

@[simp] theorem error_bind (refusal : ε) (f : α → Except ε β) :
    (Except.error refusal >>= f) = .error refusal := rfl

theorem bind_eq_ok_iff {x : Except ε α} {f : α → Except ε β} {b : β} :
    (x >>= f) = .ok b ↔ ∃ a, x = .ok a ∧ f a = .ok b := by
  rcases x with refusal | a
  · constructor
    · intro hok
      cases hok
    · rintro ⟨a, ha, -⟩
      cases ha
  · constructor
    · intro hok
      exact ⟨a, rfl, hok⟩
    · rintro ⟨a', ha, hok⟩
      cases ha
      exact hok

theorem map_eq_ok_iff {x : Except ε α} {f : α → β} {b : β} :
    x.map f = .ok b ↔ ∃ a, x = .ok a ∧ f a = b := by
  rcases x with refusal | a <;> simp [Except.map]

theorem map_eq_error_iff {x : Except ε α} {f : α → β} {refusal : ε} :
    x.map f = .error refusal ↔ x = .error refusal := by
  rcases x with refusal' | a <;> simp [Except.map]

theorem ite_eq_ok_iff {p : Prop} [Decidable p] {refusal : ε} {a b : α} :
    (if p then .ok a else .error refusal : Except ε α) = .ok b ↔ p ∧ b = a := by
  split
  · next hp => rw [and_iff_right hp, Except.ok.injEq, eq_comm]
  · next hnot => exact iff_of_false (fun hok => nomatch hok) fun hboth => hnot hboth.1

@[simp] theorem mapError_ok (a : α) (g : ε → ε') :
    (Except.ok a : Except ε α).mapError g = .ok a := rfl

theorem mapError_eq_ok_iff {x : Except ε α} {g : ε → ε'} {a : α} :
    x.mapError g = .ok a ↔ x = .ok a := by
  constructor
  · intro hok
    rcases x with refusal | a'
    · cases hok
    · cases hok
      rfl
  · rintro rfl
    rfl

section Readers

variable {ι : Type w} {read : ι → Except ε α} {Form : α → ι → Prop} {Faulty : ι → ε → Prop}

/-- What a reader does with every input: a form of a value is read as that value,
a faulty input is refused for its fault, and there is no third kind. -/
structure Reads (read : ι → Except ε α) (Form : α → ι → Prop) (Faulty : ι → ε → Prop) :
    Prop where
  accepts : ∀ {a input}, Form a input → read input = .ok a
  refuses : ∀ {input fault}, Faulty input fault → read input = .error fault
  covers : ∀ input, (∃ a, Form a input) ∨ ∃ fault, Faulty input fault

namespace Reads

variable {input : ι}

theorem eq_ok_iff (hreads : Reads read Form Faulty) {a : α} :
    read input = .ok a ↔ Form a input := by
  constructor
  · intro hok
    rcases hreads.covers input with ⟨a', hform⟩ | ⟨fault, hfaulty⟩
    · have hread := hok.symm.trans (hreads.accepts hform)
      cases hread
      exact hform
    · have hread := hok.symm.trans (hreads.refuses hfaulty)
      cases hread
  · exact hreads.accepts

theorem eq_error_iff (hreads : Reads read Form Faulty) {fault : ε} :
    read input = .error fault ↔ Faulty input fault := by
  constructor
  · intro hrefused
    rcases hreads.covers input with ⟨a, hform⟩ | ⟨fault', hfaulty⟩
    · have hread := hrefused.symm.trans (hreads.accepts hform)
      cases hread
    · have hread := hrefused.symm.trans (hreads.refuses hfaulty)
      cases hread
      exact hfaulty
  · exact hreads.refuses

end Reads

end Readers

end ShieldedPool
