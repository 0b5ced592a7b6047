import Mathlib.Control.Monad.Writer

/-!
# Computations that note what they do

A computation that may stop with an error, and notes events as it goes; what has been noted before
it stops stays noted. A computation is `Safe` when it does not stop and every event it notes is
allowed. Safety is checked step by step (`safe_bind_iff`), and the notes do not change the result
(`result_bind`).
-/

namespace Onion5

/-- Computations that note events of the type `ε` and may stop with an error of the type `σ`. -/
abbrev Traced (ε σ α : Type) := ExceptT σ (Writer (List ε)) α

namespace Traced

variable {ε σ α β : Type}

/-- The value, or the error. -/
def result (x : Traced ε σ α) : Except σ α := (WriterT.run x.run).1

/-- The events that are noted, in their order. -/
def log (x : Traced ε σ α) : List ε := (WriterT.run x.run).2

/-- Note events. -/
def note (l : List ε) : Traced ε σ Unit := ExceptT.lift (tell l)

/-- A computation that notes nothing. -/
def lift (x : Except σ α) : Traced ε σ α := ExceptT.mk (pure x)

@[simp] theorem result_pure (a : α) : (pure a : Traced ε σ α).result = .ok a := rfl

@[simp] theorem result_note (l : List ε) : (note l : Traced ε σ Unit).result = .ok () := rfl

@[simp] theorem result_lift (x : Except σ α) : (lift x : Traced ε σ α).result = x := rfl

theorem bind_of_ok {x : Traced ε σ α} {a : α} (h : x.result = .ok a) (f : α → Traced ε σ β) :
    (x >>= f).result = (f a).result ∧ (x >>= f).log = x.log ++ (f a).log := by
  obtain ⟨r, l⟩ := x
  cases h
  exact ⟨rfl, rfl⟩

theorem bind_of_error {x : Traced ε σ α} {e : σ} (h : x.result = .error e)
    (f : α → Traced ε σ β) : (x >>= f).result = .error e ∧ (x >>= f).log = x.log := by
  obtain ⟨r, l⟩ := x
  cases h
  exact ⟨rfl, List.append_nil l⟩

/-- **The notes do not change the result.** -/
@[simp] theorem result_bind (x : Traced ε σ α) (f : α → Traced ε σ β) :
    (x >>= f).result = x.result >>= fun a => (f a).result := by
  cases h : x.result with
  | ok a => exact (bind_of_ok h f).1
  | error e => exact (bind_of_error h f).1

/-- Steps that note nothing. -/
theorem log_bind_of_nil {f : α → Traced ε σ β} (x : Traced ε σ α) (hf : ∀ a, (f a).log = []) :
    (x >>= f).log = x.log := by
  cases h : x.result with
  | ok a => rw [(bind_of_ok h f).2, hf, List.append_nil]
  | error e => exact (bind_of_error h f).2

/-- The computation does not stop, and every event that it notes is allowed. -/
def Safe (p : ε → Prop) (x : Traced ε σ α) : Prop := (∃ a, x.result = .ok a) ∧ ∀ e ∈ x.log, p e

variable {p : ε → Prop}

@[simp] theorem safe_pure (a : α) : Safe p (pure a : Traced ε σ α) := ⟨⟨a, rfl⟩, nofun⟩

@[simp] theorem safe_note_iff {l : List ε} : Safe p (note l : Traced ε σ Unit) ↔ ∀ e ∈ l, p e :=
  and_iff_right ⟨(), rfl⟩

@[simp] theorem safe_note_nil : Safe p (note [] : Traced ε σ Unit) := safe_note_iff.2 nofun

@[simp] theorem safe_note_cons_iff {e : ε} {l : List ε} :
    Safe p (note (e :: l) : Traced ε σ Unit) ↔ p e ∧ Safe p (note l : Traced ε σ Unit) := by
  rw [safe_note_iff, safe_note_iff, List.forall_mem_cons]

@[simp] theorem safe_lift_iff {x : Except σ α} :
    Safe p (lift x : Traced ε σ α) ↔ ∃ a, x = .ok a := and_iff_left nofun

/-- **A computation in steps is safe** exactly when every step is that is reached. -/
theorem safe_bind_iff {x : Traced ε σ α} {f : α → Traced ε σ β} :
    Safe p (x >>= f) ↔ Safe p x ∧ ∀ a, x.result = .ok a → Safe p (f a) := by
  unfold Safe
  cases h : x.result with
  | ok a =>
    obtain ⟨hresult, hlog⟩ := bind_of_ok h f
    rw [hresult, hlog]
    simp only [List.mem_append, Except.ok.injEq, exists_eq', true_and, forall_eq', or_imp,
      forall_and]
    exact and_left_comm
  | error e =>
    rw [(bind_of_error h f).1]
    simp

end Traced

end Onion5
