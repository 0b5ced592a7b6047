import Mathlib.Data.List.Induction
import Mathlib.Algebra.BigOperators.Group.List.Basic
import Mathlib.Algebra.Order.Ring.Nat

/-!
# Hashing block by block

A compression function `step` that is folded over blocks of `n` symbols, and what is known of it
for every `step`.

* `Absorber` holds a state and the symbols that do not fill a block yet. What it has absorbed does
  not depend on the pieces in which it came (`absorb_append`), and `absorb_of_lt`, `absorb_of_eq`
  say what one piece does; `absorb_blocks` is the fold over the blocks of a string.
* `exists_collide`: two lists of blocks that are folded to the same state contain two different
  calls of `step` with the same result, when their last blocks tell their lengths.
-/

namespace Onion5.BlockHash

variable {σ α β : Type*} {n : ℕ}

/-! ## Absorbing -/

/-- A state of a compression function, and symbols that wait for the rest of their block. -/
@[ext]
structure Absorber (σ α : Type*) (n : ℕ) where
  state : σ
  buffer : List α
  length_lt : buffer.length < n

namespace Absorber

variable (step : σ → List α → σ)

/-- One more symbol. -/
def push (s : Absorber σ α n) (x : α) : Absorber σ α n :=
  if h : s.buffer.length + 1 < n then ⟨s.state, s.buffer ++ [x], by simpa using h⟩
  else ⟨step s.state (s.buffer ++ [x]), [], by have := s.length_lt; simp; omega⟩

/-- A string of symbols. -/
def absorb (s : Absorber σ α n) (xs : List α) : Absorber σ α n := xs.foldl (push step) s

variable {step}

/-- **Pieces are absorbed like the whole.** -/
theorem absorb_append (s : Absorber σ α n) (xs ys : List α) :
    s.absorb step (xs ++ ys) = (s.absorb step xs).absorb step ys := List.foldl_append

/-- A piece that leaves the block open. -/
theorem absorb_of_lt (s : Absorber σ α n) (xs : List α) (h : (s.buffer ++ xs).length < n) :
    s.absorb step xs = ⟨s.state, s.buffer ++ xs, h⟩ := by
  induction xs using List.reverseRec with
  | nil => exact Absorber.ext rfl (List.append_nil _).symm
  | append_singleton xs x ih =>
    rw [List.length_append, List.length_append, List.length_singleton] at h
    have hlt : (s.buffer ++ xs).length + 1 < n := by
      rw [List.length_append]
      omega
    rw [absorb_append, ih (by omega)]
    show push step _ x = _
    rw [push, dif_pos hlt]
    exact Absorber.ext rfl (List.append_assoc _ _ _)

/-- A piece that completes the block. -/
theorem absorb_of_eq (s : Absorber σ α n) (xs : List α) (h : (s.buffer ++ xs).length = n) :
    s.absorb step xs = ⟨step s.state (s.buffer ++ xs), [], Nat.zero_lt_of_lt s.length_lt⟩ := by
  have hlt := s.length_lt
  rcases List.eq_nil_or_concat' xs with rfl | ⟨ys, x, rfl⟩
  · rw [List.append_nil] at h
    omega
  · rw [List.length_append, List.length_append, List.length_singleton] at h
    have hfull : ¬ (s.buffer ++ ys).length + 1 < n := by
      rw [List.length_append]
      omega
    rw [absorb_append, absorb_of_lt s ys (by rw [List.length_append]; omega)]
    show push step _ x = _
    rw [push, dif_neg hfull]
    exact Absorber.ext (congrArg (step s.state) (List.append_assoc _ _ _)) rfl

/-- How full the buffer is. -/
theorem length_buffer_absorb (s : Absorber σ α n) (xs : List α) :
    (s.absorb step xs).buffer.length = (s.buffer.length + xs.length) % n := by
  induction xs using List.reverseRec with
  | nil => exact (Nat.mod_eq_of_lt s.length_lt).symm
  | append_singleton xs x ih =>
    rw [absorb_append, List.length_append, List.length_singleton, ← Nat.add_assoc, Nat.add_mod,
      ← ih, Nat.add_mod_mod]
    generalize s.absorb step xs = s'
    have hlt := s'.length_lt
    show (push step s' x).buffer.length = _
    rw [push]
    split_ifs with h
    · rw [List.length_append, List.length_singleton, Nat.mod_eq_of_lt h]
    · rw [show s'.buffer.length + 1 = n by omega, Nat.mod_self, List.length_nil]

end Absorber

/-! ## Blocks -/

/-- The full blocks of `n` symbols at the start of a string. -/
def blocks (n : ℕ) (hn : 0 < n) (xs : List α) : List (List α) :=
  if _h : n ≤ xs.length then xs.take n :: blocks n hn (xs.drop n) else []
termination_by xs.length
decreasing_by
  rw [List.length_drop]
  omega

variable {hn : 0 < n}

theorem blocks_of_lt {xs : List α} (h : xs.length < n) : blocks n hn xs = [] := by
  rw [blocks, dif_neg (not_le.2 h)]

/-- A string of full blocks is made of them. -/
theorem flatten_blocks (hn : 0 < n) {xs : List α} (h : n ∣ xs.length) :
    (blocks n hn xs).flatten = xs := by
  induction hk : xs.length using Nat.strongRecOn generalizing xs with
  | ind k ih =>
    by_cases hle : n ≤ xs.length
    · have hdrop : (xs.drop n).length = xs.length - n := List.length_drop
      rw [blocks, dif_pos hle, List.flatten_cons, ih _ (by omega)
        (hdrop ▸ Nat.dvd_sub h (dvd_refl n)) rfl, List.take_append_drop]
    · have hnil : xs = [] := by
        have hzero := Nat.eq_zero_of_dvd_of_lt h (not_le.1 hle)
        exact List.eq_nil_of_length_eq_zero hzero
      rw [blocks_of_lt (not_le.1 hle), hnil, List.flatten_nil]

theorem length_of_mem_blocks {xs b : List α} (h : b ∈ blocks n hn xs) : b.length = n := by
  induction hk : xs.length using Nat.strongRecOn generalizing xs with
  | ind k ih =>
    rw [blocks] at h
    split_ifs at h with hle
    · rcases List.mem_cons.1 h with rfl | h
      · exact List.length_take_of_le hle
      · exact ih _ (by rw [List.length_drop]; omega) h rfl
    · cases h

theorem length_blocks (hn : 0 < n) {xs : List α} (h : n ∣ xs.length) :
    n * (blocks n hn xs).length = xs.length := by
  have hlen := congrArg List.length (flatten_blocks hn h)
  rw [List.length_flatten, List.map_congr_left fun b hb => length_of_mem_blocks hb,
    List.map_const', List.sum_replicate_nat, Nat.mul_comm] at hlen
  exact hlen

/-- **What has been absorbed is the fold over the blocks**, when they are full. -/
theorem absorb_blocks (hn : 0 < n) (step : σ → List α → σ) (s : σ) {xs : List α}
    (h : n ∣ xs.length) :
    (Absorber.mk s [] hn).absorb step xs = ⟨(blocks n hn xs).foldl step s, [], hn⟩ := by
  have hall : ∀ b ∈ blocks n hn xs, b.length = n := fun b hb => length_of_mem_blocks hb
  conv_lhs => rw [← flatten_blocks hn h]
  generalize blocks n hn xs = bs at hall
  induction bs generalizing s with
  | nil => rfl
  | cons b bs ih =>
    rw [List.flatten_cons, Absorber.absorb_append,
      Absorber.absorb_of_eq (Absorber.mk s [] hn) b (hall b List.mem_cons_self), List.nil_append,
      ih _ fun b' hb' => hall b' (List.mem_cons_of_mem b hb'), List.foldl_cons]

/-! ## Collisions -/

section Collisions

variable (step : σ → β → σ)

/-- The arguments of the calls of `step` in a fold. -/
def calls (s : σ) : List β → List (σ × β)
  | [] => []
  | b :: bs => (s, b) :: calls (step s b) bs

/-- Two different arguments of `step` with the same result. -/
def Collide (x y : σ × β) : Prop := x ≠ y ∧ step x.1 x.2 = step y.1 y.2

variable {step}

theorem calls_concat (s : σ) (bs : List β) (b : β) :
    calls step s (bs ++ [b]) = calls step s bs ++ [(bs.foldl step s, b)] := by
  induction bs generalizing s with
  | nil => rfl
  | cons b' bs ih => rw [List.cons_append, calls, ih, calls, List.cons_append, List.foldl_cons]

theorem foldl_concat (s : σ) (bs : List β) (b : β) :
    (bs ++ [b]).foldl step s = step (bs.foldl step s) b := by
  rw [List.foldl_append, List.foldl_cons, List.foldl_nil]

/-- The last calls collide, unless their arguments are the same. -/
theorem exists_collide_concat {s : σ} {bs bs' : List β} {b b' : β}
    (h : (bs ++ [b]).foldl step s = (bs' ++ [b']).foldl step s) :
    (∃ x ∈ calls step s (bs ++ [b]), ∃ y ∈ calls step s (bs' ++ [b']), Collide step x y) ∨
      bs.foldl step s = bs'.foldl step s ∧ b = b' := by
  rw [foldl_concat, foldl_concat] at h
  by_cases hsame : (bs.foldl step s, b) = (bs'.foldl step s, b')
  · exact Or.inr (Prod.mk.inj hsame)
  · refine Or.inl ⟨(bs.foldl step s, b), ?_, (bs'.foldl step s, b'), ?_, hsame, h⟩
    · rw [calls_concat]
      exact List.mem_concat_self
    · rw [calls_concat]
      exact List.mem_concat_self

theorem exists_collide_of_length_eq {s : σ} {bs bs' : List β} (hlen : bs.length = bs'.length)
    (hne : bs ≠ bs') (h : bs.foldl step s = bs'.foldl step s) :
    ∃ x ∈ calls step s bs, ∃ y ∈ calls step s bs', Collide step x y := by
  induction bs using List.reverseRec generalizing bs' with
  | nil => exact absurd (List.eq_nil_of_length_eq_zero hlen.symm).symm hne
  | append_singleton bs b ih =>
    rcases List.eq_nil_or_concat' bs' with rfl | ⟨bs₁, b₁, rfl⟩
    · simp at hlen
    · obtain hcollide | ⟨hfold, rfl⟩ := exists_collide_concat h
      · exact hcollide
      · have hne' : bs ≠ bs₁ := fun heq => hne (heq ▸ rfl)
        obtain ⟨x, hx, y, hy, hxy⟩ := ih (by simpa using hlen) hne' hfold
        refine ⟨x, ?_, y, ?_, hxy⟩
        · rw [calls_concat]
          exact List.mem_append_left _ hx
        · rw [calls_concat]
          exact List.mem_append_left _ hy

/-- **A collision of the fold is one of `step`**, among its calls. -/
theorem exists_collide {s : σ} {bs bs' : List β} {b b' : β} (hne : bs ++ [b] ≠ bs' ++ [b'])
    (hlast : b = b' → bs.length = bs'.length)
    (h : (bs ++ [b]).foldl step s = (bs' ++ [b']).foldl step s) :
    ∃ x ∈ calls step s (bs ++ [b]), ∃ y ∈ calls step s (bs' ++ [b']), Collide step x y := by
  by_cases hb : b = b'
  · refine exists_collide_of_length_eq ?_ hne h
    rw [List.length_append, List.length_append, hlast hb]
    rfl
  · obtain hcollide | ⟨-, hb'⟩ := exists_collide_concat h
    · exact hcollide
    · exact absurd hb' hb

end Collisions

end Onion5.BlockHash
