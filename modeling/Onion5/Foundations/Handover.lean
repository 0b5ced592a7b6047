import Mathlib.Data.Set.Basic
import Onion5.Foundations.Interleaving

/-!
# Interleavings with hand-overs

An interleaving whose tokens are consumed by workers, each one token at a time. What a worker makes
it holds until it has handed it over, and while it holds something it consumes nothing. To hand a
token over it takes a place in the queue of the worker that the token is for, if there is one left,
and waits until that worker takes the token out of its hands; a token that is not too large can be
left in the queue.

Without the workers this is the interleaving (`RunIn.flat`): what holds of the runs of one holds of
the other's, and each of its steps accounts for at most three. What can go wrong is that workers
wait for each other in a circle (`Jam`). A jam is for good (`Jam.run`), and nothing else stops a
system in which every token can be consumed (`exists_step_or_jam`).
-/

namespace Onion5.Handover

open Interleaving (Action)

variable {σ ι τ ε θ : Type*}

/-- Who consumes a token, how large a token is and may be to be left in a queue, and how many
places a queue has. -/
structure Office (ι τ θ : Type*) where
  worker : ι → τ → θ
  size : τ → ℕ
  cap : ℕ
  places : ℕ

/-- A token in the hands of the worker that made it, and whether it has its place in the queue. -/
structure Held (ι τ θ : Type*) where
  holder : θ
  queued : Bool
  activity : ι
  token : τ

/-- An interleaving some of whose tokens are left in the queues, the others held. -/
structure Config (σ ι τ ε θ : Type*) where
  shared : σ
  left : List (ι × τ)
  held : List (Held ι τ θ)
  log : List (ι × ε)

/-- The token without its holder. -/
def Held.pair (h : Held ι τ θ) : ι × τ := (h.activity, h.token)

/-- The interleaving without the workers. -/
def Config.flat (c : Config σ ι τ ε θ) : Interleaving.Config σ ι τ ε :=
  ⟨c.shared, c.held.map Held.pair ++ c.left, c.log⟩

/-- The worker holds nothing. -/
def Free (held : List (Held ι τ θ)) (w : θ) : Prop := ∀ h ∈ held, h.holder ≠ w

/-- The places taken in the queue of a worker. -/
def Office.load [DecidableEq θ] (o : Office ι τ θ) (w : θ) (left : List (ι × τ))
    (held : List (Held ι τ θ)) : ℕ :=
  (left.filter fun p => o.worker p.1 p.2 = w).length +
    (held.filter fun h => h.queued ∧ o.worker h.activity h.token = w).length

/-- One step: a token takes its place, is left there, is consumed from the queue, or is taken out
of the hands of its holder and consumed. -/
inductive Step [DecidableEq θ] (o : Office ι τ θ) (act : Action σ ι τ ε) :
    Config σ ι τ ε θ → Config σ ι τ ε θ → Prop
  | queue {s left l₁ l₂ w i t log} (hplace : o.load (o.worker i t) left (l₁ ++ l₂) < o.places) :
      Step o act ⟨s, left, l₁ ++ ⟨w, false, i, t⟩ :: l₂, log⟩
        ⟨s, left, l₁ ++ ⟨w, true, i, t⟩ :: l₂, log⟩
  | leave {s left l₁ l₂ w i t log} (hsize : o.size t ≤ o.cap) :
      Step o act ⟨s, left, l₁ ++ ⟨w, true, i, t⟩ :: l₂, log⟩ ⟨s, left ++ [(i, t)], l₁ ++ l₂, log⟩
  | consume {s s' l₁ l₂ held i t new events log} (hfree : Free held (o.worker i t))
      (h : act s i t s' new events) :
      Step o act ⟨s, l₁ ++ (i, t) :: l₂, held, log⟩
        ⟨s', l₁ ++ l₂, held ++ new.map (⟨o.worker i t, false, i, ·⟩),
          log ++ events.map (i, ·)⟩
  | take {s s' left l₁ l₂ w i t new events log}
      (hfree : Free (l₁ ++ ⟨w, true, i, t⟩ :: l₂) (o.worker i t)) (h : act s i t s' new events) :
      Step o act ⟨s, left, l₁ ++ ⟨w, true, i, t⟩ :: l₂, log⟩
        ⟨s', left, l₁ ++ l₂ ++ new.map (⟨o.worker i t, false, i, ·⟩),
          log ++ events.map (i, ·)⟩

/-- A run of `k` steps. -/
inductive RunIn [DecidableEq θ] (o : Office ι τ θ) (act : Action σ ι τ ε) :
    ℕ → Config σ ι τ ε θ → Config σ ι τ ε θ → Prop
  | refl (c : Config σ ι τ ε θ) : RunIn o act 0 c c
  | tail {k : ℕ} {c c' c'' : Config σ ι τ ε θ} (h : RunIn o act k c c') (hs : Step o act c' c'') :
      RunIn o act (k + 1) c c''

section RunIn

variable [DecidableEq θ] {o : Office ι τ θ} {act : Action σ ι τ ε} {c c' c'' : Config σ ι τ ε θ}

theorem RunIn.trans {j k : ℕ} (h : RunIn o act j c c') (h' : RunIn o act k c' c'') :
    RunIn o act (j + k) c c'' := by
  induction h' with
  | refl => exact h
  | tail _ hs ih => exact .tail (ih h) hs

/-- When no run has more than `bound` steps, one comes to a configuration without a step. -/
theorem exists_last {bound : ℕ} (hle : ∀ {k c'}, RunIn o act k c c' → k ≤ bound) :
    ∃ k c', RunIn o act k c c' ∧ ¬ ∃ c'', Step o act c' c'' := by
  by_contra hno
  push Not at hno
  have hruns : ∀ k, ∃ c', RunIn o act k c c' := by
    intro k
    induction k with
    | zero => exact ⟨c, .refl c⟩
    | succ k ih =>
      obtain ⟨c', hrun⟩ := ih
      obtain ⟨c'', hs⟩ := hno k c' hrun
      exact ⟨c'', .tail hrun hs⟩
  obtain ⟨c', hrun⟩ := hruns (bound + 1)
  have hbound := hle hrun
  omega

end RunIn

/-! ## The interleaving of the tokens -/

/-- The same up to the order of the tokens. -/
structure Same (c d : Interleaving.Config σ ι τ ε) : Prop where
  shared : c.shared = d.shared
  flight : c.flight.Perm d.flight
  log : c.log = d.log

theorem Same.refl (c : Interleaving.Config σ ι τ ε) : Same c c := ⟨rfl, .refl _, rfl⟩

theorem Same.symm {c d : Interleaving.Config σ ι τ ε} (h : Same c d) : Same d c :=
  ⟨h.shared.symm, h.flight.symm, h.log.symm⟩

theorem Same.trans {c d e : Interleaving.Config σ ι τ ε} (h : Same c d) (h' : Same d e) :
    Same c e :=
  ⟨h.shared.trans h'.shared, h.flight.trans h'.flight, h.log.trans h'.log⟩

variable {act : Action σ ι τ ε}

/-- The order of the tokens does not matter to a step. -/
theorem Same.step {c c' d : Interleaving.Config σ ι τ ε} (h : Same c d)
    (hs : Interleaving.Step act c c') : ∃ d', Interleaving.Step act d d' ∧ Same c' d' := by
  obtain @⟨s, s', i, t, new, events, l₁, l₂, log, hact⟩ := hs
  obtain ⟨s, flight, log⟩ := d
  obtain ⟨rfl, hperm, rfl⟩ := h
  obtain ⟨m₁, m₂, rfl⟩ : ∃ m₁ m₂, flight = m₁ ++ (i, t) :: m₂ :=
    List.append_of_mem (hperm.mem_iff.1 (by simp))
  have hrest : (l₁ ++ l₂).Perm (m₁ ++ m₂) :=
    (List.perm_middle.symm.trans (hperm.trans List.perm_middle)).cons_inv
  exact ⟨_, .mk hact, rfl, hrest.append_right _, rfl⟩

/-- A step on a token that is anywhere in flight. -/
theorem exists_step_of_perm {s s' : σ} {i : ι} {t : τ} {new : List τ} {events : List ε}
    {flight rest flight' : List (ι × τ)} {log : List (ι × ε)} (hact : act s i t s' new events)
    (hflight : flight.Perm ((i, t) :: rest)) (hnew : (rest ++ new.map (i, ·)).Perm flight') :
    ∃ d, Interleaving.Step act ⟨s, flight, log⟩ d ∧
      Same d ⟨s', flight', log ++ events.map (i, ·)⟩ := by
  have hfirst : Interleaving.Step act ⟨s, [] ++ (i, t) :: rest, log⟩ _ := .mk hact
  have hperm : Same ⟨s, [] ++ (i, t) :: rest, log⟩ ⟨s, flight, log⟩ := ⟨rfl, hflight.symm, rfl⟩
  obtain ⟨d, hd, hsame⟩ := hperm.step hfirst
  exact ⟨d, hd, hsame.symm.trans ⟨rfl, hnew, rfl⟩⟩

/-- The hand-overs still to come: two steps for a token without a place, one for a token with
one. -/
def Config.due (c : Config σ ι τ ε θ) : ℕ := (c.held.map fun h => if h.queued then 1 else 2).sum

theorem sum_due_new (w : θ) (i : ι) (new : List τ) :
    ((new.map fun t => (⟨w, false, i, t⟩ : Held ι τ θ)).map fun h =>
      if h.queued then 1 else 2).sum = 2 * new.length := by
  induction new with
  | nil => rfl
  | cons t new ih =>
    rw [List.map_cons, List.map_cons, List.sum_cons, ih, List.length_cons, Nat.mul_succ,
      Nat.add_comm]
    rfl

theorem map_pair_new (w : θ) (i : ι) (new : List τ) :
    (new.map fun t => (⟨w, false, i, t⟩ : Held ι τ θ)).map Held.pair = new.map (i, ·) := by
  rw [List.map_map]
  rfl

section Runs

variable [DecidableEq θ] {o : Office ι τ θ} {c c' : Config σ ι τ ε θ}

/-- A step is a hand-over, which the interleaving does not see, or a step of the interleaving. -/
theorem Step.flat (hone : ∀ {s i t s' new events}, act s i t s' new events → new.length ≤ 1)
    (hs : Step o act c c') :
    Same c.flat c'.flat ∧ c'.due + 1 ≤ c.due ∨
      (∃ d, Interleaving.Step act c.flat d ∧ Same d c'.flat) ∧ c'.due ≤ c.due + 2 := by
  cases hs with
  | @queue s left l₁ l₂ w i t log =>
    refine .inl ⟨⟨rfl, ?_, rfl⟩, ?_⟩
    · simp [Config.flat, Held.pair]
    · simp only [Config.due, List.map_append, List.map_cons, List.sum_append, List.sum_cons,
        reduceIte, Bool.false_eq_true]
      omega
  | @leave s left l₁ l₂ w i t log =>
    refine .inl ⟨⟨rfl, ?_, rfl⟩, ?_⟩
    · simp only [Config.flat, List.map_append, List.map_cons, ← List.append_assoc]
      refine (List.perm_middle.append_right _).trans (List.perm_append_singleton _ _).symm
    · simp only [Config.due, List.map_append, List.map_cons, List.sum_append, List.sum_cons,
        reduceIte]
      omega
  | @consume s s' l₁ l₂ held i t new events log _ hact =>
    have hnew := hone hact
    have hflight : (held.map Held.pair ++ (l₁ ++ (i, t) :: l₂)).Perm
        ((i, t) :: (held.map Held.pair ++ (l₁ ++ l₂))) := by
      rw [← List.append_assoc, ← List.append_assoc]
      exact List.perm_middle
    refine .inr ⟨exists_step_of_perm hact hflight ?_, ?_⟩
    · rw [List.map_append, map_pair_new, List.append_assoc (held.map Held.pair),
        List.append_assoc (held.map Held.pair)]
      exact List.perm_append_comm.append_left _
    · simp only [Config.due, List.map_append, List.sum_append, sum_due_new]
      omega
  | @take s s' left l₁ l₂ w i t new events log _ hact =>
    have hnew := hone hact
    have hflight : ((l₁ ++ ⟨w, true, i, t⟩ :: l₂).map Held.pair ++ left).Perm
        ((i, t) :: ((l₁ ++ l₂).map Held.pair ++ left)) := by
      simp only [List.map_append, List.map_cons, Held.pair, List.append_assoc, List.cons_append]
      exact List.perm_middle
    refine .inr ⟨exists_step_of_perm hact hflight ?_, ?_⟩
    · rw [@List.map_append _ _ Held.pair (l₁ ++ l₂), map_pair_new, List.append_assoc,
        List.append_assoc]
      exact List.perm_append_comm.append_left _
    · simp only [Config.due, List.map_append, List.map_cons, List.sum_append, List.sum_cons,
        sum_due_new]
      omega

/-- **Without the workers a run is a run of the interleaving**, each of whose steps accounts for at
most three. -/
theorem RunIn.flat (hone : ∀ {s i t s' new events}, act s i t s' new events → new.length ≤ 1)
    {k : ℕ} (hr : RunIn o act k c c') : ∃ j d, Interleaving.RunIn act j c.flat d ∧
      Same d c'.flat ∧ k + c'.due ≤ c.due + 3 * j := by
  induction hr with
  | refl => exact ⟨0, _, .refl _, .refl _, by omega⟩
  | tail _ hs ih =>
    obtain ⟨j, d, hrun, hsame, hle⟩ := ih
    obtain ⟨hsame', hdue⟩ | ⟨⟨e, hstep, hsame'⟩, hdue⟩ := Step.flat hone hs
    · exact ⟨j, d, hrun, hsame.trans hsame', by omega⟩
    · obtain ⟨d', hstep', hsame''⟩ := hsame.symm.step hstep
      exact ⟨j + 1, d', .tail hrun hstep', hsame''.symm.trans hsame', by omega⟩

/-! ## Jams -/

/-- Workers each of which holds a token that is too large to be left, for one of them. -/
structure Jam (o : Office ι τ θ) (W : Set θ) (held : List (Held ι τ θ)) : Prop where
  nonempty : W.Nonempty
  waits : ∀ w ∈ W, ∃ h ∈ held, h.holder = w ∧ h.queued ∧ o.cap < o.size h.token ∧
    o.worker h.activity h.token ∈ W

omit [DecidableEq θ] in
theorem Jam.not_free {W : Set θ} {held : List (Held ι τ θ)} (hj : Jam o W held) {w : θ}
    (hw : w ∈ W) : ¬ Free held w := by
  intro hfree
  obtain ⟨h, hmem, hholder, -⟩ := hj.waits w hw
  exact hfree h hmem hholder

omit [DecidableEq θ] in
/-- A jam stays when nothing is handed over but a token that is not in it. -/
theorem Jam.mono {W : Set θ} {held held' : List (Held ι τ θ)} (hj : Jam o W held)
    (hsub : ∀ h ∈ held, h.queued → o.cap < o.size h.token →
      o.worker h.activity h.token ∈ W → h ∈ held') : Jam o W held' := by
  refine ⟨hj.nonempty, fun w hw => ?_⟩
  obtain ⟨h, hmem, hholder, hq, hsize, hto⟩ := hj.waits w hw
  exact ⟨h, hsub h hmem hq hsize hto, hholder, hq, hsize, hto⟩

theorem Jam.step {W : Set θ} (hj : Jam o W c.held) (hs : Step o act c c') : Jam o W c'.held := by
  cases hs with
  | queue =>
    refine hj.mono fun h hmem hq _ _ => ?_
    obtain hmem | rfl | hmem : h ∈ _ ∨ h = _ ∨ h ∈ _ := by simpa using hmem
    · exact List.mem_append_left _ hmem
    · cases hq
    · exact List.mem_append_right _ (List.mem_cons_of_mem _ hmem)
  | leave hsize =>
    refine hj.mono fun h hmem _ hlt _ => ?_
    obtain hmem | rfl | hmem : h ∈ _ ∨ h = _ ∨ h ∈ _ := by simpa using hmem
    · exact List.mem_append_left _ hmem
    · exact absurd hlt (Nat.not_lt.2 hsize)
    · exact List.mem_append_right _ hmem
  | consume => exact hj.mono fun h hmem _ _ _ => List.mem_append_left _ hmem
  | take hfree =>
    refine hj.mono fun h hmem _ _ hto => List.mem_append_left _ ?_
    obtain hmem | rfl | hmem : h ∈ _ ∨ h = _ ∨ h ∈ _ := by simpa using hmem
    · exact List.mem_append_left _ hmem
    · exact absurd hfree (hj.not_free hto)
    · exact List.mem_append_right _ hmem

/-- **A jam is for good.** -/
theorem Jam.run {W : Set θ} {k : ℕ} (hj : Jam o W c.held) (hr : RunIn o act k c c') :
    Jam o W c'.held := by
  induction hr with
  | refl => exact hj
  | tail _ hs ih => exact (ih hj).step hs

omit [DecidableEq θ] in
/-- In a jam something is in flight. -/
theorem Jam.exists_mem {W : Set θ} (hj : Jam o W c.held) : ∃ p, p ∈ c.flat.flight := by
  obtain ⟨w, hw⟩ := hj.nonempty
  obtain ⟨h, hmem, -⟩ := hj.waits w hw
  exact ⟨h.pair, List.mem_append_left _ (List.mem_map_of_mem hmem)⟩

/-- A queue has a place left for a token as long as all tokens together are not more than its
places. -/
theorem load_lt {left : List (ι × τ)} {l₁ l₂ : List (Held ι τ θ)} {h : Held ι τ θ}
    (hle : ((l₁ ++ h :: l₂).map Held.pair ++ left).length ≤ o.places) (w : θ) :
    o.load w left (l₁ ++ l₂) < o.places := by
  have hleft := List.length_filter_le (fun p => decide (o.worker p.1 p.2 = w)) left
  have hheld := List.length_filter_le
    (fun h => decide (h.queued ∧ o.worker h.activity h.token = w)) (l₁ ++ l₂)
  simp only [List.length_append, List.length_map, List.length_cons] at hle hheld
  rw [Office.load]
  omega

/-- **Only a jam stops the system**, when every token can be consumed and the queues have places for
all of them. -/
theorem exists_step_or_jam (hact : ∀ p ∈ c.flat.flight, ∃ s' new events,
      act c.shared p.1 p.2 s' new events)
    (hplaces : c.flat.flight.length ≤ o.places) (hne : c.flat.flight ≠ []) :
    (∃ c', Step o act c c') ∨ ∃ W, Jam o W c.held := by
  obtain ⟨s, left, held, log⟩ := c
  by_cases hstep : ∃ c', Step o act ⟨s, left, held, log⟩ c'
  · exact .inl hstep
  -- What is held has its place, is too large, and is for a worker that holds something itself.
  have hstuck : ∀ h ∈ held, h.queued ∧ o.cap < o.size h.token ∧
      ¬ Free held (o.worker h.activity h.token) := by
    rintro h hmem
    obtain ⟨s', new, events, h'⟩ := hact h.pair (List.mem_append_left _ (List.mem_map_of_mem hmem))
    obtain ⟨l₁, l₂, rfl⟩ := List.append_of_mem hmem
    obtain ⟨w, _ | _, i, t⟩ := h
    · exact absurd ⟨_, .queue (load_lt hplaces _)⟩ hstep
    · exact ⟨rfl, Nat.lt_of_not_le fun hsize => hstep ⟨_, .leave hsize⟩,
        fun hfree => hstep ⟨_, .take hfree h'⟩⟩
  refine .inr ⟨{w | ¬ Free held w}, ?_, fun w hw => ?_⟩
  · obtain ⟨⟨i, t⟩, hmem⟩ := List.exists_mem_of_ne_nil _ hne
    obtain hheld | hleft := List.mem_append.1 hmem
    · obtain ⟨h, hmem, -⟩ := List.mem_map.1 hheld
      exact ⟨_, (hstuck h hmem).2.2⟩
    · obtain ⟨s', new, events, h'⟩ := hact _ hmem
      obtain ⟨l₁, l₂, rfl⟩ := List.append_of_mem hleft
      exact ⟨_, fun hfree => hstep ⟨_, .consume hfree h'⟩⟩
  · obtain ⟨h, hmem, hholder⟩ : ∃ h ∈ held, h.holder = w := by
      simpa [Free] using hw
    obtain ⟨hq, hsize, hbusy⟩ := hstuck h hmem
    exact ⟨h, hmem, hholder, hq, hsize, hbusy⟩

end Runs

end Onion5.Handover
