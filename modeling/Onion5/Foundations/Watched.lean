import Onion5.Foundations.Interleaving
import Mathlib.Data.List.Forall2

/-!
# Interleavings that are watched

What an observer sees of a run: a list with one entry for each step, in the order of the steps
(`Watched`). An entry is a function `see` of the activity that takes the step, of the tokens it puts
in flight and of the events it logs; how much of these it keeps is up to the observer.

Two systems that take the same steps on related states and look the same at each of them cannot be
told apart. It is enough to match one action at a time (`Simulates`): then every run of one system
has a run of the other of which the same is seen, whatever the interleaving (`Simulates.watched`).
-/

namespace Onion5.Interleaving

variable {σ σ' ι τ τ' ε ε' ω : Type*} {act : Action σ ι τ ε} {act' : Action σ' ι τ' ε'}
  {see : ι → List τ → List ε → ω} {see' : ι → List τ' → List ε' → ω}

/-- One step, and what is seen of it. -/
inductive WatchedStep (act : Action σ ι τ ε) (see : ι → List τ → List ε → ω) :
    ω → Config σ ι τ ε → Config σ ι τ ε → Prop
  | mk {s s' : σ} {i : ι} {t : τ} {new : List τ} {events : List ε} {l₁ l₂ : List (ι × τ)}
      {log : List (ι × ε)} (h : act s i t s' new events) :
      WatchedStep act see (see i new events) ⟨s, l₁ ++ (i, t) :: l₂, log⟩
        ⟨s', l₁ ++ l₂ ++ new.map (i, ·), log ++ events.map (i, ·)⟩

/-- A step on the only token in flight. -/
theorem WatchedStep.single (see : ι → List τ → List ε → ω) {s s' : σ} {i : ι} {t : τ}
    {new : List τ} {events : List ε} (h : act s i t s' new events) (log : List (ι × ε)) :
    WatchedStep act see (see i new events) ⟨s, [(i, t)], log⟩
      ⟨s', new.map (i, ·), log ++ events.map (i, ·)⟩ :=
  show WatchedStep act see _ ⟨s, [] ++ (i, t) :: [], log⟩
    ⟨s', [] ++ [] ++ new.map (i, ·), log ++ events.map (i, ·)⟩ from .mk h

/-- A run, and what is seen of it. -/
inductive Watched (act : Action σ ι τ ε) (see : ι → List τ → List ε → ω) :
    List ω → Config σ ι τ ε → Config σ ι τ ε → Prop
  | refl (c : Config σ ι τ ε) : Watched act see [] c c
  | tail {trace : List ω} {o : ω} {c c' c'' : Config σ ι τ ε} (h : Watched act see trace c c')
      (hs : WatchedStep act see o c' c'') : Watched act see (trace ++ [o]) c c''

/-- Every action on the left has one on the right that does to what is related what it does, and of
which the same is seen. -/
structure Simulates (act : Action σ ι τ ε) (act' : Action σ' ι τ' ε')
    (see : ι → List τ → List ε → ω) (see' : ι → List τ' → List ε' → ω) (shared : σ → σ' → Prop)
    (token : ι → τ → τ' → Prop) : Prop where
  step : ∀ {s i t s₁ new events r u}, shared s r → token i t u → act s i t s₁ new events →
    ∃ r₁ new' events', act' r i u r₁ new' events' ∧ shared s₁ r₁ ∧
      List.Forall₂ (token i) new new' ∧ see i new events = see' i new' events'

/-- Related configurations: what is in flight is related one by one, and belongs to the same
activities. -/
structure Related (shared : σ → σ' → Prop) (token : ι → τ → τ' → Prop) (c : Config σ ι τ ε)
    (d : Config σ' ι τ' ε') : Prop where
  shared : shared c.shared d.shared
  flight : List.Forall₂ (fun p q => p.1 = q.1 ∧ token p.1 p.2 q.2) c.flight d.flight

/-- What is related to two lists one after the other. -/
theorem forall₂_append_left {α β : Type*} {R : α → β → Prop} {l₁ l₂ : List α} {l : List β}
    (h : List.Forall₂ R (l₁ ++ l₂) l) :
    ∃ r₁ r₂, l = r₁ ++ r₂ ∧ List.Forall₂ R l₁ r₁ ∧ List.Forall₂ R l₂ r₂ := by
  have hflip : List.Forall₂ (flip R) l (l₁ ++ l₂) := List.Forall₂.flip h
  exact ⟨l.take l₁.length, l.drop l₁.length, (List.take_append_drop _ l).symm,
    (List.forall₂_take_append l l₁ l₂ hflip).flip, (List.forall₂_drop_append l l₁ l₂ hflip).flip⟩

variable {shared : σ → σ' → Prop} {token : ι → τ → τ' → Prop}

/-- One step is matched by one step. -/
theorem Simulates.watchedStep (h : Simulates act act' see see' shared token) {o : ω}
    {c c' : Config σ ι τ ε} {d : Config σ' ι τ' ε'} (hc : Related shared token c d)
    (hs : WatchedStep act see o c c') :
    ∃ d', WatchedStep act' see' o d d' ∧ Related shared token c' d' := by
  obtain ⟨hshared, hflight⟩ := hc
  obtain ⟨s', flight, log'⟩ := d
  obtain @⟨s, s₁, i, t, new, events, l₁, l₂, log, hact⟩ := hs
  obtain ⟨r₁, r, rfl, h₁, hr⟩ := forall₂_append_left hflight
  obtain ⟨⟨j, u⟩, r₂, ⟨hij, htoken⟩, h₂, rfl⟩ := List.forall₂_cons_left_iff.1 hr
  replace hij : i = j := hij
  subst hij
  obtain ⟨s₁', new', events', hact', hshared', hnew, hsee⟩ := h.step hshared htoken hact
  rw [hsee]
  refine ⟨_, .mk hact', hshared', List.rel_append (List.rel_append h₁ h₂) ?_⟩
  exact List.rel_map (fun _ _ ht => ⟨rfl, ht⟩) hnew

/-- **Every run is matched by one of which the same is seen.** -/
theorem Simulates.watched (h : Simulates act act' see see' shared token) {trace : List ω}
    {c c' : Config σ ι τ ε} {d : Config σ' ι τ' ε'} (hc : Related shared token c d)
    (hrun : Watched act see trace c c') :
    ∃ d', Watched act' see' trace d d' ∧ Related shared token c' d' := by
  induction hrun with
  | refl => exact ⟨d, .refl d, hc⟩
  | tail _ hs ih =>
    obtain ⟨d₁, hrun, hc₁⟩ := ih hc
    obtain ⟨d₂, hs', hc₂⟩ := h.watchedStep hc₁ hs
    exact ⟨d₂, .tail hrun hs', hc₂⟩

end Onion5.Interleaving
