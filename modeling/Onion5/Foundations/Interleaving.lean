import Mathlib.Algebra.Order.BigOperators.Group.List
import Mathlib.Algebra.Order.Ring.Nat
import Mathlib.Data.List.Perm.Basic
import Mathlib.Logic.Relation

/-!
# Interleavings of independent activities

A system in which many activities run at once: every token in flight belongs to one activity, and
a step consumes any one of them, puts tokens of the same activity in flight, logs events of that
activity and changes a shared state.

What one activity does does not depend on how the others are interleaved with it as long as every
step keeps an invariant of the shared state: `run_invariant` takes an invariant of the shared
state and one, for each activity, of that activity's own tokens and events, and gives them after
every run. `perm_flatMap_ofActivity` puts the logs of the activities back together.

When every action consumes more weight than it puts in flight, the weight at the start bounds the
number of steps (`Consumes.run`). When every action logs a marked event, a bound on the marked
events of an activity bounds the number of steps (`Marks.run`), and when every token can be consumed
as long as the shared state has something in stock, everything in flight can be consumed
(`Supplies.drains`).
-/

namespace Onion5.Interleaving

variable {σ ι τ ε : Type*} [DecidableEq ι]

/-- A system with tokens in flight and a log of events, both tagged with their activities. -/
structure Config (σ ι τ ε : Type*) where
  shared : σ
  flight : List (ι × τ)
  log : List (ι × ε)

/-- What consuming one token of an activity does: the shared state, the new tokens and the
events. -/
abbrev Action (σ ι τ ε : Type*) := σ → ι → τ → σ → List τ → List ε → Prop

/-- One step: any token in flight is consumed. -/
inductive Step (act : Action σ ι τ ε) : Config σ ι τ ε → Config σ ι τ ε → Prop
  | mk {s s' : σ} {i : ι} {t : τ} {new : List τ} {events : List ε} {l₁ l₂ : List (ι × τ)}
      {log : List (ι × ε)} (h : act s i t s' new events) :
      Step act ⟨s, l₁ ++ (i, t) :: l₂, log⟩
        ⟨s', l₁ ++ l₂ ++ new.map (i, ·), log ++ events.map (i, ·)⟩

omit [DecidableEq ι] in
/-- A step on the only token in flight. -/
theorem Step.single {act : Action σ ι τ ε} {s s' : σ} {i : ι} {t : τ} {new : List τ}
    {events : List ε} (h : act s i t s' new events) (log : List (ι × ε)) :
    Step act ⟨s, [(i, t)], log⟩ ⟨s', new.map (i, ·), log ++ events.map (i, ·)⟩ :=
  show Step act ⟨s, [] ++ (i, t) :: [], log⟩
    ⟨s', [] ++ [] ++ new.map (i, ·), log ++ events.map (i, ·)⟩ from .mk h

/-- A run: any number of steps. -/
abbrev Run (act : Action σ ι τ ε) : Config σ ι τ ε → Config σ ι τ ε → Prop :=
  Relation.ReflTransGen (Step act)

/-- The part of a tagged list that belongs to the activity `i`. -/
def ofActivity {β : Type*} (i : ι) (l : List (ι × β)) : List β :=
  l.filterMap fun p => if p.1 = i then some p.2 else none

section ofActivity

variable {β : Type*} (i : ι)

@[simp] theorem ofActivity_nil : ofActivity i ([] : List (ι × β)) = [] := rfl

@[simp] theorem ofActivity_append (l₁ l₂ : List (ι × β)) :
    ofActivity i (l₁ ++ l₂) = ofActivity i l₁ ++ ofActivity i l₂ := List.filterMap_append ..

@[simp] theorem ofActivity_cons_self (b : β) (l : List (ι × β)) :
    ofActivity i ((i, b) :: l) = b :: ofActivity i l := by
  simp [ofActivity]

theorem ofActivity_cons_of_ne {j : ι} (h : j ≠ i) (b : β) (l : List (ι × β)) :
    ofActivity i ((j, b) :: l) = ofActivity i l := by
  simp [ofActivity, h]

@[simp] theorem ofActivity_map_self (l : List β) : ofActivity i (l.map (i, ·)) = l := by
  simp [ofActivity, List.filterMap_map]

theorem ofActivity_map_of_ne {j : ι} (h : j ≠ i) (l : List β) :
    ofActivity i (l.map (j, ·)) = [] := by
  simp [ofActivity, List.filterMap_map, h]

end ofActivity

/-- An invariant of a system: `shared` holds of the shared state, and `own i` of the tokens and
the events of the activity `i`. -/
structure Invariant (act : Action σ ι τ ε) (shared : σ → Prop)
    (own : ι → List τ → List ε → Prop) : Prop where
  step_shared : ∀ {s i t s' new events l₁ l₂ log}, shared s → own i (l₁ ++ t :: l₂) log →
    act s i t s' new events → shared s'
  step_own : ∀ {s i t s' new events l₁ l₂ log}, shared s → own i (l₁ ++ t :: l₂) log →
    act s i t s' new events → own i (l₁ ++ l₂ ++ new) (log ++ events)

variable {act : Action σ ι τ ε} {shared : σ → Prop} {own : ι → List τ → List ε → Prop}

/-- The invariant of a configuration. -/
def Config.Holds (shared : σ → Prop) (own : ι → List τ → List ε → Prop)
    (c : Config σ ι τ ε) : Prop :=
  shared c.shared ∧ ∀ i, own i (ofActivity i c.flight) (ofActivity i c.log)

/-- One step keeps the invariant. -/
theorem step_invariant (hinv : Invariant act shared own) {c c' : Config σ ι τ ε}
    (h : c.Holds shared own) (hs : Step act c c') : c'.Holds shared own := by
  obtain ⟨hshared, hown⟩ := h
  obtain @⟨s, s', i, t, new, events, l₁, l₂, log, hact⟩ := hs
  have hi := hown i
  simp only [ofActivity_append, ofActivity_cons_self] at hi
  refine ⟨hinv.step_shared hshared hi hact, fun j => ?_⟩
  by_cases hj : i = j
  · subst hj
    simpa only [ofActivity_append, ofActivity_map_self] using hinv.step_own hshared hi hact
  · have hjown := hown j
    simp only [ofActivity_append, ofActivity_cons_of_ne j hj] at hjown
    simpa only [ofActivity_append, ofActivity_map_of_ne j hj, List.append_nil] using hjown

/-- **Every run keeps the invariant**, whatever the order of its steps. -/
theorem run_invariant (hinv : Invariant act shared own) {c c' : Config σ ι τ ε}
    (h : c.Holds shared own) (hr : Run act c c') : c'.Holds shared own := by
  induction hr with
  | refl => exact h
  | tail _ hs ih => exact step_invariant hinv ih hs

/-! ## Runs that end -/

/-- A run of `k` steps. -/
inductive RunIn (act : Action σ ι τ ε) : ℕ → Config σ ι τ ε → Config σ ι τ ε → Prop
  | refl (c : Config σ ι τ ε) : RunIn act 0 c c
  | tail {k : ℕ} {c c' c'' : Config σ ι τ ε} (h : RunIn act k c c') (hs : Step act c' c'') :
      RunIn act (k + 1) c c''

/-- The weight of what is in flight. -/
def Config.weight (w : τ → ℕ) (c : Config σ ι τ ε) : ℕ := (c.flight.map fun p => w p.2).sum

/-- Every action puts less weight in flight than it consumes, as long as `shared` holds of the
shared state, which it keeps. -/
structure Consumes (act : Action σ ι τ ε) (shared : σ → Prop) (w : τ → ℕ) : Prop where
  step_shared : ∀ {s i t s' new events}, shared s → act s i t s' new events → shared s'
  weight_lt : ∀ {s i t s' new events}, shared s → act s i t s' new events →
    (new.map w).sum < w t

section Consumes

variable {w : τ → ℕ}

omit [DecidableEq ι] in
theorem Consumes.step (h : Consumes act shared w) {c c' : Config σ ι τ ε} (hc : shared c.shared)
    (hs : Step act c c') : shared c'.shared ∧ c'.weight w < c.weight w := by
  obtain @⟨s, s', i, t, new, events, l₁, l₂, log, hact⟩ := hs
  refine ⟨h.step_shared hc hact, ?_⟩
  have hlt := h.weight_lt hc hact
  have hnew : ((new.map fun t => (i, t)).map fun p => w p.2).sum = (new.map w).sum := by
    rw [List.map_map]
    rfl
  simp only [Config.weight, List.map_append, List.map_cons, List.sum_append, List.sum_cons, hnew]
  omega

omit [DecidableEq ι] in
theorem Consumes.shared_of_run (h : Consumes act shared w) {c c' : Config σ ι τ ε}
    (hc : shared c.shared) (hr : Run act c c') : shared c'.shared := by
  induction hr with
  | refl => exact hc
  | tail _ hs ih => exact (h.step ih hs).1

omit [DecidableEq ι] in
/-- **A run has at most as many steps as there is weight in flight at its start.** -/
theorem Consumes.run (h : Consumes act shared w) {k : ℕ} {c c' : Config σ ι τ ε}
    (hc : shared c.shared) (hr : RunIn act k c c') :
    shared c'.shared ∧ k + c'.weight w ≤ c.weight w := by
  induction hr with
  | refl => exact ⟨hc, by omega⟩
  | tail _ hs ih =>
    obtain ⟨hshared, hle⟩ := ih hc
    obtain ⟨hshared', hlt⟩ := h.step hshared hs
    exact ⟨hshared', by omega⟩

omit [DecidableEq ι] in
/-- **No run goes on forever.** -/
theorem Consumes.not_infinite (h : Consumes act shared w) (f : ℕ → Config σ ι τ ε)
    (hc : shared (f 0).shared) : ¬ ∀ k, Step act (f k) (f (k + 1)) := by
  intro hf
  have hrun : ∀ k, RunIn act k (f 0) (f k) := by
    intro k
    induction k with
    | zero => exact .refl _
    | succ k ih => exact .tail ih (hf k)
  have hle := (h.run hc (hrun ((f 0).weight w + 1))).2
  omega

end Consumes

/-! ## Logs -/

/-- The part of a singleton that the activities of a list without repetitions see. -/
theorem flatMap_single {β : Type*} (i : ι) (b : β) {is : List ι} (hnd : is.Nodup) (hi : i ∈ is) :
    (is.flatMap fun j => if i = j then [b] else []) = [b] := by
  induction is with
  | nil => cases hi
  | cons j js ih =>
    obtain ⟨hj, hnd⟩ := List.nodup_cons.1 hnd
    rw [List.flatMap_cons]
    by_cases h : i = j
    · subst h
      have hnil : (js.flatMap fun j => if i = j then [b] else []) = [] :=
        List.flatMap_eq_nil_iff.2 fun k hk => if_neg (ne_of_mem_of_not_mem hk hj).symm
      rw [if_pos rfl, hnil, List.append_nil]
    · rw [if_neg h, List.nil_append, ih hnd ((List.mem_cons.1 hi).resolve_left h)]

/-- A tagged list is, up to order, the parts of its activities together. -/
theorem perm_flatMap_ofActivity {β : Type*} {is : List ι} (hnd : is.Nodup) (l : List (ι × β))
    (hl : ∀ p ∈ l, p.1 ∈ is) :
    (l.map Prod.snd).Perm (is.flatMap fun i => ofActivity i l) := by
  induction l with
  | nil => simp
  | cons p l ih =>
    obtain ⟨i, b⟩ := p
    have hcons : ∀ j,
        ofActivity j ((i, b) :: l) = (if i = j then [b] else []) ++ ofActivity j l := by
      intro j
      by_cases h : i = j
      · subst h
        simp
      · simp [ofActivity_cons_of_ne j h, h]
    have hperm := List.flatMap_append_perm is (fun j => if i = j then [b] else [])
      fun j => ofActivity j l
    rw [flatMap_single i b hnd (hl _ List.mem_cons_self)] at hperm
    simp only [hcons]
    exact ((ih fun p hp => hl p (List.mem_cons_of_mem _ hp)).cons b).trans hperm

/-- What a function finds in a tagged list is, up to order, what it finds in the parts. -/
theorem perm_filterMap_ofActivity {β γ : Type*} {is : List ι} (hnd : is.Nodup) (l : List (ι × β))
    (hl : ∀ p ∈ l, p.1 ∈ is) (f : ι × β → Option γ) :
    (l.filterMap f).Perm (is.flatMap fun i => (ofActivity i l).filterMap fun b => f (i, b)) := by
  have hpart : ∀ i, ofActivity i (l.map fun p => (p.1, f p)) =
      (ofActivity i l).map fun b => f (i, b) := by
    intro i
    induction l with
    | nil => rfl
    | cons p l ih =>
      have ih := ih fun p hp => hl p (List.mem_cons_of_mem _ hp)
      obtain ⟨j, b⟩ := p
      rw [List.map_cons]
      by_cases hj : j = i
      · subst hj
        rw [ofActivity_cons_self, ofActivity_cons_self, ih, List.map_cons]
      · rw [ofActivity_cons_of_ne i hj, ofActivity_cons_of_ne i hj, ih]
  have hperm := (perm_flatMap_ofActivity hnd (l.map fun p => (p.1, f p)) (by
    intro q hq
    obtain ⟨p, hp, rfl⟩ := List.mem_map.1 hq
    exact hl p hp)).filterMap id
  rw [List.map_map, List.filterMap_map, List.filterMap_flatMap] at hperm
  simp only [hpart, List.filterMap_map] at hperm
  exact hperm

/-- There are no more tokens in flight than activities, when none has more than one. -/
theorem length_flight_le {is : List ι} (hnd : is.Nodup) (hall : ∀ i, i ∈ is)
    {flight : List (ι × τ)} (hone : ∀ i, (ofActivity i flight).length ≤ 1) :
    flight.length ≤ is.length := by
  have hperm := (perm_flatMap_ofActivity hnd flight fun p _ => hall p.1).length_eq
  rw [List.length_map, List.length_flatMap] at hperm
  have hle := List.sum_le_card_nsmul (is.map fun i => (ofActivity i flight).length) 1 (by
    intro k hk
    obtain ⟨i, -, rfl⟩ := List.mem_map.1 hk
    exact hone i)
  simpa [hperm] using hle

/-! ## Runs that get done -/

/-- The marked events of a log. -/
def marked (mark : ε → Bool) (log : List (ι × ε)) : ℕ := (log.map Prod.snd).countP mark

/-- Every action logs a marked event, an activity logs at most `bound` of them, and fewer as long
as it has a token in flight. -/
structure Marks (act : Action σ ι τ ε) (shared : σ → Prop) (own : ι → List τ → List ε → Prop)
    (mark : ε → Bool) (bound : ℕ) : Prop where
  step : ∀ {s i t s' new events l₁ l₂ log}, shared s → own i (l₁ ++ t :: l₂) log →
    act s i t s' new events → 0 < events.countP mark
  le : ∀ {i ts log}, own i ts log → log.countP mark ≤ bound
  lt : ∀ {i l₁ t l₂ log}, own i (l₁ ++ t :: l₂) log → log.countP mark < bound

/-- Every token in flight can be consumed as long as the shared state has something in stock, and
consuming it takes one of the stock. -/
structure Supplies (act : Action σ ι τ ε) (shared : σ → Prop) (own : ι → List τ → List ε → Prop)
    (stock : ℕ → σ → Prop) : Prop where
  exists_act : ∀ {k s i t l₁ l₂ log}, shared s → own i (l₁ ++ t :: l₂) log → stock (k + 1) s →
    ∃ s' new events, act s i t s' new events
  step_stock : ∀ {k s i t s' new events l₁ l₂ log}, shared s → own i (l₁ ++ t :: l₂) log →
    act s i t s' new events → stock (k + 1) s → stock k s'

section Marks

variable {mark : ε → Bool} {bound : ℕ} {stock : ℕ → σ → Prop}

/-- The marked events are those of the activities together. -/
theorem marked_eq_sum {is : List ι} (hnd : is.Nodup) {log : List (ι × ε)}
    (hl : ∀ p ∈ log, p.1 ∈ is) :
    marked mark log = (is.map fun i => (ofActivity i log).countP mark).sum := by
  rw [marked, (perm_flatMap_ofActivity hnd log hl).countP_eq, List.countP_flatMap]
  rfl

theorem Marks.marked_le (h : Marks act shared own mark bound) {is : List ι} (hnd : is.Nodup)
    (hall : ∀ i, i ∈ is) {c : Config σ ι τ ε} (hc : c.Holds shared own) :
    marked mark c.log ≤ is.length * bound := by
  rw [marked_eq_sum hnd fun p _ => hall p.1]
  have hle := List.sum_le_card_nsmul (is.map fun i => (ofActivity i c.log).countP mark) bound (by
    intro k hk
    obtain ⟨i, -, rfl⟩ := List.mem_map.1 hk
    exact h.le (hc.2 i))
  simpa using hle

/-- As long as something is in flight there are marked events to come. -/
theorem Marks.marked_lt (h : Marks act shared own mark bound) {is : List ι} (hnd : is.Nodup)
    (hall : ∀ i, i ∈ is) {c : Config σ ι τ ε} (hc : c.Holds shared own) {p : ι × τ}
    (hp : p ∈ c.flight) : marked mark c.log < is.length * bound := by
  obtain ⟨l₁, l₂, hflight⟩ := List.append_of_mem hp
  have hown := hc.2 p.1
  rw [hflight, ofActivity_append, ofActivity_cons_self] at hown
  have hlt := List.sum_lt_sum (fun i => (ofActivity i c.log).countP mark) (fun _ => bound)
    (l := is) (fun i _ => h.le (hc.2 i)) ⟨p.1, hall p.1, h.lt hown⟩
  rw [marked_eq_sum hnd fun p _ => hall p.1]
  simpa using hlt

theorem Marks.marked_step (h : Marks act shared own mark bound) {c c' : Config σ ι τ ε}
    (hc : c.Holds shared own) (hs : Step act c c') :
    marked mark c.log + 1 ≤ marked mark c'.log := by
  obtain ⟨hshared, hown⟩ := hc
  obtain @⟨s, s', i, t, new, events, l₁, l₂, log, hact⟩ := hs
  have hi := hown i
  simp only [ofActivity_append, ofActivity_cons_self] at hi
  have hpos := h.step hshared hi hact
  have hmap : (events.map (i, ·)).map Prod.snd = events := by
    rw [List.map_map]
    exact List.map_id _
  simp only [marked, List.map_append, List.countP_append, hmap]
  omega

/-- **No run has more steps than there are marked events to come.** -/
theorem Marks.run (h : Marks act shared own mark bound) (hinv : Invariant act shared own) {k : ℕ}
    {c c' : Config σ ι τ ε} (hc : c.Holds shared own) (hr : RunIn act k c c') :
    c'.Holds shared own ∧ marked mark c.log + k ≤ marked mark c'.log := by
  induction hr with
  | refl => exact ⟨hc, le_rfl⟩
  | tail _ hs ih =>
    obtain ⟨hc', hle⟩ := ih hc
    have hlt := h.marked_step hc' hs
    exact ⟨step_invariant hinv hc' hs, by omega⟩

/-- A step takes one of the stock. -/
theorem Supplies.step (h : Supplies act shared own stock) {k : ℕ} {c c' : Config σ ι τ ε}
    (hc : c.Holds shared own) (hs : Step act c c') (hk : stock (k + 1) c.shared) :
    stock k c'.shared := by
  obtain ⟨hshared, hown⟩ := hc
  obtain @⟨s, s', i, t, new, events, l₁, l₂, log, hact⟩ := hs
  have hi := hown i
  simp only [ofActivity_append, ofActivity_cons_self] at hi
  exact h.step_stock hshared hi hact hk

theorem Supplies.run (h : Supplies act shared own stock) (hinv : Invariant act shared own)
    {k j : ℕ} {c c' : Config σ ι τ ε} (hc : c.Holds shared own) (hr : RunIn act k c c')
    (hk : stock (j + k) c.shared) : c'.Holds shared own ∧ stock j c'.shared := by
  induction hr generalizing j with
  | refl => exact ⟨hc, hk⟩
  | @tail k _ _ _ _ hs ih =>
    obtain ⟨hc', hstock⟩ := ih (j := j + 1) hc (by rwa [Nat.add_right_comm])
    exact ⟨step_invariant hinv hc' hs, h.step hc' hs hstock⟩

/-- **Any token in flight can be the next**, as long as there is stock. -/
theorem Supplies.next (h : Supplies act shared own stock) {k : ℕ} {c : Config σ ι τ ε}
    (hc : c.Holds shared own) (hk : stock (k + 1) c.shared) {p : ι × τ} (hp : p ∈ c.flight) :
    ∃ s' new events, act c.shared p.1 p.2 s' new events := by
  obtain ⟨l₁, l₂, hflight⟩ := List.append_of_mem hp
  have hown := hc.2 p.1
  rw [hflight, ofActivity_append, ofActivity_cons_self] at hown
  exact h.exists_act hc.1 hown hk

/-- **Everything in flight can be consumed**, when there is stock for the events to come. -/
theorem Supplies.drains (h : Supplies act shared own stock) (hinv : Invariant act shared own)
    (hm : Marks act shared own mark bound) {is : List ι} (hnd : is.Nodup) (hall : ∀ i, i ∈ is)
    {k : ℕ} {c : Config σ ι τ ε} (hc : c.Holds shared own) (hk : stock k c.shared)
    (hle : is.length * bound ≤ marked mark c.log + k) :
    ∃ c', Run act c c' ∧ c'.flight = [] := by
  induction k generalizing c with
  | zero =>
    refine ⟨c, .refl, List.eq_nil_iff_forall_not_mem.2 fun p hp => ?_⟩
    have hlt := hm.marked_lt hnd hall hc hp
    omega
  | succ k ih =>
    obtain ⟨s, flight, log⟩ := c
    cases flight with
    | nil => exact ⟨_, .refl, rfl⟩
    | cons p flight =>
      obtain ⟨s', new, events, hact⟩ := h.next hc hk List.mem_cons_self
      have hstep : Step act ⟨s, [] ++ p :: flight, log⟩ _ := .mk hact
      have hlt := hm.marked_step hc hstep
      obtain ⟨c', hrun, hnil⟩ := ih (step_invariant hinv hc hstep) (h.step hc hstep hk) (by omega)
      exact ⟨c', .head hstep hrun, hnil⟩

end Marks

end Onion5.Interleaving
