import Mathlib.Data.List.Nodup
import Mathlib.Data.List.DropRight
import Mathlib.Data.List.Induction

/-!
# Insertion-ordered maps

Maps that keep their entries in the order in which the keys entered them, with first-writer-wins
insertion: adding a key that is there does nothing. A trace of additions and deletions is run from
the empty map (`run`), and what comes out is read off the trace itself:

* `lookup_run`: a key has the value of its first addition after its last deletion (`current`).
* `entries_run`: the entries are the additions of the trace that found their key absent and were
  followed by no deletion of it, in the order of the trace (`live`).
* `current_append`, `add_mem_of_current`: what a continued trace leaves of a key.
-/

namespace Onion5

/-- An insertion-ordered map: entries with distinct keys. -/
structure OrderedMap (K V : Type*) where
  entries : List (K × V)
  nodup : (entries.map Prod.fst).Nodup

namespace OrderedMap

variable {K V : Type*} [DecidableEq K]

/-- Additions and deletions. -/
inductive Op (K V : Type*)
  | add (k : K) (v : V)
  | del (k : K)
  deriving DecidableEq

def empty : OrderedMap K V := ⟨[], List.nodup_nil⟩

def keys (m : OrderedMap K V) : List K := m.entries.map Prod.fst

def lookup (m : OrderedMap K V) (k : K) : Option V := (m.entries.find? (·.1 = k)).map Prod.snd

/-- Add a key, unless it is there. -/
def insertNew (m : OrderedMap K V) (k : K) (v : V) : OrderedMap K V :=
  if h : k ∈ m.keys then m
  else ⟨m.entries ++ [(k, v)], by
    rw [List.map_append, List.nodup_append]
    refine ⟨m.nodup, List.nodup_singleton _, fun a ha b hb hab => h ?_⟩
    rwa [hab, List.mem_singleton.1 hb] at ha⟩

def erase (m : OrderedMap K V) (k : K) : OrderedMap K V where
  entries := m.entries.filter (·.1 ≠ k)
  nodup := m.nodup.sublist (List.filter_sublist.map _)

def apply (m : OrderedMap K V) : Op K V → OrderedMap K V
  | .add k v => m.insertNew k v
  | .del k => m.erase k

/-- The map after a trace. -/
def run (ops : List (Op K V)) : OrderedMap K V := ops.foldl apply empty

theorem run_concat (ops : List (Op K V)) (op : Op K V) :
    run (ops ++ [op]) = (run ops).apply op := by
  simp [run]

/-! ## Lookups -/

theorem lookup_eq_none {m : OrderedMap K V} {k : K} : m.lookup k = none ↔ k ∉ m.keys := by
  rw [lookup, Option.map_eq_none_iff, List.find?_eq_none, keys, List.mem_map]
  simp only [decide_eq_true_eq, not_exists, not_and]

/-- Looking a key up finds its entry. -/
theorem lookup_eq_some {m : OrderedMap K V} {k : K} {v : V} :
    m.lookup k = some v ↔ (k, v) ∈ m.entries := by
  have hmem {w : V} (h : m.lookup k = some w) : (k, w) ∈ m.entries := by
    obtain ⟨⟨k', v'⟩, hfind, rfl⟩ := Option.map_eq_some_iff.1 h
    obtain rfl : k' = k := by simpa using List.find?_some hfind
    exact List.mem_of_find?_eq_some hfind
  refine ⟨hmem, fun h => ?_⟩
  have hkey : k ∈ m.keys := List.mem_map.2 ⟨_, h, rfl⟩
  obtain ⟨w, hw⟩ := Option.ne_none_iff_exists'.1 (mt lookup_eq_none.1 (not_not.2 hkey))
  have heq := List.inj_on_of_nodup_map m.nodup (hmem hw) h rfl
  rw [hw, (Prod.mk.inj heq).2]

theorem lookup_insertNew (m : OrderedMap K V) (k k' : K) (v : V) :
    (m.insertNew k v).lookup k' = (m.lookup k').or (if k = k' then some v else none) := by
  unfold insertNew
  split_ifs with h hk
  · subst hk
    obtain ⟨w, hw⟩ := Option.ne_none_iff_exists'.1 (mt lookup_eq_none.1 (not_not.2 h))
    rw [hw, Option.some_or]
  · rw [Option.or_none]
  all_goals
    rw [lookup, List.find?_append, Option.map_or, ← lookup]
    congr 1
    simp [*]

theorem lookup_erase (m : OrderedMap K V) (k k' : K) :
    (m.erase k).lookup k' = if k = k' then none else m.lookup k' := by
  simp only [lookup, erase, List.find?_filter]
  split_ifs with hk
  · subst hk
    rw [Option.map_eq_none_iff, List.find?_eq_none]
    simp
  · congr 2
    funext e
    by_cases he : e.1 = k' <;> simp [he, Ne.symm hk]

/-- The trace after the last deletion of a key. -/
def sinceDeletion [DecidableEq V] (k : K) (ops : List (Op K V)) : List (Op K V) :=
  ops.rtakeWhile (· ≠ .del k)

/-- The value of an addition of `k`. -/
def Op.valueOf (k : K) : Op K V → Option V
  | .add k' v => if k' = k then some v else none
  | .del _ => none

/-- The value of the first addition of a key after its last deletion. -/
def current [DecidableEq V] (ops : List (Op K V)) (k : K) : Option V :=
  (sinceDeletion k ops).findSome? (Op.valueOf k)

variable [DecidableEq V]

theorem current_concat_add (ops : List (Op K V)) (k k' : K) (v : V) :
    current (ops ++ [.add k v]) k' = (current ops k').or (if k = k' then some v else none) := by
  simp [current, sinceDeletion, List.findSome?_append, Op.valueOf]

theorem current_concat_del (ops : List (Op K V)) (k k' : K) :
    current (ops ++ [.del k]) k' = if k = k' then none else current ops k' := by
  by_cases hk : k = k'
  · subst hk
    simp [current, sinceDeletion]
  · simp [current, sinceDeletion, List.findSome?_append, Op.valueOf, hk]

/-- **A key has the value of its first addition after its last deletion.** -/
theorem lookup_run (ops : List (Op K V)) (k : K) : (run ops).lookup k = current ops k := by
  induction ops using List.reverseRec with
  | nil => rfl
  | append_singleton ops op ih =>
    rw [run_concat]
    cases op with
    | add k' v => rw [apply, lookup_insertNew, current_concat_add, ih]
    | del k' => rw [apply, lookup_erase, current_concat_del, ih]

/-! ## Continued traces -/

variable {before after : List (Op K V)} {k : K} {v : V}

/-- A key that is there keeps its value as long as it is not deleted. -/
theorem current_append (h : current before k = some v) (hdel : .del k ∉ after) :
    current (before ++ after) k = some v := by
  induction after using List.reverseRec with
  | nil => rwa [List.append_nil]
  | append_singleton after op ih =>
    rw [List.mem_append, List.mem_singleton, not_or] at hdel
    rw [← List.append_assoc]
    cases op with
    | add k' v' => rw [current_concat_add, ih hdel.1, Option.some_or]
    | del k' =>
      have hne : k' ≠ k := by
        rintro rfl
        exact hdel.2 rfl
      rw [current_concat_del, if_neg hne, ih hdel.1]

/-- An addition of a new key lasts until it is deleted. -/
theorem current_append_add (h : current before k = none) (hdel : .del k ∉ after) :
    current (before ++ .add k v :: after) k = some v := by
  rw [List.append_cons]
  refine current_append ?_ hdel
  rw [current_concat_add, h, Option.none_or, if_pos rfl]

/-- After a deletion, a value has been added again. -/
theorem add_mem_of_current (h : current (before ++ .del k :: after) k = some v) :
    .add k v ∈ after := by
  induction after using List.reverseRec with
  | nil =>
    rw [current_concat_del, if_pos rfl] at h
    cases h
  | append_singleton after op ih =>
    rw [← List.cons_append, ← List.append_assoc] at h
    rw [List.mem_append, List.mem_singleton]
    cases op with
    | add k' v' =>
      rw [current_concat_add, Option.or_eq_some_iff] at h
      rcases h with h | ⟨-, h⟩
      · exact .inl (ih h)
      · split_ifs at h with hk
        cases h
        exact .inr (hk ▸ rfl)
    | del k' =>
      rw [current_concat_del] at h
      split_ifs at h
      exact .inl (ih h)

/-! ## Entries -/

/-- The additions in `after`, which follows `before`, that found their key absent and were not
deleted later. -/
def liveAfter : List (Op K V) → List (Op K V) → List (K × V)
  | _, [] => []
  | before, .add k v :: after =>
    (if current before k = none ∧ .del k ∉ after then [(k, v)] else []) ++
      liveAfter (before ++ [.add k v]) after
  | before, .del k :: after => liveAfter (before ++ [.del k]) after

def live (ops : List (Op K V)) : List (K × V) := liveAfter [] ops

theorem liveAfter_concat_add (before after : List (Op K V)) (k : K) (v : V) :
    liveAfter before (after ++ [.add k v]) = liveAfter before after ++
      (if current (before ++ after) k = none then [(k, v)] else []) := by
  induction after generalizing before with
  | nil => simp [liveAfter]
  | cons op after ih =>
    cases op <;> simp [liveAfter, ih]

theorem liveAfter_concat_del (before after : List (Op K V)) (k : K) :
    liveAfter before (after ++ [.del k]) = (liveAfter before after).filter (·.1 ≠ k) := by
  induction after generalizing before with
  | nil => simp [liveAfter]
  | cons op after ih =>
    cases op with
    | add k' v =>
      have hhead :
          (if current before k' = none ∧ .del k' ∉ after ++ [.del k] then [(k', v)] else []) =
          (if current before k' = none ∧ .del k' ∉ after then [(k', v)] else []).filter
            (·.1 ≠ k) := by
        by_cases hk : k' = k
        · split_ifs <;> simp_all
        · simp only [List.mem_append, List.mem_singleton, Op.del.injEq, hk, or_false]
          split_ifs <;> simp [hk]
      rw [List.cons_append, liveAfter, liveAfter, ih, hhead, List.filter_append]
    | del k' => rw [List.cons_append, liveAfter, liveAfter, ih]

/-- **The entries are the additions of the trace that are still in force**, in its order. -/
theorem entries_run (ops : List (Op K V)) : (run ops).entries = live ops := by
  induction ops using List.reverseRec with
  | nil => rfl
  | append_singleton ops op ih =>
    rw [run_concat]
    cases op with
    | add k v =>
      rw [live, liveAfter_concat_add, ← live, ← ih, List.nil_append, ← lookup_run, apply, insertNew]
      by_cases h : (run ops).lookup k = none
      · rw [dif_neg (lookup_eq_none.1 h), if_pos h]
      · rw [dif_pos (not_not.1 (mt lookup_eq_none.2 h)), if_neg h, List.append_nil]
    | del k => rw [live, liveAfter_concat_del, ← live, ← ih, apply, erase]

end OrderedMap

end Onion5
