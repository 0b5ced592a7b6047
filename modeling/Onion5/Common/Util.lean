import Onion5.Foundations.InStream
import Onion5.Foundations.Cpp
import Std.Data.ExtTreeMap
import Mathlib.Data.List.Nodup
import Mathlib.Data.List.Perm.Subperm

/-!
# Files, temporary paths and routes

The model of `util.cc`. A host's files are a `Files`: what every path holds, and which paths the
process may read and write. Paths go through the C library as C strings (`openRead`, `put`).

Random draws are arguments: `getTemppath` takes the sixteen characters `random_string` returns,
and `generatePath` takes the shuffle. That the temporary paths a call draws are new is the
predicate `Files.Fresh` on them.

* `generatePath`: a route from `from_` to `to_` over relays of the node list
  (`generatePath_route`).
-/

namespace Onion5

/-! ## Files -/

/-- The files a process sees. The empty path names no file. -/
structure Files where
  /-- The content of the file at a path, if there is one. -/
  get : Bytes → Option Bytes
  /-- Whether opening a path for reading is permitted. -/
  readable : Bytes → Bool
  /-- Whether opening a path for writing is permitted. -/
  writable : Bytes → Bool
  get_nil : get [] = none
  writable_nil : writable [] = false

namespace Files

/-- `is.open(path)`: the content of the file, when it can be opened. -/
def openRead (fs : Files) (path : Bytes) : Option Bytes :=
  if fs.readable (cstr path) then fs.get (cstr path) else none

/-- Whether `os.open(path)` succeeds. -/
def canWrite (fs : Files) (path : Bytes) : Bool := fs.writable (cstr path)

theorem cstr_ne_nil_of_canWrite {fs : Files} {path : Bytes} (h : fs.canWrite path) :
    cstr path ≠ [] := by
  intro h0
  rw [canWrite, h0, fs.writable_nil] at h
  exact absurd h (by decide)

/-- `os.open(path)`, writes of `content` in all, and `os.close()`. Nothing happens to a path
that cannot be opened. -/
def put (fs : Files) (path content : Bytes) : Files :=
  if h : fs.canWrite path then
    { fs with
      get := Function.update fs.get (cstr path) (some content)
      get_nil := by
        rw [Function.update_of_ne (cstr_ne_nil_of_canWrite h).symm]
        exact fs.get_nil }
  else fs

/-- `remove(path)`. -/
def remove (fs : Files) (path : Bytes) : Files :=
  { fs with
    get := Function.update fs.get (cstr path) none
    get_nil := by
      by_cases h : [] = cstr path
      · rw [← h, Function.update_self]
      · rw [Function.update_of_ne h]
        exact fs.get_nil }

/-- The empty path cannot be opened. -/
@[simp] theorem openRead_nil (fs : Files) : fs.openRead [] = none := by
  simp [openRead, fs.get_nil]

theorem get_put_self {fs : Files} {p : Bytes} (hw : fs.canWrite p) (c : Bytes) :
    (fs.put p c).get (cstr p) = some c := by
  simp [put, hw]

theorem get_put_of_ne {fs : Files} {p q : Bytes} (h : q ≠ cstr p) (c : Bytes) :
    (fs.put p c).get q = fs.get q := by
  unfold put
  split_ifs
  · exact Function.update_of_ne h _ _
  · rfl

@[simp] theorem get_remove_self (fs : Files) (p : Bytes) : (fs.remove p).get (cstr p) = none :=
  Function.update_self _ _ _

theorem get_remove_of_ne {fs : Files} {p q : Bytes} (h : q ≠ cstr p) :
    (fs.remove p).get q = fs.get q := Function.update_of_ne h _ _

/-- What is removed is gone. -/
theorem get_remove_eq_none {fs : Files} {p q : Bytes} (h : q ≠ cstr p → fs.get q = none) :
    (fs.remove p).get q = none := by
  by_cases hq : q = cstr p
  · rw [hq, get_remove_self]
  · rw [get_remove_of_ne hq, h hq]

@[simp] theorem readable_put (fs : Files) (p c : Bytes) : (fs.put p c).readable = fs.readable := by
  unfold put; split <;> rfl

@[simp] theorem writable_put (fs : Files) (p c : Bytes) : (fs.put p c).writable = fs.writable := by
  unfold put; split <;> rfl

@[simp] theorem readable_remove (fs : Files) (p : Bytes) : (fs.remove p).readable = fs.readable :=
  rfl

@[simp] theorem writable_remove (fs : Files) (p : Bytes) : (fs.remove p).writable = fs.writable :=
  rfl

@[simp] theorem canWrite_put (fs : Files) (p c q : Bytes) :
    (fs.put p c).canWrite q = fs.canWrite q := by
  simp [canWrite]

/-- A path written can be read back. -/
theorem openRead_put_self {fs : Files} {p : Bytes} (hr : fs.readable (cstr p))
    (hw : fs.canWrite p) (c : Bytes) : (fs.put p c).openRead p = some c := by
  simp [openRead, put, hr, hw]

/-- Writing one path leaves the others. -/
theorem openRead_put_of_ne {fs : Files} {p q : Bytes} (h : cstr q ≠ cstr p) (c : Bytes) :
    (fs.put p c).openRead q = fs.openRead q := by
  rw [openRead, openRead, get_put_of_ne h, readable_put]

theorem openRead_remove_of_ne {fs : Files} {p q : Bytes} (h : cstr q ≠ cstr p) :
    (fs.remove p).openRead q = fs.openRead q := by
  rw [openRead, openRead, get_remove_of_ne h, readable_remove]

@[simp] theorem put_put (fs : Files) (p a b : Bytes) : (fs.put p a).put p b = fs.put p b := by
  by_cases h : fs.canWrite p
  · have h' : (fs.put p a).canWrite p := by rwa [canWrite_put]
    rw [put, dif_pos h']
    simp [put, h]
  · have h' : ¬ (fs.put p a).canWrite p := by rwa [canWrite_put]
    rw [put, dif_neg h', put, dif_neg h, put, dif_neg h]

end Files

/-! ## Temporary files -/

/-- `get_temppath`, given the string that `random_string(16)` draws. -/
def getTemppath (random : Bytes) : Bytes := ascii "/tmp/" ++ random

/-- The paths `get_temppath` can return. -/
def IsTempPath (p : Bytes) : Prop :=
  ∃ random, random.length = 16 ∧ (∀ c ∈ random, isAlnum c) ∧ p = getTemppath random

theorem IsTempPath.zero_notMem {p : Bytes} (h : IsTempPath p) : 0 ∉ p := by
  obtain ⟨random, -, hr, rfl⟩ := h
  rw [getTemppath, List.mem_append]
  rintro (h0 | h0)
  · revert h0
    decide
  · exact absurd (hr 0 h0) (by decide)

@[simp] theorem IsTempPath.cstr_eq {p : Bytes} (h : IsTempPath p) : cstr p = p :=
  cstr_eq_self h.zero_notMem

theorem IsTempPath.take_two {p : Bytes} (h : IsTempPath p) : p.take 2 = ascii "/t" := by
  obtain ⟨random, -, -, rfl⟩ := h
  rfl

theorem IsTempPath.ne_nil {p : Bytes} (h : IsTempPath p) : p ≠ [] := by
  rintro rfl
  exact absurd h.take_two (by decide)

/-- Temporary paths for examples, one for each `n < 26`. -/
def exampleTemppath (n : ℕ) : Bytes :=
  getTemppath (List.replicate 15 97 ++ [UInt8.ofNat (97 + n)])

theorem toNat_letter {n : ℕ} (h : n < 26) : (UInt8.ofNat (97 + n)).toNat = 97 + n := by
  rw [UInt8.toNat_ofNat', Nat.mod_eq_of_lt (by omega)]

theorem isTempPath_exampleTemppath {n : ℕ} (h : n < 26) : IsTempPath (exampleTemppath n) := by
  refine ⟨_, rfl, fun c hc => ?_, rfl⟩
  rcases List.mem_append.1 hc with hc | hc
  · rw [List.eq_of_mem_replicate hc]
    rfl
  · have hn := toNat_letter h
    rw [List.mem_singleton.1 hc]
    simp only [isAlnum, decide_eq_true_eq, UInt8.le_iff_toNat_le, hn, UInt8.reduceToNat]
    omega

theorem exampleTemppath_inj {n k : ℕ} (hn : n < 26) (hk : k < 26)
    (h : exampleTemppath n = exampleTemppath k) : n = k := by
  have hlast := congrArg UInt8.toNat (List.singleton_inj.1 (List.append_cancel_left
    (List.append_cancel_left h)))
  rw [toNat_letter hn, toNat_letter hk] at hlast
  omega

namespace Files

/-- The temporary paths `ps`, all drawn by one call, are new: distinct, not the name of an
existing file, and in a directory the process may use. -/
structure Fresh (fs : Files) (ps : List Bytes) : Prop where
  nodup : ps.Nodup
  isTempPath : ∀ p ∈ ps, IsTempPath p
  unused : ∀ p ∈ ps, fs.get p = none
  readable : ∀ p ∈ ps, fs.readable p
  writable : ∀ p ∈ ps, fs.writable p

/-- A host without files, where every path may be used. -/
def blank : Files := ⟨fun _ => none, fun _ => true, fun p => p ≠ [], rfl, rfl⟩

/-- On a host without files, distinct temporary paths are new. -/
theorem fresh_blank {ps : List Bytes} (hnd : ps.Nodup) (h : ∀ p ∈ ps, IsTempPath p) :
    blank.Fresh ps where
  nodup := hnd
  isTempPath := h
  unused _ _ := rfl
  readable _ _ := rfl
  writable p hp := decide_eq_true (h p hp).ne_nil

theorem fresh_blank_range {k n : ℕ} (h : k + n ≤ 26) :
    blank.Fresh ((List.range' k n).map exampleTemppath) := by
  have hlt : ∀ i ∈ List.range' k n, i < 26 := by
    intro i hi
    have := (List.mem_range'_1.1 hi).2
    omega
  refine fresh_blank (List.Nodup.map_on (fun i hi j hj =>
    exampleTemppath_inj (hlt i hi) (hlt j hj)) List.nodup_range') fun p hp => ?_
  obtain ⟨i, hi, rfl⟩ := List.mem_map.1 hp
  exact isTempPath_exampleTemppath (hlt i hi)

theorem fresh_exampleTemppath : blank.Fresh [exampleTemppath 0] :=
  fresh_blank_range (k := 0) (n := 1) (by decide)

theorem Fresh.sublist {fs : Files} {ps qs : List Bytes} (h : fs.Fresh qs) (hs : ps.Sublist qs) :
    fs.Fresh ps where
  nodup := h.nodup.sublist hs
  isTempPath q hq := h.isTempPath q (hs.subset hq)
  unused q hq := h.unused q (hs.subset hq)
  readable q hq := h.readable q (hs.subset hq)
  writable q hq := h.writable q (hs.subset hq)

theorem Fresh.tail {fs : Files} {p : Bytes} {ps : List Bytes} (h : fs.Fresh (p :: ps)) :
    fs.Fresh ps := h.sublist (List.sublist_cons_self p ps)

/-- A temporary path once written, the others are still new. -/
theorem Fresh.put {fs : Files} {p : Bytes} {ps : List Bytes} (h : fs.Fresh ps)
    (hp : cstr p ∉ ps) (c : Bytes) : (fs.put p c).Fresh ps where
  nodup := h.nodup
  isTempPath := h.isTempPath
  unused q hq := by rw [get_put_of_ne (fun e => hp (e ▸ hq)), h.unused q hq]
  readable q hq := by rw [readable_put]; exact h.readable q hq
  writable q hq := by rw [writable_put]; exact h.writable q hq

theorem Fresh.remove {fs : Files} {p : Bytes} {ps : List Bytes} (h : fs.Fresh ps)
    (hp : cstr p ∉ ps) : (fs.remove p).Fresh ps where
  nodup := h.nodup
  isTempPath := h.isTempPath
  unused q hq := by rw [get_remove_of_ne (fun e => hp (e ▸ hq)), h.unused q hq]
  readable := h.readable
  writable := h.writable

theorem Fresh.cstr_eq {fs : Files} {ps : List Bytes} (h : fs.Fresh ps) {p : Bytes} (hp : p ∈ ps) :
    cstr p = p := (h.isTempPath p hp).cstr_eq

theorem Fresh.ne_nil {fs : Files} {ps : List Bytes} (h : fs.Fresh ps) {p : Bytes} (hp : p ∈ ps) :
    p ≠ [] := (h.isTempPath p hp).ne_nil

/-- A path that is none of the new ones is not opened as one of them. -/
theorem Fresh.ne_cstr {fs : Files} {ps : List Bytes} (h : fs.Fresh ps) {p q : Bytes} (hp : p ∈ ps)
    (hq : q ∉ ps) : q ≠ cstr p := by
  rw [h.cstr_eq hp]
  exact fun e => hq (e ▸ hp)

/-- The first of the new paths is none of the others. -/
theorem Fresh.cstr_head_notMem {fs : Files} {p : Bytes} {ps : List Bytes}
    (h : fs.Fresh (p :: ps)) : cstr p ∉ ps := by
  rw [h.cstr_eq List.mem_cons_self]
  exact (List.nodup_cons.1 h.nodup).1

theorem Fresh.cstr_head_ne {fs : Files} {p q : Bytes} {ps : List Bytes} (h : fs.Fresh (p :: ps))
    (hq : q ∈ ps) : cstr p ≠ cstr q := h.tail.ne_cstr hq h.cstr_head_notMem

/-- The first of the new paths once written, the others are still new. -/
theorem Fresh.put_head {fs : Files} {p : Bytes} {ps : List Bytes} (h : fs.Fresh (p :: ps))
    (c : Bytes) : (fs.put p c).Fresh ps := h.tail.put h.cstr_head_notMem c

/-- What is written to a new path can be read there. -/
theorem Fresh.openRead_put {fs : Files} {ps : List Bytes} (h : fs.Fresh ps) {p : Bytes}
    (hp : p ∈ ps) (c : Bytes) : (fs.put p c).openRead p = some c := by
  have hc := h.cstr_eq hp
  refine openRead_put_self ?_ ?_ c
  · rw [hc]
    exact h.readable p hp
  · rw [canWrite, hc]
    exact h.writable p hp

theorem Fresh.canWrite {fs : Files} {ps : List Bytes} (h : fs.Fresh ps) {p : Bytes} (hp : p ∈ ps) :
    fs.canWrite p := by
  rw [Files.canWrite, (h.isTempPath p hp).cstr_eq]
  exact h.writable p hp

/-- New paths stay when others are taken: those that are left are new beside the ones taken. -/
theorem Fresh.exists_append {fs : Files} {ps ds : List Bytes} {k : ℕ} (h : fs.Fresh ps)
    (hd : fs.Fresh ds) (hlen : k + ds.length ≤ ps.length) :
    ∃ qs : List Bytes, k ≤ qs.length ∧ fs.Fresh (ds ++ qs) := by
  have hsub : ps ⊆ ds ++ ps.filter (· ∉ ds) := by
    intro p hp
    by_cases hpd : p ∈ ds <;> simp [hp, hpd]
  have hle := (h.nodup.subperm hsub).length_le
  rw [List.length_append] at hle
  have hq : fs.Fresh (ps.filter (· ∉ ds)) := h.sublist List.filter_sublist
  refine ⟨ps.filter (· ∉ ds), by omega, ?_, ?_, ?_, ?_, ?_⟩
  · exact hd.nodup.append hq.nodup fun p hp hpq => absurd hp (by simpa using List.of_mem_filter hpq)
  · exact fun p hp => (List.mem_append.1 hp).elim (hd.isTempPath p) (hq.isTempPath p)
  · exact fun p hp => (List.mem_append.1 hp).elim (hd.unused p) (hq.unused p)
  · exact fun p hp => (List.mem_append.1 hp).elim (hd.readable p) (hq.readable p)
  · exact fun p hp => (List.mem_append.1 hp).elim (hd.writable p) (hq.writable p)

end Files

/-- `write_file`, whose result does not depend on the stream. -/
def writeFile (locate data : Bytes) (fs : Files) : Bool × Files := (true, fs.put locate data)

/-- `save_tempfile`, at the path `temp` that `get_temppath` draws. -/
def saveTempfile (content temp : Bytes) (fs : Files) : Bytes × Files :=
  let w := writeFile temp content fs
  (if w.1 then temp else [], w.2)

@[simp] theorem saveTempfile_eq (content temp : Bytes) (fs : Files) :
    saveTempfile content temp fs = (temp, fs.put temp content) := rfl

/-- `is_existed_file`. -/
def isExistedFile (name : Bytes) (fs : Files) : Bool := (fs.openRead name).isSome

/-! ## Routes -/

/-- `std::map<std::string, std::string>`: node ids and their addresses. -/
abbrev NodeMap := Std.ExtTreeMap Bytes Bytes compare

/-- `generate_path`, where `shuffle` is what `std::shuffle` does to a vector. -/
def generatePath (nodelist : NodeMap) (from_ to_ : Bytes) (count : ℤ)
    (shuffle : List Bytes → List Bytes) : List Bytes :=
  let keys := nodelist.keys
  let keys := keys.filter (· ≠ from_)
  let keys := keys.filter (· ≠ to_)
  let keys := if keys.length > 0 then shuffle keys else keys
  -- `keys.size() < count` compares as `size_t`
  let count := if keys.length < toSize count then (keys.length : ℤ) else count
  [from_] ++ keys.take count.toNat ++ [to_]

theorem generatePath_ends (nodelist : NodeMap) (from_ to_ : Bytes) (count : ℤ)
    (shuffle : List Bytes → List Bytes) :
    ∃ relays, generatePath nodelist from_ to_ count shuffle = from_ :: relays ++ [to_] := ⟨_, rfl⟩

theorem length_generatePath_le (nodelist : NodeMap) (from_ to_ : Bytes) {count : ℤ} (h0 : 0 ≤ count)
    (hlt : count < 2 ^ 31) (shuffle : List Bytes → List Bytes) :
    (generatePath nodelist from_ to_ count shuffle).length ≤ count.toNat + 2 := by
  have hsize : toSize count = count.toNat := by
    rw [toSize]
    omega
  have hkeys : ∀ keys : List Bytes, ([from_] ++ keys.take
      (if keys.length < toSize count then (keys.length : ℤ) else count).toNat ++ [to_]).length ≤
        count.toNat + 2 := by
    intro keys
    simp only [List.length_append, List.length_take, List.length_singleton, hsize]
    split_ifs <;> omega
  exact hkeys _

/-- A shuffle permutes. -/
def IsShuffle (shuffle : List Bytes → List Bytes) : Prop := ∀ l, (shuffle l).Perm l

/-- The nodes of the list that can be relays between two others. -/
def candidates (nodelist : NodeMap) (from_ to_ : Bytes) : List Bytes :=
  (nodelist.keys.filter (· ≠ from_)).filter (· ≠ to_)

theorem mem_candidates {nodelist : NodeMap} {from_ to_ r : Bytes} :
    r ∈ candidates nodelist from_ to_ ↔ r ∈ nodelist ∧ r ≠ from_ ∧ r ≠ to_ := by
  simp only [candidates, List.mem_filter, Std.ExtTreeMap.mem_keys, decide_eq_true_eq, and_assoc]

theorem nodup_candidates (nodelist : NodeMap) (from_ to_ : Bytes) :
    (candidates nodelist from_ to_).Nodup :=
  (Std.ExtTreeMap.nodup_keys.filter _).filter _

/-- The relays are the first of the shuffled candidates. -/
theorem generatePath_eq (nodelist : NodeMap) (from_ to_ : Bytes) (count : ℤ)
    {shuffle : List Bytes → List Bytes} (hs : IsShuffle shuffle) :
    ∃ keys : List Bytes, keys.Perm (candidates nodelist from_ to_) ∧
      generatePath nodelist from_ to_ count shuffle = from_ ::
        keys.take (if keys.length < toSize count then (keys.length : ℤ) else count).toNat ++
          [to_] := by
  refine ⟨if (candidates nodelist from_ to_).length > 0 then shuffle (candidates nodelist from_ to_)
    else candidates nodelist from_ to_, ?_, rfl⟩
  split_ifs
  · exact hs _
  · exact List.Perm.refl _

/-- A route is `from_`, relays, `to_`; the relays are distinct nodes of the list other than the
two ends. -/
theorem generatePath_shape (nodelist : NodeMap) (from_ to_ : Bytes) (count : ℤ)
    {shuffle : List Bytes → List Bytes} (hs : IsShuffle shuffle) :
    ∃ relays : List Bytes,
      generatePath nodelist from_ to_ count shuffle = from_ :: relays ++ [to_] ∧
      relays.Nodup ∧ ∀ r ∈ relays, r ∈ nodelist ∧ r ≠ from_ ∧ r ≠ to_ := by
  obtain ⟨keys, hperm, hpath⟩ := generatePath_eq nodelist from_ to_ count hs
  have hnodup : keys.Nodup := hperm.nodup_iff.2 (nodup_candidates nodelist from_ to_)
  exact ⟨_, hpath, hnodup.sublist (List.take_sublist _ _),
    fun r hr => mem_candidates.1 (hperm.mem_iff.1 (List.mem_of_mem_take hr))⟩

/-- **A route** has as many relays as were asked for, as far as there are candidates. They are
distinct nodes of the list and no ends of the route, and when all candidates were asked for, each
of them is there. -/
theorem generatePath_route (nodelist : NodeMap) {from_ to_ : Bytes} (hne : from_ ≠ to_) {count : ℤ}
    (h0 : 0 ≤ count) (hlt : count < 2 ^ 31) {shuffle : List Bytes → List Bytes}
    (hs : IsShuffle shuffle) :
    ∃ relays, generatePath nodelist from_ to_ count shuffle = from_ :: relays ++ [to_] ∧
      (relays.length : ℤ) = min count (candidates nodelist from_ to_).length ∧
      (∀ r ∈ relays, r ∈ nodelist ∧ r ≠ from_ ∧ r ≠ to_) ∧
      (from_ :: relays ++ [to_]).Nodup ∧
      ((candidates nodelist from_ to_).length ≤ count →
        ∀ r ∈ nodelist, r ≠ from_ → r ≠ to_ → r ∈ relays) := by
  obtain ⟨keys, hperm, hpath⟩ := generatePath_eq nodelist from_ to_ count hs
  obtain ⟨n, rfl⟩ := Int.eq_ofNat_of_zero_le h0
  have hsize : toSize (n : ℤ) = n := by
    unfold toSize
    omega
  have htake : keys.take (if keys.length < toSize n then (keys.length : ℤ) else n).toNat =
      keys.take n := by
    rw [hsize]
    split_ifs with hlen
    · rw [Int.toNat_natCast, List.take_length, List.take_of_length_le hlen.le]
    · rw [Int.toNat_natCast]
  rw [htake] at hpath
  have hmem : ∀ r ∈ keys.take n, r ∈ nodelist ∧ r ≠ from_ ∧ r ≠ to_ := fun r hr =>
    mem_candidates.1 (hperm.mem_iff.1 (List.mem_of_mem_take hr))
  have hnodup : (keys.take n).Nodup :=
    (hperm.nodup_iff.2 (nodup_candidates nodelist from_ to_)).sublist (List.take_sublist _ _)
  refine ⟨keys.take n, hpath, ?_, hmem, ?_, fun hall r hr hfrom hto => ?_⟩
  · rw [List.length_take, hperm.length_eq]
    omega
  · rw [List.cons_append, List.nodup_cons, List.mem_append, List.mem_singleton]
    refine ⟨?_, hnodup.append (List.nodup_singleton to_) ?_⟩
    · rintro (h | h)
      · exact (hmem _ h).2.1 rfl
      · exact hne h
    · rw [List.disjoint_singleton]
      exact fun h => (hmem _ h).2.2 rfl
  · rw [List.take_of_length_le (hperm.length_eq.le.trans (by exact_mod_cast hall))]
    exact hperm.mem_iff.2 (mem_candidates.2 ⟨hr, hfrom, hto⟩)

/-- A list of two nodes. -/
def exampleNodeMap : NodeMap := ((∅ : NodeMap).insert (ascii "b") []).insert (ascii "c") []

theorem generatePath_route_example :
    ∃ relays, generatePath exampleNodeMap (ascii "a") (ascii "c") 3 List.reverse =
        ascii "a" :: relays ++ [ascii "c"] ∧
      (relays.length : ℤ) = min 3 (candidates exampleNodeMap (ascii "a") (ascii "c")).length ∧
      (∀ r ∈ relays, r ∈ exampleNodeMap ∧ r ≠ ascii "a" ∧ r ≠ ascii "c") ∧
      (ascii "a" :: relays ++ [ascii "c"]).Nodup ∧
      ((candidates exampleNodeMap (ascii "a") (ascii "c")).length ≤ (3 : ℤ) →
        ∀ r ∈ exampleNodeMap, r ≠ ascii "a" → r ≠ ascii "c" → r ∈ relays) :=
  generatePath_route _ (by decide) (by decide) (by decide) List.reverse_perm

end Onion5
