import Onion5.Client.Messanger
import Onion5.Foundations.Layered

/-!
# The layer loop as an abstract machine

The layer loop of `send_message` carries two file names from one turn to the next. What it does
depends only on what the two files hold (`View`): a turn encrypts the first into the second when
it can, and makes the next layer from whatever the second then is. `layerStep_view` and
`layerLoop_view` are the refinement; they need the temporary paths of the loop to be new.
-/

namespace Onion5

open Message

/-! ## The machine -/

/-- What the files `filename` and `temp_file` hold. -/
structure View where
  file : Option Bytes
  body : Option Bytes
  deriving DecidableEq

/-- One turn: the view afterwards, and whether `encrypt_file` and `serialize` succeeded. -/
def View.step (g : GPG) (d : LayerDraws) (from_ to_ : Bytes) (v : View) : View × Bool × Bool :=
  let c := g.cipher d.gpg to_ v.file
  let body := c.or v.body
  let file := if d.opens then body.map (header from_ to_ 0 d.time ++ ·) else none
  (⟨file, body⟩, c.isSome, file.isSome)

/-- The loop over the route from its back; `to_` is the recipient of the next layer. -/
def View.run (g : GPG) (layer : ℕ → LayerDraws) :
    ℕ → List Bytes → Bytes → View → View × List (Bool × Bool)
  | _, [], _, v => (v, [])
  | i, hop :: rest, to_, v =>
    let s := v.step g (layer i) hop to_
    let r := View.run g layer (i + 1) rest hop s.1
    (r.1, s.2 :: r.2)

/-! ## The loop refines the machine -/

/-- The temporary paths the loop draws, in order. -/
def layerPaths (layer : ℕ → LayerDraws) : ℕ → List Bytes → List Bytes
  | _, [] => []
  | i, _ :: rest => (layer i).encPath :: (layer i).serPath :: layerPaths layer (i + 1) rest

theorem length_layerPaths (layer : ℕ → LayerDraws) (i : ℕ) (rev : List Bytes) :
    (layerPaths layer i rev).length = 2 * rev.length := by
  induction rev generalizing i with
  | nil => rfl
  | cons hop rest ih => simp [layerPaths, ih, Nat.mul_add]

namespace Layering

def view (st : Layering) : View := ⟨st.fs.openRead st.filename, st.fs.openRead st.tempFile⟩

/-- The paths `ps` are new and not those of the loop's two files. -/
structure Ready (st : Layering) (ps : List Bytes) : Prop where
  fresh : st.fs.Fresh ps
  filename : cstr st.filename ∉ ps
  tempFile : cstr st.tempFile ∉ ps

end Layering

section Step

variable {g : GPG} {d : LayerDraws} {st : Layering} {ps : List Bytes}

/-- The encryption half of a turn. -/
theorem encryptFile_view (to_ : Bytes) (h : st.Ready (d.encPath :: d.serPath :: ps)) :
    ∃ fs tempFile, g.encryptFile d.gpg st.filename to_ st.tempFile d.encPath st.fs =
        ((g.cipher d.gpg to_ st.view.file).isSome, tempFile, fs) ∧
      fs.openRead tempFile = (g.cipher d.gpg to_ st.view.file).or st.view.body ∧
      fs.Fresh (d.serPath :: ps) ∧ cstr tempFile ∉ d.serPath :: ps := by
  have hne : cstr st.filename ≠ cstr d.encPath := h.fresh.ne_cstr List.mem_cons_self h.filename
  have hne' : cstr st.tempFile ≠ cstr d.encPath := h.fresh.ne_cstr List.mem_cons_self h.tempFile
  have hnot := h.fresh.cstr_head_notMem
  have htemp : cstr st.tempFile ∉ d.serPath :: ps :=
    fun hm => h.tempFile (List.mem_cons_of_mem _ hm)
  cases hc : g.cipher d.gpg to_ st.view.file with
  | some c =>
    refine ⟨_, _, GPG.encryptFile_some _ hne hc, ?_, h.fresh.put_head c, hnot⟩
    rw [h.fresh.openRead_put List.mem_cons_self, Option.some_or]
  | none =>
    refine ⟨_, _, GPG.encryptFile_none _ hne hc, ?_, ?_, htemp⟩
    · rw [Option.none_or]
      split_ifs
      · rw [Files.openRead_remove_of_ne hne', Files.openRead_put_of_ne hne']
        rfl
      · rfl
    · split_ifs
      · exact (h.fresh.put_head _).remove hnot
      · exact h.fresh.tail

/-- **One turn of the loop is one step of the machine.** -/
theorem layerStep_view (hop : Bytes) (h : st.Ready (d.encPath :: d.serPath :: ps)) :
    (layerStep g d hop st).view = (st.view.step g d hop st.tempFrom).1 ∧
      (layerStep g d hop st).calls = st.calls ++ [(st.view.step g d hop st.tempFrom).2] ∧
      (layerStep g d hop st).Ready ps := by
  obtain ⟨fs, tempFile, henc, hopen, hfresh, htemp⟩ := encryptFile_view (g := g) st.tempFrom h
  have hne : cstr tempFile ≠ cstr d.serPath := hfresh.ne_cstr List.mem_cons_self htemp
  have htemp' : cstr tempFile ∉ ps := fun hm => htemp (List.mem_cons_of_mem _ hm)
  have hnil : cstr ([] : Bytes) ∉ ps := fun hm => hfresh.tail.ne_nil hm rfl
  have hser := serialize_binary hop st.tempFrom d.time d.opens fs hne
  simp only [layerStep, henc, Layering.view, View.step]
  simp only [Layering.view] at hopen
  rw [← hopen, hser]
  cases hb : (if d.opens then fs.openRead tempFile else none) with
  | some body =>
    obtain ⟨ho, hbody⟩ : d.opens = true ∧ fs.openRead tempFile = some body := by
      split_ifs at hb with ho
      exact ⟨ho, hb⟩
    refine ⟨?_, ?_, hfresh.put_head _, hfresh.cstr_head_notMem, htemp'⟩
    · simp [hfresh.openRead_put List.mem_cons_self, Files.openRead_put_of_ne hne, ho, hbody]
    · simp [ho, hbody, hfresh.ne_nil List.mem_cons_self]
  | none =>
    have hnone : (if d.opens then (fs.openRead tempFile).map (header hop st.tempFrom 0 d.time ++ ·)
        else none) = none := by
      split_ifs at hb ⊢ with ho
      · rw [hb, Option.map_none]
      · rfl
    refine ⟨?_, ?_, hfresh.put_head _, hnil, htemp'⟩
    · simp [hnone, Files.openRead_put_of_ne hne]
    · simp [hnone]

end Step

/-- **The layer loop refines the machine.** -/
theorem layerLoop_view (g : GPG) (layer : ℕ → LayerDraws) (rev : List Bytes) (i : ℕ)
    (st : Layering) (h : st.Ready (layerPaths layer i rev)) :
    (layerLoop g layer i rev st).view = (View.run g layer i rev st.tempFrom st.view).1 ∧
      (layerLoop g layer i rev st).calls =
        st.calls ++ (View.run g layer i rev st.tempFrom st.view).2 := by
  induction rev generalizing i st with
  | nil => simp [layerLoop, View.run]
  | cons hop rest ih =>
    obtain ⟨hview, hcalls, hready⟩ := layerStep_view (g := g) hop h
    obtain ⟨ihv, ihc⟩ := ih (i + 1) _ hready
    have hfrom : (layerStep g (layer i) hop st).tempFrom = hop := rfl
    rw [hview, hfrom] at ihv ihc
    refine ⟨ihv, ?_⟩
    simp only [layerLoop, View.run]
    rw [ihc, hcalls, List.append_assoc]
    rfl

/-- The loop leaves the other new paths alone. -/
theorem layerLoop_ready {g : GPG} {layer : ℕ → LayerDraws} {rev : List Bytes} {i : ℕ}
    {st : Layering} {ps : List Bytes} (h : st.Ready (layerPaths layer i rev ++ ps)) :
    (layerLoop g layer i rev st).Ready ps := by
  induction rev generalizing i st with
  | nil => exact h
  | cons hop rest ih => exact ih (layerStep_view hop h).2.2

end Onion5
