import Onion5.Client.GpgWrapper
import Onion5.Common.ReadFile

/-!
# Strings through gpg

The model of `encrypt` and `decrypt` of `gpg_wrapper.cc`, which put a string into a temporary file,
call `encrypt_file` or `decrypt_file` on it and read the file that these make. Both do the same
(`throughFiles`) up to the end, where `decrypt` forgets to assign what it has read.

* `leavesNothing_iff`: the calls that delete all their temporary files.
* `roundTrips_iff`: when a string that is encrypted and decrypted comes back.
-/

namespace Onion5

/-! ## The wrappers -/

/-- What the environment decides during a call of `encrypt` or `decrypt`. -/
structure StringDraws where
  /-- the temporary path of the input -/
  inputPath : Bytes
  /-- the temporary path of `encrypt_file` or `decrypt_file` -/
  filePath : Bytes
  /-- whether `read_file` may open the result -/
  opens : Bool
  /-- what stands behind the buffer of `read_file` -/
  memory : Bytes

/-- What `encrypt` and `decrypt` have in common: `buff`, if every step succeeds. `onFile` is the
call of `encrypt_file` or `decrypt_file`. -/
def throughFiles (onFile : Bytes → Files → Bool × Bytes × Files) (d : StringDraws) (input : Bytes)
    (fs : Files) : Run (Option Bytes × Files) := do
  let (inputLocate, fs) := saveTempfile input d.inputPath fs
  let (ok, outputLocate, fs) := onFile inputLocate fs
  let (deleted, fs) := deleteFile inputLocate fs
  if ¬ deleted then return (none, fs)
  else if ¬ ok then return (none, fs)
  else do
    let buff ← readFile d.opens d.memory outputLocate fs
    let (deleted, fs) := deleteFile outputLocate fs
    if ¬ deleted then return (none, fs)
    else return (buff, fs)

namespace GPG

/-- `GPG::encrypt`: the result, `output` and the files afterwards. -/
def encrypt (g : GPG) (gpg : Bytes → Bytes → Option Bytes) (d : StringDraws)
    (input recipient output : Bytes) (fs : Files) : Run (Bool × Bytes × Files) := do
  let (buff, fs) ← throughFiles
    (fun locate fs => g.encryptFile gpg locate recipient [] d.filePath fs) d input fs
  return (buff.isSome, buff.getD output, fs)

/-- `GPG::decrypt`: the result, `output` and the files afterwards. `buff` is not assigned to
`output`. -/
def decrypt (g : GPG) (gpg : Bytes → Bytes → Bytes → Option Bytes) (d : StringDraws)
    (input output : Bytes) (fs : Files) : Run (Bool × Bytes × Files) := do
  let (buff, fs) ← throughFiles
    (fun locate fs => g.decryptFile gpg locate [] d.filePath fs) d input fs
  return (buff.isSome, output, fs)

end GPG

/-! ## The common part -/

section Through

variable {onFile : Bytes → Files → Bool × Bytes × Files} {d : StringDraws} {input content : Bytes}
  {fs : Files}

/-- The files after a call in which both temporary files have been made and deleted. -/
def swept (d : StringDraws) (input content : Bytes) (fs : Files) : Files :=
  (((fs.put d.inputPath input).put d.filePath content).remove d.inputPath).remove d.filePath

/-- What `read_file` finds in the file that gpg has made. -/
def found (d : StringDraws) (content : Bytes) : Option Bytes :=
  if d.opens then some (readText d.memory content) else none

/-- **A call whose gpg succeeds** reads the file that gpg has made. -/
theorem throughFiles_ok (hfs : fs.Fresh [d.inputPath, d.filePath])
    (h : onFile d.inputPath (fs.put d.inputPath input) =
      (true, d.filePath, (fs.put d.inputPath input).put d.filePath content)) :
    throughFiles onFile d input fs =
      if d.opens ∧ toInt content.length < 0 then .error .throws
      else .ok (found d content, swept d input content fs) := by
  have hne : cstr d.inputPath ≠ cstr d.filePath := hfs.cstr_head_ne List.mem_cons_self
  have hfs' := hfs.put_head input
  have hinput : ((fs.put d.inputPath input).put d.filePath content).get (cstr d.inputPath) =
      some input := by
    rw [Files.get_put_of_ne hne, Files.get_put_self (hfs.canWrite List.mem_cons_self)]
  have hfile : (((fs.put d.inputPath input).put d.filePath content).remove d.inputPath).get
      (cstr d.filePath) = some content := by
    rw [Files.get_remove_of_ne hne.symm, Files.get_put_self (hfs'.canWrite List.mem_cons_self)]
  have hopen : (((fs.put d.inputPath input).put d.filePath content).remove d.inputPath).openRead
      d.filePath = some content := by
    rw [Files.openRead_remove_of_ne hne.symm, hfs'.openRead_put List.mem_cons_self]
  simp only [throughFiles, saveTempfile_eq, h, deleteFile_of_get hinput, deleteFile_of_get hfile,
    not_true, if_false]
  unfold found
  cases d.opens with
  | false =>
    simp only [Bool.false_eq_true, false_and, if_false]
    rfl
  | true =>
    rw [readFile_eq _ hopen]
    simp only [true_and, if_true]
    split_ifs <;> rfl

/-- **A call whose gpg fails** deletes the input and returns nothing. -/
theorem throughFiles_failed {fs₁ : Files} {output : Bytes}
    (h : onFile d.inputPath (fs.put d.inputPath input) = (false, output, fs₁)) :
    throughFiles onFile d input fs = .ok (none, fs₁.remove d.inputPath) := by
  simp only [throughFiles, saveTempfile_eq, h]
  cases (deleteFile d.inputPath fs₁).1 <;> rfl

/-- Nothing is left of the two files. -/
theorem get_swept (d : StringDraws) (input content : Bytes) {p : Bytes} (hp : fs.get p = none) :
    (swept d input content fs).get p = none := by
  refine Files.get_remove_eq_none fun hfile => Files.get_remove_eq_none fun hinput => ?_
  rw [Files.get_put_of_ne hfile, Files.get_put_of_ne hinput, hp]

end Through

/-! ## What the wrappers do -/

namespace GPG

section Wrappers

variable {g : GPG} {d : StringDraws} {input recipient content : Bytes} {fs : Files}

theorem encrypt_some {gpg : Bytes → Bytes → Option Bytes}
    (hfs : fs.Fresh [d.inputPath, d.filePath])
    (hc : g.cipher gpg recipient (some input) = some content) (output : Bytes) :
    g.encrypt gpg d input recipient output fs =
      if d.opens ∧ toInt content.length < 0 then .error .throws
      else .ok ((found d content).isSome, (found d content).getD output,
        swept d input content fs) := by
  rw [← hfs.openRead_put List.mem_cons_self input] at hc
  have hfile := encryptFile_some [] (hfs.cstr_head_ne List.mem_cons_self) hc
  rw [encrypt, throughFiles_ok hfs hfile]
  by_cases hneg : d.opens ∧ toInt content.length < 0
  · rw [if_pos hneg, if_pos hneg]
    rfl
  · rw [if_neg hneg, if_neg hneg]
    rfl

theorem decrypt_some {gpg : Bytes → Bytes → Bytes → Option Bytes}
    (hfs : fs.Fresh [d.inputPath, d.filePath])
    (hp : g.plain gpg (some input) = some content) (output : Bytes) :
    g.decrypt gpg d input output fs =
      if d.opens ∧ toInt content.length < 0 then .error .throws
      else .ok ((found d content).isSome, output, swept d input content fs) := by
  rw [← hfs.openRead_put List.mem_cons_self input] at hp
  have hfile := decryptFile_some [] (hfs.cstr_head_ne List.mem_cons_self) hp
  rw [decrypt, throughFiles_ok hfs hfile]
  by_cases hneg : d.opens ∧ toInt content.length < 0
  · rw [if_pos hneg, if_pos hneg]
    rfl
  · rw [if_neg hneg, if_neg hneg]
    rfl

theorem encrypt_none {gpg : Bytes → Bytes → Option Bytes}
    (hfs : fs.Fresh [d.inputPath, d.filePath])
    (hc : g.cipher gpg recipient (some input) = none) (output : Bytes) :
    g.encrypt gpg d input recipient output fs = .ok (false, output,
      (if g.isAuthorized then ((fs.put d.inputPath input).put d.filePath []).remove d.filePath
        else fs.put d.inputPath input).remove d.inputPath) := by
  rw [← hfs.openRead_put List.mem_cons_self input] at hc
  have hfile := encryptFile_none [] (hfs.cstr_head_ne List.mem_cons_self) hc
  rw [encrypt, throughFiles_failed hfile]
  rfl

theorem decrypt_none {gpg : Bytes → Bytes → Bytes → Option Bytes}
    (hfs : fs.Fresh [d.inputPath, d.filePath])
    (hp : g.plain gpg (some input) = none) (output : Bytes) :
    g.decrypt gpg d input output fs = .ok (false, output,
      (if g.isAuthorized then (fs.put d.inputPath input).put d.filePath []
        else fs.put d.inputPath input).remove d.inputPath) := by
  rw [← hfs.openRead_put List.mem_cons_self input] at hp
  have hfile := decryptFile_none [] (hfs.cstr_head_ne List.mem_cons_self) hp
  rw [decrypt, throughFiles_failed hfile]
  rfl

end Wrappers

end GPG

/-! ## A gpg that makes text -/

/-- Writes the recipient and a colon in front of the content. -/
def exampleSeal (recipient content : Bytes) : Option Bytes := some (recipient ++ 58 :: content)

/-- Takes them off, if it is this user. -/
def exampleUnseal (name _passphrase content : Bytes) : Option Bytes :=
  if content.take (name.length + 1) = name ++ [58] then some (content.drop (name.length + 1))
  else none

theorem exampleUnseal_self {name content sealed : Bytes}
    (h : exampleSeal name content = some sealed) (passphrase : Bytes) :
    exampleUnseal name passphrase sealed = some content := by
  cases h
  have hlen : (name ++ [58]).length = name.length + 1 := List.length_append
  have hassoc : name ++ 58 :: content = (name ++ [58]) ++ content := by
    rw [List.append_assoc, List.singleton_append]
  rw [exampleUnseal, hassoc, ← hlen, List.take_left, List.drop_left, if_pos rfl]

def exampleGPG : GPG := ⟨ascii "a", ascii "s"⟩

/-- The draws of a call, from the `n`-th temporary path on. -/
def exampleStringDraws (n : ℕ) : StringDraws :=
  ⟨exampleTemppath n, exampleTemppath (n + 1), true, []⟩

theorem fresh_exampleStringDraws :
    Files.blank.Fresh [(exampleStringDraws 0).inputPath, (exampleStringDraws 0).filePath] :=
  Files.fresh_blank_range (k := 0) (n := 2) (by decide)

/-! ## Temporary files -/

/-- A call of one of the wrappers. -/
inductive Call
  | encrypt (input recipient output : Bytes)
  | decrypt (input output : Bytes)

namespace Call

variable (g : GPG) (encrypt : Bytes → Bytes → Option Bytes)
  (decrypt : Bytes → Bytes → Bytes → Option Bytes)

def run (d : StringDraws) (fs : Files) : Call → Run (Bool × Bytes × Files)
  | .encrypt input recipient output => g.encrypt encrypt d input recipient output fs
  | .decrypt input output => g.decrypt decrypt d input output fs

/-- Gpg is run to decrypt a string, and exits with status 512. -/
def DecryptionFails : Call → Prop
  | .encrypt _ _ _ => False
  | .decrypt input _ => g.isAuthorized ∧ decrypt (cstr g.name) (cstr g.passphrase) input = none

end Call

/-- Once the call has returned there is no file that was not there before. -/
def LeavesNothing (fs : Files) (r : Run (Bool × Bytes × Files)) : Prop :=
  ∀ ok output fs', r = .ok (ok, output, fs') → ∀ p, fs.get p = none → fs'.get p = none

section Leaves

variable {g : GPG} {encrypt : Bytes → Bytes → Option Bytes}
  {decrypt : Bytes → Bytes → Bytes → Option Bytes} {d : StringDraws} {fs : Files}
  {input recipient : Bytes}

theorem leavesNothing_encrypt (hfs : fs.Fresh [d.inputPath, d.filePath]) (output : Bytes) :
    LeavesNothing fs (g.encrypt encrypt d input recipient output fs) := by
  intro ok out fs' hret p hp
  cases hc : g.cipher encrypt recipient (some input) with
  | some content =>
    rw [GPG.encrypt_some hfs hc] at hret
    split_ifs at hret
    cases hret
    exact get_swept d input content hp
  | none =>
    rw [GPG.encrypt_none hfs hc] at hret
    cases hret
    refine Files.get_remove_eq_none fun hinput => ?_
    split_ifs
    · refine Files.get_remove_eq_none fun hfile => ?_
      rw [Files.get_put_of_ne hfile, Files.get_put_of_ne hinput, hp]
    · rw [Files.get_put_of_ne hinput, hp]

/-- A call of `decrypt` whose gpg succeeds, or that does not come to gpg. -/
theorem leavesNothing_decrypt (hfs : fs.Fresh [d.inputPath, d.filePath]) (output : Bytes)
    (h : g.isAuthorized → decrypt (cstr g.name) (cstr g.passphrase) input ≠ none) :
    LeavesNothing fs (g.decrypt decrypt d input output fs) := by
  intro ok out fs' hret p hp
  cases hplain : g.plain decrypt (some input) with
  | some content =>
    rw [GPG.decrypt_some hfs hplain] at hret
    split_ifs at hret
    cases hret
    exact get_swept d input content hp
  | none =>
    have hg : ¬ g.isAuthorized := fun hg =>
      h hg (by rwa [GPG.plain_of_isAuthorized hg] at hplain)
    rw [GPG.decrypt_none hfs hplain, if_neg hg] at hret
    cases hret
    refine Files.get_remove_eq_none fun hinput => ?_
    rw [Files.get_put_of_ne hinput, hp]

/-- A call whose gpg fails leaves the file that was made for its output. -/
theorem not_leavesNothing_decrypt (hfs : fs.Fresh [d.inputPath, d.filePath]) (output : Bytes)
    (hg : g.isAuthorized) (h : decrypt (cstr g.name) (cstr g.passphrase) input = none) :
    ¬ LeavesNothing fs (g.decrypt decrypt d input output fs) := by
  intro hleaves
  have hplain : g.plain decrypt (some input) = none := by
    rw [GPG.plain_of_isAuthorized hg, h]
  have hne : cstr d.inputPath ≠ cstr d.filePath := hfs.cstr_head_ne List.mem_cons_self
  have hmem : d.filePath ∈ [d.inputPath, d.filePath] := List.mem_cons_of_mem _ List.mem_cons_self
  have hunused : fs.get (cstr d.filePath) = none := by
    rw [hfs.cstr_eq hmem, hfs.unused _ hmem]
  have hgone := hleaves _ _ _ (GPG.decrypt_none hfs hplain output) _ hunused
  rw [if_pos hg, Files.get_remove_of_ne hne.symm, Files.get_put_self
    ((hfs.put_head input).canWrite List.mem_cons_self)] at hgone
  cases hgone

/-- **No temporary file is left** by a call, unless gpg fails to decrypt. -/
theorem leavesNothing_iff (hfs : fs.Fresh [d.inputPath, d.filePath]) (c : Call) :
    LeavesNothing fs (c.run g encrypt decrypt d fs) ↔ ¬ c.DecryptionFails g decrypt := by
  cases c with
  | encrypt input recipient output =>
    exact iff_of_true (leavesNothing_encrypt hfs output) not_false
  | decrypt input output =>
    constructor
    · rintro hleaves ⟨hg, h⟩
      exact not_leavesNothing_decrypt hfs output hg h hleaves
    · exact fun h => leavesNothing_decrypt hfs output fun hg hnone => h ⟨hg, hnone⟩

end Leaves

theorem leavesNothing_iff_example :
    LeavesNothing Files.blank ((Call.decrypt (ascii "a:hi") []).run exampleGPG exampleSeal
        exampleUnseal (exampleStringDraws 0) Files.blank) ↔
      ¬ (Call.decrypt (ascii "a:hi") []).DecryptionFails exampleGPG exampleUnseal :=
  leavesNothing_iff fresh_exampleStringDraws _

/-- A string that gpg cannot decrypt. -/
theorem not_leavesNothing_foreign : ¬ ∀ (g : GPG) (encrypt : Bytes → Bytes → Option Bytes)
    (decrypt : Bytes → Bytes → Bytes → Option Bytes) (d : StringDraws) (fs : Files) (c : Call),
    fs.Fresh [d.inputPath, d.filePath] → LeavesNothing fs (c.run g encrypt decrypt d fs) := by
  intro h
  have hleaves := h exampleGPG exampleSeal exampleUnseal (exampleStringDraws 0) Files.blank
    (.decrypt (ascii "b:hi") []) fresh_exampleStringDraws
  exact not_leavesNothing_decrypt fresh_exampleStringDraws [] rfl (by decide) hleaves

/-! ## Strings that come back -/

/-- `decrypt` leaves `output` as it was. -/
theorem GPG.output_decrypt {g : GPG} {gpg : Bytes → Bytes → Bytes → Option Bytes}
    {d : StringDraws} {input output out : Bytes} {fs fs' : Files} {ok : Bool}
    (h : g.decrypt gpg d input output fs = .ok (ok, out, fs')) : out = output := by
  obtain ⟨_, -, hret⟩ := Run.bind_eq_ok.1 h
  cases hret
  rfl

/-- If `encrypt` of `x` returns true, then `decrypt` of what it has made returns true, with `x` for
its output; `c` and `y` are what the two outputs hold before. -/
def RoundTrips (g : GPG) (encrypt : Bytes → Bytes → Option Bytes)
    (decrypt : Bytes → Bytes → Bytes → Option Bytes) (d d' : StringDraws)
    (x recipient c y : Bytes) (fs : Files) : Prop :=
  ∀ c' fs', g.encrypt encrypt d x recipient c fs = .ok (true, c', fs') →
    ∃ fs'', g.decrypt decrypt d' c' y fs' = .ok (true, x, fs'')

section Strings

variable {g : GPG} {encrypt : Bytes → Bytes → Option Bytes}
  {decrypt : Bytes → Bytes → Bytes → Option Bytes} {d d' : StringDraws}
  {x recipient content : Bytes} {fs : Files}

theorem fresh_swept {ps : List Bytes} (hfs : fs.Fresh (d.inputPath :: d.filePath :: ps))
    (x content : Bytes) : (swept d x content fs).Fresh ps := by
  have hinput : cstr d.inputPath ∉ ps := fun h =>
    hfs.cstr_head_notMem (List.mem_cons_of_mem _ h)
  have hfile : cstr d.filePath ∉ ps := hfs.tail.cstr_head_notMem
  exact (((hfs.put_head x).put_head content).remove hinput).remove hfile

theorem encrypt_returns (hfs : fs.Fresh [d.inputPath, d.filePath]) (hg : g.isAuthorized)
    (hopens : d.opens = true) (hc : encrypt (cstr recipient) x = some content)
    (hsize : 0 ≤ toInt content.length) (c : Bytes) :
    g.encrypt encrypt d x recipient c fs =
      .ok (true, readText d.memory content, swept d x content fs) := by
  have hcipher := (GPG.cipher_of_isAuthorized hg encrypt recipient x).trans hc
  rw [GPG.encrypt_some hfs hcipher, if_neg fun h => absurd h.2 (not_lt.2 hsize), found,
    if_pos hopens, Option.isSome_some, Option.getD_some]

/-- When `decrypt` returns true. -/
theorem decrypt_returns_iff (hfs : fs.Fresh [d.inputPath, d.filePath]) (hg : g.isAuthorized)
    (hopens : d.opens = true) (input y : Bytes) :
    (∃ fs', g.decrypt decrypt d input y fs = .ok (true, y, fs')) ↔
      ∃ plain, decrypt (cstr g.name) (cstr g.passphrase) input = some plain ∧
        0 ≤ toInt plain.length := by
  have hplain := GPG.plain_of_isAuthorized hg decrypt input
  cases hdec : decrypt (cstr g.name) (cstr g.passphrase) input with
  | none =>
    rw [GPG.decrypt_none hfs (hplain.trans hdec)]
    simp
  | some plain =>
    rw [GPG.decrypt_some hfs (hplain.trans hdec), found, if_pos hopens]
    by_cases hsize : toInt plain.length < 0
    · rw [if_pos ⟨hopens, hsize⟩]
      simp [hsize]
    · rw [if_neg fun h => hsize h.2]
      simp [not_lt.1 hsize]

/-- **A string comes back** exactly when gpg does not encrypt it, or it is what the output of
`decrypt` holds already and gpg decrypts as much of the ciphertext as `encrypt` has read. -/
theorem roundTrips_iff (hfs : fs.Fresh [d.inputPath, d.filePath, d'.inputPath, d'.filePath])
    (hg : g.isAuthorized) (hopens : d.opens = true) (hopens' : d'.opens = true) (c y : Bytes) :
    RoundTrips g encrypt decrypt d d' x recipient c y fs ↔
      ∀ content, encrypt (cstr recipient) x = some content → 0 ≤ toInt content.length →
        y = x ∧ ∃ plain, decrypt (cstr g.name) (cstr g.passphrase) (readText d.memory content) =
          some plain ∧ 0 ≤ toInt plain.length := by
  have hfs₂ : fs.Fresh [d.inputPath, d.filePath] :=
    hfs.sublist (List.sublist_append_left _ [d'.inputPath, d'.filePath])
  constructor
  · intro h content hc hsize
    obtain ⟨fs'', hdec⟩ := h _ _ (encrypt_returns hfs₂ hg hopens hc hsize c)
    obtain rfl := GPG.output_decrypt hdec
    exact ⟨rfl, (decrypt_returns_iff (fresh_swept hfs x content) hg hopens' _ x).1 ⟨_, hdec⟩⟩
  · intro h c' fs' henc
    cases hc : encrypt (cstr recipient) x with
    | none =>
      have hcipher := (GPG.cipher_of_isAuthorized hg encrypt recipient x).trans hc
      rw [GPG.encrypt_none hfs₂ hcipher] at henc
      cases henc
    | some content =>
      by_cases hsize : 0 ≤ toInt content.length
      · obtain ⟨rfl, hplain⟩ := h content hc hsize
        rw [encrypt_returns hfs₂ hg hopens hc hsize, Except.ok.injEq, Prod.mk.injEq,
          Prod.mk.injEq] at henc
        obtain ⟨-, rfl, rfl⟩ := henc
        exact (decrypt_returns_iff (fresh_swept hfs y content) hg hopens' _ y).2 hplain
      · have hcipher := (GPG.cipher_of_isAuthorized hg encrypt recipient x).trans hc
        rw [GPG.encrypt_some hfs₂ hcipher, if_pos ⟨hopens, not_le.1 hsize⟩] at henc
        cases henc

end Strings

theorem fresh_exampleStringDraws₂ :
    Files.blank.Fresh [(exampleStringDraws 0).inputPath, (exampleStringDraws 0).filePath,
      (exampleStringDraws 2).inputPath, (exampleStringDraws 2).filePath] :=
  Files.fresh_blank_range (k := 0) (n := 4) (by decide)

theorem roundTrips_iff_example :
    RoundTrips exampleGPG exampleSeal exampleUnseal (exampleStringDraws 0) (exampleStringDraws 2)
        (ascii "hi") (ascii "a") [] (ascii "hi") Files.blank ↔
      ∀ content, exampleSeal (cstr (ascii "a")) (ascii "hi") = some content →
        0 ≤ toInt content.length → ascii "hi" = ascii "hi" ∧
          ∃ plain, exampleUnseal (cstr (ascii "a")) (cstr (ascii "s"))
            (readText [] content) = some plain ∧ 0 ≤ toInt plain.length :=
  roundTrips_iff fresh_exampleStringDraws₂ rfl rfl rfl [] (ascii "hi")

/-- The string `hi` does not come back, since `y` stays empty. -/
theorem not_roundTrips : ¬ ∀ (g : GPG) (encrypt : Bytes → Bytes → Option Bytes)
    (decrypt : Bytes → Bytes → Bytes → Option Bytes) (d d' : StringDraws)
    (x recipient c y : Bytes) (fs : Files), g.isAuthorized →
    (∀ content sealed, encrypt (cstr recipient) content = some sealed →
      decrypt (cstr g.name) (cstr g.passphrase) sealed = some content) →
    fs.Fresh [d.inputPath, d.filePath, d'.inputPath, d'.filePath] → d.opens = true →
    d'.opens = true → RoundTrips g encrypt decrypt d d' x recipient c y fs := by
  intro h
  have hreturns : exampleGPG.encrypt exampleSeal (exampleStringDraws 0) (ascii "hi") (ascii "a") []
      Files.blank = .ok (true, readText [] (ascii "a:hi"),
        swept (exampleStringDraws 0) (ascii "hi") (ascii "a:hi") Files.blank) :=
    encrypt_returns fresh_exampleStringDraws rfl rfl rfl (by decide) []
  obtain ⟨fs'', hdec⟩ := h exampleGPG exampleSeal exampleUnseal (exampleStringDraws 0)
    (exampleStringDraws 2) (ascii "hi") (ascii "a") [] [] Files.blank rfl
    (fun content sealed hsealed => exampleUnseal_self hsealed _) fresh_exampleStringDraws₂ rfl rfl
    _ _ hreturns
  exact absurd (GPG.output_decrypt hdec) (by decide)

end Onion5
