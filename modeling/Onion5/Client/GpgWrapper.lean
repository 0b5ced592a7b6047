import Onion5.Common.Util

/-!
# The gpg wrapper

The model of `verify_passphrase`, `encrypt_file` and `decrypt_file` of `gpg_wrapper.cc`. The gpg
process is a parameter: for the files a function from the recipient (or the credentials) and the
content of the input file to the content of the output file, or `none` for exit status 512; the
wrapper ends the whole process on a status other than 0 and 512, so no call goes on from there. Gpg
fails on an input file it cannot open.
-/

namespace Onion5

/-- `class GPG`. -/
structure GPG where
  name : Bytes
  passphrase : Bytes
  deriving DecidableEq

namespace GPG

/-- `GPG::is_authorized`. -/
def isAuthorized (g : GPG) : Bool := !(g.name.isEmpty || g.passphrase.isEmpty)

/-- `GPG::verify_passphrase`, where `status` is whether gpg exits with status 0. -/
def verifyPassphrase (g : GPG) (status : Bool) (name passphrase : Bytes) : Bool × GPG :=
  if status then (true, ⟨name, passphrase⟩) else (false, g)

theorem verifyPassphrase_fst (g : GPG) (status : Bool) (name passphrase : Bytes) :
    (g.verifyPassphrase status name passphrase).1 = status := by
  cases status <;> rfl

/-- `GPG::encrypt_file`: the result, `output_locate` and the files afterwards. The temporary
file is at `temp`, and `encrypt` is what this run of gpg does. -/
def encryptFile (g : GPG) (encrypt : Bytes → Bytes → Option Bytes)
    (inputLocate recipient outputLocate temp : Bytes) (fs : Files) : Bool × Bytes × Files :=
  if ¬ g.isAuthorized then (false, outputLocate, fs)
  else
    let s := saveTempfile [] temp fs
    match (s.2.openRead inputLocate).bind (encrypt (cstr recipient)) with
    | some cipher => (true, s.1, s.2.put s.1 cipher)
    | none => (false, outputLocate, s.2.remove s.1)

/-- `GPG::decrypt_file`: the result, `output_locate` and the files afterwards. A failure leaves
the temporary file. -/
def decryptFile (g : GPG) (decrypt : Bytes → Bytes → Bytes → Option Bytes)
    (inputLocate outputLocate temp : Bytes) (fs : Files) : Bool × Bytes × Files :=
  if ¬ g.isAuthorized then (false, outputLocate, fs)
  else
    let s := saveTempfile [] temp fs
    match (s.2.openRead inputLocate).bind (decrypt (cstr g.name) (cstr g.passphrase)) with
    | some plain => (true, s.1, s.2.put s.1 plain)
    | none => (false, outputLocate, s.2)

/-- The ciphertext a call of `encrypt_file` makes from what its input file holds, if any. -/
def cipher (g : GPG) (encrypt : Bytes → Bytes → Option Bytes) (recipient : Bytes)
    (content : Option Bytes) : Option Bytes :=
  if g.isAuthorized then content.bind (encrypt (cstr recipient)) else none

theorem cipher_of_isAuthorized {g : GPG} (hg : g.isAuthorized)
    (encrypt : Bytes → Bytes → Option Bytes) (recipient content : Bytes) :
    g.cipher encrypt recipient (some content) = encrypt (cstr recipient) content := by
  rw [cipher, if_pos hg]
  rfl

/-- A call of `encrypt_file` that succeeds names a file with the ciphertext. -/
theorem encryptFile_some {g : GPG} {encrypt : Bytes → Bytes → Option Bytes}
    {input recipient temp c : Bytes} (output : Bytes) {fs : Files} (hne : cstr input ≠ cstr temp)
    (hc : g.cipher encrypt recipient (fs.openRead input) = some c) :
    g.encryptFile encrypt input recipient output temp fs = (true, temp, fs.put temp c) := by
  unfold cipher at hc
  split_ifs at hc with hg
  simp [encryptFile, hg, Files.openRead_put_of_ne hne, hc]

/-- One that fails leaves `output_locate`, and no file. -/
theorem encryptFile_none {g : GPG} {encrypt : Bytes → Bytes → Option Bytes}
    {input recipient temp : Bytes} (output : Bytes) {fs : Files} (hne : cstr input ≠ cstr temp)
    (hc : g.cipher encrypt recipient (fs.openRead input) = none) :
    g.encryptFile encrypt input recipient output temp fs =
      (false, output, if g.isAuthorized then (fs.put temp []).remove temp else fs) := by
  unfold cipher at hc
  split_ifs at hc with hg
  · simp [encryptFile, hg, Files.openRead_put_of_ne hne, hc]
  · simp [encryptFile, hg]

/-- The plaintext a call of `decrypt_file` makes from what its input file holds, if any. -/
def plain (g : GPG) (decrypt : Bytes → Bytes → Bytes → Option Bytes) (content : Option Bytes) :
    Option Bytes :=
  if g.isAuthorized then content.bind (decrypt (cstr g.name) (cstr g.passphrase)) else none

theorem plain_of_isAuthorized {g : GPG} (hg : g.isAuthorized)
    (decrypt : Bytes → Bytes → Bytes → Option Bytes) (content : Bytes) :
    g.plain decrypt (some content) = decrypt (cstr g.name) (cstr g.passphrase) content := by
  rw [plain, if_pos hg]
  rfl

theorem plain_eq_some_iff {g : GPG} {decrypt : Bytes → Bytes → Bytes → Option Bytes}
    {content : Option Bytes} {p : Bytes} : g.plain decrypt content = some p ↔
      g.isAuthorized ∧ ∃ c, content = some c ∧
        decrypt (cstr g.name) (cstr g.passphrase) c = some p := by
  unfold plain
  split_ifs with hg
  · rw [Option.bind_eq_some_iff, eq_true hg, true_and]
  · simp [hg]

/-- A call of `decrypt_file` that succeeds names a file with the plaintext. -/
theorem decryptFile_some {g : GPG} {decrypt : Bytes → Bytes → Bytes → Option Bytes}
    {input temp p : Bytes} (output : Bytes) {fs : Files} (hne : cstr input ≠ cstr temp)
    (hp : g.plain decrypt (fs.openRead input) = some p) :
    g.decryptFile decrypt input output temp fs = (true, temp, fs.put temp p) := by
  unfold plain at hp
  split_ifs at hp with hg
  simp [decryptFile, hg, Files.openRead_put_of_ne hne, hp]

/-- One that fails leaves `output_locate`, and the temporary file. -/
theorem decryptFile_none {g : GPG} {decrypt : Bytes → Bytes → Bytes → Option Bytes}
    {input temp : Bytes} (output : Bytes) {fs : Files} (hne : cstr input ≠ cstr temp)
    (hp : g.plain decrypt (fs.openRead input) = none) :
    g.decryptFile decrypt input output temp fs =
      (false, output, if g.isAuthorized then fs.put temp [] else fs) := by
  unfold plain at hp
  split_ifs at hp with hg
  · simp [decryptFile, hg, Files.openRead_put_of_ne hne, hp]
  · simp [decryptFile, hg]

theorem decryptFile_ok {g : GPG} (hg : g.isAuthorized)
    {decrypt : Bytes → Bytes → Bytes → Option Bytes}
    {input output temp content plain : Bytes} {fs : Files}
    (hne : cstr input ≠ cstr temp) (hfile : fs.openRead input = some content)
    (hdec : decrypt (cstr g.name) (cstr g.passphrase) content = some plain) :
    g.decryptFile decrypt input output temp fs = (true, temp, fs.put temp plain) :=
  decryptFile_some output hne (plain_eq_some_iff.2 ⟨hg, content, hfile, hdec⟩)

/-- A call of `decrypt_file` that succeeds has read and decrypted its input file. -/
theorem decryptFile_cases {g : GPG} {decrypt : Bytes → Bytes → Bytes → Option Bytes}
    {input output temp : Bytes} {fs : Files} (hne : cstr input ≠ cstr temp)
    (h : (g.decryptFile decrypt input output temp fs).1 = true) :
    ∃ content plain, fs.openRead input = some content ∧
      decrypt (cstr g.name) (cstr g.passphrase) content = some plain ∧
      g.decryptFile decrypt input output temp fs = (true, temp, fs.put temp plain) := by
  cases hp : g.plain decrypt (fs.openRead input) with
  | none =>
    rw [decryptFile_none output hne hp] at h
    cases h
  | some p =>
    obtain ⟨-, content, hfile, hdec⟩ := plain_eq_some_iff.1 hp
    exact ⟨content, p, hfile, hdec, decryptFile_some output hne hp⟩

end GPG

/-! ## A gpg for examples -/

/-- Writes the recipient in front of the content. -/
def exampleEncrypt (recipient content : Bytes) : Bytes :=
  be 8 recipient.length ++ recipient ++ content

/-- Takes the recipient off, if it is this user. -/
def exampleDecrypt (name _passphrase content : Bytes) : Option Bytes :=
  if content.take (8 + name.length) = be 8 name.length ++ name then
    some (content.drop (8 + name.length))
  else none

theorem exampleDecrypt_self (name passphrase content : Bytes) :
    exampleDecrypt name passphrase (exampleEncrypt name content) = some content := by
  have hlen : 8 + name.length = (be 8 name.length ++ name).length := by simp
  rw [exampleDecrypt, exampleEncrypt, hlen, List.take_left, List.drop_left, if_pos rfl]

/-- Nobody else can take the recipient off. -/
theorem exampleDecrypt_of_ne {name recipient : Bytes} (hne : name ≠ recipient)
    (hn : name.length < 256 ^ 8) (hr : recipient.length < 256 ^ 8) (passphrase content : Bytes) :
    exampleDecrypt name passphrase (exampleEncrypt recipient content) = none := by
  refine if_neg fun h => hne ?_
  have happ := List.take_append_drop (8 + name.length) (exampleEncrypt recipient content)
  rw [h, exampleEncrypt, List.append_assoc, List.append_assoc] at happ
  obtain ⟨hbe, happ⟩ := List.append_inj happ (by simp)
  have hlen : name.length = recipient.length := by
    rw [← ofBE_be_of_lt hn, hbe, ofBE_be_of_lt hr]
  exact (List.append_inj happ hlen).1

end Onion5
