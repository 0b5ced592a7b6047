import Onion5.Foundations.SecureHash
import Onion5.Common.Util
import Mathlib.Data.UInt
import Mathlib.Data.List.GetD

/-!
# SHA-1 as the repository computes it

The model of `sha1.cc`, against SHA-1 as it is defined (`SecureHash`). `transform` has its eighty
rounds written out: it keeps sixteen words of the schedule at a time, and instead of moving the five
working variables along it renames them. `update` fills a buffer of 64 bytes from a stream, and
`final` pads what is left in it.

* `transform_eq`: `transform` is the compression function.
* `hashAll_eq`: whatever the strings and streams that an object is updated with, `final` returns
  the digest of all their bytes, and leaves the object as a new one.
* `length_hexDigest`, `hexDigest_inj`: a digest is 40 hexadecimal digits, which determine it.
* `exists_transform_eq`: a collision of two strings is one of two calls of `transform`.
-/

namespace Onion5

open SecureHash BlockHash

namespace Sha1

def BLOCK_INTS : ℕ := 16

def BLOCK_BYTES : ℕ := BLOCK_INTS * 4

/-! ## Rounds -/

def rol (value : UInt32) (bits : ℕ) : UInt32 :=
  (value <<< UInt32.ofNat bits) ||| (value >>> UInt32.ofNat (32 - bits))

/-- Positions of the block are added modulo 16, as by `& 15`. -/
def blk (block : Block) (i : Fin 16) : UInt32 :=
  rol (block[i + 13] ^^^ block[i + 8] ^^^ block[i + 2] ^^^ block[i]) 1

/-- The block and the variables `a` to `e` of `transform`. -/
@[ext]
structure Work where
  vars : Words
  block : Block

/-- What the operations have in common: `z` is increased and `w` rotated. -/
def operate (f : UInt32 → UInt32 → UInt32 → UInt32) (k : UInt32) (v w x y z : Fin 5) (i : Fin 16)
    (s : Work) : Work :=
  let sum := f s.vars[w] s.vars[x] s.vars[y] + s.block[i] + k + rol s.vars[v] 5
  { s with vars := (s.vars.set z (s.vars[z] + sum)).set w (rol s.vars[w] 30) }

/-- The statement `block[i] = blk(block, i)`. -/
def expand (i : Fin 16) (s : Work) : Work := { s with block := s.block.set i (blk s.block i) }

def R0 (v w x y z : Fin 5) (i : Fin 16) (s : Work) : Work :=
  operate (fun w x y => (w &&& (x ^^^ y)) ^^^ y) 0x5a827999 v w x y z i s

def R1 (v w x y z : Fin 5) (i : Fin 16) (s : Work) : Work :=
  operate (fun w x y => (w &&& (x ^^^ y)) ^^^ y) 0x5a827999 v w x y z i (expand i s)

def R2 (v w x y z : Fin 5) (i : Fin 16) (s : Work) : Work :=
  operate (fun w x y => w ^^^ x ^^^ y) 0x6ed9eba1 v w x y z i (expand i s)

def R3 (v w x y z : Fin 5) (i : Fin 16) (s : Work) : Work :=
  operate (fun w x y => ((w ||| x) &&& y) ||| (w &&& x)) 0x8f1bbcdc v w x y z i (expand i s)

def R4 (v w x y z : Fin 5) (i : Fin 16) (s : Work) : Work :=
  operate (fun w x y => w ^^^ x ^^^ y) 0xca62c1d6 v w x y z i (expand i s)

namespace Var

/-- The names of the working variables. -/
abbrev a : Fin 5 := 0

abbrev b : Fin 5 := 1

abbrev c : Fin 5 := 2

abbrev d : Fin 5 := 3

abbrev e : Fin 5 := 4

end Var

open Var in
/-- The rounds that `transform` has written out. -/
def unrolled : List (Work → Work) := [
  R0 a b c d e  0, R0 e a b c d  1, R0 d e a b c  2, R0 c d e a b  3, R0 b c d e a  4,
  R0 a b c d e  5, R0 e a b c d  6, R0 d e a b c  7, R0 c d e a b  8, R0 b c d e a  9,
  R0 a b c d e 10, R0 e a b c d 11, R0 d e a b c 12, R0 c d e a b 13, R0 b c d e a 14,
  R0 a b c d e 15, R1 e a b c d  0, R1 d e a b c  1, R1 c d e a b  2, R1 b c d e a  3,
  R2 a b c d e  4, R2 e a b c d  5, R2 d e a b c  6, R2 c d e a b  7, R2 b c d e a  8,
  R2 a b c d e  9, R2 e a b c d 10, R2 d e a b c 11, R2 c d e a b 12, R2 b c d e a 13,
  R2 a b c d e 14, R2 e a b c d 15, R2 d e a b c  0, R2 c d e a b  1, R2 b c d e a  2,
  R2 a b c d e  3, R2 e a b c d  4, R2 d e a b c  5, R2 c d e a b  6, R2 b c d e a  7,
  R3 a b c d e  8, R3 e a b c d  9, R3 d e a b c 10, R3 c d e a b 11, R3 b c d e a 12,
  R3 a b c d e 13, R3 e a b c d 14, R3 d e a b c 15, R3 c d e a b  0, R3 b c d e a  1,
  R3 a b c d e  2, R3 e a b c d  3, R3 d e a b c  4, R3 c d e a b  5, R3 b c d e a  6,
  R3 a b c d e  7, R3 e a b c d  8, R3 d e a b c  9, R3 c d e a b 10, R3 b c d e a 11,
  R4 a b c d e 12, R4 e a b c d 13, R4 d e a b c 14, R4 c d e a b 15, R4 b c d e a  0,
  R4 a b c d e  1, R4 e a b c d  2, R4 d e a b c  3, R4 c d e a b  4, R4 b c d e a  5,
  R4 a b c d e  6, R4 e a b c d  7, R4 d e a b c  8, R4 c d e a b  9, R4 b c d e a 10,
  R4 a b c d e 11, R4 e a b c d 12, R4 d e a b c 13, R4 c d e a b 14, R4 b c d e a 15]

/-- `transform`: the digest, the block and the counter afterwards. -/
@[irreducible]
def transform (digest : Words) (block : Block) (transforms : UInt64) : Words × Block × UInt64 :=
  let s := unrolled.foldl (fun s r => r s) ⟨digest, block⟩
  (Vector.zipWith (· + ·) digest s.vars, s.block, transforms + 1)

/-- `buffer_to_block`, on a full buffer. -/
def bufferToBlock (buffer : Bytes) : Block := Vector.ofFn fun i =>
  (buffer.getD (4 * i + 3) 0).toUInt32 ||| (buffer.getD (4 * i + 2) 0).toUInt32 <<< 8 |||
    (buffer.getD (4 * i + 1) 0).toUInt32 <<< 16 ||| (buffer.getD (4 * i) 0).toUInt32 <<< 24

end Sha1

/-! ## The class -/

open Sha1

/-- `class SHA1`. -/
@[ext]
structure SHA1 where
  digest : Words
  buffer : Bytes
  transforms : UInt64
  buffer_lt : buffer.length < BLOCK_BYTES
  deriving DecidableEq

namespace SHA1

/-- `reset`, and the constructor. -/
def reset : SHA1 :=
  ⟨⟨#[0x67452301, 0xefcdab89, 0x98badcfe, 0x10325476, 0xc3d2e1f0], by decide⟩, [], 0, by decide⟩

/-- `SHA1::update(std::istream &is)`. -/
def updateStream (c : SHA1) (is : InStream) : SHA1 × InStream :=
  let x := is.read (BLOCK_BYTES - c.buffer.length)
  if h : (c.buffer ++ x.1).length ≠ BLOCK_BYTES then
    ({ c with
      buffer := c.buffer ++ x.1
      buffer_lt := by
        have hread : x.1.length ≤ BLOCK_BYTES - c.buffer.length := is.length_read_le _
        have hlt := c.buffer_lt
        rw [List.length_append] at h ⊢
        omega }, x.2)
  else
    let t := transform c.digest (bufferToBlock (c.buffer ++ x.1)) c.transforms
    updateStream ⟨t.1, [], t.2.2, by decide⟩ x.2
termination_by is.todo
decreasing_by
  have hlt := c.buffer_lt
  have he : is.eof = false := by
    by_contra he
    rw [Bool.not_eq_false] at he
    refine h fun hlen => ?_
    simp only [x, InStream.read, he, if_true, List.append_nil] at hlen
    omega
  exact InStream.todo_read_lt he (by omega)

/-- `SHA1::update(const std::string &s)`. -/
def update (c : SHA1) (s : Bytes) : SHA1 := (c.updateStream (InStream.opened s)).1

/-- The character of a hexadecimal digit. -/
def hexDigit (d : ℕ) : UInt8 := UInt8.ofNat (if d < 10 then 48 + d else 87 + d)

/-- A number in hexadecimal digits. -/
def hexadecimal (n : ℕ) : Bytes :=
  if n < 16 then [hexDigit n] else hexadecimal (n / 16) ++ [hexDigit (n % 16)]

/-- `std::hex << std::setfill('0') << std::setw(8) << w`. -/
def hexWord (w : UInt32) : Bytes := (hexadecimal w.toNat).leftpad 8 48

/-- The words of a digest. -/
def hexDigest (digest : Words) : Bytes := digest.toList.flatMap hexWord

/-- `SHA1::final`: the string returned and the object afterwards. -/
def final (c : SHA1) : Bytes × SHA1 :=
  let totalBits := (c.transforms * UInt64.ofNat BLOCK_BYTES + UInt64.ofNat c.buffer.length) * 8
  let buffer := c.buffer ++ [0x80]
  let origSize := buffer.length
  let buffer := buffer ++ List.replicate (BLOCK_BYTES - buffer.length) 0
  let block := bufferToBlock buffer
  let (digest, block, transforms) :=
    if BLOCK_BYTES - 8 < origSize then
      let (digest, block, transforms) := transform c.digest block c.transforms
      (digest, Vector.ofFn fun i : Fin 16 => if i.val < BLOCK_INTS - 2 then 0 else block[i],
        transforms)
    else (c.digest, block, c.transforms)
  let block := block.set 15 totalBits.toUInt32
  let block := block.set 14 (totalBits >>> 32).toUInt32
  let (digest, _, _) := transform digest block transforms
  (hexDigest digest, reset)

/-- `SHA1::from_file`. A stream that cannot be opened has nothing to read. -/
def fromFile (filename : Bytes) (fs : Files) : Bytes :=
  let stream := match fs.openRead filename with
    | some file => InStream.opened file
    | none => ⟨[], true⟩
  (reset.updateStream stream).1.final.1

end SHA1

namespace Sha1

/-! ## The rounds are those of SHA-1 -/

/-- Round `t`. -/
def operation (t : ℕ) : Work → Work :=
  let p := Fin.ofNat 5 t
  (if t < 16 then R0 else if t < 20 then R1 else if t < 40 then R2 else if t < 60 then R3 else R4)
    (0 - p) (1 - p) (2 - p) (3 - p) (4 - p) (Fin.ofNat 16 t)

theorem unrolled_eq : unrolled = (List.range 80).map operation := rfl

section Words

variable (x y z : UInt32)

theorem rol_eq {n : ℕ} (h0 : 0 < n) (h : n < 32) : rol x n = rotl x n := by
  have hn : n % 4294967296 = n := Nat.mod_eq_of_lt (by omega)
  have hn' : (32 - n) % 4294967296 = 32 - n := Nat.mod_eq_of_lt (by omega)
  rw [← UInt32.toBitVec_inj]
  rw [rol, rotl, BitVec.rotateLeft_def]
  simp [hn, hn', Nat.mod_eq_of_lt h, Nat.mod_eq_of_lt (show 32 - n < 32 by omega)]

theorem ch_eq : (x &&& (y ^^^ z)) ^^^ z = ch x y z := by
  rw [ch, ← UInt32.toBitVec_inj]
  simp only [UInt32.toBitVec_xor, UInt32.toBitVec_and, UInt32.toBitVec_not]
  ext i hi
  simp only [BitVec.getElem_xor, BitVec.getElem_and, BitVec.getElem_not]
  cases x.toBitVec[i] <;> cases y.toBitVec[i] <;> cases z.toBitVec[i] <;> rfl

theorem maj_eq : ((x ||| y) &&& z) ||| (x &&& y) = maj x y z := by
  rw [maj, ← UInt32.toBitVec_inj]
  simp only [UInt32.toBitVec_xor, UInt32.toBitVec_and, UInt32.toBitVec_or]
  ext i hi
  simp only [BitVec.getElem_xor, BitVec.getElem_and, BitVec.getElem_or]
  cases x.toBitVec[i] <;> cases y.toBitVec[i] <;> cases z.toBitVec[i] <;> rfl

end Words

/-- After `p` renamings the variable `k` of SHA-1 is the variable `k - p` of `transform`. -/
def VarsAgree (p : Fin 5) (v : Words) (s : Work) : Prop := ∀ k : Fin 5, s.vars[k - p] = v[k]

/-- The block holds the last sixteen words of the schedule. -/
def BlockAgrees (t : ℕ) (m : Block) (s : Work) : Prop :=
  ∀ j < max t 16, max t 16 ≤ j + 16 → s.block[Fin.ofNat 16 j] = schedule m j

/-- One operation on the working variables: `z` is where the next `a` is looked for. -/
theorem operate_vars {t : ℕ} {p : Fin 5} {v : Words} {s : Work}
    {g : UInt32 → UInt32 → UInt32 → UInt32} {i : Fin 16} (hg : ∀ x y z, g x y z = f t x y z)
    (h : VarsAgree p v s) :
    VarsAgree (p + 1) (round s.block[i] t v)
      (operate g (K t) (0 - p) (1 - p) (2 - p) (3 - p) (4 - p) i s) := by
  have h0 := h 0
  have h1 := h 1
  have h2 := h 2
  have h3 := h 3
  have h4 := h 4
  have hset : ∀ (u : Words) (i j : Fin 5) (x : UInt32),
      (u.set i x)[j] = if i = j then x else u[j] := fun u i j x => by
    simp [Vector.getElem_set, Fin.ext_iff]
  have hidx : ∀ p : Fin 5, 0 - (p + 1) = 4 - p ∧ 1 - (p + 1) = 0 - p ∧ 2 - (p + 1) = 1 - p ∧
      3 - (p + 1) = 2 - p ∧ 4 - (p + 1) = 3 - p := by decide
  have hne : ∀ p : Fin 5, 1 - p ≠ 4 - p ∧ 1 - p ≠ 0 - p ∧ 4 - p ≠ 0 - p ∧ 1 - p ≠ 2 - p ∧
      4 - p ≠ 2 - p ∧ 1 - p ≠ 3 - p ∧ 4 - p ≠ 3 - p := by decide
  obtain ⟨e0, e1, e2, e3, e4⟩ := hidx p
  obtain ⟨n0, n1, n2, n3, n4, n5, n6⟩ := hne p
  have hj : ∀ j : Fin 5, j = 0 ∨ j = 1 ∨ j = 2 ∨ j = 3 ∨ j = 4 := by decide
  intro j
  simp only [operate, h0, h1, h2, h3, h4, hg, hset, rol_eq _ (show 0 < 5 by decide) (by decide),
    rol_eq _ (show 0 < 30 by decide) (by decide)]
  obtain rfl | rfl | rfl | rfl | rfl := hj j
  · rw [e0, if_neg n0, if_pos rfl]
    show _ = rotl v[0] 5 + f t v[1] v[2] v[3] + v[4] + K t + s.block[i]
    ac_rfl
  · rw [e1, if_neg n1, if_neg n2, h0]
    rfl
  · rw [e2, if_pos rfl]
    rfl
  · rw [e3, if_neg n3, if_neg n4, h2]
    rfl
  · rw [e4, if_neg n5, if_neg n6, h3]
    rfl

/-- Extending the schedule by a word. -/
theorem expand_block {t : ℕ} (ht : 16 ≤ t) {m : Block} {s : Work} (h : BlockAgrees t m s) :
    BlockAgrees (t + 1) m (expand (Fin.ofNat 16 t) s) := by
  rw [BlockAgrees, max_eq_left ht] at h
  rw [BlockAgrees, max_eq_left (by omega)]
  have hidx : ∀ k ≤ 16, 0 < k → Fin.ofNat 16 t + Fin.ofNat 16 (16 - k) = Fin.ofNat 16 (t - k) := by
    intro k hk h0
    rw [Fin.ext_iff]
    simp only [Fin.ofNat, Fin.val_add]
    omega
  have hword : ∀ k ≤ 16, 0 < k →
      s.block[Fin.ofNat 16 t + Fin.ofNat 16 (16 - k)] = schedule m (t - k) := by
    intro k hk h0
    simp only [hidx k hk h0]
    exact h (t - k) (by omega) (by omega)
  intro j hj hle
  simp only [expand, Fin.getElem_fin]
  by_cases hjt : j = t
  · subst hjt
    have h16 : s.block[Fin.ofNat 16 j] = schedule m (j - 16) := by
      have hback : Fin.ofNat 16 (j - 16) = Fin.ofNat 16 j := by
        rw [Fin.ext_iff]
        simp only [Fin.ofNat]
        omega
      have hold := h (j - 16) (by omega) (by omega)
      simpa only [hback] using hold
    refine (Vector.getElem_set_self _).trans ?_
    rw [schedule_of_le m ht, ← hword 3 (by decide) (by decide), ← hword 8 (by decide) (by decide),
      ← hword 14 (by decide) (by decide), ← h16]
    exact rol_eq _ (by decide) (by decide)
  · have hne : (Fin.ofNat 16 t).val ≠ (Fin.ofNat 16 j).val := by
      simp only [Fin.ofNat]
      omega
    exact (Vector.getElem_set_ne _ _ hne).trans (h j (by omega) (by omega))

/-- What a round does. -/
theorem operation_eq (t : ℕ) (s : Work) : ∃ g : UInt32 → UInt32 → UInt32 → UInt32,
    (∀ x y z, g x y z = f t x y z) ∧ operation t s =
      operate g (K t) (0 - Fin.ofNat 5 t) (1 - Fin.ofNat 5 t) (2 - Fin.ofNat 5 t)
        (3 - Fin.ofNat 5 t) (4 - Fin.ofNat 5 t) (Fin.ofNat 16 t)
        (if t < 16 then s else expand (Fin.ofNat 16 t) s) := by
  simp only [operation, f, K]
  by_cases h16 : t < 16
  · have h20 : t < 20 := by omega
    simp only [if_pos h16, if_pos h20]
    exact ⟨_, ch_eq, rfl⟩
  · simp only [if_neg h16]
    by_cases h20 : t < 20
    · simp only [if_pos h20]
      exact ⟨_, ch_eq, rfl⟩
    · simp only [if_neg h20]
      by_cases h40 : t < 40
      · simp only [if_pos h40]
        exact ⟨_, fun _ _ _ => rfl, rfl⟩
      · simp only [if_neg h40]
        by_cases h60 : t < 60
        · simp only [if_pos h60]
          exact ⟨_, maj_eq, rfl⟩
        · simp only [if_neg h60]
          exact ⟨_, fun _ _ _ => rfl, rfl⟩

/-- **A round of `transform` is a round of SHA-1.** -/
theorem operation_agrees {t : ℕ} {m : Block} {v : Words} {s : Work}
    (hv : VarsAgree (Fin.ofNat 5 t) v s) (hb : BlockAgrees t m s) :
    VarsAgree (Fin.ofNat 5 (t + 1)) (round (schedule m t) t v) (operation t s) ∧
      BlockAgrees (t + 1) m (operation t s) := by
  obtain ⟨g, hg, hop⟩ := operation_eq t s
  have hsucc : Fin.ofNat 5 (t + 1) = Fin.ofNat 5 t + 1 := by
    rw [Fin.ext_iff]
    simp only [Fin.ofNat, Fin.val_add]
    omega
  rw [hop, hsucc]
  by_cases h16 : t < 16
  · rw [if_pos h16]
    have hword : s.block[Fin.ofNat 16 t] = schedule m t := hb t (by omega) (by omega)
    refine ⟨hword ▸ operate_vars hg hv, fun j hj hle => hb j ?_ ?_⟩ <;> omega
  · rw [if_neg h16]
    have hb' := expand_block (not_lt.1 h16) hb
    have hword : (expand (Fin.ofNat 16 t) s).block[Fin.ofNat 16 t] = schedule m t :=
      hb' t (by omega) (by omega)
    exact ⟨hword ▸ operate_vars (s := expand (Fin.ofNat 16 t) s) hg hv, hb'⟩

/-- The first `t` rounds. -/
theorem operations_agree (m : Block) (h : Words) (t : ℕ) :
    VarsAgree (Fin.ofNat 5 t) (rounds m h t)
        (((List.range t).map operation).foldl (fun s r => r s) ⟨h, m⟩) ∧
      BlockAgrees t m (((List.range t).map operation).foldl (fun s r => r s) ⟨h, m⟩) := by
  induction t with
  | zero =>
    refine ⟨fun k => ?_, fun j hj hle => ?_⟩
    · have hk : ∀ k : Fin 5, k - Fin.ofNat 5 0 = k := by decide
      simp only [hk]
      rfl
    · have hj' : j < 16 := by omega
      rw [schedule_of_lt m hj']
      simp only [Fin.getElem_fin, Fin.ofNat, Nat.mod_eq_of_lt hj']
      rfl
  | succ t ih =>
    rw [List.range_succ, List.map_append, List.foldl_append, List.map_singleton, List.foldl_cons,
      List.foldl_nil]
    exact operation_agrees ih.1 ih.2

/-- **`transform` is the compression function of SHA-1.** -/
theorem transform_eq (h : Words) (m : Block) (n : UInt64) :
    (transform h m n).1 = compress h m ∧ (transform h m n).2.2 = n + 1 := by
  obtain ⟨hvars, -⟩ := operations_agree m h 80
  rw [transform, unrolled_eq, compress]
  refine ⟨?_, rfl⟩
  generalize ((List.range 80).map operation).foldl (fun s r => r s) ⟨h, m⟩ = s at hvars ⊢
  have hk : ∀ k : Fin 5, k - Fin.ofNat 5 80 = k := by decide
  refine congrArg (Vector.zipWith (· + ·) h) (Vector.ext fun i hi => ?_)
  have hi' := hvars ⟨i, hi⟩
  simp only [hk] at hi'
  exact hi'

/-! ## Blocks -/

/-- A number above the bits of another. -/
theorem or_shiftLeft {a b i : ℕ} (h : b < 2 ^ i) : b ||| a <<< i = b + a * 2 ^ i := by
  rw [Nat.or_comm, ← Nat.shiftLeft_add_eq_or_of_lt h, Nat.shiftLeft_eq, Nat.add_comm]

/-- Four bytes, the first the most significant. -/
theorem word_eq (w x y z : UInt8) :
    z.toUInt32 ||| y.toUInt32 <<< 8 ||| x.toUInt32 <<< 16 ||| w.toUInt32 <<< 24 =
      UInt32.ofNat (ofBE [w, x, y, z]) := by
  have hw := w.toNat_lt
  have hx := x.toNat_lt
  have hy := y.toNat_lt
  have hz := z.toNat_lt
  have hof : ofBE [w, x, y, z] =
      z.toNat + y.toNat * 2 ^ 8 + x.toNat * 2 ^ 16 + w.toNat * 2 ^ 24 := by
    simp only [ofBE, List.foldl_cons, List.foldl_nil]
    omega
  have hshift : ∀ (b : UInt8) (k : UInt32), k.toNat + 8 ≤ 32 →
      (b.toUInt32 <<< k).toNat = b.toNat <<< k.toNat := fun b k hk => by
    have hb : b.toNat * 2 ^ k.toNat < 2 ^ 32 := by
      have := b.toNat_lt
      calc b.toNat * 2 ^ k.toNat < 2 ^ 8 * 2 ^ k.toNat :=
            Nat.mul_lt_mul_of_pos_right this (Nat.two_pow_pos _)
        _ = 2 ^ (k.toNat + 8) := by rw [← pow_add, Nat.add_comm]
        _ ≤ 2 ^ 32 := Nat.pow_le_pow_right (by decide) hk
    rw [UInt32.toNat_shiftLeft, UInt8.toNat_toUInt32, Nat.mod_eq_of_lt (show k.toNat < 32 by omega),
      Nat.mod_eq_of_lt (by rwa [Nat.shiftLeft_eq])]
  rw [← UInt32.toNat_inj, UInt32.toNat_ofNat', hof, UInt32.toNat_or, UInt32.toNat_or,
    UInt32.toNat_or, hshift _ _ (by decide), hshift _ _ (by decide), hshift _ _ (by decide),
    UInt8.toNat_toUInt32]
  show z.toNat ||| y.toNat <<< 8 ||| x.toNat <<< 16 ||| w.toNat <<< 24 = _
  have h16 : z.toNat + y.toNat * 2 ^ 8 < 2 ^ 16 := by omega
  have h24 : z.toNat + y.toNat * 2 ^ 8 + x.toNat * 2 ^ 16 < 2 ^ 24 := by omega
  rw [or_shiftLeft hz, or_shiftLeft h16, or_shiftLeft h24, Nat.mod_eq_of_lt (by omega)]

/-- The words of a full buffer. -/
theorem bufferToBlock_eq {buffer : Bytes} (h : buffer.length = 64) :
    bufferToBlock buffer = toBlock buffer := by
  refine Vector.ext fun i hi => ?_
  have hcons : ∀ j < 64, buffer.drop j = buffer.getD j 0 :: buffer.drop (j + 1) := fun j hj => by
    rw [List.drop_eq_getElem_cons (by omega), List.getD_eq_getElem _ _ (by omega)]
  have hbytes : (buffer.drop (4 * i)).take 4 = [buffer.getD (4 * i) 0, buffer.getD (4 * i + 1) 0,
      buffer.getD (4 * i + 2) 0, buffer.getD (4 * i + 3) 0] := by
    rw [hcons _ (by omega), hcons _ (by omega), hcons _ (by omega), hcons _ (by omega)]
    rfl
  simp only [bufferToBlock, toBlock, Vector.getElem_ofFn, word_eq, hbytes]

/-- The last two words of a block replaced by a length. -/
theorem set_length {block : Block} {front : Bytes} (hf : front.length = 56) (rest : Bytes)
    (hb : ∀ i (h : i < 14), block[i] = (toBlock (front ++ rest))[i]) (n : ℕ) :
    (block.set 15 (UInt64.ofNat n).toUInt32).set 14 (UInt64.ofNat n >>> 32).toUInt32 =
      toBlock (front ++ be 8 n) := by
  have hfront : ∀ i < 14, ∀ c : Bytes, ((front ++ c).drop (4 * i)).take 4 =
      (front.drop (4 * i)).take 4 := fun i hi c => by
    rw [List.drop_append_of_le_length (by omega), List.take_append_of_le_length]
    rw [List.length_drop]
    omega
  refine Vector.ext fun i hi => ?_
  by_cases h14 : i < 14
  · rw [Vector.getElem_set_ne _ _ (by omega), Vector.getElem_set_ne _ _ (by omega), hb i h14]
    simp only [toBlock, Vector.getElem_ofFn, hfront i h14]
  · have hbe : be 8 n = be 4 (n / 256 ^ 4) ++ be 4 n := be_add 4 4 n
    obtain rfl | rfl : i = 14 ∨ i = 15 := by omega
    · have hfirst : ((front ++ be 8 n).drop 56).take 4 = be 4 (n / 256 ^ 4) := by
        rw [List.drop_left' hf, hbe, List.take_left' (length_be 4 _)]
      rw [Vector.getElem_set_self, toBlock, Vector.getElem_ofFn]
      simp only [Nat.reduceMul, hfirst]
      rw [ofBE_be, ← UInt32.toNat_inj, UInt64.toNat_toUInt32,
        UInt64.toNat_shiftRight, UInt64.toNat_ofNat', UInt32.toNat_ofNat']
      show (n % 2 ^ 64) >>> 32 % 2 ^ 32 = _
      rw [Nat.shiftRight_eq_div_pow]
      omega
    · have hlast : (front ++ be 8 n).drop 60 = be 4 n := by
        rw [hbe, ← List.append_assoc, List.drop_left' (by simp [hf])]
      rw [Vector.getElem_set_ne _ _ (by decide), Vector.getElem_set_self, toBlock,
        Vector.getElem_ofFn]
      simp only [Nat.reduceMul, hlast]
      rw [List.take_of_length_le (by simp), ofBE_be, ← UInt32.toNat_inj, UInt64.toNat_toUInt32,
        UInt64.toNat_ofNat', UInt32.toNat_ofNat']
      omega

end Sha1

/-! ## Objects -/

namespace SHA1

variable {c : SHA1}

/-- A block of bytes, and its count. -/
def absorbBlock (s : Words × UInt64) (b : Bytes) : Words × UInt64 :=
  (compress s.1 (toBlock b), s.2 + 1)

/-- What an object has absorbed. -/
def absorber (c : SHA1) : Absorber (Words × UInt64) UInt8 64 :=
  ⟨(c.digest, c.transforms), c.buffer, c.buffer_lt⟩

section Turns

variable {is is' : InStream} {got : Bytes}

/-- A turn of the loop that fills the buffer. -/
theorem updateStream_full (hr : is.read (BLOCK_BYTES - c.buffer.length) = (got, is'))
    (h : (c.buffer ++ got).length = BLOCK_BYTES) :
    c.updateStream is = updateStream ⟨compress c.digest (toBlock (c.buffer ++ got)), [],
      c.transforms + 1, by decide⟩ is' := by
  obtain ⟨hdigest, hcount⟩ := transform_eq c.digest (toBlock (c.buffer ++ got)) c.transforms
  rw [updateStream]
  simp only [hr, bufferToBlock_eq h, hdigest, hcount]
  exact dif_neg (not_not.2 h)

/-- The turn that ends it. -/
theorem updateStream_part (hr : is.read (BLOCK_BYTES - c.buffer.length) = (got, is'))
    (h : (c.buffer ++ got).length < BLOCK_BYTES) :
    c.updateStream is = ({ c with buffer := c.buffer ++ got, buffer_lt := h }, is') := by
  rw [updateStream]
  simp only [hr]
  exact dif_pos h.ne

end Turns

/-- **An update absorbs what the stream still has.** -/
theorem absorber_updateStream (c : SHA1) (b : Bytes) :
    (c.updateStream ⟨b, false⟩).1.absorber = c.absorber.absorb absorbBlock b := by
  induction hk : b.length using Nat.strongRecOn generalizing b c with
  | ind k ih =>
    have hlt := c.buffer_lt
    by_cases hle : BLOCK_BYTES - c.buffer.length ≤ b.length
    · have hfull : (c.buffer ++ b.take (BLOCK_BYTES - c.buffer.length)).length = BLOCK_BYTES := by
        rw [List.length_append, List.length_take_of_le hle]
        exact Nat.add_sub_of_le hlt.le
      rw [updateStream_full (InStream.read_of_le hle) hfull,
        ih _ (by rw [List.length_drop]; omega) _ _ rfl]
      conv_rhs => rw [← List.take_append_drop (BLOCK_BYTES - c.buffer.length) b]
      rw [Absorber.absorb_append, Absorber.absorb_of_eq c.absorber _ hfull]
      rfl
    · have hopen : (c.buffer ++ b).length < BLOCK_BYTES := by
        rw [List.length_append]
        omega
      rw [updateStream_part (InStream.read_of_lt (not_le.1 hle)) hopen]
      exact (Absorber.absorb_of_lt c.absorber b hopen).symm

/-- A stream that has ended. -/
theorem updateStream_eof (c : SHA1) (b : Bytes) : (c.updateStream ⟨b, true⟩).1 = c := by
  have hopen : (c.buffer ++ []).length < BLOCK_BYTES := by
    rw [List.append_nil]
    exact c.buffer_lt
  rw [updateStream_part (InStream.read_eof b _) hopen]
  exact SHA1.ext rfl (List.append_nil _) rfl

/-- The bytes that an object has counted. -/
def count (s : Absorber (Words × UInt64) UInt8 64) : UInt64 :=
  s.state.2 * 64 + UInt64.ofNat s.buffer.length

theorem count_push (s : Absorber (Words × UInt64) UInt8 64) (x : UInt8) :
    count (s.push absorbBlock x) = count s + 1 := by
  rw [Absorber.push]
  split_ifs with h
  · rw [count, count, List.length_append, List.length_singleton, UInt64.ofNat_add, add_assoc]
    rfl
  · have hfull : s.buffer.length = 63 := by
      have := s.length_lt
      omega
    rw [count, count, hfull, absorbBlock, List.length_nil]
    show (s.state.2 + 1) * 64 + 0 = s.state.2 * 64 + 63 + 1
    rw [add_mul, one_mul, add_zero, add_assoc]
    rfl

theorem count_absorb (s : Absorber (Words × UInt64) UInt8 64) (m : Bytes) :
    count (s.absorb absorbBlock m) = count s + UInt64.ofNat m.length := by
  induction m generalizing s with
  | nil => exact (add_zero _).symm
  | cons x m ih =>
    show count ((s.push absorbBlock x).absorb absorbBlock m) = _
    rw [ih, count_push, List.length_cons, UInt64.ofNat_add, add_assoc, add_comm (UInt64.ofNat _)]
    rfl

/-! ## The padding -/

/-- What is left of the padded message. -/
def padding (r n : ℕ) : Bytes := 128 :: (List.replicate ((119 - r) % 64) 0 ++ be 8 (8 * n))

theorem pad_eq (m : Bytes) : pad m = m ++ padding (m.length % 64) m.length := rfl

/-- The digest of a message, block by block. -/
theorem absorb_pad (m : Bytes) :
    (reset.absorber.absorb absorbBlock (pad m)).state.1 = SecureHash.digest m := by
  have hfold : ∀ (bs : List Bytes) (s : Words × UInt64),
      (bs.foldl absorbBlock s).1 = (bs.map toBlock).foldl compress s.1 := by
    intro bs
    induction bs with
    | nil => exact fun _ => rfl
    | cons b bs ih => exact fun s => ih (absorbBlock s b)
  have hblocks := absorb_blocks (n := 64) (by decide) absorbBlock (reset.digest, reset.transforms)
    (dvd_length_pad m)
  have hstart : reset.absorber = ⟨(reset.digest, reset.transforms), [], by decide⟩ := rfl
  rw [hstart, hblocks]
  exact hfold _ _

section Final

variable {n : ℕ} (hbits : (c.transforms * UInt64.ofNat BLOCK_BYTES +
  UInt64.ofNat c.buffer.length) * 8 = UInt64.ofNat n)

include hbits

/-- The length fits the block of the rest. -/
theorem final_short (h : c.buffer.length < 56) :
    c.final.1 = hexDigest (compress c.digest (toBlock
      (c.buffer ++ 128 :: List.replicate (55 - c.buffer.length) 0 ++ be 8 n))) := by
  have hfront : (c.buffer ++ 128 :: List.replicate (55 - c.buffer.length) 0).length = 56 := by
    rw [List.length_append, List.length_cons, List.length_replicate]
    omega
  have hfill : c.buffer ++ [0x80] ++ List.replicate (BLOCK_BYTES - (c.buffer ++ [0x80]).length) 0 =
      c.buffer ++ 128 :: List.replicate (55 - c.buffer.length) 0 ++ List.replicate 8 0 := by
    rw [List.length_append, List.length_singleton, List.append_assoc, List.append_assoc,
      List.singleton_append, List.cons_append, ← List.replicate_add]
    congr 3
    show 64 - (c.buffer.length + 1) = _
    omega
  have hblock : bufferToBlock (c.buffer ++ 128 :: List.replicate (55 - c.buffer.length) 0 ++
      List.replicate 8 0) = toBlock _ :=
    bufferToBlock_eq (by rw [List.length_append, hfront, List.length_replicate])
  have hsize : ¬ BLOCK_BYTES - 8 < (c.buffer ++ [0x80]).length := by
    rw [List.length_append, List.length_singleton]
    show ¬ 56 < _
    omega
  rw [final]
  simp only [hbits, hfill, hblock, if_neg hsize, set_length hfront _ (fun _ _ => rfl) n]
  rw [(transform_eq _ _ _).1]

/-- The length needs a block of its own. -/
theorem final_long (h : 56 ≤ c.buffer.length) :
    c.final.1 = hexDigest (compress (compress c.digest (toBlock
      (c.buffer ++ 128 :: List.replicate (63 - c.buffer.length) 0)))
        (toBlock (List.replicate 56 0 ++ be 8 n))) := by
  have hlt : c.buffer.length < 64 := c.buffer_lt
  have hfill : c.buffer ++ [0x80] ++ List.replicate (BLOCK_BYTES - (c.buffer ++ [0x80]).length) 0 =
      c.buffer ++ 128 :: List.replicate (63 - c.buffer.length) 0 := by
    rw [List.length_append, List.length_singleton, List.append_assoc, List.singleton_append]
    congr 3
    show 64 - (c.buffer.length + 1) = _
    omega
  have hblock : bufferToBlock (c.buffer ++ 128 :: List.replicate (63 - c.buffer.length) 0) =
      toBlock _ := bufferToBlock_eq (by
    rw [List.length_append, List.length_cons, List.length_replicate]
    omega)
  have hsize : BLOCK_BYTES - 8 < (c.buffer ++ [0x80]).length := by
    rw [List.length_append, List.length_singleton]
    show 56 < _
    omega
  have hset : ∀ (front : Bytes) (block : Block), front = List.replicate 56 0 →
      ((Vector.ofFn fun i : Fin 16 => if i.val < BLOCK_INTS - 2 then 0 else block[i]).set 15
        (UInt64.ofNat n).toUInt32).set 14 (UInt64.ofNat n >>> 32).toUInt32 =
          toBlock (front ++ be 8 n) := by
    intro front block hfront
    refine set_length (hfront ▸ List.length_replicate) (List.replicate 8 0) (fun i hi => ?_) n
    rw [Vector.getElem_ofFn, toBlock, Vector.getElem_ofFn, hfront, ← List.replicate_add,
      List.drop_replicate, List.take_replicate, ofBE_replicate]
    exact if_pos hi
  rw [final]
  simp only [hbits, hfill, hblock, if_pos hsize]
  rw [hset _ _ rfl, (transform_eq _ _ _).1, (transform_eq _ _ _).1]

end Final

/-- **`final` returns the digest of what the object has absorbed.** -/
theorem final_eq {m : Bytes} (h : c.absorber = reset.absorber.absorb absorbBlock m) :
    c.final = (hexDigest (SecureHash.digest m), reset) := by
  have hlt : c.buffer.length < 64 := c.buffer_lt
  have hlen : c.buffer.length = m.length % 64 := by
    have hbuffer := congrArg (fun s => s.buffer.length) h
    simp only [Absorber.length_buffer_absorb] at hbuffer
    simpa [absorber, reset] using hbuffer
  have hbits : (c.transforms * UInt64.ofNat BLOCK_BYTES + UInt64.ofNat c.buffer.length) * 8 =
      UInt64.ofNat (8 * m.length) := by
    have hcount : c.transforms * UInt64.ofNat BLOCK_BYTES + UInt64.ofNat c.buffer.length =
        UInt64.ofNat m.length := by
      have habsorb := count_absorb reset.absorber m
      rw [← h] at habsorb
      exact habsorb.trans (zero_add _)
    rw [hcount, Nat.mul_comm, UInt64.ofNat_mul]
    rfl
  have hpad := absorb_pad m
  rw [pad_eq, Absorber.absorb_append, ← h, ← hlen, padding] at hpad
  refine Prod.ext ?_ rfl
  by_cases hk : c.buffer.length < 56
  · -- one block: the rest, the one bit, zeros and the length
    have hzeros : (119 - c.buffer.length) % 64 = 55 - c.buffer.length := by omega
    rw [final_short hbits hk, ← hpad, hzeros, Absorber.absorb_of_eq c.absorber]
    · rw [absorbBlock, absorber, List.append_assoc, List.cons_append]
    · simp only [absorber, List.length_append, List.length_cons, List.length_replicate, length_be]
      omega
  · -- two blocks: the second one starts with zeros
    have hzeros : (119 - c.buffer.length) % 64 = 63 - c.buffer.length + 56 := by omega
    have hfull : (c.buffer ++ 128 :: List.replicate (63 - c.buffer.length) 0).length = 64 := by
      rw [List.length_append, List.length_cons, List.length_replicate]
      omega
    rw [final_long hbits (not_lt.1 hk), ← hpad, hzeros, List.replicate_add, List.append_assoc,
      ← List.cons_append, Absorber.absorb_append, Absorber.absorb_of_eq c.absorber _ hfull,
      Absorber.absorb_of_eq]
    · rfl
    · rw [List.length_append, List.length_append, length_be, List.length_replicate]
      rfl

/-! ## Hexadecimal digits -/

section Hex

/-- The number that hexadecimal digits write. -/
def ofHex (s : Bytes) : ℕ :=
  s.foldl (fun n c => n * 16 + if c < 58 then c.toNat - 48 else c.toNat - 87) 0

/-- A lowercase hexadecimal digit. -/
def isHexDigit (c : UInt8) : Bool := (48 ≤ c ∧ c ≤ 57) ∨ (97 ≤ c ∧ c ≤ 102)

theorem ofHex_concat (s : Bytes) {d : ℕ} (h : d < 16) :
    ofHex (s ++ [hexDigit d]) = ofHex s * 16 + d := by
  have hvalue : ∀ d < 16, (if hexDigit d < 58 then (hexDigit d).toNat - 48
      else (hexDigit d).toNat - 87) = d := by decide
  rw [ofHex, List.foldl_append, List.foldl_cons, List.foldl_nil, hvalue d h]
  rfl

theorem ofHex_hexadecimal (n : ℕ) : ofHex (hexadecimal n) = n := by
  induction n using Nat.strongRecOn with
  | ind n ih =>
    rw [hexadecimal]
    split_ifs with h
    · exact (ofHex_concat [] h).trans (by simp [ofHex])
    · rw [ofHex_concat _ (Nat.mod_lt _ (by decide)), ih _ (by omega)]
      omega

theorem length_hexadecimal_le {n k : ℕ} (h : n < 16 ^ (k + 1)) :
    (hexadecimal n).length ≤ k + 1 := by
  induction k generalizing n with
  | zero =>
    rw [hexadecimal, if_pos (by simpa using h)]
    rfl
  | succ k ih =>
    rw [hexadecimal]
    split_ifs with hn
    · exact Nat.succ_le_succ (Nat.zero_le _)
    · rw [List.length_append, List.length_singleton]
      exact Nat.succ_le_succ (ih (by rw [pow_succ] at h; omega))

theorem mem_hexadecimal {n : ℕ} {c : UInt8} (h : c ∈ hexadecimal n) : isHexDigit c := by
  have hdigit : ∀ d < 16, isHexDigit (hexDigit d) := by decide
  induction n using Nat.strongRecOn with
  | ind n ih =>
    rw [hexadecimal] at h
    split_ifs at h with hn
    · rw [List.mem_singleton.1 h]
      exact hdigit n hn
    · rcases List.mem_append.1 h with h | h
      · exact ih _ (by omega) h
      · rw [List.mem_singleton.1 h]
        exact hdigit _ (Nat.mod_lt _ (by decide))

theorem length_hexWord (w : UInt32) : (hexWord w).length = 8 := by
  have hle : (hexadecimal w.toNat).length ≤ 8 := length_hexadecimal_le w.toNat_lt
  rw [hexWord, List.length_leftpad, max_eq_left hle]

theorem hexWord_inj {w w' : UInt32} (h : hexWord w = hexWord w') : w = w' := by
  have hof : ∀ w, ofHex (hexWord w) = w.toNat := fun w => by
    rw [hexWord, List.leftpad, ofHex, List.foldl_append]
    have hzeros : ∀ k, (List.replicate k (48 : UInt8)).foldl
        (fun n c => n * 16 + if c < 58 then c.toNat - 48 else c.toNat - 87) 0 = 0 := fun k => by
      induction k with
      | zero => rfl
      | succ k ih => exact ih
    rw [hzeros]
    exact ofHex_hexadecimal _
  rw [← UInt32.toNat_inj, ← hof w, h, hof w']

theorem mem_hexWord {w : UInt32} {c : UInt8} (h : c ∈ hexWord w) : isHexDigit c := by
  rw [hexWord, List.leftpad, List.mem_append] at h
  rcases h with h | h
  · rw [List.eq_of_mem_replicate h]
    rfl
  · exact mem_hexadecimal h

/-- **A digest is written in 40 lowercase hexadecimal digits.** -/
theorem length_hexDigest (d : Words) :
    (hexDigest d).length = 40 ∧ ∀ c ∈ hexDigest d, isHexDigit c := by
  refine ⟨?_, fun c hc => ?_⟩
  · rw [hexDigest, List.length_flatMap, List.map_congr_left fun w _ => length_hexWord w]
    simp
  · obtain ⟨w, -, hw⟩ := List.mem_flatMap.1 hc
    exact mem_hexWord hw

/-- The digits determine the digest. -/
theorem hexDigest_inj {d d' : Words} (h : hexDigest d = hexDigest d') : d = d' := by
  have hlist : ∀ l l' : List UInt32, l.length = l'.length →
      l.flatMap hexWord = l'.flatMap hexWord → l = l' := by
    intro l
    induction l with
    | nil => exact fun l' hl _ => (List.eq_nil_of_length_eq_zero hl.symm).symm
    | cons w l ih =>
      intro l' hl hflat
      cases l' with
      | nil => cases hl
      | cons w' l' =>
        rw [List.flatMap_cons, List.flatMap_cons] at hflat
        obtain ⟨hw, hrest⟩ := List.append_inj hflat (by rw [length_hexWord, length_hexWord])
        rw [hexWord_inj hw, ih l' (Nat.succ_injective hl) hrest]
  exact Vector.toList_inj.1 (hlist _ _ (by simp) h)

end Hex

/-! ## Results -/

theorem absorber_updateStream_unread (c : SHA1) (is : InStream) :
    (c.updateStream is).1.absorber = c.absorber.absorb absorbBlock is.unread := by
  obtain ⟨b, eof⟩ := is
  cases eof with
  | false => exact absorber_updateStream c b
  | true => exact congrArg absorber (updateStream_eof c b)

/-- The SHA-1 of a string. -/
def sha1 (m : Bytes) : Bytes := hexDigest (SecureHash.digest m)

/-- The updates with some strings and streams, one after the other. -/
def updates (c : SHA1) (streams : List InStream) : SHA1 :=
  streams.foldl (fun c is => (c.updateStream is).1) c

/-- A sequence of updates hashes all their bytes, and `final` leaves a new object. -/
theorem final_updates (streams : List InStream) :
    (reset.updates streams).final = (sha1 (streams.map InStream.unread).flatten, reset) := by
  refine final_eq ?_
  generalize reset = c
  induction streams generalizing c with
  | nil => rfl
  | cons is streams ih =>
    rw [updates, List.foldl_cons, ← updates, ih, absorber_updateStream_unread, List.map_cons,
      List.flatten_cons, Absorber.absorb_append]

/-- What `final` returns when one object is used for several messages, each of them given in any
pieces. -/
def hashAll (c : SHA1) : List (List InStream) → List Bytes
  | [] => []
  | streams :: messages =>
    (c.updates streams).final.1 :: hashAll (c.updates streams).final.2 messages

/-- **An object returns the SHA-1 of every message that it is given**, one after the other and in
any pieces. -/
theorem hashAll_eq (messages : List (List InStream)) :
    reset.hashAll messages =
      messages.map fun streams => sha1 (streams.map InStream.unread).flatten := by
  induction messages with
  | nil => rfl
  | cons streams messages ih =>
    rw [hashAll, final_updates, ih]
    rfl

example : (reset.update (ascii "abc")).final.1 =
    ascii "a9993e364706816aba3e25717850c26c9cd0d89d" := by decide +kernel

/-- Two updates and `final`. -/
theorem final_update_update (a b : Bytes) :
    ((reset.update a).update b).final = (sha1 (a ++ b), reset) := by
  have h := final_updates [InStream.opened a, InStream.opened b]
  simpa [updates, update] using h

/-- A file that cannot be opened is hashed like an empty one. -/
theorem fromFile_eq (filename : Bytes) (fs : Files) :
    fromFile filename fs = sha1 ((fs.openRead filename).getD []) := by
  rw [fromFile]
  cases fs.openRead filename with
  | none => exact congrArg Prod.fst (final_updates [⟨[], true⟩])
  | some file =>
    have h := congrArg Prod.fst (final_updates [InStream.opened file])
    simpa [updates] using h

/-! ## Collisions -/

/-- **Two strings with the same checksum make two calls of `transform` that collide.** -/
theorem exists_transform_eq {m m' : Bytes} (hm : m.length < 2 ^ 61) (hm' : m'.length < 2 ^ 61)
    (hne : m ≠ m') (h : sha1 m = sha1 m') :
    ∃ x ∈ calls compress iv (padded m), ∃ y ∈ calls compress iv (padded m'), x ≠ y ∧
      ∀ n n', (transform x.1 x.2 n).1 = (transform y.1 y.2 n').1 := by
  obtain ⟨x, hx, y, hy, hxy, hstep⟩ := exists_collide_of_digest_eq hm hm' hne (hexDigest_inj h)
  refine ⟨x, hx, y, hy, hxy, fun n n' => ?_⟩
  rw [(transform_eq _ _ _).1, (transform_eq _ _ _).1, hstep]

/-- The first three blocks of two messages with the same digest, and the blocks in which they
differ. -/
def examplePrefix : Bytes :=
  be 32 0x255044462d312e330a25e2e3cfd30a0a0a312030206f626a0a3c3c2f57696474 ++
  be 32 0x682032203020522f4865696768742033203020522f547970652034203020522f ++
  be 32 0x537562747970652035203020522f46696c7465722036203020522f436f6c6f72 ++
  be 32 0x53706163652037203020522f4c656e6774682038203020522f42697473506572 ++
  be 32 0x436f6d706f6e656e7420383e3e0a73747265616d0affd8fffe00245348412d31 ++
  be 32 0x20697320646561642121212121852fec092339759c39b1a1c63c4c97e1fffe01

def exampleBlocks₁ : Bytes :=
  be 32 0x7f46dc93a6b67e013b029aaa1db2560b45ca67d688c7f84b8c4c791fe02b3df6 ++
  be 32 0x14f86db1690901c56b45c1530afedfb76038e972722fe7ad728f0e4904e046c2 ++
  be 32 0x30570fe9d41398abe12ef5bc942be33542a4802d98b5d70f2a332ec37fac3514 ++
  be 32 0xe74ddc0f2cc1a874cd0c78305a21566461309789606bd0bf3f98cda8044629a1

def exampleBlocks₂ : Bytes :=
  be 32 0x7346dc9166b67e118f029ab621b2560ff9ca67cca8c7f85ba84c79030c2b3de2 ++
  be 32 0x18f86db3a90901d5df45c14f26fedfb3dc38e96ac22fe7bd728f0e45bce046d2 ++
  be 32 0x3c570feb141398bb552ef5a0a82be331fea48037b8b5d71f0e332edf93ac3500 ++
  be 32 0xeb4ddc0decc1a864790c782c76215660dd309791d06bd0af3f98cda4bc4629b1

/-- The object after the common blocks. -/
def exampleState : SHA1 :=
  ⟨#v[0x4ea96269, 0x7c876e26, 0x74d107f0, 0xfec67984, 0x14f5bf45], [], 3, by decide⟩

/-- The object after all of them, whichever they are. -/
def exampleState' : SHA1 :=
  ⟨#v[514634334, 3583446288, 4050872675, 1467071546, 397707973], [], 5, by decide⟩

theorem update_examplePrefix : reset.update examplePrefix = exampleState := by decide +kernel

theorem update_exampleBlocks₁ : exampleState.update exampleBlocks₁ = exampleState' := by
  decide +kernel

theorem update_exampleBlocks₂ : exampleState.update exampleBlocks₂ = exampleState' := by
  decide +kernel

theorem sha1_exampleBlocks :
    sha1 (examplePrefix ++ exampleBlocks₁) = sha1 (examplePrefix ++ exampleBlocks₂) := by
  have h₁ := final_update_update examplePrefix exampleBlocks₁
  have h₂ := final_update_update examplePrefix exampleBlocks₂
  rw [update_examplePrefix, update_exampleBlocks₁] at h₁
  rw [update_examplePrefix, update_exampleBlocks₂, h₁] at h₂
  exact congrArg Prod.fst h₂

theorem exists_transform_eq_example :
    ∃ x ∈ calls compress iv (padded (examplePrefix ++ exampleBlocks₁)),
      ∃ y ∈ calls compress iv (padded (examplePrefix ++ exampleBlocks₂)), x ≠ y ∧
        ∀ n n', (transform x.1 x.2 n).1 = (transform y.1 y.2 n').1 :=
  exists_transform_eq (by simp [examplePrefix, exampleBlocks₁])
    (by simp [examplePrefix, exampleBlocks₂])
    (fun h => absurd (List.append_cancel_left h) (by decide +kernel)) sha1_exampleBlocks

end SHA1

end Onion5
