import Onion5.Foundations.BlockHash
import Onion5.Foundations.Bytes

/-!
# SHA-1

The definition of SHA-1, as it is given independently of any program: a message is padded to blocks
of sixteen words, a block is expanded to a schedule of eighty words, and every word goes into one
round.

* `pad` puts the length of the message into the last block (`pad_eq_iff`).
* `exists_collide_of_digest_eq`: two messages with the same digest contain two calls of `compress`
  that collide.
-/

namespace Onion5.SecureHash

open BlockHash

/-- A digest, or the working variables. -/
abbrev Words := Vector UInt32 5

abbrev Block := Vector UInt32 16

/-! ## The compression function -/

def rotl (x : UInt32) (n : ℕ) : UInt32 := ⟨x.toBitVec.rotateLeft n⟩

def ch (x y z : UInt32) : UInt32 := (x &&& y) ^^^ (~~~x &&& z)

def parity (x y z : UInt32) : UInt32 := x ^^^ y ^^^ z

def maj (x y z : UInt32) : UInt32 := (x &&& y) ^^^ (x &&& z) ^^^ (y &&& z)

/-- The function of round `t`. -/
def f (t : ℕ) : UInt32 → UInt32 → UInt32 → UInt32 :=
  if t < 20 then ch else if t < 40 then parity else if t < 60 then maj else parity

/-- The constant of round `t`. -/
def K (t : ℕ) : UInt32 :=
  if t < 20 then 0x5a827999 else if t < 40 then 0x6ed9eba1
  else if t < 60 then 0x8f1bbcdc else 0xca62c1d6

/-- The word of round `t`. -/
def schedule (m : Block) (t : ℕ) : UInt32 :=
  if _h : t < 16 then m[t]
  else rotl (schedule m (t - 3) ^^^ schedule m (t - 8) ^^^ schedule m (t - 14) ^^^
    schedule m (t - 16)) 1

/-- Round `t` with the word `w`. -/
def round (w : UInt32) (t : ℕ) (v : Words) : Words :=
  #v[rotl v[0] 5 + f t v[1] v[2] v[3] + v[4] + K t + w, v[0], rotl v[1] 30, v[2], v[3]]

/-- The first `t` rounds. -/
def rounds (m : Block) (h : Words) : ℕ → Words
  | 0 => h
  | t + 1 => round (schedule m t) t (rounds m h t)

def compress (h : Words) (m : Block) : Words := Vector.zipWith (· + ·) h (rounds m h 80)

theorem schedule_of_lt (m : Block) {t : ℕ} (h : t < 16) : schedule m t = m[t] := by
  rw [schedule, dif_pos h]

theorem schedule_of_le (m : Block) {t : ℕ} (h : 16 ≤ t) :
    schedule m t = rotl (schedule m (t - 3) ^^^ schedule m (t - 8) ^^^ schedule m (t - 14) ^^^
      schedule m (t - 16)) 1 := by
  rw [schedule, dif_neg (not_lt.2 h)]

/-! ## Messages -/

/-- The initial state. -/
def iv : Words := #v[0x67452301, 0xefcdab89, 0x98badcfe, 0x10325476, 0xc3d2e1f0]

/-- The big-endian words of 64 bytes. -/
def toBlock (b : Bytes) : Block :=
  Vector.ofFn fun i => UInt32.ofNat (ofBE ((b.drop (4 * i)).take 4))

/-- A message, a one bit, as many zero bits as are needed, and the length of the message in bits. -/
def pad (m : Bytes) : Bytes :=
  m ++ 128 :: (List.replicate ((119 - m.length % 64) % 64) 0 ++ be 8 (8 * m.length))

/-- The blocks of the padded message. -/
def padded (m : Bytes) : List Block := (blocks 64 (by decide) (pad m)).map toBlock

def digest (m : Bytes) : Words := (padded m).foldl compress iv

/-! ## Padding -/

theorem length_pad (m : Bytes) : (pad m).length = m.length + 9 + (119 - m.length % 64) % 64 := by
  simp only [pad, List.length_append, List.length_cons, List.length_replicate, length_be]
  omega

theorem dvd_length_pad (m : Bytes) : 64 ∣ (pad m).length := by
  rw [length_pad]
  omega

/-- The length field. -/
theorem be_length_inj {m m' : Bytes} (hm : m.length < 2 ^ 61) (hm' : m'.length < 2 ^ 61)
    (h : be 8 (8 * m.length) = be 8 (8 * m'.length)) : m.length = m'.length := by
  have hof := congrArg ofBE h
  rw [ofBE_be_of_lt (by norm_num; omega), ofBE_be_of_lt (by norm_num; omega)] at hof
  omega

/-- **Different messages are padded differently.** -/
theorem pad_eq_iff {m m' : Bytes} (hm : m.length < 2 ^ 61) (hm' : m'.length < 2 ^ 61) :
    pad m = pad m' ↔ m = m' := by
  refine ⟨fun h => ?_, fun h => h ▸ rfl⟩
  have hlen := congrArg List.length h
  simp only [pad, ← List.cons_append, ← List.append_assoc] at h
  obtain ⟨hfront, hback⟩ := List.append_inj' h (by rw [length_be, length_be])
  have hsize := be_length_inj hm hm' hback
  rw [hsize] at hfront
  exact List.append_cancel_right hfront

/-- The last block of a padded message ends with the length field. -/
theorem exists_blocks_pad (m : Bytes) : ∃ bs b, blocks 64 (by decide) (pad m) = bs ++ [b] ∧
    b.length = 64 ∧ b.drop 56 = be 8 (8 * m.length) := by
  have hflat := flatten_blocks (n := 64) (by decide) (dvd_length_pad m)
  have hlen := length_pad m
  rcases List.eq_nil_or_concat' (blocks 64 (by decide) (pad m)) with h | ⟨bs, b, h⟩
  · rw [h, List.flatten_nil] at hflat
    rw [← hflat, List.length_nil] at hlen
    omega
  · have hb : b.length = 64 := length_of_mem_blocks (h ▸ List.mem_concat_self)
    refine ⟨bs, b, h, hb, ?_⟩
    rw [h, List.flatten_append, List.flatten_singleton, ← List.take_append_drop 56 b, pad,
      ← List.cons_append, ← List.append_assoc, ← List.append_assoc] at hflat
    refine (List.append_inj' hflat ?_).2
    rw [List.length_drop, hb, length_be]

/-- The words of a block determine its bytes. -/
theorem toBlock_inj {b b' : Bytes} (hb : b.length = 64) (hb' : b'.length = 64)
    (h : toBlock b = toBlock b') : b = b' := by
  have hword : ∀ i < 16, (b.drop (4 * i)).take 4 = (b'.drop (4 * i)).take 4 := by
    intro i hi
    have hlen : ∀ {c : Bytes}, c.length = 64 → ((c.drop (4 * i)).take 4).length = 4 := by
      intro c hc
      rw [List.length_take, List.length_drop]
      omega
    have hget := congrArg (fun v : Block => (v[i]).toNat) h
    simp only [toBlock, Vector.getElem_ofFn, UInt32.toNat_ofNat'] at hget
    have hlt := ofBE_lt ((b.drop (4 * i)).take 4)
    have hlt' := ofBE_lt ((b'.drop (4 * i)).take 4)
    rw [hlen hb] at hlt
    rw [hlen hb'] at hlt'
    rw [Nat.mod_eq_of_lt (by omega), Nat.mod_eq_of_lt (by omega)] at hget
    rw [← be_ofBE_of_length (hlen hb), hget, be_ofBE_of_length (hlen hb')]
  refine List.ext_getElem (hb.trans hb'.symm) fun j hj hj' => ?_
  have hpart := hword (j / 4) (by omega)
  have hentry := congrArg (fun l : Bytes => l[j % 4]?) hpart
  simp only [List.getElem?_take, List.getElem?_drop, Nat.mod_lt j (show 0 < 4 by decide),
    Nat.div_add_mod, if_true] at hentry
  rwa [List.getElem?_eq_getElem hj, List.getElem?_eq_getElem hj', Option.some_inj] at hentry

theorem map_toBlock_inj {bs bs' : List Bytes} (h : ∀ b ∈ bs, b.length = 64)
    (h' : ∀ b ∈ bs', b.length = 64) (hmap : bs.map toBlock = bs'.map toBlock) : bs = bs' := by
  induction bs generalizing bs' with
  | nil => exact (List.map_eq_nil_iff.1 hmap.symm).symm
  | cons b bs ih =>
    cases bs' with
    | nil => cases hmap
    | cons b' bs' =>
      obtain ⟨hhead, htail⟩ := List.cons_eq_cons.1 hmap
      rw [toBlock_inj (h b List.mem_cons_self) (h' b' List.mem_cons_self) hhead,
        ih (fun c hc => h c (List.mem_cons_of_mem b hc))
          (fun c hc => h' c (List.mem_cons_of_mem b' hc)) htail]

/-! ## Collisions -/

/-- **Two messages with the same digest contain two colliding calls of `compress`.** -/
theorem exists_collide_of_digest_eq {m m' : Bytes} (hm : m.length < 2 ^ 61)
    (hm' : m'.length < 2 ^ 61) (hne : m ≠ m') (h : digest m = digest m') :
    ∃ x ∈ calls compress iv (padded m), ∃ y ∈ calls compress iv (padded m'),
      Collide compress x y := by
  obtain ⟨bs, b, hbs, hb, hlast⟩ := exists_blocks_pad m
  obtain ⟨bs', b', hbs', hb', hlast'⟩ := exists_blocks_pad m'
  have hall : ∀ c ∈ bs ++ [b], c.length = 64 := fun c hc => length_of_mem_blocks (hbs ▸ hc)
  have hall' : ∀ c ∈ bs' ++ [b'], c.length = 64 := fun c hc => length_of_mem_blocks (hbs' ▸ hc)
  have hpadded : padded m = bs.map toBlock ++ [toBlock b] := by
    rw [padded, hbs, List.map_append, List.map_singleton]
  have hpadded' : padded m' = bs'.map toBlock ++ [toBlock b'] := by
    rw [padded, hbs', List.map_append, List.map_singleton]
  rw [digest, digest, hpadded, hpadded'] at h
  rw [hpadded, hpadded']
  refine exists_collide (fun heq => hne ?_) (fun heq => ?_) h
  · -- the blocks are those of the padded messages, which are different
    have hblocks : bs ++ [b] = bs' ++ [b'] :=
      map_toBlock_inj hall hall' (by simpa only [List.map_append, List.map_singleton] using heq)
    have hpad := congrArg List.flatten hblocks
    rw [← hbs, ← hbs', flatten_blocks _ (dvd_length_pad m),
      flatten_blocks _ (dvd_length_pad m')] at hpad
    exact (pad_eq_iff hm hm').1 hpad
  · -- equal last blocks have equal length fields
    have hsize : m.length = m'.length := by
      rw [toBlock_inj hb hb' heq, hlast'] at hlast
      exact (be_length_inj hm' hm hlast).symm
    have hcount := length_blocks (n := 64) (by decide) (dvd_length_pad m)
    have hcount' := length_blocks (n := 64) (by decide) (dvd_length_pad m')
    rw [hbs, List.length_append, List.length_singleton] at hcount
    rw [hbs', List.length_append, List.length_singleton] at hcount'
    have hlen := length_pad m
    have hlen' := length_pad m'
    rw [List.length_map, List.length_map]
    rw [hsize] at hlen
    omega

end Onion5.SecureHash
