import Onion5.Common.TcpClient

/-!
# Frames that are not intact

What `recv` makes of any bytes that a peer sends and of any way in which the network cuts them, and
what `send_file` makes of any file.

A read returns what has arrived, which may be a part of what it asks for: of the size field
(`Conn.sizeBytes`), and of the payload, of which it may also return more than is left. `Conn.reads`
is what a number of reads return together.

* `header_iff`: the size is decoded exactly when the bytes of the field that the read misses are
  zero.
* `recv_returns_iff`: `recv` returns exactly when some number of reads return as much as was
  declared, and no more than an `int` counts.
* `withinDeclared_iff`: it keeps to the size declared exactly when a read ends where the payload
  does.
* `announces_iff`: `send_file` announces what it sends exactly when there is a file shorter than
  `2 ^ 31` bytes that can be read, or that is empty.
-/

namespace Onion5

/-! ## Reads -/

namespace Conn

/-- What `k` reads return together, and the connection after them. -/
def reads (len : ℕ) : ℕ → Conn → Bytes × Conn
  | 0, conn => ([], conn)
  | k + 1, conn =>
    let r := reads len k (conn.read len).2
    ((conn.read len).1.getD [] ++ r.1, r.2)

/-- The number of bytes that `k` reads of a whole block return. -/
def taken (k : ℕ) (conn : Conn) : ℕ := (conn.reads BUFSIZ k).1.length

/-- The bytes that are still to be read. -/
def unread (conn : Conn) : Bytes := (conn.map (·.getD [])).flatten

theorem unread_map_some (segs : List Bytes) : unread (segs.map some) = segs.flatten := by
  simp [unread]

theorem reads_succ {len k : ℕ} {conn conn' : Conn} {got : Bytes}
    (h : conn.read len = (some got, conn')) :
    conn.reads len (k + 1) = (got ++ (conn'.reads len k).1, (conn'.reads len k).2) := by
  simp only [reads, h, Option.getD_some]

/-- Nothing is lost between reads. -/
theorem reads_map_some (len k : ℕ) (segs : List Bytes) : ∃ (got : Bytes) (rest : List Bytes),
    reads len k (segs.map some) = (got, rest.map some) ∧ got ++ rest.flatten = segs.flatten := by
  induction k generalizing segs with
  | zero => exact ⟨[], segs, rfl, rfl⟩
  | succ k ih =>
    obtain ⟨got, rest, hread, -, hcat⟩ := read_map_some len segs
    obtain ⟨got', rest', hreads, hcat'⟩ := ih rest
    refine ⟨got ++ got', rest', ?_, by rw [List.append_assoc, hcat', hcat]⟩
    rw [reads_succ hread, hreads]

@[simp] theorem taken_zero (conn : Conn) : conn.taken 0 = 0 := rfl

theorem taken_succ {k : ℕ} {conn conn' : Conn} {got : Bytes}
    (h : conn.read BUFSIZ = (some got, conn')) :
    conn.taken (k + 1) = got.length + conn'.taken k := by
  simp only [taken, reads_succ h, List.length_append]

/-- At the end of the stream there is nothing. -/
theorem taken_nil (k : ℕ) : taken k [] = 0 := by
  induction k with
  | zero => rfl
  | succ k ih => rw [taken_succ (show Conn.read BUFSIZ [] = (some [], []) from rfl), ih]; rfl

/-- Reading on returns no less. -/
theorem taken_le {j k : ℕ} (h : j ≤ k) (segs : List Bytes) :
    taken j (segs.map some) ≤ taken k (segs.map some) := by
  induction j generalizing k segs with
  | zero => exact Nat.zero_le _
  | succ j ih =>
    obtain ⟨k, rfl⟩ := Nat.exists_eq_add_of_lt h
    obtain ⟨got, rest, hread, -⟩ := read_map_some BUFSIZ segs
    rw [taken_succ hread, taken_succ hread]
    exact Nat.add_le_add_left (ih (Nat.le_add_right j k) rest) _

/-- The number of reads that it takes to get `n` bytes. -/
theorem exists_isLeast {n : ℕ} {conn : Conn} (h : ∃ k, n ≤ conn.taken k) :
    ∃ k, IsLeast {k | n ≤ conn.taken k} k :=
  ⟨Nat.find h, Nat.isLeast_find h⟩

end Conn

/-! ## The loop of `recv` -/

/-- **Turns of the loop**: as long as the size declared is not reached, it goes on. -/
theorem recvLoop_reads {payloadSize offset : ℕ} (received : Bytes) {segs : List Bytes} {k : ℕ}
    (hlt : ∀ j < k, offset + Conn.taken j (segs.map some) < payloadSize)
    (hle : payloadSize ≤ offset + Conn.taken k (segs.map some))
    (hint : offset + Conn.taken k (segs.map some) < 2 ^ 31) :
    recvLoop payloadSize offset received (segs.map some) =
      .ok (offset + Conn.taken k (segs.map some),
        received ++ (Conn.reads BUFSIZ k (segs.map some)).1,
        (Conn.reads BUFSIZ k (segs.map some)).2) := by
  induction k generalizing offset received segs with
  | zero =>
    rw [Conn.taken_zero, Nat.add_zero] at hle ⊢
    rw [recvLoop_done hle, Conn.reads, List.append_nil]
  | succ k ih =>
    have h : offset < payloadSize := hlt 0 (Nat.succ_pos k)
    have hne : segs.map some ≠ [] := by
      intro hnil
      rw [hnil, Conn.taken_nil] at hle
      exact absurd h (not_lt.2 hle)
    obtain ⟨got, rest, hread, -, -⟩ := Conn.read_map_some BUFSIZ segs
    rw [Conn.taken_succ hread, ← Nat.add_assoc] at hint hle
    rw [recvLoop_step h received hne hread (by omega), ih (received ++ got) (fun j hj => ?_) hle
      hint, Conn.taken_succ hread, Conn.reads_succ hread, List.append_assoc, Nat.add_assoc]
    have hj' := hlt (j + 1) (Nat.succ_lt_succ hj)
    rwa [Conn.taken_succ hread, ← Nat.add_assoc] at hj'

/-- A loop that ends has reached the size declared. -/
theorem exists_taken_of_recvLoop {payloadSize offset : ℕ} (ho : offset < 2 ^ 31) {received : Bytes}
    {segs : List Bytes} {r : ℕ × Bytes × Conn}
    (h : recvLoop payloadSize offset received (segs.map some) = .ok r) :
    ∃ k, payloadSize ≤ offset + Conn.taken k (segs.map some) ∧
      offset + Conn.taken k (segs.map some) < 2 ^ 31 := by
  induction hk : Conn.todo (segs.map some) using Nat.strongRecOn
    generalizing offset received segs with
  | ind n ih =>
    by_cases hlt : offset < payloadSize
    · by_cases hnil : segs.map some = []
      · rw [recvLoop, if_pos hlt, dif_pos hnil] at h
        cases h
      · obtain ⟨got, rest, hread, -, -⟩ := Conn.read_map_some BUFSIZ segs
        have htodo := Conn.todo_read_lt hnil (show 0 < BUFSIZ by decide)
        rw [hread, hk] at htodo
        by_cases hfit : offset + got.length < 2 ^ 31
        · rw [recvLoop_step hlt received hnil hread hfit] at h
          obtain ⟨k, hle, hint⟩ := ih _ htodo hfit h rfl
          refine ⟨k + 1, ?_⟩
          rw [Conn.taken_succ hread, ← Nat.add_assoc]
          exact ⟨hle, hint⟩
        · rw [recvLoop, if_pos hlt, dif_neg hnil, hread] at h
          simp only [addOffset_of_le (not_lt.1 hfit)] at h
          cases h
    · exact ⟨0, not_lt.1 hlt, ho⟩

/-- **The loop ends** after the first reads that reach the size declared, when an `int` counts what
they return. -/
theorem recvLoop_of_isLeast {payloadSize : ℕ} {segs : List Bytes} {k : ℕ}
    (hk : IsLeast {k | payloadSize ≤ Conn.taken k (segs.map some)} k)
    (hint : Conn.taken k (segs.map some) < 2 ^ 31) :
    recvLoop payloadSize 0 [] (segs.map some) =
      .ok (Conn.taken k (segs.map some), Conn.reads BUFSIZ k (segs.map some)) := by
  have hle : payloadSize ≤ 0 + Conn.taken k (segs.map some) := (Nat.zero_add _).symm ▸ hk.1
  rw [recvLoop_reads [] (fun j hj => ?_) hle ((Nat.zero_add _).symm ▸ hint), Nat.zero_add,
    List.nil_append]
  by_contra hj'
  rw [Nat.zero_add, not_lt] at hj'
  exact absurd (hk.2 hj') (not_le.2 hj)

/-- Only so. -/
theorem recvLoop_eq_ok {payloadSize : ℕ} {segs : List Bytes} {r : ℕ × Bytes × Conn}
    (h : recvLoop payloadSize 0 [] (segs.map some) = .ok r) :
    ∃ k, IsLeast {k | payloadSize ≤ Conn.taken k (segs.map some)} k ∧
      Conn.taken k (segs.map some) < 2 ^ 31 ∧
      r = (Conn.taken k (segs.map some), Conn.reads BUFSIZ k (segs.map some)) := by
  obtain ⟨j, hj, hint⟩ := exists_taken_of_recvLoop (by decide) h
  rw [Nat.zero_add] at hj hint
  obtain ⟨k, hk⟩ := Conn.exists_isLeast ⟨j, hj⟩
  have hlt := (Conn.taken_le (hk.2 hj) segs).trans_lt hint
  refine ⟨k, hk, hlt, ?_⟩
  cases (recvLoop_of_isLeast hk hlt).symm.trans h
  rfl

/-! ## The header of a frame -/

namespace Conn

/-- The type that `recv` reads. -/
def type (conn : Conn) : UInt8 := (overlay ((conn.read 1).1.getD []) [0]).headD 0

/-- What the read of the size field returns. -/
def sizeBytes (conn : Conn) : Bytes := ((conn.read 1).2.read 8).1.getD []

/-- The size that `recv` reads: bytes of the field that the read does not return are zero. -/
def declared (conn : Conn) : ℕ := ofBE (overlay conn.sizeBytes (List.replicate 8 0))

/-- The connection after the two reads of the header. -/
def payload (conn : Conn) : Conn := ((conn.read 1).2.read 8).2

theorem exists_payload (segs : List Bytes) :
    ∃ rest : List Bytes, payload (segs.map some) = rest.map some := by
  obtain ⟨got, rest, hread, -⟩ := read_map_some 1 segs
  obtain ⟨got', rest', hread', -⟩ := read_map_some 8 rest
  exact ⟨rest', by rw [payload, hread, hread']⟩

/-- The header of a stream: the type arrives, and a part of the size. -/
theorem header_of_flatten {type : UInt8} {stream : Bytes} {segs : List Bytes}
    (hne : ∀ seg ∈ segs, seg ≠ []) (hsegs : segs.flatten = type :: stream) :
    Conn.type (segs.map some) = type ∧ ∃ rest : List Bytes,
      payload (segs.map some) = rest.map some ∧ (sizeBytes (segs.map some)).length ≤ 8 ∧
      sizeBytes (segs.map some) ++ rest.flatten = stream := by
  have hread : ∃ rest : List Bytes, Conn.read 1 (segs.map some) = (some [type], rest.map some) ∧
      rest.flatten = stream := by
    match segs with
    | [] => cases hsegs
    | [] :: segs => exact absurd rfl (hne [] List.mem_cons_self)
    | [c] :: segs =>
      rw [List.flatten_cons, List.singleton_append] at hsegs
      cases hsegs
      exact ⟨segs, read_of_le (by simp) _, rfl⟩
    | (c :: c' :: seg) :: segs =>
      rw [List.flatten_cons, List.cons_append] at hsegs
      cases hsegs
      exact ⟨(c' :: seg) :: segs, read_of_lt (by simp) _, rfl⟩
  obtain ⟨rest, hread, rfl⟩ := hread
  obtain ⟨got, rest', hread', hlen, hcat⟩ := read_map_some 8 rest
  have hsize : sizeBytes (segs.map some) = got := by rw [sizeBytes, hread, hread']; rfl
  refine ⟨by rw [Conn.type, hread]; rfl, rest', by rw [payload, hread, hread'], ?_⟩
  rw [hsize]
  exact ⟨hlen, hcat⟩

/-- What is declared when a part of the size field is missing. -/
theorem declared_eq {conn : Conn} {n : ℕ} (hn : n < 256 ^ 8) {stream rest : Bytes}
    (hlen : conn.sizeBytes.length ≤ 8) (hcat : conn.sizeBytes ++ rest = be 8 n ++ stream) :
    conn.declared = n / 256 ^ (8 - conn.sizeBytes.length) * 256 ^ (8 - conn.sizeBytes.length) := by
  have htake : conn.sizeBytes = (be 8 n).take conn.sizeBytes.length := by
    have h := congrArg (List.take conn.sizeBytes.length) hcat
    rwa [List.take_left, List.take_append_of_le_length (by rwa [length_be])] at h
  have hdrop : ((be 8 n).drop conn.sizeBytes.length).length = 8 - conn.sizeBytes.length := by
    rw [List.length_drop, length_be]
  have hsplit := ofBE_append ((be 8 n).take conn.sizeBytes.length)
    ((be 8 n).drop conn.sizeBytes.length)
  have hlt := ofBE_lt ((be 8 n).drop conn.sizeBytes.length)
  rw [List.take_append_drop, ofBE_be_of_lt hn, ← htake, hdrop] at hsplit
  rw [hdrop] at hlt
  have hdiv : n / 256 ^ (8 - conn.sizeBytes.length) = ofBE conn.sizeBytes := by
    rw [hsplit, Nat.add_comm, Nat.add_mul_div_right _ _ (Nat.pow_pos (by decide)),
      Nat.div_eq_of_lt hlt, Nat.zero_add]
  rw [hdiv, declared, overlay, ofBE_append, List.drop_replicate, ofBE_replicate,
    List.length_replicate, Nat.add_zero]

end Conn

/-- **The size is decoded** exactly when the bytes of its field that the read does not return are
zero. -/
theorem header_iff {type : UInt8} {n : ℕ} (hn : n < 2 ^ 31) {rest : Bytes} {segs : List Bytes}
    (hne : ∀ seg ∈ segs, seg ≠ []) (hsegs : segs.flatten = [type] ++ be 8 n ++ rest) :
    (Conn.type (segs.map some) = type ∧ Conn.declared (segs.map some) = n) ↔
      256 ^ (8 - (Conn.sizeBytes (segs.map some)).length) ∣ n := by
  rw [List.append_assoc, List.singleton_append] at hsegs
  obtain ⟨htype, rest', -, hlen, hcat⟩ := Conn.header_of_flatten hne hsegs
  rw [Conn.declared_eq (by omega) hlen hcat, Nat.dvd_iff_div_mul_eq]
  exact and_iff_right htype

theorem header_iff_example :
    Conn.type [some [0, 0], some (be 7 258), some [7]] = 0 ∧
      Conn.declared [some [0, 0], some (be 7 258), some [7]] ≠ 258 := by
  have hne : ∀ seg ∈ [[0, 0], be 7 258, [7]], seg ≠ [] := by decide
  have hsegs : [[0, 0], be 7 258, [7]].flatten = [0] ++ be 8 258 ++ [7] := by decide
  have htype : Conn.type [some [0, 0], some (be 7 258), some [7]] = 0 := by decide
  exact ⟨htype, fun h => absurd ((header_iff (by decide) hne hsegs).1 ⟨htype, h⟩) (by decide)⟩

/-- A header whose size field arrives in two parts. -/
theorem header_split :
    ¬ ∀ (type : UInt8) (n : ℕ) (rest : Bytes) (segs : List Bytes), n < 2 ^ 31 →
      (∀ seg ∈ segs, seg ≠ []) → segs.flatten = [type] ++ be 8 n ++ rest →
        Conn.type (segs.map some) = type ∧ Conn.declared (segs.map some) = n := by
  intro h
  have hone := h 0 1 [] [[0, 0], be 7 1] (by decide) (by decide) (by decide)
  exact absurd hone.2 (by decide)

/-! ## Receiving -/

/-- What `recv` does with the header it has read. -/
theorem recv_eq (temp : Bytes) (fs : Files) (conn : Conn) :
    recv temp fs conn = (recvLoop conn.declared 0 [] conn.payload >>= fun r => pure
      { ret := r.1
        data := if conn.type = 0 then r.2.1 else if conn.type = 1 then temp else []
        fs := if conn.type = 1 then fs.put temp r.2.1 else fs
        conn := r.2.2 }) := rfl

/-- A call that returns has made the first reads that return as much as is declared. -/
theorem recv_eq_ok {temp : Bytes} {fs : Files} {segs : List Bytes} {r : Received}
    (h : recv temp fs (segs.map some) = .ok r) :
    ∃ (k : ℕ) (got : Bytes) (rest : List Bytes),
      IsLeast {k | Conn.declared (segs.map some) ≤ (Conn.payload (segs.map some)).taken k} k ∧
      (Conn.payload (segs.map some)).reads BUFSIZ k = (got, rest.map some) ∧
      got ++ rest.flatten = (Conn.payload (segs.map some)).unread ∧
      got.length < 2 ^ 31 ∧
      r = { ret := got.length
            data := if Conn.type (segs.map some) = 0 then got
              else if Conn.type (segs.map some) = 1 then temp else []
            fs := if Conn.type (segs.map some) = 1 then fs.put temp got else fs
            conn := rest.map some } := by
  obtain ⟨rest, hrest⟩ := Conn.exists_payload segs
  rw [recv_eq] at h
  obtain ⟨l, hl, h⟩ := Run.bind_eq_ok.1 h
  rw [hrest] at hl ⊢
  obtain ⟨k, hk, hint, rfl⟩ := recvLoop_eq_ok hl
  obtain ⟨got, rest', hreads, hcat⟩ := Conn.reads_map_some BUFSIZ k rest
  have htaken : Conn.taken k (rest.map some) = got.length := by rw [Conn.taken, hreads]
  rw [htaken] at hint
  rw [htaken, hreads] at h
  cases h
  exact ⟨k, got, rest', hk, hreads, by rw [Conn.unread_map_some, hcat], hint, rfl⟩

/-- **`recv` returns** exactly when some number of reads return what was declared, and an `int`
counts it. -/
theorem recv_returns_iff (temp : Bytes) (fs : Files) (segs : List Bytes) :
    (∃ r, recv temp fs (segs.map some) = .ok r) ↔
      ∃ k, Conn.declared (segs.map some) ≤ (Conn.payload (segs.map some)).taken k ∧
        (Conn.payload (segs.map some)).taken k < 2 ^ 31 := by
  obtain ⟨rest, hrest⟩ := Conn.exists_payload segs
  constructor
  · rintro ⟨r, hr⟩
    obtain ⟨k, got, rest, hk, hreads, -, hint, -⟩ := recv_eq_ok hr
    exact ⟨k, hk.1, by rwa [Conn.taken, hreads]⟩
  · rintro ⟨j, hj, hint⟩
    rw [hrest] at hj hint
    obtain ⟨k, hk⟩ := Conn.exists_isLeast ⟨j, hj⟩
    have hloop := recvLoop_of_isLeast hk ((Conn.taken_le (hk.2 hj) rest).trans_lt hint)
    simp only [recv_eq, hrest, hloop, Run.ok_bind]
    exact ⟨_, rfl⟩

/-- A peer that closes before it has sent what it declared. -/
theorem recv_closed :
    ¬ ∀ segs : List Bytes, (∀ seg ∈ segs, seg ≠ []) →
      ∃ r, recv (exampleTemppath 0) Files.blank (segs.map some) = .ok r := by
  intro h
  obtain ⟨r, hr⟩ := h [[0], be 8 1] (by decide)
  have hdiv : recv (exampleTemppath 0) Files.blank [some [0], some (be 8 1)] =
      .error .diverges := by
    have hloop : recvLoop 1 0 [] [] = .error .diverges := by
      rw [recvLoop, if_pos Nat.one_pos, dif_pos rfl]
    rw [recv_eq, show Conn.declared [some [0], some (be 8 1)] = 1 by decide,
      show Conn.payload [some [0], some (be 8 1)] = [] by rfl, hloop]
    rfl
  cases hdiv.symm.trans hr

/-- What is delivered: the string of a frame of type 0, the content of the file of a frame of
type 1. -/
def Received.delivered (type : UInt8) (r : Received) : Bytes :=
  if type = 0 then r.data else if type = 1 then (r.fs.openRead r.data).getD [] else []

/-- The size declared is binding: no more than `n` bytes are counted and delivered, and what
follows the first `n` bytes of the payload stays on the connection. -/
structure WithinDeclared (type : UInt8) (n : ℕ) (payload : Bytes) (r : Received) : Prop where
  ret_le : r.ret ≤ n
  length_le : (r.delivered type).length ≤ n
  unread : payload.drop n <:+ r.conn.unread

/-- What is delivered is a part of what the reads return. -/
theorem length_delivered_le {temp : Bytes} {fs : Files} (htemp : fs.Fresh [temp]) (type : UInt8)
    (got : Bytes) (conn : Conn) :
    (Received.delivered type {
      ret := got.length
      data := if type = 0 then got else if type = 1 then temp else []
      fs := if type = 1 then fs.put temp got else fs
      conn := conn }).length ≤ got.length := by
  by_cases h0 : type = 0
  · simp [Received.delivered, h0]
  · by_cases h1 : type = 1
    · simp [Received.delivered, h1, htemp.openRead_put List.mem_cons_self]
    · simp [Received.delivered, h0, h1]

/-- **The size declared is binding** exactly when some number of reads return as much as the bytes
of the size field say that arrive in one read, and no more than was declared. -/
theorem withinDeclared_iff {temp : Bytes} {fs : Files} (htemp : fs.Fresh [temp]) {type : UInt8}
    {n : ℕ} (hn : n < 256 ^ 8) {payload : Bytes} {segs : List Bytes} (hne : ∀ seg ∈ segs, seg ≠ [])
    (hsegs : segs.flatten = [type] ++ be 8 n ++ payload) {r : Received}
    (hr : recv temp fs (segs.map some) = .ok r) :
    WithinDeclared type n payload r ↔
      ∃ k, n - n % 256 ^ (8 - (Conn.sizeBytes (segs.map some)).length) ≤
          (Conn.payload (segs.map some)).taken k ∧
        (Conn.payload (segs.map some)).taken k ≤ n := by
  rw [List.append_assoc, List.singleton_append] at hsegs
  obtain ⟨htype, rest, hrest, hlen, hcat⟩ := Conn.header_of_flatten hne hsegs
  have hdeclared := Conn.declared_eq hn hlen hcat
  rw [Nat.div_mul_self_eq_mod_sub_self] at hdeclared
  obtain ⟨k, got, rest', hk, hreads, hunread, -, rfl⟩ := recv_eq_ok hr
  rw [hrest] at hk hreads hunread ⊢
  rw [Conn.unread_map_some] at hunread
  rw [hdeclared] at hk
  have htaken : Conn.taken k (rest.map some) = got.length := by rw [Conn.taken, hreads]
  constructor
  · exact fun h => ⟨k, hk.1, htaken ▸ h.ret_le⟩
  · rintro ⟨j, hj, hle⟩
    have hgot : got.length ≤ n := by
      rw [← htaken]
      exact (Conn.taken_le (hk.2 hj) rest).trans hle
    rw [htype]
    refine ⟨hgot, (length_delivered_le htemp type got _).trans hgot, ?_⟩
    have hrest' : rest.flatten <:+ be 8 n ++ payload := hcat ▸ List.suffix_append _ _
    have hpayload : payload <:+ rest.flatten := by
      refine List.suffix_of_suffix_length_le (List.suffix_append _ _) hrest' ?_
      have := congrArg List.length hcat
      simp only [List.length_append, length_be] at this
      omega
    rw [Conn.unread_map_some]
    refine List.suffix_of_suffix_length_le ((List.drop_suffix n payload).trans hpayload)
      (hunread ▸ List.suffix_append _ _) ?_
    have := congrArg List.length hunread
    have := hpayload.length_le
    simp only [List.length_append, List.length_drop] at *
    omega

/-- A string of one byte, by what the next segment holds. -/
theorem recv_one (temp : Bytes) (fs : Files) (seg : Bytes) (conn : Conn) (h : seg ≠ [])
    (hb : seg.length ≤ BUFSIZ) :
    recv temp fs (some [0] :: some (be 8 1) :: some seg :: conn) =
      .ok ⟨seg.length, seg, fs, conn⟩ := by
  have hpos := List.length_pos_of_ne_nil h
  have hint : 0 + seg.length < 2 ^ 31 := by
    unfold BUFSIZ at hb
    omega
  have hloop : recvLoop 1 0 [] (some seg :: conn) = .ok (seg.length, seg, conn) := by
    rw [recvLoop_step Nat.one_pos [] (List.cons_ne_nil _ _) (Conn.read_of_le hb conn) hint,
      recvLoop_done (by omega), Nat.zero_add, List.nil_append]
  rw [recv_eq, show Conn.declared (some [0] :: some (be 8 1) :: some seg :: conn) = 1 by rfl,
    show Conn.payload (some [0] :: some (be 8 1) :: some seg :: conn) = some seg :: conn by rfl,
    hloop]
  rfl

theorem withinDeclared_iff_example :
    ∃ r, recv (exampleTemppath 0) Files.blank
        [some [0], some (be 8 1), some (ascii "x"), some (ascii "y")] = .ok r ∧
      WithinDeclared 0 1 (ascii "xy") r := by
  have hr := recv_one (exampleTemppath 0) Files.blank (ascii "x") [some (ascii "y")] (by decide)
    (by decide)
  have hne : ∀ seg ∈ [[0], be 8 1, ascii "x", ascii "y"], seg ≠ [] := by decide
  have hsegs : [[0], be 8 1, ascii "x", ascii "y"].flatten = [0] ++ be 8 1 ++ ascii "xy" := by
    decide
  have hwithin := withinDeclared_iff Files.fresh_exampleTemppath (by decide) hne hsegs hr
  exact ⟨_, hr, hwithin.2 ⟨1, by decide, by decide⟩⟩

/-- One byte is declared, and two come in one segment. -/
theorem recv_coalesced :
    ¬ ∀ (temp : Bytes) (fs : Files) (type : UInt8) (n : ℕ) (payload : Bytes) (segs : List Bytes)
      (r : Received), fs.Fresh [temp] → n < 256 ^ 8 → (∀ seg ∈ segs, seg ≠ []) →
        segs.flatten = [type] ++ be 8 n ++ payload → recv temp fs (segs.map some) = .ok r →
          WithinDeclared type n payload r := by
  intro h
  have hr := recv_one (exampleTemppath 0) Files.blank (ascii "xy") [] (by decide) (by decide)
  have hwithin := h _ _ 0 1 (ascii "xy") [[0], be 8 1, ascii "xy"] _ Files.fresh_exampleTemppath
    (by decide) (by decide) (by decide) hr
  exact absurd hwithin.ret_le (by decide)

/-! ## Sending a file -/

/-- A loop that ends has written what `offset` counts, as much as was announced or more. -/
theorem sendFileLoop_eq_ok {payloadSize offset : ℕ} (ho : offset < 2 ^ 31) {is : InStream}
    {r : Bytes × ℕ} (h : sendFileLoop payloadSize offset is = .ok r) :
    payloadSize ≤ r.2 ∧ r.2 = offset + r.1.length ∧ r.2 < 2 ^ 31 := by
  induction hk : is.todo using Nat.strongRecOn generalizing offset is r with
  | ind n ih =>
    rw [sendFileLoop] at h
    split_ifs at h with hlt heof
    · have htodo := InStream.todo_read_lt (n := BUFSIZ) (by simpa using heof) (by decide)
      obtain ⟨offset', hadd, hrest⟩ := Run.bind_eq_ok.1 h
      obtain ⟨r', hr', hret⟩ := Run.bind_eq_ok.1 hrest
      by_cases hfit : offset + (is.read BUFSIZ).1.length < 2 ^ 31
      · rw [addOffset_of_lt hfit] at hadd
        cases hadd
        obtain ⟨hle, hlen, hint⟩ := ih _ (hk ▸ htodo) hfit hr' rfl
        cases hret
        rw [List.length_append]
        exact ⟨hle, by omega, hint⟩
      · rw [addOffset_of_le (not_lt.1 hfit)] at hadd
        cases hadd
    · cases h
      exact ⟨not_lt.1 hlt, rfl, ho⟩

/-- `send_file` announces the size of the file and sends as much, or the file cannot be read and it
sends no frame. -/
def Announces (path : Bytes) (fs : Files) : Prop :=
  ∃ (frame : Bytes) (ret : ℕ), sendFile path fs = .ok (frame, ret) ∧
    (fs.openRead path = none ∧ frame = [] ∨
      ∃ (content payload : Bytes) (n : ℕ), fs.get (cstr path) = some content ∧
        frame = [1] ++ be 8 n ++ payload ∧ n = payload.length ∧ n = content.length)

/-- What a call of `send_file` that returns has written. -/
theorem sendFile_eq_ok {path : Bytes} {fs : Files} {r : Bytes × ℕ} (h : sendFile path fs = .ok r) :
    ∃ payload : Bytes, r.1 = [1] ++ be 8 (toSize (getFileSize path fs)) ++ payload ∧
      toSize (getFileSize path fs) ≤ payload.length ∧ payload.length < 2 ^ 31 ∧
      (fs.openRead path = none → payload = []) := by
  rw [sendFile] at h
  obtain ⟨l, hl, h⟩ := Run.bind_eq_ok.1 h
  obtain ⟨hle, hlen, hint⟩ := sendFileLoop_eq_ok (by decide) hl
  rw [Nat.zero_add] at hlen
  rw [hlen] at hle hint
  cases h
  refine ⟨l.1, rfl, hle, hint, fun hnone => ?_⟩
  rw [hnone, sendFileLoop] at hl
  split_ifs at hl with _ heof
  · exact absurd rfl heof
  · cases hl
    rfl

/-- The frame of an empty file, which need not be readable. -/
theorem sendFile_empty {path : Bytes} {fs : Files} (hget : fs.get (cstr path) = some []) :
    sendFile path fs = .ok ([1] ++ be 8 0 ++ [], 0) := by
  have hsize : toSize (getFileSize path fs) = 0 := toSize_getFileSize hget (by decide)
  simp only [sendFile, hsize, sendFileLoop_done le_rfl, Run.ok_bind]
  rfl

/-- **`send_file` announces what it sends** exactly when there is a file of less than `2 ^ 31`
bytes, and it can be read or it is empty. -/
theorem announces_iff (path : Bytes) (fs : Files) :
    Announces path fs ↔ ∃ content : Bytes, fs.get (cstr path) = some content ∧
      content.length < 2 ^ 31 ∧ (fs.openRead path = some content ∨ content = []) := by
  constructor
  · rintro ⟨frame, ret, hsend, hcase⟩
    obtain ⟨sent, hframe, -, hint, hunread⟩ := sendFile_eq_ok hsend
    obtain ⟨-, hnil⟩ | ⟨content, payload, n, hget, hpayload, hn, hcontent⟩ := hcase
    · rw [hnil] at hframe
      cases hframe
    · have heq : sent = payload :=
        (List.append_inj (hframe.symm.trans hpayload) (by simp)).2
      rw [heq] at hint hunread
      refine ⟨content, hget, by omega, ?_⟩
      cases hopen : fs.openRead path with
      | none =>
        rw [hunread hopen, List.length_nil] at hn
        exact Or.inr (List.eq_nil_of_length_eq_zero (hcontent.symm.trans hn))
      | some content' =>
        rw [Files.openRead] at hopen
        split_ifs at hopen
        rw [← hopen, hget]
        exact Or.inl rfl
  · rintro ⟨content, hget, hlen, hopen | rfl⟩
    · exact ⟨_, _, sendFile_eq hopen hlen, Or.inr ⟨content, content, _, hget, rfl, rfl, rfl⟩⟩
    · exact ⟨_, _, sendFile_empty hget, Or.inr ⟨[], [], 0, hget, rfl, rfl, rfl⟩⟩

/-- A file that does not exist. -/
theorem not_announces_missing : ¬ Announces (ascii "p") Files.blank := by
  rintro ⟨frame, ret, hsend, -⟩
  obtain ⟨payload, -, hle, hint, -⟩ := sendFile_eq_ok hsend
  rw [toSize_getFileSize_none (by rfl)] at hle
  omega

end Onion5
