import Onion5.Server.RestClient
import Onion5.Server.Store
import Onion5.Common.TcpClient
import Onion5.Foundations.Traced
import Mathlib.Data.List.DropRight

/-!
# The broadcast server

The model of `boradcast_listener` and `send_list`: a datagram announces a node, which is registered
with the REST server under the address the datagram came from, and the node is sent the list.

* `datagramId_eq`: the id that a datagram carries.
* `receivesExactly_iff`: which datagrams are received as `advertise` sends them, within the buffer.
* `announce_eq`: what a datagram does to the directory.
* `announce_honest_iff`: exactly when it registers no address but that of its sender.
-/

namespace Onion5

/-! ## Datagrams -/

/-- An IPv4 address. -/
structure InAddr where
  a : UInt8
  b : UInt8
  c : UInt8
  d : UInt8
  deriving DecidableEq

/-- `inet_ntoa`. -/
def inetNtoa (addr : InAddr) : Bytes :=
  decimal addr.a.toNat ++ 46 :: (decimal addr.b.toNat ++ 46 :: (decimal addr.c.toNat ++
    46 :: decimal addr.d.toNat))

/-- The id extracted from a datagram, of which `recvfrom` stores `BUFSIZ` bytes; empty when there
is none. The terminator stored after a datagram of `BUFSIZ` bytes falls one past the buffer. -/
def datagramId (payload : Bytes) : Run Bytes :=
  let buff := payload.take BUFSIZ
  if buff.take 2 = BROADCAST_PREFIX then do
    let size := toInt buff.length
    let post ← substr buff (toSize (size - 2)) 2
    if post = BROADCAST_POSTFIX then substr buff 2 (toSize (size - 4)) else return []
  else return []

/-- `github_id.erase(find_if(rbegin, rend, not1(isspace)).base(), end)`. -/
def trimRight (githubId : Bytes) : Bytes := githubId.rdropWhile isSpace

/-- A turn of the loop of `boradcast_listener`, up to `send_list`: the directory after a datagram
from `addr`. -/
def announce (curl : Curl) (serialize : List Node → Bytes) (memory : Bytes) (addr : InAddr)
    (payload : Bytes) (m : NodeManage) : Run NodeManage := do
  let githubId ← datagramId payload
  if githubId = [] then return m
  else do
    let r ← requestHandler serialize
      (.opened (addNode curl (trimRight githubId) (inetNtoa addr))) memory m
    return r.1

/-- `send_list`: the frame sent for what the GET request returns, if it is sent. -/
def sendList (content : Bytes) : Run (Option Bytes) :=
  if content = [] then return none
  else do
    let r ← send (LIST_PREFIX ++ content ++ LIST_POSTFIX)
    return some r.1

/-! ## The id of a datagram -/

/-- The markers overlap in one string of three bytes. -/
theorem eq_of_overlap {buff : Bytes} (hpre : buff.take 2 = BROADCAST_PREFIX)
    (hpost : buff.drop (buff.length - 2) = BROADCAST_POSTFIX) (hlen : buff.length < 4) :
    buff = [0xBA, 0xAA, 0xAD] := by
  rcases overlap_cases hpre hpost hlen with ⟨-, h, -⟩ | ⟨h, -⟩
  · exact absurd h (by decide)
  · exact h

/-- **The id is what stands between the markers**, except that the three bytes in which the markers
overlap carry the last one. -/
theorem datagramId_eq (payload : Bytes) : datagramId payload =
    .ok (if payload.take BUFSIZ = [0xBA, 0xAA, 0xAD] then [0xAD]
      else (unwrap BROADCAST_PREFIX BROADCAST_POSTFIX (payload.take BUFSIZ)).getD []) := by
  have hlen : (payload.take BUFSIZ).length < 2 ^ 31 :=
    lt_of_le_of_lt (List.length_take_le _ _) (by decide)
  rw [datagramId]
  generalize payload.take BUFSIZ = buff at hlen
  by_cases hpre : buff.take 2 = BROADCAST_PREFIX
  · have h2 := two_le_length rfl hpre
    simp only [hpre, if_true, substr_last_two hlen h2, Run.ok_bind]
    by_cases hpost : buff.drop (buff.length - 2) = BROADCAST_POSTFIX
    · rw [if_pos hpost]
      by_cases h4 : 4 ≤ buff.length
      · have hne : buff ≠ [0xBA, 0xAA, 0xAD] := by
          rintro rfl
          exact absurd h4 (by decide)
        rw [if_neg hne, substr_between hlen h4, unwrap, if_pos ⟨hpre, h4, hpost⟩]
        rfl
      · obtain rfl := eq_of_overlap hpre hpost (not_le.1 h4)
        rfl
    · have hne : buff ≠ [0xBA, 0xAA, 0xAD] := by
        rintro rfl
        exact hpost rfl
      rw [if_neg hpost, if_neg hne, unwrap, if_neg fun h => hpost h.2.2]
      rfl
  · have hne : buff ≠ [0xBA, 0xAA, 0xAD] := by
      rintro rfl
      exact hpre rfl
    simp only [hpre, if_false, hne]
    rw [unwrap, if_neg fun h => hpre h.1]
    rfl

/-- The datagrams that carry an id with a NUL byte. -/
theorem datagramId_eq_ok_of_zero_mem {payload githubId : Bytes} (h : 0 ∈ githubId) :
    datagramId payload = .ok githubId ↔
      payload.take BUFSIZ = BROADCAST_PREFIX ++ githubId ++ BROADCAST_POSTFIX := by
  rw [datagramId_eq, Except.ok.injEq, ← unwrap_eq_some_iff rfl rfl]
  split_ifs with hoverlap
  · have hnone : unwrap BROADCAST_PREFIX BROADCAST_POSTFIX [0xBA, 0xAA, 0xAD] = none := by decide
    rw [hoverlap, hnone]
    refine iff_of_false ?_ (by simp)
    rintro rfl
    exact absurd h (by decide)
  · cases unwrap BROADCAST_PREFIX BROADCAST_POSTFIX (payload.take BUFSIZ) with
    | none =>
      refine iff_of_false ?_ (by simp)
      rintro rfl
      exact List.not_mem_nil h
    | some id => simp

theorem length_le_of_datagramId {payload githubId : Bytes} (h : datagramId payload = .ok githubId) :
    githubId.length ≤ BUFSIZ := by
  rw [datagramId_eq] at h
  cases h
  split_ifs
  · decide
  · cases hid : unwrap BROADCAST_PREFIX BROADCAST_POSTFIX (payload.take BUFSIZ) with
    | none => exact Nat.zero_le _
    | some id =>
      have hlen := congrArg List.length ((unwrap_eq_some_iff rfl rfl).1 hid)
      simp only [List.length_take, List.length_append] at hlen
      rw [Option.getD_some]
      omega

/-! ## The receive buffer -/

/-- `advertise`: the datagram that is broadcast. -/
def advertise (githubId : Bytes) : Bytes := BROADCAST_PREFIX ++ githubId ++ BROADCAST_POSTFIX

/-- A turn of `boradcast_listener` up to the trimming, with a note of the bytes of `buf` that it
stores to. -/
def receiveTraced (payload : Bytes) : Traced ℕ Stop Bytes := do
  let bufLen := min payload.length BUFSIZ
  -- `recvfrom`
  Traced.note (List.range bufLen)
  -- `buf[bufLen] = 0`
  Traced.note [bufLen]
  Traced.lift (datagramId payload)

theorem result_receiveTraced (payload : Bytes) :
    (receiveTraced payload).result = datagramId payload := by
  simp only [receiveTraced, Traced.result_bind, Traced.result_note, Traced.result_lift, Run.ok_bind]

theorem log_receiveTraced (payload : Bytes) :
    (receiveTraced payload).log = List.range (min payload.length BUFSIZ + 1) := by
  rw [List.range_succ]
  exact congrArg (List.range _ ++ ·) (List.append_nil _)

/-- The id that is found is what `advertise` has put between the markers, and only bytes of the
receive buffer are stored to. -/
structure ReceivesExactly (payload : Bytes) : Prop where
  exact : ∀ x, x ≠ [] → ((receiveTraced payload).result = .ok x ↔ payload = advertise x)
  within : ∀ i ∈ (receiveTraced payload).log, i < BUFSIZ

theorem datagramId_exact_iff {payload : Bytes} (hlen : payload.length ≤ BUFSIZ) :
    (∀ x, x ≠ [] → (datagramId payload = .ok x ↔ payload = advertise x)) ↔
      payload ≠ [0xBA, 0xAA, 0xAD] := by
  rw [datagramId_eq, List.take_of_length_le hlen]
  constructor
  · rintro h rfl
    exact absurd ((h [0xAD] (by decide)).1 rfl) (by decide)
  · intro hne x hx
    rw [if_neg hne, advertise, ← unwrap_eq_some_iff rfl rfl, Except.ok.injEq]
    cases unwrap BROADCAST_PREFIX BROADCAST_POSTFIX payload with
    | none => exact iff_of_false (Ne.symm hx) (by simp)
    | some y => simp

/-- **A datagram is received exactly**, unless it is the one in which the markers overlap or fills
the buffer. -/
theorem receivesExactly_iff (payload : Bytes) :
    ReceivesExactly payload ↔ payload ≠ [0xBA, 0xAA, 0xAD] ∧ payload.length < BUFSIZ := by
  constructor
  · rintro ⟨hexact, hwithin⟩
    have hlast := hwithin (min payload.length BUFSIZ) (by
      rw [log_receiveTraced]
      exact List.self_mem_range_succ)
    have hlen : payload.length < BUFSIZ := by omega
    rw [result_receiveTraced, datagramId_exact_iff hlen.le] at hexact
    exact ⟨hexact, hlen⟩
  · rintro ⟨hne, hlen⟩
    refine ⟨?_, fun i hi => ?_⟩
    · rw [result_receiveTraced]
      exact (datagramId_exact_iff hlen.le).2 hne
    · rw [log_receiveTraced, List.mem_range] at hi
      omega

/-- The last byte of the markers that overlap is taken for an id. -/
theorem not_receivesExactly_overlap : ¬ ∀ payload : Bytes, payload.length ≤ BUFSIZ →
    ReceivesExactly payload := by
  intro h
  have hoverlap := (h [0xBA, 0xAA, 0xAD] (by decide)).exact
  simp only [result_receiveTraced] at hoverlap
  exact (datagramId_exact_iff (by decide)).1 hoverlap rfl

/-! ## The two strings of a registration -/

theorem notMem_inetNtoa {c : UInt8} (hc : isDigit c = false) (hdot : c ≠ 46) (addr : InAddr) :
    c ∉ inetNtoa addr := by
  simp [inetNtoa, notMem_decimal hc, hdot]

theorem length_inetNtoa_le (addr : InAddr) : (inetNtoa addr).length ≤ 1027 := by
  have ha := length_decimal_le addr.a.toNat
  have hb := length_decimal_le addr.b.toNat
  have hc := length_decimal_le addr.c.toNat
  have hd := length_decimal_le addr.d.toNat
  have := addr.a.toNat_lt
  have := addr.b.toNat_lt
  have := addr.c.toNat_lt
  have := addr.d.toNat_lt
  simp only [inetNtoa, List.length_append, List.length_cons]
  omega

/-- Trimming stops at a NUL byte. -/
theorem trimRight_append_zero (a b : Bytes) : trimRight (a ++ 0 :: b) = a ++ 0 :: trimRight b := by
  induction b using List.reverseRec with
  | nil => exact List.rdropWhile_concat_neg _ _ _ (by decide)
  | append_singleton b x ih =>
    rw [trimRight, ← List.cons_append, ← List.append_assoc, List.rdropWhile_concat, trimRight,
      List.rdropWhile_concat]
    split_ifs
    · exact ih
    · simp

theorem zero_mem_trimRight {githubId : Bytes} : 0 ∈ trimRight githubId ↔ 0 ∈ githubId := by
  constructor
  · have htrim : trimRight githubId <+: githubId := List.rdropWhile_prefix isSpace githubId
    exact fun h => htrim.subset h
  · intro h
    obtain ⟨rest, hrest⟩ := exists_takeWhile_ne h
    rw [hrest, trimRight_append_zero]
    simp

theorem cstr_trimRight {githubId : Bytes} (h : 0 ∈ githubId) :
    cstr (trimRight githubId) = cstr githubId := by
  obtain ⟨rest, hrest⟩ := exists_takeWhile_ne h
  conv_lhs => rw [hrest, trimRight_append_zero]
  exact cstr_append_zero (zero_notMem_cstr githubId) _

/-! ## What a datagram does to the directory -/

section Announce

variable {curl : Curl} {serialize : List Node → Bytes} {memory payload : Bytes} {addr : InAddr}
  {m : NodeManage}

/-- **A datagram with an id is one request served**, the one that libcurl makes of the form. -/
theorem announce_eq (hcurl : curl.Posts) {githubId : Bytes}
    (hid : datagramId payload = .ok githubId) (hne : githubId ≠ []) :
    announce curl serialize memory addr payload m = .ok (m.serve serialize
      (readForm (cstr (addNodeForm (trimRight githubId) (inetNtoa addr))))).1 := by
  have hlen : (trimRight githubId).length + (inetNtoa addr).length < 2 ^ 30 := by
    have htrim : trimRight githubId <+: githubId := List.rdropWhile_prefix isSpace githubId
    have htrim := htrim.length_le
    have hle := length_le_of_datagramId hid
    have haddr := length_inetNtoa_le addr
    simp only [BUFSIZ] at hle
    omega
  obtain ⟨reply, hm⟩ := exists_requestHandler (readRequest_addNode hcurl hlen memory) m
  rw [announce, hid, Run.ok_bind, if_neg hne, hm]
  rfl

/-- A request registers no address but `ip`. -/
theorem honest_serve_iff {r : Request} {ip : Bytes} :
    (∀ node ∈ (m.serve serialize r).1.nodeList, node ∉ m.nodeList → node.ipAddr = ip) ↔
      ∀ githubId ipAddress, r = .addUser githubId ipAddress → githubId ∉ m.ids →
        ipAddress = ip := by
  constructor
  · rintro h githubId ipAddress rfl hid
    refine h ⟨githubId, ipAddress⟩ (NodeManage.mem_serve_addUser hid) fun hmem => hid ?_
    exact List.mem_map.2 ⟨_, hmem, rfl⟩
  · intro h node hnode hnew
    rcases NodeManage.mem_serve r hnode with hold | ⟨hr, hid⟩
    · exact absurd hold hnew
    · exact h _ _ hr hid

/-- What stands before a NUL byte of the id is a form with a valid id that is not registered and a
valid address other than the sender's. -/
def Forges (addr : InAddr) (payload : Bytes) (m : NodeManage) : Prop :=
  ∃ form rest githubId ipAddress, 0 ∉ form ∧
    payload.take BUFSIZ = BROADCAST_PREFIX ++ (form ++ 0 :: rest) ++ BROADCAST_POSTFIX ∧
    formFields ((ascii "github_id=" ++ form).splitOn 38) = (githubId, ipAddress) ∧
    githubIdRegex.fullMatch githubId ∧ ipv4AddressRegex.fullMatch ipAddress ∧
    githubId ∉ m.ids ∧ ipAddress ≠ inetNtoa addr

theorem checkForm_eq_addUser {githubId ipAddress id ip : Bytes} :
    checkForm githubId ipAddress = .addUser id ip ↔ githubIdRegex.fullMatch githubId ∧
      ipv4AddressRegex.fullMatch ipAddress ∧ githubId = id ∧ ipAddress = ip := by
  unfold checkForm
  split_ifs with h
  · simp [h]
  · simp only [false_iff]
    tauto

/-- **A datagram registers no address but that of its sender**, unless it forges one. -/
theorem announce_honest_iff (hcurl : curl.Posts) :
    (∃ m', announce curl serialize memory addr payload m = .ok m' ∧
      ∀ node ∈ m'.nodeList, node ∉ m.nodeList → node.ipAddr = inetNtoa addr) ↔
    ¬ Forges addr payload m := by
  obtain ⟨githubId, hid⟩ : ∃ githubId, datagramId payload = .ok githubId := ⟨_, datagramId_eq _⟩
  -- a datagram that forges carries an id with a NUL byte
  have hforge {form rest : Bytes} (h : payload.take BUFSIZ =
      BROADCAST_PREFIX ++ (form ++ 0 :: rest) ++ BROADCAST_POSTFIX) :
      githubId = form ++ 0 :: rest := by
    rw [← datagramId_eq_ok_of_zero_mem (by simp), hid] at h
    exact Except.ok.inj h
  by_cases hne : githubId = []
  · have hleft : announce curl serialize memory addr payload m = .ok m := by
      rw [announce, hid, Run.ok_bind, if_pos hne]
      rfl
    refine iff_of_true ⟨m, hleft, fun node hnode hnew => absurd hnode hnew⟩ ?_
    rintro ⟨form, rest, -, -, -, hpay, -⟩
    exact absurd (hforge hpay) (by simp [hne])
  · rw [announce_eq hcurl hid hne]
    simp only [Except.ok.injEq, exists_eq_left', honest_serve_iff]
    by_cases h0 : 0 ∈ githubId
    · rw [cstr_addNodeForm_of_mem (zero_mem_trimRight.2 h0), cstr_trimRight h0]
      simp only [readForm, checkForm_eq_addUser]
      constructor
      · rintro h ⟨form, rest, id, ip, h0', hpay, hfields, hidOk, hipOk, hnew, hip⟩
        rw [hforge hpay, cstr_append_zero h0', hfields] at h
        exact hip (h id ip ⟨hidOk, hipOk, rfl, rfl⟩ hnew)
      · rintro h id ip ⟨hidOk, hipOk, hideq, hipeq⟩ hnew
        by_contra hip
        obtain ⟨rest, hrest⟩ := exists_takeWhile_ne h0
        refine h ⟨cstr githubId, rest, id, ip, zero_notMem_cstr _, ?_, Prod.ext hideq hipeq,
          hideq ▸ hidOk, hipeq ▸ hipOk, hnew, hip⟩
        rw [(datagramId_eq_ok_of_zero_mem h0).1 hid]
        exact congrArg (BROADCAST_PREFIX ++ · ++ BROADCAST_POSTFIX) hrest
    · have hnone : ¬ Forges addr payload m := by
        rintro ⟨form, rest, -, -, -, hpay, -⟩
        exact h0 (by rw [hforge hpay]; simp)
      obtain ⟨id, hform⟩ := readForm_addNodeForm (trimRight githubId)
        (notMem_inetNtoa (c := 38) rfl (by decide) addr)
      rw [cstr_addNodeForm (mt zero_mem_trimRight.1 h0) (notMem_inetNtoa rfl (by decide) addr),
        hform]
      refine iff_of_true (fun githubId' ipAddress hr _ => ?_) hnone
      exact (checkForm_eq_addUser.1 hr).2.2.2.symm

end Announce

/-! ## Examples of datagrams -/

/-- The sender of examples, `1.2.3.4`. -/
def exampleAddr : InAddr := ⟨1, 2, 3, 4⟩

/-- The datagram that announces `a`. -/
def exampleDatagram : Bytes := BROADCAST_PREFIX ++ ascii "a" ++ BROADCAST_POSTFIX

/-- A datagram whose id is a form with an address of its own, cut off by a NUL byte. -/
def forgedDatagram : Bytes :=
  BROADCAST_PREFIX ++ (ascii "x&ip_address=6.6.6.6" ++ [0]) ++ BROADCAST_POSTFIX

theorem announce_honest_iff_example :
    (∃ m', announce exampleCurl NodeList.serialize [] exampleAddr exampleDatagram ⟨[]⟩ = .ok m' ∧
      ∀ node ∈ m'.nodeList, node ∉ (⟨[]⟩ : NodeManage).nodeList →
        node.ipAddr = inetNtoa exampleAddr) ↔
    ¬ Forges exampleAddr exampleDatagram ⟨[]⟩ :=
  announce_honest_iff posts_exampleCurl

theorem inetNtoa_exampleAddr : inetNtoa exampleAddr = ascii "1.2.3.4" := by
  simp [inetNtoa, exampleAddr, decimal_of_lt]
  decide

/-- The sender `1.2.3.4` registers the address `6.6.6.6`. -/
theorem announce_forged : ∃ m',
    announce exampleCurl NodeList.serialize [] exampleAddr forgedDatagram ⟨[]⟩ = .ok m' ∧
      ∃ node ∈ m'.nodeList, node ∉ (⟨[]⟩ : NodeManage).nodeList ∧
        node.ipAddr ≠ inetNtoa exampleAddr := by
  have hid : datagramId forgedDatagram = .ok (ascii "x&ip_address=6.6.6.6" ++ [0]) :=
    (datagramId_eq_ok_of_zero_mem (by decide)).2 rfl
  have hform : readForm (cstr (addNodeForm (trimRight (ascii "x&ip_address=6.6.6.6" ++ [0]))
      (inetNtoa exampleAddr))) = .addUser (ascii "x") (ascii "6.6.6.6") := by
    rw [cstr_addNodeForm_of_mem (by decide)]
    decide
  refine ⟨_, announce_eq posts_exampleCurl hid (by decide), ⟨ascii "x", ascii "6.6.6.6"⟩, ?_⟩
  rw [hform, inetNtoa_exampleAddr]
  decide

end Onion5
