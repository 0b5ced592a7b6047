import Onion5.Client.Delivery

/-!
# Anonymity of relays

What a relay can read while it handles a packet, for ciphertexts that only those they are made for
can open. `look` reads a file as far as a node's credentials reach: the ends and the type of its
header but not the time, and the body, which is sealed when the node cannot decrypt it.

* `Network.relayView_eq`: what a relay reads depends on its predecessor and its successor only.
* `Network.relay_noninterference`: two runs that agree on these two look the same to the relay.
-/

namespace Onion5

open Message

/-! ## What a node can read -/

/-- A file as a node can read it. -/
inductive Seen
  /-- nothing of it -/
  | sealed
  /-- not a message file -/
  | raw (file : Bytes)
  /-- a type-0 file and its body -/
  | packet (from_ to_ : Bytes) (body : Seen)
  /-- a file of another type -/
  | plain (from_ to_ : Bytes) (type : UInt8) (body : Bytes)
  deriving DecidableEq

/-- `n` layers of a file, read with the credentials of a node. -/
def look (env : Env) (msgr : Messanger) : ℕ → Bytes → Seen
  | 0, _ => .sealed
  | n + 1, file =>
    match readHeader clear file with
    | .ok (some (m, r)) =>
      if m.type = 0 then
        .packet m.from_ m.to_
          (match env.decrypt (cstr msgr.gpg.name) (cstr msgr.gpg.passphrase) r.is.rest with
          | some x => look env msgr n x
          | none => .sealed)
      else .plain m.from_ m.to_ m.type r.is.rest
    | _ => .raw file

/-- The ends and the type of a message. -/
def Message.ends (m : Message) : Bytes × Bytes × UInt8 := (m.from_, m.to_, m.type)

/-- What a node reads and does while it handles a packet. -/
structure RelayView where
  /-- the file received -/
  received : Seen
  /-- the header of the packet -/
  outer : Option (Bytes × Bytes × UInt8)
  /-- the header found by decrypting -/
  inner : Option (Bytes × Bytes × UInt8)
  /-- the address and the file sent on -/
  forwarded : Option (Bytes × Option Seen)
  pushed : Option (Bytes × Bytes)
  reply : Option Bytes
  deriving DecidableEq

/-- The view of the node `msgr` on the file it receives, up to `n` layers. -/
def relayView (env : Env) (d : ListenDraws) (msgr : Messanger) (n : ℕ) (fs : Files)
    (file : Bytes) : Run RelayView := do
  let (outer, _) ← openOuter d msgr d.recvPath (fs.put d.recvPath file)
  let (inner, _) ← openPacket env d msgr d.recvPath (fs.put d.recvPath file)
  let s ← handle env d msgr d.recvPath (fs.put d.recvPath file)
  return {
    received := look env msgr n file
    outer := outer.map Message.ends
    inner := inner.map Message.ends
    forwarded := s.sent.map fun sent => (sent.host, sent.content.map (look env msgr n))
    pushed := s.pushed
    reply := s.reply }

section Look

variable {env : Env} {msgr : Messanger} {f t c x : Bytes} {time : ℕ}

theorem look_packet (hf : f.length ≤ 1025) (ht : t.length ≤ 1025) (n : ℕ) :
    look env msgr (n + 1) (header f t 0 time ++ c) =
      .packet f t (match env.decrypt (cstr msgr.gpg.name) (cstr msgr.gpg.passphrase) c with
        | some x => look env msgr n x
        | none => .sealed) := by
  obtain ⟨r, hr, hat⟩ := readHeader_header clear hf ht 0 time c
  simp [look, hr, hat.is_eq]

/-- A packet for someone else shows its header. -/
theorem look_sealed (hf : f.length ≤ 1025) (ht : t.length ≤ 1025)
    (hc : env.decrypt (cstr msgr.gpg.name) (cstr msgr.gpg.passphrase) c = none) (n : ℕ) :
    look env msgr (n + 1) (header f t 0 time ++ c) = .packet f t .sealed := by
  rw [look_packet hf ht, hc]

/-- A packet for the node itself shows what is inside. -/
theorem look_decrypts (hf : f.length ≤ 1025) (ht : t.length ≤ 1025)
    (hc : msgr.Decrypts env c x) (n : ℕ) :
    look env msgr (n + 1) (header f t 0 time ++ c) = .packet f t (look env msgr n x) := by
  rw [Messanger.Decrypts] at hc
  rw [look_packet hf ht, hc]

end Look

/-- What a relay reads, up to `n` layers, of the packet from `pred` that it sends on to `succ`. -/
def seenReceived (pred me succ : Bytes) : ℕ → Seen
  | 0 => .sealed
  | 1 => .packet pred me .sealed
  | _ => .packet pred me (.packet me succ .sealed)

/-- What it reads of the packet it sends on. -/
def seenForwarded (me succ : Bytes) : ℕ → Seen
  | 0 => .sealed
  | _ => .packet me succ .sealed

/-- The view of a relay between `pred` and `succ`. -/
def viewBetween (pred me succ addr : Bytes) (n : ℕ) : RelayView where
  received := seenReceived pred me succ n
  outer := some (pred, me, 0)
  inner := some (me, succ, 0)
  forwarded := some (addr, some (seenForwarded me succ n))
  pushed := none
  reply := none

namespace Network

variable {net : Network}

/-- Ciphertexts tell nothing to a participant they are not made for. -/
def Exclusive (net : Network) (d : SendDraws) : Prop :=
  ∀ i, ∀ r ∈ net.ids, ∀ r' ∈ net.ids, r' ≠ r → ∀ x,
    net.env.decrypt (cstr (net.node r').gpg.name) (cstr (net.node r').gpg.passphrase)
      ((d.layer i).encrypt (cstr r) x) = none

/-- `c` is a ciphertext of `x` that `r` can open and no other participant can. -/
def Seals (net : Network) (r x c : Bytes) : Prop :=
  net.Opens r x c ∧ ∀ r' ∈ net.ids, r ∈ net.ids → r' ≠ r →
    net.env.decrypt (cstr (net.node r').gpg.name) (cstr (net.node r').gpg.passphrase) c = none

/-- A run of `send_message` and of the nodes after it: `file` is the `k`-th packet of the message,
on its way to the address `host`. -/
inductive Arrives (net : Network) (p : net.Parcel) (route : List Bytes) :
    ℕ → Bytes → Bytes → Prop
  | first {d fs host path file} (hd : net.GoodSend d route fs) (he : net.Exclusive d)
      (hroute : (net.node p.sender).route p.recipient d = route)
      (hs : ((net.node p.sender).sendMessage p.recipient p.text d fs).sent =
        some ⟨host, path, some file⟩) : Arrives net p route 1 host file
  | next {k r d fs s host path file host' file'} (h : Arrives net p route k host file)
      (hr : r ∈ net.ids) (hhost : net.addr r = host) (hd : ListenDraws.Good d fs)
      (hs : handle net.env d (net.node r) d.recvPath (fs.put d.recvPath file) = .ok s)
      (hsent : s.sent = some ⟨host', path, some file'⟩) : Arrives net p route (k + 1) host' file'

variable {p : net.Parcel} {route : List Bytes} {k : ℕ} {host file : Bytes}

theorem Arrives.isRoute (h : Arrives net p route k host file) : net.IsRoute p route := by
  induction h with
  | first hd _ hroute => exact hroute ▸ isRoute_route p hd.shuffle
  | next _ _ _ _ _ _ ih => exact ih

/-- **The packets of a run** are those of the hops of its route, one after the other, each with the
layers of the hops still to come. -/
theorem Arrives.layered (h : Arrives net p route k host file) (hk : k ≤ route.length) :
    ∃ done hop rest time, hops route = done ++ hop :: rest ∧ done.length + 1 = k ∧
      host = net.addr hop.2 ∧ Layered (InLayer net.Seals) (hop :: rest) (p.core time) file := by
  induction h with
  | first hd he hrt hs =>
    subst hrt
    obtain ⟨-, path, file, hop, rest, time, hsent, hh, hl⟩ := send_onion hd
    cases hs.symm.trans hsent
    refine ⟨[], hop, rest, time, hh, rfl, rfl, hl.mono ?_⟩
    rintro h x y ⟨c, t, ⟨i, hi⟩, hy⟩
    refine ⟨c, t, ⟨hd.opens_of_encrypts ⟨i, hi⟩, fun r' hr' hr hne => ?_⟩, hy⟩
    rw [LayerDraws.gpg, if_pos (hd.status i)] at hi
    exact Option.some.inj hi ▸ he i _ hr r' hr' hne x
  | @next k r d fs s host path file host' file' h hr hhost hd hs hsent ih =>
    have hroute := h.isRoute
    obtain ⟨done, hop, rest, time, hh, hdone, hhop, hl⟩ := ih (by omega)
    have hlen : (hops route).length = route.length := by
      rw [← List.length_map (f := Prod.fst), hops, map_fst_chain]
    rw [hh, List.length_append, List.length_cons] at hlen
    obtain ⟨hop', rest, rfl⟩ : ∃ hop' rest', rest = hop' :: rest' :=
      List.exists_cons_of_length_pos (by omega)
    have hnode : hop.2 ∈ net.ids := hroute.snd_mem_ids (hh ▸ by simp)
    obtain rfl := net.addr_inj _ hr _ hnode (hhost.trans hhop)
    obtain ⟨s₁, file₁, hs₁, -, -, -, htok, hl'⟩ :=
      receive_relayed (fun _ _ _ h => h.1) hroute hh hl hd
    cases hs.symm.trans hs₁
    rw [hsent] at htok
    cases htok
    exact ⟨done ++ [hop], hop', rest, time, by rw [hh, List.append_assoc]; rfl,
      by rw [List.length_append, List.length_singleton, hdone], rfl, hl'⟩

/-- `me` is the node at position `i` of a route, between `pred` and `succ`. -/
structure RelayAt (route : List Bytes) (i : ℕ) (pred me succ : Bytes) : Prop where
  pos : 0 < i
  pred_eq : route[i - 1]? = some pred
  me_eq : route[i]? = some me
  succ_eq : route[i + 1]? = some succ

/-- The two hops of a relay: the packet it receives and the one it sends on. -/
theorem RelayAt.hops_eq {pred me succ : Bytes} (hat : RelayAt route k pred me succ)
    {done rest : List (Bytes × Bytes)} {hop : Bytes × Bytes} (hh : hops route = done ++ hop :: rest)
    (hdone : done.length + 1 = k) :
    ∃ rest', hop = (pred, me) ∧ rest = (me, succ) :: rest' := by
  have hne : route ≠ [] := by
    rintro rfl
    simpa using hat.me_eq
  subst hdone
  have hfst : ∀ m : ℕ, ((done ++ hop :: rest)[m]?).map Prod.fst = route[m]? := by
    intro m
    rw [← List.getElem?_map, ← hh, hops, map_fst_chain]
  have hsnd : ∀ m : ℕ, m + 1 < route.length →
      ((done ++ hop :: rest)[m]?).map Prod.snd = route[m + 1]? := by
    intro m hm
    rw [← List.getElem?_map, ← hh, map_snd_hops hne, List.getElem?_append_left (by simp; omega),
      List.getElem?_tail]
  have hlt := (List.getElem?_eq_some_iff.1 hat.succ_eq).1
  have h₁ := (hfst done.length).trans hat.pred_eq
  have h₂ := (hsnd done.length (by omega)).trans hat.me_eq
  have h₃ := (hfst (done.length + 1)).trans hat.me_eq
  have h₄ := (hsnd (done.length + 1) hlt).trans hat.succ_eq
  simp only [List.getElem?_append_right, le_refl, Nat.sub_self, List.getElem?_cons_zero,
    Option.map_some, Option.some.injEq] at h₁ h₂
  cases rest with
  | nil => simp at h₃
  | cons hop' rest' =>
    simp only [List.getElem?_append_right, Nat.le_add_right, Nat.add_sub_cancel_left,
      List.getElem?_cons_succ, List.getElem?_cons_zero, Option.map_some, Option.some.injEq] at h₃ h₄
    exact ⟨rest', Prod.ext h₁ h₂, congrArg (· :: rest') (Prod.ext h₃ h₄)⟩

theorem IsRoute.nodup (h : net.IsRoute p route) : route.Nodup := by
  obtain ⟨relays, rfl, hnd, hrel⟩ := h
  simp only [List.cons_append, List.nodup_cons, List.mem_append, List.mem_singleton, not_or]
  refine ⟨⟨fun hm => (hrel _ hm).2.1 rfl, p.sender_ne⟩, List.nodup_append.2 ⟨hnd, by simp, ?_⟩⟩
  rintro a ha b hb rfl
  exact (hrel a ha).2.2 (List.mem_singleton.1 hb)

section View

variable {fs : Files} {d : ListenDraws} {pred me succ c x c' : Bytes} {time time' : ℕ}

/-- **What a relay reads** of a packet between `pred` and `succ` whose innermost body only `succ`
can open. -/
theorem relayView_eq (hd : d.Good fs) (hpred : pred.length ≤ 1025) (hme : me ∈ net.ids)
    (hsucc : succ ∈ net.ids) (hne : me ≠ succ)
    (hc : net.Seals me (header me succ 0 time' ++ c') c) (hc' : net.Seals succ x c') (n : ℕ) :
    relayView net.env d (net.node me) n fs (header pred me 0 time ++ c) =
      .ok (viewBetween pred me succ (net.addr succ) n) := by
  have hname := net.name_eq _ hme
  have hml := net.length_le' hme
  have hsl := net.length_le' hsucc
  have hauth := net.authorized _ hme
  have hdec := hc.1 hme
  have hnone := hc'.2 _ hme hsucc hne
  obtain ⟨s, hs, -, -, hpush, hreply, -, hsent⟩ := handle_relayed time hname hd.fresh
    hd.opens hauth hpred hml hsl hdec
  rw [getD_nodeList hme hsucc, if_pos (hd.connect _)] at hsent
  have houter := openOuter_packet time c hname hd.fresh hpred hml
  obtain ⟨fs', hinner⟩ : ∃ fs', openInner net.env d (net.node me) d.outerPath
      ((fs.put d.recvPath (header pred me 0 time ++ c)).put d.outerPath c) =
        .ok (some (binary me succ d.innerPath), fs') := by
    rw [openInner_decrypts hd.fresh hauth hdec, deserialize_opened hd.fresh _ _ hml hsl]
    exact ⟨_, rfl⟩
  have hreceived : look net.env (net.node me) n (header pred me 0 time ++ c) =
      seenReceived pred me succ n := by
    match n with
    | 0 => rfl
    | 1 => exact look_decrypts hpred hml hdec 0
    | n + 2 => rw [look_decrypts hpred hml hdec, look_sealed hml hsl hnone]; rfl
  have hforwarded : look net.env (net.node me) n (header me succ 0 d.time ++ c') =
      seenForwarded me succ n := by
    cases n with
    | zero => rfl
    | succ n => exact look_sealed hml hsl hnone n
  rw [relayView, openPacket, houter]
  simp [binary, hinner, hs, hsent, hpush, hreply, hreceived, hforwarded, viewBetween, ends]

/-- **The packet that arrives at a relay** is for it, and shows it its two neighbours and nothing
else. -/
theorem Arrives.relayView_eq (h : Arrives net p route k host file)
    (hat : RelayAt route k pred me succ) (hd : d.Good fs) (n : ℕ) :
    host = net.addr me ∧ relayView net.env d (net.node me) n fs file =
      .ok (viewBetween pred me succ (net.addr succ) n) := by
  have hroute := h.isRoute
  have hlt : k < route.length := (List.getElem?_eq_some_iff.1 hat.me_eq).1
  obtain ⟨done, hop, rest, time, hh, hdone, rfl, hl⟩ := h.layered hlt.le
  obtain ⟨rest, rfl, rfl⟩ := hat.hops_eq hh hdone
  obtain ⟨x, ⟨c, t, hc, rfl⟩, hx⟩ := Layered.cons_iff.1 hl
  obtain ⟨x', ⟨c', t', hc', rfl⟩, -⟩ := Layered.cons_iff.1 hx
  have hne : me ≠ succ := by
    rintro rfl
    have := (List.getElem?_inj hlt hroute.nodup).1 (hat.me_eq.trans hat.succ_eq.symm)
    omega
  exact ⟨rfl, Network.relayView_eq hd (net.length_le' (hroute.mem_ids
    (List.mem_of_getElem? hat.pred_eq))) (hroute.mem_ids (List.mem_of_getElem? hat.me_eq))
    (hroute.mem_ids (List.mem_of_getElem? hat.succ_eq)) hne hc hc' n⟩

end View

/-- **Relays cannot tell two runs apart** in which they stand between the same two nodes. -/
theorem relay_noninterference {p₁ p₂ : net.Parcel} {route₁ route₂ : List Bytes} {i j : ℕ}
    {host₁ host₂ file₁ file₂ pred me succ : Bytes} (h₁ : Arrives net p₁ route₁ i host₁ file₁)
    (h₂ : Arrives net p₂ route₂ j host₂ file₂) (hat₁ : RelayAt route₁ i pred me succ)
    (hat₂ : RelayAt route₂ j pred me succ) {d₁ d₂ : ListenDraws} {fs₁ fs₂ : Files}
    (hd₁ : d₁.Good fs₁) (hd₂ : d₂.Good fs₂) (n : ℕ) :
    host₁ = net.addr me ∧ host₂ = net.addr me ∧
      ∃ view, relayView net.env d₁ (net.node me) n fs₁ file₁ = .ok view ∧
        relayView net.env d₂ (net.node me) n fs₂ file₂ = .ok view := by
  obtain ⟨hhost₁, hview₁⟩ := h₁.relayView_eq hat₁ hd₁ n
  obtain ⟨hhost₂, hview₂⟩ := h₂.relayView_eq hat₂ hd₂ n
  exact ⟨hhost₁, hhost₂, _, hview₁, hview₂⟩

/-! ## Two texts -/

theorem exclusive_exampleDraws : example₃.Exclusive (exampleDraws []) := by
  intro i r hr r' hr' hne x
  have hcstr : ∀ r ∈ example₃.ids, cstr r = r := by decide
  have hlen : ∀ r ∈ example₃.ids, r.length < 256 ^ 8 := by decide
  change exampleDecrypt (cstr r') (cstr (ascii "secret")) (exampleEncrypt (cstr r) x) = none
  rw [hcstr r hr, hcstr r' hr']
  exact exampleDecrypt_of_ne hne (hlen r' hr') (hlen r hr) _ x

/-- Sending makes a first packet. -/
theorem exists_arrives {d : SendDraws} {fs : Files}
    (hd : net.GoodSend d ((net.node p.sender).route p.recipient d) fs) (he : net.Exclusive d) :
    ∃ host file, Arrives net p ((net.node p.sender).route p.recipient d) 1 host file := by
  obtain ⟨-, path, file, hop, rest, time, hsent, -⟩ := send_onion hd
  exact ⟨_, file, .first hd he rfl hsent⟩

/-- The relay `c` between `a` and `b` cannot tell two texts apart. -/
theorem relay_noninterference_example : ∃ host₁ file₁ host₂ file₂,
    Arrives example₃ (exampleParcel (ascii "hi")) [ascii "a", ascii "c", ascii "b"] 1 host₁ file₁ ∧
    Arrives example₃ (exampleParcel (ascii "bye")) [ascii "a", ascii "c", ascii "b"] 1 host₂ file₂ ∧
    host₁ = example₃.addr (ascii "c") ∧ host₂ = example₃.addr (ascii "c") ∧
    ∃ view, relayView example₃.env (drawing (exampleTemppath 0) (exampleTemppath 1)
        (exampleTemppath 2) (exampleTemppath 3) (exampleTemppath 4)) (example₃.node (ascii "c")) 9
        Files.blank file₁ = .ok view ∧
      relayView example₃.env (drawing (exampleTemppath 5) (exampleTemppath 6)
        (exampleTemppath 7) (exampleTemppath 8) (exampleTemppath 9)) (example₃.node (ascii "c")) 9
        Files.blank file₂ = .ok view := by
  have harr : ∀ text, ∃ host file, Arrives example₃ (exampleParcel text)
      [ascii "a", ascii "c", ascii "b"] 1 host file := by
    intro text
    have h := exists_arrives (p := exampleParcel text) goodSend_exampleDraws exclusive_exampleDraws
    rwa [← route_exampleDraws []]
  obtain ⟨host₁, file₁, h₁⟩ := harr (ascii "hi")
  obtain ⟨host₂, file₂, h₂⟩ := harr (ascii "bye")
  have hat : RelayAt [ascii "a", ascii "c", ascii "b"] 1 (ascii "a") (ascii "c") (ascii "b") :=
    ⟨by decide, rfl, rfl, rfl⟩
  exact ⟨host₁, file₁, host₂, file₂, h₁, h₂, relay_noninterference h₁ h₂ hat hat
    ⟨Files.fresh_blank_range (k := 0) (n := 5) (by decide), rfl, fun _ => rfl⟩
    ⟨Files.fresh_blank_range (k := 5) (n := 5) (by decide), rfl, fun _ => rfl⟩ 9⟩

end Network

end Onion5
