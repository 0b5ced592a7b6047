import Onion5.Client.Hop
import Onion5.Foundations.Interleaving

/-!
# Delivery

A network of participants that run `liste_loop`, and the messages they send to each other. Every
message is an activity: its sender calls `send_message` at some time, and from then on one packet
of it at a time is in flight until a node pushes it. A step of the network serves any packet in
flight, or lets any message start (`Network.Act`).

Packets are transported intact and gpg is ideal: a ciphertext for a participant is decrypted by
that participant's credentials, and every run of gpg succeeds. The temporary paths that a call
draws are new, and its draws are arbitrary otherwise.

* `Network.delivery`: whatever the routes and the order of the steps, once nothing is in flight
  every message has been pushed exactly once, at its recipient, and has been received by the nodes
  of its route in order.
-/

namespace Onion5

open Message Interleaving

/-- Participants whose node lists hold exactly the participants. `node r` is the `Messanger` of
`r`. -/
structure Network where
  env : Env
  ids : List Bytes
  addr : Bytes → Bytes
  node : Bytes → Messanger
  length_le : ∀ r ∈ ids, r.length ≤ 1024
  addr_inj : ∀ r ∈ ids, ∀ r' ∈ ids, addr r = addr r' → r = r'
  name_eq : ∀ r ∈ ids, (node r).name = r
  authorized : ∀ r ∈ ids, (node r).gpg.isAuthorized
  nodeList_eq : ∀ r ∈ ids, ∀ k, (node r).nodeList[k]? = if k ∈ ids then some (addr k) else none

/-- A participant: its object and its files. -/
structure Host where
  msgr : Messanger
  fs : Files

/-- What is in flight for a message: the call that starts it, or a file on its way to an
address. -/
inductive Token
  | send
  | packet (host file : Bytes)

/-- What the network logs about a message: its route, the nodes that receive it, and the arguments
of `push_message` with the node that calls it. -/
inductive Event
  | routed (route : List Bytes)
  | received (node : Bytes)
  | pushed (node from_ content : Bytes)
  deriving DecidableEq

/-- The arguments of a call of `push_message`, and the node that makes it. -/
def Event.push : Event → Option (Bytes × Bytes × Bytes)
  | .pushed node from_ content => some (node, from_, content)
  | _ => none

/-- The node that receives a packet. -/
def Event.receiver : Event → Option Bytes
  | .received node => some node
  | _ => none

/-- A file handed to `send_file` is in flight. -/
def Sent.tokens : Option Sent → List Token
  | some ⟨host, _, some file⟩ => [.packet host file]
  | _ => []

/-- The draws of a served connection under which no call of the environment fails. -/
structure ListenDraws.Good (d : ListenDraws) (fs : Files) : Prop where
  fresh : fs.Fresh d.paths
  opens : d.opens
  connect : ∀ host, d.connect host

namespace Network

variable (net : Network)

/-- A message that a participant sends to another one. -/
structure Parcel where
  sender : Bytes
  recipient : Bytes
  text : Bytes
  sender_mem : sender ∈ net.ids
  recipient_mem : recipient ∈ net.ids
  sender_ne : sender ≠ recipient

/-- The participant `r` can decrypt the ciphertext `c` to `x`. -/
def Opens (r x c : Bytes) : Prop := r ∈ net.ids → (net.node r).Decrypts net.env c x

/-- The draws of `send_message` under which no call of the environment fails and gpg is ideal. -/
structure GoodSend (d : SendDraws) (route : List Bytes) (fs : Files) : Prop where
  shuffle : IsShuffle d.shuffle
  fresh : fs.Fresh (d.paths route)
  status : ∀ i, (d.layer i).status
  opens : ∀ i, (d.layer i).opens
  connect : ∀ host, d.connect host
  ideal : ∀ i r x, net.Opens r x ((d.layer i).encrypt (cstr r) x)

variable {net} {n : ℕ}

/-- The steps of the network. A packet to an address that no participant has is lost, and a call
that does not return takes its packet with it. -/
inductive Act (p : Fin n → net.Parcel) : Action (Bytes → Host) (Fin n) Token Event
  | send {s i d} {r : SendResult}
      (hd : net.GoodSend d ((s (p i).sender).msgr.route (p i).recipient d) (s (p i).sender).fs)
      (hr : (s (p i).sender).msgr.sendMessage (p i).recipient (p i).text d
        (s (p i).sender).fs = r) :
      Act p s i .send (Function.update s (p i).sender ⟨r.msgr, r.fs⟩) (Sent.tokens r.sent)
        [.routed ((s (p i).sender).msgr.route (p i).recipient d)]
  | receive {s i host file r d} {served : Served} (hr : r ∈ net.ids) (hhost : net.addr r = host)
      (hd : d.Good (s r).fs)
      (hs : handle net.env d (s r).msgr d.recvPath ((s r).fs.put d.recvPath file) = .ok served) :
      Act p s i (.packet host file) (Function.update s r ⟨served.msgr, served.fs⟩)
        (Sent.tokens served.sent)
        (.received r :: (served.pushed.map fun a => .pushed r a.1 a.2).toList)
  | stop {s i host file r d} {e : Stop} (hr : r ∈ net.ids) (hhost : net.addr r = host)
      (hd : d.Good (s r).fs)
      (hs : handle net.env d (s r).msgr d.recvPath ((s r).fs.put d.recvPath file) = .error e) :
      Act p s i (.packet host file) s [] [.received r]
  | lost {s i host file} (hhost : ∀ r ∈ net.ids, net.addr r ≠ host) :
      Act p s i (.packet host file) s [] []

/-! ## Lists and routes -/

theorem length_le' {r : Bytes} (hr : r ∈ net.ids) : r.length ≤ 1025 :=
  (net.length_le r hr).trans (by omega)

theorem mem_nodeList {r k : Bytes} (hr : r ∈ net.ids) :
    k ∈ (net.node r).nodeList ↔ k ∈ net.ids := by
  rw [Std.ExtTreeMap.mem_iff_isSome_getElem?, net.nodeList_eq r hr]
  split_ifs with h <;> simp [h]

theorem getD_nodeList {r k : Bytes} (hr : r ∈ net.ids) (hk : k ∈ net.ids) :
    (net.node r).nodeList.getD k [] = net.addr k := by
  rw [Std.ExtTreeMap.getD_eq_getD_getElem?, net.nodeList_eq r hr, if_pos hk, Option.getD_some]

/-- A lookup of a participant changes nothing. -/
theorem index_node {r k : Bytes} (hr : r ∈ net.ids) (hk : k ∈ net.ids) :
    { net.node r with nodeList := ((net.node r).nodeList.index k).2 } = net.node r := by
  rw [NodeMap.index_of_mem ((mem_nodeList hr).2 hk)]

/-- The routes of a message: its sender, distinct other participants, its recipient. -/
def IsRoute (p : net.Parcel) (route : List Bytes) : Prop :=
  ∃ relays : List Bytes, route = p.sender :: relays ++ [p.recipient] ∧ relays.Nodup ∧
    ∀ r ∈ relays, r ∈ net.ids ∧ r ≠ p.sender ∧ r ≠ p.recipient

section IsRoute

variable {p : net.Parcel} {route : List Bytes} (h : net.IsRoute p route)

include h

theorem IsRoute.ne_nil : route ≠ [] := by
  obtain ⟨relays, rfl, -⟩ := h
  simp

theorem IsRoute.headD : route.headD [] = p.sender := by
  obtain ⟨relays, rfl, -⟩ := h
  rfl

theorem IsRoute.getLastD : route.getLastD [] = p.recipient := by
  obtain ⟨relays, rfl, -⟩ := h
  rw [List.getLastD_eq_getLast?, List.getLast?_concat, Option.getD_some]

theorem IsRoute.mem_ids {r : Bytes} (hr : r ∈ route) : r ∈ net.ids := by
  obtain ⟨relays, rfl, -, hrel⟩ := h
  simp only [List.cons_append, List.mem_cons, List.mem_append, List.not_mem_nil, or_false] at hr
  rcases hr with rfl | hr | rfl
  · exact p.sender_mem
  · exact (hrel r hr).1
  · exact p.recipient_mem

/-- The nodes that receive a packet of the route. -/
theorem IsRoute.map_snd : (hops route).map Prod.snd = route.tail ++ [p.recipient] := by
  rw [map_snd_hops h.ne_nil, h.getLastD]

/-- They are participants other than the sender. -/
theorem IsRoute.mem_ids_of_tail {r : Bytes} (hr : r ∈ route.tail ++ [p.recipient]) :
    r ∈ net.ids := by
  rcases List.mem_append.1 hr with hm | hm
  · exact h.mem_ids (List.mem_of_mem_tail hm)
  · exact List.mem_singleton.1 hm ▸ p.recipient_mem

theorem IsRoute.ne_sender {r : Bytes} (hr : r ∈ route.tail ++ [p.recipient]) : r ≠ p.sender := by
  obtain ⟨relays, rfl, -, hrel⟩ := h
  have hcase : r ∈ relays ∨ r = p.recipient := by simpa using hr
  rcases hcase with hm | rfl
  · exact (hrel r hm).2.1
  · exact p.sender_ne.symm

theorem IsRoute.snd_mem_ids {hop : Bytes × Bytes} (hh : hop ∈ hops route) : hop.2 ∈ net.ids :=
  h.mem_ids_of_tail (h.map_snd ▸ List.mem_map_of_mem hh)

theorem IsRoute.length_fst_le {hop : Bytes × Bytes} (hh : hop ∈ hops route) :
    hop.1.length ≤ 1025 := net.length_le' (h.mem_ids (fst_mem_of_mem_hops hh))

/-- The first packet goes to the second node. -/
theorem IsRoute.hops_eq : ∃ rest, hops route = (p.sender, route.getD 1 []) :: rest := by
  obtain ⟨relays, rfl, -⟩ := h
  cases relays with
  | nil => exact ⟨_, rfl⟩
  | cons r relays => exact ⟨_, rfl⟩

end IsRoute

/-- `generate_path` makes routes. -/
theorem isRoute_route (p : net.Parcel) {d : SendDraws} (hs : IsShuffle d.shuffle) :
    net.IsRoute p ((net.node p.sender).route p.recipient d) := by
  obtain ⟨relays, hroute, hnd, hrel⟩ :=
    generatePath_shape (net.node p.sender).nodeList (net.node p.sender).name p.recipient 3 hs
  rw [net.name_eq _ p.sender_mem] at hroute hrel
  refine ⟨relays, ?_, hnd, fun r hr => ?_⟩
  · rw [Messanger.route, net.name_eq _ p.sender_mem, hroute]
  · exact ⟨(mem_nodeList p.sender_mem).1 (hrel r hr).1, (hrel r hr).2⟩

/-! ## The state of a message -/

/-- The text message of a parcel as `serialize` writes it. -/
def Parcel.core (p : net.Parcel) (time : ℕ) : Bytes := header p.sender p.recipient 1 time ++ p.text

/-- What a message can look like: not sent yet, one packet in flight that holds the layers of the
hops still to come, or pushed. -/
inductive Status (p : net.Parcel) : List Token → List Event → Prop
  | pending : Status p [.send] []
  | travelling {route : List Bytes} {done rest : List (Bytes × Bytes)} {h : Bytes × Bytes}
      {time : ℕ} {file : Bytes} (hr : net.IsRoute p route) (hh : hops route = done ++ h :: rest)
      (hl : Layered (InLayer net.Opens) (h :: rest) (p.core time) file) :
      Status p [.packet (net.addr h.2) file] (.routed route :: done.map fun h => .received h.2)
  | delivered {route : List Bytes} (hr : net.IsRoute p route) :
      Status p [] (.routed route :: (hops route).map (fun h => .received h.2) ++
        [.pushed p.recipient p.sender (p.sender ++ ascii ": " ++ p.text)])

/-- The objects of the participants are as they were. -/
def Steady (net : Network) (s : Bytes → Host) : Prop := ∀ r ∈ net.ids, (s r).msgr = net.node r

theorem Steady.update {s : Bytes → Host} (h : net.Steady s) {r : Bytes} {msgr : Messanger}
    (hm : r ∈ net.ids → msgr = net.node r) (fs : Files) :
    net.Steady (Function.update s r ⟨msgr, fs⟩) := by
  intro q hq
  by_cases hqr : q = r
  · subst hqr
    rw [Function.update_self, hm hq]
  · rw [Function.update_of_ne hqr, h q hq]

/-! ## One step -/

section Steps

variable {p : net.Parcel} {fs : Files}

/-- The ciphertexts of such a call can be opened by those they are for. -/
theorem GoodSend.opens_of_encrypts {d : SendDraws} {route : List Bytes}
    (hd : net.GoodSend d route fs) {r x c : Bytes} (h : Encrypts d.layer r x c) :
    net.Opens r x c := by
  obtain ⟨i, hi⟩ := h
  rw [LayerDraws.gpg, if_pos (hd.status i)] at hi
  exact Option.some.inj hi ▸ hd.ideal i r x

/-- **A call of `send_message`** hands the complete onion to the second node of the route, and
leaves the object as it was. -/
theorem send_onion {d : SendDraws}
    (hd : net.GoodSend d ((net.node p.sender).route p.recipient d) fs) :
    ((net.node p.sender).sendMessage p.recipient p.text d fs).msgr = net.node p.sender ∧
      ∃ path file h rest time,
        ((net.node p.sender).sendMessage p.recipient p.text d fs).sent =
          some ⟨net.addr h.2, path, some file⟩ ∧
        hops ((net.node p.sender).route p.recipient d) = h :: rest ∧
        Layered (InLayer (Encrypts d.layer)) (h :: rest) (p.core time) file := by
  set route := (net.node p.sender).route p.recipient d with hroute
  have hr : net.IsRoute p route := isRoute_route p hd.shuffle
  obtain ⟨rest, hrest⟩ := hr.hops_eq
  have hmem : (p.sender, route.getD 1 []) ∈ hops route := by
    rw [hrest]
    exact List.mem_cons_self
  have hsnd : (p.sender, route.getD 1 []).2 ∈ net.ids := hr.snd_mem_ids hmem
  have hto := (mem_nodeList p.sender_mem).2 p.recipient_mem
  have hsucc : Succeeds (net.node p.sender).gpg d.layer 0 route.length :=
    ⟨net.authorized _ p.sender_mem, fun j _ _ => ⟨hd.status j, hd.opens j⟩⟩
  obtain ⟨⟨host, path, _⟩, file, hsent, hhost, rfl, time, hl⟩ :=
    sendMessage_onion p.text hto (hd.connect _) hd.fresh hsucc
  obtain rfl : host = net.addr (route.getD 1 []) := hhost.trans (getD_nodeList p.sender_mem hsnd)
  rw [hr.headD, hr.getLastD, hrest] at hl
  refine ⟨?_, path, file, (p.sender, route.getD 1 []), rest, time, hsent, hrest, hl⟩
  rw [sendMessage_msgr hto, index_node p.sender_mem hsnd]

theorem send_travelling {d : SendDraws}
    (hd : net.GoodSend d ((net.node p.sender).route p.recipient d) fs) :
    ((net.node p.sender).sendMessage p.recipient p.text d fs).msgr = net.node p.sender ∧
      Status p (Sent.tokens ((net.node p.sender).sendMessage p.recipient p.text d fs).sent)
        [.routed ((net.node p.sender).route p.recipient d)] := by
  obtain ⟨hmsgr, path, file, h, rest, time, hsent, hh, hl⟩ := send_onion hd
  refine ⟨hmsgr, ?_⟩
  rw [hsent]
  have hh' : hops ((net.node p.sender).route p.recipient d) = [] ++ h :: rest := hh
  exact .travelling (isRoute_route p hd.shuffle) hh'
    (hl.mono fun _ _ _ ⟨c, t, hc, hy⟩ => ⟨c, t, hd.opens_of_encrypts hc, hy⟩)

variable {route : List Bytes} {done rest : List (Bytes × Bytes)} {h h' : Bytes × Bytes}
  {time : ℕ} {file : Bytes} {d : ListenDraws}

/-- A packet with a hop still to come goes on to it. -/
theorem receive_relayed {enc : Bytes → Bytes → Bytes → Prop}
    (henc : ∀ r x c, enc r x c → net.Opens r x c) (hr : net.IsRoute p route)
    (hh : hops route = done ++ h :: h' :: rest)
    (hl : Layered (InLayer enc) (h :: h' :: rest) (p.core time) file) (hd : d.Good fs) :
    ∃ s file', handle net.env d (net.node h.2) d.recvPath (fs.put d.recvPath file) = .ok s ∧
      s.msgr = net.node h.2 ∧ (∀ ps, fs.Fresh (d.paths ++ ps) → s.fs.Fresh ps) ∧ s.pushed = none ∧
      Sent.tokens s.sent = [.packet (net.addr h'.2) file'] ∧
      Layered (InLayer enc) (h' :: rest) (p.core time) file' := by
  obtain ⟨x, ⟨c, t, hc, rfl⟩, hx⟩ := Layered.cons_iff.1 hl
  obtain ⟨x', ⟨c', t', hc', rfl⟩, hx'⟩ := Layered.cons_iff.1 hx
  have hfrom : h'.1 = h.2 := fst_eq_of_hops hh
  have hnode : h.2 ∈ net.ids := hr.snd_mem_ids (hh ▸ by simp)
  have hnode' : h'.2 ∈ net.ids := hr.snd_mem_ids (hh ▸ by simp)
  have hdec := henc _ _ _ hc hnode
  rw [hfrom] at hdec
  obtain ⟨s, hs, hmsgr, hfs, hpush, -, -, hsent⟩ := handle_relayed (f := h.1) t
    (net.name_eq _ hnode) hd.fresh hd.opens (net.authorized _ hnode)
    (hr.length_fst_le (hh ▸ by simp)) (net.length_le' hnode) (net.length_le' hnode') hdec
  rw [getD_nodeList hnode hnode', if_pos (hd.connect _)] at hsent
  rw [index_node hnode hnode'] at hmsgr
  refine ⟨s, header h.2 h'.2 0 d.time ++ c', hs, hmsgr, fun ps hps => ?_, hpush, ?_, ?_⟩
  · rw [hfs]
    exact fresh_relayed hps _ _ _ _ _
  · rw [hsent]
    rfl
  · exact ⟨x', ⟨c', d.time, hc', by rw [hfrom]⟩, hx'⟩

/-- A packet of the last hop is pushed. -/
theorem receive_delivered (h0 : 0 ∉ p.text) (hr : net.IsRoute p route)
    (hh : hops route = done ++ [h])
    (hl : Layered (InLayer net.Opens) [h] (p.core time) file) (hd : d.Good fs) :
    ∃ s, handle net.env d (net.node h.2) d.recvPath (fs.put d.recvPath file) = .ok s ∧
      s.msgr = net.node h.2 ∧ (∀ ps, fs.Fresh (d.paths ++ ps) → s.fs.Fresh ps) ∧ s.sent = none ∧
      s.pushed = some (p.sender, p.sender ++ ascii ": " ++ p.text) ∧ h.2 = p.recipient := by
  obtain ⟨_, ⟨c, t, hc, rfl⟩, rfl⟩ := hl
  have hlast : h.2 = p.recipient := (snd_eq_of_hops hr.ne_nil hh).trans hr.getLastD
  have hnode : h.2 ∈ net.ids := hr.snd_mem_ids (hh ▸ by simp)
  have hdec := hc hnode
  rw [Parcel.core, ← hlast] at hdec
  obtain ⟨s, hs, hmsgr, hfs, hpush, hsent⟩ := handle_delivered (f := h.1) t
    (net.name_eq _ hnode) hd.fresh (net.authorized _ hnode) (hr.length_fst_le (hh ▸ by simp))
    (net.length_le' hnode) (net.length_le' p.sender_mem) (hlast ▸ p.sender_ne.symm) h0
    hdec
  refine ⟨s, hs, hmsgr, fun ps hps => ?_, hsent, hpush, hlast⟩
  rw [hfs]
  exact (fresh_openedFiles_of_append hps _ _ _).tail.tail

/-- **A packet served by the node it is for** goes on to the next hop or is pushed, and leaves the
object as it was. -/
theorem receive_travelling (h0 : 0 ∉ p.text) (hr : net.IsRoute p route)
    (hh : hops route = done ++ h :: rest)
    (hl : Layered (InLayer net.Opens) (h :: rest) (p.core time) file) (hd : d.Good fs) :
    ∃ s, handle net.env d (net.node h.2) d.recvPath (fs.put d.recvPath file) = .ok s ∧
      s.msgr = net.node h.2 ∧ (∀ ps, fs.Fresh (d.paths ++ ps) → s.fs.Fresh ps) ∧
      Status p (Sent.tokens s.sent) (.routed route :: done.map (fun h => .received h.2) ++
        .received h.2 :: (s.pushed.map fun a => .pushed h.2 a.1 a.2).toList) := by
  cases rest with
  | nil =>
    obtain ⟨s, hs, hmsgr, hfs, hsent, hpush, hlast⟩ := receive_delivered h0 hr hh hl hd
    refine ⟨s, hs, hmsgr, hfs, ?_⟩
    have hev := Status.delivered hr
    rw [hh, List.map_append] at hev
    simpa [hsent, hpush, hlast, Sent.tokens] using hev
  | cons h' rest =>
    obtain ⟨s, file', hs, hmsgr, hfs, hpush, htok, hl'⟩ :=
      receive_relayed (fun _ _ _ h => h) hr hh hl hd
    refine ⟨s, hs, hmsgr, hfs, ?_⟩
    have hh' : hops route = (done ++ [h]) ++ h' :: rest := by
      rw [hh, List.append_assoc]
      rfl
    have hev := Status.travelling hr hh' hl'
    simpa [hpush, htok] using hev

end Steps

/-! ## Runs -/

theorem eq_of_append_cons_eq_singleton {l₁ l₂ : List Token} {t u : Token}
    (h : l₁ ++ t :: l₂ = [u]) : l₁ = [] ∧ l₂ = [] ∧ t = u := by
  cases l₁ with
  | nil => exact ⟨rfl, (List.cons_eq_cons.1 h).2, (List.cons_eq_cons.1 h).1⟩
  | cons a l => simp at h

/-- A message with a token in flight has only that one. -/
theorem Status.cases {p : net.Parcel} {l₁ l₂ : List Token} {t : Token} {log : List Event}
    (h : Status p (l₁ ++ t :: l₂) log) : l₁ = [] ∧ l₂ = [] ∧
      ((t = .send ∧ log = []) ∨ ∃ route done rest h time file, net.IsRoute p route ∧
        hops route = done ++ h :: rest ∧
        Layered (InLayer net.Opens) (h :: rest) (p.core time) file ∧
        t = .packet (net.addr h.2) file ∧
        log = .routed route :: done.map fun h => .received h.2) := by
  generalize htok : l₁ ++ t :: l₂ = tokens at h
  cases h with
  | pending =>
    obtain ⟨rfl, rfl, rfl⟩ := eq_of_append_cons_eq_singleton htok
    exact ⟨rfl, rfl, .inl ⟨rfl, rfl⟩⟩
  | travelling hr hh hl =>
    obtain ⟨rfl, rfl, rfl⟩ := eq_of_append_cons_eq_singleton htok
    exact ⟨rfl, rfl, .inr ⟨_, _, _, _, _, _, hr, hh, hl, rfl, rfl⟩⟩
  | delivered => simp at htok

/-- **One step keeps the objects and moves one message on.** -/
theorem act_status {p : Fin n → net.Parcel} {s s' : Bytes → Host} {i : Fin n} {t : Token}
    {new l₁ l₂ : List Token} {events log : List Event} (h0 : 0 ∉ (p i).text) (hs : net.Steady s)
    (ho : Status (p i) (l₁ ++ t :: l₂) log) (ha : Act p s i t s' new events) :
    net.Steady s' ∧ Status (p i) (l₁ ++ l₂ ++ new) (log ++ events) := by
  obtain ⟨rfl, rfl, hcase⟩ := ho.cases
  cases ha with
  | send hd hr =>
    subst hr
    obtain ⟨-, rfl⟩ | ⟨_, _, _, _, _, _, -, -, -, ht, -⟩ := hcase
    · rw [hs _ (p i).sender_mem] at hd ⊢
      obtain ⟨hmsgr, hst⟩ := send_travelling hd
      exact ⟨hs.update (fun _ => hmsgr) _, hst⟩
    · cases ht
  | receive hr hhost hd hserved =>
    obtain ⟨ht, -⟩ | ⟨route, done, rest, h, time, file, hroute, hh, hl, ht, rfl⟩ := hcase
    · cases ht
    · cases ht
      have hnode : h.2 ∈ net.ids := hroute.snd_mem_ids (hh ▸ by simp)
      obtain rfl := net.addr_inj _ hr _ hnode hhost
      rw [hs _ hr] at hserved
      obtain ⟨s₁, hs₁, hmsgr, -, hst⟩ := receive_travelling h0 hroute hh hl hd
      cases hserved.symm.trans hs₁
      exact ⟨hs.update (fun _ => hmsgr) _, hst⟩
  | stop hr hhost hd hstop =>
    obtain ⟨ht, -⟩ | ⟨route, done, rest, h, time, file, hroute, hh, hl, ht, -⟩ := hcase
    · cases ht
    · cases ht
      have hnode : h.2 ∈ net.ids := hroute.snd_mem_ids (hh ▸ by simp)
      obtain rfl := net.addr_inj _ hr _ hnode hhost
      rw [hs _ hr] at hstop
      obtain ⟨s₁, hs₁, -⟩ := receive_travelling h0 hroute hh hl hd
      cases hstop.symm.trans hs₁
  | lost hhost =>
    obtain ⟨ht, -⟩ | ⟨route, done, rest, h, time, file, hroute, hh, hl, ht, -⟩ := hcase
    · cases ht
    · cases ht
      exact absurd rfl (hhost _ (hroute.snd_mem_ids (hh ▸ by simp)))

theorem invariant {p : Fin n → net.Parcel} (h0 : ∀ i, 0 ∉ (p i).text) :
    Invariant (Act p) net.Steady fun i => Status (p i) where
  step_shared hs ho ha := (act_status (h0 _) hs ho ha).1
  step_own hs ho ha := (act_status (h0 _) hs ho ha).2

/-- The messages, none of them sent yet. -/
def start (n : ℕ) (s : Bytes → Host) : Config (Bytes → Host) (Fin n) Token Event :=
  ⟨s, (List.finRange n).map (·, .send), []⟩

theorem holds_start (p : Fin n → net.Parcel) {s : Bytes → Host} (hs : net.Steady s) :
    (start n s).Holds net.Steady fun i => Status (p i) := by
  refine ⟨hs, fun i => ?_⟩
  have hown : ofActivity i ((List.finRange n).map (·, Token.send)) = [.send] := by
    have h := flatMap_single i Token.send (List.nodup_finRange n) (List.mem_finRange i)
    rw [← h]
    generalize List.finRange n = l
    induction l with
    | nil => rfl
    | cons j l ih =>
      by_cases hj : i = j
      · subst hj
        simp [ih]
      · simp [ofActivity_cons_of_ne i (Ne.symm hj), ih, hj]
  rw [start, hown]
  exact .pending

/-- The calls of `push_message` in a log, with the nodes that make them. -/
def pushes (log : List (Fin n × Event)) : List (Bytes × Bytes × Bytes) :=
  (log.map Prod.snd).filterMap Event.push

/-- The nodes that receive packets of the message `i`, in order. -/
def receivers (i : Fin n) (log : List (Fin n × Event)) : List Bytes :=
  (ofActivity i log).filterMap Event.receiver

/-- **End-to-end delivery.** Once nothing is in flight, the calls of `push_message` are one for
each message, at its recipient, and each message went along a route of its own. -/
theorem delivery {p : Fin n → net.Parcel} (h0 : ∀ i, 0 ∉ (p i).text) {s : Bytes → Host}
    (hs : net.Steady s)
    {c : Config (Bytes → Host) (Fin n) Token Event} (hrun : Interleaving.Run (Act p) (start n s) c)
    (hdone : c.flight = []) :
    (pushes c.log).Perm ((List.finRange n).map fun i =>
        ((p i).recipient, (p i).sender, (p i).sender ++ ascii ": " ++ (p i).text)) ∧
      ∀ i, ∃ route, net.IsRoute (p i) route ∧ .routed route ∈ ofActivity i c.log ∧
        receivers i c.log = route.tail ++ [(p i).recipient] := by
  obtain ⟨-, hown⟩ := run_invariant (invariant h0) (holds_start p hs) hrun
  have hlog : ∀ i, ∃ route, net.IsRoute (p i) route ∧ ofActivity i c.log =
      .routed route :: (hops route).map (fun h => .received h.2) ++
        [.pushed (p i).recipient (p i).sender ((p i).sender ++ ascii ": " ++ (p i).text)] := by
    intro i
    have hi := hown i
    rw [hdone, ofActivity_nil] at hi
    generalize hl : ofActivity i c.log = log at hi
    cases hi with
    | delivered hr => exact ⟨_, hr, rfl⟩
  constructor
  · have hone : ∀ i, (ofActivity i c.log).filterMap Event.push =
        [((p i).recipient, (p i).sender, (p i).sender ++ ascii ": " ++ (p i).text)] := by
      intro i
      obtain ⟨route, -, hl⟩ := hlog i
      rw [hl, List.cons_append, List.filterMap_cons, List.filterMap_append, List.filterMap_map]
      simp [Event.push, Function.comp_def]
    have hperm := (perm_flatMap_ofActivity (List.nodup_finRange n) c.log
      fun e _ => List.mem_finRange e.1).filterMap Event.push
    rw [List.filterMap_flatMap] at hperm
    simp only [hone] at hperm
    rwa [List.map_eq_flatMap]
  · intro i
    obtain ⟨route, hr, hl⟩ := hlog i
    refine ⟨route, hr, by simp [hl], ?_⟩
    rw [← hr.map_snd, receivers, hl, List.cons_append, List.filterMap_cons, List.filterMap_append,
      List.filterMap_map]
    simp [Event.receiver, Function.comp_def]

/-! ## Completion -/

/-- The draws of a served connection with the given temporary paths, under which no call of the
environment fails. -/
def drawing (p₁ p₂ p₃ p₄ p₅ : Bytes) : ListenDraws :=
  ⟨p₁, p₂, p₃, p₄, p₅, 0, true, fun _ => true, 0⟩

/-- A node with five new temporary paths left can serve a packet. -/
theorem exists_good {fs : Files} {k : ℕ} {ps : List Bytes} (hlen : k + 5 ≤ ps.length)
    (hps : fs.Fresh ps) :
    ∃ (d : ListenDraws) (qs : List Bytes),
      d.Good fs ∧ k ≤ qs.length ∧ fs.Fresh (d.paths ++ qs) := by
  match ps with
  | p₁ :: p₂ :: p₃ :: p₄ :: p₅ :: qs =>
    refine ⟨drawing p₁ p₂ p₃ p₄ p₅, qs, ⟨?_, rfl, fun _ => rfl⟩, ?_, hps⟩
    · exact hps.sublist (List.sublist_append_left [p₁, p₂, p₃, p₄, p₅] qs)
    · simpa using hlen
  | [] | [_] | [_, _] | [_, _, _] | [_, _, _, _] => simp at hlen

/-- **A packet on its way can be brought home**: it is enough that the nodes still to come have
new temporary paths left. -/
theorem completes {p : Fin n → net.Parcel} {i : Fin n} {route : List Bytes}
    {done rest : List (Bytes × Bytes)} {h : Bytes × Bytes} {time : ℕ} {file : Bytes}
    {s : Bytes → Host} {log : List (Fin n × Event)} (h0 : 0 ∉ (p i).text) (hs : net.Steady s)
    (hr : net.IsRoute (p i) route) (hh : hops route = done ++ h :: rest)
    (hl : Layered (InLayer net.Opens) (h :: rest) ((p i).core time) file)
    (hstock : ∀ r ∈ (h :: rest).map Prod.snd, ∃ ps : List Bytes, 5 * (rest.length + 1) ≤ ps.length ∧
      (s r).fs.Fresh ps) :
    ∃ c, Interleaving.Run (Act p) ⟨s, [(i, .packet (net.addr h.2) file)], log⟩ c ∧
      c.flight = [] := by
  induction rest generalizing done h file s log with
  | nil =>
    obtain ⟨ps, hlen, hps⟩ := hstock h.2 (by simp)
    obtain ⟨d, qs, hd, -⟩ := exists_good (k := 0) hlen hps
    have hnode : h.2 ∈ net.ids := hr.snd_mem_ids (hh ▸ by simp)
    obtain ⟨s₁, hs₁, -, -, hsent, -⟩ := receive_delivered h0 hr hh hl hd
    rw [← hs _ hnode] at hs₁
    refine ⟨_, .single (.single (.receive hnode rfl hd hs₁) log), ?_⟩
    simp [hsent, Sent.tokens]
  | cons h' rest ih =>
    obtain ⟨ps, hlen, hps⟩ := hstock h.2 (by simp)
    obtain ⟨d, qs, hd, hqs, hfresh⟩ := exists_good (k := 5 * (rest.length + 1))
      (by rw [List.length_cons] at hlen; omega) hps
    have hnode : h.2 ∈ net.ids := hr.snd_mem_ids (hh ▸ by simp)
    obtain ⟨s₁, file', hs₁, hmsgr, hfs, hpush, htok, hl'⟩ :=
      receive_relayed (fun _ _ _ h => h) hr hh hl hd
    rw [← hs _ hnode] at hs₁
    have hstep := Step.single (Act.receive (p := p) (i := i) hnode rfl hd hs₁) log
    rw [htok, hmsgr] at hstep
    have hstock' : ∀ r ∈ (h' :: rest).map Prod.snd, ∃ ps : List Bytes,
        5 * (rest.length + 1) ≤ ps.length ∧
          (Function.update s h.2 ⟨net.node h.2, s₁.fs⟩ r).fs.Fresh ps := by
      intro r hrmem
      by_cases hrh : r = h.2
      · subst hrh
        exact ⟨qs, hqs, by simpa using hfs qs hfresh⟩
      · obtain ⟨ps, hlen, hps⟩ := hstock r (List.mem_cons_of_mem _ hrmem)
        refine ⟨ps, by rw [List.length_cons] at hlen; omega, ?_⟩
        rwa [Function.update_of_ne hrh]
    have hh' : hops route = (done ++ [h]) ++ h' :: rest := by
      rw [hh, List.append_assoc]
      rfl
    obtain ⟨c, hrun, hc⟩ := ih (hs.update (fun _ => rfl) s₁.fs) hh' hl' hstock'
    exact ⟨c, .head hstep hrun, hc⟩

/-- **A message on its own can be sent and brought home.** -/
theorem send_completes {p : Fin 1 → net.Parcel} (h0 : 0 ∉ (p 0).text) {s : Bytes → Host}
    (hs : net.Steady s)
    {d : SendDraws} (hd : net.GoodSend d ((net.node (p 0).sender).route (p 0).recipient d)
      (s (p 0).sender).fs)
    (hstock : ∀ r ∈ net.ids, r ≠ (p 0).sender → ∃ ps : List Bytes,
      5 * ((net.node (p 0).sender).route (p 0).recipient d).length ≤ ps.length ∧
        (s r).fs.Fresh ps) :
    ∃ c, Interleaving.Run (Act p) (start 1 s) c ∧ c.flight = [] := by
  obtain ⟨hmsgr, hst⟩ := send_travelling hd
  rw [← hs _ (p 0).sender_mem] at hd hmsgr hst hstock
  have hstep := Step.single (Act.send (i := 0) hd rfl) []
  generalize (s (p 0).sender).msgr.sendMessage _ _ _ _ = res at hmsgr hst hstep
  generalize htok : Sent.tokens res.sent = tokens at hst hstep
  generalize hlog : [Event.routed _] = log at hst
  cases hst with
  | pending => cases hlog
  | delivered hr => simp at hlog
  | @travelling route done rest h time file hr hh hl =>
    obtain ⟨rfl, rfl⟩ : (s (p 0).sender).msgr.route (p 0).recipient d = route ∧ done = [] := by
      simpa using hlog
    have hsnd := hr.map_snd
    rw [hh, List.nil_append] at hsnd
    have hpos := List.length_pos_of_ne_nil hr.ne_nil
    have hlen := congrArg List.length hsnd
    simp only [List.length_map, List.length_cons, List.length_append, List.length_tail,
      List.length_nil] at hlen
    have hstock' : ∀ r ∈ (h :: rest).map Prod.snd, ∃ ps : List Bytes,
        5 * (rest.length + 1) ≤ ps.length ∧
          (Function.update s (p 0).sender ⟨res.msgr, res.fs⟩ r).fs.Fresh ps := by
      intro r hrmem
      have hne : r ≠ (p 0).sender := hr.ne_sender (hsnd ▸ hrmem)
      obtain ⟨ps, hps, hfresh⟩ := hstock r (hr.mem_ids_of_tail (hsnd ▸ hrmem)) hne
      refine ⟨ps, by omega, ?_⟩
      rwa [Function.update_of_ne hne]
    obtain ⟨c, hrun, hc⟩ :=
      completes h0 (hs.update (fun hm => hmsgr.trans (hs _ hm)) _) hr hh hl hstock'
    exact ⟨c, .head hstep hrun, hc⟩

/-! ## Three nodes -/

/-- The nodes of the list of `exampleNode`, with a gpg for examples. -/
def example₃ : Network where
  env := ⟨exampleDecrypt, fun _ => [], fun _ => (true, [])⟩
  ids := exampleNode.nodeList.keys
  addr k := exampleNode.nodeList.getD k []
  node r := { exampleNode with gpg := ⟨r, ascii "secret"⟩, name := r }
  length_le := by decide
  addr_inj := by decide
  name_eq _ _ := rfl
  authorized := by decide
  nodeList_eq r _ k := by
    split_ifs with h
    · exact Std.ExtTreeMap.getElem?_eq_some_getD (Std.ExtTreeMap.mem_keys.1 h)
    · exact Std.ExtTreeMap.getElem?_eq_none (mt Std.ExtTreeMap.mem_keys.2 h)

/-- `a` writes to `b`. -/
def exampleParcel (text : Bytes) : example₃.Parcel :=
  ⟨ascii "a", ascii "b", text, by decide, by decide, by decide⟩

/-- The three hosts, without files. -/
def exampleHosts (r : Bytes) : Host := ⟨example₃.node r, Files.blank⟩

theorem goodSend_exampleDraws : example₃.GoodSend (exampleDraws [])
    (exampleNode.route (ascii "b") (exampleDraws [])) Files.blank where
  shuffle _ := List.Perm.refl _
  fresh := fresh_exampleDraws []
  status _ := rfl
  opens _ := rfl
  connect _ := rfl
  ideal _ r x _ := exampleDecrypt_self (cstr r) (cstr (ascii "secret")) x

end Network

end Onion5
