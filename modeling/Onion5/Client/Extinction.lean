import Onion5.Client.Reception

/-!
# Relaying dies out

A packet has no hop counter, and nodes forward packets to each other and to themselves, whoever
made them. What ends the way of a packet is that a relay takes one layer of encryption off it and
puts none on.

Gpg is ideal symbolic encryption: a ciphertext is made for one recipient from one plaintext
(`RelayNetwork.sealed`), it decrypts for that recipient only, and nothing is inside itself. The
depth of a packet is the number of layers that can be taken off it one after the other.

* `RelayNetwork.act_cases`: a packet that a node forwards is less deep than the one it has
  received, whatever the types of the two, and whether what was decrypted is well formed or not.
* `RelayNetwork.dies_out`: so there are at most as many steps as the depths of the packets allow.
-/

namespace Onion5

open Message Interleaving

/-! ## Packets inside packets -/

/-- The body that `deserialize` takes from a packet of type 0. -/
def packetBody (file : Bytes) : Option Bytes :=
  match readHeader clear file with
  | .ok (some (m, r)) => if m.type = 0 then some (copyLoop r.is) else none
  | _ => none

/-- The body is part of the packet. -/
theorem isInfix_of_packetBody {file b : Bytes} (h : packetBody file = some b) : b <:+: file := by
  unfold packetBody at h
  split at h
  · rename_i m r hheader
    split_ifs at h with htype
    cases h
    obtain ⟨⟨rest, eof⟩, buff, s⟩ := r
    cases eof with
    | true =>
      rw [copyLoop, InStream.chunks_eof]
      exact List.nil_infix
    | false =>
      rw [copyLoop, InStream.flatten_chunks]
      obtain ⟨-, -, -, time, hfile⟩ := readHeader_whole hheader rfl
      rw [hfile]
      exact (List.suffix_append _ _).isInfix
  · cases h

theorem packetBody_header {f t : Bytes} (hf : f.length ≤ 1025) (ht : t.length ≤ 1025)
    (type : UInt8) (time : ℕ) (body : Bytes) :
    packetBody (header f t type time ++ body) = if type = 0 then some body else none := by
  obtain ⟨r, hheader, hat⟩ := readHeader_header clear hf ht type time body
  have hcopy : copyLoop r.is = body := by rw [hat.is_eq, copyLoop, InStream.flatten_chunks]
  simp only [packetBody, hheader, hcopy]

/-! ## Networks -/

/-- Nodes that run `liste_loop`, by address, with whatever names and node lists. -/
structure RelayNetwork where
  env : Env
  /-- the addresses at which a node listens -/
  hosts : List Bytes
  /-- the credentials of the node at an address -/
  gpg : Bytes → GPG
  /-- the recipient and the plaintext of a ciphertext -/
  sealed : Bytes → Option (Bytes × Bytes)
  /-- only a ciphertext for the node decrypts, to its plaintext -/
  decrypt_iff : ∀ h ∈ hosts, ∀ c x,
    env.decrypt (cstr (gpg h).name) (cstr (gpg h).passphrase) c = some x ↔
      sealed c = some ((gpg h).name, x)
  /-- being part of the plaintext of a ciphertext goes down to the ground -/
  finite : WellFounded fun y c => ∃ r x, sealed c = some (r, x) ∧ y <:+: x

namespace RelayNetwork

variable (net : RelayNetwork)

/-- The number of layers of a body: as long as it is a ciphertext, that of the packet inside and
one. -/
noncomputable def bodyDepth (c : Bytes) : ℕ :=
  match _h : net.sealed c with
  | none => 0
  | some (_, x) =>
    match _hb : packetBody x with
    | none => 1
    | some b => bodyDepth b + 1
termination_by net.finite.wrap c
decreasing_by exact ⟨_, x, _h, isInfix_of_packetBody _hb⟩

/-- The encryption depth of a packet file. Only the body of a packet of type 0 is ever taken for a
ciphertext. -/
noncomputable def depth (file : Bytes) : ℕ := (packetBody file).elim 0 net.bodyDepth

variable {net}

theorem bodyDepth_of_sealed {c r x : Bytes} (h : net.sealed c = some (r, x)) :
    net.bodyDepth c = net.depth x + 1 := by
  rw [bodyDepth]
  split
  · rename_i hnone
    cases h.symm.trans hnone
  · rename_i r' x' hsome
    cases h.symm.trans hsome
    unfold depth
    split
    · rename_i hb
      rw [hb]
      rfl
    · rename_i b hb
      rw [hb]
      rfl

end RelayNetwork

/-! ## One packet -/

section Handle

variable {env : Env} {d : ListenDraws} {msgr : Messanger} {fs fs' : Files} {file : Bytes}
  {m : Message}

theorem packetBody_of_readHeader {m : Message} {r : Reader}
    (h : readHeader clear file = .ok (some (m, r))) :
    packetBody file = if m.type = 0 then some (copyLoop r.is) else none := by
  simp only [packetBody, h]

/-- What the outer phase lets through is a packet of type 0, whose body is put into a file. -/
theorem openOuter_cases (hf : fs.Fresh d.paths)
    (h : openOuter d msgr d.recvPath (fs.put d.recvPath file) = .ok (some m, fs')) :
    ∃ c, packetBody file = some c ∧ m.content = d.outerPath ∧
      fs' = (fs.put d.recvPath file).put d.outerPath c := by
  obtain ⟨⟨ok, m', fs''⟩, hdes, h⟩ := Run.bind_eq_ok.1 h
  dsimp only at h
  split_ifs at h with hok hto htype
  all_goals cases h
  rcases deserialize_cases (hf.openRead_put List.mem_cons_self file) hdes with
    ⟨rfl, -⟩ | ⟨m₁, r, hheader, -, -, heq, hbody⟩
  · simp at hok
  · have h0 : m₁.type = 0 := heq.symm.trans (by simpa using htype)
    obtain ⟨hcontent, hfs⟩ := hbody h0
    exact ⟨_, by rw [packetBody_of_readHeader hheader, if_pos h0], hcontent, hfs⟩

/-- What the inner phase reads is what gpg has made of the file. -/
theorem openInner_cases {filename : Bytes} (hne : cstr filename ≠ cstr d.plainPath)
    (h : openInner env d msgr filename fs = .ok (some m, fs')) :
    ∃ c x ok, fs.openRead filename = some c ∧ msgr.Decrypts env c x ∧
      Message.clear.deserialize d.plainPath d.innerPath d.heap (fs.put d.plainPath x) =
        .ok (ok, m, fs') := by
  unfold openInner at h
  by_cases hok : (msgr.gpg.decryptFile env.decrypt filename filename d.plainPath fs).1 = true
  · obtain ⟨c, x, hread, hdec, heq⟩ := GPG.decryptFile_cases hne hok
    simp only [heq, not_true, if_false] at h
    obtain ⟨⟨ok, m', fs''⟩, hdes, h⟩ := Run.bind_eq_ok.1 h
    cases h
    exact ⟨c, x, ok, hread, hdec, hdes⟩
  · simp only [if_pos hok] at h
    cases h

/-- What a message read from a packet is serialised to: a packet with the same body, or none. -/
theorem packetBody_serialize {input x file' : Bytes} {ok : Bool} {heap : ℕ} {locate path : Bytes}
    {time : ℕ} {opens : Bool} (hf : fs.Fresh [locate, path]) (hread : fs.openRead input = some x)
    (hdes : Message.clear.deserialize input locate heap fs = .ok (ok, m, fs'))
    (hser : (m.serialize path time opens fs').2.openRead (m.serialize path time opens fs').1 =
      some file') :
    packetBody file' = none ∨ packetBody file' = packetBody x := by
  have hpath : path ∈ [locate, path] := List.mem_cons_of_mem _ List.mem_cons_self
  have hperm : fs'.readable (cstr path) ∧ fs'.canWrite path := by
    have hr : fs.readable (cstr path) := by
      rw [hf.cstr_eq hpath]
      exact hf.readable _ hpath
    rcases deserialize_files hdes with rfl | ⟨target, body, -, rfl⟩
    · exact ⟨hr, hf.canWrite hpath⟩
    · rw [Files.readable_put, Files.canWrite_put]
      exact ⟨hr, hf.canWrite hpath⟩
  obtain ⟨rest, rfl, hrest⟩ := serialize_cases hperm.1 hperm.2 hser
  rcases deserialize_cases hread hdes with ⟨-, rfl⟩ | ⟨m₁, r, hheader, hfrom, hto, htype, hbody⟩
  · refine .inl ?_
    rw [packetBody_header (by decide) (by decide), if_neg (by decide)]
  · obtain ⟨hfl, htl⟩ := length_of_readHeader hheader
    rw [packetBody_header (hfrom ▸ hfl) (hto ▸ htl), packetBody_of_readHeader hheader, htype]
    by_cases h0 : m₁.type = 0
    · obtain ⟨hcontent, rfl⟩ := hbody h0
      have hne : cstr m.content ≠ cstr path := by
        rw [hcontent]
        exact hf.cstr_head_ne List.mem_cons_self
      have hcopy := hrest (htype.trans h0) hne
      rw [hcontent, hf.openRead_put List.mem_cons_self] at hcopy
      cases hcopy
      exact .inr rfl
    · exact .inl (if_neg h0)

/-- **What a node forwards**: nothing, or a packet in which it has the body of the decrypted packet
at most. -/
theorem handle_sent (hf : fs.Fresh d.paths) {served : Served}
    (h : handle env d msgr d.recvPath (fs.put d.recvPath file) = .ok served) :
    Sent.tokens served.sent = [] ∨ ∃ c x host file',
      packetBody file = some c ∧ msgr.Decrypts env c x ∧
        Sent.tokens served.sent = [.packet host file'] ∧
        (packetBody file' = none ∨ packetBody file' = packetBody x) := by
  rw [handle_file hf] at h
  obtain ⟨⟨opened, fs₂⟩, hopen, h⟩ := Run.bind_eq_ok.1 h
  match opened with
  | none =>
    cases h
    exact .inl rfl
  | some m =>
    obtain ⟨⟨outer, fs₁⟩, houter, hinner⟩ := Run.bind_eq_ok.1 hopen
    match outer with
    | none => cases hinner
    | some m₀ =>
      obtain ⟨c, hbody, hcontent, rfl⟩ := openOuter_cases hf houter
      dsimp only at hinner
      rw [hcontent] at hinner
      have hfresh := hf.put_head file
      have hne : cstr d.outerPath ≠ cstr d.plainPath := hfresh.cstr_head_ne List.mem_cons_self
      obtain ⟨c', x, ok, hread, hdec, hdes⟩ := openInner_cases hne hinner
      cases (hfresh.openRead_put List.mem_cons_self c).symm.trans hread
      cases h
      unfold dispatch
      split_ifs with hfrom hto
      · cases hconnect : d.connect (msgr.nodeList.index m.to_).1 with
        | false => simp [relay, hconnect, Sent.tokens]
        | true =>
          cases hser : (m.serialize d.relayPath d.time d.opens fs₂).2.openRead
              (m.serialize d.relayPath d.time d.opens fs₂).1 with
          | none => simp [relay, hconnect, hser, Sent.tokens]
          | some file' =>
            refine .inr ⟨c, x, (msgr.nodeList.index m.to_).1, file', hbody, hdec, ?_, ?_⟩
            · simp [relay, hconnect, hser, Sent.tokens]
            · exact packetBody_serialize (fresh_openedFiles hf file c x)
                (openRead_openedFiles hf file c x) hdes hser
      · exact .inl rfl
      · exact .inl rfl

theorem handle_gpg (hf : fs.Fresh d.paths) {served : Served}
    (h : handle env d msgr d.recvPath (fs.put d.recvPath file) = .ok served) :
    served.msgr.gpg = msgr.gpg := by
  have hlen := (hf.isTempPath _ List.mem_cons_self).length_lt
  rcases handle_nodeList hlen h with ⟨nodes, -, heq⟩ | ⟨-, heq | ⟨-, -, -, m, -, -, -, heq⟩⟩
  all_goals rw [heq]

end Handle

/-! ## Runs -/

namespace RelayNetwork

variable {ι : Type*} (net : RelayNetwork)

/-- Every node has its credentials. -/
def Running (s : Bytes → Host) : Prop := ∀ h ∈ net.hosts, (s h).msgr.gpg = net.gpg h

/-- The steps of the network: a node handles a packet. A packet to an address at which no node
listens is lost, and a call that does not return takes its packet with it. -/
inductive Act : Action (Bytes → Host) ι Token Event
  | receive {s i host file d} {served : Served} (hhost : host ∈ net.hosts)
      (hd : (s host).fs.Fresh d.paths)
      (hs : handle net.env d (s host).msgr d.recvPath ((s host).fs.put d.recvPath file) =
        .ok served) :
      Act s i (.packet host file) (Function.update s host ⟨served.msgr, served.fs⟩)
        (Sent.tokens served.sent) [.received host]
  | stop {s i host file d} {e : Stop} (hhost : host ∈ net.hosts) (hd : (s host).fs.Fresh d.paths)
      (hs : handle net.env d (s host).msgr d.recvPath ((s host).fs.put d.recvPath file) =
        .error e) :
      Act s i (.packet host file) s [] [.received host]
  | lost {s i host file} (hhost : host ∉ net.hosts) : Act s i (.packet host file) s [] []

/-- The number of steps that a packet is good for. -/
noncomputable def weight : Token → ℕ
  | .send => 0
  | .packet _ file => net.depth file + 1

variable {net}

/-- Taking a layer off a packet. -/
theorem depth_lt_of_packetBody {file file' c r x : Bytes} (hc : packetBody file = some c)
    (hx : net.sealed c = some (r, x))
    (h : packetBody file' = none ∨ packetBody file' = packetBody x) :
    net.depth file' < net.depth file := by
  have hfile : net.depth file = net.depth x + 1 := by
    rw [depth, hc]
    exact bodyDepth_of_sealed hx
  rcases h with h | h
  · have hfile' : net.depth file' = 0 := by rw [depth, h, Option.elim_none]
    omega
  · have hfile' : net.depth file' = net.depth x := by rw [depth, depth, h]
    omega

/-- **One step**: a packet is consumed, and there is at most one new packet, which is less deep. -/
theorem act_cases {s s' : Bytes → Host} {i : ι} {t : Token} {new : List Token}
    {events : List Event} (hs : net.Running s) (ha : net.Act s i t s' new events) :
    net.Running s' ∧ ∃ host file, t = .packet host file ∧ (new = [] ∨
      ∃ host' file', new = [.packet host' file'] ∧ net.depth file' < net.depth file) := by
  cases ha with
  | @receive _ _ host file d served hhost hd hserved =>
    constructor
    · intro h hh
      by_cases heq : h = host
      · subst heq
        rw [Function.update_self, ← hs h hh]
        exact handle_gpg hd hserved
      · rw [Function.update_of_ne heq]
        exact hs h hh
    · refine ⟨host, file, rfl, ?_⟩
      rcases handle_sent hd hserved with h | ⟨c, x, host', file', hc, hdec, hnew, hbody⟩
      · exact .inl h
      · rw [Messanger.Decrypts, hs host hhost, net.decrypt_iff host hhost] at hdec
        exact .inr ⟨host', file', hnew, depth_lt_of_packetBody hc hdec hbody⟩
  | stop => exact ⟨hs, _, _, rfl, .inl rfl⟩
  | lost => exact ⟨hs, _, _, rfl, .inl rfl⟩

theorem consumes : Consumes (RelayNetwork.Act net : Action _ ι _ _) net.Running net.weight where
  step_shared hs ha := (act_cases hs ha).1
  weight_lt hs ha := by
    obtain ⟨-, host, file, rfl, rfl | ⟨host', file', rfl, hlt⟩⟩ := act_cases hs ha
    · exact Nat.succ_pos _
    · exact Nat.succ_lt_succ hlt

/-- What `exampleEncrypt` has made a ciphertext from. -/
def exampleSealed (c : Bytes) : Option (Bytes × Bytes) :=
  let n := ofBE (c.take 8)
  if 8 + n ≤ c.length then some ((c.drop 8).take n, c.drop (8 + n)) else none

theorem exampleSealed_eq_some_iff {c r x : Bytes} (hr : r.length < 256 ^ 8) :
    exampleSealed c = some (r, x) ↔ c = exampleEncrypt r x := by
  constructor
  · intro h
    simp only [exampleSealed] at h
    split_ifs at h with hlen
    obtain ⟨hname, hx⟩ := Prod.mk.inj (Option.some.inj h)
    have h8 : (c.take 8).length = 8 := by
      rw [List.length_take]
      omega
    have hrlen : r.length = ofBE (c.take 8) := by
      rw [← hname, List.length_take, List.length_drop]
      omega
    have hbe := be_ofBE (c.take 8)
    rw [h8, ← hrlen] at hbe
    rw [exampleEncrypt, hbe, ← hname, ← hx, List.append_assoc, ← List.drop_drop,
      List.take_append_drop, List.take_append_drop]
  · rintro rfl
    have htake : (exampleEncrypt r x).take 8 = be 8 r.length := by
      rw [exampleEncrypt, List.append_assoc]
      exact List.take_left' (length_be 8 _)
    have hdrop : (exampleEncrypt r x).drop 8 = r ++ x := by
      rw [exampleEncrypt, List.append_assoc]
      exact List.drop_left' (length_be 8 _)
    have hlen : 8 + r.length ≤ (exampleEncrypt r x).length := by
      simp [exampleEncrypt]
    rw [exampleSealed, htake, ofBE_be_of_lt hr, if_pos hlen, ← List.drop_drop, hdrop,
      List.take_left, List.drop_left]

theorem exampleDecrypt_eq_some_iff {name c x : Bytes} (passphrase : Bytes) :
    exampleDecrypt name passphrase c = some x ↔ c = exampleEncrypt name x := by
  constructor
  · intro h
    unfold exampleDecrypt at h
    split_ifs at h with htake
    rw [exampleEncrypt, ← htake, ← Option.some.inj h, List.take_append_drop]
  · rintro rfl
    exact exampleDecrypt_self name passphrase x

theorem length_lt_of_exampleSealed {c r x : Bytes} (h : exampleSealed c = some (r, x)) :
    x.length < c.length := by
  simp only [exampleSealed] at h
  split_ifs at h with hlen
  rw [← (Prod.mk.inj (Option.some.inj h)).2, List.length_drop]
  omega

/-- The node `a`, at whose address alone somebody listens. -/
def exampleRelayNetwork : RelayNetwork where
  env := exampleEnv
  hosts := [ascii "10.0.0.1"]
  gpg _ := exampleNode.gpg
  sealed := exampleSealed
  decrypt_iff _ _ c x := by
    have hname : exampleNode.gpg.name.length < 256 ^ 8 := by decide
    rw [exampleSealed_eq_some_iff hname]
    exact exampleDecrypt_eq_some_iff (cstr exampleNode.gpg.passphrase)
  finite := by
    refine Subrelation.wf ?_ (measure List.length).wf
    rintro y c ⟨r, x, hseal, hy⟩
    exact hy.length_le.trans_lt (length_lt_of_exampleSealed hseal)

/-- A packet from `a` to `a`. -/
def examplePacket (body : Bytes) : Bytes := Message.header (ascii "a") (ascii "a") 0 0 ++ body

/-- The packet of `a` in another one. -/
def exampleLoop : Config (Bytes → Host) Unit Token Event :=
  ⟨fun _ => ⟨exampleNode, Files.blank⟩,
    [((), .packet (ascii "10.0.0.1") (examplePacket (exampleEncrypt (ascii "a")
      (examplePacket []))))], []⟩

theorem running_exampleLoop : exampleRelayNetwork.Running exampleLoop.shared := fun _ _ => rfl

/-- `a` takes a layer off and sends the packet to itself. -/
theorem step_exampleLoop : ∃ c, Step exampleRelayNetwork.Act exampleLoop c ∧
    c.flight = [((), .packet (ascii "10.0.0.1") (examplePacket []))] := by
  have hdec : exampleNode.Decrypts exampleEnv (exampleEncrypt (ascii "a") (examplePacket []))
      (examplePacket []) := exampleDecrypt_self (ascii "a") (ascii "secret") _
  set d := Network.drawing (exampleTemppath 0) (exampleTemppath 1) (exampleTemppath 2)
    (exampleTemppath 3) (exampleTemppath 4)
  have hf : Files.blank.Fresh d.paths := fresh_exampleListenDraws
  obtain ⟨s, hs, -, -, -, -, -, hsent⟩ := handle_relayed 0
    (show exampleNode.name = ascii "a" from rfl) hf rfl (by decide)
    (show (ascii "a").length ≤ 1025 by decide) (by decide) (by decide) hdec
  have haddr : exampleNode.nodeList.getD (ascii "a") [] = ascii "10.0.0.1" := by decide
  have hconnect : d.connect (ascii "10.0.0.1") = true := rfl
  rw [haddr, if_pos hconnect] at hsent
  have hact : exampleRelayNetwork.Act exampleLoop.shared () _ _ _ _ :=
    .receive (List.mem_cons_self (a := ascii "10.0.0.1")) hf hs
  rw [hsent] at hact
  exact ⟨_, .single hact [], rfl⟩

end RelayNetwork

end Onion5
