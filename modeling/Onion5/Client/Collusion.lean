import Onion5.Client.Anonymity
import Onion5.Foundations.Watched

/-!
# Texts and coalitions

What participants can learn who pool their credentials and see every packet on its way, over whole
runs of the network, when a ciphertext can be opened only by those it is made for (`SealedAct`). At
every step such a coalition sees the message that the step belongs to, its route, the nodes that
receive its packets, the address of every packet and as much of the packet as the credentials of all
members open (`glimpse`), and what is pushed at its members. It does not see the lengths of
ciphertexts, or the times in the headers.

* `sendMessage_alike`: which paths `send_message` leaves in use does not depend on the text.
* `Network.seen_paired`: a packet shows the text to a coalition with the recipient only.
* `Network.simulates`: every step has one with other texts, on files that differ in what they hold.
* `Network.texts_hidden`: a coalition sees the same of the network when the texts that are not for
  its members are other ones.
-/

namespace Onion5

open Message Interleaving

/-! ## Files that differ in what they hold -/

/-- The same paths name files, and the same paths may be used. -/
structure Files.Alike (fs fs' : Files) : Prop where
  get_eq_none_iff : ∀ p, fs.get p = none ↔ fs'.get p = none
  readable : fs.readable = fs'.readable
  writable : fs.writable = fs'.writable

namespace Files

variable {fs fs' : Files}

theorem Alike.refl (fs : Files) : fs.Alike fs := ⟨fun _ => Iff.rfl, rfl, rfl⟩

/-- The same path is written on both sides, whatever is written. -/
theorem Alike.put (h : fs.Alike fs') (p a b : Bytes) : (fs.put p a).Alike (fs'.put p b) where
  get_eq_none_iff q := by
    by_cases hw : fs.canWrite p
    · have hw' : fs'.canWrite p := by rwa [canWrite, ← h.writable]
      by_cases hq : q = cstr p
      · rw [hq, get_put_self hw, get_put_self hw']
        simp
      · rw [get_put_of_ne hq, get_put_of_ne hq, h.get_eq_none_iff]
    · have hw' : ¬ fs'.canWrite p := by rwa [canWrite, ← h.writable]
      rw [Files.put, Files.put, dif_neg hw, dif_neg hw', h.get_eq_none_iff]
  readable := by rw [readable_put, readable_put, h.readable]
  writable := by rw [writable_put, writable_put, h.writable]

theorem Alike.remove (h : fs.Alike fs') (p : Bytes) : (fs.remove p).Alike (fs'.remove p) where
  get_eq_none_iff q := by
    by_cases hq : q = cstr p
    · rw [hq, get_remove_self, get_remove_self]
    · rw [get_remove_of_ne hq, get_remove_of_ne hq, h.get_eq_none_iff]
  readable := h.readable
  writable := h.writable

/-- A path can be opened on both sides or on neither. -/
theorem Alike.openRead (h : fs.Alike fs') (p : Bytes) :
    (fs.openRead p = none ∧ fs'.openRead p = none) ∨
      ∃ x x', fs.openRead p = some x ∧ fs'.openRead p = some x' := by
  have hiff : fs.openRead p = none ↔ fs'.openRead p = none := by
    unfold Files.openRead
    rw [h.readable]
    split_ifs
    · exact h.get_eq_none_iff _
    · exact Iff.rfl
  cases hx : fs.openRead p with
  | none => exact .inl ⟨rfl, hiff.1 hx⟩
  | some x =>
    have hne : fs'.openRead p ≠ none := by
      rw [ne_eq, ← hiff, hx]
      exact Option.some_ne_none x
    obtain ⟨x', hx'⟩ := Option.ne_none_iff_exists'.1 hne
    exact .inr ⟨x, x', rfl, hx'⟩

/-- The same temporary paths are new. -/
theorem Alike.fresh (h : fs.Alike fs') {ps : List Bytes} (hf : fs.Fresh ps) : fs'.Fresh ps where
  nodup := hf.nodup
  isTempPath := hf.isTempPath
  unused p hp := (h.get_eq_none_iff p).1 (hf.unused p hp)
  readable p hp := h.readable ▸ hf.readable p hp
  writable p hp := h.writable ▸ hf.writable p hp

end Files

/-! ## Sending -/

section Send

variable {g : GPG} {fs fs' : Files}

/-- Whether `encrypt_file` succeeds does not depend on what its input holds. -/
theorem encryptFile_alike (d : LayerDraws) (input recipient output temp : Bytes)
    (h : fs.Alike fs') :
    (g.encryptFile d.gpg input recipient output temp fs).2.1 =
        (g.encryptFile d.gpg input recipient output temp fs').2.1 ∧
      (g.encryptFile d.gpg input recipient output temp fs).2.2.Alike
        (g.encryptFile d.gpg input recipient output temp fs').2.2 := by
  have hput := h.put temp [] []
  unfold GPG.encryptFile
  split_ifs
  · simp only [saveTempfile_eq]
    obtain ⟨hx, hx'⟩ | ⟨x, x', hx, hx'⟩ := hput.openRead input
    · rw [hx, hx']
      exact ⟨rfl, hput.remove temp⟩
    · rw [hx, hx', Option.bind_some, Option.bind_some, LayerDraws.gpg, LayerDraws.gpg]
      split_ifs
      · exact ⟨rfl, hput.put temp _ _⟩
      · exact ⟨rfl, hput.remove temp⟩
  · exact ⟨rfl, h⟩

/-- Nor does it for `serialize` on what the body holds. -/
theorem serialize_alike (from_ to_ path locate : Bytes) (time : ℕ) (opens : Bool)
    (h : fs.Alike fs') :
    ((binary from_ to_ path).serialize locate time opens fs).1 =
        ((binary from_ to_ path).serialize locate time opens fs').1 ∧
      ((binary from_ to_ path).serialize locate time opens fs).2.Alike
        ((binary from_ to_ path).serialize locate time opens fs').2 := by
  have hput := h.put locate [] []
  simp only [serialize, binary, true_or, if_true, show ((0 : UInt8) = 2) = False by decide,
    if_false]
  cases opens with
  | false => exact ⟨rfl, hput.put locate _ _⟩
  | true =>
    rw [if_pos rfl, if_pos rfl]
    obtain ⟨hx, hx'⟩ | ⟨x, x', hx, hx'⟩ := hput.openRead path
    · rw [hx, hx']
      exact ⟨rfl, hput.put locate _ _⟩
    · rw [hx, hx']
      exact ⟨rfl, hput.put locate _ _⟩

/-- The variables of the layer loop, over files that differ in what they hold. -/
structure Layering.Alike (st st' : Layering) : Prop where
  tempFrom : st.tempFrom = st'.tempFrom
  tempFile : st.tempFile = st'.tempFile
  filename : st.filename = st'.filename
  fs : st.fs.Alike st'.fs

theorem layerStep_alike {d : LayerDraws} (hop : Bytes) {st st' : Layering} (h : st.Alike st') :
    (layerStep g d hop st).Alike (layerStep g d hop st') := by
  obtain ⟨henc, hfs⟩ := encryptFile_alike (g := g) d st'.filename st'.tempFrom st'.tempFile
    d.encPath h.fs
  obtain ⟨hser, hfs'⟩ := serialize_alike hop st'.tempFrom
    (g.encryptFile d.gpg st'.filename st'.tempFrom st'.tempFile d.encPath st'.fs).2.1 d.serPath
    d.time d.opens hfs
  unfold layerStep
  rw [h.tempFrom, h.tempFile, h.filename]
  dsimp only
  rw [henc]
  exact ⟨rfl, rfl, hser, hfs'⟩

theorem layerLoop_alike {layer : ℕ → LayerDraws} {rev : List Bytes} {i : ℕ} {st st' : Layering}
    (h : st.Alike st') : (layerLoop g layer i rev st).Alike (layerLoop g layer i rev st') := by
  induction rev generalizing i st st' with
  | nil => exact h
  | cons hop rest ih => exact ih (layerStep_alike hop h)

/-- **The files that `send_message` leaves** have the same names, whatever the text. -/
theorem sendMessage_alike (m : Messanger) (to_ text text' : Bytes) (d : SendDraws)
    (h : fs.Alike fs') :
    (m.sendMessage to_ text d fs).fs.Alike (m.sendMessage to_ text' d fs').fs := by
  have hlayers : ∀ route, (m.layers route text d fs).Alike (m.layers route text' d fs') := by
    intro route
    unfold Messanger.layers
    simp only [serialize_text]
    exact layerLoop_alike ⟨rfl, rfl, rfl, h.put d.textPath _ _⟩
  unfold Messanger.sendMessage
  dsimp only
  split_ifs
  · exact (hlayers _).fs
  · exact (hlayers _).fs
  · exact h

end Send

/-! ## What a coalition reads -/

/-- An event as the coalition `A` sees it: what is pushed at other nodes is not seen. -/
def Event.veil (A : List Bytes) : Event → Event
  | .pushed node from_ content => .pushed node from_ (if A.contains node then content else [])
  | e => e

/-- What a coalition sees of a step: the message that it belongs to, the events, and the address and
the readable part of each packet that is sent. -/
structure Sight (n : ℕ) where
  message : Fin n
  events : List Event
  packets : List (Bytes × Seen)

namespace Network

/-- gpg with the credentials of all members of `A`. -/
def pooled (net : Network) (A : List Bytes) : Env :=
  { net.env with
    decrypt := fun _ _ c => A.findSome? fun r =>
      net.env.decrypt (cstr (net.node r).gpg.name) (cstr (net.node r).gpg.passphrase) c }

/-- `k` layers of a file, read with these credentials. -/
def glimpse (net : Network) (A : List Bytes) (k : ℕ) (file : Bytes) : Seen :=
  look (net.pooled A) ⟨⟨[], []⟩, [], ∅⟩ k file

/-- A packet that is sent, as the coalition sees it. -/
def seen (net : Network) (A : List Bytes) (k : ℕ) : Token → Option (Bytes × Seen)
  | .send => none
  | .packet host file => some (host, net.glimpse A k file)

/-- What the coalition `A` sees of a step. -/
def sight {n : ℕ} (net : Network) (A : List Bytes) (k : ℕ) (i : Fin n) (new : List Token)
    (events : List Event) : Sight n :=
  ⟨i, events.map (Event.veil A), new.filterMap (net.seen A k)⟩

variable {net : Network} {n : ℕ} {A : List Bytes}

section Glimpse

variable {r f t x c : Bytes}

/-- A coalition of one reads what this node reads. -/
theorem glimpse_singleton (r : Bytes) (k : ℕ) (file : Bytes) :
    net.glimpse [r] k file = look net.env (net.node r) k file := by
  have hdec : ∀ u v c, (net.pooled [r]).decrypt u v c =
      net.env.decrypt (cstr (net.node r).gpg.name) (cstr (net.node r).gpg.passphrase) c := by
    intro u v c
    simp [pooled]
  unfold glimpse
  induction k generalizing file with
  | zero => rfl
  | succ k ih => simp only [look, hdec, ih]

/-- A ciphertext for a member is opened. -/
theorem pooled_of_mem (hA : ∀ q ∈ A, q ∈ net.ids) (hr : r ∈ A) (hc : net.Seals r x c)
    (u v : Bytes) : (net.pooled A).decrypt u v c = some x := by
  obtain ⟨hopens, hothers⟩ := hc
  change A.findSome? _ = some x
  induction A with
  | nil => cases hr
  | cons q A ih =>
    by_cases hqr : q = r
    · subst hqr
      have hdec : net.env.decrypt (cstr (net.node q).gpg.name)
        (cstr (net.node q).gpg.passphrase) c = some x := hopens (hA q List.mem_cons_self)
      rw [List.findSome?_cons, hdec]
    · rw [List.findSome?_cons, hothers q (hA q List.mem_cons_self) (hA r hr) hqr]
      exact ih (fun q hq => hA q (List.mem_cons_of_mem _ hq))
        ((List.mem_cons.1 hr).resolve_left (Ne.symm hqr))

/-- A ciphertext for anyone else is not. -/
theorem pooled_of_notMem (hA : ∀ q ∈ A, q ∈ net.ids) (hr : r ∉ A) (hrids : r ∈ net.ids)
    (hc : net.Seals r x c) (u v : Bytes) : (net.pooled A).decrypt u v c = none :=
  List.findSome?_eq_none_iff.2 fun q hq => hc.2 q (hA q hq) hrids (ne_of_mem_of_not_mem hq hr)

/-- A packet shows its header, and what is inside to a coalition with its recipient. -/
theorem glimpse_packet (hA : ∀ q ∈ A, q ∈ net.ids) (hf : f.length ≤ 1025) (ht : t ∈ net.ids)
    (hc : net.Seals t x c) (time k : ℕ) :
    net.glimpse A (k + 1) (header f t 0 time ++ c) =
      .packet f t (if t ∈ A then net.glimpse A k x else .sealed) := by
  rw [glimpse, look_packet hf (net.length_le' ht)]
  split_ifs with hmem
  · rw [pooled_of_mem hA hmem hc]
    rfl
  · rw [pooled_of_notMem hA hmem ht hc]

/-- A text message shows all but its time. -/
theorem glimpse_text (hf : f.length ≤ 1025) (ht : t.length ≤ 1025) (time k : ℕ) (text : Bytes) :
    net.glimpse A (k + 1) (header f t 1 time ++ text) = .plain f t 1 text := by
  obtain ⟨r, hr, hat⟩ := readHeader_header clear hf ht 1 time text
  simp [glimpse, look, hr, hat.is_eq]

/-- **What the coalition reads of an onion** depends on its core only when every recipient of a
layer is a member. -/
theorem glimpse_layered (hA : ∀ q ∈ A, q ∈ net.ids) {hs : List (Bytes × Bytes)}
    {core core' file file' : Bytes} (hhs : ∀ h ∈ hs, h.1.length ≤ 1025 ∧ h.2 ∈ net.ids)
    (hl : Layered (InLayer net.Seals) hs core file)
    (hl' : Layered (InLayer net.Seals) hs core' file')
    (hcore : (∀ h ∈ hs, h.2 ∈ A) → ∀ k, net.glimpse A k core = net.glimpse A k core') (k : ℕ) :
    net.glimpse A k file = net.glimpse A k file' := by
  induction hs generalizing file file' k with
  | nil =>
    obtain rfl : file = core := hl
    obtain rfl : file' = core' := hl'
    exact hcore (fun _ h => absurd h List.not_mem_nil) k
  | cons h hs ih =>
    obtain ⟨x, ⟨c, time, hc, rfl⟩, hx⟩ := Layered.cons_iff.1 hl
    obtain ⟨x', ⟨c', time', hc', rfl⟩, hx'⟩ := Layered.cons_iff.1 hl'
    obtain ⟨hlen, hmem⟩ := hhs h List.mem_cons_self
    cases k with
    | zero => rfl
    | succ k =>
      rw [glimpse_packet hA hlen hmem hc, glimpse_packet hA hlen hmem hc']
      split_ifs with hto
      · rw [ih (fun h' hh => hhs h' (List.mem_cons_of_mem _ hh)) hx hx' fun hall =>
          hcore fun h' hh => (List.mem_cons.1 hh).elim (fun e => e ▸ hto) (hall h')]
      · rfl

end Glimpse

/-! ## Two texts -/

/-- The message with another text. -/
def Parcel.write (p : net.Parcel) (text : Bytes) : net.Parcel := { p with text := text }

/-- The steps of a network whose ciphertexts tell nothing to a participant they are not made
for. -/
inductive SealedAct (p : Fin n → net.Parcel) : Action (Bytes → Host) (Fin n) Token Event
  | send {s i d} {r : SendResult}
      (hd : net.GoodSend d ((s (p i).sender).msgr.route (p i).recipient d) (s (p i).sender).fs)
      (he : net.Exclusive d)
      (hr : (s (p i).sender).msgr.sendMessage (p i).recipient (p i).text d
        (s (p i).sender).fs = r) :
      SealedAct p s i .send (Function.update s (p i).sender ⟨r.msgr, r.fs⟩) (Sent.tokens r.sent)
        [.routed ((s (p i).sender).msgr.route (p i).recipient d)]
  | serve {s i host file s' new events} (h : Act p s i (.packet host file) s' new events) :
      SealedAct p s i (.packet host file) s' new events

theorem SealedAct.act {p : Fin n → net.Parcel} {s s' : Bytes → Host} {i : Fin n} {t : Token}
    {new : List Token} {events : List Event} (h : SealedAct p s i t s' new events) :
    Act p s i t s' new events := by
  cases h with
  | send hd _ hr => exact .send hd hr
  | serve h => exact h

/-- Such a run is a run of the network, whoever watches it. -/
theorem SealedAct.run {p : Fin n → net.Parcel} {ω : Type*}
    {see : Fin n → List Token → List Event → ω} {trace : List ω}
    {c c' : Config (Bytes → Host) (Fin n) Token Event}
    (h : Watched (SealedAct p) see trace c c') : Interleaving.Run (Act p) c c' := by
  induction h with
  | refl => exact .refl
  | tail _ hs ih =>
    obtain ⟨hact⟩ := hs
    exact ih.tail (.mk hact.act)

/-- What is in flight for a message with one text and with another: packets to the same address,
with the same hops to come. -/
inductive Paired (p : net.Parcel) (text text' : Bytes) : Token → Token → Prop
  | send : Paired p text text' .send .send
  | packet {route : List Bytes} {done rest : List (Bytes × Bytes)} {h : Bytes × Bytes}
      {time time' : ℕ} {file file' : Bytes} (hr : net.IsRoute p route)
      (hh : hops route = done ++ h :: rest)
      (hl : Layered (InLayer net.Seals) (h :: rest) ((p.write text).core time) file)
      (hl' : Layered (InLayer net.Seals) (h :: rest) ((p.write text').core time') file') :
      Paired p text text' (.packet (net.addr h.2) file) (.packet (net.addr h.2) file')

/-- The participants of two networks that differ in what their files hold. -/
structure Alike (net : Network) (s s' : Bytes → Host) : Prop where
  steady : net.Steady s
  steady' : net.Steady s'
  files : ∀ r, (s r).fs.Alike (s' r).fs

theorem Alike.update {s s' : Bytes → Host} (h : net.Alike s s') (r : Bytes)
    {host host' : Host} (hm : r ∈ net.ids → host.msgr = net.node r)
    (hm' : r ∈ net.ids → host'.msgr = net.node r) (hfs : host.fs.Alike host'.fs) :
    net.Alike (Function.update s r host) (Function.update s' r host') where
  steady := h.steady.update hm host.fs
  steady' := h.steady'.update hm' host'.fs
  files q := by
    by_cases hqr : q = r
    · subst hqr
      rw [Function.update_self, Function.update_self]
      exact hfs
    · rw [Function.update_of_ne hqr, Function.update_of_ne hqr]
      exact h.files q

section Paired

variable {p : net.Parcel} {text text' : Bytes} {route : List Bytes}
  {done rest : List (Bytes × Bytes)} {h : Bytes × Bytes} {time time' : ℕ} {file file' : Bytes}

/-- The last hop is to the recipient. -/
theorem recipient_mem_hops (hr : net.IsRoute p route) (hh : hops route = done ++ h :: rest) :
    ∃ h' ∈ h :: rest, h'.2 = p.recipient := by
  have hlast := congrArg List.getLast? hr.map_snd
  rw [hh, List.map_append, List.getLast?_append_of_ne_nil _ (by simp), List.getLast?_concat]
    at hlast
  exact List.mem_map.1 (List.mem_of_getLast? hlast)

/-- **A coalition cannot tell a packet** with one text from one with another that is not for a
member. -/
theorem seen_paired (hA : ∀ q ∈ A, q ∈ net.ids) (htext : p.recipient ∈ A → text = text') (k : ℕ)
    {t t' : Token} (ht : Paired p text text' t t') : net.seen A k t = net.seen A k t' := by
  cases ht with
  | send => rfl
  | @packet route done rest h time time' file file' hr hh hl hl' =>
    have hhs : ∀ h' ∈ h :: rest, h'.1.length ≤ 1025 ∧ h'.2 ∈ net.ids := by
      intro h' hmem
      have hmem' : h' ∈ hops route := hh ▸ List.mem_append_right done hmem
      exact ⟨hr.length_fst_le hmem', hr.snd_mem_ids hmem'⟩
    have hcore : (∀ h' ∈ h :: rest, h'.2 ∈ A) → ∀ k,
        net.glimpse A k ((p.write text).core time) =
          net.glimpse A k ((p.write text').core time') := by
      intro hall k
      obtain ⟨h', hmem, hto⟩ := recipient_mem_hops hr hh
      obtain rfl := htext (hto ▸ hall h' hmem)
      have hs := net.length_le' p.sender_mem
      have ht := net.length_le' p.recipient_mem
      cases k with
      | zero => rfl
      | succ k =>
        exact (glimpse_text hs ht time k text).trans (glimpse_text hs ht time' k text).symm
    rw [seen, seen, glimpse_layered hA hhs hl hl' hcore k]

theorem seen_tokens (hA : ∀ q ∈ A, q ∈ net.ids) (htext : p.recipient ∈ A → text = text') (k : ℕ)
    {ts ts' : List Token} (h : List.Forall₂ (Paired p text text') ts ts') :
    ts.filterMap (net.seen A k) = ts'.filterMap (net.seen A k) := by
  induction h with
  | nil => rfl
  | cons ht _ ih => rw [List.filterMap_cons, List.filterMap_cons, seen_paired hA htext k ht, ih]

end Paired

/-! ## One step -/

section Steps

variable {p : net.Parcel} {text text' : Bytes} {route : List Bytes}
  {done rest : List (Bytes × Bytes)} {h h' : Bytes × Bytes} {time time' : ℕ}
  {file file' : Bytes} {fs fs' : Files}

/-- The first packet of a message can only be opened by those its layers are for. -/
theorem send_sealed {d : SendDraws}
    (hd : net.GoodSend d ((net.node p.sender).route p.recipient d) fs) (he : net.Exclusive d) :
    ((net.node p.sender).sendMessage p.recipient p.text d fs).msgr = net.node p.sender ∧
      ∃ h rest time file,
        Sent.tokens ((net.node p.sender).sendMessage p.recipient p.text d fs).sent =
          [.packet (net.addr h.2) file] ∧
        hops ((net.node p.sender).route p.recipient d) = h :: rest ∧
        Layered (InLayer net.Seals) (h :: rest) (p.core time) file := by
  obtain ⟨hmsgr, path, file, h, rest, time, hsent, hh, hl⟩ := send_onion hd
  refine ⟨hmsgr, h, rest, time, file, by rw [hsent]; rfl, hh, hl.mono ?_⟩
  rintro h x y ⟨c, t, ⟨i, hi⟩, hy⟩
  refine ⟨c, t, ⟨hd.opens_of_encrypts ⟨i, hi⟩, fun r' hr' hr hne => ?_⟩, hy⟩
  rw [LayerDraws.gpg, if_pos (hd.status i)] at hi
  exact Option.some.inj hi ▸ he i _ hr r' hr' hne x

theorem GoodSend.alike {d : SendDraws} (hd : net.GoodSend d route fs) (h : fs.Alike fs') :
    net.GoodSend d route fs' :=
  ⟨hd.shuffle, h.fresh hd.fresh, hd.status, hd.opens, hd.connect, hd.ideal⟩

theorem good_alike {d : ListenDraws} (hd : d.Good fs) (h : fs.Alike fs') : d.Good fs' :=
  ⟨h.fresh hd.fresh, hd.opens, hd.connect⟩

/-- What the call that starts a message does, and the same call with another text. -/
structure SendTwins (p : net.Parcel) (text text' : Bytes) (r r' : SendResult) : Prop where
  msgr : r.msgr = net.node p.sender
  msgr' : r'.msgr = net.node p.sender
  files : r.fs.Alike r'.fs
  tokens : List.Forall₂ (Paired p text text') (Sent.tokens r.sent) (Sent.tokens r'.sent)

/-- **The sender does the same with both texts.** -/
theorem send_paired (text text' : Bytes) {d : SendDraws} {host host' : Host}
    (hm : host.msgr = net.node p.sender) (hm' : host'.msgr = net.node p.sender)
    (hfs : host.fs.Alike host'.fs)
    (hd : net.GoodSend d (host.msgr.route p.recipient d) host.fs) (he : net.Exclusive d) :
    net.GoodSend d (host'.msgr.route p.recipient d) host'.fs ∧
      SendTwins p text text' (host.msgr.sendMessage p.recipient text d host.fs)
        (host'.msgr.sendMessage p.recipient text' d host'.fs) := by
  rw [hm] at hd ⊢
  rw [hm']
  have hd' := hd.alike hfs
  obtain ⟨hmsgr, h, rest, time, file, htok, hh, hl⟩ := send_sealed (p := p.write text) hd he
  obtain ⟨hmsgr', h', rest', time', file', htok', hh', hl'⟩ :=
    send_sealed (p := p.write text') hd' he
  obtain ⟨rfl, rfl⟩ := List.cons_eq_cons.1 (hh.symm.trans hh')
  have hroute : hops ((net.node p.sender).route p.recipient d) = [] ++ h :: rest := hh
  refine ⟨hd', hmsgr, hmsgr', sendMessage_alike _ _ _ _ _ hfs, ?_⟩
  refine (congrArg₂ (List.Forall₂ _) htok htok').mpr (.cons ?_ .nil)
  exact .packet (isRoute_route p hd.shuffle) hroute hl hl'

/-- The files after a packet has been relayed. -/
theorem relayed_files {d : ListenDraws} (hr : net.IsRoute p route)
    (hh : hops route = done ++ h :: h' :: rest)
    (hl : Layered (InLayer net.Seals) (h :: h' :: rest) (p.core time) file) (hd : d.Good fs) :
    ∃ s c x c' y, handle net.env d (net.node h.2) d.recvPath (fs.put d.recvPath file) = .ok s ∧
      s.fs = (((openedFiles d fs file c x).put d.innerPath c').put d.relayPath y).remove
        d.relayPath := by
  obtain ⟨x, ⟨c, t, hc, rfl⟩, hx⟩ := Layered.cons_iff.1 hl
  obtain ⟨x', ⟨c', t', hc', rfl⟩, hx'⟩ := Layered.cons_iff.1 hx
  have hfrom : h'.1 = h.2 := fst_eq_of_hops hh
  have hnode : h.2 ∈ net.ids := hr.snd_mem_ids (hh ▸ by simp)
  have hnode' : h'.2 ∈ net.ids := hr.snd_mem_ids (hh ▸ by simp)
  have hdec := hc.1 hnode
  rw [hfrom] at hdec
  obtain ⟨s, hs, -, hfs, -⟩ := handle_relayed (f := h.1) t (net.name_eq _ hnode) hd.fresh hd.opens
    (net.authorized _ hnode) (hr.length_fst_le (hh ▸ by simp)) (net.length_le' hnode)
    (net.length_le' hnode') hdec
  exact ⟨s, _, _, _, _, hs, hfs⟩

/-- The files after one has been delivered. -/
theorem delivered_files {d : ListenDraws} (h0 : 0 ∉ p.text) (hr : net.IsRoute p route)
    (hh : hops route = done ++ [h])
    (hl : Layered (InLayer net.Seals) [h] (p.core time) file) (hd : d.Good fs) :
    ∃ s c x, handle net.env d (net.node h.2) d.recvPath (fs.put d.recvPath file) = .ok s ∧
      s.fs = openedFiles d fs file c x := by
  obtain ⟨_, ⟨c, t, hc, rfl⟩, rfl⟩ := hl
  have hlast : h.2 = p.recipient := (snd_eq_of_hops hr.ne_nil hh).trans hr.getLastD
  have hnode : h.2 ∈ net.ids := hr.snd_mem_ids (hh ▸ by simp)
  have hdec := hc.1 hnode
  rw [Parcel.core, ← hlast] at hdec
  obtain ⟨s, hs, -, hfs, -⟩ := handle_delivered (f := h.1) t (net.name_eq _ hnode) hd.fresh
    (net.authorized _ hnode) (hr.length_fst_le (hh ▸ by simp)) (net.length_le' hnode)
    (net.length_le' p.sender_mem) (hlast ▸ p.sender_ne.symm) h0 hdec
  exact ⟨s, _, _, hs, hfs⟩

theorem openedFiles_alike (h : fs.Alike fs') (d : ListenDraws) (file c x file' c' x' : Bytes) :
    (openedFiles d fs file c x).Alike (openedFiles d fs' file' c' x') :=
  ((h.put _ _ _).put _ _ _).put _ _ _

/-- What the node `r` does with a packet, and with the same packet of another text. -/
structure Twins (p : net.Parcel) (text text' r : Bytes) (s s' : Served) : Prop where
  msgr : s.msgr = net.node r
  msgr' : s'.msgr = net.node r
  files : s.fs.Alike s'.fs
  tokens : List.Forall₂ (Paired p text text') (Sent.tokens s.sent) (Sent.tokens s'.sent)
  pushed : (s.pushed = none ∧ s'.pushed = none) ∨ (r = p.recipient ∧
    s.pushed = some (p.sender, p.sender ++ ascii ": " ++ text) ∧
    s'.pushed = some (p.sender, p.sender ++ ascii ": " ++ text'))

/-- **A node does the same with both packets.** -/
theorem receive_paired {d : ListenDraws} (h0 : 0 ∉ text) (h0' : 0 ∉ text')
    (hr : net.IsRoute p route) (hh : hops route = done ++ h :: rest)
    (hl : Layered (InLayer net.Seals) (h :: rest) ((p.write text).core time) file)
    (hl' : Layered (InLayer net.Seals) (h :: rest) ((p.write text').core time') file')
    (hd : d.Good fs) (hd' : d.Good fs') (hfs : fs.Alike fs') :
    ∃ s s', handle net.env d (net.node h.2) d.recvPath (fs.put d.recvPath file) = .ok s ∧
      handle net.env d (net.node h.2) d.recvPath (fs'.put d.recvPath file') = .ok s' ∧
      Twins p text text' h.2 s s' := by
  have hopens : ∀ g x y, InLayer net.Seals g x y → InLayer net.Opens g x y :=
    fun _ _ _ ⟨c, t, hc, hy⟩ => ⟨c, t, hc.1, hy⟩
  have hr₁ : net.IsRoute (p.write text) route := hr
  have hr₂ : net.IsRoute (p.write text') route := hr
  cases rest with
  | nil =>
    obtain ⟨s, hs, hmsgr, -, hsent, hpush, hlast⟩ :=
      receive_delivered h0 hr₁ hh (hl.mono hopens) hd
    obtain ⟨s', hs', hmsgr', -, hsent', hpush', -⟩ :=
      receive_delivered h0' hr₂ hh (hl'.mono hopens) hd'
    obtain ⟨_, c, x, hs₁, hfiles⟩ := delivered_files h0 hr₁ hh hl hd
    obtain ⟨_, c', x', hs₁', hfiles'⟩ := delivered_files h0' hr₂ hh hl' hd'
    cases hs.symm.trans hs₁
    cases hs'.symm.trans hs₁'
    refine ⟨s, s', hs, hs', hmsgr, hmsgr', ?_, ?_, .inr ⟨hlast, hpush, hpush'⟩⟩
    · rw [hfiles, hfiles']
      exact openedFiles_alike hfs d _ _ _ _ _ _
    · rw [hsent, hsent']
      exact .nil
  | cons h' rest =>
    obtain ⟨s, file₁, hs, hmsgr, -, hpush, htok, hl₁⟩ :=
      receive_relayed (fun _ _ _ h => h.1) hr₁ hh hl hd
    obtain ⟨s', file₁', hs', hmsgr', -, hpush', htok', hl₁'⟩ :=
      receive_relayed (fun _ _ _ h => h.1) hr₂ hh hl' hd'
    obtain ⟨_, c, x, c₁, y, hs₁, hfiles⟩ := relayed_files hr₁ hh hl hd
    obtain ⟨_, c', x', c₁', y', hs₁', hfiles'⟩ := relayed_files hr₂ hh hl' hd'
    cases hs.symm.trans hs₁
    cases hs'.symm.trans hs₁'
    have hh' : hops route = (done ++ [h]) ++ h' :: rest := by
      rw [hh, List.append_assoc]
      rfl
    refine ⟨s, s', hs, hs', hmsgr, hmsgr', ?_, ?_, .inl ⟨hpush, hpush'⟩⟩
    · rw [hfiles, hfiles']
      exact (((openedFiles_alike hfs d _ _ _ _ _ _).put _ _ _).put _ _ _).remove _
    · rw [htok, htok']
      exact .cons (.packet hr hh' hl₁ hl₁') .nil

end Steps

/-! ## Runs -/

section Runs

variable {p : Fin n → net.Parcel} {text text' : Fin n → Bytes}

/-- A coalition sees the same of a packet that is served. -/
theorem Twins.events_eq {p : net.Parcel} {text text' r : Bytes} {s s' : Served}
    (h : Twins p text text' r s s') (htext : p.recipient ∈ A → text = text') :
    (Event.received r :: (s.pushed.map fun a => .pushed r a.1 a.2).toList).map (Event.veil A) =
      (Event.received r :: (s'.pushed.map fun a => .pushed r a.1 a.2).toList).map
        (Event.veil A) := by
  obtain ⟨hnone, hnone'⟩ | ⟨rfl, hsome, hsome'⟩ := h.pushed
  · rw [hnone, hnone']
  · rw [hsome, hsome']
    by_cases hmem : p.recipient ∈ A
    · rw [htext hmem]
    · simp [Event.veil, hmem]

/-- **Each step of a message has one with the other text**, of which the coalition sees the same. -/
theorem simulates (hA : ∀ q ∈ A, q ∈ net.ids) (h0 : ∀ i, 0 ∉ text i) (h0' : ∀ i, 0 ∉ text' i)
    (htext : ∀ i, (p i).recipient ∈ A → text i = text' i) (k : ℕ) :
    Simulates (SealedAct fun i => (p i).write (text i)) (SealedAct fun i => (p i).write (text' i))
      (net.sight A k) (net.sight A k) net.Alike fun i => Paired (p i) (text i) (text' i) where
  step := by
    intro s i t s₁ new events r u hs htok hact
    cases hact with
    | @send _ _ d res hd he hres =>
      cases htok
      subst hres
      have hm : (s (p i).sender).msgr = net.node (p i).sender := hs.steady _ (p i).sender_mem
      have hm' : (r (p i).sender).msgr = net.node (p i).sender := hs.steady' _ (p i).sender_mem
      obtain ⟨hd', htwins⟩ :=
        send_paired (text i) (text' i) hm hm' (hs.files (p i).sender) hd he
      refine ⟨_, _, _, .send hd' he rfl, ?_, htwins.tokens, ?_⟩
      · exact hs.update _ (fun _ => htwins.msgr) (fun _ => htwins.msgr') htwins.files
      · have hroute : (s (p i).sender).msgr.route (p i).recipient d =
            (r (p i).sender).msgr.route (p i).recipient d := by rw [hm, hm']
        exact congrArg₂ (Sight.mk i) (congrArg (fun route => [Event.routed route]) hroute)
          (seen_tokens hA (htext i) k htwins.tokens)
    | @serve _ _ host file _ _ _ h =>
      cases htok with
      | @packet route done rest hop time time' file file' hroute hh hl hl' =>
        have hnode : hop.2 ∈ net.ids := hroute.snd_mem_ids (hh ▸ by simp)
        have hfs := hs.files hop.2
        cases h with
        | @receive _ _ _ _ q d served hq hhost hd hserved =>
          obtain rfl := net.addr_inj _ hq _ hnode hhost
          have hd' := good_alike hd hfs
          obtain ⟨x, x', hx, hx', htwins⟩ :=
            receive_paired (h0 i) (h0' i) hroute hh hl hl' hd hd' hfs
          rw [hs.steady _ hq, hx] at hserved
          cases hserved
          rw [← hs.steady' _ hq] at hx'
          refine ⟨_, _, _, .serve (.receive hq rfl hd' hx'), ?_, htwins.tokens, ?_⟩
          · exact hs.update _ (fun _ => htwins.msgr) (fun _ => htwins.msgr') htwins.files
          · rw [sight, sight, htwins.events_eq (htext i), seen_tokens hA (htext i) k htwins.tokens]
        | @stop _ _ _ _ q d _ hq hhost hd hstop =>
          obtain rfl := net.addr_inj _ hq _ hnode hhost
          obtain ⟨x, x', hx, -⟩ :=
            receive_paired (h0 i) (h0' i) hroute hh hl hl' hd (good_alike hd hfs) hfs
          rw [hs.steady _ hq, hx] at hstop
          cases hstop
        | lost hhost => exact absurd rfl (hhost _ hnode)

theorem related_start (p : Fin n → net.Parcel) (text text' : Fin n → Bytes) {s : Bytes → Host}
    (hs : net.Steady s) :
    Related net.Alike (fun i => Paired (p i) (text i) (text' i)) (start n s) (start n s) where
  shared := ⟨hs, hs, fun r => .refl (s r).fs⟩
  flight := List.forall₂_same.2 fun q hq => by
    obtain ⟨i, -, rfl⟩ := List.mem_map.1 hq
    exact ⟨rfl, .send⟩

/-- **No coalition learns a text that is not for one of its members**: what it can see of the
network is the same when the text is another one, whatever the order of the steps. -/
theorem texts_hidden (p : Fin n → net.Parcel) (hA : ∀ q ∈ A, q ∈ net.ids)
    (h0 : ∀ i, 0 ∉ text i) (h0' : ∀ i, 0 ∉ text' i)
    (htext : ∀ i, (p i).recipient ∈ A → text i = text' i) {s : Bytes → Host} (hs : net.Steady s)
    (k : ℕ) (trace : List (Sight n)) :
    (∃ c, Watched (SealedAct fun i => (p i).write (text i)) (net.sight A k) trace (start n s) c) ↔
      ∃ c, Watched (SealedAct fun i => (p i).write (text' i)) (net.sight A k) trace
        (start n s) c := by
  constructor
  · rintro ⟨c, hrun⟩
    obtain ⟨d, hrun', -⟩ :=
      (simulates hA h0 h0' htext k).watched (related_start p text text' hs) hrun
    exact ⟨d, hrun'⟩
  · rintro ⟨c, hrun⟩
    obtain ⟨d, hrun', -⟩ := (simulates hA h0' h0 (fun i hi => (htext i hi).symm) k).watched
      (related_start p text' text hs) hrun
    exact ⟨d, hrun'⟩

/-- The relay `c` and a tap on every wire do not tell whether `a` writes "hi" to `b` or "bye". -/
theorem texts_hidden_example : ∃ trace : List (Sight 1), trace ≠ [] ∧
    (∃ c, Watched (SealedAct fun _ => (exampleParcel []).write (ascii "hi"))
      (example₃.sight [ascii "c"] 9) trace (start 1 exampleHosts) c) ∧
    ∃ c, Watched (SealedAct fun _ => (exampleParcel []).write (ascii "bye"))
      (example₃.sight [ascii "c"] 9) trace (start 1 exampleHosts) c := by
  have hs : example₃.Steady exampleHosts := fun _ _ => rfl
  have hact := SealedAct.send (p := fun _ : Fin 1 => (exampleParcel []).write (ascii "hi")) (i := 0)
    (s := exampleHosts) goodSend_exampleDraws exclusive_exampleDraws rfl
  have hrun := Watched.tail (.refl (start 1 exampleHosts))
    (WatchedStep.single (example₃.sight [ascii "c"] 9) hact [])
  exact ⟨_, by simp, ⟨_, hrun⟩, (texts_hidden (fun _ => exampleParcel []) (by decide) (by decide)
    (by decide) (by decide) hs 9 _).1 ⟨_, hrun⟩⟩

end Runs

end Network

end Onion5
