import Onion5.Client.Listen
import Onion5.Client.Sending

/-!
# One node and one packet

What `liste_loop` does with a packet that is meant for the node and whose body its credentials
decrypt. The temporary paths drawn are assumed new, and the body openable.

* `handle_relayed`: a packet in which the node is the sender goes on to its recipient, the body
  untouched.
* `handle_delivered`: a text message of another node is pushed.
-/

namespace Onion5

open Message

/-- The credentials of a node decrypt `c` to `x`. -/
def Messanger.Decrypts (env : Env) (msgr : Messanger) (c x : Bytes) : Prop :=
  env.decrypt (cstr msgr.gpg.name) (cstr msgr.gpg.passphrase) c = some x

/-- A lookup of a node in the list leaves the list. -/
theorem NodeMap.index_of_mem {list : NodeMap} {key : Bytes} (h : key ∈ list) :
    (list.index key).2 = list := by
  refine Std.ExtTreeMap.ext_getElem? fun k => ?_
  simp only [index, Std.ExtTreeMap.getElem?_insertIfNew]
  split_ifs with hk
  · rw [Std.compare_eq_iff_eq] at hk
    exact absurd (hk.1 ▸ h) hk.2
  · rfl

section Packet

variable {env : Env} {d : ListenDraws} {msgr : Messanger} {fs : Files}

/-- The frame of a file, received whole: `recv` writes it to its temporary path. -/
theorem listeLoop_file {file : Bytes} (hlen : file.length < 2 ^ 31) {segs : List Bytes}
    (hs : segs.flatten = file) :
    listeLoop env d msgr fs (frameConn 1 file.length segs) = do
      let s ← handle env d msgr d.recvPath (fs.put d.recvPath file)
      let _ ← s.ret
      return s := by
  obtain ⟨r, hr, -, hdata, hfs⟩ := recv_frame d.recvPath fs 1 hlen hs
  simp only [show ((1 : UInt8) = 0) = False by decide, if_false, if_true] at hdata hfs
  simp only [listeLoop, hr, Run.ok_bind, hdata, hfs]

/-- A file received is handled as an onion packet. -/
theorem handle_file (hf : fs.Fresh d.paths) (file : Bytes) :
    handle env d msgr d.recvPath (fs.put d.recvPath file) =
      onionPacket env d msgr d.recvPath (fs.put d.recvPath file) := by
  have hmem : d.recvPath ∈ d.paths := List.mem_cons_self
  have htake := (hf.isTempPath _ hmem).take_two
  have hexists : isExistedFile d.recvPath (fs.put d.recvPath file) := by
    rw [isExistedFile, hf.openRead_put hmem, Option.isSome_some]
  rw [handle, htake, if_neg (by decide), if_neg (by decide), if_pos hexists]

/-- The files after the packet has been opened: the packet, its body and the decrypted body. -/
def openedFiles (d : ListenDraws) (fs : Files) (file c x : Bytes) : Files :=
  ((fs.put d.recvPath file).put d.outerPath c).put d.plainPath x

theorem fresh_openedFiles (hf : fs.Fresh d.paths) (file c x : Bytes) :
    (openedFiles d fs file c x).Fresh [d.innerPath, d.relayPath] :=
  ((hf.put_head file).put_head c).put_head x

/-- New paths besides those drawn are still new when the packet has been opened, and when it has
been relayed. -/
theorem fresh_openedFiles_of_append {ps : List Bytes} (hf : fs.Fresh (d.paths ++ ps))
    (file c x : Bytes) :
    (openedFiles d fs file c x).Fresh (d.innerPath :: d.relayPath :: ps) :=
  ((hf.put_head file).put_head c).put_head x

theorem fresh_relayed {ps : List Bytes} (hf : fs.Fresh (d.paths ++ ps)) (file c x c' y : Bytes) :
    ((((openedFiles d fs file c x).put d.innerPath c').put d.relayPath y).remove
      d.relayPath).Fresh ps := by
  have h := (fresh_openedFiles_of_append hf file c x).put_head c'
  exact (h.put_head y).remove h.cstr_head_notMem

theorem openRead_openedFiles (hf : fs.Fresh d.paths) (file c x : Bytes) :
    (openedFiles d fs file c x).openRead d.plainPath = some x :=
  ((hf.put_head file).put_head c).openRead_put List.mem_cons_self x

/-- The outer phase accepts a packet for this node. -/
theorem openOuter_packet (time : ℕ) (c : Bytes) {r : Bytes} (hname : msgr.name = r)
    (hf : fs.Fresh d.paths) {f : Bytes} (hfl : f.length ≤ 1025) (hrl : r.length ≤ 1025) :
    openOuter d msgr d.recvPath (fs.put d.recvPath (header f r 0 time ++ c)) =
      .ok (some (binary f r d.outerPath),
        (fs.put d.recvPath (header f r 0 time ++ c)).put d.outerPath c) := by
  subst hname
  have hread := hf.openRead_put List.mem_cons_self (header f msgr.name 0 time ++ c)
  have hfresh := hf.put_head (header f msgr.name 0 time ++ c)
  have hdes := deserialize_packet Message.clear d.heap hfl hrl hread
    (hfresh.ne_nil List.mem_cons_self) (hfresh.canWrite List.mem_cons_self)
  simp [openOuter, hdes, binary]

/-- The inner phase on a body that decrypts. -/
theorem openInner_decrypts (hf : fs.Fresh d.paths) (hg : msgr.gpg.isAuthorized) {c x : Bytes}
    (hdec : msgr.Decrypts env c x) (file : Bytes) :
    openInner env d msgr d.outerPath ((fs.put d.recvPath file).put d.outerPath c) = do
      let (_, m, fs) ← Message.clear.deserialize d.plainPath d.innerPath d.heap
        (openedFiles d fs file c x)
      return (some m, fs) := by
  have hfresh := hf.put_head file
  have hread := hfresh.openRead_put List.mem_cons_self c
  have hne : cstr d.outerPath ≠ cstr d.plainPath := hfresh.cstr_head_ne List.mem_cons_self
  simp only [openInner, GPG.decryptFile_ok hg hne hread hdec, not_true, if_false]
  rfl

/-- **A packet for this node whose body it can decrypt**: the message inside is read, whatever it
is, and dispatched. -/
theorem handle_opened {r : Bytes} (hname : msgr.name = r) (hf : fs.Fresh d.paths)
    (hg : msgr.gpg.isAuthorized) {f c x : Bytes} {time : ℕ} (hfl : f.length ≤ 1025)
    (hrl : r.length ≤ 1025) (hdec : msgr.Decrypts env c x) {ok : Bool} {m : Message} {fs' : Files}
    (hin : Message.clear.deserialize d.plainPath d.innerPath d.heap
      (openedFiles d fs (header f r 0 time ++ c) c x) = .ok (ok, m, fs')) :
    handle env d msgr d.recvPath (fs.put d.recvPath (header f r 0 time ++ c)) =
      .ok (dispatch d msgr m fs') := by
  rw [handle_file hf, onionPacket, openPacket, openOuter_packet _ _ hname hf hfl hrl, Run.ok_bind]
  simp only [binary, openInner_decrypts hf hg hdec, hin, Run.ok_bind, Run.pure_eq]

/-- A packet inside is read like any other. -/
theorem deserialize_opened (hf : fs.Fresh d.paths) {f t : Bytes} (c' : Bytes) (time : ℕ)
    (hfl : f.length ≤ 1025) (htl : t.length ≤ 1025) (file c : Bytes) :
    Message.clear.deserialize d.plainPath d.innerPath d.heap
        (openedFiles d fs file c (header f t 0 time ++ c')) =
      .ok (true, binary f t d.innerPath,
        (openedFiles d fs file c (header f t 0 time ++ c')).put d.innerPath c') := by
  have hfresh := fresh_openedFiles hf file c (header f t 0 time ++ c')
  exact deserialize_packet Message.clear d.heap hfl htl (openRead_openedFiles hf file c _)
    (hfresh.ne_nil List.mem_cons_self) (hfresh.canWrite List.mem_cons_self)

/-- **The relay branch.** A message in which the node is the sender goes on to the address of its
recipient, with the body untouched. -/
theorem handle_relayed (time : ℕ) {r : Bytes} (hname : msgr.name = r) (hf : fs.Fresh d.paths)
    (ho : d.opens) (hg : msgr.gpg.isAuthorized) {f t c c' : Bytes} {time' : ℕ}
    (hfl : f.length ≤ 1025) (hrl : r.length ≤ 1025) (htl : t.length ≤ 1025)
    (hdec : msgr.Decrypts env c (header r t 0 time' ++ c')) :
    ∃ s, handle env d msgr d.recvPath (fs.put d.recvPath (header f r 0 time ++ c)) = .ok s ∧
      s.msgr = { msgr with nodeList := (msgr.nodeList.index t).2 } ∧
      s.fs = (((openedFiles d fs (header f r 0 time ++ c) c (header r t 0 time' ++ c')).put
        d.innerPath c').put d.relayPath (header r t 0 d.time ++ c')).remove d.relayPath ∧
      s.pushed = none ∧ s.reply = none ∧
      (d.connect (msgr.nodeList.getD t []) = false → s.ret = .ok ()) ∧
      s.sent = if d.connect (msgr.nodeList.getD t []) then
        some ⟨msgr.nodeList.getD t [], d.relayPath, some (header r t 0 d.time ++ c')⟩
        else none := by
  subst hname
  set file := header f msgr.name 0 time ++ c with hfile
  set x := header msgr.name t 0 time' ++ c' with hx
  have hfresh := fresh_openedFiles hf file c x
  have hfresh' := hfresh.put_head c'
  have hread := hfresh.openRead_put List.mem_cons_self c'
  have hne : cstr d.innerPath ≠ cstr d.relayPath := hfresh.cstr_head_ne List.mem_cons_self
  have hin := deserialize_opened hf c' time' hrl htl file c
  rw [← hx] at hin
  refine ⟨_, handle_opened rfl hf hg hfl hrl hdec hin, ?_⟩
  have hser := serialize_packet msgr.name t d.time hne hread
  rw [← ho] at hser
  have hsent := hfresh'.openRead_put List.mem_cons_self (header msgr.name t 0 d.time ++ c')
  simp only [dispatch, binary, if_true, relay, NodeMap.index] at hser ⊢
  simp only [hser, hsent, true_and]
  exact ⟨fun hc => by simp [hc], trivial⟩

/-- **The delivery branch** for a text message of another node. -/
theorem handle_delivered (time : ℕ) {r : Bytes} (hname : msgr.name = r) (hf : fs.Fresh d.paths)
    (hg : msgr.gpg.isAuthorized) {f sender c content : Bytes} {time' : ℕ}
    (hfl : f.length ≤ 1025) (hrl : r.length ≤ 1025) (hsl : sender.length ≤ 1025) (hne : r ≠ sender)
    (h0 : 0 ∉ content) (hdec : msgr.Decrypts env c (header sender r 1 time' ++ content)) :
    ∃ s, handle env d msgr d.recvPath (fs.put d.recvPath (header f r 0 time ++ c)) = .ok s ∧
      s.msgr = msgr ∧
      s.fs = openedFiles d fs (header f r 0 time ++ c) c (header sender r 1 time' ++ content) ∧
      s.pushed = some (sender, sender ++ ascii ": " ++ content) ∧ s.sent = none := by
  subst hname
  set file := header f msgr.name 0 time ++ c with hfile
  set x := header sender msgr.name 1 time' ++ content with hx
  have hin := deserialize_text Message.clear d.innerPath d.heap hsl hrl
    (openRead_openedFiles hf file c x) h0
  refine ⟨_, handle_opened rfl hf hg hfl hrl hdec hin, ?_⟩
  simp [dispatch, text, hne, deliver, Served.idle, Message.clear]

end Packet

end Onion5
