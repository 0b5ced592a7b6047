import Onion5.Client.Directory

/-!
# The health server

The model of the check that `health_server` makes of a node of the directory: it sends a PING with
a key that it draws to the address of the node, and compares the reply with the checksum that the
node with the registered id makes of the key.

Frames are delivered intact and cut in any way, and SHA-1 is a function that is injective on the
strings of which the two sides take the checksum.

* `accepts_iff`: a node that runs `liste_loop` is accepted exactly when its name is the id it is
  registered with, whatever the key.
* `answers_ping`: such a node answers every PING.
-/

namespace Onion5

/-- The data of a PING. -/
def pingData (key : Bytes) : Bytes := PING_PREFIX ++ key ++ PING_POSTFIX

/-- The data of the reply. -/
def pongData (msg : Bytes) : Bytes := PONG_PREFIX ++ msg ++ PONG_POSTFIX

/-- The checksum of `checksum2`. -/
def pongChecksum (sha1 : Bytes → Bytes) (githubId key : Bytes) : Bytes :=
  sha1 (key ++ sha1 (githubId ++ key))

/-- What the check does with the reply. -/
def checkReply (msg buffer : Bytes) : Run Bool := do
  if buffer.take 2 ≠ PONG_PREFIX then return false
  let len := toInt buffer.length
  let postfix_ ← substr buffer (toSize (len - 2)) 2
  if postfix_ ≠ PONG_POSTFIX then return false
  let buffer ← substr buffer 2 (toSize (len - 4))
  return msg = buffer

/-- The check of one node by `health_server`: the value of `flag`. `connect` says which addresses
can be connected to, and `sock` is what the connection delivers. The results of `send` and `recv`
are not looked at. -/
def checkNode (sha1 : Bytes → Bytes) (connect : Bytes → Bool) (node : Node) (key temp : Bytes)
    (fs : Files) (sock : Conn) : Run Bool := do
  if ¬ connect node.ipAddr then return false
  let _ ← send (pingData key)
  let msg := sha1 (node.githubId ++ key)
  let msg := sha1 (key ++ msg)
  let r ← recv temp fs sock
  checkReply msg r.data

/-! ## The two sides -/

section Sides

variable {env : Env} {d : ListenDraws} {msgr : Messanger} {fs : Files} {key : Bytes}

/-- A node replies to a PING, whatever the key holds. -/
theorem handle_ping (hlen : (pingData key).length < 2 ^ 31) :
    handle env d msgr (pingData key) fs = .ok { Served.idle msgr fs with
      reply := some (pongData (pongChecksum env.sha1 msgr.name key)) } := by
  obtain ⟨hpre, hpost, hkey⟩ :=
    substr_envelope (show PING_PREFIX.length = 2 from rfl) rfl (rfl : pingData key = _) hlen
  have hlist : PING_PREFIX ≠ LIST_PREFIX := by decide
  rw [handle, hpre, if_neg hlist, if_pos rfl, pingFrame]
  simp only [hpost, hkey, Run.ok_bind, ne_eq, not_true, if_false]
  rfl

/-- The frame of a PING, under every segmentation. -/
theorem listeLoop_ping (hlen : (pingData key).length < 2 ^ 31) {segs : List Bytes}
    (hs : segs.flatten = pingData key) :
    listeLoop env d msgr fs (frameConn 0 (pingData key).length segs) =
      .ok { Served.idle msgr fs with
        reply := some (pongData (pongChecksum env.sha1 msgr.name key)) } := by
  obtain ⟨r, hr, -, hdata, hfs⟩ := recv_frame d.recvPath fs 0 hlen hs
  replace hdata : r.data = pingData key := hdata
  replace hfs : r.fs = fs := hfs
  rw [listeLoop, hr, Run.ok_bind, hdata, hfs, handle_ping hlen]
  rfl

/-- A reply is accepted when it holds the checksum expected, whatever that is. -/
theorem checkReply_pong {msg : Bytes} (hlen : (pongData msg).length < 2 ^ 31) (msg' : Bytes) :
    checkReply msg' (pongData msg) = .ok (msg' = msg) := by
  obtain ⟨hpre, hpost, hmsg⟩ :=
    substr_envelope (show PONG_PREFIX.length = 2 from rfl) rfl (rfl : pongData msg = _) hlen
  simp only [checkReply, hpre, hpost, hmsg, Run.ok_bind, ne_eq, not_true, if_false]
  rfl

/-- The strings of which the checksums of two ids are taken. -/
def pongInputs (sha1 : Bytes → Bytes) (githubId name key : Bytes) : Set Bytes :=
  {githubId ++ key, name ++ key, key ++ sha1 (githubId ++ key), key ++ sha1 (name ++ key)}

/-- Different ids have different checksums. -/
theorem pongChecksum_eq_iff {sha1 : Bytes → Bytes} {githubId name : Bytes}
    (hinj : Set.InjOn sha1 (pongInputs sha1 githubId name key)) :
    pongChecksum sha1 githubId key = pongChecksum sha1 name key ↔ name = githubId := by
  constructor
  · intro h
    have houter := hinj (by simp [pongInputs]) (by simp [pongInputs]) h
    have hinner := hinj (by simp [pongInputs]) (by simp [pongInputs])
      (List.append_cancel_left houter)
    exact (List.append_cancel_right hinner).symm
  · rintro rfl
    rfl

end Sides

/-! ## The check -/

/-- The connection on which a node that runs `liste_loop` replies to the frame it has received. Both
frames are delivered intact. -/
inductive Answers (env : Env) (msgr : Messanger) (frame : Bytes) : Conn → Prop
  | mk {d fs s reply frame' n} {segs segs' : List Bytes} (hs : segs.flatten = frame.drop 9)
      (hnode : listeLoop env d msgr fs (scriptOf frame segs) = .ok s)
      (hreply : s.reply = some reply) (hsend : send reply = .ok (frame', n))
      (hs' : segs'.flatten = frame'.drop 9) : Answers env msgr frame (scriptOf frame' segs')

section Check

variable {env : Env} {msgr : Messanger} {node : Node} {connect : Bytes → Bool} {key : Bytes}

/-- **A node that runs `liste_loop` answers every PING.** -/
theorem answers_ping (hlen : (pingData key).length < 2 ^ 31)
    (hreply : (pongData (pongChecksum env.sha1 msgr.name key)).length < 2 ^ 31)
    (d : ListenDraws) (fs : Files) :
    ∃ frame n sock, send (pingData key) = .ok (frame, n) ∧ Answers env msgr frame sock := by
  have hnode : listeLoop env d msgr fs (frameConn 0 (pingData key).length [pingData key]) = .ok _ :=
    listeLoop_ping hlen List.flatten_singleton
  rw [← scriptOf_eq] at hnode
  exact ⟨_, _, _, send_eq hlen, .mk (List.flatten_singleton.trans (drop_frame 0 _).symm) hnode rfl
    (send_eq hreply) List.flatten_singleton⟩

/-- **The check accepts a node exactly when it has the registered name**, whatever the key. -/
theorem accepts_iff (hconnect : connect node.ipAddr) {frame : Bytes} {n : ℕ}
    (hsend : send (pingData key) = .ok (frame, n)) {sock : Conn}
    (hanswers : Answers env msgr frame sock)
    (hinj : Set.InjOn env.sha1 (pongInputs env.sha1 node.githubId msgr.name key)) (temp : Bytes)
    (fs : Files) :
    ∃ flag, checkNode env.sha1 connect node key temp fs sock = .ok flag ∧
      (flag = true ↔ msgr.name = node.githubId) := by
  obtain ⟨hlen, rfl⟩ := send_eq_ok hsend
  obtain ⟨hs, hnode, hreply, hsend', hs'⟩ := hanswers
  rw [drop_frame] at hs
  rw [scriptOf_eq, listeLoop_ping hlen hs] at hnode
  cases hnode
  cases hreply
  obtain ⟨hlen', rfl⟩ := send_eq_ok hsend'
  rw [drop_frame] at hs'
  obtain ⟨r, hr, -, hdata, -⟩ := recv_frame temp fs 0 hlen' hs'
  replace hdata : r.data = pongData (pongChecksum env.sha1 msgr.name key) := hdata
  refine ⟨_, ?_, decide_eq_true_iff.trans (pongChecksum_eq_iff hinj)⟩
  simp only [checkNode, hconnect, not_true, if_false, hsend, scriptOf_eq, hr, hdata, Run.ok_bind,
    checkReply_pong hlen']
  rfl

end Check

/-! ## Two nodes -/

/-- The SHA-1 of `ak` and of `ck`. -/
def exampleDigest₁ : Bytes := ascii "0474aee45985f5ae829f53849df476200e876990"

def exampleDigest₂ : Bytes := ascii "c8c2ca9fed1a7c345d7dbc1b7d985364870c874a"

/-- SHA-1 on the strings that `a` and `c` take it of for the key `k`. -/
def exampleSha1 (s : Bytes) : Bytes :=
  if s = ascii "ak" then exampleDigest₁
  else if s = ascii "ck" then exampleDigest₂
  else if s = ascii "k" ++ exampleDigest₁ then ascii "5b25d524d7315b379a0a94cdceacb79c1accec18"
  else if s = ascii "k" ++ exampleDigest₂ then ascii "ab394c748e0a79b6e796ee555ab7d2358b5e6d07"
  else []

/-- The functions of examples, with that one. -/
def exampleHealthEnv : Env := { exampleEnv with sha1 := exampleSha1 }

/-- The node `a`, as it is registered, and a network in which every address can be connected to. -/
def exampleRegistered : Node := ⟨ascii "a", ascii "10.0.0.1"⟩

def exampleConnect (_ : Bytes) : Bool := true

theorem exampleConnect_registered : exampleConnect exampleRegistered.ipAddr := rfl

theorem injOn_exampleSha1 {name : Bytes} (h : name = ascii "a" ∨ name = ascii "c") :
    Set.InjOn exampleSha1 (pongInputs exampleSha1 (ascii "a") name (ascii "k")) := by
  let inputs : List Bytes :=
    [ascii "ak", ascii "ck", ascii "k" ++ exampleDigest₁, ascii "k" ++ exampleDigest₂]
  have hinj : ∀ x ∈ inputs, ∀ y ∈ inputs, exampleSha1 x = exampleSha1 y → x = y := by decide
  have hmem : ∀ x ∈ pongInputs exampleSha1 (ascii "a") name (ascii "k"), x ∈ inputs := by
    intro x hx
    rcases h with rfl | rfl <;> rcases hx with rfl | rfl | rfl | rfl <;> decide
  exact fun x hx y hy => hinj x (hmem x hx) y (hmem y hy)

theorem answers_example {msgr : Messanger} (h : msgr.name = ascii "a" ∨ msgr.name = ascii "c") :
    ∃ frame n sock, send (pingData (ascii "k")) = .ok (frame, n) ∧
      Answers exampleHealthEnv msgr frame sock := by
  refine answers_ping (by decide) ?_ exampleListenDraws Files.blank
  rcases h with h | h <;> rw [h] <;> decide

/-- Of two nodes that answer at the address of `a`, the one named `a` is accepted, the other one is
not. -/
theorem accepts_iff_example :
    (∃ sock, checkNode exampleSha1 exampleConnect exampleRegistered (ascii "k")
      (exampleTemppath 0) Files.blank sock = .ok true) ∧
    ∃ frame n sock, send (pingData (ascii "k")) = .ok (frame, n) ∧
      Answers exampleHealthEnv exampleClient frame sock ∧
      checkNode exampleSha1 exampleConnect exampleRegistered (ascii "k")
        (exampleTemppath 0) Files.blank sock = .ok false := by
  constructor
  · have hname : exampleNode.name = ascii "a" ∨ exampleNode.name = ascii "c" := .inl rfl
    obtain ⟨frame, n, sock, hsend, hanswers⟩ := answers_example hname
    obtain ⟨flag, hcheck, hflag⟩ := accepts_iff exampleConnect_registered hsend hanswers
      (injOn_exampleSha1 hname) (exampleTemppath 0) Files.blank
    obtain rfl := hflag.2 rfl
    exact ⟨sock, hcheck⟩
  · have hname : exampleClient.name = ascii "a" ∨ exampleClient.name = ascii "c" := .inr rfl
    obtain ⟨frame, n, sock, hsend, hanswers⟩ := answers_example hname
    obtain ⟨flag, hcheck, hflag⟩ := accepts_iff exampleConnect_registered hsend hanswers
      (injOn_exampleSha1 hname) (exampleTemppath 0) Files.blank
    have hne : flag = false := by
      rw [← Bool.not_eq_true, hflag]
      decide
    exact ⟨frame, n, sock, hsend, hanswers, hne ▸ hcheck⟩

end Onion5
