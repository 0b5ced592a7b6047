import Onion5.Server.HealthServer
import Onion5.Common.Sha1

/-!
# The check with the checksums of SHA-1

The check of `HealthServer` with the checksums that the two programs really make. Nothing is assumed
of SHA-1, so a node with another name than the registered one may pass: exactly when the strings of
which the checksums are taken collide.

* `checksum_eq`: the statements of both programs that make a checksum.
* `check_exact`: a node that runs `liste_loop` answers every PING, and passes exactly when these
  statements make the same checksum of both names, that is when it has the registered name or a
  collision confuses the two. By `SHA1.exists_transform_eq` such a
  collision is one of two calls of `transform`.
-/

namespace Onion5

open SHA1

/-- The statements of `liste_loop` and of `health_server` that make a checksum. -/
def checksum (githubId key : Bytes) : Bytes :=
  let msg := ((reset.update githubId).update key).final.1
  ((reset.update key).update msg).final.1

theorem checksum_eq (githubId key : Bytes) :
    checksum githubId key = pongChecksum sha1 githubId key := by
  simp only [checksum, pongChecksum, final_update_update]

/-- Two different strings with the same SHA-1, among those of which the two sides take it. -/
inductive Confused (githubId name key : Bytes) : Prop
  | ids (hne : githubId ≠ name) (h : sha1 (githubId ++ key) = sha1 (name ++ key))
  | checksums (hne : sha1 (githubId ++ key) ≠ sha1 (name ++ key))
      (h : sha1 (key ++ sha1 (githubId ++ key)) = sha1 (key ++ sha1 (name ++ key)))

theorem checksum_eq_iff {githubId name key : Bytes} :
    checksum githubId key = checksum name key ↔
      name = githubId ∨ Confused githubId name key := by
  rw [checksum_eq, checksum_eq]
  constructor
  · intro h
    by_cases hid : name = githubId
    · exact .inl hid
    · by_cases hinner : sha1 (githubId ++ key) = sha1 (name ++ key)
      · exact .inr (.ids (Ne.symm hid) hinner)
      · exact .inr (.checksums hinner h)
  · rintro (rfl | ⟨-, h⟩ | ⟨-, h⟩)
    · rfl
    · rw [pongChecksum, pongChecksum, h]
    · exact h

/-- A reply has 44 bytes. -/
theorem length_pongData (githubId key : Bytes) :
    (pongData (pongChecksum sha1 githubId key)).length = 44 := by
  rw [pongData, List.length_append, List.length_append, pongChecksum, sha1,
    (length_hexDigest _).1]
  rfl

section Check

variable {env : Env} {msgr : Messanger} {node : Node} {connect : Bytes → Bool} {key : Bytes}

/-- The check compares the checksums. -/
theorem checkNode_answers (henv : env.sha1 = sha1) (hconnect : connect node.ipAddr)
    (hlen : (pingData key).length < 2 ^ 31) {sock : Conn}
    (hanswers : Answers env msgr ([0] ++ be 8 (pingData key).length ++ pingData key) sock)
    (temp : Bytes) (fs : Files) :
    checkNode sha1 connect node key temp fs sock = .ok (decide
      (checksum node.githubId key = checksum msgr.name key)) := by
  obtain ⟨hs, hnode, hreply, hsend, hs'⟩ := hanswers
  rw [drop_frame] at hs
  rw [scriptOf_eq, listeLoop_ping hlen hs, henv] at hnode
  cases hnode
  cases hreply
  obtain ⟨hlen', rfl⟩ := send_eq_ok hsend
  rw [drop_frame] at hs'
  obtain ⟨r, hr, -, hdata, -⟩ := recv_frame temp fs 0 hlen' hs'
  replace hdata : r.data = pongData (pongChecksum sha1 msgr.name key) := hdata
  simp only [checkNode, hconnect, not_true, if_false, send_eq hlen, scriptOf_eq, hr, hdata,
    Run.ok_bind, checkReply_pong hlen', checksum_eq]
  rfl

/-- **The check is exact up to collisions of SHA-1.** -/
theorem check_exact (henv : env.sha1 = sha1) (hconnect : connect node.ipAddr)
    (hlen : (pingData key).length < 2 ^ 31) :
    ∃ frame n, send (pingData key) = .ok (frame, n) ∧ (∃ sock, Answers env msgr frame sock) ∧
      ∀ sock, Answers env msgr frame sock → ∀ temp fs, ∃ flag,
        checkNode sha1 connect node key temp fs sock = .ok flag ∧
          (flag = true ↔ checksum node.githubId key = checksum msgr.name key) ∧
          (flag = true ↔ msgr.name = node.githubId ∨ Confused node.githubId msgr.name key) := by
  have hreply : (pongData (pongChecksum env.sha1 msgr.name key)).length < 2 ^ 31 := by
    rw [henv, length_pongData]
    decide
  obtain ⟨frame, n, sock, hsend, hsock⟩ := answers_ping hlen hreply
    ⟨[], [], [], [], [], 0, true, fun _ => true, 0⟩ Files.blank
  obtain ⟨-, rfl⟩ := send_eq_ok hsend
  refine ⟨_, n, hsend, ⟨sock, hsock⟩, fun sock hanswers temp fs => ⟨_,
    checkNode_answers henv hconnect hlen hanswers temp fs, decide_eq_true_iff, ?_⟩⟩
  rw [decide_eq_true_iff, checksum_eq_iff]

end Check

/-- The functions of examples, with SHA-1. -/
def exampleSha1Env : Env := { exampleEnv with sha1 := sha1 }

theorem check_exact_example : ∃ frame n, send (pingData (ascii "k")) = .ok (frame, n) ∧
    (∃ sock, Answers exampleSha1Env exampleNode frame sock) ∧
      ∀ sock, Answers exampleSha1Env exampleNode frame sock → ∀ temp fs, ∃ flag,
        checkNode sha1 exampleConnect exampleRegistered (ascii "k") temp fs sock = .ok flag ∧
          (flag = true ↔ checksum exampleRegistered.githubId (ascii "k") =
            checksum exampleNode.name (ascii "k")) ∧
          (flag = true ↔ exampleNode.name = exampleRegistered.githubId ∨
            Confused exampleRegistered.githubId exampleNode.name (ascii "k")) :=
  check_exact rfl exampleConnect_registered (by decide)

end Onion5
