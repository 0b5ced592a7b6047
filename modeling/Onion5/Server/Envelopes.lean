import Onion5.Server.HealthServer
import Onion5.Foundations.Traced

/-!
# Envelopes

The LIST and PING branches of `liste_loop` and the PONG check of `health_server` each cut the inner
string out of an envelope by hand: they look at the first two bytes and then at the last two, with
differences of the `int` length for positions and lengths of `substr`. Here they are with a note of
every call of `substr` and of every inner string. Without the notes they are the `handle` of
`Listen` (`result_handleTraced`) and the `checkReply` of `HealthServer` (`result_checkReplyTraced`).

* `envelopes_exact`: they take the inner string out of exactly the strings that are envelopes and
  make of it what they should, with every call in range. Nothing in the code says that a message has
  four bytes; what does is that no prefix ends with the byte that its postfix starts with
  (`Envelope.four_le`).
-/

namespace Onion5

open Traced

/-! ## What a listener does with a string -/

/-- The envelopes that are cut in this way. -/
inductive Envelope
  | list
  | ping
  | pong
  deriving DecidableEq

namespace Envelope

def pre : Envelope → Bytes
  | list => LIST_PREFIX
  | ping => PING_PREFIX
  | pong => PONG_PREFIX

def post : Envelope → Bytes
  | list => LIST_POSTFIX
  | ping => PING_POSTFIX
  | pong => PONG_POSTFIX

theorem length_pre (k : Envelope) : k.pre.length = 2 := by cases k <;> rfl

theorem length_post (k : Envelope) : k.post.length = 2 := by cases k <;> rfl

/-- **The markers of an envelope do not overlap.** -/
theorem four_le {k : Envelope} {msg : Bytes} (hpre : msg.take 2 = k.pre)
    (hpost : msg.drop (msg.length - 2) = k.post) : 4 ≤ msg.length := by
  cases k <;> exact four_le_of_markers hpre hpost (by decide) (by decide)

end Envelope

/-- What a listener does with a string that it has received. -/
inductive Cut
  /-- `substr(pos, count)` is called on a string of `size` bytes -/
  | substr (size : ℕ) (pos count : ℤ)
  /-- `x` is taken for the inner string of an envelope -/
  | inner (k : Envelope) (x : Bytes)
  deriving DecidableEq

/-- The call is within range, and no position or length is negative. -/
def Cut.InRange : Cut → Prop
  | .substr size pos count => 0 ≤ pos ∧ pos ≤ size ∧ 0 ≤ count
  | .inner _ _ => True

theorem inRange_look (size : ℕ) : Cut.InRange (.substr size 0 2) := by
  refine ⟨le_rfl, ?_, ?_⟩ <;> omega

/-- Computations that note it. -/
abbrev Cutting (α : Type) := Traced Cut Stop α

/-- `s.substr(pos, count)`. -/
def substrTraced (s : Bytes) (pos count : ℤ) : Cutting Bytes := do
  note [.substr s.length pos count]
  lift (substr s (toSize pos) (toSize count))

/-- The cut behind a prefix that has been found. -/
def innerTraced (k : Envelope) (msg : Bytes) : Cutting (Option Bytes) := do
  let len := toInt msg.length
  let postfix_ ← substrTraced msg (len - 2) 2
  if postfix_ ≠ k.post then return none
  else do
    let x ← substrTraced msg 2 (len - 4)
    note [.inner k x]
    return some x

/-- `listFrame`, the LIST branch. -/
def listFrameTraced (env : Env) (msgr : Messanger) (msg : Bytes) (fs : Files) :
    Cutting Served := do
  match ← innerTraced .list msg with
  | none => return .idle msgr fs
  | some msg => return .idle { msgr with nodeList := insertNodes (env.parseFromString msg).2 } fs

/-- `pingFrame`, the PING branch. -/
def pingFrameTraced (env : Env) (msgr : Messanger) (msg : Bytes) (fs : Files) :
    Cutting Served := do
  match ← innerTraced .ping msg with
  | none => return .idle msgr fs
  | some key =>
    let msg := env.sha1 (msgr.name ++ key)
    let msg := env.sha1 (key ++ msg)
    return { Served.idle msgr fs with reply := some (PONG_PREFIX ++ msg ++ PONG_POSTFIX) }

/-- `handle`, a turn of `liste_loop` after `recv`. The other branches call no `substr`. -/
def handleTraced (env : Env) (d : ListenDraws) (msgr : Messanger) (msg : Bytes) (fs : Files) :
    Cutting Served := do
  let prefix₁ ← substrTraced msg 0 2
  if prefix₁ = LIST_PREFIX then listFrameTraced env msgr msg fs
  else do
    let prefix₂ ← substrTraced msg 0 2
    if prefix₂ = PING_PREFIX then pingFrameTraced env msgr msg fs
    else if isExistedFile msg fs then lift (onionPacket env d msgr msg fs)
    else return .idle msgr fs

/-- `checkReply`, what `health_server` does with the reply. -/
def checkReplyTraced (msg buffer : Bytes) : Cutting Bool := do
  let prefix_ ← substrTraced buffer 0 2
  if prefix_ ≠ PONG_PREFIX then return false
  else
    match ← innerTraced .pong buffer with
    | none => return false
    | some buffer => return msg = buffer

/-! ## Without the notes -/

theorem result_substrTraced (s : Bytes) (pos count : ℤ) :
    (substrTraced s pos count).result = substr s (toSize pos) (toSize count) := rfl

theorem log_substrTraced (s : Bytes) (pos count : ℤ) :
    (substrTraced s pos count).log = [.substr s.length pos count] := rfl

theorem result_look (s : Bytes) : (substrTraced s 0 2).result = .ok (s.take 2) :=
  substr_of_le (Nat.zero_le s.length) 2

/-- A look at the first two bytes, and what comes after it. -/
theorem look_bind {α : Type} (s : Bytes) (f : Bytes → Cutting α) :
    (substrTraced s 0 2 >>= f).result = (f (s.take 2)).result ∧
      (substrTraced s 0 2 >>= f).log = .substr s.length 0 2 :: (f (s.take 2)).log :=
  bind_of_ok (result_look s) f

/-- The cut and what comes after it. -/
theorem result_innerTraced_bind {α : Type} (k : Envelope) (msg : Bytes)
    (f : Option Bytes → Run α) : ((innerTraced k msg).result >>= f) = (do
      let postfix_ ← substr msg (toSize (toInt msg.length - 2)) 2
      if postfix_ ≠ k.post then f none
      else do
        let x ← substr msg 2 (toSize (toInt msg.length - 4))
        f (some x)) := by
  simp only [innerTraced, result_bind, result_substrTraced, bind_assoc]
  congr 1
  funext postfix_
  split_ifs
  · rfl
  · simp only [result_bind, result_substrTraced, result_note, Run.ok_bind, bind_assoc]
    rfl

theorem result_listFrameTraced (env : Env) (msgr : Messanger) (msg : Bytes) (fs : Files) :
    (listFrameTraced env msgr msg fs).result = listFrame env msgr msg fs := by
  rw [listFrameTraced, result_bind, result_innerTraced_bind]
  rfl

theorem result_pingFrameTraced (env : Env) (msgr : Messanger) (msg : Bytes) (fs : Files) :
    (pingFrameTraced env msgr msg fs).result = pingFrame env msgr msg fs := by
  rw [pingFrameTraced, result_bind, result_innerTraced_bind]
  rfl

/-- **Without the notes** it is `handle`. -/
theorem result_handleTraced (env : Env) (d : ListenDraws) (msgr : Messanger) (msg : Bytes)
    (fs : Files) : (handleTraced env d msgr msg fs).result = handle env d msgr msg fs := by
  rw [handleTraced, (look_bind msg _).1, handle]
  by_cases hlist : msg.take 2 = LIST_PREFIX
  · rw [if_pos hlist, if_pos hlist]
    exact result_listFrameTraced env msgr msg fs
  · rw [if_neg hlist, if_neg hlist, (look_bind msg _).1]
    by_cases hping : msg.take 2 = PING_PREFIX
    · rw [if_pos hping, if_pos hping]
      exact result_pingFrameTraced env msgr msg fs
    · rw [if_neg hping, if_neg hping]
      split_ifs <;> rfl

/-- **Without the notes** it is `checkReply`. -/
theorem result_checkReplyTraced (msg buffer : Bytes) :
    (checkReplyTraced msg buffer).result = checkReply msg buffer := by
  rw [checkReplyTraced, (look_bind buffer _).1, checkReply]
  by_cases hpre : buffer.take 2 ≠ PONG_PREFIX
  · rw [if_pos hpre, if_pos hpre]
    rfl
  · rw [if_neg hpre, if_neg hpre, result_bind, result_innerTraced_bind]
    rfl

/-! ## The cut -/

theorem result_lastTwo {msg : Bytes} (hlen : msg.length < 2 ^ 31) (h2 : 2 ≤ msg.length) :
    (substrTraced msg (toInt msg.length - 2) 2).result = .ok (msg.drop (msg.length - 2)) := by
  rw [result_substrTraced, show toSize 2 = 2 by decide]
  exact substr_last_two hlen h2

theorem result_between {msg : Bytes} (hlen : msg.length < 2 ^ 31) (h4 : 4 ≤ msg.length) :
    (substrTraced msg 2 (toInt msg.length - 4)).result =
      .ok ((msg.drop 2).take (msg.length - 4)) := by
  rw [result_substrTraced, show toSize 2 = 2 by decide]
  exact substr_between hlen h4

/-- **All that the cut does** behind a prefix: it takes the inner string, or finds that there is no
postfix. -/
theorem innerTraced_cases {k : Envelope} {msg : Bytes} (hlen : msg.length < 2 ^ 31)
    (hpre : msg.take 2 = k.pre) :
    (∃ x, msg = k.pre ++ x ++ k.post ∧ (innerTraced k msg).result = .ok (some x) ∧
      (innerTraced k msg).log = [.substr msg.length (msg.length - 2) 2,
        .substr msg.length 2 (msg.length - 4), .inner k x]) ∨
    (∀ x, msg ≠ k.pre ++ x ++ k.post) ∧ (innerTraced k msg).result = .ok none ∧
      (innerTraced k msg).log = [.substr msg.length (msg.length - 2) 2] := by
  have h2 := two_le_length k.length_pre hpre
  have hint := toInt_of_lt hlen
  obtain ⟨hresult, hlog⟩ := bind_of_ok (result_lastTwo hlen h2) fun postfix_ =>
    if postfix_ ≠ k.post then return none
    else do
      let x ← substrTraced msg 2 (toInt msg.length - 4)
      note [.inner k x]
      return some x
  by_cases hpost : msg.drop (msg.length - 2) = k.post
  · have h4 := Envelope.four_le hpre hpost
    have hx : unwrap k.pre k.post msg = some ((msg.drop 2).take (msg.length - 4)) :=
      if_pos ⟨hpre, h4, hpost⟩
    obtain ⟨hresult', hlog'⟩ := bind_of_ok (result_between hlen h4) fun x => do
      note [.inner k x]
      return some x
    rw [if_neg (not_not_intro hpost)] at hresult hlog
    refine .inl ⟨_, (unwrap_eq_some_iff k.length_pre k.length_post).1 hx,
      hresult.trans hresult', ?_⟩
    rw [innerTraced, hlog, hlog', log_substrTraced, log_substrTraced, hint]
    rfl
  · rw [if_pos hpost] at hresult hlog
    refine .inr ⟨fun x hx => hpost ?_, hresult, ?_⟩
    · have hunwrap := (unwrap_eq_some_iff k.length_pre k.length_post).2 hx
      unfold unwrap at hunwrap
      split_ifs at hunwrap with hc
      exact hc.2.2
    · rw [innerTraced, hlog, log_substrTraced, hint]
      rfl

/-! ## Exactness -/

/-- The computation takes the inner string out of exactly those strings that are envelopes of the
`kinds`, with every call of `substr` in range and no negative difference. It comes to `use` of the
inner string, to `nothing` on other strings with a prefix of these kinds, and to `other` on strings
without one. -/
structure CutsExactly {α : Type} (kinds : Set Envelope) (use : Envelope → Bytes → α) (nothing : α)
    (other : Run α) (msg : Bytes) (t : Cutting α) : Prop where
  inner_iff : ∀ k x, .inner k x ∈ t.log ↔ k ∈ kinds ∧ msg = k.pre ++ x ++ k.post
  inRange : ∀ c ∈ t.log, c.InRange
  /-- in particular markers that overlap are no envelope -/
  four_le : ∀ k x, .inner k x ∈ t.log → 4 ≤ msg.length
  result_inner : ∀ k ∈ kinds, ∀ x, msg = k.pre ++ x ++ k.post → t.result = .ok (use k x)
  result_nothing : ∀ k ∈ kinds, msg.take 2 = k.pre → (∀ x, msg ≠ k.pre ++ x ++ k.post) →
    t.result = .ok nothing
  result_other : (∀ k ∈ kinds, msg.take 2 ≠ k.pre) → t.result = other

/-- What `liste_loop` makes of an inner string: a node list, or a reply. -/
def handOn (env : Env) (msgr : Messanger) (fs : Files) : Envelope → Bytes → Served
  | .list, x => .idle { msgr with nodeList := insertNodes (env.parseFromString x).2 } fs
  | .ping, x => { Served.idle msgr fs with
      reply := some (pongData (pongChecksum env.sha1 msgr.name x)) }
  | .pong, _ => .idle msgr fs

theorem take_two_envelope (k : Envelope) (x : Bytes) : (k.pre ++ x ++ k.post).take 2 = k.pre := by
  rw [List.append_assoc, ← k.length_pre, List.take_left]

/-- What the cut notes. -/
theorem mem_log_innerTraced {k : Envelope} {msg : Bytes} (hlen : msg.length < 2 ^ 31)
    (hpre : msg.take 2 = k.pre) :
    (∀ k' x, .inner k' x ∈ (innerTraced k msg).log ↔ k' = k ∧ msg = k.pre ++ x ++ k.post) ∧
      ∀ c ∈ (innerTraced k msg).log, c.InRange := by
  have h2 := two_le_length k.length_pre hpre
  have hlast : Cut.InRange (.substr msg.length (msg.length - 2) 2) := by
    refine ⟨?_, ?_, ?_⟩ <;> omega
  rcases innerTraced_cases hlen hpre with ⟨y, hy, -, hlog⟩ | ⟨hne, -, hlog⟩
  · have h4 : 4 ≤ msg.length := by
      rw [hy, List.length_append, List.length_append, k.length_pre, k.length_post]
      omega
    rw [hlog]
    constructor
    · intro k' x
      simp only [List.mem_cons, Cut.inner.injEq, reduceCtorEq, false_or, List.not_mem_nil, or_false]
      refine and_congr_right fun _ => ⟨fun hx => hx ▸ hy, fun hx => ?_⟩
      exact List.append_cancel_left (List.append_cancel_right (hx.symm.trans hy))
    · have hbetween : Cut.InRange (.substr msg.length 2 (msg.length - 4)) := by
        refine ⟨?_, ?_, ?_⟩ <;> omega
      exact List.forall_mem_cons.2 ⟨hlast, List.forall_mem_cons.2
        ⟨hbetween, List.forall_mem_singleton.2 trivial⟩⟩
  · rw [hlog]
    constructor
    · intro k' x
      simp only [List.mem_singleton, reduceCtorEq, false_iff, not_and]
      exact fun _ => hne x
    · exact List.forall_mem_singleton.2 hlast

section Branches

variable {α : Type} {kinds : Set Envelope} {use : Envelope → Bytes → α} {nothing : α}
  {other : Run α} {k : Envelope} {msg : Bytes} {t : Cutting α}

/-- A branch that is taken. -/
theorem cutsExactly_of_prefix (hk : k ∈ kinds) (huniq : ∀ k' ∈ kinds, k'.pre = k.pre → k' = k)
    (hlen : msg.length < 2 ^ 31) (hpre : msg.take 2 = k.pre) (looks : List Cut)
    (hlooks : ∀ c ∈ looks, c = .substr msg.length 0 2)
    (hlog : t.log = looks ++ (innerTraced k msg).log)
    (hresult : t.result = (innerTraced k msg).result >>= fun x => .ok (x.elim nothing (use k))) :
    CutsExactly kinds use nothing other msg t := by
  obtain ⟨hinner, hrange⟩ := mem_log_innerTraced hlen hpre
  have hof : ∀ k' ∈ kinds, msg.take 2 = k'.pre → k' = k := fun k' hk' hpre' =>
    huniq k' hk' (hpre'.symm.trans hpre)
  have hiff : ∀ k' x, .inner k' x ∈ t.log ↔ k' ∈ kinds ∧ msg = k'.pre ++ x ++ k'.post := by
    intro k' x
    rw [hlog, List.mem_append, hinner]
    constructor
    · rintro (hmem | ⟨rfl, hmsg⟩)
      · cases hlooks _ hmem
      · exact ⟨hk, hmsg⟩
    · rintro ⟨hk', hmsg⟩
      obtain rfl := hof k' hk' (by rw [hmsg, take_two_envelope])
      exact .inr ⟨rfl, hmsg⟩
  refine ⟨hiff, fun c hmem => ?_, fun k' x hmem => ?_, fun k' hk' x hx => ?_,
    fun k' hk' hpre' hno => ?_, fun hno => absurd hpre (hno k hk)⟩
  · rw [hlog, List.mem_append] at hmem
    rcases hmem with hmem | hmem
    · exact hlooks c hmem ▸ inRange_look _
    · exact hrange c hmem
  · rw [((hiff k' x).1 hmem).2, List.length_append, List.length_append, k'.length_pre,
      k'.length_post]
    omega
  · obtain rfl := hof k' hk' (by rw [hx, take_two_envelope])
    rcases innerTraced_cases hlen hpre with ⟨y, hy, hinner, -⟩ | ⟨hne, -, -⟩
    · obtain rfl : y = x := List.append_cancel_left (List.append_cancel_right (hy.symm.trans hx))
      rw [hresult, hinner]
      rfl
    · exact absurd hx (hne x)
  · obtain rfl := hof k' hk' hpre'
    rcases innerTraced_cases hlen hpre with ⟨y, hy, -, -⟩ | ⟨-, hinner, -⟩
    · exact absurd hy (hno y)
    · rw [hresult, hinner]
      rfl

/-- No branch is taken. -/
theorem cutsExactly_of_no_prefix (hno : ∀ k ∈ kinds, msg.take 2 ≠ k.pre)
    (hlog : ∀ c ∈ t.log, c = .substr msg.length 0 2) (hresult : t.result = other) :
    CutsExactly kinds use nothing other msg t where
  inner_iff k x := by
    refine iff_of_false (fun hmem => ?_) fun h => hno k h.1 ?_
    · cases hlog _ hmem
    · rw [h.2, take_two_envelope]
  inRange c hmem := hlog c hmem ▸ inRange_look _
  four_le k x hmem := by cases hlog _ hmem
  result_inner k hk x hx := absurd (by rw [hx, take_two_envelope]) (hno k hk)
  result_nothing k hk hpre := absurd hpre (hno k hk)
  result_other _ := hresult

end Branches

section Listeners

variable (env : Env) (d : ListenDraws) (msgr : Messanger) (fs : Files) {msg : Bytes}

theorem log_listFrameTraced (msg : Bytes) :
    (listFrameTraced env msgr msg fs).log = (innerTraced .list msg).log :=
  log_bind_of_nil _ fun x => by cases x <;> rfl

theorem log_pingFrameTraced (msg : Bytes) :
    (pingFrameTraced env msgr msg fs).log = (innerTraced .ping msg).log :=
  log_bind_of_nil _ fun x => by cases x <;> rfl

/-- The notes of a turn, by the prefix. -/
theorem log_handleTraced (msg : Bytes) : (handleTraced env d msgr msg fs).log =
    .substr msg.length 0 2 :: if msg.take 2 = LIST_PREFIX then (innerTraced .list msg).log
      else .substr msg.length 0 2 ::
        if msg.take 2 = PING_PREFIX then (innerTraced .ping msg).log else [] := by
  rw [handleTraced, (look_bind msg _).2]
  congr 1
  by_cases hlist : msg.take 2 = LIST_PREFIX
  · rw [if_pos hlist, if_pos hlist, log_listFrameTraced]
  · rw [if_neg hlist, if_neg hlist, (look_bind msg _).2]
    congr 1
    by_cases hping : msg.take 2 = PING_PREFIX
    · rw [if_pos hping, if_pos hping, log_pingFrameTraced]
    · rw [if_neg hping, if_neg hping]
      split_ifs <;> rfl

theorem log_checkReplyTraced (checksum msg : Bytes) : (checkReplyTraced checksum msg).log =
    .substr msg.length 0 2 :: if msg.take 2 = PONG_PREFIX then (innerTraced .pong msg).log
      else [] := by
  rw [checkReplyTraced, (look_bind msg _).2]
  congr 1
  by_cases hpre : msg.take 2 = PONG_PREFIX
  · rw [if_neg (not_not_intro hpre), if_pos hpre]
    exact log_bind_of_nil _ fun x => by cases x <;> rfl
  · rw [if_pos hpre, if_neg hpre]
    rfl

theorem cutsExactly_handleTraced (hlen : msg.length < 2 ^ 31) :
    CutsExactly {.list, .ping} (handOn env msgr fs) (.idle msgr fs)
      (if isExistedFile msg fs then onionPacket env d msgr msg fs else .ok (.idle msgr fs)) msg
      (handleTraced env d msgr msg fs) := by
  by_cases hlist : msg.take 2 = LIST_PREFIX
  · refine cutsExactly_of_prefix (k := .list) (.inl rfl) ?_ hlen hlist
      [.substr msg.length 0 2] (by simp) ?_ ?_
    · rintro k' (rfl | rfl) hpre
      · rfl
      · exact absurd hpre (by decide)
    · rw [log_handleTraced, if_pos hlist]
      rfl
    · rw [handleTraced, (look_bind msg _).1, if_pos hlist, listFrameTraced, result_bind]
      congr 1
      funext x
      cases x <;> rfl
  · by_cases hping : msg.take 2 = PING_PREFIX
    · refine cutsExactly_of_prefix (k := .ping) (.inr rfl) ?_ hlen hping
        [.substr msg.length 0 2, .substr msg.length 0 2] (by simp) ?_ ?_
      · rintro k' (rfl | rfl) hpre
        · exact absurd hpre (by decide)
        · rfl
      · rw [log_handleTraced, if_neg hlist, if_pos hping]
        rfl
      · rw [handleTraced, (look_bind msg _).1, if_neg hlist, (look_bind msg _).1, if_pos hping,
          pingFrameTraced, result_bind]
        congr 1
        funext x
        cases x <;> rfl
    · refine cutsExactly_of_no_prefix ?_ ?_ ?_
      · rintro k (rfl | rfl)
        · exact hlist
        · exact hping
      · rw [log_handleTraced, if_neg hlist, if_neg hping]
        simp
      · rw [result_handleTraced, handle, if_neg hlist, if_neg hping]

theorem cutsExactly_checkReplyTraced (checksum : Bytes) (hlen : msg.length < 2 ^ 31) :
    CutsExactly {.pong} (fun _ x => decide (checksum = x)) false (.ok false) msg
      (checkReplyTraced checksum msg) := by
  by_cases hpre : msg.take 2 = PONG_PREFIX
  · refine cutsExactly_of_prefix (k := .pong) rfl (fun k' hk' _ => hk') hlen hpre
      [.substr msg.length 0 2] (by simp) ?_ ?_
    · rw [log_checkReplyTraced, if_pos hpre]
      rfl
    · rw [checkReplyTraced, (look_bind msg _).1, if_neg (not_not_intro hpre), result_bind]
      congr 1
      funext x
      cases x <;> rfl
  · refine cutsExactly_of_no_prefix (fun k hk => ?_) ?_ ?_
    · obtain rfl : k = .pong := hk
      exact hpre
    · rw [log_checkReplyTraced, if_neg hpre]
      exact fun c hc => List.mem_singleton.1 hc
    · rw [checkReplyTraced, (look_bind msg _).1, if_pos hpre]
      rfl

/-- **The envelopes are exact**: of every string below 2³¹ bytes the LIST and PING branches of
`liste_loop` and the PONG check of `health_server` take the inner string exactly if it is an
envelope of theirs. From it, and from nothing else, come the node list, the reply and the
verdict. -/
theorem envelopes_exact (checksum : Bytes) (hlen : msg.length < 2 ^ 31) :
    CutsExactly {.list, .ping} (handOn env msgr fs) (.idle msgr fs)
        (if isExistedFile msg fs then onionPacket env d msgr msg fs else .ok (.idle msgr fs)) msg
        (handleTraced env d msgr msg fs) ∧
      CutsExactly {.pong} (fun _ x => decide (checksum = x)) false (.ok false) msg
        (checkReplyTraced checksum msg) ∧
      (handleTraced env d msgr msg fs).result = handle env d msgr msg fs ∧
      (checkReplyTraced checksum msg).result = checkReply checksum msg :=
  ⟨cutsExactly_handleTraced env d msgr fs hlen, cutsExactly_checkReplyTraced checksum hlen,
    result_handleTraced env d msgr msg fs, result_checkReplyTraced checksum msg⟩

end Listeners

/-- A PING is answered, and a PONG is believed. -/
theorem envelopes_exact_example :
    handle exampleEnv exampleListenDraws exampleClient (pingData (ascii "k")) Files.blank =
        .ok (handOn exampleEnv exampleClient Files.blank .ping (ascii "k")) ∧
      .inner .pong (ascii "x") ∈ (checkReplyTraced (ascii "x") (pongData (ascii "x"))).log ∧
      checkReply (ascii "x") (pongData (ascii "x")) = .ok true := by
  obtain ⟨hping, -, hhandle, -⟩ := @envelopes_exact exampleEnv exampleListenDraws exampleClient
    Files.blank (pingData (ascii "k")) [] (by decide)
  obtain ⟨-, hpong, -, hcheck⟩ := @envelopes_exact exampleEnv exampleListenDraws exampleClient
    Files.blank (pongData (ascii "x")) (ascii "x") (by decide)
  refine ⟨?_, (hpong.inner_iff .pong _).2 ⟨rfl, rfl⟩, ?_⟩
  · rw [← hhandle]
    exact hping.result_inner .ping (.inr rfl) _ rfl
  · rw [← hcheck]
    exact hpong.result_inner .pong rfl _ rfl

end Onion5
