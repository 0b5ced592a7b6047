import Onion5.Client.Delivery
import Onion5.Common.CutFrames
import Onion5.Foundations.Handover

/-!
# The network gets done

`Network.delivery` is about runs after which nothing is in flight. A message takes at most six
calls to get there, the one that sends it and one for each hop of its route, which has at most five
nodes, and as long as the participants have temporary paths left (`Stocked`; a call draws at most
eleven) each of these calls can be made.

But the listener has one thread. It accepts its next connection only when `connect` and `send_file`
have returned for the packet of the last one, and the chat its next key when they have for the
message sent. `connect` waits for a place in the queue of `listen`, and `send_file` until the frame
is in the buffers of the connection or the other side reads it (`office`). So listeners can wait for
each other, and one can wait for itself: the last layer of a message is sent by its recipient to
itself.

* `Network.gets_through`: a run is never longer than eighteen steps for each message, and it can go
  on until every message has been pushed at its recipient, unless listeners that hold frames larger
  than the buffers wait for each other, which is for good.
-/

namespace Onion5

open Message Interleaving

/-- The draws of `send_message` that take their temporary paths from `ps`, under which no call of
the environment fails. -/
def sendDrawing (encrypt : Bytes → Bytes → Bytes) (ps : List Bytes) : SendDraws where
  shuffle := id
  textPath := ps.getD 0 []
  textTime := 0
  layer i :=
    { encPath := ps.getD (2 * i + 1) []
      status := true
      encrypt := encrypt
      serPath := ps.getD (2 * i + 2) []
      time := 0
      opens := true }
  connect _ := true

theorem layerPaths_sendDrawing {encrypt : Bytes → Bytes → Bytes} {ps : List Bytes} {i : ℕ}
    {rev : List Bytes} (hlen : 2 * (i + rev.length) + 1 ≤ ps.length) :
    layerPaths (sendDrawing encrypt ps).layer i rev =
      (ps.drop (2 * i + 1)).take (2 * rev.length) := by
  induction rev generalizing i with
  | nil => rfl
  | cons hop rest ih =>
    rw [List.length_cons] at hlen
    have h₁ : 2 * i + 1 < ps.length := by omega
    have h₂ : 2 * i + 1 + 1 < ps.length := by omega
    have htwo : 2 * (rest.length + 1) = 2 * rest.length + 1 + 1 := by omega
    rw [layerPaths, ih (by omega), List.length_cons, htwo, List.drop_eq_getElem_cons h₁,
      List.drop_eq_getElem_cons h₂, List.take_succ_cons, List.take_succ_cons]
    simp only [sendDrawing, List.getD_eq_getElem?_getD, List.getElem?_eq_getElem h₁,
      List.getElem?_eq_getElem h₂, Option.getD_some]
    rfl

/-- They take the first ones. -/
theorem paths_sendDrawing {encrypt : Bytes → Bytes → Bytes} {ps route : List Bytes}
    (hlen : 2 * route.length + 1 ≤ ps.length) :
    (sendDrawing encrypt ps).paths route = ps.take (2 * route.length + 1) := by
  obtain ⟨p, ps, rfl⟩ : ∃ p ps', ps = p :: ps' :=
    List.exists_cons_of_length_pos (by omega)
  rw [SendDraws.paths, layerPaths_sendDrawing (by rwa [List.length_reverse, Nat.zero_add]),
    List.length_reverse, List.take_succ_cons]
  rfl

namespace Network

variable {net : Network} {n : ℕ}

/-! ## Short routes -/

/-- A route of `send_message` has at most three relays. -/
theorem length_route_le (m : Messanger) (to_ : Bytes) (d : SendDraws) :
    (m.route to_ d).length ≤ 5 :=
  length_generatePath_le m.nodeList m.name to_ (by decide) (by decide) d.shuffle

/-- What a message looks like, on a route of at most five nodes. -/
structure Journey (p : net.Parcel) (tokens : List Token) (log : List Event) : Prop where
  status : Status p tokens log
  length_le : ∀ route, Event.routed route ∈ log → route.length ≤ 5

/-- A step of the message: the call that sends it, or a node that receives it. -/
def isStep (e : Event) : Bool := e.push.isNone

section Journey

variable {p : net.Parcel} {route : List Bytes} {done rest : List (Bytes × Bytes)}
  {h : Bytes × Bytes}

theorem countP_received (hs : List (Bytes × Bytes)) :
    (hs.map fun h => Event.received h.2).countP isStep = hs.length := by
  rw [List.countP_map]
  exact List.countP_eq_length.2 fun _ _ => rfl

theorem Journey.countP_le {tokens : List Token} {log : List Event} (h : Journey p tokens log) :
    log.countP isStep ≤ 6 := by
  obtain ⟨hst, hlen⟩ := h
  cases hst with
  | pending => simp
  | @travelling route done rest h _ _ hr hh =>
    have hle := hlen route List.mem_cons_self
    have hhops := length_hops hr.ne_nil
    rw [hh, List.length_append, List.length_cons] at hhops
    rw [List.countP_cons, countP_received]
    split_ifs <;> omega
  | @delivered route hr =>
    have hle := hlen route List.mem_cons_self
    have hhops := length_hops hr.ne_nil
    rw [List.cons_append, List.countP_cons, List.countP_append, countP_received]
    simp only [List.countP_cons, List.countP_nil, isStep, Event.push]
    simp
    omega

/-- A message that is still in flight has a step to come. -/
theorem Journey.countP_lt {l₁ l₂ : List Token} {t : Token} {log : List Event}
    (h : Journey p (l₁ ++ t :: l₂) log) : log.countP isStep < 6 := by
  obtain ⟨-, -, ⟨-, rfl⟩ | ⟨route, done, rest, h', time, file, hr, hh, -, -, rfl⟩⟩ := h.status.cases
  · simp
  · have hle := h.length_le route List.mem_cons_self
    have hhops := length_hops hr.ne_nil
    rw [hh, List.length_append, List.length_cons] at hhops
    rw [List.countP_cons, countP_received]
    split_ifs <;> omega

end Journey

/-! ## Temporary paths -/

/-- Every participant has temporary paths left for `k` calls. -/
def Stocked (net : Network) (k : ℕ) (s : Bytes → Host) : Prop :=
  ∀ r ∈ net.ids, ∃ ps : List Bytes, 11 * k ≤ ps.length ∧ (s r).fs.Fresh ps

/-- `encrypt` makes ciphertexts that the participants they are for can open. -/
def Ideal (net : Network) (encrypt : Bytes → Bytes → Bytes) : Prop :=
  ∀ r x, net.Opens r x (encrypt (cstr r) x)

/-- A call that draws at most eleven paths leaves enough for the others. -/
theorem Stocked.update {k : ℕ} {s : Bytes → Host} (h : net.Stocked (k + 1) s) {r : Bytes}
    {ds : List Bytes} {host : Host} (hd : (s r).fs.Fresh ds) (hlen : ds.length ≤ 11)
    (hhost : ∀ ps, (s r).fs.Fresh (ds ++ ps) → host.fs.Fresh ps) :
    net.Stocked k (Function.update s r host) := by
  intro q hq
  obtain ⟨ps, hps, hfresh⟩ := h q hq
  by_cases hqr : q = r
  · subst hqr
    obtain ⟨qs, hqs, happ⟩ := hfresh.exists_append (k := 11 * k) hd (by omega)
    exact ⟨qs, hqs, by simpa using hhost qs happ⟩
  · exact ⟨ps, by omega, by rwa [Function.update_of_ne hqr]⟩

/-- A participant with eleven new temporary paths left can send. -/
theorem exists_goodSend (m : Messanger) (to_ : Bytes) {encrypt : Bytes → Bytes → Bytes}
    (henc : net.Ideal encrypt) {fs : Files} {ps : List Bytes} (hlen : 11 ≤ ps.length)
    (hps : fs.Fresh ps) : ∃ d, net.GoodSend d (m.route to_ d) fs := by
  refine ⟨sendDrawing encrypt ps, fun _ => .refl _, ?_, fun _ => rfl, fun _ => rfl, fun _ => rfl,
    fun _ r x => henc r x⟩
  have hroute := length_route_le m to_ (sendDrawing encrypt ps)
  rw [paths_sendDrawing (by omega)]
  exact hps.sublist (List.take_sublist _ _)

/-! ## Steps -/

section Steps

variable {p : Fin n → net.Parcel} {s s' : Bytes → Host} {i : Fin n} {t : Token}
  {new l₁ l₂ : List Token} {events log : List Event}

theorem act_journey (h0 : 0 ∉ (p i).text) (hs : net.Steady s)
    (ho : Journey (p i) (l₁ ++ t :: l₂) log) (ha : Act p s i t s' new events) :
    Journey (p i) (l₁ ++ l₂ ++ new) (log ++ events) := by
  refine ⟨(act_status h0 hs ho.status ha).2, fun route hmem => ?_⟩
  obtain hmem | hmem := List.mem_append.1 hmem
  · exact ho.length_le route hmem
  · cases ha with
    | send hd hr =>
      obtain rfl := Event.routed.inj (List.mem_singleton.1 hmem)
      exact length_route_le _ _ _
    | @receive _ _ _ _ r d served => cases hpush : served.pushed <;> simp [hpush] at hmem
    | stop => simp at hmem
    | lost => simp at hmem

/-- Every step is the call that sends a message, or a node that receives it. -/
theorem act_countP (ho : Journey (p i) (l₁ ++ t :: l₂) log) (ha : Act p s i t s' new events) :
    0 < events.countP isStep := by
  cases ha with
  | send => exact Nat.one_pos
  | receive => exact List.countP_pos_iff.2 ⟨_, List.mem_cons_self, rfl⟩
  | stop => exact Nat.one_pos
  | lost hhost =>
    obtain ⟨-, -, ⟨ht, -⟩ | ⟨route, done, rest, h, time, file, hr, hh, -, ht, -⟩⟩ := ho.status.cases
    · cases ht
    · cases ht
      exact absurd rfl (hhost _ (hr.snd_mem_ids (hh ▸ by simp)))

/-- A step draws at most eleven paths. -/
theorem act_stocked (h0 : 0 ∉ (p i).text) (hs : net.Steady s)
    (ho : Journey (p i) (l₁ ++ t :: l₂) log) (ha : Act p s i t s' new events) {k : ℕ}
    (hk : net.Stocked (k + 1) s) : net.Stocked k s' := by
  obtain ⟨-, -, hcase⟩ := ho.status.cases
  cases ha with
  | @send _ _ d _ hd hr =>
    subst hr
    have hto : (p i).recipient ∈ (s (p i).sender).msgr.nodeList := by
      rw [hs _ (p i).sender_mem]
      exact (mem_nodeList (p i).sender_mem).2 (p i).recipient_mem
    have hroute := length_route_le (s (p i).sender).msgr (p i).recipient d
    refine hk.update hd.fresh ?_ fun ps hps => sendMessage_fresh _ hto hps
    rw [SendDraws.length_paths]
    omega
  | @receive _ _ _ _ r d served hr hhost hd hserved =>
    obtain ⟨ht, -⟩ | ⟨route, done, rest, h, time, file, hroute, hh, hl, ht, -⟩ := hcase
    · cases ht
    · cases ht
      have hnode : h.2 ∈ net.ids := hroute.snd_mem_ids (hh ▸ by simp)
      obtain rfl := net.addr_inj _ hr _ hnode hhost
      rw [hs _ hr] at hserved
      obtain ⟨s₁, hs₁, -, hfs, -⟩ := receive_travelling h0 hroute hh hl hd
      cases hserved.symm.trans hs₁
      exact hk.update hd.fresh (by simp [ListenDraws.paths]) hfs
  | stop | lost => exact fun r hr => (hk r hr).imp fun ps hps => ⟨by omega, hps.2⟩

/-- Whatever is in flight can be served. -/
theorem exists_act (h0 : 0 ∉ (p i).text) {encrypt : Bytes → Bytes → Bytes}
    (henc : net.Ideal encrypt) (hs : net.Steady s) (ho : Journey (p i) (l₁ ++ t :: l₂) log) {k : ℕ}
    (hk : net.Stocked (k + 1) s) : ∃ s' new events, Act p s i t s' new events := by
  obtain ⟨-, -, ⟨rfl, -⟩ | ⟨route, done, rest, h, time, file, hr, hh, hl, rfl, -⟩⟩ :=
    ho.status.cases
  · obtain ⟨ps, hlen, hps⟩ := hk _ (p i).sender_mem
    obtain ⟨d, hd⟩ :=
      exists_goodSend (s (p i).sender).msgr (p i).recipient henc (by omega) hps
    exact ⟨_, _, _, .send hd rfl⟩
  · have hnode : h.2 ∈ net.ids := hr.snd_mem_ids (hh ▸ by simp)
    obtain ⟨ps, hlen, hps⟩ := hk _ hnode
    obtain ⟨d, -, hd, -⟩ := exists_good (k := 0) (by omega) hps
    obtain ⟨served, hserved, -⟩ := receive_travelling h0 hr hh hl hd
    rw [← hs _ hnode] at hserved
    exact ⟨_, _, _, .receive hnode rfl hd hserved⟩

end Steps

/-! ## Runs -/

section Runs

variable {p : Fin n → net.Parcel}

theorem journeys (h0 : ∀ i, 0 ∉ (p i).text) :
    Invariant (Act p) net.Steady fun i => Journey (p i) where
  step_shared hs ho ha := (act_status (h0 _) hs ho.status ha).1
  step_own hs ho ha := act_journey (h0 _) hs ho ha

theorem marks (p : Fin n → net.Parcel) :
    Marks (Act p) net.Steady (fun i => Journey (p i)) isStep 6 where
  step _ ho ha := act_countP ho ha
  le ho := ho.countP_le
  lt ho := ho.countP_lt

theorem supplies (h0 : ∀ i, 0 ∉ (p i).text) {encrypt : Bytes → Bytes → Bytes}
    (henc : net.Ideal encrypt) :
    Supplies (Act p) net.Steady (fun i => Journey (p i)) net.Stocked where
  exists_act hs ho hk := exists_act (h0 _) henc hs ho hk
  step_stock hs ho ha hk := act_stocked (h0 _) hs ho ha hk

theorem journeys_start (p : Fin n → net.Parcel) {s : Bytes → Host} (hs : net.Steady s) :
    (start n s).Holds net.Steady fun i => Journey (p i) := by
  obtain ⟨hsteady, hown⟩ := holds_start p hs
  exact ⟨hsteady, fun i => ⟨hown i, fun route h => absurd h List.not_mem_nil⟩⟩

/-- A message that is no longer in flight has been pushed at its recipient. -/
theorem Status.pushed {p : net.Parcel} {log : List Event} (h : Status p [] log) :
    .pushed p.recipient p.sender (p.sender ++ ascii ": " ++ p.text) ∈ log := by
  cases h
  simp

/-- One in flight has not. -/
theorem Status.not_pushed {p : net.Parcel} {tokens : List Token} {log : List Event}
    (h : Status p tokens log) (hne : tokens ≠ []) :
    .pushed p.recipient p.sender (p.sender ++ ascii ": " ++ p.text) ∉ log := by
  cases h <;> simp at hne ⊢

theorem Status.length_le {p : net.Parcel} {tokens : List Token} {log : List Event}
    (h : Status p tokens log) : tokens.length ≤ 1 := by
  cases h <;> simp

end Runs

/-! ## Listeners and chats -/

/-- A thread that calls `send_file`: the chat of a user, or the listener at an address. -/
inductive Worker
  | chat (user : Bytes)
  | listener (host : Bytes)
  deriving DecidableEq

/-- A message is sent by the chat of its sender, and a packet served by the listener at its address.
The frame of a file can be left to a listener that is busy when it fits the buffers of a connection,
and connections wait in the places of `listen`. -/
def office (p : Fin n → net.Parcel) (cap places : ℕ) : Handover.Office (Fin n) Token Worker where
  worker i
    | .send => .chat (p i).sender
    | .packet host _ => .listener host
  size
    | .send => 0
    | .packet _ file => (frame 1 file).length
  cap := cap
  places := places

/-- Nothing has been sent yet. -/
def idle (n : ℕ) (s : Bytes → Host) : Handover.Config (Bytes → Host) (Fin n) Token Event Worker :=
  ⟨s, (start n s).flight, [], []⟩

section Workers

variable {p : Fin n → net.Parcel} {cap places : ℕ}

theorem Sent.length_tokens (sent : Option Sent) : (Sent.tokens sent).length ≤ 1 := by
  obtain _ | ⟨host, path, _ | file⟩ := sent <;> simp [Sent.tokens]

/-- A call makes at most one packet. -/
theorem Act.length_new {s s' : Bytes → Host} {i : Fin n} {t : Token} {new : List Token}
    {events : List Event} (ha : Act p s i t s' new events) : new.length ≤ 1 := by
  cases ha with
  | send => exact Sent.length_tokens _
  | receive => exact Sent.length_tokens _
  | stop | lost => exact Nat.zero_le 1

/-- What is in flight during a run. -/
structure Afoot (p : Fin n → net.Parcel) (places : ℕ)
    (c : Handover.Config (Bytes → Host) (Fin n) Token Event Worker) : Prop where
  status : ∀ i, ∃ tokens, Status (p i) tokens (ofActivity i c.log) ∧
    tokens.Perm (ofActivity i c.flat.flight)
  exists_act : ∀ q ∈ c.flat.flight, ∃ s' new events, Act p c.shared q.1 q.2 s' new events
  length_le : c.flat.flight.length ≤ places

theorem afoot_of_run (h0 : ∀ i, 0 ∉ (p i).text) {encrypt : Bytes → Bytes → Bytes}
    (henc : net.Ideal encrypt) {s : Bytes → Host} (hs : net.Steady s)
    (hstock : net.Stocked (6 * n) s) (hn : n ≤ places) {k : ℕ}
    {c : Handover.Config (Bytes → Host) (Fin n) Token Event Worker}
    (hrun : Handover.RunIn (office p cap places) (Act p) k (idle n s) c) :
    k ≤ 18 * n ∧ Afoot p places c := by
  have hnd := List.nodup_finRange n
  have hall := List.mem_finRange (n := n)
  have hlen : (List.finRange n).length * 6 = 6 * n := by rw [List.length_finRange, Nat.mul_comm]
  obtain ⟨j, d, hflat, hsame, hdue⟩ := hrun.flat Act.length_new
  have hflat : RunIn (Act p) j (start n s) d := hflat
  have hdue : k + c.due ≤ 0 + 3 * j := hdue
  obtain ⟨hd, hsteps⟩ := (marks p).run (journeys h0) (journeys_start p hs) hflat
  have hle := (marks p).marked_le hnd hall hd
  have hbound : j ≤ 6 * n := by omega
  obtain ⟨-, hk⟩ := (supplies h0 henc).run (journeys h0) (journeys_start p hs) hflat
    (j := 6 * n - j) (by rwa [Nat.sub_add_cancel hbound])
  obtain ⟨hshared, hperm, hlog⟩ := hsame
  have hstatus : ∀ i, Status (p i) (ofActivity i d.flight) (ofActivity i c.log) := by
    intro i
    have hi := (hd.2 i).status
    rwa [hlog] at hi
  refine ⟨by omega, fun i => ⟨_, hstatus i, hperm.filterMap _⟩, fun q hq => ?_, ?_⟩
  · have hq := hperm.mem_iff.2 hq
    have hlt := (marks p).marked_lt hnd hall hd hq
    obtain ⟨m, hm⟩ := Nat.exists_eq_succ_of_ne_zero (n := 6 * n - j) (by omega)
    obtain ⟨s', new, events, ha⟩ := (supplies h0 henc).next hd (hm ▸ hk) hq
    rw [hshared] at ha
    exact ⟨s', new, events, ha⟩
  · have hcount := length_flight_le hnd hall fun i => (hstatus i).length_le
    rw [List.length_finRange, hperm.length_eq] at hcount
    omega

/-- **The network gets through.** However its steps are ordered, a run takes at most eighteen for
each message. As long as not every message has been pushed at its recipient it can go on, unless
there is a jam: listeners each of which holds a frame larger than the buffers, for one of them. And
after a jam some message is never pushed. -/
theorem gets_through (h0 : ∀ i, 0 ∉ (p i).text) {encrypt : Bytes → Bytes → Bytes}
    (henc : net.Ideal encrypt) {s : Bytes → Host} (hs : net.Steady s)
    (hstock : net.Stocked (6 * n) s) (hn : n ≤ places) {k : ℕ}
    {c : Handover.Config (Bytes → Host) (Fin n) Token Event Worker}
    (hrun : Handover.RunIn (office p cap places) (Act p) k (idle n s) c) :
    k ≤ 18 * n ∧
      ((∃ c', Handover.Step (office p cap places) (Act p) c c') ∨
        (∀ i, .pushed (p i).recipient (p i).sender ((p i).sender ++ ascii ": " ++ (p i).text) ∈
          ofActivity i c.log) ∨
        ∃ W, Handover.Jam (office p cap places) W c.held) ∧
      ∀ W, Handover.Jam (office p cap places) W c.held →
        ∀ j c', Handover.RunIn (office p cap places) (Act p) j c c' →
          ∃ i, .pushed (p i).recipient (p i).sender ((p i).sender ++ ascii ": " ++ (p i).text) ∉
            ofActivity i c'.log := by
  obtain ⟨hle, hc⟩ := afoot_of_run h0 henc hs hstock hn hrun
  refine ⟨hle, ?_, fun W hj j c' hgo => ?_⟩
  · by_cases hne : c.flat.flight = []
    · refine .inr (.inl fun i => ?_)
      obtain ⟨tokens, hst, hperm⟩ := hc.status i
      rw [hne, ofActivity_nil, List.perm_nil] at hperm
      exact (hperm ▸ hst).pushed
    · exact (Handover.exists_step_or_jam hc.exists_act hc.length_le hne).imp_right .inr
  · obtain ⟨⟨i, t⟩, hmem⟩ := (hj.run hgo).exists_mem
    obtain ⟨tokens, hst, hperm⟩ :=
      (afoot_of_run h0 henc hs hstock hn (hrun.trans hgo)).2.status i
    refine ⟨i, hst.not_pushed fun hnil => ?_⟩
    rw [hnil] at hperm
    have ht : t ∈ ofActivity i c'.flat.flight := List.mem_filterMap.2 ⟨_, hmem, by simp⟩
    exact List.not_mem_nil (hperm.mem_iff.2 ht)

end Workers

/-! ## Two messages -/

/-- Temporary paths for examples, one for each `k < 676`. -/
def examplePath (k : ℕ) : Bytes :=
  getTemppath (List.replicate 14 97 ++ [UInt8.ofNat (97 + k / 26), UInt8.ofNat (97 + k % 26)])

theorem isTempPath_examplePath {k : ℕ} (hk : k < 676) : IsTempPath (examplePath k) := by
  have hletter : ∀ j < 26, isAlnum (UInt8.ofNat (97 + j)) := by decide
  refine ⟨_, rfl, fun c hc => ?_, rfl⟩
  obtain hc | hc := List.mem_append.1 hc
  · rw [List.eq_of_mem_replicate hc]
    rfl
  · obtain rfl | rfl : c = UInt8.ofNat (97 + k / 26) ∨ c = UInt8.ofNat (97 + k % 26) := by
      simpa using hc
    · exact hletter _ (by omega)
    · exact hletter _ (by omega)

theorem examplePath_inj {k j : ℕ} (hk : k < 676) (hj : j < 676)
    (h : examplePath k = examplePath j) : k = j := by
  have hpair := List.append_cancel_left (List.append_cancel_left h)
  obtain ⟨hdiv, hmod⟩ : UInt8.ofNat (97 + k / 26) = UInt8.ofNat (97 + j / 26) ∧
      UInt8.ofNat (97 + k % 26) = UInt8.ofNat (97 + j % 26) := by simpa using hpair
  replace hdiv := congrArg UInt8.toNat hdiv
  replace hmod := congrArg UInt8.toNat hmod
  rw [toNat_letter (by omega), toNat_letter (by omega)] at hdiv hmod
  omega

theorem stocked_exampleHosts {k : ℕ} (hk : 11 * k ≤ 676) : example₃.Stocked k exampleHosts := by
  have hlt : ∀ i ∈ List.range (11 * k), i < 676 := fun i hi => (List.mem_range.1 hi).trans_le hk
  refine fun _ _ => ⟨(List.range (11 * k)).map examplePath, by simp, ?_⟩
  refine Files.fresh_blank (List.Nodup.map_on (fun i hi j hj =>
    examplePath_inj (hlt i hi) (hlt j hj)) List.nodup_range) fun q hq => ?_
  obtain ⟨i, hi, rfl⟩ := List.mem_map.1 hq
  exact isTempPath_examplePath (hlt i hi)

theorem ideal_exampleEncrypt : example₃.Ideal exampleEncrypt := fun r x _ =>
  exampleDecrypt_self (cstr r) (cstr (ascii "secret")) x

/-- `a` writes to `b`, and `b` to `a`. -/
def exampleLetters (i : Fin 2) : example₃.Parcel :=
  if i = 0 then exampleParcel (ascii "hi")
  else ⟨ascii "b", ascii "a", ascii "yo", (exampleParcel []).recipient_mem,
    (exampleParcel []).sender_mem, (exampleParcel []).sender_ne.symm⟩

/-- Both letters can be delivered, and are when nothing is in flight. -/
theorem delivery_example : ∃ c : Config (Bytes → Host) (Fin 2) Token Event, c.flight = [] ∧
    (pushes c.log).Perm ((List.finRange 2).map fun i =>
        ((exampleLetters i).recipient, (exampleLetters i).sender,
          (exampleLetters i).sender ++ ascii ": " ++ (exampleLetters i).text)) ∧
      ∀ i, ∃ route, example₃.IsRoute (exampleLetters i) route ∧
        .routed route ∈ ofActivity i c.log ∧
        receivers i c.log = route.tail ++ [(exampleLetters i).recipient] := by
  have hs : example₃.Steady exampleHosts := fun _ _ => rfl
  have h0 : ∀ i, 0 ∉ (exampleLetters i).text := by decide
  obtain ⟨c, hrun, hnil⟩ := (supplies h0 ideal_exampleEncrypt).drains (journeys h0) (marks _)
    (List.nodup_finRange 2) List.mem_finRange (journeys_start exampleLetters hs)
    (stocked_exampleHosts (k := 12) (by decide)) (Nat.le_add_left _ _)
  exact ⟨c, hnil, delivery h0 hs hrun hnil⟩

/-- However the two messages are mixed, a run that cannot go on ends with both delivered or in a
jam. -/
theorem gets_through_example : ∃ k c,
    Handover.RunIn (office exampleLetters 65536 10) (Act exampleLetters) k (idle 2 exampleHosts) c ∧
      k ≤ 36 ∧
      ((∀ i, .pushed (exampleLetters i).recipient (exampleLetters i).sender
          ((exampleLetters i).sender ++ ascii ": " ++ (exampleLetters i).text) ∈
            ofActivity i c.log) ∨
        ∃ W, Handover.Jam (office exampleLetters 65536 10) W c.held) := by
  have hs : example₃.Steady exampleHosts := fun _ _ => rfl
  have h0 : ∀ i, 0 ∉ (exampleLetters i).text := by decide
  have hstock : example₃.Stocked (6 * 2) exampleHosts := stocked_exampleHosts (by decide)
  have hn : 2 ≤ 10 := by decide
  have hbound : ∀ {k c},
      Handover.RunIn (office exampleLetters 65536 10) (Act exampleLetters) k (idle 2 exampleHosts)
        c → k ≤ 18 * 2 :=
    fun hrun => (gets_through h0 ideal_exampleEncrypt hs hstock hn hrun).1
  obtain ⟨k, c, hrun, hlast⟩ := Handover.exists_last hbound
  obtain ⟨hle, hcase, -⟩ := gets_through h0 ideal_exampleEncrypt hs hstock hn hrun
  exact ⟨k, c, hrun, hle, hcase.resolve_left hlast⟩

end Network

end Onion5
