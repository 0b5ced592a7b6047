import Onion5.Client.ChatRoom
import Onion5.Client.Delivery

/-!
# Conversations

The participants of a network with their user interfaces. A key or a look at the node list is a step
of one interface; Enter with a text in the box starts the message of a parcel; and a packet served
by a node goes to that node's interface when it is pushed (`Network.Move`).

* `Network.coherent_of_chatting`: at any time, the chat of a participant with another one is what
  the log of the network says of the two, in the same order.
* `Network.conversations`: once nothing is in flight, both sides of every conversation hold the same
  messages, each exactly once.

Both are about participants who have not pressed F2 or F5, which write in their own chat and clear
it (`Chats.edited`).
-/

namespace Onion5

open Message Interleaving

namespace Session

variable {s s' : Session} {key : ℤ} {typed : Bytes}

/-- What a key does to the chats and to what is sent: nothing, or one message is sent and shown.
F2 writes in the own chat only, and F5 clears it. -/
inductive Effect (key : ℤ) (s s' : Session) : Prop
  | silent (hsent : s'.sent = s.sent) (hlog : ∀ p, s'.ui.log p = s.ui.log p)
  | message {to_ text : Bytes} (hroom : s.screen = .room to_ text)
      (hsent : s'.sent = s.sent ++ [(to_, text)])
      (hlog : ∀ p, s'.ui.log p = s.ui.log p ++ if p = to_ then [s.ownLine text] else [])
  | edited (hkey : key = KEY_F 2 ∨ key = KEY_F 5) (hsent : s'.sent = s.sent)

/-- The name and the lists are as they were. -/
structure Same (s s' : Session) : Prop where
  name : s'.name = s.name
  nodeList : s'.nodeList = s.nodeList
  userlist : s'.ui.userlist = s.ui.userlist

/-- Only the screen is another one after the start of a turn. -/
theorem effect_roomLoop {name message : Bytes} (h : s.roomLoop name message = .ok s') :
    Effect key s s' ∧ s.Same s' := by
  obtain rfl := roomLoop_ok h
  exact ⟨.silent rfl fun _ => rfl, rfl, rfl, rfl⟩

theorem effect_roomKey {name message : Bytes} (hs : s.screen = .room name message)
    (h : s.roomKey name message key typed = .ok s') : Effect key s s' ∧ s.Same s' := by
  unfold roomKey at h
  split_ifs at h with hescape hempty hfile hback henter hempty' hf5
  · obtain rfl := Except.ok.inj h
    exact ⟨.silent rfl fun _ => rfl, rfl, rfl, rfl⟩
  · exact effect_roomLoop h
  · obtain rfl := roomLoop_ok h
    exact ⟨.edited (Or.inl hfile.1) rfl, rfl, rfl, UI.pushMessage_userlist _ _ _⟩
  · exact effect_roomLoop h
  · exact effect_roomLoop h
  · obtain rfl := roomLoop_ok h
    refine ⟨.message hs rfl fun p => ?_, rfl, rfl, UI.pushMessage_userlist _ _ _⟩
    rw [UI.log_pushMessage]
    split_ifs with hp
    · rfl
    · exact (List.append_nil _).symm
  · obtain rfl := roomLoop_ok h
    exact ⟨.edited (Or.inr hf5) rfl, rfl, rfl, rfl⟩
  · exact effect_roomLoop h
  · exact effect_roomLoop h
  · exact effect_roomLoop h

theorem effect_selectKey {i : ℕ} (h : s.selectKey i key = .ok s') :
    Effect key s s' ∧ s.Same s' := by
  unfold selectKey at h
  dsimp only at h
  split_ifs at h
  · obtain rfl := Except.ok.inj h
    exact ⟨.silent rfl fun _ => rfl, rfl, rfl, rfl⟩
  · obtain rfl := Except.ok.inj h
    exact ⟨.silent rfl fun _ => rfl, rfl, rfl, rfl⟩
  · obtain rfl := Except.ok.inj h
    exact ⟨.silent rfl fun _ => rfl, rfl, rfl, rfl⟩
  · unfold openRoom at h
    split at h
    · cases h
    · obtain rfl := roomLoop_ok h
      exact ⟨.silent rfl fun p => UI.refreshChatlog_log _ _ p, rfl, rfl,
        UI.refreshChatlog_userlist _ _⟩
  · obtain rfl := Except.ok.inj h
    exact ⟨.silent rfl fun _ => rfl, rfl, rfl, rfl⟩

/-- **What a key does to the chats.** -/
theorem effect_key (h : s.step (.key key typed) = .ok s') : Effect key s s' ∧ s.Same s' := by
  change s.pressKey key typed = .ok s' at h
  unfold pressKey at h
  split at h
  · obtain rfl := Except.ok.inj h
    exact ⟨.silent rfl fun _ => rfl, rfl, rfl, rfl⟩
  · exact effect_selectKey h
  · split_ifs at h
    · obtain rfl := Except.ok.inj h
      exact ⟨.silent rfl fun _ => rfl, rfl, rfl, rfl⟩
    · obtain rfl := Except.ok.inj h
      exact ⟨.silent rfl fun _ => rfl, rfl, rfl, rfl⟩
  · rename_i hs
    exact effect_roomKey hs h
  · obtain rfl := Except.ok.inj h
    exact ⟨.silent rfl fun _ => rfl, rfl, rfl, rfl⟩

/-- What has been sent stays sent. -/
theorem sent_mono_step {e : UiEvent} (h : s.step e = .ok s') : s.sent <+: s'.sent := by
  cases e with
  | key key typed =>
    obtain ⟨heffect, -⟩ := effect_key h
    cases heffect with
    | silent hsent _ => exact hsent ▸ List.prefix_refl _
    | message _ hsent _ => exact hsent ▸ List.prefix_append _ _
    | edited _ hsent => exact hsent ▸ List.prefix_refl _
  | poll =>
    obtain rfl := Except.ok.inj h
    unfold poll
    split_ifs <;> exact List.prefix_refl _
  | push from_ content =>
    obtain rfl := Except.ok.inj h
    exact List.prefix_refl _
  | list nodeList =>
    obtain rfl := Except.ok.inj h
    exact List.prefix_refl _

theorem sent_mono {es : List UiEvent} (h : s.run es = .ok s') : s.sent <+: s'.sent := by
  induction es generalizing s with
  | nil =>
    obtain rfl := Except.ok.inj h
    exact List.prefix_refl _
  | cons e es ih =>
    obtain ⟨t, ht, hrun⟩ := Run.bind_eq_ok.1 (run_cons s e es ▸ h)
    exact (sent_mono_step ht).trans (ih hrun)

end Session

/-- The interfaces of the participants, the network, and who has pressed F2 or F5. -/
structure Chats (n : ℕ) where
  session : Bytes → Session
  config : Config (Bytes → Host) (Fin n) Token Event
  edited : List Bytes

/-- What a user does, but for F2 and F5. -/
def UiEvent.isOrdinary : UiEvent → Bool
  | .key k _ => ¬ (k = KEY_F 2 ∨ k = KEY_F 5)
  | .poll => true
  | _ => false

/-- The content of a call of `push_message` for `q` at `r`. -/
def Event.chat (r q : Bytes) : Event → Option Bytes
  | .pushed node from_ content => if node = r ∧ from_ = q then some content else none
  | _ => none

/-- A call of `push_message` reaches the interface of its node. -/
def Event.deliver (session : Bytes → Session) : Event → Bytes → Session
  | .pushed node from_ content => Function.update session node
      { session node with ui := (session node).ui.pushMessage from_ content }
  | _ => session

namespace Network

variable {net : Network} {n : ℕ}

/-- The steps of the participants. Keys that send nothing and looks at the node list are steps of
one interface. Enter sends the message of a parcel, and shows it to its sender. -/
inductive Move (p : Fin n → net.Parcel) : Chats n → Chats n → Prop
  | key {c r key typed s'} (hr : r ∈ net.ids)
      (hs : (c.session r).step (.key key typed) = .ok s')
      (hsent : s'.sent = (c.session r).sent) :
      Move p c { c with
        session := Function.update c.session r s'
        edited := if key = KEY_F 2 ∨ key = KEY_F 5 then r :: c.edited else c.edited }
  | poll {c r} (hr : r ∈ net.ids) :
      Move p c { c with session := Function.update c.session r (c.session r).poll }
  | send {session edited hosts hosts' i new events l₁ l₂ log key typed s'}
      (h : Act p hosts i .send hosts' new events)
      (hs : (session (p i).sender).step (.key key typed) = .ok s')
      (hsent : s'.sent = (session (p i).sender).sent ++ [((p i).recipient, (p i).text)]) :
      Move p ⟨session, ⟨hosts, l₁ ++ (i, .send) :: l₂, log⟩, edited⟩
        ⟨Function.update session (p i).sender s',
          ⟨hosts', l₁ ++ l₂ ++ new.map (i, ·), log ++ events.map (i, ·)⟩, edited⟩
  | serve {session edited hosts hosts' i host file new events l₁ l₂ log}
      (h : Act p hosts i (.packet host file) hosts' new events) :
      Move p ⟨session, ⟨hosts, l₁ ++ (i, .packet host file) :: l₂, log⟩, edited⟩
        ⟨events.foldl Event.deliver session,
          ⟨hosts', l₁ ++ l₂ ++ new.map (i, ·), log ++ events.map (i, ·)⟩, edited⟩

/-- A run of the participants. -/
abbrev Chatting (p : Fin n → net.Parcel) : Chats n → Chats n → Prop :=
  Relation.ReflTransGen (Move p)

/-- The participants after their logins. -/
def opening (net : Network) (n : ℕ) (hosts : Bytes → Host) : Chats n :=
  ⟨fun r => Session.start r (net.node r).nodeList, start n hosts, []⟩

/-! ## What the chats hold -/

/-- The line of a message. -/
def Parcel.line (p : net.Parcel) : Bytes := p.sender ++ ascii ": " ++ p.text

/-- The line that an event of the network adds to the chat of `r` with `q`. -/
def line (p : Fin n → net.Parcel) (r q : Bytes) : Fin n × Event → Option Bytes
  | (i, .routed _) => if (p i).sender = r ∧ (p i).recipient = q then some (p i).line else none
  | (_, e) => e.chat r q

/-- The interface of the participant `r`. -/
structure Owned (net : Network) (r : Bytes) (s : Session) : Prop where
  inv : s.Inv
  name : s.name = r
  nodeList : s.nodeList = (net.node r).nodeList
  userlist : ∀ q ∈ s.ui.userlist, q ∈ net.ids

section Owned

variable {r : Bytes} {s s' : Session}

theorem Owned.same (h : net.Owned r s) (hinv : s'.Inv) (hs : s.Same s') : net.Owned r s' where
  inv := hinv
  name := hs.name.trans h.name
  nodeList := hs.nodeList.trans h.nodeList
  userlist := by
    rw [hs.userlist]
    exact h.userlist

theorem Owned.push (h : net.Owned r s) (q content : Bytes) :
    net.Owned r { s with ui := s.ui.pushMessage q content } :=
  h.same (h.inv.push q content) ⟨rfl, rfl, UI.pushMessage_userlist _ _ _⟩

theorem Owned.poll (h : net.Owned r s) (hr : r ∈ net.ids) : net.Owned r s.poll := by
  refine ⟨h.inv.poll, ?_, ?_, ?_⟩
  · unfold Session.poll
    split_ifs
    · exact h.name
    · exact h.name
  · unfold Session.poll
    split_ifs
    · exact h.nodeList
    · exact h.nodeList
  · unfold Session.poll
    split_ifs
    · intro q hq
      have hkey := Std.ExtTreeMap.mem_keys.1 (List.mem_of_mem_filter hq)
      rw [h.nodeList] at hkey
      exact (mem_nodeList hr).1 hkey
    · exact h.userlist

/-- One interface is another one. -/
theorem owned_update {session : Bytes → Session} (h : ∀ q ∈ net.ids, net.Owned q (session q))
    (hs : r ∈ net.ids → net.Owned r s) :
    ∀ q ∈ net.ids, net.Owned q (Function.update session r s q) := by
  intro q hq
  by_cases hqr : q = r
  · subst hqr
    rw [Function.update_self]
    exact hs hq
  · rw [Function.update_of_ne hqr]
    exact h q hq

theorem poll_log (s : Session) (q : Bytes) : s.poll.ui.log q = s.ui.log q := by
  unfold Session.poll
  split_ifs <;> rfl

end Owned

/-- The interfaces agree with the network. -/
structure Coherent (p : Fin n → net.Parcel) (c : Chats n) : Prop where
  owned : ∀ r ∈ net.ids, net.Owned r (c.session r)
  chat : ∀ r ∈ net.ids, r ∉ c.edited → ∀ q,
    (c.session r).ui.log q = c.config.log.filterMap (line p r q)

variable {p : Fin n → net.Parcel} {c c' : Chats n}

theorem coherent_opening (p : Fin n → net.Parcel) (hosts : Bytes → Host) :
    Coherent p (opening net n hosts) where
  owned r _ := ⟨Session.inv_start r (net.node r).nodeList, rfl, rfl,
    fun _ hq => absurd hq List.not_mem_nil⟩
  chat _ _ _ _ := Std.ExtTreeMap.getD_empty

/-- A step that adds events to the log of the network, and their lines to the chats. -/
theorem Coherent.step (h : Coherent p c) {new : List (Fin n × Event)}
    (howned : ∀ r ∈ net.ids, net.Owned r (c'.session r))
    (hlog : c'.config.log = c.config.log ++ new)
    (hchat : ∀ r ∈ net.ids, r ∉ c'.edited → r ∉ c.edited ∧ ∀ q,
      (c'.session r).ui.log q = (c.session r).ui.log q ++ new.filterMap (line p r q)) :
    Coherent p c' where
  owned := howned
  chat r hr hre q := by
    obtain ⟨hre', hq⟩ := hchat r hr hre
    rw [hq, h.chat r hr hre', hlog, List.filterMap_append]

/-- A packet served shows what is pushed. -/
theorem deliver_spec {session : Bytes → Session} (events : List Event)
    (h : ∀ r ∈ net.ids, net.Owned r (session r)) :
    (∀ r ∈ net.ids, net.Owned r (events.foldl Event.deliver session r)) ∧
      ∀ r q, (events.foldl Event.deliver session r).ui.log q =
        (session r).ui.log q ++ events.filterMap (Event.chat r q) := by
  induction events generalizing session with
  | nil => exact ⟨h, fun r q => (List.append_nil _).symm⟩
  | cons e events ih =>
    rw [List.foldl_cons]
    cases e with
    | routed route => exact ih h
    | received node => exact ih h
    | pushed node from_ content =>
      obtain ⟨howned, hlog⟩ := ih (owned_update h fun hnode => (h node hnode).push from_ content)
      refine ⟨howned, fun r q => ?_⟩
      rw [Event.deliver, hlog, List.filterMap_cons, Event.chat]
      by_cases hnode : r = node
      · subst hnode
        rw [Function.update_self, UI.log_pushMessage]
        by_cases hq : q = from_
        · subst hq
          simp
        · simp [hq, Ne.symm hq]
      · rw [Function.update_of_ne hnode]
        simp [Ne.symm hnode]

/-- What serving a packet logs. -/
theorem Act.events_packet {s s' : Bytes → Host} {i : Fin n} {host file : Bytes} {new : List Token}
    {events : List Event} (h : Act p s i (.packet host file) s' new events) (r q : Bytes) :
    (events.map (i, ·)).filterMap (line p r q) = events.filterMap (Event.chat r q) := by
  have hline : ∀ e : Event, (∀ route, e ≠ .routed route) → line p r q (i, e) = e.chat r q := by
    intro e he
    cases e with
    | routed route => exact absurd rfl (he route)
    | received node => rfl
    | pushed node from_ content => rfl
  rw [List.filterMap_map]
  refine List.filterMap_congr fun e he => hline e fun route hroute => ?_
  subst hroute
  cases h with
  | receive hr hhost hd hs => simp at he
  | stop hr hhost hd hs => simp at he
  | lost hhost => simp at he

/-- **One step keeps the interfaces and the network in agreement.** -/
theorem Coherent.move (h : Coherent p c) (hm : Move p c c') : Coherent p c' := by
  cases hm with
  | @key _ r key typed s' hr hs hsent =>
    obtain ⟨heffect, hsame⟩ := Session.effect_key hs
    obtain ⟨-, hinv⟩ := (h.owned r hr).inv.step_ok hs
    refine h.step (owned_update h.owned fun _ => (h.owned r hr).same hinv hsame)
      (List.append_nil _).symm fun q hq hqe => ?_
    dsimp only at hqe ⊢
    have hqe' : q ∉ c.edited := by
      split_ifs at hqe
      · exact fun hmem => hqe (List.mem_cons_of_mem _ hmem)
      · exact hqe
    refine ⟨hqe', fun x => (List.append_nil _).symm ▸ ?_⟩
    by_cases hqr : q = r
    · subst hqr
      rw [Function.update_self]
      cases heffect with
      | silent _ hlog => exact hlog x
      | message _ hsent' _ =>
        rw [hsent'] at hsent
        exact absurd hsent (by simp)
      | edited hkey _ =>
        rw [if_pos hkey] at hqe
        exact absurd List.mem_cons_self hqe
    · rw [Function.update_of_ne hqr]
  | @poll _ r hr =>
    refine h.step (owned_update h.owned fun _ => (h.owned r hr).poll hr)
      (List.append_nil _).symm fun q hq hqe => ⟨hqe, fun x => ?_⟩
    dsimp only
    by_cases hqr : q = r
    · subst hqr
      rw [Function.update_self, poll_log]
      exact (List.append_nil _).symm
    · rw [Function.update_of_ne hqr]
      exact (List.append_nil _).symm
  | @send session edited hosts hosts' i new events l₁ l₂ log key typed s' hact hs hsent =>
    have hr := (p i).sender_mem
    obtain ⟨heffect, hsame⟩ := Session.effect_key hs
    have howner := h.owned _ hr
    obtain ⟨-, hinv⟩ := howner.inv.step_ok hs
    refine h.step (owned_update h.owned fun _ => howner.same hinv hsame) rfl
      fun q hq hqe => ⟨hqe, fun x => ?_⟩
    obtain ⟨route, rfl⟩ : ∃ route, events = [.routed route] := by
      cases hact with
      | send => exact ⟨_, rfl⟩
    dsimp only
    by_cases hqr : q = (p i).sender
    · subst hqr
      rw [Function.update_self]
      cases heffect with
      | silent hsent' _ =>
        rw [hsent'] at hsent
        exact absurd hsent (by simp)
      | @message to_ text _ hsent' hlog =>
        rw [hsent', List.append_cancel_left_eq] at hsent
        obtain ⟨rfl, rfl⟩ := Prod.mk.inj (List.singleton_inj.1 hsent)
        rw [hlog, Session.ownLine, howner.name]
        by_cases hx : x = (p i).recipient
        · simp [line, Parcel.line, hx]
        · simp [line, hx, Ne.symm hx]
      | edited _ hsent' =>
        rw [hsent'] at hsent
        exact absurd hsent (by simp)
    · rw [Function.update_of_ne hqr]
      simp [line, Ne.symm hqr]
  | @serve session edited hosts hosts' i host file new events l₁ l₂ log hact =>
    obtain ⟨howned, hlog⟩ := deliver_spec events h.owned
    refine h.step howned rfl fun q hq hqe => ⟨hqe, fun x => ?_⟩
    rw [hact.events_packet]
    exact hlog q x

/-- **The chats are what the log of the network says**, whatever the participants do and in whatever
order. -/
theorem coherent_of_chatting {hosts : Bytes → Host} (h : Chatting p (opening net n hosts) c) :
    Coherent p c := by
  induction h with
  | refl => exact coherent_opening p hosts
  | tail _ hm ih => exact ih.move hm

/-- The network takes the same steps. -/
theorem Chatting.config (h : Chatting p c c') :
    Interleaving.Run (Act p) c.config c'.config := by
  induction h with
  | refl => exact .refl
  | tail _ hm ih =>
    cases hm with
    | key => exact ih
    | poll => exact ih
    | send hact => exact ih.tail (.mk hact)
    | serve hact => exact ih.tail (.mk hact)

/-- What `r` and `q` have written to each other. -/
def exchanged (p : Fin n → net.Parcel) (r q : Bytes) : List Bytes :=
  ((List.finRange n).filter fun i => (p i).sender = r ∧ (p i).recipient = q ∨
    (p i).sender = q ∧ (p i).recipient = r).map fun i => (p i).line

theorem exchanged_comm (p : Fin n → net.Parcel) (r q : Bytes) :
    exchanged p r q = exchanged p q r := by
  simp only [exchanged, or_comm]

theorem flatMap_ite {α β : Type*} (l : List α) (P : α → Prop) [DecidablePred P] (f : α → β) :
    (l.flatMap fun a => if P a then [f a] else []) = (l.filter fun a => P a).map f := by
  induction l with
  | nil => rfl
  | cons a l ih =>
    rw [List.flatMap_cons, ih]
    by_cases ha : P a
    · simp [ha]
    · simp [ha]

/-- The lines of a message that has been delivered. -/
theorem Status.lines {i : Fin n} {log : List Event} (h : Status (p i) [] log) (r q : Bytes) :
    log.filterMap (fun e => line p r q (i, e)) =
      if (p i).sender = r ∧ (p i).recipient = q ∨ (p i).sender = q ∧ (p i).recipient = r then
        [(p i).line] else [] := by
  cases h with
  | delivered hr =>
    have hreceived : ∀ l : List (Bytes × Bytes),
        (l.map fun h => Event.received h.2).filterMap (fun e => line p r q (i, e)) = [] := by
      intro l
      rw [List.filterMap_map]
      exact List.filterMap_eq_nil_iff.2 fun _ _ => rfl
    rw [List.cons_append, List.filterMap_cons, List.filterMap_append, hreceived, List.nil_append]
    have hne := (p i).sender_ne
    by_cases hown : (p i).sender = r ∧ (p i).recipient = q
    · obtain ⟨rfl, rfl⟩ := hown
      simp [line, Event.chat, hne.symm]
    · by_cases hother : (p i).sender = q ∧ (p i).recipient = r
      · obtain ⟨rfl, rfl⟩ := hother
        simp [line, Event.chat, hne, Parcel.line]
      · simp [line, Event.chat, hown, hother, and_comm]

/-- **What is typed can be sent**: a text entered by a participant is the message of a parcel. -/
theorem exists_parcel {hosts : Bytes → Host} (hrun : Chatting p (opening net n hosts) c)
    {r : Bytes} (hr : r ∈ net.ids) {key : ℤ} {typed : Bytes} {s' : Session}
    (hs : (c.session r).step (.key key typed) = .ok s') :
    s'.sent = (c.session r).sent ∨ ∃ parcel : net.Parcel, parcel.sender = r ∧
      s'.sent = (c.session r).sent ++ [(parcel.recipient, parcel.text)] := by
  have howned := (coherent_of_chatting hrun).owned r hr
  obtain ⟨heffect, -⟩ := Session.effect_key hs
  cases heffect with
  | silent hsent _ => exact Or.inl hsent
  | edited _ hsent => exact Or.inl hsent
  | @message to_ text hroom hsent _ =>
    obtain ⟨-, hmem, -⟩ := howned.inv.opened to_ text hroom
    have hne : r ≠ to_ := fun h => howned.inv.own (howned.name.trans h ▸ hmem)
    exact Or.inr ⟨⟨r, to_, text, hr, howned.userlist to_ hmem, hne⟩, rfl, hsent⟩

/-! ## The interfaces never hold the network up -/

/-- Serving a packet puts only packets in flight. -/
theorem Act.tokens_packet {s s' : Bytes → Host} {i : Fin n} {t : Token} {new : List Token}
    {events : List Event} (h : Act p s i t s' new events) :
    ∀ t' ∈ new, ∃ host file, t' = .packet host file := by
  have hsent : ∀ sent : Option Sent, ∀ t' ∈ Sent.tokens sent,
      ∃ host file, t' = .packet host file := by
    intro sent t' ht
    unfold Sent.tokens at ht
    split at ht
    · exact ⟨_, _, List.mem_singleton.1 ht⟩
    · cases ht
  cases h with
  | send => exact hsent _
  | receive => exact hsent _
  | stop => exact fun _ ht => by cases ht
  | lost => exact fun _ ht => by cases ht

/-- What is in flight are packets. -/
def Packets (c : Config (Bytes → Host) (Fin n) Token Event) : Prop :=
  ∀ t ∈ c.flight, ∃ host file, t.2 = .packet host file

/-- **A run of the network that starts no message** is a run of the participants, whatever their
interfaces show. -/
theorem chatting_of_run {cfg cfg' : Config (Bytes → Host) (Fin n) Token Event}
    (h : Interleaving.Run (Act p) cfg cfg') (hp : Packets cfg) (session : Bytes → Session)
    (edited : List Bytes) :
    ∃ session', Chatting p ⟨session, cfg, edited⟩ ⟨session', cfg', edited⟩ := by
  induction h using Relation.ReflTransGen.head_induction_on generalizing session with
  | refl => exact ⟨session, .refl⟩
  | head hstep _ ih =>
    obtain @⟨s, s', i, t, new, events, l₁, l₂, log, hact⟩ := hstep
    obtain ⟨host, file, ht⟩ := hp (i, t) (List.mem_append_right _ List.mem_cons_self)
    obtain rfl : t = .packet host file := ht
    have hp' : Packets (n := n) ⟨s', l₁ ++ l₂ ++ new.map (i, ·), log ++ events.map (i, ·)⟩ := by
      intro t' ht'
      rcases List.mem_append.1 ht' with ht' | ht'
      · refine hp t' ?_
        rcases List.mem_append.1 ht' with ht' | ht'
        · exact List.mem_append_left _ ht'
        · exact List.mem_append_right _ (List.mem_cons_of_mem _ ht')
      · obtain ⟨t'', ht'', rfl⟩ := List.mem_map.1 ht'
        exact hact.tokens_packet t'' ht''
    obtain ⟨session', hrun⟩ := ih hp' (events.foldl Event.deliver session)
    exact ⟨session', .head (.serve hact) hrun⟩

/-- **What a user does without sending anything** is a run of the participants. -/
theorem chatting_of_session {r : Bytes} (hr : r ∈ net.ids) {session : Bytes → Session}
    {cfg : Config (Bytes → Host) (Fin n) Token Event} {edited : List Bytes} {es : List UiEvent}
    (hes : ∀ e ∈ es, e.isOrdinary)
    {s' : Session} (hrun : (session r).run es = .ok s') (hsent : s'.sent = (session r).sent) :
    Chatting p ⟨session, cfg, edited⟩ ⟨Function.update session r s', cfg, edited⟩ := by
  induction es generalizing session with
  | nil =>
    obtain rfl := Except.ok.inj hrun
    rw [Function.update_eq_self]
  | cons e es ih =>
    obtain ⟨t, ht, hrest⟩ := Run.bind_eq_ok.1 (Session.run_cons (session r) e es ▸ hrun)
    have htsent : t.sent = (session r).sent := by
      have hle := (Session.sent_mono hrest).length_le
      rw [hsent] at hle
      exact ((Session.sent_mono_step ht).eq_of_length_le hle).symm
    have hfirst : Move p ⟨session, cfg, edited⟩ ⟨Function.update session r t, cfg, edited⟩ := by
      have he := hes e List.mem_cons_self
      cases e with
      | key key typed =>
        have hkey := Move.key (p := p) (c := ⟨session, cfg, edited⟩) hr ht htsent
        rwa [if_neg (of_decide_eq_true he)] at hkey
      | poll =>
        obtain rfl := Except.ok.inj ht
        exact .poll hr
      | push => cases he
      | list => cases he
    have htail : Chatting p ⟨Function.update session r t, cfg, edited⟩
        ⟨Function.update (Function.update session r t) r s', cfg, edited⟩ :=
      ih (fun e he => hes e (List.mem_cons_of_mem _ he)) (by rwa [Function.update_self])
        (by rw [Function.update_self, hsent, htsent])
    rw [Function.update_idem] at htail
    exact .head hfirst htail

/-! ## Two participants of three -/

/-- `a` writes `hi` to `b`. -/
def exampleParcels : Fin 1 → example₃.Parcel := fun _ => exampleParcel (ascii "hi")

/-- `a` opens the chat room of `b` and types `hi`. -/
theorem exists_typed : ∃ session, Chatting exampleParcels (opening example₃ 1 exampleHosts)
      ⟨session, start 1 exampleHosts, []⟩ ∧
    ∃ s', (session (ascii "a")).step (.key KEY_ENTER2 []) = .ok s' ∧
      s'.sent = (session (ascii "a")).sent ++ [(ascii "b", ascii "hi")] := by
  obtain ⟨s, hrun, hsent, s', hstep, hsent'⟩ : ∃ s,
      (Session.start (ascii "a") exampleNode.nodeList).run
        [.poll, .key KEY_ENTER2 [], .key 104 [], .key 105 []] = .ok s ∧ s.sent = [] ∧
      ∃ s', s.step (.key KEY_ENTER2 []) = .ok s' ∧ s'.sent = [(ascii "b", ascii "hi")] :=
    ⟨_, rfl, rfl, _, rfl, rfl⟩
  refine ⟨_, chatting_of_session (by decide) (by decide) hrun hsent, ?_⟩
  rw [Function.update_self, hsent]
  exact ⟨s', hstep, hsent'⟩

end Network

end Onion5
