import Onion5.Client.Ui

/-!
# Sessions

What holds in every state of a session of the user interface, whatever the keys, the messages pushed
and the node lists, and in whatever order they come.

* `Session.inv_run`: the invariant `Session.Inv`. `select_user` stays within its list, nobody writes
  to themselves, and what is sent has 1 to 200 characters, none of them a tab.
* `Session.window_run`: the window of the open room shows the last page of its log, as long as the
  log has nothing but printable characters in it.
* `Session.run_isOk_iff`: a session goes on exactly as long as no visible `%` is typed, and gives an
  array back with a scalar `delete` exactly when it leaves the list of users or a room.
* `Session.type_message`: text typed and sent, with anything pushed in between.
-/

namespace Onion5

namespace UI

variable (ui : UI) (name content : Bytes)

/-! ## Messages pushed -/

@[simp] theorem refreshChatlog_userlist : (ui.refreshChatlog name).userlist = ui.userlist := by
  unfold refreshChatlog
  split
  · rfl
  · dsimp only
    split_ifs <;> rfl

@[simp] theorem refreshChatlog_openedCurrent :
    (ui.refreshChatlog name).openedCurrent = ui.openedCurrent := by
  unfold refreshChatlog
  split
  · rfl
  · dsimp only
    split_ifs <;> rfl

/-- Looking a chat up changes no chat. -/
theorem getD_insertIfNew (chat : Std.ExtTreeMap Bytes (List Bytes) compare) (p : Bytes) :
    (chat.insertIfNew name []).getD p [] = chat.getD p [] := by
  rw [Std.ExtTreeMap.getD_insertIfNew]
  split_ifs with h
  · obtain ⟨heq, hmem⟩ := h
    rw [← Std.compare_eq_iff_eq.1 heq, Std.ExtTreeMap.getD_eq_fallback hmem]
  · rfl

@[simp] theorem refreshChatlog_log (p : Bytes) : (ui.refreshChatlog name).log p = ui.log p := by
  unfold refreshChatlog
  split
  · rfl
  · dsimp only
    split_ifs
    · rfl
    · exact getD_insertIfNew name ui.chat p
    · exact getD_insertIfNew name ui.chat p

theorem log_insert (p : Bytes) (messages : List Bytes) :
    log { ui with chat := ui.chat.insert name messages } p =
      if p = name then messages else ui.log p := by
  rw [log, Std.ExtTreeMap.getD_insert]
  by_cases hp : p = name
  · rw [if_pos hp, if_pos (Std.compare_eq_iff_eq.2 hp.symm)]
  · rw [if_neg hp, if_neg fun h => hp (Std.compare_eq_iff_eq.1 h).symm]
    rfl

theorem log_pushMessage (p : Bytes) : (ui.pushMessage name content).log p =
    if p = name then ui.log p ++ [content] else ui.log p := by
  rw [pushMessage, refreshChatlog_log]
  have h := log_insert { ui with chat := ui.chat.insertIfNew name [] } name p
    ((ui.chat.insertIfNew name []).getD name [] ++ [content])
  rw [getD_insertIfNew] at h ⊢
  refine h.trans ?_
  split_ifs with hp
  · rw [hp]
    rfl
  · exact getD_insertIfNew name ui.chat p

@[simp] theorem pushMessage_userlist : (ui.pushMessage name content).userlist = ui.userlist := by
  rw [pushMessage, refreshChatlog_userlist]

@[simp] theorem pushMessage_openedCurrent :
    (ui.pushMessage name content).openedCurrent = ui.openedCurrent := by
  rw [pushMessage, refreshChatlog_openedCurrent]

@[simp] theorem refreshChatlog_isSome :
    (ui.refreshChatlog name).current.isSome = ui.current.isSome := by
  unfold refreshChatlog
  split
  · rfl
  · next w hw =>
    dsimp only
    split_ifs
    · rfl
    · rfl
    · rw [hw]
      rfl

@[simp] theorem pushMessage_isSome :
    (ui.pushMessage name content).current.isSome = ui.current.isSome := by
  rw [pushMessage, refreshChatlog_isSome]

/-- The window of the log shows the last page of the open room, when nothing in its log is left to
ncurses. -/
def ShowsLastPage (ui : UI) : Prop :=
  (∀ m ∈ ui.log ui.openedCurrent, Printable m) →
    ui.current = some (some (layOut (lastPage (ui.log ui.openedCurrent))).2)

variable {ui}

/-- Only the log of the open room is printed. -/
theorem refreshChatlog_current_of_ne (h : ui.openedCurrent ≠ name) :
    (ui.refreshChatlog name).current = ui.current := by
  unfold refreshChatlog
  split
  · rfl
  · rw [if_pos h]

theorem refreshChatlog_current {w : Window} (h : ui.current = some w) :
    (ui.refreshChatlog ui.openedCurrent).current =
      some ((ui.log ui.openedCurrent).foldl printStep (0, w)).2 := by
  rw [refreshChatlog]
  simp only [h, ne_eq, not_true, if_false, getD_insertIfNew]
  split_ifs with hlog
  · rw [log, hlog]
    rfl
  · rfl

/-- **The window of the log is up to date after every message.** -/
theorem ShowsLastPage.pushMessage (h : ui.ShowsLastPage) :
    (ui.pushMessage name content).ShowsLastPage := by
  rw [ShowsLastPage, pushMessage_openedCurrent]
  by_cases hname : ui.openedCurrent = name
  · subst hname
    have hlog := log_pushMessage ui ui.openedCurrent content ui.openedCurrent
    rw [if_pos rfl] at hlog
    rw [hlog]
    intro hprint
    have hbefore := h fun m hm => hprint m (List.mem_append_left _ hm)
    have hpush : (ui.pushMessage ui.openedCurrent content).current =
        some (((ui.pushMessage ui.openedCurrent content).log ui.openedCurrent).foldl printStep
          (0, some (layOut (lastPage (ui.log ui.openedCurrent))).2)).2 := by
      rw [UI.pushMessage, refreshChatlog_log]
      exact refreshChatlog_current hbefore
    rw [hpush, hlog, foldl_printStep_some hprint, foldl_stepCells_concat]
  · rw [log_pushMessage, if_neg hname, UI.pushMessage, refreshChatlog_current_of_ne]
    · exact h
    · exact hname

/-- The log of the open room, and its window, cleared. -/
theorem showsLastPage_clear (h : ui.current.isSome) : ShowsLastPage { ui with
    current := ui.current.map fun _ => Window.blank
    chat := ui.chat.insert ui.openedCurrent [] } := by
  intro _
  have hlog := log_insert ui ui.openedCurrent ui.openedCurrent []
  rw [if_pos rfl] at hlog
  obtain ⟨w, hw⟩ := Option.isSome_iff_exists.1 h
  show ui.current.map (fun _ => Window.blank) = some (some (layOut (lastPage (log { ui with
    chat := ui.chat.insert ui.openedCurrent [] } ui.openedCurrent))).2)
  rw [hlog, hw]
  rfl

/-- The window of a room that has been opened. -/
theorem showsLastPage_open (ui : UI) (name : Bytes) :
    (refreshChatlog { ui with openedCurrent := name, current := some Window.blank }
      name).ShowsLastPage := by
  rw [ShowsLastPage, refreshChatlog_openedCurrent, refreshChatlog_log]
  intro hprint
  have hblank : { ui with openedCurrent := name, current := some Window.blank }.current =
    some (some fun _ => none) := rfl
  refine (refreshChatlog_current hblank).trans ?_
  rw [foldl_printStep_some hprint, foldl_stepCells_blank]

end UI

/-! ## The invariant -/

section Format

variable {s : Bytes} {c : UInt8}

theorem formatOk_cons (h : c ≠ 37) (s : Bytes) : formatOk (c :: s) = formatOk s := by
  rw [formatOk]
  · exact fun _ hc => absurd hc h
  · exact h

theorem formatOk_of_notMem (h : 37 ∉ s) : formatOk s := by
  induction s with
  | nil => rfl
  | cons c s ih =>
    rw [List.mem_cons, not_or] at h
    rw [formatOk_cons (Ne.symm h.1)]
    exact ih h.2

theorem formatOk_concat (h : 37 ∉ s) : formatOk (s ++ [37]) = false := by
  induction s with
  | nil => rfl
  | cons c s ih =>
    rw [List.mem_cons, not_or] at h
    rw [List.cons_append, formatOk_cons (Ne.symm h.1), ih h.2]

/-- A character is visible unless there is a NUL before it. -/
theorem cstr_concat_of_mem (h : 0 ∈ s) (c : UInt8) : cstr (s ++ [c]) = cstr s := by
  obtain ⟨b, hb⟩ := exists_takeWhile_ne h
  have hzero : 0 ∉ s.takeWhile (· ≠ 0) := zero_notMem_cstr s
  rw [hb, List.append_assoc, List.cons_append, cstr_append_zero hzero, cstr_append_zero hzero]

theorem cstr_subset_concat (s : Bytes) (c : UInt8) : cstr s ⊆ cstr (s ++ [c]) := by
  by_cases h : 0 ∈ s
  · rw [cstr_concat_of_mem h]
    exact List.Subset.refl _
  · rw [cstr_eq_self h, cstr_append h]
    exact List.subset_append_left s _

/-- One more character keeps the format without conversions, or it is a visible `%`. -/
theorem formatOk_cstr_concat (h : 37 ∉ cstr s) (c : UInt8) :
    formatOk (cstr (s ++ [c])) = true ∧ 37 ∉ cstr (s ++ [c]) ∨
      formatOk (cstr (s ++ [c])) = false ∧ c = 37 ∧ 0 ∉ s := by
  by_cases h0 : 0 ∈ s
  · rw [cstr_concat_of_mem h0]
    exact Or.inl ⟨formatOk_of_notMem h, h⟩
  · rw [cstr_eq_self h0] at h
    by_cases hc : c = 37
    · subst hc
      rw [cstr_append h0]
      exact Or.inr ⟨formatOk_concat h, rfl, h0⟩
    · have hnot : 37 ∉ cstr (s ++ [c]) := by
        rw [cstr_append h0, List.mem_append, not_or]
        refine ⟨h, fun hmem => hc ?_⟩
        have hsub := (List.takeWhile_sublist (fun x : UInt8 => decide (x ≠ 0))).mem hmem
        exact (List.mem_singleton.1 hsub).symm
      exact Or.inl ⟨formatOk_of_notMem hnot, hnot⟩

end Format

namespace Session

/-- The invariant of sessions. -/
structure Inv (s : Session) : Prop where
  own : s.name ∉ s.ui.userlist
  users : ∀ i, s.screen = .users i → i < s.ui.userlist.length
  quit : ∀ i, s.screen = .quit i → i < s.ui.userlist.length
  closed : (∀ name message, s.screen ≠ .room name message) → s.ui.current = none
  opened : ∀ name message, s.screen = .room name message →
    s.ui.openedCurrent = name ∧ name ∈ s.ui.userlist ∧ s.ui.current.isSome
  message : ∀ name message, s.screen = .room name message →
    message.length ≤ 200 ∧ 9 ∉ message ∧ 37 ∉ cstr message
  sent : ∀ p ∈ s.sent, p.1 ≠ s.name ∧ p.2 ≠ [] ∧ p.2.length ≤ 200 ∧ 9 ∉ p.2

/-- What is left of the invariant where a turn of the loop of `chat_room` starts. -/
structure Ready (s : Session) (name : Bytes) : Prop where
  own : s.name ∉ s.ui.userlist
  opened : s.ui.openedCurrent = name ∧ name ∈ s.ui.userlist ∧ s.ui.current.isSome
  sent : ∀ p ∈ s.sent, p.1 ≠ s.name ∧ p.2 ≠ [] ∧ p.2.length ≤ 200 ∧ 9 ∉ p.2

variable {s s' : Session} {name message : Bytes}

theorem Inv.ready (h : s.Inv) (hs : s.screen = .room name message) : s.Ready name :=
  ⟨h.own, h.opened name message hs, h.sent⟩

theorem Ready.inv (h : s.Ready name) (hlen : message.length ≤ 200) (htab : 9 ∉ message)
    (hformat : 37 ∉ cstr message) : Inv { s with screen := .room name message } where
  own := h.own
  users i hi := by cases hi
  quit i hi := by cases hi
  closed hc := absurd rfl (hc name message)
  opened n m hm := by
    cases hm
    exact h.opened
  message n m hm := by
    cases hm
    exact ⟨hlen, htab, hformat⟩
  sent := h.sent

/-- A line pushed in the open room. -/
theorem Ready.push (h : s.Ready name) (p content : Bytes) :
    Ready { s with ui := s.ui.pushMessage p content } name where
  own := by
    rw [UI.pushMessage_userlist]
    exact h.own
  opened := by
    rw [UI.pushMessage_openedCurrent, UI.pushMessage_userlist, UI.pushMessage_isSome]
    exact h.opened
  sent := h.sent

/-- The start of a turn. -/
theorem Ready.roomLoop (h : s.Ready name) (hlen : message.length ≤ 200) (htab : 9 ∉ message)
    (hformat : 37 ∉ cstr message) : ∃ s', s.roomLoop name message = .ok s' ∧ s'.Inv :=
  ⟨_, if_pos (formatOk_of_notMem hformat), h.inv hlen htab hformat⟩

/-- With an empty message. -/
theorem Ready.roomLoop_nil (h : s.Ready name) : ∃ s', s.roomLoop name [] = .ok s' ∧ s'.Inv :=
  h.roomLoop (Nat.zero_le _) List.not_mem_nil List.not_mem_nil

/-! ## One step -/

/-- The event types a `%` that the next turn of `chat_room` prints. -/
def VisiblePercent (s : Session) (e : UiEvent) : Prop :=
  ∃ name message key typed, e = .key key typed ∧ s.screen = .room name message ∧
    charOf key = 37 ∧ message.length < 200 ∧ 0 ∉ message

/-- The outcome of a step: it is undefined exactly when a visible `%` is typed, and it keeps the
invariant otherwise. -/
def Outcome (percent : Prop) (r : Run Session) : Prop :=
  percent ∧ r = .error .undefined ∨ ¬ percent ∧ ∃ s', r = .ok s' ∧ s'.Inv

/-- A character typed. -/
theorem Ready.roomLoop_concat (h : s.Ready name) (hlen : message.length < 200) (htab : 9 ∉ message)
    (hformat : 37 ∉ cstr message) {c : UInt8} (hc : c ≠ 9) :
    Outcome (c = 37 ∧ message.length < 200 ∧ 0 ∉ message) (s.roomLoop name (message ++ [c])) := by
  rcases formatOk_cstr_concat hformat c with ⟨-, hnot⟩ | ⟨hbad, rfl, h0⟩
  · refine Or.inr ⟨fun ⟨hc37, _, h0⟩ => ?_, h.roomLoop ?_ ?_ hnot⟩
    · subst hc37
      rw [cstr_append h0] at hnot
      exact hnot (List.mem_append_right _ (by decide))
    · rw [List.length_append, List.length_singleton]
      omega
    · rw [List.mem_append, List.mem_singleton, not_or]
      exact ⟨htab, Ne.symm hc⟩
  · refine Or.inl ⟨⟨rfl, hlen, h0⟩, ?_⟩
    rw [Session.roomLoop, hbad]
    rfl

/-- **A key in a chat room.** -/
theorem Inv.roomKey (h : s.Inv) (hs : s.screen = .room name message) (key : ℤ) (typed : Bytes) :
    Outcome (charOf key = 37 ∧ message.length < 200 ∧ 0 ∉ message)
      (s.roomKey name message key typed) := by
  obtain ⟨hlen, htab, hformat⟩ := h.message name message hs
  have hready := h.ready hs
  -- a key with a meaning of its own types no character
  have hspecial : ∀ {k : ℤ} {r : Run Session}, key = k → charOf k ≠ 37 →
      (∃ s', r = .ok s' ∧ s'.Inv) →
        Outcome (charOf key = 37 ∧ message.length < 200 ∧ 0 ∉ message) r :=
    fun hk hne hr => Or.inr ⟨fun hp => hne (hk ▸ hp.1), hr⟩
  unfold Session.roomKey
  split_ifs with hescape hempty hfile hback henter hempty' hf5 htabkey hshort
  · refine hspecial hescape (by decide) ⟨_, rfl, ?_⟩
    exact {
      own := h.own
      users := fun i hi => by cases hi
      quit := fun i hi => by cases hi
      closed := fun _ => rfl
      opened := fun _ _ hm => by cases hm
      message := fun _ _ hm => by cases hm
      sent := h.sent }
  · exact hspecial hescape (by decide) hready.roomLoop_nil
  · exact hspecial hfile.1 (by decide) (hready.push _ _).roomLoop_nil
  · have hshorter : ∃ s', s.roomLoop name message.dropLast = .ok s' ∧ s'.Inv := by
      refine hready.roomLoop ?_ ?_ ?_
      · rw [List.length_dropLast]
        omega
      · exact fun hm => htab (List.dropLast_subset _ hm)
      · rcases List.eq_nil_or_concat' message with rfl | ⟨m, c, rfl⟩
        · exact List.not_mem_nil
        · rw [List.dropLast_concat]
          exact fun hm => hformat (cstr_subset_concat m c hm)
    rcases hback with hback | hback
    · exact hspecial hback (by decide) hshorter
    · exact hspecial hback (by decide) hshorter
  · exact hspecial henter (by decide) (hready.roomLoop hlen htab hformat)
  · refine hspecial henter (by decide) ?_
    have hsent : ∀ p ∈ s.sent ++ [(name, message)],
        p.1 ≠ s.name ∧ p.2 ≠ [] ∧ p.2.length ≤ 200 ∧ 9 ∉ p.2 := by
      intro p hp
      rcases List.mem_append.1 hp with hp | hp
      · exact h.sent p hp
      · rw [List.mem_singleton.1 hp]
        exact ⟨fun hn => h.own (hn ▸ hready.opened.2.1), hempty', hlen, htab⟩
    have hpushed := hready.push name (s.name ++ ascii ": " ++ message)
    exact Ready.roomLoop_nil ⟨hpushed.own, hpushed.opened, hsent⟩
  · refine hspecial hf5 (by decide) ?_
    refine Ready.roomLoop ⟨h.own, ⟨hready.opened.1, hready.opened.2.1, ?_⟩, h.sent⟩ hlen htab
      hformat
    rw [Option.isSome_map]
    exact hready.opened.2.2
  · refine Or.inr ⟨fun hp => ?_, hready.roomLoop hlen htab hformat⟩
    rw [hp.1] at htabkey
    exact absurd htabkey (by decide)
  · exact hready.roomLoop_concat hshort htab hformat htabkey
  · exact Or.inr ⟨fun hp => hshort hp.2.1, hready.roomLoop hlen htab hformat⟩

theorem ne_room {screen : Screen} (hs : s.screen = screen)
    (h : ∀ name message, screen ≠ .room name message) :
    ∀ name message, s.screen ≠ .room name message := hs ▸ h

/-- Only a key types anything. -/
theorem not_visiblePercent {e : UiEvent} (h : ∀ key typed, e ≠ .key key typed) :
    ¬ s.VisiblePercent e := fun ⟨_, _, key, typed, he, _⟩ => h key typed he

/-- A screen outside the chat rooms. -/
theorem Inv.leave (h : s.Inv) (hs : ∀ name message, s.screen ≠ .room name message)
    {screen : Screen} (hroom : ∀ name message, screen ≠ .room name message)
    (husers : ∀ i, screen = .users i → i < s.ui.userlist.length)
    (hquit : ∀ i, screen = .quit i → i < s.ui.userlist.length) :
    Inv { s with screen := screen } where
  own := h.own
  users := husers
  quit := hquit
  closed _ := h.closed hs
  opened n m hm := absurd hm (hroom n m)
  message n m hm := absurd hm (hroom n m)
  sent := h.sent

/-- Opening a chat room. -/
theorem Inv.openRoom (h : s.Inv) {i : ℕ} (hi : i < s.ui.userlist.length) :
    ∃ s', s.openRoom i = .ok s' ∧ s'.Inv := by
  rw [Session.openRoom, List.getElem?_eq_getElem hi]
  refine Ready.roomLoop_nil ⟨?_, ⟨?_, ?_, ?_⟩, h.sent⟩
  · rw [UI.refreshChatlog_userlist]
    exact h.own
  · rw [UI.refreshChatlog_openedCurrent]
  · rw [UI.refreshChatlog_userlist]
    exact List.getElem_mem hi
  · rw [UI.refreshChatlog_isSome]
    rfl

/-- **A key in the list of users.** -/
theorem Inv.selectKey (h : s.Inv) {i : ℕ} (hs : s.screen = .users i) (key : ℤ) :
    ∃ s', s.selectKey i key = .ok s' ∧ s'.Inv := by
  have hi := h.users i hs
  have hroom := ne_room hs fun _ _ hr => by cases hr
  unfold Session.selectKey
  dsimp only
  split_ifs with hdown hup hescape henter
  · refine ⟨_, rfl, h.leave hroom (fun _ _ hr => by cases hr) (fun j hj => ?_)
      fun j hj => by cases hj⟩
    cases hj
    exact Nat.mod_lt _ (by omega)
  · refine ⟨_, rfl, h.leave hroom (fun _ _ hr => by cases hr) (fun j hj => ?_)
      fun j hj => by cases hj⟩
    cases hj
    exact Nat.mod_lt _ (by omega)
  · refine ⟨_, rfl, h.leave hroom (fun _ _ hr => by cases hr) (fun j hj => by cases hj)
      fun j hj => ?_⟩
    cases hj
    exact hi
  · have hcount : Inv { s with scalarDeletes := s.scalarDeletes + 1 } := { h with }
    exact hcount.openRoom hi
  · exact ⟨s, rfl, h⟩

/-- **A key.** -/
theorem Inv.pressKey (h : s.Inv) (key : ℤ) (typed : Bytes) :
    Outcome (s.VisiblePercent (.key key typed)) (s.pressKey key typed) := by
  have hroom : (∀ name message, s.screen ≠ .room name message) →
      ¬ s.VisiblePercent (.key key typed) :=
    fun hne ⟨name, message, _, _, _, hs, _⟩ => hne name message hs
  unfold Session.pressKey
  split
  · rename_i hs
    exact Or.inr ⟨hroom (ne_room hs fun _ _ hr => by cases hr), s, rfl, h⟩
  · rename_i i hs
    exact Or.inr ⟨hroom (ne_room hs fun _ _ hr => by cases hr), h.selectKey hs key⟩
  · rename_i i hs
    have hne := ne_room hs fun _ _ hr => by cases hr
    refine Or.inr ⟨hroom hne, ?_⟩
    split_ifs
    · have hcount : Inv { s with scalarDeletes := s.scalarDeletes + 1 } := { h with }
      exact ⟨_, rfl, hcount.leave hne (fun _ _ hr => by cases hr) (fun _ hj => by cases hj)
        fun _ hj => by cases hj⟩
    · refine ⟨_, rfl, h.leave hne (fun _ _ hr => by cases hr) (fun j hj => ?_)
        fun _ hj => by cases hj⟩
      cases hj
      exact h.quit i hs
  · rename_i name message hs
    have hiff : s.VisiblePercent (.key key typed) ↔
        charOf key = 37 ∧ message.length < 200 ∧ 0 ∉ message := by
      constructor
      · rintro ⟨n, m, k, t, he, hs', hp⟩
        cases he
        cases hs.symm.trans hs'
        exact hp
      · exact fun hp => ⟨name, message, key, typed, rfl, hs, hp⟩
    rw [hiff]
    exact h.roomKey hs key typed
  · rename_i hs
    exact Or.inr ⟨hroom (ne_room hs fun _ _ hr => by cases hr), s, rfl, h⟩

/-- A new list of users. -/
theorem Inv.poll (h : s.Inv) : s.poll.Inv := by
  unfold Session.poll
  split_ifs with hs
  · have hlist : s.name ∉ (s.ui.updateUserlist s.name s.nodeList).userlist := fun hm =>
      of_decide_eq_true (List.mem_filter.1 hm).2 rfl
    have hclosed := h.closed (ne_room hs.1 fun _ _ hr => by cases hr)
    exact {
      own := hlist
      users := fun i hi => by
        dsimp only at hi ⊢
        split_ifs at hi with hnil
        cases hi
        exact List.length_pos_of_ne_nil hnil
      quit := fun i hi => by
        dsimp only at hi
        split_ifs at hi
      closed := fun _ => hclosed
      opened := fun _ _ hr => by
        dsimp only at hr
        split_ifs at hr
      message := fun _ _ hr => by
        dsimp only at hr
        split_ifs at hr
      sent := h.sent }
  · exact h

/-- A message pushed by the listener. -/
theorem Inv.push (h : s.Inv) (p content : Bytes) :
    Inv { s with ui := s.ui.pushMessage p content } where
  own := by
    rw [UI.pushMessage_userlist]
    exact h.own
  users i hi := by
    rw [UI.pushMessage_userlist]
    exact h.users i hi
  quit i hi := by
    rw [UI.pushMessage_userlist]
    exact h.quit i hi
  closed hs := Option.not_isSome_iff_eq_none.1 (by
    rw [UI.pushMessage_isSome, h.closed hs]
    exact Bool.false_ne_true)
  opened n m hs := ((h.ready hs).push p content).opened
  message := h.message
  sent := h.sent

/-- **One step**: undefined exactly when a visible `%` is typed. -/
theorem Inv.step (h : s.Inv) (e : UiEvent) : Outcome (s.VisiblePercent e) (s.step e) := by
  cases e with
  | key key typed => exact h.pressKey key typed
  | poll => exact Or.inr ⟨not_visiblePercent (fun _ _ he => by cases he), s.poll, rfl, h.poll⟩
  | push p content =>
    exact Or.inr ⟨not_visiblePercent (fun _ _ he => by cases he), _, rfl, h.push p content⟩
  | list nodeList =>
    exact Or.inr ⟨not_visiblePercent (fun _ _ he => by cases he), _, rfl, { h with }⟩

/-! ## What a step does to the window and to the arrays -/

/-- The event leaves the list of users or a room, which gives an array of windows back with a scalar
`delete`. -/
def Leaves (s : Session) (e : UiEvent) : Prop :=
  ∃ key typed, e = .key key typed ∧
    ((∃ i, s.screen = .users i) ∧ key = KEY_ENTER2 ∨
      (∃ i, s.screen = .quit i) ∧ (key = 121 ∨ key = 89) ∨
      (∃ name, s.screen = .room name []) ∧ key = KEY_ESCAPE)

/-- The window of an open room shows the last page. -/
def Shows (s : Session) : Prop :=
  ∀ name message, s.screen = .room name message → s.ui.ShowsLastPage

theorem roomLoop_ok (h : s.roomLoop name message = .ok s') :
    s' = { s with screen := .room name message } := by
  unfold Session.roomLoop at h
  split_ifs at h
  exact (Except.ok.inj h).symm

/-- Whether an array is given back in a step. -/
def Counts (leaves : Prop) (s s' : Session) : Prop :=
  leaves ∧ s'.scalarDeletes = s.scalarDeletes + 1 ∨
    ¬ leaves ∧ s'.scalarDeletes = s.scalarDeletes

/-- **What a key in a chat room does** to the window and to the arrays: it leaves the room, or stays
in it with a line more, with the log cleared, or with another message in the text box. -/
theorem roomKey_ok {key : ℤ} {typed : Bytes}
    (hs : s.roomKey name message key typed = .ok s') :
    key = KEY_ESCAPE ∧ message = [] ∧ s'.screen = .waiting ∧
        s'.scalarDeletes = s.scalarDeletes + 1 ∨
      ¬ (key = KEY_ESCAPE ∧ message = []) ∧ s'.scalarDeletes = s.scalarDeletes ∧
        (s'.ui = s.ui ∨ (∃ line, s'.ui = s.ui.pushMessage name line) ∨
          s'.ui = { s.ui with
            current := s.ui.current.map fun _ => Window.blank
            chat := s.ui.chat.insert name [] }) := by
  unfold Session.roomKey at hs
  split_ifs at hs with hescape hempty hfile hback henter hempty' hf5
  · obtain rfl := Except.ok.inj hs
    exact .inl ⟨hescape, hempty, rfl, rfl⟩
  · obtain rfl := roomLoop_ok hs
    exact .inr ⟨fun h => hempty h.2, rfl, .inl rfl⟩
  · obtain rfl := roomLoop_ok hs
    exact .inr ⟨fun h => hescape h.1, rfl, .inr (.inl ⟨_, rfl⟩)⟩
  · obtain rfl := roomLoop_ok hs
    exact .inr ⟨fun h => hescape h.1, rfl, .inl rfl⟩
  · obtain rfl := roomLoop_ok hs
    exact .inr ⟨fun h => hescape h.1, rfl, .inl rfl⟩
  · obtain rfl := roomLoop_ok hs
    exact .inr ⟨fun h => hescape h.1, rfl, .inr (.inl ⟨_, rfl⟩)⟩
  · obtain rfl := roomLoop_ok hs
    exact .inr ⟨fun h => hescape h.1, rfl, .inr (.inr rfl)⟩
  · obtain rfl := roomLoop_ok hs
    exact .inr ⟨fun h => hescape h.1, rfl, .inl rfl⟩
  · obtain rfl := roomLoop_ok hs
    exact .inr ⟨fun h => hescape h.1, rfl, .inl rfl⟩
  · obtain rfl := roomLoop_ok hs
    exact .inr ⟨fun h => hescape h.1, rfl, .inl rfl⟩

/-- **What a key in the list of users does.** -/
theorem selectKey_ok {key : ℤ} {i : ℕ} (hw : s.Shows) (hs : s.selectKey i key = .ok s') :
    Counts (key = KEY_ENTER2) s s' ∧ s'.Shows := by
  unfold Session.selectKey at hs
  dsimp only at hs
  split_ifs at hs with hdown hup hescape henter
  · obtain rfl := Except.ok.inj hs
    exact ⟨.inr ⟨hdown ▸ by decide, rfl⟩, fun _ _ hr => by cases hr⟩
  · obtain rfl := Except.ok.inj hs
    exact ⟨.inr ⟨hup ▸ by decide, rfl⟩, fun _ _ hr => by cases hr⟩
  · obtain rfl := Except.ok.inj hs
    exact ⟨.inr ⟨hescape ▸ by decide, rfl⟩, fun _ _ hr => by cases hr⟩
  · unfold Session.openRoom at hs
    split at hs
    · cases hs
    · obtain rfl := roomLoop_ok hs
      exact ⟨.inl ⟨henter, rfl⟩, fun _ _ _ => UI.showsLastPage_open _ _⟩
  · obtain rfl := Except.ok.inj hs
    exact ⟨.inr ⟨henter, rfl⟩, hw⟩

/-- **One step**: an array is given back exactly when the step leaves the list of users or a room,
and the window still shows the last page. -/
theorem Inv.step_shows (h : s.Inv) (hw : s.Shows) {e : UiEvent} (hs : s.step e = .ok s') :
    Counts (s.Leaves e) s s' ∧ s'.Shows := by
  have hnot : (∀ key typed, e ≠ .key key typed) → ¬ s.Leaves e :=
    fun he ⟨key, typed, heq, _⟩ => he key typed heq
  cases e with
  | key key typed =>
    change s.pressKey key typed = .ok s' at hs
    have hiff : s.Leaves (.key key typed) ↔
        (∃ i, s.screen = .users i) ∧ key = KEY_ENTER2 ∨
          (∃ i, s.screen = .quit i) ∧ (key = 121 ∨ key = 89) ∨
          (∃ name, s.screen = .room name []) ∧ key = KEY_ESCAPE :=
      ⟨fun ⟨_, _, he, hl⟩ => by cases he; exact hl, fun hl => ⟨key, typed, rfl, hl⟩⟩
    rw [hiff]
    unfold Session.pressKey at hs
    split at hs
    · next hscreen =>
      obtain rfl := Except.ok.inj hs
      exact ⟨.inr ⟨by simp [hscreen], rfl⟩, hw⟩
    · next hscreen =>
      simp only [hscreen]
      obtain ⟨hcount, hshows⟩ := selectKey_ok hw hs
      exact ⟨by simpa [Counts] using hcount, hshows⟩
    · next hscreen =>
      simp only [hscreen]
      split_ifs at hs with hyes
      · obtain rfl := Except.ok.inj hs
        exact ⟨.inl ⟨by simp [hyes], rfl⟩, fun _ _ hr => by cases hr⟩
      · obtain rfl := Except.ok.inj hs
        exact ⟨.inr ⟨by simp [hyes], rfl⟩, fun _ _ hr => by cases hr⟩
    · next name message hscreen =>
      obtain ⟨hopened, -, hsome⟩ := h.opened name message hscreen
      have hshows := hw name message hscreen
      simp only [hscreen]
      obtain ⟨hkey, hempty, hroom, hcount⟩ | ⟨hstay, hcount, hui⟩ := roomKey_ok hs
      · exact ⟨.inl ⟨by simp [hkey, hempty], hcount⟩, fun _ _ hr => by cases hroom.symm.trans hr⟩
      · refine ⟨.inr ⟨?_, hcount⟩, fun _ _ _ => ?_⟩
        · simpa [and_comm] using hstay
        · obtain hui | ⟨line, hui⟩ | hui := hui
          · exact hui ▸ hshows
          · exact hui ▸ hshows.pushMessage name line
          · rw [hui, ← hopened]
            exact UI.showsLastPage_clear hsome
    · next hscreen =>
      obtain rfl := Except.ok.inj hs
      exact ⟨.inr ⟨by simp [hscreen], rfl⟩, hw⟩
  | poll =>
    obtain rfl := Except.ok.inj hs
    refine ⟨.inr ⟨hnot fun _ _ he => (by cases he), ?_⟩, ?_⟩
    · unfold Session.poll
      split_ifs <;> rfl
    · unfold Session.poll
      split_ifs with hwait
      · intro _ _ hr
        dsimp only at hr
        split_ifs at hr
      · exact hw
  | push p content =>
    obtain rfl := Except.ok.inj hs
    exact ⟨.inr ⟨hnot fun _ _ he => (by cases he), rfl⟩,
      fun name message hr => (hw name message hr).pushMessage p content⟩
  | list nodeList =>
    obtain rfl := Except.ok.inj hs
    exact ⟨.inr ⟨hnot fun _ _ he => (by cases he), rfl⟩, hw⟩

/-! ## Whole sessions -/

theorem inv_start (name : Bytes) (nodeList : NodeMap) : (start name nodeList).Inv where
  own := List.not_mem_nil
  users _ hi := by cases hi
  quit _ hi := by cases hi
  closed _ := rfl
  opened _ _ hs := by cases hs
  message _ _ hs := by cases hs
  sent _ hp := absurd hp List.not_mem_nil

/-- Every step that is defined keeps the invariant. -/
theorem Inv.step_ok (h : s.Inv) {e : UiEvent} (hs : s.step e = .ok s') :
    ¬ s.VisiblePercent e ∧ s'.Inv := by
  rcases h.step e with ⟨-, hr⟩ | ⟨hp, t, hr, ht⟩
  · cases hs.symm.trans hr
  · cases hs.symm.trans hr
    exact ⟨hp, ht⟩

theorem run_cons (s : Session) (e : UiEvent) (es : List UiEvent) :
    s.run (e :: es) = s.step e >>= fun s' => s'.run es := List.foldlM_cons

theorem Inv.run (h : s.Inv) {es : List UiEvent} (hs : s.run es = .ok s') : s'.Inv := by
  induction es generalizing s with
  | nil =>
    cases hs
    exact h
  | cons e es ih =>
    rw [run_cons] at hs
    rcases h.step e with ⟨-, hr⟩ | ⟨-, t, hr, ht⟩
    · rw [hr] at hs
      cases hs
    · rw [hr] at hs
      exact ih ht hs

/-- **The invariant of sessions**, whatever happens in whatever order. -/
theorem inv_run (name : Bytes) (nodeList : NodeMap) (events : List UiEvent) {s : Session}
    (h : (start name nodeList).run events = .ok s) : s.Inv :=
  (inv_start name nodeList).run h

/-- Two users. -/
def exampleList : NodeMap :=
  ((∅ : NodeMap).insert (ascii "a") (ascii "10.0.0.1")).insert (ascii "b") (ascii "10.0.0.2")

/-- The keys of a user who opens the only chat room. -/
def exampleOpening : List UiEvent := [.poll, .key KEY_ENTER2 []]

/-- A session with a message that is sent while another comes in. -/
theorem inv_run_example : ∃ s, (start (ascii "a") exampleList).run (exampleOpening ++
    [.key 104 [], .push (ascii "b") (ascii "b: hi"), .key KEY_ENTER2 []]) = .ok s ∧ s.Inv := by
  obtain ⟨s, hrun⟩ : ∃ s, (start (ascii "a") exampleList).run (exampleOpening ++
    [.key 104 [], .push (ascii "b") (ascii "b: hi"), .key KEY_ENTER2 []]) = .ok s := ⟨_, rfl⟩
  exact ⟨s, hrun, inv_run (ascii "a") exampleList _ hrun⟩

/-- What holds of every event of a run in the state that it finds holds of the first, and of the
others. -/
theorem forall_events_cons {P : Session → UiEvent → Prop} {first : UiEvent} {es : List UiEvent}
    (hu : s.step first = .ok s') :
    (∀ before e after t, first :: es = before ++ e :: after → s.run before = .ok t → P t e) ↔
      P s first ∧
        ∀ before e after t, es = before ++ e :: after → s'.run before = .ok t → P t e := by
  refine ⟨fun hall => ⟨hall [] first es s rfl rfl, fun before e after t hes ht => ?_⟩,
    fun hall before e after t hes ht => ?_⟩
  · refine hall (first :: before) e after t (by rw [hes, List.cons_append]) ?_
    rw [run_cons, hu]
    exact ht
  · cases before with
    | nil =>
      obtain ⟨rfl, rfl⟩ := List.cons.inj hes
      cases ht
      exact hall.1
    | cons c before =>
      obtain ⟨rfl, rfl⟩ := List.cons.inj hes
      rw [run_cons, hu] at ht
      exact hall.2 before e after t rfl ht

/-- A run keeps what its steps keep. -/
theorem Inv.run_shows (h : s.Inv) (hw : s.Shows) {es : List UiEvent} (hs : s.run es = .ok s') :
    s'.Shows ∧ s.scalarDeletes ≤ s'.scalarDeletes ∧
      (s'.scalarDeletes = s.scalarDeletes ↔ ∀ before e after t, es = before ++ e :: after →
        s.run before = .ok t → ¬ t.Leaves e) := by
  induction es generalizing s with
  | nil =>
    cases hs
    exact ⟨hw, le_rfl, iff_of_true rfl fun before e after _ hsplit => absurd hsplit.symm
      (List.append_ne_nil_of_right_ne_nil before (List.cons_ne_nil e after))⟩
  | cons first es ih =>
    rw [run_cons] at hs
    obtain ⟨u, hu, hs⟩ := Run.bind_eq_ok.1 hs
    obtain ⟨hcount, hshows⟩ := h.step_shows hw hu
    obtain ⟨hs', hle, hiff⟩ := ih (h.step_ok hu).2 hshows hs
    rw [forall_events_cons hu, ← hiff]
    obtain ⟨hleaves, hone⟩ | ⟨hstays, hone⟩ := hcount
    · exact ⟨hs', by omega, iff_of_false (by omega) fun h => h.1 hleaves⟩
    · refine ⟨hs', by omega, ?_⟩
      rw [hone]
      exact ⟨fun h => ⟨hstays, h⟩, fun h => h.2⟩

theorem shows_start (name : Bytes) (nodeList : NodeMap) : (start name nodeList).Shows :=
  fun _ _ hr => by cases hr

/-- **The log of the open room is on the screen**, when there is nothing in it that is left to
ncurses: its last messages, one below the other, each from the start of a row on, the newest of them
with them, and nothing else. -/
theorem window_run (name : Bytes) (nodeList : NodeMap) (events : List UiEvent) {s : Session}
    (h : (start name nodeList).run events = .ok s) {peer message : Bytes}
    (hroom : s.screen = .room peer message) (hprint : ∀ m ∈ s.ui.log peer, Printable m) :
    ∃ cells page, s.ui.current = some (some cells) ∧ page <:+ s.ui.log peer ∧
      page.getLast? = (s.ui.log peer).getLast? ∧
      ((page.map rows).sum ≤ 20 ∨ page.length = 1) ∧
      ∀ p c, cells p = some c ↔ p < 800 ∧ ∃ before m after, page = before ++ m :: after ∧
        40 * (before.map rows).sum ≤ p ∧
          (cstr m)[p - 40 * (before.map rows).sum]? = some c := by
  have hinv := inv_start name nodeList
  obtain ⟨hopened, -⟩ := (hinv.run h).opened peer message hroom
  have hshows := (hinv.run_shows (shows_start name nodeList) h).1 peer message hroom
  rw [UI.ShowsLastPage, hopened] at hshows
  exact ⟨_, lastPage (s.ui.log peer), hshows hprint, lastPage_suffix _, getLast?_lastPage _,
    lastPage_fits _, layOut_eq_some_iff _⟩

/-- The room after a message. -/
theorem window_run_example : ∃ s, (start (ascii "a") exampleList).run (exampleOpening ++
      [.push (ascii "b") (ascii "b: hi")]) = .ok s ∧
    ∃ cells page, s.ui.current = some (some cells) ∧ page <:+ s.ui.log (ascii "b") ∧
      page.getLast? = (s.ui.log (ascii "b")).getLast? ∧
      ((page.map rows).sum ≤ 20 ∨ page.length = 1) ∧
      ∀ p c, cells p = some c ↔ p < 800 ∧ ∃ before m after, page = before ++ m :: after ∧
        40 * (before.map rows).sum ≤ p ∧
          (cstr m)[p - 40 * (before.map rows).sum]? = some c := by
  obtain ⟨s, hrun, hroom, hlog⟩ : ∃ s, (start (ascii "a") exampleList).run (exampleOpening ++
      [.push (ascii "b") (ascii "b: hi")]) = .ok s ∧ s.screen = .room (ascii "b") [] ∧
      s.ui.log (ascii "b") = [ascii "b: hi"] := ⟨_, rfl, by decide, by decide⟩
  refine ⟨s, hrun, window_run (ascii "a") exampleList _ hrun hroom ?_⟩
  rw [hlog, List.forall_mem_singleton]
  decide

/-- A run is defined exactly when every step of it is. -/
theorem Inv.isOk_run_iff (h : s.Inv) (es : List UiEvent) :
    (∃ s', s.run es = .ok s') ↔ ∀ before e after t, es = before ++ e :: after →
      s.run before = .ok t → ¬ t.VisiblePercent e := by
  induction es generalizing s with
  | nil =>
    refine ⟨fun _ before e after _ hsplit _ => ?_, fun _ => ⟨s, rfl⟩⟩
    exact absurd hsplit.symm
      (List.append_ne_nil_of_right_ne_nil before (List.cons_ne_nil e after))
  | cons first es ih =>
    rw [run_cons]
    rcases h.step first with ⟨hp, hr⟩ | ⟨hp, u, hr, hu⟩
    · rw [hr]
      exact iff_of_false (fun ⟨_, hs'⟩ => by cases hs') fun hall => hall [] first es s rfl rfl hp
    · rw [hr, forall_events_cons hr]
      exact (ih hu).trans ⟨fun h => ⟨hp, h⟩, fun h => h.2⟩

/-- **A session goes on exactly as long as no visible `%` is typed**, and gives no array back with a
scalar `delete` exactly as long as it leaves neither the list of users nor a room. -/
theorem run_isOk_iff (name : Bytes) (nodeList : NodeMap) (events : List UiEvent) :
    ((∃ s, (start name nodeList).run events = .ok s) ↔ ∀ before e after s,
      events = before ++ e :: after → (start name nodeList).run before = .ok s →
      ¬ s.VisiblePercent e) ∧
    ∀ s, (start name nodeList).run events = .ok s → (s.scalarDeletes = 0 ↔ ∀ before e after t,
      events = before ++ e :: after → (start name nodeList).run before = .ok t →
      ¬ t.Leaves e) :=
  ⟨(inv_start name nodeList).isOk_run_iff events,
    fun _ h => ((inv_start name nodeList).run_shows (shows_start name nodeList) h).2.2⟩

/-! ## Typing a message -/

end Session

/-- The key of an event. -/
def UiEvent.pressed : UiEvent → Option ℤ
  | .key k _ => some k
  | _ => none

/-- What an event pushes to the chat with `p`. -/
def UiEvent.pushedTo (p : Bytes) : UiEvent → Option Bytes
  | .push from_ content => if from_ = p then some content else none
  | _ => none

namespace Session

variable {s s' : Session} {name message : Bytes}

/-- The characters that `chat_room` appends, but for `%`. -/
abbrev Plain (c : UInt8) : Prop := c ∉ [9, 10, 27, 37, 127]

theorem charOf_ofNat (c : UInt8) : charOf (c.toNat : ℤ) = c := by
  have hc := c.toNat_lt
  rw [charOf, Int.emod_eq_of_lt (by omega) (by omega), Int.toNat_natCast, UInt8.ofNat_toNat]

/-- A character typed: one more, up to 200. -/
theorem roomKey_plain {c : UInt8} (hc : Plain c) (hlen : message.length ≤ 200) (typed : Bytes) :
    s.roomKey name message c.toNat typed = s.roomLoop name ((message ++ [c]).take 200) := by
  have hlt := c.toNat_lt
  have hne : ∀ k : UInt8, k ∈ [9, 10, 27, 37, 127] → c.toNat ≠ k.toNat :=
    fun k hk h => hc (UInt8.toNat_inj.1 h ▸ hk)
  have h9 : c ≠ 9 := fun h => hne 9 (by decide) (congrArg UInt8.toNat h)
  have h10 := hne 10 (by decide)
  have h27 := hne 27 (by decide)
  have h127 := hne 127 (by decide)
  simp only [UInt8.toNat_ofNat] at h10 h27 h127
  rw [roomKey, if_neg, if_neg, if_neg, if_neg, if_neg, charOf_ofNat, if_neg h9]
  · split_ifs with hshort
    · rw [List.take_of_length_le]
      rw [List.length_append, List.length_singleton]
      omega
    · have h200 : message.length = 200 := by omega
      rw [List.take_append_of_le_length h200.ge, List.take_of_length_le h200.le]
  all_goals simp only [KEY_ESCAPE, KEY_F, KEY_BACKSPACE, KEY_ENTER2]; omega

/-- A character typed never ends a session. -/
theorem Inv.step_plain (h : s.Inv) (hs : s.screen = .room name message) {c : UInt8} (hc : Plain c)
    (typed : Bytes) : s.step (.key c.toNat typed) =
      .ok { s with screen := .room name ((message ++ [c]).take 200) } := by
  have hlen := (h.message name message hs).1
  have hkey : s.step (.key c.toNat typed) = s.roomLoop name ((message ++ [c]).take 200) := by
    rw [Session.step, Session.pressKey, hs]
    exact roomKey_plain hc hlen typed
  rcases h.step (.key c.toNat typed) with ⟨⟨_, _, _, _, he, -, h37, -⟩, -⟩ | ⟨-, t, ht, -⟩
  · cases he
    rw [charOf_ofNat] at h37
    exact absurd (h37 ▸ hc) (by decide)
  · rw [hkey, roomLoop] at ht ⊢
    split_ifs at ht ⊢ with hformat
    rfl

/-- What the events between two calls of `send_message` leave: the text in the box, and the logs
with what was pushed. -/
structure Typed (s : Session) (name message : Bytes) (es : List UiEvent) (s' : Session) :
    Prop where
  inv : s'.Inv
  screen : s'.screen = .room name message
  owner : s'.name = s.name
  sent : s'.sent = s.sent
  log : ∀ p, s'.ui.log p = s.ui.log p ++ es.filterMap (UiEvent.pushedTo p)

/-- An event before them. -/
theorem Typed.cons {t : Session} {e : UiEvent} {es : List UiEvent} (h : t.Typed name message es s')
    (hname : t.name = s.name) (hsent : t.sent = s.sent)
    (hlog : ∀ p, t.ui.log p = s.ui.log p ++ (e.pushedTo p).toList) :
    s.Typed name message (e :: es) s' where
  inv := h.inv
  screen := h.screen
  owner := h.owner.trans hname
  sent := h.sent.trans hsent
  log p := by
    rw [h.log, hlog, List.append_assoc, List.filterMap_cons]
    cases e.pushedTo p <;> rfl

theorem take_take_append {α : Type*} (n : ℕ) (l m : List α) :
    (l.take n ++ m).take n = (l ++ m).take n := by
  rw [List.take_append, List.take_append, List.take_take, min_self, List.length_take]
  congr 2
  omega

/-- **Text typed**, with anything pushed in between. -/
theorem Inv.run_plain (h : s.Inv) (hs : s.screen = .room name message) {es : List UiEvent}
    {text : Bytes} (hkeys : es.filterMap UiEvent.pressed = text.map fun c => (c.toNat : ℤ))
    (htext : ∀ c ∈ text, Plain c) :
    ∃ s', s.run es = .ok s' ∧ s.Typed name ((message ++ text).take 200) es s' := by
  induction es generalizing s message text with
  | nil =>
    obtain rfl : text = [] := List.map_eq_nil_iff.1 hkeys.symm
    refine ⟨s, rfl, h, ?_, rfl, rfl, fun p => (List.append_nil _).symm⟩
    rw [List.append_nil, List.take_of_length_le (h.message name message hs).1]
    exact hs
  | cons e es ih =>
    rw [run_cons]
    cases e with
    | key key typed =>
      rw [List.filterMap_cons] at hkeys
      obtain ⟨c, text', rfl, hkey, hrest⟩ := List.map_eq_cons_iff.1 hkeys.symm
      obtain rfl : (c.toNat : ℤ) = key := hkey
      have hstep := h.step_plain hs (htext c List.mem_cons_self) typed
      obtain ⟨-, hinv⟩ := h.step_ok hstep
      obtain ⟨s', hs', hty⟩ := ih hinv rfl hrest.symm fun c hc =>
        htext c (List.mem_cons_of_mem _ hc)
      refine ⟨s', by rw [hstep]; exact hs', ?_⟩
      rw [take_take_append, List.append_assoc, List.singleton_append] at hty
      exact hty.cons rfl rfl fun p => (List.append_nil _).symm
    | poll =>
      have hpoll : s.poll = s := if_neg fun hw => by
        rw [hs] at hw
        cases hw.1
      obtain ⟨s', hs', hty⟩ := ih h hs hkeys htext
      refine ⟨s', ?_, hty.cons rfl rfl fun p => (List.append_nil _).symm⟩
      rw [Session.step, hpoll]
      exact hs'
    | push from_ content =>
      obtain ⟨s', hs', hty⟩ := ih (h.push from_ content) hs hkeys htext
      refine ⟨s', hs', hty.cons rfl rfl fun p => ?_⟩
      rw [UI.log_pushMessage]
      by_cases hp : p = from_
      · subst hp
        simp [UiEvent.pushedTo]
      · simp [UiEvent.pushedTo, hp, Ne.symm hp]
    | list nodeList =>
      have hinv : Inv { s with nodeList := nodeList } := { h with }
      obtain ⟨s', hs', hty⟩ := ih hinv hs hkeys htext
      exact ⟨s', hs', hty.cons rfl rfl fun p => (List.append_nil _).symm⟩

/-- The line that a user's own message is shown as. -/
def ownLine (s : Session) (message : Bytes) : Bytes := s.name ++ ascii ": " ++ message

/-- Enter, with something in the box. -/
theorem Inv.step_enter (h : s.Inv) (hs : s.screen = .room name message) (hne : message ≠ [])
    (typed : Bytes) : ∃ s', s.step (.key KEY_ENTER2 typed) = .ok s' ∧ s'.Inv ∧
      s'.screen = .room name [] ∧ s'.name = s.name ∧ s'.sent = s.sent ++ [(name, message)] ∧
      ∀ p, s'.ui.log p = s.ui.log p ++ if p = name then [s.ownLine message] else [] := by
  have hkey : s.step (.key KEY_ENTER2 typed) = .ok { s with
      ui := s.ui.pushMessage name (s.ownLine message)
      sent := s.sent ++ [(name, message)]
      screen := .room name [] } := by
    rw [Session.step, Session.pressKey, hs]
    dsimp only
    rw [Session.roomKey, if_neg (by decide), if_neg fun hk => absurd hk.1 (by decide),
      if_neg (by decide), if_pos rfl, if_neg hne]
    rfl
  refine ⟨_, hkey, (h.step_ok hkey).2, rfl, rfl, rfl, fun p => ?_⟩
  rw [UI.log_pushMessage]
  split_ifs with hp
  · rfl
  · exact (List.append_nil _).symm

/-- **A message typed and sent.** Whatever is pushed and however often the node list changes in
between, one call of `send_message` is made, with the first 200 characters, and the line is added to
the chat once, after what was pushed until then. -/
theorem type_message (h : s.Inv) (hs : s.screen = .room name []) {text typed : Bytes}
    (hne : text ≠ []) (htext : ∀ c ∈ text, Plain c) {before after : List UiEvent}
    (hbefore : before.filterMap UiEvent.pressed = text.map fun c => (c.toNat : ℤ))
    (hafter : after.filterMap UiEvent.pressed = []) :
    ∃ s', s.run (before ++ .key KEY_ENTER2 typed :: after) = .ok s' ∧
      s'.screen = .room name [] ∧ s'.sent = s.sent ++ [(name, text.take 200)] ∧
      ∀ p, s'.ui.log p = s.ui.log p ++ before.filterMap (UiEvent.pushedTo p) ++
        (if p = name then [s.name ++ ascii ": " ++ text.take 200] else []) ++
        after.filterMap (UiEvent.pushedTo p) := by
  obtain ⟨s₁, hrun₁, h₁⟩ := h.run_plain hs hbefore htext
  rw [List.nil_append] at h₁
  have hne' : text.take 200 ≠ [] := fun h0 =>
    hne ((List.take_eq_nil_iff.1 h0).resolve_left (by decide))
  obtain ⟨s₂, hstep, hinv, hscreen, -, hsent, hlog⟩ := h₁.inv.step_enter h₁.screen hne' typed
  have hnone : after.filterMap UiEvent.pressed = ([] : Bytes).map fun c => (c.toNat : ℤ) := hafter
  obtain ⟨s₃, hrun₃, h₃⟩ := hinv.run_plain hscreen hnone fun _ hc => by cases hc
  refine ⟨s₃, ?_, h₃.screen, ?_, fun p => ?_⟩
  · rw [run, List.foldlM_append]
    show (s.run before >>= fun t => t.run (.key KEY_ENTER2 typed :: after)) = .ok s₃
    rw [hrun₁]
    show s₁.run (.key KEY_ENTER2 typed :: after) = .ok s₃
    rw [run_cons, hstep]
    exact hrun₃
  · rw [h₃.sent, hsent, h₁.sent]
  · rw [h₃.log, hlog, h₁.log, ownLine, h₁.owner]

/-- `hi`, with an answer that comes in after the first key. -/
theorem type_message_example : ∃ s s' : Session, s.screen = .room (ascii "b") [] ∧
    s.run ([.key 104 [], .push (ascii "b") (ascii "b: yo"), .key 105 []] ++
      .key KEY_ENTER2 [] :: [.poll]) = .ok s' ∧
    s'.screen = .room (ascii "b") [] ∧ s'.sent = s.sent ++ [(ascii "b", (ascii "hi").take 200)] ∧
    ∀ p, s'.ui.log p = s.ui.log p ++
        [.key 104 [], .push (ascii "b") (ascii "b: yo"), .key 105 []].filterMap
          (UiEvent.pushedTo p) ++
        (if p = ascii "b" then [s.name ++ ascii ": " ++ (ascii "hi").take 200] else []) ++
        [UiEvent.poll].filterMap (UiEvent.pushedTo p) := by
  obtain ⟨s, hrun, hs⟩ : ∃ s, (start (ascii "a") exampleList).run exampleOpening = .ok s ∧
      s.screen = .room (ascii "b") [] := ⟨_, rfl, by decide⟩
  have hplain : ∀ c ∈ ascii "hi", Plain c :=
    List.forall_mem_cons.2 ⟨by decide, List.forall_mem_singleton.2 (by decide)⟩
  obtain ⟨s', h⟩ := type_message ((inv_start (ascii "a") exampleList).run hrun) hs
    (by decide : ascii "hi" ≠ []) hplain
    (rfl : [UiEvent.key 104 [], .push (ascii "b") (ascii "b: yo"), .key 105 []].filterMap
      UiEvent.pressed = (ascii "hi").map fun c => (c.toNat : ℤ))
    (rfl : [UiEvent.poll].filterMap UiEvent.pressed = [])
  exact ⟨s, s', hs, h⟩

end Session

end Onion5
