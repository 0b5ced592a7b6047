import Onion5.Common.Util
import Mathlib.Algebra.BigOperators.Group.List.Basic

/-!
# The user interface

The model of `ui.cc`, from the end of the login on. The interface thread shows the list of the other
users (`select_user`) or a chat room (`chat_room`) and handles one key after the other; the listener
pushes messages and replaces the node list in between. A key, a message pushed and a new node list
are one step each.

Of the drawing there are the cells of the window of the log (`Cells`). What ncurses makes of a
newline or of another byte that is not a printable character of ASCII is its own matter, and the
window is unknown from then on until it is cleared. The text box is printed with the message as the
format, which is undefined when the message has a conversion in it. `select_user` and `chat_room`
give their arrays of windows back with a scalar `delete`, which is undefined too but goes unnoticed:
it is counted.

* `foldl_stepCells_concat`: printing a log with one more message over the log shows its last page.
* `layOut_eq_some_iff`: what a page looks like.
-/

namespace Onion5

/-! ## The chat log -/

/-- The cells of the window of the log, 20 rows of 40 one after the other: the character printed
there last, or `none` for a blank. -/
abbrev Cells := ℕ → Option UInt8

/-- The printable characters of ASCII. -/
def isPrint (c : UInt8) : Bool := 32 ≤ c ∧ c < 127

/-- A text printed from a cell on. It goes on in the next row at the end of a row, and is cut off at
the end of the window. -/
def Cells.write (cells : Cells) (pos : ℕ) (text : Bytes) : Cells := fun p =>
  if pos ≤ p ∧ p < 800 then text[p - pos]?.or (cells p) else cells p

/-- The window of the log, or `none` when what it shows is not known. -/
abbrev Window := Option Cells

namespace Window

/-- `wclear`. -/
def blank : Window := some fun _ => none

/-- `mvwprintw(…, offset, 0, "%s", m.c_str())`. -/
def print (w : Window) (offset : ℕ) (m : Bytes) : Window :=
  if (cstr m).all isPrint then w.map fun cells => cells.write (40 * offset) (cstr m) else none

end Window

/-- The rows that a message is given. -/
def rows (m : Bytes) : ℕ := m.length / 40 + 1

/-- One turn of the loop of `refresh_chatlog`, on `offset` and the window. -/
def printStep (st : ℕ × Window) (m : Bytes) : ℕ × Window :=
  let st := if st.1 + rows m > 20 then (0, Window.blank) else st
  (st.1 + rows m, st.2.print st.1 m)

/-- The members of `class UI` that matter after the login. -/
structure UI where
  chat : Std.ExtTreeMap Bytes (List Bytes) compare
  userlist : List Bytes
  /-- the window of the log of the open room, or `NULL` -/
  current : Option Window
  openedCurrent : Bytes

namespace UI

/-- The messages of a chat. -/
def log (ui : UI) (name : Bytes) : List Bytes := ui.chat.getD name []

/-- `UI::refresh_chatlog`. -/
def refreshChatlog (ui : UI) (name : Bytes) : UI :=
  match ui.current with
  | none => ui
  | some w =>
    if ui.openedCurrent ≠ name then ui
    else
      let chat := ui.chat.insertIfNew name []
      let messages := chat.getD name []
      if messages = [] then { ui with chat := chat }
      else { ui with chat := chat, current := some (messages.foldl printStep (0, w)).2 }

/-- `UI::push_message`. -/
def pushMessage (ui : UI) (name content : Bytes) : UI :=
  let chat := ui.chat.insertIfNew name []
  refreshChatlog { ui with chat := chat.insert name (chat.getD name [] ++ [content]) } name

/-- `UI::update_userlist`, on a node list that is not empty. -/
def updateUserlist (ui : UI) (name : Bytes) (nodeList : NodeMap) : UI :=
  { ui with userlist := nodeList.keys.filter (· ≠ name) }

end UI

/-! ## The interface thread -/

/-- Keys of `ui.h` and of `ncurses.h`. -/
def KEY_ESCAPE : ℤ := 27

def KEY_ENTER2 : ℤ := 10

def KEY_DOWN : ℤ := 258

def KEY_UP : ℤ := 259

def KEY_BACKSPACE : ℤ := 263

def KEY_F (n : ℤ) : ℤ := 264 + n

/-- `(char) key & 0xFF`. -/
def charOf (key : ℤ) : UInt8 := UInt8.ofNat (key % 256).toNat

/-- What a format without arguments may be: conversions other than `%%` need one. -/
def formatOk : Bytes → Bool
  | [] => true
  | 37 :: 37 :: s => formatOk s
  | 37 :: _ => false
  | _ :: s => formatOk s

/-- Where the interface thread is. -/
inductive Screen
  /-- waiting for other users -/
  | waiting
  /-- the loop of `select_user` -/
  | users (selected : ℕ)
  /-- `checkbox_quit` -/
  | quit (selected : ℕ)
  /-- the loop of `chat_room` -/
  | room (name message : Bytes)
  | done
  deriving DecidableEq

/-- The interface, the name and the node list of the `Messanger`, the calls of `send_message`, and
how often an array has been given back with a scalar `delete`. -/
structure Session where
  ui : UI
  name : Bytes
  nodeList : NodeMap
  screen : Screen
  sent : List (Bytes × Bytes)
  scalarDeletes : ℕ

/-- What happens to a session: the user presses a key (and answers `FILE?` with `typed` when it
asks), the waiting thread looks at the node list, or the listener calls. -/
inductive UiEvent
  | key (key : ℤ) (typed : Bytes)
  | poll
  | push (from_ content : Bytes)
  | list (nodeList : NodeMap)

namespace Session

/-- The start of the loop of `chat_room`, which prints the message. -/
def roomLoop (s : Session) (name message : Bytes) : Run Session :=
  if formatOk (cstr message) then .ok { s with screen := .room name message }
  else .error .undefined

/-- What the user has entered after `FILE?`: at most 80 characters, read as a C string. -/
def fileName (typed : Bytes) : Bytes := cstr (overlay (typed.take 80) (List.replicate 81 0))

/-- A key in `chat_room`. The result of `send_message` is not looked at. -/
def roomKey (s : Session) (name message : Bytes) (key : ℤ) (typed : Bytes) : Run Session :=
  if key = KEY_ESCAPE then
    if message = [] then
      -- `delete chat_window;`
      .ok { s with
        ui := { s.ui with current := none, openedCurrent := [] }
        screen := .waiting
        scalarDeletes := s.scalarDeletes + 1 }
    else s.roomLoop name []
  else if key = KEY_F 2 ∧ message = [] then
    let line := s.name ++ ascii " send '" ++ fileName typed ++ ascii "'"
    roomLoop { s with ui := s.ui.pushMessage name line } name []
  else if key = KEY_BACKSPACE ∨ key = 127 then s.roomLoop name message.dropLast
  else if key = KEY_ENTER2 then
    if message = [] then s.roomLoop name message
    else
      let line := s.name ++ ascii ": " ++ message
      roomLoop { s with ui := s.ui.pushMessage name line, sent := s.sent ++ [(name, message)] }
        name []
  else if key = KEY_F 5 then
    let ui := { s.ui with
      current := s.ui.current.map fun _ => Window.blank
      chat := s.ui.chat.insert name [] }
    roomLoop { s with ui := ui } name message
  else if charOf key = 9 then s.roomLoop name message
  else if message.length < 200 then s.roomLoop name (message ++ [charOf key])
  else s.roomLoop name message

/-- `chat_room` up to its loop. -/
def openRoom (s : Session) (idx : ℕ) : Run Session :=
  match s.ui.userlist[idx]? with
  | none => .error .undefined
  | some name =>
    let ui := { s.ui with openedCurrent := name, current := some Window.blank }
    roomLoop { s with ui := ui.refreshChatlog name } name []

/-- A key in `select_user`. -/
def selectKey (s : Session) (selected : ℕ) (key : ℤ) : Run Session :=
  let count := s.ui.userlist.length
  if key = KEY_DOWN then .ok { s with screen := .users ((selected + 1) % count) }
  else if key = KEY_UP then .ok { s with screen := .users ((selected + count - 1) % count) }
  else if key = KEY_ESCAPE then .ok { s with screen := .quit selected }
  else if key = KEY_ENTER2 then
    -- `delete items;`
    openRoom { s with scalarDeletes := s.scalarDeletes + 1 } selected
  else .ok s

/-- A key, wherever the thread is. -/
def pressKey (s : Session) (key : ℤ) (typed : Bytes) : Run Session :=
  match s.screen with
  -- no key is read
  | .waiting => .ok s
  | .users selected => s.selectKey selected key
  | .quit selected =>
    -- `delete items;` on the way out
    if key = 121 ∨ key = 89 then
      .ok { s with screen := .done, scalarDeletes := s.scalarDeletes + 1 }
    else .ok { s with screen := .users selected }
  | .room name message => s.roomKey name message key typed
  | .done => .ok s

/-- `update_userlist`, and `select_user` when there is someone to select. -/
def poll (s : Session) : Session :=
  if s.screen = .waiting ∧ ¬ s.nodeList.isEmpty then
    let ui := s.ui.updateUserlist s.name s.nodeList
    { s with ui := ui, screen := if ui.userlist = [] then .waiting else .users 0 }
  else s

/-- One step. -/
def step (s : Session) : UiEvent → Run Session
  | .key key typed => s.pressKey key typed
  | .poll => .ok s.poll
  | .push from_ content => .ok { s with ui := s.ui.pushMessage from_ content }
  | .list nodeList => .ok { s with nodeList := nodeList }

/-- The session of a user who has logged in. -/
def start (name : Bytes) (nodeList : NodeMap) : Session :=
  ⟨⟨∅, [], none, []⟩, name, nodeList, .waiting, [], 0⟩

/-- A session from `s`. -/
def run (s : Session) (events : List UiEvent) : Run Session := events.foldlM step s

end Session

/-! ## Pages -/

/-- The page that a message comes on, after those of `page`. -/
def turnPage (page : List Bytes) (m : Bytes) : List Bytes :=
  if (page.map rows).sum + rows m > 20 then [m] else page ++ [m]

/-- The last page of a log. -/
def lastPage (log : List Bytes) : List Bytes := log.foldl turnPage []

/-- The messages of a page, one below the other, and the row below them. -/
def layOut (page : List Bytes) : ℕ × Cells :=
  page.foldl (fun st m => (st.1 + rows m, Cells.write st.2 (40 * st.1) (cstr m)))
    (0, fun _ => none)

/-- `printStep` on cells that are known. -/
def stepCells (st : ℕ × Cells) (m : Bytes) : ℕ × Cells :=
  let st := if st.1 + rows m > 20 then (0, fun _ => none) else st
  (st.1 + rows m, Cells.write st.2 (40 * st.1) (cstr m))

/-- A message that ncurses prints as it is. -/
abbrev Printable (m : Bytes) : Prop := (cstr m).all isPrint

theorem printStep_some {m : Bytes} (h : Printable m) (offset : ℕ) (cells : Cells) :
    printStep (offset, some cells) m =
      ((stepCells (offset, cells) m).1, some (stepCells (offset, cells) m).2) := by
  rw [printStep, stepCells]
  dsimp only
  split_ifs <;> simp [Window.print, Window.blank, h]

/-- The loop on a window that is known. -/
theorem foldl_printStep_some {log : List Bytes} (h : ∀ m ∈ log, Printable m) (offset : ℕ)
    (cells : Cells) : log.foldl printStep (offset, some cells) =
      ((log.foldl stepCells (offset, cells)).1, some (log.foldl stepCells (offset, cells)).2) := by
  induction log generalizing offset cells with
  | nil => rfl
  | cons m log ih =>
    rw [List.forall_mem_cons] at h
    rw [List.foldl_cons, List.foldl_cons, printStep_some h.1, ih h.2]

theorem layOut_concat (page : List Bytes) (m : Bytes) : layOut (page ++ [m]) =
    ((layOut page).1 + rows m, Cells.write (layOut page).2 (40 * (layOut page).1) (cstr m)) := by
  rw [layOut, List.foldl_append]
  rfl

theorem lastPage_concat (log : List Bytes) (m : Bytes) :
    lastPage (log ++ [m]) = turnPage (lastPage log) m := by
  rw [lastPage, List.foldl_append]
  rfl

theorem layOut_fst (page : List Bytes) : (layOut page).1 = (page.map rows).sum := by
  induction page using List.reverseRec with
  | nil => rfl
  | append_singleton page m ih =>
    rw [layOut_concat, ih, List.map_append, List.sum_append, List.map_singleton,
      List.sum_singleton]

/-- One turn of the loop turns the page or goes on with it. -/
theorem stepCells_layOut (page : List Bytes) (m : Bytes) :
    stepCells (layOut page) m = layOut (turnPage page m) := by
  rw [stepCells, turnPage, layOut_fst]
  split_ifs with h
  · rfl
  · exact (layOut_concat page m).symm

/-- The loop on an empty window. -/
theorem foldl_stepCells_blank (log : List Bytes) :
    log.foldl stepCells (0, fun _ => none) = layOut (lastPage log) := by
  induction log using List.reverseRec with
  | nil => rfl
  | append_singleton log m ih =>
    rw [List.foldl_append, ih, List.foldl_cons, List.foldl_nil, stepCells_layOut, lastPage_concat]

/-- A text printed over cells that lie over others. -/
theorem Cells.write_or (upper lower : Cells) (pos : ℕ) (text : Bytes) :
    (Cells.write (fun p => (upper p).or (lower p)) pos text) =
      fun p => (upper.write pos text p).or (lower p) := by
  funext p
  simp only [Cells.write]
  split_ifs
  · rw [Option.or_assoc]
  · rfl

/-- On a window that shows something, what is printed covers it, and a new page removes it. -/
theorem foldl_stepCells (log : List Bytes) (w : Cells) :
    (log.foldl stepCells (0, w)).1 = (layOut (lastPage log)).1 ∧
      ((log.foldl stepCells (0, w)).2 = (layOut (lastPage log)).2 ∨
        (log.foldl stepCells (0, w)).2 = fun p => ((layOut (lastPage log)).2 p).or (w p)) := by
  induction log using List.reverseRec with
  | nil => exact ⟨rfl, Or.inr rfl⟩
  | append_singleton log m ih =>
    rw [List.foldl_append, List.foldl_cons, List.foldl_nil, lastPage_concat, ← stepCells_layOut]
    generalize log.foldl stepCells (0, w) = st at ih
    generalize layOut (lastPage log) = st' at ih
    obtain ⟨hoffset, hcells⟩ := ih
    simp only [stepCells, hoffset]
    split_ifs with h
    · exact ⟨rfl, Or.inl rfl⟩
    · refine ⟨by rw [hoffset], ?_⟩
      rcases hcells with hw | hw
      · exact Or.inl (by rw [hw, hoffset])
      · exact Or.inr (by rw [hw, hoffset, Cells.write_or])

/-- **A message printed after a log that is shown** is shown with it. -/
theorem foldl_stepCells_concat (log : List Bytes) (m : Bytes) :
    ((log ++ [m]).foldl stepCells (0, (layOut (lastPage log)).2)).2 =
      (layOut (lastPage (log ++ [m]))).2 := by
  have hlog : log.foldl stepCells (0, (layOut (lastPage log)).2) = layOut (lastPage log) := by
    obtain ⟨hoffset, hcells⟩ := foldl_stepCells log (layOut (lastPage log)).2
    refine Prod.ext hoffset (hcells.elim id fun hw => hw.trans (funext fun p => ?_))
    cases (layOut (lastPage log)).2 p <;> rfl
  rw [List.foldl_append, hlog, List.foldl_cons, List.foldl_nil, stepCells_layOut, lastPage_concat]

/-- The last page is the end of the log. -/
theorem lastPage_suffix (log : List Bytes) : lastPage log <:+ log := by
  induction log using List.reverseRec with
  | nil => exact List.suffix_refl _
  | append_singleton log m ih =>
    rw [lastPage_concat, turnPage]
    split_ifs with h
    · exact List.suffix_append log [m]
    · obtain ⟨before, hlog⟩ := ih
      exact ⟨before, by rw [← List.append_assoc, hlog]⟩

/-- The last message is on the last page. -/
theorem getLast?_lastPage (log : List Bytes) : (lastPage log).getLast? = log.getLast? := by
  rcases List.eq_nil_or_concat' log with rfl | ⟨log, m, rfl⟩
  · rfl
  · rw [lastPage_concat, turnPage, List.getLast?_concat]
    split_ifs with h
    · rfl
    · exact List.getLast?_concat

/-- The last page has at most 20 rows, unless it is one message that is longer. -/
theorem lastPage_fits (log : List Bytes) :
    ((lastPage log).map rows).sum ≤ 20 ∨ (lastPage log).length = 1 := by
  rcases List.eq_nil_or_concat' log with rfl | ⟨log, m, rfl⟩
  · exact Or.inl (Nat.zero_le _)
  · rw [lastPage_concat, turnPage]
    split_ifs with h
    · exact Or.inr rfl
    · rw [List.map_append, List.sum_append, List.map_singleton, List.sum_singleton]
      exact Or.inl (Nat.le_of_not_lt h)

/-- A message takes no more cells than its rows have. -/
theorem length_cstr_lt (m : Bytes) : (cstr m).length < 40 * rows m := by
  have hle : (cstr m).length ≤ m.length := (List.takeWhile_sublist _).length_le
  rw [rows]
  omega

/-- Below a page there is nothing. -/
theorem layOut_eq_none (page : List Bytes) {p : ℕ} (hp : 40 * (page.map rows).sum ≤ p) :
    (layOut page).2 p = none := by
  induction page using List.reverseRec with
  | nil => rfl
  | append_singleton page m ih =>
    have hm := length_cstr_lt m
    rw [List.map_append, List.sum_append, List.map_singleton, List.sum_singleton] at hp
    rw [layOut_concat, layOut_fst]
    simp only [Cells.write, ih (show 40 * (page.map rows).sum ≤ p by omega), Option.or_none]
    split_ifs
    · exact List.getElem?_eq_none (by omega)
    · rfl

/-- **What a page looks like**: each message from the start of the row after those of the messages
before it. -/
theorem layOut_eq_some_iff (page : List Bytes) (p : ℕ) (c : UInt8) :
    (layOut page).2 p = some c ↔ p < 800 ∧ ∃ before m after, page = before ++ m :: after ∧
      40 * (before.map rows).sum ≤ p ∧ (cstr m)[p - 40 * (before.map rows).sum]? = some c := by
  induction page using List.reverseRec with
  | nil =>
    refine ⟨fun h => ?_, ?_⟩
    · cases h
    · rintro ⟨-, before, m, after, h, -⟩
      exact absurd h.symm (List.append_ne_nil_of_right_ne_nil before (List.cons_ne_nil m after))
  | append_singleton page last ih =>
    -- a message of the page is the last one, or it is one of those before
    have hsplit : ∀ before m after, page ++ [last] = before ++ m :: after ↔
        (before = page ∧ m = last ∧ after = []) ∨
          ∃ after', page = before ++ m :: after' ∧ after = after' ++ [last] := by
      intro before m after
      constructor
      · intro h
        rcases List.eq_nil_or_concat' after with rfl | ⟨after', c, rfl⟩
        · obtain ⟨rfl, hm⟩ := List.append_inj' h rfl
          exact Or.inl ⟨rfl, (List.cons.inj hm).1.symm, rfl⟩
        · rw [← List.cons_append, ← List.append_assoc] at h
          obtain ⟨rfl, hc⟩ := List.append_inj' h rfl
          exact Or.inr ⟨after', rfl, by rw [(List.cons.inj hc).1]⟩
      · rintro (⟨rfl, rfl, rfl⟩ | ⟨after', rfl, rfl⟩)
        · rfl
        · rw [← List.cons_append, ← List.append_assoc]
    -- the cells of one of those are above the last one
    have habove : ∀ before m after', page = before ++ m :: after' →
        (cstr m)[p - 40 * (before.map rows).sum]? = some c → p < 40 * (page.map rows).sum := by
      rintro before m after' rfl hc
      have hlt := (List.getElem?_eq_some_iff.1 hc).1
      have hm := length_cstr_lt m
      rw [List.map_append, List.sum_append, List.map_cons, List.sum_cons]
      omega
    rw [layOut_concat, layOut_fst]
    simp only [hsplit, Cells.write]
    by_cases hp : 40 * (page.map rows).sum ≤ p
    · rw [layOut_eq_none page hp, Option.or_none]
      by_cases hend : p < 800
      · rw [if_pos ⟨hp, hend⟩]
        constructor
        · intro h
          exact ⟨hend, page, last, [], Or.inl ⟨rfl, rfl, rfl⟩, hp, h⟩
        · rintro ⟨-, before, m, after, ⟨rfl, rfl, rfl⟩ | ⟨after', hpage, -⟩, -, hc⟩
          · exact hc
          · exact absurd (habove before m after' hpage hc) (not_lt.2 hp)
      · rw [if_neg fun h => hend h.2]
        exact iff_of_false (by simp) fun h => hend h.1
    · rw [if_neg fun h => hp h.1, ih]
      refine and_congr_right fun _ => ?_
      constructor
      · rintro ⟨before, m, after', hpage, hle, hc⟩
        exact ⟨before, m, after' ++ [last], Or.inr ⟨after', hpage, rfl⟩, hle, hc⟩
      · rintro ⟨before, m, after, ⟨rfl, rfl, rfl⟩ | ⟨after', hpage, -⟩, hle, hc⟩
        · exact absurd hle hp
        · exact ⟨before, m, after', hpage, hle, hc⟩

end Onion5
