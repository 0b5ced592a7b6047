import Mathlib.Logic.Relation
import Onion5.Client.GpgWrapper

/-!
# Logging in

The two threads of `main` while the user logs in. The interface thread runs `UI::login_screen` and
in it `Messanger::verify_passphrase`; the main thread polls `is_authed`, tests `is_authorized` once,
and starts the listener and the advertiser or waits for the interface to end. Every statement of
either thread is one step, and the threads are interleaved in any way (`Step`).

`verify_passphrase` raises `authed` before it stores the name and the passphrase, and
`is_authorized` looks at these. A main thread that gets to its test in between refuses a login that
has succeeded.

* `Inv.step`: what both threads see at every point of the run, preserved by every step.
* `Inv.isAuthorized_eq`: the test of the main thread says whether the passphrase has been stored.
* `login_agrees`: as long as the main thread does not make its test too early (`Timely`), the test
  agrees with gpg and the threads are started after a login that succeeds and after no other; and
  a test that is made too early never agrees.
-/

namespace Onion5

namespace Login

/-! ## The two threads -/

/-- What the user enters, and what gpg says of it. -/
structure Attempt where
  name : Bytes
  passphrase : Bytes
  verified : Bool
  name_ne : name ≠ []
  passphrase_ne : passphrase ≠ []

/-- Where the interface thread is: the statement it comes to. `ret` is the result of gpg. -/
inductive Interface
  | verify
  | toogleAuthed (ret : Bool)
  | test (ret : Bool)
  | setName
  | setPassphrase
  /-- `set_name` and `set_passphrase` again, in `login_screen` -/
  | setName'
  | setPassphrase'
  | done
  | failed
  deriving DecidableEq

/-- Where the main thread is. -/
inductive Main
  | wait
  | check
  /-- `interface_th.join()`, and then the end of the process -/
  | join
  | startListener
  | startAdvertiser
  | running
  deriving DecidableEq

/-- The members of `Messanger` that both threads use, the threads that have been started, and
where the two threads are. -/
structure State where
  gpg : GPG
  name : Bytes
  passphrase : Bytes
  authed : Bool
  listener : Bool
  /-- the name that the advertiser was started with -/
  advertiser : Option Bytes
  interface : Interface
  main : Main
  deriving DecidableEq

/-- The start of `main`, after the constructor of `Messanger`. -/
def start : State := ⟨⟨[], []⟩, [], [], false, false, none, .verify, .wait⟩

/-- `Messanger::toogle_authed`: `~` takes a `bool` to an `int`, which is not 0 either way. -/
def toogleAuthed (authed : Bool) : Bool := ~~~(BitVec.ofBool authed).zeroExtend 32 ≠ 0

/-- `Messanger::is_authorized`. -/
def State.isAuthorized (s : State) : Bool := !s.name.isEmpty && !s.passphrase.isEmpty

/-- One statement of the interface thread. What it does after the login touches none of this. -/
def interfaceStep (a : Attempt) (s : State) : Option State :=
  match s.interface with
  | .verify =>
    let (ret, gpg) := s.gpg.verifyPassphrase a.verified a.name a.passphrase
    some { s with gpg := gpg, interface := .toogleAuthed ret }
  | .toogleAuthed ret =>
    some { s with authed := toogleAuthed s.authed, interface := .test ret }
  | .test ret => some { s with interface := if ret then .setName else .failed }
  | .setName => some { s with name := a.name, interface := .setPassphrase }
  | .setPassphrase => some { s with passphrase := a.passphrase, interface := .setName' }
  | .setName' => some { s with name := a.name, interface := .setPassphrase' }
  | .setPassphrase' => some { s with passphrase := a.passphrase, interface := .done }
  | .done => none
  | .failed => none

/-- One statement of the main thread. -/
def mainStep (s : State) : Option State :=
  match s.main with
  | .wait => some { s with main := if s.authed then .check else .wait }
  | .check => some { s with main := if s.isAuthorized then .startListener else .join }
  | .join => none
  | .startListener => some { s with listener := true, main := .startAdvertiser }
  | .startAdvertiser => some { s with advertiser := some s.name, main := .running }
  | .running => none

/-- One step of either thread. -/
def Step (a : Attempt) (s s' : State) : Prop := interfaceStep a s = some s' ∨ mainStep s = some s'

theorem Step.interface {a : Attempt} {s s' : State} (h : interfaceStep a s = some s') :
    Step a s s' := Or.inl h

theorem Step.main {a : Attempt} {s s' : State} (h : mainStep s = some s') : Step a s s' := Or.inr h

/-- The states that are reached when the threads are interleaved in some way. -/
abbrev Reaches (a : Attempt) : State → Prop := Relation.ReflTransGen (Step a) start

@[simp] theorem toogleAuthed_eq (authed : Bool) : toogleAuthed authed = true := by
  cases authed <;> decide

/-! ## What the threads see -/

/-- What is known of the result of gpg when the interface thread is at a statement. -/
def Interface.verdict : Interface → Option Bool
  | .verify => none
  | .toogleAuthed ret => some ret
  | .test ret => some ret
  | .failed => some false
  | _ => some true

/-- Whether `authed` has been raised. -/
def Interface.toggled : Interface → Bool
  | .verify => false
  | .toogleAuthed _ => false
  | _ => true

/-- Whether the name has been stored. -/
def Interface.named : Interface → Bool
  | .setPassphrase | .setName' | .setPassphrase' | .done => true
  | _ => false

/-- Whether the passphrase has been stored. -/
def Interface.stored : Interface → Bool
  | .setName' | .setPassphrase' | .done => true
  | _ => false

/-- The result of the test of the main thread, once it is made. -/
def Main.tested : Main → Option Bool
  | .wait => none
  | .check => none
  | .join => some false
  | _ => some true

/-- Whether the listener has been started. -/
def Main.listens : Main → Bool
  | .startAdvertiser | .running => true
  | _ => false

/-- What both threads see of the state at the statements they have come to. -/
structure Inv (a : Attempt) (s : State) : Prop where
  verdict : ∀ b, s.interface.verdict = some b → b = a.verified
  authed : s.authed = s.interface.toggled
  name : s.name = if s.interface.named then a.name else []
  passphrase : s.passphrase = if s.interface.stored then a.passphrase else []
  waited : s.main ≠ .wait → s.authed
  tested : s.main.tested = some true → s.interface.stored
  listener : s.listener = s.main.listens
  advertiser : s.advertiser = if s.main = .running then some a.name else none

theorem inv_start (a : Attempt) : Inv a start where
  verdict b h := by cases h
  authed := rfl
  name := rfl
  passphrase := rfl
  waited h := absurd rfl h
  tested h := by cases h
  listener := rfl
  advertiser := rfl

theorem Interface.named_of_stored {i : Interface} (h : i.stored) : i.named := by
  cases i <;> first | rfl | cases h

theorem Inv.verified {a : Attempt} {s : State} (h : Inv a s) (hs : s.interface.stored) :
    a.verified := by
  have hv := h.verdict
  cases hi : s.interface <;> rw [hi] at hs hv <;> first | exact (hv true rfl).symm | cases hs

/-- **The test of the main thread** says whether the passphrase has been stored. -/
theorem Inv.isAuthorized_eq {a : Attempt} {s : State} (h : Inv a s) :
    s.isAuthorized = s.interface.stored := by
  rw [State.isAuthorized, h.name, h.passphrase]
  by_cases hs : s.interface.stored
  · rw [if_pos hs, if_pos (Interface.named_of_stored hs), hs]
    simp [a.name_ne, a.passphrase_ne]
  · rw [if_neg hs, Bool.eq_false_of_not_eq_true hs]
    simp

/-- The interface thread keeps the invariant. -/
theorem Inv.interfaceStep {a : Attempt} {s s' : State} (h : Inv a s)
    (hs : interfaceStep a s = some s') : Inv a s' := by
  obtain ⟨gpg, name, passphrase, authed, listener, advertiser, interface, main⟩ := s
  cases interface with
  | verify =>
    cases hs
    exact { h with
      verdict := fun b hb => (Option.some.inj hb).symm.trans (GPG.verifyPassphrase_fst ..) }
  | toogleAuthed ret =>
    cases hs
    exact { h with authed := toogleAuthed_eq _, waited := fun _ => toogleAuthed_eq _ }
  | test ret =>
    cases hs
    cases ret
    · exact { h with }
    · exact { h with }
  | setName =>
    cases hs
    exact { h with name := rfl }
  | setPassphrase =>
    cases hs
    exact { h with passphrase := rfl, tested := fun _ => rfl }
  | setName' =>
    cases hs
    exact { h with name := rfl }
  | setPassphrase' =>
    cases hs
    exact { h with passphrase := rfl }
  | done => cases hs
  | failed => cases hs

/-- The main thread keeps the invariant. -/
theorem Inv.mainStep {a : Attempt} {s s' : State} (h : Inv a s) (hs : mainStep s = some s') :
    Inv a s' := by
  have hauth := h.isAuthorized_eq
  obtain ⟨gpg, name, passphrase, authed, listener, advertiser, interface, main⟩ := s
  cases main with
  | wait =>
    cases hs
    cases authed
    · exact { h with }
    · exact { h with waited := fun _ => rfl }
  | check =>
    simp only [Login.mainStep, hauth] at hs
    cases hs
    cases hstored : interface.stored
    · exact { h with waited := fun _ => h.waited nofun, tested := fun ht => by cases ht }
    · exact { h with waited := fun _ => h.waited nofun, tested := fun _ => hstored }
  | join => cases hs
  | startListener =>
    cases hs
    exact { h with listener := rfl, waited := fun _ => h.waited nofun }
  | startAdvertiser =>
    cases hs
    refine { h with advertiser := ?_, waited := fun _ => h.waited nofun }
    have hnamed := Interface.named_of_stored (h.tested rfl)
    exact congrArg some (h.name.trans (if_pos hnamed))
  | running => cases hs

/-- One step keeps the invariant. -/
theorem Inv.step {a : Attempt} {s s' : State} (h : Inv a s) (hs : Step a s s') : Inv a s' :=
  hs.elim h.interfaceStep h.mainStep

/-- Every run keeps the invariant. -/
theorem inv_of_reaches {a : Attempt} {s : State} (h : Reaches a s) : Inv a s := by
  induction h with
  | refl => exact inv_start a
  | tail _ hs ih => exact ih.step hs

/-! ## The test of the main thread -/

/-- The main thread does not make its test before the interface thread has stored the passphrase of
a login that succeeds. -/
def Timely (a : Attempt) (s : State) : Prop :=
  s.main = .check → a.verified → s.interface.stored

/-- A step of either thread, the test of the main thread not too early. -/
def TimelyStep (a : Attempt) (s s' : State) : Prop :=
  interfaceStep a s = some s' ∨ Timely a s ∧ mainStep s = some s'

theorem TimelyStep.interface {a : Attempt} {s s' : State} (h : interfaceStep a s = some s') :
    TimelyStep a s s' := Or.inl h

theorem TimelyStep.main {a : Attempt} {s s' : State} (ht : Timely a s) (h : mainStep s = some s') :
    TimelyStep a s s' := Or.inr ⟨ht, h⟩

theorem reaches_of_timely {a : Attempt} {s : State}
    (h : Relation.ReflTransGen (TimelyStep a) start s) : Reaches a s :=
  Relation.ReflTransGen.mono (fun _ _ hs => hs.imp_right And.right) _ _ h

/-- The test agrees with gpg, and after it the listener and the advertiser are started if the login
has succeeded and not if it has failed. -/
structure Agrees (a : Attempt) (s : State) : Prop where
  tested : ∀ b, s.main.tested = some b → b = a.verified
  listener : s.listener → a.verified
  advertiser : ∀ name, s.advertiser = some name → a.verified ∧ name = a.name
  running : s.main = .running → s.listener ∧ s.advertiser = some a.name

/-- **The test is right** exactly when it is not made too early. -/
theorem Inv.tested_iff {a : Attempt} {s s' : State} (h : Inv a s) (hm : s.main = .check)
    (hs : Login.mainStep s = some s') : s'.main.tested = some a.verified ↔ Timely a s := by
  have htested : s'.main.tested = some s.interface.stored := by
    rw [← h.isAuthorized_eq]
    simp only [Login.mainStep, hm] at hs
    cases hs
    cases s.isAuthorized <;> rfl
  rw [htested, Option.some_inj]
  constructor
  · intro heq _ hv
    rw [heq, hv]
  · intro ht
    by_cases hv : a.verified
    · rw [ht hm hv, hv]
    · have hs : ¬ s.interface.stored := fun hstored => hv (h.verified hstored)
      rw [Bool.eq_false_of_not_eq_true hs, Bool.eq_false_of_not_eq_true hv]

theorem main_of_interfaceStep {a : Attempt} {s s' : State} (hs : interfaceStep a s = some s') :
    s'.main = s.main := by
  unfold interfaceStep at hs
  split at hs <;> cases hs <;> rfl

/-- The test is made once. -/
theorem tested_of_mainStep {s s' : State} (hs : mainStep s = some s') (hm : s.main ≠ .check) :
    s'.main.tested = s.main.tested := by
  unfold mainStep at hs
  split at hs <;> rename_i hmain <;> cases hs <;> rw [hmain]
  · cases s.authed <;> rfl
  · exact absurd hmain hm
  · rfl
  · rfl

/-- A test that agrees with gpg is followed by the right starts. -/
theorem Inv.agrees {a : Attempt} {s : State} (h : Inv a s)
    (ht : ∀ b, s.main.tested = some b → b = a.verified) : Agrees a s where
  tested := ht
  listener hl := by
    rw [h.listener] at hl
    refine (ht true ?_).symm
    cases hm : s.main <;> rw [hm] at hl <;> first | rfl | cases hl
  advertiser name hn := by
    rw [h.advertiser] at hn
    split_ifs at hn with hm
    cases hn
    exact ⟨(ht true (by rw [hm]; rfl)).symm, rfl⟩
  running hm := by
    rw [h.listener, h.advertiser, hm]
    exact ⟨rfl, rfl⟩

/-- **Login and start-up agree** in every run in which the test is not made too early; a test that
is made too early disagrees with gpg. -/
theorem login_agrees (a : Attempt) :
    (∀ s, Relation.ReflTransGen (TimelyStep a) start s → Agrees a s) ∧
      ∀ s s', Reaches a s → s.main = .check → mainStep s = some s' →
        (s'.main.tested = some a.verified ↔ Timely a s) := by
  refine ⟨fun s hs => ?_, fun s s' hs => (inv_of_reaches hs).tested_iff⟩
  have hinv : Inv a s := inv_of_reaches (reaches_of_timely hs)
  refine hinv.agrees ?_
  clear hinv
  induction hs with
  | refl => exact fun b hb => by cases hb
  | @tail s s' hrun hs ih =>
    obtain hs | ⟨htimely, hs⟩ := hs
    · rw [main_of_interfaceStep hs]
      exact ih
    · by_cases hm : s.main = .check
      · have hinv : Inv a s := inv_of_reaches (reaches_of_timely hrun)
        rw [(hinv.tested_iff hm hs).2 htimely]
        exact fun b hb => (Option.some.inj hb).symm
      · rw [tested_of_mainStep hs hm]
        exact ih

/-- A user whose passphrase gpg accepts. -/
def exampleAttempt : Attempt := ⟨ascii "a", ascii "pw", true, by decide, by decide⟩

theorem login_agrees_example :
    ∃ s, Reaches exampleAttempt s ∧ s.main = .running ∧ s.advertiser = some (ascii "a") := by
  have hlogin : Relation.ReflTransGen (TimelyStep exampleAttempt) start
      ⟨⟨ascii "a", ascii "pw"⟩, ascii "a", ascii "pw", true, false, none, .done, .wait⟩ :=
    ((((((Relation.ReflTransGen.single (.interface rfl)).tail (.interface rfl)).tail
      (.interface rfl)).tail (.interface rfl)).tail (.interface rfl)).tail (.interface rfl)).tail
      (.interface rfl)
  have hrun := (((hlogin.tail (.main (fun _ _ => rfl) rfl)).tail (.main (fun _ _ => rfl) rfl)).tail
    (.main (fun _ _ => rfl) rfl)).tail (.main (fun _ _ => rfl) rfl)
  exact ⟨_, reaches_of_timely hrun, rfl, (((login_agrees exampleAttempt).1 _ hrun).running rfl).2⟩

/-- The main thread makes its test right after `authed` has been raised. -/
theorem login_refused :
    ¬ ∀ (a : Attempt) (s : State), Reaches a s → ∀ b, s.main.tested = some b → b = a.verified := by
  intro h
  have hrun : Reaches exampleAttempt
      { start with
        gpg := ⟨ascii "a", ascii "pw"⟩
        authed := true
        interface := .test true
        main := .join } :=
    (((Relation.ReflTransGen.single (Step.interface rfl)).tail (Step.interface rfl)).tail
      (Step.main rfl)).tail (Step.main rfl)
  exact absurd (h exampleAttempt _ hrun false rfl) (by decide)

end Login

end Onion5
