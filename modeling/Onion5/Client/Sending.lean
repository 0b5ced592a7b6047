import Onion5.Client.Layers
import Mathlib.Data.List.Chain

/-!
# What is sent

The file that `send_message` hands to `send_file`, for every pattern of failures.

* The hops of a route (`hops`) are the pairs of consecutive nodes, and the recipient twice. When
  no call of the loop fails the file is the complete onion: the text message in one layer for
  each hop (`Onion`, `run_layered`).
-/

namespace Onion5

open Message

/-! ## Routes and onions -/

/-- The consecutive pairs of `l` followed by `last`. -/
def chain : List Bytes → Bytes → List (Bytes × Bytes)
  | [], _ => []
  | [a], last => [(a, last)]
  | a :: b :: l, last => (a, b) :: chain (b :: l) last

/-- The layers of a route, outermost first: sender and recipient of each. -/
def hops (route : List Bytes) : List (Bytes × Bytes) := chain route (route.getLastD [])

theorem chain_concat (l : List Bytes) (h last : Bytes) :
    chain (l ++ [h]) last = chain l h ++ [(h, last)] := by
  induction l with
  | nil => rfl
  | cons a l ih =>
    cases l with
    | nil => rfl
    | cons b l =>
      simp only [List.cons_append, chain] at ih ⊢
      rw [ih]

/-- The recipients of the layers. -/
theorem map_snd_chain (a : Bytes) (l : List Bytes) (last : Bytes) :
    (chain (a :: l) last).map Prod.snd = l ++ [last] := by
  induction l generalizing a with
  | nil => rfl
  | cons b l ih => simp only [chain, List.map_cons, ih, List.cons_append]

/-- The recipients of a route from `a` over `l`: its nodes after the first, and the last of them
once more. -/
theorem map_snd_hops {route : List Bytes} (hne : route ≠ []) :
    (hops route).map Prod.snd = route.tail ++ [route.getLastD []] := by
  obtain ⟨a, l, rfl⟩ := List.exists_cons_of_ne_nil hne
  exact map_snd_chain a l _

/-- The senders of a route are its nodes. -/
theorem map_fst_chain (l : List Bytes) (last : Bytes) : (chain l last).map Prod.fst = l := by
  induction l with
  | nil => rfl
  | cons a l ih => cases l <;> simp_all [chain]

theorem fst_mem_of_mem_hops {route : List Bytes} {h : Bytes × Bytes} (hh : h ∈ hops route) :
    h.1 ∈ route := map_fst_chain route (route.getLastD []) ▸ List.mem_map_of_mem hh

/-- The recipient of a hop is the sender of the next one. -/
theorem isChain_chain (l : List Bytes) (last : Bytes) :
    (chain l last).IsChain fun h h' => h'.1 = h.2 := by
  induction l with
  | nil => exact .nil
  | cons a l ih =>
    cases l with
    | nil => exact .singleton _
    | cons b l =>
      refine List.isChain_cons.2 ⟨fun h hh => ?_, ih⟩
      cases l <;> cases hh <;> rfl

theorem fst_eq_of_hops {route : List Bytes} {done rest : List (Bytes × Bytes)}
    {h h' : Bytes × Bytes} (hh : hops route = done ++ h :: h' :: rest) : h'.1 = h.2 := by
  have hc := isChain_chain route (route.getLastD [])
  rw [← hops, hh, List.isChain_append] at hc
  exact (List.isChain_cons_cons.1 hc.2.1).1

/-- The recipient of the last hop is the last node. -/
theorem snd_eq_of_hops {route : List Bytes} (hne : route ≠ []) {done : List (Bytes × Bytes)}
    {h : Bytes × Bytes} (hh : hops route = done ++ [h]) : h.2 = route.getLastD [] := by
  have hmap := map_snd_hops hne
  rw [hh, List.map_append, List.map_singleton] at hmap
  exact (List.append_inj' hmap rfl).2 |> List.singleton_inj.1

theorem length_hops {route : List Bytes} (hne : route ≠ []) :
    (hops route).length = route.length := by
  have h := congrArg List.length (map_snd_hops hne)
  have hpos := List.length_pos_of_ne_nil hne
  simp only [List.length_map, List.length_append, List.length_tail, List.length_singleton] at h
  omega

/-- `y` is `x` in a layer: a type-0 file from `h.1` to `h.2` whose body is a ciphertext of `x`
for `h.2`. -/
def InLayer (enc : Bytes → Bytes → Bytes → Prop) (h : Bytes × Bytes) (x y : Bytes) : Prop :=
  ∃ c time, enc h.2 x c ∧ y = header h.1 h.2 0 time ++ c

/-- The complete onion of a text message along a route. -/
def Onion (enc : Bytes → Bytes → Bytes → Prop) (route : List Bytes) (content file : Bytes) : Prop :=
  ∃ time, Layered (InLayer enc) (hops route)
    (header (route.headD []) (route.getLastD []) 1 time ++ content) file

/-- What the loop adds around a file. -/
def hopsFrom : Bytes → List Bytes → List (Bytes × Bytes) → List (Bytes × Bytes)
  | _, [], hs => hs
  | to_, hop :: rest, hs => hopsFrom hop rest ((hop, to_) :: hs)

theorem hopsFrom_reverse (l : List Bytes) (to_ : Bytes) (hs : List (Bytes × Bytes)) :
    hopsFrom to_ l.reverse hs = chain l to_ ++ hs := by
  induction l using List.reverseRec generalizing to_ hs with
  | nil => rfl
  | append_singleton l h ih =>
    rw [List.reverse_append, List.reverse_singleton, List.singleton_append, hopsFrom, ih,
      chain_concat, List.append_assoc]
    rfl

/-! ## The machine without failures -/

section Run

variable {g : GPG} {layer : ℕ → LayerDraws}

/-- The ciphertexts that gpg makes during the loop. -/
def Encrypts (layer : ℕ → LayerDraws) (r x c : Bytes) : Prop :=
  ∃ i, (layer i).gpg (cstr r) x = some c

/-- A ciphertext comes from this run of gpg. -/
theorem encrypts_of_cipher {i : ℕ} {r c : Bytes} {content : Option Bytes}
    (h : g.cipher (layer i).gpg r content = some c) :
    ∃ x, content = some x ∧ Encrypts layer r x c := by
  unfold GPG.cipher at h
  split_ifs at h
  obtain ⟨x, rfl, hx⟩ := Option.bind_eq_some_iff.1 h
  exact ⟨x, rfl, i, hx⟩

/-- The calls of the machine all succeed. -/
def AllSucceed (calls : List (Bool × Bool)) : Prop := ∀ c ∈ calls, c = (true, true)

theorem allSucceed_cons {c : Bool × Bool} {cs : List (Bool × Bool)} :
    AllSucceed (c :: cs) ↔ c = (true, true) ∧ AllSucceed cs := List.forall_mem_cons

/-- A turn whose calls succeed adds a layer. -/
theorem View.step_layer {i : ℕ} {from_ to_ x : Bytes} {v : View} (hx : v.file = some x)
    (hok : (v.step g (layer i) from_ to_).2 = (true, true)) :
    ∃ y, (v.step g (layer i) from_ to_).1.file = some y ∧
      InLayer (Encrypts layer) (from_, to_) x y := by
  obtain ⟨hc, hs⟩ := Prod.mk.inj hok
  obtain ⟨c, hc⟩ := Option.isSome_iff_exists.1 hc
  obtain ⟨x', hx', henc⟩ := encrypts_of_cipher hc
  obtain rfl : x' = x := Option.some.inj (hx'.symm.trans hx)
  obtain ⟨y, hy⟩ := Option.isSome_iff_exists.1 hs
  refine ⟨y, hy, c, (layer i).time, henc, ?_⟩
  rw [hc, Option.some_or] at hy
  split_ifs at hy
  exact (Option.some.inj hy).symm

/-- **A loop whose calls all succeed makes the layers of its hops.** -/
theorem View.run_layered {rev : List Bytes} {i : ℕ} {to_ core x : Bytes} {v : View}
    {hs : List (Bytes × Bytes)} (hx : v.file = some x)
    (hl : Layered (InLayer (Encrypts layer)) hs core x)
    (hok : AllSucceed (View.run g layer i rev to_ v).2) :
    ∃ y, (View.run g layer i rev to_ v).1.file = some y ∧
      Layered (InLayer (Encrypts layer)) (hopsFrom to_ rev hs) core y := by
  induction rev generalizing i to_ v x hs with
  | nil => exact ⟨x, hx, hl⟩
  | cons hop rest ih =>
    obtain ⟨hstep, hrest⟩ := allSucceed_cons.1 hok
    obtain ⟨y, hy, hlayer⟩ := View.step_layer hx hstep
    exact ih hy (hl.wrap hlayer) hrest

/-- The inputs under which no call fails. -/
def Succeeds (g : GPG) (layer : ℕ → LayerDraws) (i n : ℕ) : Prop :=
  g.isAuthorized ∧ ∀ j, i ≤ j → j < i + n → (layer j).status ∧ (layer j).opens

/-- The calls of a turn succeed exactly when gpg and the open do. -/
theorem View.step_ok_iff {d : LayerDraws} {from_ to_ x : Bytes} {v : View}
    (hx : v.file = some x) :
    (v.step g d from_ to_).2 = (true, true) ↔ g.isAuthorized ∧ d.status ∧ d.opens := by
  simp only [View.step, GPG.cipher, LayerDraws.gpg, hx, Option.bind_some, Prod.mk.injEq]
  cases g.isAuthorized <;> cases d.status <;> cases d.opens <;> simp

theorem Succeeds.tail {i n : ℕ} (h : Succeeds g layer i (n + 1)) : Succeeds g layer (i + 1) n :=
  ⟨h.1, fun j hi hj => h.2 j (by omega) (by omega)⟩

theorem allSucceed_run {rev : List Bytes} {i : ℕ} {to_ x : Bytes} {v : View}
    (hx : v.file = some x) (h : Succeeds g layer i rev.length) :
    AllSucceed (View.run g layer i rev to_ v).2 := by
  induction rev generalizing i to_ v x with
  | nil => exact fun c hc => absurd hc List.not_mem_nil
  | cons hop rest ih =>
    have hok : (v.step g (layer i) hop to_).2 = (true, true) :=
      (View.step_ok_iff hx).2 ⟨h.1, h.2 i le_rfl (by simp)⟩
    obtain ⟨y, hy, -⟩ := View.step_layer hx hok
    exact allSucceed_cons.2 ⟨hok, ih hy h.tail⟩

theorem succeeds_of_allSucceed {rev : List Bytes} (hne : rev ≠ []) {i : ℕ} {to_ x : Bytes}
    {v : View} (hx : v.file = some x) (h : AllSucceed (View.run g layer i rev to_ v).2) :
    Succeeds g layer i rev.length := by
  induction rev generalizing i to_ v x with
  | nil => exact absurd rfl hne
  | cons hop rest ih =>
    obtain ⟨hok, hrest⟩ := allSucceed_cons.1 h
    obtain ⟨y, hy, -⟩ := View.step_layer hx hok
    obtain ⟨hauth, hi⟩ := (View.step_ok_iff hx).1 hok
    refine ⟨hauth, fun j hij hj => ?_⟩
    rcases Nat.eq_or_lt_of_le hij with rfl | hlt
    · exact hi
    · have hne' : rest ≠ [] := by
        rintro rfl
        simp only [List.length_singleton] at hj
        omega
      rw [List.length_cons] at hj
      exact (ih hne' hy hrest).2 j hlt (by omega)

end Run

/-! ## The call -/

/-- The temporary paths that `send_message` draws along a route. -/
def SendDraws.paths (d : SendDraws) (route : List Bytes) : List Bytes :=
  d.textPath :: layerPaths d.layer 0 route.reverse

@[simp] theorem SendDraws.length_paths (d : SendDraws) (route : List Bytes) :
    (d.paths route).length = 2 * route.length + 1 := by
  simp [SendDraws.paths, length_layerPaths]

/-- The text message as `serialize` writes it. -/
def plainFile (route : List Bytes) (content : Bytes) (d : SendDraws) : Bytes :=
  header (route.headD []) (route.getLastD []) 1 d.textTime ++ content

section Call

variable {m : Messanger} {to_ content : Bytes} {d : SendDraws} {fs : Files}

theorem route_ends (m : Messanger) (to_ : Bytes) (d : SendDraws) :
    ∃ relays, m.route to_ d = m.name :: relays ++ [to_] :=
  generatePath_ends ..

theorem getLastD_route : (m.route to_ d).getLastD [] = to_ := by
  obtain ⟨relays, h⟩ := route_ends m to_ d
  rw [h, List.getLastD_eq_getLast?, List.getLast?_concat, Option.getD_some]

theorem headD_route : (m.route to_ d).headD [] = m.name := by
  obtain ⟨relays, h⟩ := route_ends m to_ d
  simp [h]

theorem route_ne_nil : m.route to_ d ≠ [] := by
  obtain ⟨relays, h⟩ := route_ends m to_ d
  simp [h]

/-- **The loop of `send_message` is a run of the machine on the text message.** -/
theorem layers_view (m : Messanger) (content : Bytes) {route : List Bytes}
    (hf : fs.Fresh (d.paths route)) :
    (m.layers route content d fs).view = (View.run m.gpg d.layer 0 route.reverse
        (route.getLastD []) ⟨some (plainFile route content d), none⟩).1 ∧
      (m.layers route content d fs).calls = (View.run m.gpg d.layer 0 route.reverse
        (route.getLastD []) ⟨some (plainFile route content d), none⟩).2 := by
  unfold Messanger.layers
  simp only [serialize_text]
  set st : Layering := ⟨route.getLastD [], [], d.textPath,
    fs.put d.textPath (plainFile route content d), []⟩ with hst
  have hview : st.view = ⟨some (plainFile route content d), none⟩ := by
    simp [hst, Layering.view, hf.openRead_put List.mem_cons_self]
  have hready : st.Ready (layerPaths d.layer 0 route.reverse) :=
    ⟨hf.put_head _, hf.cstr_head_notMem,
      fun hm => hf.tail.ne_nil hm rfl⟩
  obtain ⟨h₁, h₂⟩ := layerLoop_view m.gpg d.layer route.reverse 0 st hready
  rw [hview] at h₁ h₂
  exact ⟨h₁, h₂⟩

/-- A call that gets through to the first hop hands over the file of the loop. -/
theorem sendMessage_connected (content : Bytes) (fs : Files) (hto : to_ ∈ m.nodeList)
    (hc : d.connect (m.firstHop (m.route to_ d))) :
    (m.sendMessage to_ content d fs).sent =
        some ⟨m.firstHop (m.route to_ d),
          (m.layers (m.route to_ d) content d fs).filename,
          (m.layers (m.route to_ d) content d fs).view.file⟩ ∧
      (m.sendMessage to_ content d fs).calls = (m.layers (m.route to_ d) content d fs).calls := by
  have hc' : d.connect (m.nodeList.index ((m.route to_ d).getD 1 [])).1 = true := hc
  unfold Messanger.sendMessage
  rw [if_neg (not_not.2 hto)]
  dsimp only
  rw [if_neg (not_not.2 hc')]
  exact ⟨rfl, rfl⟩

/-- A call for a recipient in the list changes the object by the lookup of the first hop. -/
theorem sendMessage_msgr (hto : to_ ∈ m.nodeList) :
    (m.sendMessage to_ content d fs).msgr =
      { m with nodeList := (m.nodeList.index ((m.route to_ d).getD 1 [])).2 } := by
  unfold Messanger.sendMessage
  rw [if_neg (not_not.2 hto)]
  dsimp only
  split_ifs <;> rfl

/-- A call leaves the new paths that it does not draw alone. -/
theorem sendMessage_fresh {ps : List Bytes} (content : Bytes) (hto : to_ ∈ m.nodeList)
    (hf : fs.Fresh (d.paths (m.route to_ d) ++ ps)) :
    (m.sendMessage to_ content d fs).fs.Fresh ps := by
  have hfs : (m.sendMessage to_ content d fs).fs = (m.layers (m.route to_ d) content d fs).fs := by
    unfold Messanger.sendMessage
    rw [if_neg (not_not.2 hto)]
    dsimp only
    split_ifs <;> rfl
  rw [hfs, Messanger.layers, serialize_text]
  have hready : (⟨(m.route to_ d).getLastD [], [], d.textPath,
      fs.put d.textPath (plainFile (m.route to_ d) content d), []⟩ : Layering).Ready
        (layerPaths d.layer 0 (m.route to_ d).reverse ++ ps) :=
    ⟨hf.put_head _, hf.cstr_head_notMem, fun hm => hf.tail.ne_nil hm rfl⟩
  exact (layerLoop_ready hready).fresh

/-- The other calls hand over nothing and return false. -/
theorem sendMessage_refused (content : Bytes) (fs : Files) (h : to_ ∉ m.nodeList ∨
    ¬ d.connect (m.firstHop (m.route to_ d))) :
    (m.sendMessage to_ content d fs).sent = none ∧
      (m.sendMessage to_ content d fs).ret = .ok false := by
  by_cases hto : to_ ∈ m.nodeList
  · have hc : ¬ d.connect (m.nodeList.index ((m.route to_ d).getD 1 [])).1 = true :=
      h.resolve_left (not_not.2 hto)
    unfold Messanger.sendMessage
    rw [if_neg (not_not.2 hto)]
    dsimp only
    rw [if_pos hc]
    exact ⟨rfl, rfl⟩
  · simp [Messanger.sendMessage, hto]

/-- **When no call can fail, what is sent is the complete onion.** -/
theorem sendMessage_onion (content : Bytes) (hto : to_ ∈ m.nodeList)
    (hc : d.connect (m.firstHop (m.route to_ d)))
    (hf : fs.Fresh (d.paths (m.route to_ d)))
    (hs : Succeeds m.gpg d.layer 0 (m.route to_ d).length) :
    ∃ s file, (m.sendMessage to_ content d fs).sent = some s ∧
      s.host = m.firstHop (m.route to_ d) ∧ s.content = some file ∧
      Onion (Encrypts d.layer) (m.route to_ d) content file := by
  obtain ⟨hview, -⟩ := layers_view m content hf
  have hok : AllSucceed (View.run m.gpg d.layer 0 (m.route to_ d).reverse
      ((m.route to_ d).getLastD []) ⟨some (plainFile (m.route to_ d) content d), none⟩).2 :=
    allSucceed_run rfl (by rwa [List.length_reverse])
  obtain ⟨file, hfile, hl⟩ := View.run_layered rfl (Layered.refl _) hok
  rw [hopsFrom_reverse, List.append_nil] at hl
  refine ⟨_, file, (sendMessage_connected _ _ hto hc).1, rfl, ?_, d.textTime, hl⟩
  rw [hview]
  exact hfile

end Call

/-! ## Failure atomicity -/

/-- Some call of `encrypt_file` or `serialize` in the loop failed. -/
def SomeFailed (calls : List (Bool × Bool)) : Prop := ∃ c ∈ calls, c.1 = false ∨ c.2 = false

theorem someFailed_iff {calls : List (Bool × Bool)} : SomeFailed calls ↔ ¬ AllSucceed calls := by
  simp only [SomeFailed, AllSucceed, not_forall, exists_prop]
  refine exists_congr fun c => and_congr_right fun _ => ?_
  obtain ⟨a, b⟩ := c
  cases a <;> cases b <;> simp

/-- Sending is failure atomic: `send_message` returns true only when it handed the complete onion
to the first hop, and when a call of its loop fails it returns false and hands over nothing. -/
def FailureAtomic (m : Messanger) (to_ content : Bytes) (d : SendDraws) (fs : Files) : Prop :=
  let r := m.sendMessage to_ content d fs
  let route := m.route to_ d
  (r.ret = .ok true → ∃ s file, r.sent = some s ∧ s.host = m.firstHop route ∧
    s.content = some file ∧ Onion (Encrypts d.layer) route content file) ∧
  (SomeFailed r.calls → r.ret = .ok false ∧ r.sent = none)

section Atomic

variable {m : Messanger} {to_ content : Bytes} {d : SendDraws} {fs : Files}

/-- A call whose loop fails hands over a file all the same. -/
theorem not_failureAtomic (hto : to_ ∈ m.nodeList)
    (hc : d.connect (m.firstHop (m.route to_ d)))
    (hf : fs.Fresh (d.paths (m.route to_ d)))
    (hs : ¬ Succeeds m.gpg d.layer 0 (m.route to_ d).length) :
    ¬ FailureAtomic m to_ content d fs := by
  intro h
  obtain ⟨hsent, hcalls⟩ := sendMessage_connected content fs hto hc
  obtain ⟨-, hcalls'⟩ := layers_view m content hf
  have hne : (m.route to_ d).reverse ≠ [] := by simpa using route_ne_nil
  have hfail : SomeFailed (m.sendMessage to_ content d fs).calls := by
    rw [someFailed_iff, hcalls, hcalls']
    intro hok
    have := succeeds_of_allSucceed hne rfl hok
    rw [List.length_reverse] at this
    exact hs this
  rw [(h.2 hfail).2] at hsent
  cases hsent

/-- **Failure atomicity holds exactly when nothing is handed over or nothing can fail.** -/
theorem failureAtomic_iff (hf : fs.Fresh (d.paths (m.route to_ d))) :
    FailureAtomic m to_ content d fs ↔
      to_ ∉ m.nodeList ∨ ¬ d.connect (m.firstHop (m.route to_ d)) ∨
        Succeeds m.gpg d.layer 0 (m.route to_ d).length := by
  constructor
  · intro h
    by_contra hcon
    push Not at hcon
    exact not_failureAtomic hcon.1 hcon.2.1 hf hcon.2.2 h
  · intro h
    by_cases hgo : to_ ∉ m.nodeList ∨ ¬ d.connect (m.firstHop (m.route to_ d))
    · obtain ⟨hsent, hret⟩ := sendMessage_refused content fs hgo
      refine ⟨fun htrue => ?_, fun _ => ⟨hret, hsent⟩⟩
      rw [hret] at htrue
      cases htrue
    · have hs := (or_assoc.2 h).resolve_left hgo
      push Not at hgo
      refine ⟨fun _ => sendMessage_onion _ hgo.1 hgo.2 hf hs, fun hfail => ?_⟩
      obtain ⟨-, hcalls⟩ := sendMessage_connected content fs hgo.1 hgo.2
      rw [hcalls, (layers_view m content hf).2, someFailed_iff] at hfail
      exact absurd (allSucceed_run rfl (by rwa [List.length_reverse])) hfail

end Atomic

/-! ## A missing key -/

/-- The draws of a call on the route `a`, `c`, `b`; gpg fails in the turns of `failing`. -/
def exampleDraws (failing : List ℕ) : SendDraws where
  shuffle := id
  textPath := exampleTemppath 0
  textTime := 0
  layer i :=
    { encPath := exampleTemppath (2 * i + 1)
      status := i ∉ failing
      encrypt := exampleEncrypt
      serPath := exampleTemppath (2 * i + 2)
      time := 0
      opens := true }
  connect _ := true

/-- The node `a`, which knows `a`, `b` and `c`. -/
def exampleNode : Messanger where
  gpg := ⟨ascii "a", ascii "secret"⟩
  name := ascii "a"
  nodeList := (∅ : NodeMap) |>.insert (ascii "a") (ascii "10.0.0.1")
    |>.insert (ascii "b") (ascii "10.0.0.2") |>.insert (ascii "c") (ascii "10.0.0.3")

theorem route_exampleDraws (failing : List ℕ) :
    exampleNode.route (ascii "b") (exampleDraws failing) = [ascii "a", ascii "c", ascii "b"] := by
  change generatePath _ _ _ 3 id = _
  decide

theorem fresh_exampleDraws (failing : List ℕ) :
    Files.blank.Fresh ((exampleDraws failing).paths
      (exampleNode.route (ascii "b") (exampleDraws failing))) := by
  have hpaths : (exampleDraws failing).paths [ascii "a", ascii "c", ascii "b"] =
      (List.range' 0 7).map exampleTemppath := rfl
  rw [route_exampleDraws, hpaths]
  exact Files.fresh_blank_range (by decide)

theorem failureAtomic_iff_example :
    FailureAtomic exampleNode (ascii "b") (ascii "hi") (exampleDraws []) Files.blank ↔
      ascii "b" ∉ exampleNode.nodeList ∨
        ¬ (exampleDraws []).connect
            (exampleNode.firstHop (exampleNode.route (ascii "b") (exampleDraws []))) ∨
        Succeeds exampleNode.gpg (exampleDraws []).layer 0
          (exampleNode.route (ascii "b") (exampleDraws [])).length :=
  failureAtomic_iff (fresh_exampleDraws [])

/-- When the key of the relay `c` is missing, the packet for `c` goes out all the same, with the
body that is for `b`. -/
theorem not_failureAtomic_missing_key :
    Files.blank.Fresh ((exampleDraws [2]).paths
        (exampleNode.route (ascii "b") (exampleDraws [2]))) ∧
      ¬ FailureAtomic exampleNode (ascii "b") (ascii "hi") (exampleDraws [2]) Files.blank := by
  refine ⟨fresh_exampleDraws [2],
    not_failureAtomic (by decide) rfl (fresh_exampleDraws [2]) fun h => ?_⟩
  exact absurd (h.2 2 (by decide) (by decide)).1 (by decide)

end Onion5
