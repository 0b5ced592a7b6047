import Onion5.Server.Requests

/-!
# The request handler

What `request_handler` does with a request, in the terms of the protocol.

* `transition_iff`: a complete request has exactly one effect and answer, those of `Transition`.
* `answers_iff`: on the bytes that a client may send otherwise, the handler answers exactly when the
  first line is there and, for a registration, its header lines and its body.
-/

namespace Onion5

/-! ## The first line -/

/-- The first line of a request has the method and the target. -/
def HasTarget (first method target : Bytes) : Prop :=
  32 ∉ target ∧ (first = method ++ 32 :: target ∨
    ∃ version, first = method ++ 32 :: (target ++ 32 :: version))

theorem cut_of_notMem {c : UInt8} {s : Bytes} (h : c ∉ s) : cut c s = (s, s) := by
  rw [cut, takeWhile_ne_self h, dropWhile_ne_self h]

/-- The part before the first `c`. -/
theorem cut_cases (c : UInt8) (s : Bytes) :
    c ∉ s ∧ cut c s = (s, s) ∨ ∃ a b, c ∉ a ∧ s = a ++ c :: b ∧ cut c s = (a, b) := by
  by_cases h : c ∈ s
  · obtain ⟨b, hb⟩ := exists_takeWhile_ne h
    have ha := notMem_takeWhile_ne c s
    refine .inr ⟨_, b, ha, hb, ?_⟩
    conv_lhs => rw [hb]
    exact cut_append ha b
  · exact .inl ⟨h, cut_of_notMem h⟩

/-- The calls of `find`, `substr` and `erase` take the method and the target from the first line,
also when it has no spaces. -/
theorem hasTarget_iff {first method target : Bytes} (hm : 32 ∉ method) (hne : method ≠ target) :
    HasTarget first method target ↔
      (cut 32 first).1 = method ∧ (cut 32 (cut 32 first).2).1 = target := by
  constructor
  · rintro ⟨htarget, rfl | ⟨version, rfl⟩⟩
    · rw [cut_append hm, cut_of_notMem htarget]
      exact ⟨rfl, rfl⟩
    · rw [cut_append hm, cut_append htarget]
      exact ⟨rfl, rfl⟩
  · rintro ⟨rfl, rfl⟩
    rcases cut_cases 32 first with ⟨h, hcut⟩ | ⟨a, b, -, rfl, hcut⟩
    · rw [hcut, hcut] at hne
      exact absurd rfl hne
    · rw [hcut]
      rcases cut_cases 32 b with ⟨hb, hcut'⟩ | ⟨target, version, htarget, rfl, hcut'⟩
      · rw [hcut']
        exact ⟨hb, .inl rfl⟩
      · rw [hcut']
        exact ⟨htarget, .inr ⟨version, rfl⟩⟩

section FirstLine

variable {conn is : InStream} {first : Bytes}

/-- The branches of the handler, on a first line. -/
theorem receive_line (hget : conn.getline [] = (first, is)) (memory : Bytes)
    {method uri : Bytes} (hmethod : (cut 32 first).1 = method)
    (huri : (cut 32 (cut 32 first).2).1 = uri) :
    receive conn memory =
      if method ≠ ascii "GET" ∧ method ≠ ascii "POST" ∧ method ≠ ascii "DELETE" then
        .ok (Request.bad, is)
      else if method = ascii "GET" ∧ uri = ascii "/users" then .ok (Request.getUsers, is)
      else if method = ascii "POST" ∧ uri = ascii "/users" then readPost is memory
      else if method = ascii "DELETE" ∧ uri.take 7 = ascii "/users/" then
        if githubIdRegex.fullMatch (uri.drop 7) then .ok (Request.deleteUser (uri.drop 7), is)
        else .ok (Request.bad, is)
      else .ok (Request.bad, is) := by
  subst hmethod huri
  rw [receive, hget]

theorem receive_getUsers (hget : conn.getline [] = (first, is))
    (h : HasTarget first (ascii "GET") (ascii "/users")) (memory : Bytes) :
    receive conn memory = .ok (.getUsers, is) := by
  obtain ⟨hmethod, huri⟩ := (hasTarget_iff (by decide) (by decide)).1 h
  rw [receive_line hget memory hmethod huri]
  rfl

theorem receive_postUsers (hget : conn.getline [] = (first, is))
    (h : HasTarget first (ascii "POST") (ascii "/users")) (memory : Bytes) :
    receive conn memory = readPost is memory := by
  obtain ⟨hmethod, huri⟩ := (hasTarget_iff (by decide) (by decide)).1 h
  rw [receive_line hget memory hmethod huri]
  rfl

theorem delete_ne (id : Bytes) : ascii "DELETE" ≠ ascii "/users/" ++ id := by
  intro h
  have hhead : (some 68 : Option UInt8) = some 47 := congrArg List.head? h
  exact absurd hhead (by decide)

theorem receive_deleteUser (hget : conn.getline [] = (first, is)) {id : Bytes}
    (h : HasTarget first (ascii "DELETE") (ascii "/users/" ++ id))
    (hid : githubIdRegex.fullMatch id) (memory : Bytes) :
    receive conn memory = .ok (.deleteUser id, is) := by
  obtain ⟨hmethod, huri⟩ := (hasTarget_iff (by decide) (delete_ne id)).1 h
  have htake : (ascii "/users/" ++ id).take 7 = ascii "/users/" := List.take_left' rfl
  have hdrop : (ascii "/users/" ++ id).drop 7 = id := List.drop_left' rfl
  rw [receive_line hget memory hmethod huri, htake, hdrop, if_pos hid]
  rfl

/-- Every other first line is refused. -/
theorem receive_bad (hget : conn.getline [] = (first, is))
    (hgetUsers : ¬ HasTarget first (ascii "GET") (ascii "/users"))
    (hpostUsers : ¬ HasTarget first (ascii "POST") (ascii "/users"))
    (hdelete : ∀ id, HasTarget first (ascii "DELETE") (ascii "/users/" ++ id) →
      ¬ githubIdRegex.fullMatch id) (memory : Bytes) :
    receive conn memory = .ok (.bad, is) := by
  rw [hasTarget_iff (by decide) (by decide)] at hgetUsers hpostUsers
  rw [receive_line hget memory rfl rfl, if_neg hgetUsers, if_neg hpostUsers]
  split_ifs with hmethod htake hid
  · rfl
  · have huri := List.take_append_drop 7 (cut 32 (cut 32 first).2).1
    rw [htake.2] at huri
    exact absurd hid (hdelete _ ((hasTarget_iff (by decide) (delete_ne _)).2 ⟨htake.1, huri.symm⟩))
  · rfl
  · rfl

/-- Nothing is read after a first line that is no registration. -/
theorem exists_receive (hget : conn.getline [] = (first, is))
    (hpostUsers : ¬ HasTarget first (ascii "POST") (ascii "/users")) (memory : Bytes) :
    ∃ r, receive conn memory = .ok (r, is) := by
  rw [hasTarget_iff (by decide) (by decide)] at hpostUsers
  rw [receive_line hget memory rfl rfl, if_neg hpostUsers]
  split_ifs
  all_goals exact ⟨_, rfl⟩

end FirstLine

/-! ## Forms -/

/-- A field of a form: what is before its first `=` and what is after it. A piece without `=` is its
own name and value. -/
def fieldOf (piece : Bytes) : Bytes × Bytes :=
  if 61 ∈ piece then (piece.takeWhile (· ≠ 61), (piece.dropWhile (· ≠ 61)).tail)
  else (piece, piece)

/-- The fields of a form, which ends at the first NUL byte of the body. -/
def formOf (body : Bytes) : List (Bytes × Bytes) := ((cstr body).splitOn 38).map fieldOf

/-- The last value of the name. -/
def lastField (name : Bytes) (fields : List (Bytes × Bytes)) : Option Bytes :=
  ((fields.filter (·.1 = name)).getLast?).map Prod.snd

theorem cut_eq_fieldOf (piece : Bytes) : cut 61 piece = fieldOf piece := by
  unfold fieldOf
  split_ifs with h
  · obtain ⟨rest, hrest⟩ := exists_takeWhile_ne h
    have hdrop := List.takeWhile_append_dropWhile (p := (· ≠ 61)) (l := piece)
    conv_rhs at hdrop => rw [hrest]
    rw [cut, List.append_cancel_left hdrop]
    rfl
  · exact cut_of_notMem h

theorem lastField_concat (name : Bytes) (fields : List (Bytes × Bytes)) (field : Bytes × Bytes) :
    lastField name (fields ++ [field]) =
      if field.1 = name then some field.2 else lastField name fields := by
  unfold lastField
  by_cases h : field.1 = name
  · simp [h, List.filter_append]
  · simp [h, List.filter_append]

/-- The loop over the fields keeps the last values. -/
theorem formFields_eq (pieces : List Bytes) :
    formFields pieces = ((lastField (ascii "github_id") (pieces.map fieldOf)).getD [],
      (lastField (ascii "ip_address") (pieces.map fieldOf)).getD []) := by
  induction pieces using List.reverseRec with
  | nil => rfl
  | append_singleton pieces piece ih =>
    have hne : ascii "ip_address" ≠ ascii "github_id" := by decide
    rw [formFields_concat, ih, cut_eq_fieldOf, List.map_append, List.map_singleton,
      lastField_concat, lastField_concat]
    by_cases hid : (fieldOf piece).1 = ascii "github_id"
    · have hip : (fieldOf piece).1 ≠ ascii "ip_address" := hid ▸ hne.symm
      simp only [if_pos hid, if_neg hip, Option.getD_some]
    · by_cases hip : (fieldOf piece).1 = ascii "ip_address"
      · simp only [if_neg hid, if_pos hip, Option.getD_some]
      · simp only [if_neg hid, if_neg hip]

/-- A form without a valid id and a valid address is refused. -/
theorem checkForm_eq_bad {fields : List (Bytes × Bytes)}
    (h : ∀ githubId ipAddress, lastField (ascii "github_id") fields = some githubId →
      lastField (ascii "ip_address") fields = some ipAddress →
      ¬ (githubIdRegex.fullMatch githubId ∧ ipv4AddressRegex.fullMatch ipAddress)) :
    checkForm ((lastField (ascii "github_id") fields).getD [])
      ((lastField (ascii "ip_address") fields).getD []) = .bad := by
  refine if_neg fun hmatch => ?_
  cases hid : lastField (ascii "github_id") fields with
  | none =>
    rw [hid] at hmatch
    exact absurd hmatch.1 (by decide)
  | some githubId =>
    cases hip : lastField (ascii "ip_address") fields with
    | none =>
      rw [hip] at hmatch
      exact absurd hmatch.2 (by decide)
    | some ipAddress =>
      rw [hid, hip] at hmatch
      exact h _ _ hid hip hmatch

/-! ## Complete requests -/

/-- A complete request: a first line, header lines and a body of the size that they give. The `\r`
that ends the first line is part of `first`. -/
structure HttpRequest where
  first : Bytes
  headers : List Bytes
  body : Bytes
  newline : 10 ∉ first
  isHeaderLine : ∀ line ∈ headers, IsHeaderLine line
  length_body : body.length = contentLength headers

namespace HttpRequest

def bytes (q : HttpRequest) : Bytes :=
  q.first ++ 10 :: (headerLines q.headers ++ (crlf ++ q.body))

/-- The request registers the id with the address. -/
structure Registers (q : HttpRequest) (githubId ipAddress : Bytes) : Prop where
  target : HasTarget q.first (ascii "POST") (ascii "/users")
  size : 0 < contentLength q.headers
  githubId_eq : lastField (ascii "github_id") (formOf q.body) = some githubId
  ipAddress_eq : lastField (ascii "ip_address") (formOf q.body) = some ipAddress
  githubId_match : githubIdRegex.fullMatch githubId
  ipAddress_match : ipv4AddressRegex.fullMatch ipAddress

/-- The request deletes the id. -/
structure Deletes (q : HttpRequest) (githubId : Bytes) : Prop where
  target : HasTarget q.first (ascii "DELETE") (ascii "/users/" ++ githubId)
  githubId_match : githubIdRegex.fullMatch githubId

/-- The directory after a complete request, and the answer. -/
inductive Transition (serialize : List Node → Bytes) (q : HttpRequest) (m : NodeManage) :
    NodeManage → Bytes → Prop
  | getUsers (h : HasTarget q.first (ascii "GET") (ascii "/users")) :
      Transition serialize q m m (ascii "HTTP/1.0 200 OK\r\n" ++ (ascii "Cotnent-Length: " ++
        decimal (serialize m.nodeList).length ++ ascii "\r\n") ++ ascii "\r\n" ++
        serialize m.nodeList)
  | addUser {githubId ipAddress} (h : q.Registers githubId ipAddress) :
      Transition serialize q m (m.addUser githubId ipAddress) (ascii "HTTP/1.0 200 OK\r\n\r\n")
  | deleteUser {githubId} (h : q.Deletes githubId) :
      Transition serialize q m (m.deleteUser githubId) (ascii "HTTP/1.0 200 OK\r\n\r\n")
  | bad (hget : ¬ HasTarget q.first (ascii "GET") (ascii "/users"))
      (hadd : ∀ githubId ipAddress, ¬ q.Registers githubId ipAddress)
      (hdelete : ∀ githubId, ¬ q.Deletes githubId) :
      Transition serialize q m m (ascii "HTTP/1.0 400 Bad Request\r\n\r\n")

variable {serialize : List Node → Bytes} {m m' : NodeManage} {reply : Bytes} (q : HttpRequest)

theorem getline_bytes : InStream.getline (.opened q.bytes) [] =
    (q.first, ⟨headerLines q.headers ++ (crlf ++ q.body), false⟩) :=
  InStream.getline_append q.newline _ _

/-- The branch of `POST /users`, on a complete request. -/
theorem readPost_complete (memory : Bytes) :
    readPost ⟨headerLines q.headers ++ (crlf ++ q.body), false⟩ memory =
      .ok (if 0 < contentLength q.headers then
        checkForm ((lastField (ascii "github_id") (formOf q.body)).getD [])
          ((lastField (ascii "ip_address") (formOf q.body)).getD [])
        else .bad, ⟨[], false⟩) := by
  have hbody : (cstr q.body).length < 2 ^ 64 := by
    refine (length_cstr_le q.body).trans_lt ?_
    rw [q.length_body]
    exact (contentLength_lt q.isHeaderLine).trans (by decide)
  rw [readPost, headerLoop_complete q.isHeaderLine, Run.ok_bind]
  by_cases hsize : 0 < contentLength q.headers
  · have hpos : (contentLength q.headers : ℤ) > 0 := by exact_mod_cast hsize
    simp only [if_pos hpos, if_pos hsize, Int.toNat_natCast]
    rw [← q.length_body, readBody_eq, stringSplit_eq hbody, Run.ok_bind, formFields_eq]
    rfl
  · have hzero : ¬ (contentLength q.headers : ℤ) > 0 := by omega
    have hnil : q.body = [] := by
      rw [← List.length_eq_zero_iff, q.length_body]
      omega
    simp only [if_neg hzero, if_neg hsize, hnil]
    rfl

/-- What `Transition` says is what the handler does. No read hits the end of the connection, so the
answer is written. -/
theorem Transition.requestHandler_eq {q : HttpRequest}
    (h : Transition serialize q m m' reply) (memory : Bytes) :
    requestHandler serialize (.opened q.bytes) memory m = .ok (m', reply) := by
  cases h with
  | getUsers h =>
    rw [requestHandler_of_receive (receive_getUsers q.getline_bytes h memory)]
    rfl
  | @addUser githubId ipAddress h =>
    have hform : readPost ⟨headerLines q.headers ++ (crlf ++ q.body), false⟩ memory =
        .ok (.addUser githubId ipAddress, ⟨[], false⟩) := by
      rw [readPost_complete, if_pos h.size, h.githubId_eq, h.ipAddress_eq, Option.getD_some,
        Option.getD_some, checkForm, if_pos ⟨h.githubId_match, h.ipAddress_match⟩]
    rw [requestHandler_of_receive ((receive_postUsers q.getline_bytes h.target memory).trans hform)]
    rfl
  | deleteUser h =>
    rw [requestHandler_of_receive
      (receive_deleteUser q.getline_bytes h.target h.githubId_match memory)]
    rfl
  | bad hget hadd hdelete =>
    have hbad : ∃ rest, receive (.opened q.bytes) memory = .ok (.bad, ⟨rest, false⟩) := by
      by_cases hpost : HasTarget q.first (ascii "POST") (ascii "/users")
      · rw [receive_postUsers q.getline_bytes hpost, readPost_complete]
        split_ifs with hsize
        · rw [checkForm_eq_bad fun githubId ipAddress hid hip hmatch =>
            hadd githubId ipAddress ⟨hpost, hsize, hid, hip, hmatch.1, hmatch.2⟩]
          exact ⟨[], rfl⟩
        · exact ⟨[], rfl⟩
      · exact ⟨_, receive_bad q.getline_bytes hget hpost
          (fun id hid hmatch => hdelete id ⟨hid, hmatch⟩) memory⟩
    obtain ⟨rest, hbad⟩ := hbad
    rw [requestHandler_of_receive hbad]
    rfl

/-- Every complete request has a transition. -/
theorem exists_transition (serialize : List Node → Bytes) (m : NodeManage) :
    ∃ m' reply, Transition serialize q m m' reply := by
  by_cases hget : HasTarget q.first (ascii "GET") (ascii "/users")
  · exact ⟨_, _, .getUsers hget⟩
  · by_cases hadd : ∃ githubId ipAddress, q.Registers githubId ipAddress
    · obtain ⟨githubId, ipAddress, h⟩ := hadd
      exact ⟨_, _, .addUser h⟩
    · by_cases hdelete : ∃ githubId, q.Deletes githubId
      · obtain ⟨githubId, h⟩ := hdelete
        exact ⟨_, _, .deleteUser h⟩
      · exact ⟨_, _, .bad hget (fun id ip h => hadd ⟨id, ip, h⟩) fun id h => hdelete ⟨id, h⟩⟩

/-- **The transition relation.** On a complete request the handler returns, and the directory and
the answer are the ones that `Transition` allows. -/
theorem transition_iff (serialize : List Node → Bytes) (m : NodeManage) (memory : Bytes) :
    (∃ m' reply, requestHandler serialize (.opened q.bytes) memory m = .ok (m', reply)) ∧
      ∀ m' reply, requestHandler serialize (.opened q.bytes) memory m = .ok (m', reply) ↔
        Transition serialize q m m' reply := by
  obtain ⟨m₁, reply₁, h₁⟩ := q.exists_transition serialize m
  have hrun := h₁.requestHandler_eq memory
  refine ⟨⟨m₁, reply₁, hrun⟩, fun m' reply => ⟨fun h => ?_, fun h => h.requestHandler_eq memory⟩⟩
  cases hrun.symm.trans h
  exact h₁

/-- The registration of `a`. -/
def exampleRegistration : HttpRequest where
  first := ascii "POST /users HTTP/1.1\r"
  headers := [ascii "Host: 127.0.0.1:31337", ascii "Content-Length: 31"]
  body := ascii "github_id=a&ip_address=10.0.0.1"
  newline := by decide
  isHeaderLine := by
    have hhost : IsHeader (ascii "Host: 127.0.0.1:31337") := ⟨by decide, by decide, by decide⟩
    have hdigits : ∀ c ∈ (ascii "Content-Length: 31").drop 16, isDigit c :=
      List.all_eq_true.1 (by decide)
    rw [List.forall_mem_cons, List.forall_mem_singleton]
    exact ⟨hhost.isHeaderLine, by decide, by decide, fun _ => ⟨by decide, hdigits, by decide⟩⟩
  length_body := by decide

/-- It enters `a`, and is answered. -/
theorem transition_iff_example :
    requestHandler NodeList.serialize (.opened exampleRegistration.bytes) [] ⟨[]⟩ =
      .ok (⟨[⟨ascii "a", ascii "10.0.0.1"⟩]⟩, ascii "HTTP/1.0 200 OK\r\n\r\n") :=
  ((exampleRegistration.transition_iff NodeList.serialize ⟨[]⟩ []).2 _ _).2 <|
    .addUser ⟨⟨by decide, .inr ⟨ascii "HTTP/1.1\r", by decide⟩⟩, by decide, by decide, by decide,
      by decide, by decide⟩

end HttpRequest

/-! ## Whatever a client sends -/

/-- The first line of what a client sends. -/
def firstLine (input : Bytes) : Bytes := input.takeWhile (· ≠ 10)

/-- What comes after the newline that ends it. -/
def afterFirst (input : Bytes) : Bytes := (input.dropWhile (· ≠ 10)).tail

/-- What a turn of the loop over the header lines leaves of a line. -/
def headerText (line : Bytes) : Bytes :=
  if ascii "Content-Length: " <+: line then line.drop 16 else line

/-- `stoi` accepts the size that a line gives, if it gives one. -/
def Accepted (line : Bytes) : Prop :=
  ascii "Content-Length: " <+: line → ∃ n, stoi (line.drop 16) = .ok n

/-- The size after a line, when it was `n` before. -/
def sizeAfter (n : ℤ) (line : Bytes) : ℤ :=
  if ascii "Content-Length: " <+: line then (stoi (line.drop 16)).toOption.getD n else n

/-- Lines, each with the newline that ends it. -/
def terminated (lines : List Bytes) : Bytes := lines.flatMap (· ++ [10])

/-- What follows the first line of a registration is there: the header lines up to the first one of
which one byte is left, all sizes in them accepted, and as many bytes after them as the last of
these sizes says. `n` is the size before the first of them. -/
def IsThere (n : ℤ) (rest : Bytes) : Prop :=
  ∃ before line body, rest = terminated (before ++ [line]) ++ body ∧
    (∀ l ∈ before ++ [line], 10 ∉ l ∧ Accepted l) ∧
    (∀ l ∈ before, (headerText l).length ≠ 1) ∧ (headerText line).length = 1 ∧
    (before ++ [line]).foldl sizeAfter n ≤ body.length

theorem mem_of_isThere {n : ℤ} {rest : Bytes} (h : IsThere n rest) : 10 ∈ rest := by
  obtain ⟨before, line, body, rfl, -⟩ := h
  simp [terminated]

/-- The first of the header lines. -/
theorem isThere_cons {line rest : Bytes} {n : ℤ} (hline : 10 ∉ line) :
    IsThere n (line ++ 10 :: rest) ↔ Accepted line ∧
      ((headerText line).length = 1 ∧ sizeAfter n line ≤ rest.length ∨
        (headerText line).length ≠ 1 ∧ IsThere (sizeAfter n line) rest) := by
  constructor
  · rintro ⟨before, l, body, heq, hall, hbefore, hl, hsize⟩
    -- both sides start with a line and its newline
    have hsplit {l' : Bytes} {rest' : Bytes} (hl' : 10 ∉ l')
        (h : line ++ 10 :: rest = l' ++ 10 :: rest') : line = l' ∧ rest = rest' := by
      have hget := InStream.getline_append hline rest []
      rw [h, InStream.getline_append hl' rest' []] at hget
      cases hget
      exact ⟨rfl, rfl⟩
    cases before with
    | nil =>
      obtain ⟨rfl, rfl⟩ := @hsplit l body (hall l (by simp)).1 (heq.trans (by simp [terminated]))
      exact ⟨(hall _ (by simp)).2, .inl ⟨hl, hsize⟩⟩
    | cons b before =>
      obtain ⟨rfl, rfl⟩ := @hsplit b (terminated (before ++ [l]) ++ body) (hall b (by simp)).1
        (heq.trans (by simp [terminated]))
      exact ⟨(hall _ (by simp)).2, .inr ⟨hbefore _ List.mem_cons_self, before, l, body, rfl,
        fun l' hl' => hall l' (List.mem_cons_of_mem _ hl'),
        fun l' hl' => hbefore l' (List.mem_cons_of_mem _ hl'), hl, hsize⟩⟩
  · rintro ⟨hacc, ⟨hlen, hsize⟩ | ⟨hlen, before, l, body, rfl, hall, hbefore, hl, hsize⟩⟩
    · exact ⟨[], line, rest, by simp [terminated], by simp [hline, hacc], by simp, hlen, hsize⟩
    · refine ⟨line :: before, l, body, by simp [terminated], ?_, ?_, hl, hsize⟩
      · exact List.forall_mem_cons.2 ⟨⟨hline, hacc⟩, hall⟩
      · exact List.forall_mem_cons.2 ⟨hlen, hbefore⟩

/-- One turn of the loop. -/
theorem headerLoop_turn {is is' : InStream} {temp got : Bytes} (he : is.eof = false)
    (hget : is.getline temp = (got, is')) (n : ℤ) (r : ℤ × InStream) :
    headerLoop is temp n = .ok r ↔ Accepted got ∧
      ((headerText got).length = 1 ∧ (sizeAfter n got, is') = r ∨
        (headerText got).length ≠ 1 ∧
          headerLoop is' (headerText got) (sizeAfter n got) = .ok r) := by
  by_cases hsize : ascii "Content-Length: " <+: got
  · obtain ⟨text, rfl⟩ := hsize
    have hpre : ascii "Content-Length: " <+: ascii "Content-Length: " ++ text :=
      List.prefix_append _ _
    have hdrop : (ascii "Content-Length: " ++ text).drop 16 = text := List.drop_left' rfl
    rw [headerLoop_size he hget, Accepted, headerText, sizeAfter, if_pos hpre, if_pos hpre, hdrop]
    cases hstoi : stoi text with
    | error e =>
      constructor
      · intro hr
        cases hr
      · rintro ⟨hacc, -⟩
        obtain ⟨n', hn'⟩ := hacc hpre
        cases hn'
    | ok n' =>
      rw [Run.ok_bind]
      by_cases hlen : text.length = 1
      · simp [hlen, Except.toOption]
      · simp [hlen, Except.toOption]
  · have hacc : Accepted got := fun h => absurd h hsize
    rw [headerLoop_other he hget hsize, headerText, sizeAfter, if_neg hsize, if_neg hsize]
    by_cases hlen : got.length = 1
    · simp [hlen, hacc]
    · simp [hlen, hacc]

/-- At the end of the stream the loop goes on forever. -/
theorem headerLoop_end (rest temp : Bytes) (n : ℤ) :
    headerLoop ⟨rest, true⟩ temp n = .error .diverges := by
  rw [headerLoop]
  simp

/-- **The loop over the header lines leaves a body of the size it has found** exactly when header
lines and body are there. -/
theorem headerLoop_leaves_iff (rest temp : Bytes) (n : ℤ) :
    (∃ size body, headerLoop ⟨rest, false⟩ temp n = .ok (size, ⟨body, false⟩) ∧
      size ≤ (body.length : ℤ)) ↔ IsThere n rest := by
  induction hk : rest.length using Nat.strongRecOn generalizing rest temp n with
  | ind k ih =>
    by_cases h10 : 10 ∈ rest
    · obtain ⟨after, hafter⟩ := exists_takeWhile_ne h10
      have hline := notMem_takeWhile_ne 10 rest
      generalize rest.takeWhile (· ≠ 10) = line at hafter hline
      subst hafter
      have hlt : after.length < k := by
        rw [← hk, List.length_append, List.length_cons]
        omega
      rw [isThere_cons hline, ← ih _ hlt after (headerText line) (sizeAfter n line) rfl]
      simp only [headerLoop_turn rfl (InStream.getline_append hline after temp)]
      constructor
      · rintro ⟨size, body, ⟨hacc, ⟨hlen, heq⟩ | ⟨hlen, hloop⟩⟩, hsize⟩
        · cases heq
          exact ⟨hacc, .inl ⟨hlen, hsize⟩⟩
        · exact ⟨hacc, .inr ⟨hlen, size, body, hloop, hsize⟩⟩
      · rintro ⟨hacc, ⟨hlen, hsize⟩ | ⟨hlen, size, body, hloop, hsize⟩⟩
        · exact ⟨_, _, ⟨hacc, .inl ⟨hlen, rfl⟩⟩, hsize⟩
        · exact ⟨size, body, ⟨hacc, .inr ⟨hlen, hloop⟩⟩, hsize⟩
    · -- the last line, which the end of the stream ends
      refine iff_of_false ?_ fun h => h10 (mem_of_isThere h)
      rintro ⟨size, body, hloop, -⟩
      rcases (headerLoop_turn rfl (InStream.getline_of_notMem h10 temp) n _).1 hloop with
        ⟨-, ⟨-, heq⟩ | ⟨-, hloop⟩⟩
      · cases heq
      · rw [headerLoop_end] at hloop
        cases hloop

/-- The branch of `POST /users` has all it reads exactly when header lines and body are there. -/
theorem readPost_open_iff (rest memory : Bytes) :
    (∃ r is, readPost ⟨rest, false⟩ memory = .ok (r, is) ∧ is.eof = false) ↔ IsThere 0 rest := by
  rw [← headerLoop_leaves_iff rest [] 0]
  constructor
  · rintro ⟨r, is, hr, he⟩
    obtain ⟨⟨size, ⟨body, eof⟩⟩, hloop, hr⟩ := Run.bind_eq_ok.1 hr
    dsimp only at hr
    split_ifs at hr with hpos
    · obtain ⟨output, -, hr⟩ := Run.bind_eq_ok.1 hr
      cases hr
      change (InStream.read ⟨body, eof⟩ size.toNat).2.eof = false at he
      cases eof with
      | true => cases he
      | false =>
        refine ⟨size, body, hloop, not_lt.1 fun hlt => ?_⟩
        rw [InStream.read_of_lt (by omega)] at he
        cases he
    · cases hr
      obtain rfl : eof = false := he
      exact ⟨size, body, hloop, by omega⟩
  · rintro ⟨size, body, hloop, hsize⟩
    rw [readPost, hloop, Run.ok_bind]
    dsimp only
    split_ifs with hpos
    · obtain ⟨pieces, hpieces⟩ := exists_stringSplitLoop
        (readBody ⟨body, false⟩ size.toNat memory).1 38 (Nat.zero_le _)
      rw [stringSplit, hpieces]
      refine ⟨_, _, rfl, ?_⟩
      change (InStream.read ⟨body, false⟩ size.toNat).2.eof = false
      rw [InStream.read_of_le (by omega)]
    · exact ⟨_, _, rfl, rfl⟩

/-- **What a client sends is read without hitting its end** exactly when the first line is there
and, for a registration, its header lines and its body. -/
theorem receive_open_iff (input memory : Bytes) :
    (∃ r is, receive (.opened input) memory = .ok (r, is) ∧ is.eof = false) ↔
      10 ∈ input ∧ (HasTarget (firstLine input) (ascii "POST") (ascii "/users") →
        IsThere 0 (afterFirst input)) := by
  by_cases h10 : 10 ∈ input
  · obtain ⟨rest, hrest⟩ := exists_takeWhile_ne h10
    have hfirst : 10 ∉ firstLine input := notMem_takeWhile_ne 10 input
    change input = firstLine input ++ 10 :: rest at hrest
    have hget : InStream.getline (.opened input) [] = (firstLine input, ⟨rest, false⟩) := by
      conv_lhs => rw [hrest]
      exact InStream.getline_append hfirst rest []
    have hafter : afterFirst input = rest := by
      rw [afterFirst, hrest, dropWhile_ne_append hfirst, List.tail_cons]
    rw [hafter]
    by_cases hpost : HasTarget (firstLine input) (ascii "POST") (ascii "/users")
    · rw [receive_postUsers hget hpost, readPost_open_iff]
      exact ⟨fun h => ⟨h10, fun _ => h⟩, fun h => h.2 hpost⟩
    · obtain ⟨r, hr⟩ := exists_receive hget hpost memory
      exact iff_of_true ⟨r, _, hr, rfl⟩ ⟨h10, fun h => absurd h hpost⟩
  · refine iff_of_false ?_ fun h => h10 h.1
    rintro ⟨r, is, hr, he⟩
    have hget : InStream.getline (.opened input) [] = (input, ⟨[], true⟩) :=
      InStream.getline_of_notMem h10 []
    by_cases hpost : HasTarget input (ascii "POST") (ascii "/users")
    · rw [receive_postUsers hget hpost] at hr
      obtain ⟨x, hloop, -⟩ := Run.bind_eq_ok.1 hr
      rw [headerLoop_end] at hloop
      cases hloop
    · obtain ⟨r', hr'⟩ := exists_receive hget hpost memory
      cases hr.symm.trans hr'
      cases he

/-- A single response. -/
def IsAnswer (reply : Bytes) : Prop :=
  ascii "HTTP/1.0 200 OK\r\n" <+: reply ∨ reply = ascii "HTTP/1.0 400 Bad Request\r\n\r\n"

theorem isAnswer_serve (serialize : List Node → Bytes) (m : NodeManage) (r : Request) :
    IsAnswer (m.serve serialize r).2 := by
  cases r with
  | getUsers =>
    left
    simp only [NodeManage.serve, List.append_assoc]
    exact List.prefix_append _ _
  | addUser => exact .inl ⟨ascii "\r\n", rfl⟩
  | deleteUser => exact .inl ⟨ascii "\r\n", rfl⟩
  | bad => exact .inr rfl

theorem not_isAnswer_nil : ¬ IsAnswer [] := by
  rintro (hpre | heq)
  · exact absurd (List.prefix_nil.1 hpre) (by decide)
  · exact absurd heq (by decide)

/-- **The handler answers what a client sends** exactly when the first line is there and, for a
registration, its header lines and its body. -/
theorem answers_iff (serialize : List Node → Bytes) (input memory : Bytes) (m : NodeManage) :
    (∃ m' reply, requestHandler serialize (.opened input) memory m = .ok (m', reply) ∧
      IsAnswer reply) ↔
    10 ∈ input ∧ (HasTarget (firstLine input) (ascii "POST") (ascii "/users") →
      IsThere 0 (afterFirst input)) := by
  rw [← receive_open_iff input memory]
  constructor
  · rintro ⟨m', reply, h, hreply⟩
    obtain ⟨⟨r, is⟩, hr, -⟩ := Run.bind_eq_ok.1 h
    refine ⟨r, is, hr, Bool.eq_false_iff.2 fun he => ?_⟩
    cases (requestHandler_of_receive hr m).symm.trans h
    rw [InStream.written, if_pos he] at hreply
    exact not_isAnswer_nil hreply
  · rintro ⟨r, is, hr, he⟩
    refine ⟨_, _, requestHandler_of_receive hr m, ?_⟩
    rw [InStream.written, if_neg (by simp [he])]
    exact isAnswer_serve serialize m r

/-- A registration that is cut off after its first line. -/
def exampleCutOff : Bytes := ascii "POST /users HTTP/1.1" ++ crlf

/-- It is not answered. -/
theorem not_answers_cutOff :
    ¬ ∃ m' reply, requestHandler NodeList.serialize (.opened exampleCutOff) [] ⟨[]⟩ =
      .ok (m', reply) ∧ IsAnswer reply := by
  rintro ⟨m', reply, h, -⟩
  obtain ⟨⟨r, is⟩, hr, -⟩ := Run.bind_eq_ok.1 h
  have hget : InStream.getline (.opened exampleCutOff) [] =
      (ascii "POST /users HTTP/1.1" ++ [13], ⟨[], false⟩) := by decide
  rw [receive_postUsers hget ⟨by decide, .inr ⟨ascii "HTTP/1.1" ++ [13], rfl⟩⟩] at hr
  obtain ⟨⟨size, is'⟩, hloop, -⟩ := Run.bind_eq_ok.1 hr
  rcases (headerLoop_turn rfl (InStream.getline_of_notMem List.not_mem_nil []) 0 _).1 hloop with
    ⟨-, ⟨hlen, -⟩ | ⟨-, hloop⟩⟩
  · exact absurd hlen (by decide)
  · rw [headerLoop_end] at hloop
    cases hloop

end Onion5
