import Onion5.Server.Requests
import Onion5.Server.Patterns

/-!
# The REST client

The model of `Client_REST` and `HTTP`, as far as they register and delete nodes. libcurl is not part
of the repository: the bytes it writes on the connection are a function of the options set, and
results say what they need of it.

* `readRequest_addNode`: the server reads the form of a registration up to its first NUL byte.
* `readForm_addNodeForm`: the address of a form without NUL bytes is the one it ends with.
* `readRequest_deleteNode`: the deletion of an id is read as such.
-/

namespace Onion5

/-- What libcurl writes to post the form given as `CURLOPT_POSTFIELDS` to a URL. -/
abbrev Curl := Bytes → Bytes → Bytes

/-- `Client_REST::base_url`. -/
def baseUrl : Bytes := ascii "http://127.0.0.1:31337/users"

/-- `HTTP::_post`: the request. Both options are set to C strings. -/
def httpPost (curl : Curl) (url content : Bytes) : Bytes := curl (cstr url) (cstr content)

/-- The form of `Client_REST::add_node`. -/
def addNodeForm (githubId ipAddress : Bytes) : Bytes :=
  ascii "github_id=" ++ githubId ++ ascii "&ip_address=" ++ ipAddress

/-- `Client_REST::add_node`: the request. -/
def addNode (curl : Curl) (githubId ipAddress : Bytes) : Bytes :=
  httpPost curl baseUrl (addNodeForm githubId ipAddress)

/-- libcurl writes a well-formed request with the form and its size. -/
def Curl.Posts (curl : Curl) : Prop :=
  ∀ form, ∃ before after : List Bytes, (∀ line ∈ before, IsHeader line) ∧
    (∀ line ∈ after, IsHeader line) ∧ curl baseUrl form = postRequest before after form

/-- The form as libcurl sees it: an id with a NUL byte cuts it. -/
theorem cstr_addNodeForm_of_mem {githubId : Bytes} (h : 0 ∈ githubId) (ipAddress : Bytes) :
    cstr (addNodeForm githubId ipAddress) = ascii "github_id=" ++ cstr githubId := by
  obtain ⟨rest, hrest⟩ := exists_takeWhile_ne h
  have hform : addNodeForm githubId ipAddress = ascii "github_id=" ++ cstr githubId ++
      0 :: (rest ++ ascii "&ip_address=" ++ ipAddress) := by
    rw [addNodeForm]
    conv_lhs => rw [hrest]
    simp [cstr]
  rw [hform, cstr_append_zero]
  rw [List.mem_append, not_or]
  exact ⟨by decide, zero_notMem_cstr githubId⟩

theorem cstr_addNodeForm {githubId ipAddress : Bytes} (h : 0 ∉ githubId) (h' : 0 ∉ ipAddress) :
    cstr (addNodeForm githubId ipAddress) = addNodeForm githubId ipAddress := by
  refine cstr_eq_self ?_
  simp only [addNodeForm, List.mem_append, not_or]
  exact ⟨⟨⟨by decide, h⟩, by decide⟩, h'⟩

/-- The two fields of a form, of which the id may hold more. -/
theorem splitOn_addNodeForm (githubId : Bytes) {ipAddress : Bytes} (h : 38 ∉ ipAddress) :
    (addNodeForm githubId ipAddress).splitOn 38 =
      (ascii "github_id" ++ 61 :: githubId).splitOn 38 ++
        [ascii "ip_address" ++ 61 :: ipAddress] := by
  have hform : addNodeForm githubId ipAddress = (ascii "github_id" ++ 61 :: githubId) ++
      38 :: (ascii "ip_address" ++ 61 :: ipAddress) := by
    simp only [addNodeForm, List.append_assoc]
    rfl
  have hlast : 38 ∉ ascii "ip_address" ++ 61 :: ipAddress := by
    simp only [List.mem_append, List.mem_cons, not_or]
    exact ⟨by decide, by decide, h⟩
  rw [hform, List.splitOn_append_cons_self, List.splitOn_eq_singleton hlast]

/-- **The address of a whole form is the one it ends with**, whatever the id is. -/
theorem readForm_addNodeForm (githubId : Bytes) {ipAddress : Bytes} (h : 38 ∉ ipAddress) :
    ∃ id, readForm (addNodeForm githubId ipAddress) = checkForm id ipAddress := by
  refine ⟨(formFields ((ascii "github_id" ++ 61 :: githubId).splitOn 38)).1, ?_⟩
  rw [readForm, splitOn_addNodeForm githubId h, formFields_concat, cut_append (by decide)]
  rfl

/-- **A valid id and a valid address are registered as they are.** -/
theorem readForm_addNodeForm_of_valid {githubId ipAddress : Bytes}
    (hid : githubIdRegex.fullMatch githubId) (hip : ipv4AddressRegex.fullMatch ipAddress)
    (h : 38 ∉ ipAddress) :
    readForm (addNodeForm githubId ipAddress) = .addUser githubId ipAddress := by
  have hfst : 38 ∉ ascii "github_id" ++ 61 :: githubId := by
    simp only [List.mem_append, List.mem_cons, not_or]
    exact ⟨by decide, by decide, notMem_of_githubId hid rfl (by decide)⟩
  have hfields : formFields ((addNodeForm githubId ipAddress).splitOn 38) =
      (githubId, ipAddress) := by
    rw [splitOn_addNodeForm githubId h, List.splitOn_eq_singleton hfst]
    simp only [formFields, List.singleton_append, List.foldl_cons, List.foldl_nil,
      cut_append (show 61 ∉ ascii "github_id" by decide),
      cut_append (show 61 ∉ ascii "ip_address" by decide)]
    rfl
  rw [readForm, hfields, checkForm, if_pos ⟨hid, hip⟩]

/-- **What a registration asks the server for**. -/
theorem readRequest_addNode {curl : Curl} (hcurl : curl.Posts) {githubId ipAddress : Bytes}
    (hlen : githubId.length + ipAddress.length < 2 ^ 30) (memory : Bytes) :
    readRequest (.opened (addNode curl githubId ipAddress)) memory =
      .ok (readForm (cstr (addNodeForm githubId ipAddress))) := by
  obtain ⟨before, after, hbefore, hafter, hpost⟩ :=
    hcurl (cstr (addNodeForm githubId ipAddress))
  have hurl : cstr baseUrl = baseUrl := by decide
  rw [addNode, httpPost, hurl, hpost]
  refine readRequest_post hbefore hafter ?_ ?_ (zero_notMem_cstr _) memory
  · refine lt_of_le_of_lt (length_cstr_le _) ?_
    have hascii : (ascii "github_id=").length + (ascii "&ip_address=").length = 22 := by decide
    simp only [addNodeForm, List.length_append]
    omega
  · rw [addNodeForm, List.append_assoc, List.append_assoc, cstr_append (by decide)]
    exact List.append_ne_nil_of_left_ne_nil (by decide) _

/-- The requests of a libcurl that adds no other header lines than its usual ones. -/
def exampleCurl : Curl := fun _ form =>
  postRequest [ascii "Host: 127.0.0.1:31337", ascii "Accept: */*"]
    [ascii "Content-Type: application/x-www-form-urlencoded"] form

theorem posts_exampleCurl : exampleCurl.Posts := by
  refine fun form => ⟨_, _, ?_, ?_, rfl⟩
  · rw [List.forall_mem_cons, List.forall_mem_singleton]
    exact ⟨⟨by decide, by decide, by decide⟩, by decide, by decide, by decide⟩
  · rw [List.forall_mem_singleton]
    exact ⟨by decide, by decide, by decide⟩

/-! ## Deleting nodes -/

/-- What libcurl writes to a URL with the `CURLOPT_CUSTOMREQUEST` of `HTTP::_delete`. -/
abbrev CurlDelete := Bytes → Bytes

/-- `HTTP::_delete`: the request. -/
def httpDelete (curl : CurlDelete) (url : Bytes) : Bytes := curl (cstr url)

/-- `Client_REST::delete_node`: the request. -/
def deleteNode (curl : CurlDelete) (githubId : Bytes) : Bytes :=
  httpDelete curl (baseUrl ++ ascii "/" ++ githubId)

/-- libcurl writes a well-formed request for the URL of an id. -/
def CurlDelete.Deletes (curl : CurlDelete) : Prop :=
  ∀ githubId, githubIdRegex.fullMatch githubId →
    ∃ lines : List Bytes, (∀ line ∈ lines, IsHeader line) ∧
      curl (baseUrl ++ ascii "/" ++ githubId) =
        ascii "DELETE /users/" ++ githubId ++ ascii " HTTP/1.1" ++ crlf ++
          (headerLines lines ++ crlf)

/-- **What a deletion asks the server for**. -/
theorem readRequest_deleteNode {curl : CurlDelete} (hcurl : curl.Deletes) {githubId : Bytes}
    (hid : githubIdRegex.fullMatch githubId) (memory : Bytes) :
    readRequest (.opened (deleteNode curl githubId)) memory = .ok (.deleteUser githubId) := by
  obtain ⟨lines, -, hcurl⟩ := hcurl githubId hid
  have h0 : (0 : UInt8) ∉ githubId := notMem_of_githubId hid rfl (by decide)
  have hurl : cstr (baseUrl ++ ascii "/" ++ githubId) = baseUrl ++ ascii "/" ++ githubId := by
    refine cstr_eq_self ?_
    rw [List.mem_append, not_or]
    exact ⟨by decide, h0⟩
  have huri : ascii "DELETE /users/" ++ githubId ++ ascii " HTTP/1.1" =
      ascii "DELETE" ++ 32 :: (ascii "/users/" ++ githubId ++ 32 :: ascii "HTTP/1.1") := by
    simp only [List.append_assoc]
    rfl
  have hspace : (32 : UInt8) ∉ ascii "/users/" ++ githubId := by
    rw [List.mem_append, not_or]
    exact ⟨by decide, notMem_of_githubId hid rfl (by decide)⟩
  have hline : (10 : UInt8) ∉ ascii "DELETE /users/" ++ githubId ++ ascii " HTTP/1.1" := by
    simp only [List.mem_append, not_or]
    exact ⟨⟨by decide, notMem_of_githubId hid rfl (by decide)⟩, by decide⟩
  have htake : (ascii "/users/" ++ githubId).take 7 = ascii "/users/" := List.take_left' rfl
  have hdrop : (ascii "/users/" ++ githubId).drop 7 = githubId := List.drop_left' rfl
  refine readRequest_eq_ok_iff.2 ⟨⟨headerLines lines ++ crlf, false⟩, ?_⟩
  rw [deleteNode, httpDelete, hurl, hcurl, receive, InStream.opened, getline_crlf _ _ hline, huri]
  simp only [List.append_assoc, List.cons_append]
  rw [cut_append (by decide), ← List.append_assoc, cut_append hspace]
  simp only [htake, hdrop, hid]
  rfl

/-- The deletions of a libcurl that adds no other header lines than its usual ones. -/
def exampleCurlDelete : CurlDelete := fun url =>
  ascii "DELETE " ++ url.drop 22 ++ ascii " HTTP/1.1" ++ crlf ++
    (headerLines [ascii "Host: 127.0.0.1:31337", ascii "Accept: */*"] ++ crlf)

theorem deletes_exampleCurlDelete : exampleCurlDelete.Deletes := by
  intro githubId _
  refine ⟨_, ?_, rfl⟩
  rw [List.forall_mem_cons, List.forall_mem_singleton]
  exact ⟨⟨by decide, by decide, by decide⟩, by decide, by decide, by decide⟩

end Onion5
