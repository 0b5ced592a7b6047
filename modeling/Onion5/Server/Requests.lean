import Onion5.Server.RestServer

/-!
# Well-formed requests

What the handler reads of a request that follows the protocol: header lines that end with `\r\n`,
one of them with the size of the body, an empty line, and the body.

* `headerLoop_complete`: the header loop gives the size that the last header line with one gives.
* `readRequest_post`: a form is read as its fields, whatever the other header lines.
* `formFields_concat`: the last value of a field is the one that counts.
-/

namespace Onion5

def crlf : Bytes := [13, 10]

/-- A header line, without its `\r\n`, that says nothing about the size of the body. -/
structure IsHeader (line : Bytes) : Prop where
  ne_nil : line ≠ []
  newline : 10 ∉ line
  size : ¬ ascii "Content-Length: " <+: line

/-- A header line, without its `\r\n`. The size of a body is decimal, and an `int` can hold it. -/
structure IsHeaderLine (line : Bytes) : Prop where
  ne_nil : line ≠ []
  newline : 10 ∉ line
  size : ascii "Content-Length: " <+: line → line.drop 16 ≠ [] ∧
    (∀ c ∈ line.drop 16, isDigit c) ∧ ofDecimal (line.drop 16) < 2 ^ 31

theorem IsHeader.isHeaderLine {line : Bytes} (h : IsHeader line) : IsHeaderLine line :=
  ⟨h.ne_nil, h.newline, fun hsize => absurd hsize h.size⟩

/-- Header lines. -/
def headerLines (lines : List Bytes) : Bytes := lines.flatMap (· ++ crlf)

/-- The size that a header line gives. -/
def headerSize (line : Bytes) : Option ℕ :=
  if ascii "Content-Length: " <+: line then some (ofDecimal (line.drop 16)) else none

/-- The size of the body: the last one that a header line gives. -/
def contentLength (lines : List Bytes) : ℕ := ((lines.filterMap headerSize).getLast?).getD 0

theorem contentLength_lt {lines : List Bytes} (h : ∀ line ∈ lines, IsHeaderLine line) :
    contentLength lines < 2 ^ 31 := by
  rw [contentLength]
  cases hlast : (lines.filterMap headerSize).getLast? with
  | none => exact Nat.two_pow_pos 31
  | some size =>
    obtain ⟨line, hline, hsize⟩ := List.mem_filterMap.1 (List.mem_of_getLast? hlast)
    unfold headerSize at hsize
    split_ifs at hsize with hpre
    cases hsize
    exact ((h line hline).size hpre).2.2

/-! ## The loop over the header lines -/

section Headers

variable {line : Bytes} (rest temp : Bytes) (n : ℤ)

theorem getline_crlf (h : 10 ∉ line) :
    InStream.getline ⟨line ++ crlf ++ rest, false⟩ temp = (line ++ [13], ⟨rest, false⟩) := by
  rw [show line ++ crlf ++ rest = (line ++ [13]) ++ 10 :: rest by simp [crlf]]
  refine InStream.getline_append ?_ rest temp
  simpa using h

/-- A turn of the loop on a line without a size. -/
theorem headerLoop_other {is is' : InStream} {temp got : Bytes} (he : is.eof = false)
    (hget : is.getline temp = (got, is')) (hsize : ¬ ascii "Content-Length: " <+: got) (n : ℤ) :
    headerLoop is temp n = if got.length ≠ 1 then headerLoop is' got n else .ok (n, is') := by
  have htake : got.take 16 ≠ ascii "Content-Length: " :=
    fun htake => hsize (htake ▸ List.take_prefix 16 got)
  rw [headerLoop]
  simp [he, hget, htake]

/-- A turn of the loop on a line with a size. -/
theorem headerLoop_size {is is' : InStream} {temp got : Bytes} (he : is.eof = false)
    (hget : is.getline temp = (ascii "Content-Length: " ++ got, is')) (n : ℤ) :
    headerLoop is temp n = stoi got >>= fun n' =>
      if got.length ≠ 1 then headerLoop is' got n' else .ok (n', is') := by
  have htake : (ascii "Content-Length: " ++ got).take 16 = ascii "Content-Length: " :=
    List.take_left' rfl
  have hdrop : (ascii "Content-Length: " ++ got).drop 16 = got := List.drop_left' rfl
  rw [headerLoop]
  simp only [he, hget, htake, hdrop, decide_true, if_true, Bool.false_eq_true, dite_false]
  rfl

/-- The loop goes on after every header line, with the size that it gives. -/
theorem headerLoop_line (h : IsHeaderLine line) :
    ∃ temp', headerLoop ⟨line ++ crlf ++ rest, false⟩ temp n =
      headerLoop ⟨rest, false⟩ temp' (((headerSize line).map Nat.cast).getD n) := by
  by_cases hsize : ascii "Content-Length: " <+: line
  · obtain ⟨digits, rfl⟩ := hsize
    obtain ⟨hne, hdigits, hlt⟩ := h.size (List.prefix_append _ _)
    have hdrop : (ascii "Content-Length: " ++ digits).drop 16 = digits := List.drop_left' rfl
    rw [hdrop] at hne hdigits hlt
    have hget := getline_crlf rest temp h.newline
    rw [List.append_assoc _ digits [13]] at hget
    have hlen : (digits ++ [13]).length ≠ 1 := by
      have := List.length_pos_iff.2 hne
      rw [List.length_append, List.length_singleton]
      omega
    refine ⟨digits ++ [13], ?_⟩
    rw [headerLoop_size rfl hget, stoi_digits hne hdigits hlt rfl (by decide) List.not_mem_nil,
      Run.ok_bind, if_pos hlen, headerSize, if_pos (List.prefix_append _ _), hdrop]
    rfl
  · have hother : ¬ ascii "Content-Length: " <+: line ++ [13] := by
      intro hpre
      rcases List.prefix_concat_iff.1 hpre with heq | hpre
      · have hlast := congrArg List.getLast? heq
        rw [List.getLast?_concat] at hlast
        cases hlast
      · exact hsize hpre
    have hlen : (line ++ [13]).length ≠ 1 := by
      have := List.length_pos_iff.2 h.ne_nil
      rw [List.length_append, List.length_singleton]
      omega
    refine ⟨line ++ [13], ?_⟩
    rw [headerLoop_other rfl (getline_crlf rest temp h.newline) hother, if_pos hlen, headerSize,
      if_neg hsize]
    rfl

theorem headerLoop_blank :
    headerLoop ⟨crlf ++ rest, false⟩ temp n = .ok (n, ⟨rest, false⟩) := by
  have hget : InStream.getline ⟨[] ++ crlf ++ rest, false⟩ temp = ([] ++ [13], ⟨rest, false⟩) :=
    getline_crlf rest temp List.not_mem_nil
  exact headerLoop_other rfl hget (by decide) n

/-- The last size counts. -/
theorem headerLoop_lines {lines : List Bytes} (h : ∀ line ∈ lines, IsHeaderLine line) :
    ∃ temp', headerLoop ⟨headerLines lines ++ rest, false⟩ temp n =
      headerLoop ⟨rest, false⟩ temp'
        ((((lines.filterMap headerSize).getLast?).map Nat.cast).getD n) := by
  induction lines generalizing temp n with
  | nil => exact ⟨temp, rfl⟩
  | cons line lines ih =>
    obtain ⟨temp₁, hline⟩ :=
      headerLoop_line (headerLines lines ++ rest) temp n (h line List.mem_cons_self)
    obtain ⟨temp₂, hlines⟩ := ih temp₁ (((headerSize line).map Nat.cast).getD n)
      fun l hl => h l (List.mem_cons_of_mem _ hl)
    refine ⟨temp₂, ?_⟩
    rw [headerLines, List.flatMap_cons, List.append_assoc, ← headerLines, hline, hlines,
      List.filterMap_cons]
    cases headerSize line with
    | none => rfl
    | some k =>
      have hlast : (k :: lines.filterMap headerSize).getLast? =
        some (((lines.filterMap headerSize).getLast?).getD k) := List.getLast?_cons
      simp only [hlast]
      cases (lines.filterMap headerSize).getLast? <;> rfl

/-- **The loop finds the size of the body and stops before the body.** -/
theorem headerLoop_complete {lines : List Bytes} (h : ∀ line ∈ lines, IsHeaderLine line)
    (body : Bytes) :
    headerLoop ⟨headerLines lines ++ (crlf ++ body), false⟩ [] 0 =
      .ok ((contentLength lines : ℤ), ⟨body, false⟩) := by
  obtain ⟨temp', hlines⟩ := headerLoop_lines (crlf ++ body) [] 0 h
  rw [hlines, headerLoop_blank, contentLength]
  cases (lines.filterMap headerSize).getLast? <;> rfl

end Headers

/-! ## Posting a form -/

/-- The request that posts a form, with header lines before and after the one with its size. -/
def postRequest (before after : List Bytes) (form : Bytes) : Bytes :=
  ascii "POST /users HTTP/1.1" ++ crlf ++ headerLines before ++
    (ascii "Content-Length: " ++ decimal form.length ++ crlf) ++ headerLines after ++ crlf ++ form

/-- What the handler makes of a form. -/
def readForm (form : Bytes) : Request :=
  checkForm (formFields (form.splitOn 38)).1 (formFields (form.splitOn 38)).2

/-- The fields before the last one, and the last one. -/
theorem formFields_concat (output : List Bytes) (it : Bytes) :
    formFields (output ++ [it]) =
      if (cut 61 it).1 = ascii "github_id" then ((cut 61 it).2, (formFields output).2)
      else if (cut 61 it).1 = ascii "ip_address" then ((formFields output).1, (cut 61 it).2)
      else formFields output := by
  simp [formFields]

/-- A body that is all there is taken up to its first NUL byte, and the stream has not ended. -/
theorem readBody_eq (body memory : Bytes) :
    readBody ⟨body, false⟩ body.length memory = (cstr body, ⟨[], false⟩) := by
  rw [readBody, InStream.read_of_le le_rfl, List.take_length, List.drop_length]
  refine Prod.ext ?_ rfl
  change (cstr (body ++ memory.drop body.length)).take body.length = cstr body
  by_cases h : 0 ∈ body
  · obtain ⟨rest, hrest⟩ := exists_takeWhile_ne h
    have hcstr : cstr (body ++ memory.drop body.length) = cstr body := by
      conv_lhs => rw [hrest, List.append_assoc, List.cons_append]
      exact cstr_append_zero (zero_notMem_cstr body) _
    rw [hcstr, List.take_of_length_le (length_cstr_le body)]
  · rw [cstr_append h, List.take_left, cstr_eq_self h]

/-- What follows the request line of a posted form. -/
def postRest (before after : List Bytes) (form : Bytes) : Bytes :=
  headerLines before ++ (ascii "Content-Length: " ++ decimal form.length ++ crlf ++
    (headerLines after ++ (crlf ++ form)))

theorem postRequest_eq (before after : List Bytes) (form : Bytes) :
    postRequest before after form =
      ascii "POST /users HTTP/1.1" ++ crlf ++ postRest before after form := by
  simp only [postRequest, postRest, List.append_assoc]

section Post

variable {before after : List Bytes} {form : Bytes}

/-- The header lines of a posted form. -/
def postHeaders (before after : List Bytes) (form : Bytes) : List Bytes :=
  before ++ (ascii "Content-Length: " ++ decimal form.length) :: after

theorem postRest_eq (before after : List Bytes) (form : Bytes) :
    postRest before after form = headerLines (postHeaders before after form) ++ (crlf ++ form) := by
  simp only [postRest, postHeaders, headerLines, List.flatMap_append, List.flatMap_cons,
    List.append_assoc]

theorem isHeaderLine_of_mem_postHeaders (hbefore : ∀ line ∈ before, IsHeader line)
    (hafter : ∀ line ∈ after, IsHeader line) (hlen : form.length < 2 ^ 31) :
    ∀ line ∈ postHeaders before after form, IsHeaderLine line := by
  have hdrop : (ascii "Content-Length: " ++ decimal form.length).drop 16 = decimal form.length :=
    List.drop_left' rfl
  intro line hline
  rcases List.mem_append.1 hline with hline | hline
  · exact (hbefore line hline).isHeaderLine
  · rcases List.mem_cons.1 hline with rfl | hline
    · refine ⟨List.append_ne_nil_of_left_ne_nil (by decide) _, ?_, fun _ => ?_⟩
      · rw [List.mem_append, not_or]
        exact ⟨by decide, notMem_decimal rfl _⟩
      · rw [hdrop, ofDecimal_decimal]
        exact ⟨decimal_ne_nil _, fun c hc => isDigit_of_mem_decimal hc, hlen⟩
    · exact (hafter line hline).isHeaderLine

theorem contentLength_postHeaders (hafter : ∀ line ∈ after, IsHeader line) :
    contentLength (postHeaders before after form) = form.length := by
  have hdrop : (ascii "Content-Length: " ++ decimal form.length).drop 16 = decimal form.length :=
    List.drop_left' rfl
  have hsize : headerSize (ascii "Content-Length: " ++ decimal form.length) = some form.length := by
    rw [headerSize, if_pos (List.prefix_append _ _), hdrop, ofDecimal_decimal]
  have hnone : after.filterMap headerSize = [] :=
    List.filterMap_eq_nil_iff.2 fun line hline => if_neg (hafter line hline).size
  rw [contentLength, postHeaders, List.filterMap_append, List.filterMap_cons, hsize, hnone,
    List.getLast?_append]
  rfl

/-- **A form is read as its fields.** -/
theorem readRequest_post (hbefore : ∀ line ∈ before, IsHeader line)
    (hafter : ∀ line ∈ after, IsHeader line) (hlen : form.length < 2 ^ 31) (hne : form ≠ [])
    (h0 : 0 ∉ form) (memory : Bytes) :
    readRequest (.opened (postRequest before after form)) memory = .ok (readForm form) := by
  have hline : InStream.getline (.opened (postRequest before after form)) [] =
      (ascii "POST /users HTTP/1.1" ++ [13], ⟨postRest before after form, false⟩) := by
    rw [postRequest_eq]
    exact getline_crlf _ _ (by decide)
  have hpos : (form.length : ℤ) > 0 := by
    exact_mod_cast List.length_pos_iff.2 hne
  have hpost : readPost ⟨postRest before after form, false⟩ memory =
      .ok (readForm form, ⟨[], false⟩) := by
    have hheaders := isHeaderLine_of_mem_postHeaders hbefore hafter hlen
    rw [readPost, postRest_eq, headerLoop_complete hheaders, contentLength_postHeaders hafter,
      Run.ok_bind]
    simp only [if_pos hpos, Int.toNat_natCast, readBody_eq, cstr_eq_self h0,
      stringSplit_eq (hlen.trans (by decide)), Run.ok_bind]
    rfl
  refine readRequest_eq_ok_iff.2 ⟨⟨[], false⟩, ?_⟩
  rw [receive, hline]
  exact hpost

end Post

end Onion5
