import Onion5.Client.Sending

/-!
# The text stays sealed

Where the text can be in the file that `send_message` hands to `send_file`, for every pattern of
failures. The results of `encrypt_file` and `serialize` are not looked at and file names are
carried from one turn of the loop to the next, so a file sent need not be the complete onion. It
is still made of headers, and of ciphertexts that are either made for the recipient or made from
such a file (`Veiled`).

The temporary paths may collide with each other and with existing files; they only have to be
writable.

* `sent_veiled`: a file sent is a type-0 header and a veiled body.
-/

namespace Onion5

open Message

/-! ## What can be read at a path -/

/-- Whatever can be read at `p` satisfies `P`. -/
def Files.Reads (fs : Files) (p : Bytes) (P : Bytes → Prop) : Prop :=
  ∀ c, fs.openRead p = some c → P c

section Reads

variable {fs : Files} {p q c : Bytes} {P Q : Bytes → Prop}

theorem Files.Reads.mono (h : fs.Reads p P) (hle : ∀ c, P c → Q c) : fs.Reads p Q :=
  fun c hc => hle c (h c hc)

theorem Files.reads_nil : fs.Reads [] P := fun c hc => by rw [fs.openRead_nil] at hc; cases hc

theorem Files.openRead_congr (h : cstr q = cstr p) : fs.openRead q = fs.openRead p := by
  rw [Files.openRead, Files.openRead, h]

theorem Files.reads_put_self (hw : fs.canWrite p) (hc : P c) : (fs.put p c).Reads p P := by
  intro x hx
  simp only [Files.openRead, Files.put, hw, dif_pos, Function.update_self] at hx
  split_ifs at hx
  exact Option.some.inj hx ▸ hc

/-- A write of something that satisfies `P` keeps what can be read anywhere in `P`. -/
theorem Files.Reads.put (h : fs.Reads q P) (hw : fs.canWrite p) (hc : P c) :
    (fs.put p c).Reads q P := by
  by_cases hq : cstr q = cstr p
  · intro x hx
    rw [Files.openRead_congr hq] at hx
    exact Files.reads_put_self hw hc x hx
  · intro x hx
    rw [Files.openRead_put_of_ne hq] at hx
    exact h x hx

theorem Files.Reads.remove (h : fs.Reads q P) : (fs.remove p).Reads q P := by
  intro x hx
  by_cases hq : cstr q = cstr p
  · simp [Files.openRead, Files.remove, hq] at hx
  · rw [Files.openRead_remove_of_ne hq] at hx
    exact h x hx

end Reads

/-! ## Veiled files -/

/-- Files made of headers, of ciphertexts for `to_`, and of ciphertexts of such files: if there is
any of a text message in them, it is inside a ciphertext for `to_`. `enc r x c` says that `c` is a
ciphertext of `x` for `r`. -/
inductive Veiled (enc : Bytes → Bytes → Bytes → Prop) (names : List Bytes) (to_ : Bytes) :
    Bytes → Prop
  | nil : Veiled enc names to_ []
  | sealed {x c : Bytes} (hc : enc to_ x c) : Veiled enc names to_ c
  | again {r x c : Bytes} (hx : Veiled enc names to_ x) (hc : enc r x c) : Veiled enc names to_ c
  | packet {f t body : Bytes} {time : ℕ} (hf : f ∈ names) (ht : t ∈ names)
      (hb : Veiled enc names to_ body) : Veiled enc names to_ (header f t 0 time ++ body)

/-- A type-0 file whose ends are among `names` and whose body is veiled. -/
def VeiledPacket (enc : Bytes → Bytes → Bytes → Prop) (names : List Bytes) (to_ file : Bytes) :
    Prop :=
  ∃ f ∈ names, ∃ t ∈ names, ∃ time body,
    file = header f t 0 time ++ body ∧ Veiled enc names to_ body

theorem VeiledPacket.veiled {enc : Bytes → Bytes → Bytes → Prop} {names : List Bytes}
    {to_ file : Bytes} (h : VeiledPacket enc names to_ file) : Veiled enc names to_ file := by
  obtain ⟨f, hf, t, ht, time, body, rfl, hb⟩ := h
  exact .packet hf ht hb

/-- The type of a file can be read off it, as long as the names are shorter than `2 ^ 64`. -/
theorem type_eq_of_header_eq {f t f' t' a b : Bytes} {ty ty' : UInt8} {time time' : ℕ}
    (hf : f.length < 256 ^ 8) (hf' : f'.length < 256 ^ 8) (ht : t.length < 256 ^ 8)
    (ht' : t'.length < 256 ^ 8) (h : header f t ty time ++ a = header f' t' ty' time' ++ b) :
    ty = ty' := by
  have hbe : ∀ {m n : ℕ} {x y : Bytes}, m < 256 ^ 8 → n < 256 ^ 8 →
      be 8 m ++ x = be 8 n ++ y → m = n ∧ x = y := by
    intro m n x y hm hn hxy
    obtain ⟨h₁, h₂⟩ := List.append_inj hxy (by simp)
    exact ⟨by rw [← ofBE_be_of_lt hm, h₁, ofBE_be_of_lt hn], h₂⟩
  simp only [header, List.append_assoc] at h
  obtain ⟨hlf, h⟩ := hbe hf hf' (List.append_cancel_left h)
  obtain ⟨-, h⟩ := List.append_inj h hlf
  obtain ⟨hlt, h⟩ := hbe ht ht' h
  obtain ⟨-, h⟩ := List.append_inj h hlt
  obtain ⟨-, h⟩ := List.append_inj h (by simp)
  exact (List.cons_eq_cons.1 h).1

/-! ## The loop -/

section Loop

variable {g : GPG} {layer : ℕ → LayerDraws} {names : List Bytes} {to_ : Bytes}

/-- What holds before a turn: the body at hand is veiled, and so is the file, unless the next
ciphertext is for `to_`. -/
structure Layering.Guarded (layer : ℕ → LayerDraws) (names : List Bytes) (to_ : Bytes)
    (st : Layering) : Prop where
  tempFrom : st.tempFrom ∈ names
  tempFile : st.fs.Reads st.tempFile (Veiled (Encrypts layer) names to_)
  filename : st.tempFrom = to_ ∨ st.fs.Reads st.filename (Veiled (Encrypts layer) names to_)

/-- What holds after a turn. -/
structure Layering.Shielded (layer : ℕ → LayerDraws) (names : List Bytes) (to_ : Bytes)
    (st : Layering) : Prop where
  tempFrom : st.tempFrom ∈ names
  tempFile : st.fs.Reads st.tempFile (Veiled (Encrypts layer) names to_)
  filename : st.fs.Reads st.filename (VeiledPacket (Encrypts layer) names to_)

theorem Layering.Shielded.guarded {st : Layering} (h : st.Shielded layer names to_) :
    st.Guarded layer names to_ :=
  ⟨h.tempFrom, h.tempFile, .inr (h.filename.mono fun _ => VeiledPacket.veiled)⟩

/-- Whatever `encrypt_file` does, the body it leaves is veiled. -/
theorem encryptFile_reads {i : ℕ} {st : Layering} (h : st.Guarded layer names to_)
    (hw : st.fs.canWrite (layer i).encPath) :
    (g.encryptFile (layer i).gpg st.filename st.tempFrom st.tempFile
        (layer i).encPath st.fs).2.2.Reads
        (g.encryptFile (layer i).gpg st.filename st.tempFrom st.tempFile
          (layer i).encPath st.fs).2.1
        (Veiled (Encrypts layer) names to_) ∧
      (g.encryptFile (layer i).gpg st.filename st.tempFrom st.tempFile
        (layer i).encPath st.fs).2.2.writable = st.fs.writable := by
  unfold GPG.encryptFile
  split_ifs
  · simp only [saveTempfile_eq]
    split
    · rename_i c hc
      obtain ⟨x, hx, henc⟩ := Option.bind_eq_some_iff.1 hc
      refine ⟨Files.reads_put_self (by rwa [Files.canWrite_put]) ?_, by simp⟩
      rcases h.filename with hto | hfile
      · exact .sealed ⟨i, hto ▸ henc⟩
      · exact .again (hfile.put hw .nil x hx) ⟨i, henc⟩
    · exact ⟨(h.tempFile.put hw .nil).remove, by simp⟩
  · exact ⟨h.tempFile, rfl⟩

/-- Whatever `serialize` does with a veiled body, it names a veiled packet or nothing. -/
theorem serialize_reads {enc : Bytes → Bytes → Bytes → Prop} {f t path locate : Bytes} (time : ℕ)
    (opens : Bool) {fs : Files} (hf : f ∈ names) (ht : t ∈ names)
    (hpath : fs.Reads path (Veiled enc names to_)) (hw : fs.canWrite locate) :
    ((binary f t path).serialize locate time opens fs).2.Reads
        ((binary f t path).serialize locate time opens fs).1 (VeiledPacket enc names to_) ∧
      ((binary f t path).serialize locate time opens fs).2.Reads path (Veiled enc names to_) ∧
      ((binary f t path).serialize locate time opens fs).2.writable = fs.writable := by
  have hcopy : ∀ body, copyLoop (InStream.opened body) = body := InStream.flatten_chunks _
  have hpacket : ∀ {body}, Veiled enc names to_ body →
      VeiledPacket enc names to_ (header f t 0 time ++ body) :=
    fun hb => ⟨f, hf, t, ht, time, _, rfl, hb⟩
  have hnil : Veiled enc names to_ (header f t 0 time) := by
    simpa using (hpacket .nil).veiled
  have hbody := hpath.put hw .nil
  have hw' : (fs.put locate []).canWrite locate := by rwa [Files.canWrite_put]
  simp only [serialize, binary, true_or, if_true, show ((0 : UInt8) = 2) = False by decide,
    if_false]
  split
  · exact ⟨Files.reads_nil, hbody.put hw' hnil, by simp⟩
  · rename_i body hb
    have hveil : Veiled enc names to_ body := by
      split_ifs at hb
      exact hbody body hb
    rw [hcopy]
    exact ⟨Files.reads_put_self hw' (hpacket hveil), hbody.put hw' (hpacket hveil).veiled, by simp⟩

/-- **One turn of the loop keeps the text sealed**, whatever fails in it. -/
theorem layerStep_shielded {i : ℕ} {hop : Bytes} {st : Layering} (hhop : hop ∈ names)
    (h : st.Guarded layer names to_) (he : st.fs.canWrite (layer i).encPath)
    (hs : st.fs.canWrite (layer i).serPath) :
    (layerStep g (layer i) hop st).Shielded layer names to_ ∧
      (layerStep g (layer i) hop st).fs.writable = st.fs.writable := by
  obtain ⟨henc, hwe⟩ := encryptFile_reads (g := g) h he
  obtain ⟨hfile, hbody, hws⟩ := serialize_reads (layer i).time (layer i).opens hhop h.tempFrom
    henc (show Files.canWrite _ (layer i).serPath by rwa [Files.canWrite, hwe])
  exact ⟨⟨hhop, hbody, hfile⟩, hws.trans hwe⟩

/-- **Every run of the loop keeps the text sealed.** -/
theorem layerLoop_shielded {rev : List Bytes} (hne : rev ≠ []) (hnames : ∀ r ∈ rev, r ∈ names)
    {i : ℕ} {st : Layering} (h : st.Guarded layer names to_)
    (hw : ∀ p ∈ layerPaths layer i rev, st.fs.canWrite p) :
    (layerLoop g layer i rev st).Shielded layer names to_ := by
  induction rev generalizing i st with
  | nil => exact absurd rfl hne
  | cons hop rest ih =>
    obtain ⟨hstep, hwstep⟩ := layerStep_shielded (g := g) (hnames hop List.mem_cons_self) h
      (hw _ List.mem_cons_self) (hw _ (List.mem_cons_of_mem _ List.mem_cons_self))
    rcases eq_or_ne rest [] with rfl | hrest
    · exact hstep
    · refine ih hrest (fun r hr => hnames r (List.mem_cons_of_mem _ hr)) hstep.guarded
        fun p hp => ?_
      rw [Files.canWrite, hwstep]
      exact hw p (List.mem_cons_of_mem _ (List.mem_cons_of_mem _ hp))

end Loop

/-! ## The call -/

section Call

variable {m : Messanger} {to_ content : Bytes} {d : SendDraws} {fs : Files}

/-- **The text leaves the sender only inside a ciphertext for the recipient**, whatever fails: a
file sent, if it can be opened at all, is a packet with a veiled body, and it is not the serialized
text message. -/
theorem sent_veiled (hw : ∀ p ∈ d.paths (m.route to_ d), fs.canWrite p) {s : Sent}
    (hs : (m.sendMessage to_ content d fs).sent = some s) {file : Bytes}
    (hfile : s.content = some file) :
    VeiledPacket (Encrypts d.layer) (m.route to_ d) to_ file ∧
      ((∀ r ∈ m.route to_ d, r.length < 2 ^ 64) → file ≠ plainFile (m.route to_ d) content d) := by
  have hto : to_ ∈ m.nodeList := by
    by_contra hto
    rw [(sendMessage_refused _ _ (.inl hto)).1] at hs
    cases hs
  have hc : d.connect (m.firstHop (m.route to_ d)) := by
    by_contra hc
    rw [(sendMessage_refused _ _ (.inr hc)).1] at hs
    cases hs
  rw [(sendMessage_connected _ _ hto hc).1] at hs
  obtain ⟨relays, hroute⟩ := route_ends m to_ d
  have hmem : to_ ∈ m.route to_ d := by simp [hroute]
  have hguard : Layering.Guarded d.layer (m.route to_ d) to_
      ⟨(m.route to_ d).getLastD [], [], d.textPath,
        fs.put d.textPath (plainFile (m.route to_ d) content d), []⟩ :=
    ⟨by rwa [getLastD_route], Files.reads_nil, .inl getLastD_route⟩
  have hrun := layerLoop_shielded (g := m.gpg) (i := 0)
    (show (m.route to_ d).reverse ≠ [] by simpa using route_ne_nil)
    (fun r hr => List.mem_reverse.1 hr) hguard fun p hp => by
      rw [Files.canWrite_put]
      exact hw p (List.mem_cons_of_mem _ hp)
  have hlayers : m.layers (m.route to_ d) content d fs =
      layerLoop m.gpg d.layer 0 (m.route to_ d).reverse ⟨(m.route to_ d).getLastD [], [],
        d.textPath, fs.put d.textPath (plainFile (m.route to_ d) content d), []⟩ := by
    simp only [Messanger.layers, serialize_text, plainFile]
  cases hs
  rw [hlayers] at hfile
  have hpacket := hrun.filename file hfile
  refine ⟨hpacket, fun hlen heq => ?_⟩
  obtain ⟨f, hf, t, ht, time, body, rfl, -⟩ := hpacket
  have hname : m.name ∈ m.route to_ d := by simp [hroute]
  rw [plainFile, headD_route, getLastD_route] at heq
  have hty := type_eq_of_header_eq (hlen f hf) (hlen _ hname) (hlen t ht) (hlen _ hmem) heq
  exact absurd hty (by decide)

end Call

/-- The packet that goes out when the key of a relay is missing is veiled too. -/
theorem sent_veiled_example :
    ∃ s file, (exampleNode.sendMessage (ascii "b") (ascii "hi") (exampleDraws [2])
        Files.blank).sent = some s ∧ s.content = some file ∧
      VeiledPacket (Encrypts (exampleDraws [2]).layer)
        (exampleNode.route (ascii "b") (exampleDraws [2])) (ascii "b") file ∧
      ((∀ r ∈ exampleNode.route (ascii "b") (exampleDraws [2]), r.length < 2 ^ 64) →
        file ≠ plainFile (exampleNode.route (ascii "b") (exampleDraws [2])) (ascii "hi")
          (exampleDraws [2])) := by
  have hf := fresh_exampleDraws [2]
  obtain ⟨hview, -⟩ := layers_view exampleNode (ascii "hi") hf
  have hto : ascii "b" ∈ exampleNode.nodeList := by decide
  have hc : (exampleDraws [2]).connect
      (exampleNode.firstHop (exampleNode.route (ascii "b") (exampleDraws [2]))) := rfl
  have hsent := (sendMessage_connected (ascii "hi") Files.blank hto hc).1
  obtain ⟨file, hfile⟩ := Option.isSome_iff_exists.1 (show (View.run exampleNode.gpg
    (exampleDraws [2]).layer 0 (exampleNode.route (ascii "b") (exampleDraws [2])).reverse
    ((exampleNode.route (ascii "b") (exampleDraws [2])).getLastD [])
    ⟨some (plainFile (exampleNode.route (ascii "b") (exampleDraws [2])) (ascii "hi")
      (exampleDraws [2])), none⟩).1.file.isSome by decide)
  have hcontent := (congrArg View.file hview).trans hfile
  exact ⟨_, file, hsent, hcontent, sent_veiled (fun p hp => hf.canWrite hp) hsent hcontent⟩

end Onion5
