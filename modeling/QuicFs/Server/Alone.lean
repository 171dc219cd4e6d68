import QuicFs.Server.DataOps

/-!
# The data handlers run alone

A Write and a Read whose file nobody else changes. The frame loop is `handleWrite` on the
frames that arrive (`run_frameLoop`), so what is known of it carries over to the handler. The
read loop answers with frames that lie one behind the other and end with the end of the file
or of the request (`run_readLoop`).
-/

namespace QuicFs.Server

open Lib Function

section
variable {kernel : Kernel} {ex : Export} {n : Nat}

/-! ## Write -/

/-- The frames with the operating system's part in them; the choice after each is the wait for
the next frame. -/
def oses (f : File) (cs : Nat → Choice) : List WriteRequest → List (WriteRequest × OsWrite)
  | [] => []
  | w :: ws => (w, osOf f (cs 0) w.data) :: oses f (fun i => cs (i + 2)) ws

theorem map_fst_oses {f : File} (ws : List WriteRequest) : ∀ cs : Nat → Choice,
    (oses f cs ws).map Prod.fst = ws := by
  induction ws with
  | nil => intro _; rfl
  | cons w ws ih => intro cs; rw [oses, List.map_cons, ih]

theorem oses_eq_zip {f : File} (ws : List WriteRequest) : ∀ cs : Nat → Choice,
    oses f cs ws = ws.zip ((oses f cs ws).map Prod.snd) := by
  induction ws with
  | nil => intro _; rfl
  | cons w ws ih => intro cs; rw [oses, List.map_cons, List.zip_cons_cons, ← ih]

theorem mem_oses {f : File} {ws : List WriteRequest} :
    ∀ {cs : Nat → Choice} {x : WriteRequest × OsWrite},
    x ∈ oses f cs ws ↔ ∃ i, ws[i]? = some x.1 ∧ x.2 = osOf f (cs (2 * i)) x.1.data := by
  induction ws with
  | nil => simp [oses]
  | cons w ws ih =>
    intro cs x
    rw [oses, List.mem_cons, ih]
    constructor
    · rintro (rfl | ⟨i, hi, hx⟩)
      · exact ⟨0, rfl, rfl⟩
      · exact ⟨i + 1, hi, hx⟩
    · rintro ⟨i, hi, hx⟩
      cases i with
      | zero =>
        obtain rfl : w = x.1 := by simpa using hi
        exact .inl (Prod.ext rfl hx)
      | succ i => exact .inr ⟨i, by simpa using hi, hx⟩

namespace Fs

theorem nodes_of_content {fs : Fs} {i : Ino} {file : Bytes} (h : fs.content i = some file) :
    ∃ node, fs.nodes i = some node ∧ node.kind = .file file := by
  unfold content kind at h
  cases hn : fs.nodes i with
  | none => simp [hn] at h
  | some node =>
    refine ⟨node, rfl, ?_⟩
    simp only [hn, Option.map_some] at h
    split at h
    · next e => cases h; simpa using e
    · cases h

theorem content_setContent {fs : Fs} {i : Ino} {file : Bytes} (h : fs.content i = some file)
    (data : Bytes) : (fs.setContent i data).content i = some data := by
  obtain ⟨node, hn, -⟩ := nodes_of_content h
  have hlt : i < fs.next := by
    by_contra hge
    rw [fs.fresh i (Nat.le_of_not_lt hge)] at hn
    cases hn
  simp [setContent, content, kind, set, hn, hlt]

theorem nodes_setContent_ne (fs : Fs) {i j : Ino} (data : Bytes) (h : j ≠ i) :
    (fs.setContent i data).nodes j = fs.nodes j := by
  simp [setContent, set, h]

end Fs

/-- What a `write_all` does does not depend on the byte count. -/
theorem writeAt_any_total (file : Bytes) (o : UInt64) (data : Bytes) (append : Bool) (os : OsWrite)
    (total : Nat) :
    ((writeAt ⟨file, 0⟩ o data append os).1, (writeAt ⟨file, 0⟩ o data append os).2.file) =
      ((writeAt ⟨file, total⟩ o data append os).1,
        (writeAt ⟨file, total⟩ o data append os).2.file) := by
  unfold writeAt
  generalize (if append then file.length else o.toNat) = pos
  simp only
  split
  · rfl
  · split <;> rfl

theorem exec_writeAt {h : Host} {f : File} {file : Bytes} (hf : h.fs.content f.ino = some file)
    {o : UInt64} {data : Bytes} {append : Bool} {c : Choice} {total : Nat}
    {r : Option IoErrorKind} {st : WriteState}
    (he : writeAt ⟨file, total⟩ o data append (osOf f c data) = (r, st)) :
    Sys.exec kernel ex n (.writeAt f o data append) c h =
      some (r, { h with fs := h.fs.setContent f.ino st.file }) := by
  have h0 := writeAt_any_total file o data append (osOf f c data) total
  rw [he] at h0
  obtain ⟨h1, h2⟩ := Prod.mk.inj h0
  change some (writeFile h f o data append c) = _
  unfold writeFile
  simp only [hf, h1, h2]

def writeAnswer (seq : UInt64) (status : Status) (written : Nat) : Response :=
  { op := .write, seq, status, written }

/-- What a Write RPC leaves: its answer, the file, and nothing else. -/
structure Wrote (n : Nat) (f : File) (h h' : Host) (file : Bytes) (r : Response) : Prop where
  replies : h'.replies = h.replies ++ [(n, r)]
  content : h'.fs.content f.ino = some file
  others : ∀ j, j ≠ f.ino → h'.fs.nodes j = h.fs.nodes j

theorem writeAt_total {st st' : WriteState} {o : UInt64} {data : Bytes} {append : Bool}
    {os : OsWrite} {r : Option IoErrorKind} (h : writeAt st o data append os = (r, st')) :
    st'.total = if r = none then min (st.total + data.length) u64Max else st.total := by
  unfold writeAt at h
  generalize (if append then st.file.length else o.toNat) = pos at h
  simp only at h
  split at h
  · obtain ⟨rfl, rfl⟩ := Prod.mk.inj h
    rfl
  · split at h
    · obtain ⟨rfl, rfl⟩ := Prod.mk.inj h
      rfl
    · obtain ⟨rfl, rfl⟩ := Prod.mk.inj h
      rfl

/-- The frames end with the one marked `done`. -/
def DoneLast : List WriteRequest → Prop
  | [] => True
  | w :: ws => w.done = ws.isEmpty ∧ DoneLast ws

theorem doneLast_of_chained {ws : List WriteRequest} :
    ∀ {o : UInt64}, Chained o ws → DoneLast ws := by
  induction ws with
  | nil => intro _ _; trivial
  | cons w ws ih => rintro o ⟨-, hd, hc⟩; exact ⟨hd, ih hc⟩

theorem DoneLast.dropLast {ws : List WriteRequest} (h : DoneLast ws) :
    ∀ w ∈ ws.dropLast, w.done = false := by
  induction ws with
  | nil => simp
  | cons w ws ih =>
    cases ws with
    | nil => simp
    | cons w' ws =>
      intro x hx
      rcases List.mem_cons.mp hx with rfl | hx
      · exact h.1
      · exact ih h.2 x hx

section
variable {f : File} {append : Bool} {seq : UInt64} {fuel total : Nat} {w w' : WriteRequest}
variable {cs : Nat → Choice} {h h1 h2 : Host}

theorem run_frameLoop_error {e : IoErrorKind}
    (he : Sys.exec kernel ex n (.writeAt f w.offset w.data append) (cs 0) h = some (some e, h1)) :
    (frameLoop f append seq fuel total w).run (Sys.exec kernel ex n) cs h = some ((), { h1 with
      replies := h1.replies ++ [(n, writeAnswer seq (.ofIo e) total)] },
      fun i => cs (i + 2)) := by
  unfold frameLoop
  exact Prog.run_act he

theorem run_frameLoop_done (hd : w.done = true)
    (he : Sys.exec kernel ex n (.writeAt f w.offset w.data append) (cs 0) h = some (none, h1)) :
    (frameLoop f append seq fuel total w).run (Sys.exec kernel ex n) cs h = some ((), { h1 with
      replies := h1.replies ++ [(n, writeAnswer seq .ok (min (total + w.data.length) u64Max))] },
      fun i => cs (i + 2)) := by
  unfold frameLoop
  simp only [hd, if_true]
  exact Prog.run_act he

theorem run_frameLoop_next (hd : w.done = false)
    (he : Sys.exec kernel ex n (.writeAt f w.offset w.data append) (cs 0) h = some (none, h1))
    (hr : Sys.exec kernel ex n .recvFrame (cs 1) h1 = some (some w', h2)) :
    (frameLoop f append seq (fuel + 1) total w).run (Sys.exec kernel ex n) cs h =
      (frameLoop f append seq fuel (min (total + w.data.length) u64Max) w').run
      (Sys.exec kernel ex n)
        (fun i => cs (i + 2)) h2 := by
  conv_lhs => unfold frameLoop
  simp only [hd, Bool.false_eq_true, if_false]
  refine (Prog.run_act he).trans ?_
  exact @Prog.run_act _ _ _ _ _ (Sys.exec kernel ex n) .recvFrame _ (fun i => cs (i + 1)) h1 h2 _ hr

theorem exec_recvFrame {ws : List WriteRequest} {c : Choice} (hc : c.fault = none)
    (hin : h.inbox n = w :: ws) : Sys.exec kernel ex n .recvFrame c h =
      some (some w, { h with inbox := update h.inbox n ws }) := by
  change (if c.fault.isSome then _ else _) = _
  rw [hc]
  simp only [Option.isSome_none, Bool.false_eq_true, if_false, hin]
  rfl

end

/-- **The frame loop is `handleWrite`** when all frames arrive. -/
theorem run_frameLoop {f : File} {append : Bool} {seq : UInt64} (ws : List WriteRequest) :
    ∀ {w : WriteRequest} {fuel total : Nat} {file : Bytes} {h : Host} {cs : Nat → Choice},
    h.fs.content f.ino = some file → h.inbox n = ws → DoneLast (w :: ws) →
    ws.length ≤ fuel → (∀ i, (cs (2 * i + 1)).fault = none) →
    ∃ h' cs' status written, (frameLoop f append seq fuel total w).run (Sys.exec kernel ex n) cs h =
        some ((), h', cs') ∧
      (handleWrite append ⟨file, total⟩ (oses f cs (w :: ws))).1 = some (status, written) ∧
      Wrote n f h h' (handleWrite append ⟨file, total⟩ (oses f cs (w :: ws))).2.file
        (writeAnswer seq status written) ∧ h'.stripes = h.stripes := by
  induction ws with
  | nil =>
    intro w fuel total file h cs hf hin hdone _ _
    have hd : w.done = true := hdone.1
    simp only [oses, handleWrite]
    rcases he : writeAt ⟨file, total⟩ w.offset w.data append (osOf f (cs 0) w.data) with ⟨r, st⟩
    have hwrote : ∀ r', Wrote n f h { h with
        fs := h.fs.setContent f.ino st.file, replies := h.replies ++ [(n, r')] } st.file r' :=
      fun _ => ⟨rfl, Fs.content_setContent hf _, fun j hj => Fs.nodes_setContent_ne _ _ hj⟩
    cases r with
    | some e =>
      refine ⟨_, _, .ofIo e, total, run_frameLoop_error (exec_writeAt hf he), ?_, hwrote _, rfl⟩
      simp [writeAt_total he]
    | none =>
      simp only [hd, if_true]
      refine ⟨_, _, .ok, _, run_frameLoop_done hd (exec_writeAt hf he), ?_, hwrote _, rfl⟩
      simp [writeAt_total he]
  | cons w' ws ih =>
    intro w fuel total file h cs hf hin hdone hfuel hcs
    have hd : w.done = false := hdone.1
    rw [oses, handleWrite]
    rcases he : writeAt ⟨file, total⟩ w.offset w.data append (osOf f (cs 0) w.data) with ⟨r, st⟩
    cases r with
    | some e =>
      refine ⟨_, _, .ofIo e, total, run_frameLoop_error (exec_writeAt hf he), ?_,
        ⟨rfl, ?_, ?_⟩, rfl⟩
      · simp [writeAt_total he]
      · exact Fs.content_setContent hf _
      · exact fun j hj => Fs.nodes_setContent_ne _ _ hj
    | none =>
      obtain ⟨fuel, rfl⟩ : ∃ k, fuel = k + 1 := ⟨fuel - 1, by
        rw [List.length_cons] at hfuel; omega⟩
      simp only [hd, Bool.false_eq_true, if_false]
      have htotal := writeAt_total he
      obtain ⟨h', cs', status, written, hrun, hres, hwrote, hstripes⟩ :=
        @ih w' fuel st.total st.file { h with
            fs := h.fs.setContent f.ino st.file, inbox := update h.inbox n ws }
          (fun i => cs (i + 2)) (Fs.content_setContent hf st.file)
          (update_self ..) hdone.2 (Nat.le_of_succ_le_succ hfuel) (fun i => hcs (i + 1))
      refine ⟨h', cs', status, written, ?_, hres, ⟨hwrote.replies, hwrote.content, fun j hj =>
        (hwrote.others j hj).trans (Fs.nodes_setContent_ne _ _ hj)⟩, hstripes⟩
      rw [run_frameLoop_next hd (exec_writeAt hf he) (exec_recvFrame (hcs 0) hin), ← hrun, htotal]
      rfl

section
variable {session : Nat} {seq : UInt64} {first : WriteRequest} {oh : OpenHandle} {h h1 : Host}
variable {cs : Nat → Choice}

/-- The handler around its frame loop. -/
theorem run_handleWriteRpc_of_loop {frames : Nat} {cs' : Nat → Choice}
    (hlive : (h.tables session).inner.lookup first.handle = some oh)
    (hfree : h.stripes (stripeFor oh.inoKey) = none) (hcs : (cs 1).fault = none)
    (hrun : (frameLoop oh.file (bit oh.flags 0x400) seq frames 0 first).run (Sys.exec kernel ex n)
      (fun i => cs (i + 2))
      { h with stripes := update h.stripes (stripeFor oh.inoKey) (some n) } =
        some ((), h1, cs')) :
    (handleWriteRpc frames session seq first).run (Sys.exec kernel ex n) cs h =
      some ((), { h1 with stripes := update h1.stripes (stripeFor oh.inoKey) none },
        fun i => cs' (i + 1)) := by
  have hctx : Sys.exec kernel ex n (.getWriteCtx session first.handle) (cs 0) h =
      some (some (oh.file, oh.flags, oh.inoKey), h) := by
    change some ((h.tables session).getWriteCtx first.handle, h) = _
    rw [HandleTable.getWriteCtx, hlive]
    rfl
  have hlock : Sys.exec kernel ex n (.lockStripe (stripeFor oh.inoKey)) (cs 1) h =
      some (true, { h with stripes := update h.stripes (stripeFor oh.inoKey) (some n) }) := by
    change (if (cs 1).fault.isSome then _ else _) = _
    rw [hcs]
    simp only [Option.isSome_none, Bool.false_eq_true, if_false, hfree, if_true]
    rfl
  unfold handleWriteRpc
  refine (Prog.run_act hctx).trans ?_
  refine (@Prog.run_act _ _ _ _ _ (Sys.exec kernel ex n) (.lockStripe (stripeFor oh.inoKey)) _
    (fun i => cs (i + 1)) h _ _ hlock).trans ?_
  exact Prog.run_bind hrun

/-- **A Write RPC run alone is `handleWrite`** on its frames. The choices: the lookup of the
handle, the wait for the stripe, then a write and the wait for the next frame in turn. -/
theorem run_handleWriteRpc {more : List WriteRequest} {file : Bytes}
    (hlive : (h.tables session).inner.lookup first.handle = some oh)
    (hf : h.fs.content oh.file.ino = some file) (hfree : h.stripes (stripeFor oh.inoKey) = none)
    (hin : h.inbox n = more) (hdone : DoneLast (first :: more))
    (hcs : ∀ i, (cs (2 * i + 1)).fault = none) :
    ∃ h' cs' status written,
      (handleWriteRpc more.length session seq first).run (Sys.exec kernel ex n) cs h =
        some ((), h', cs') ∧
      (handleWrite (bit oh.flags 0x400) ⟨file, 0⟩
        (oses oh.file (fun i => cs (i + 2)) (first :: more))).1 =
        some (status, written) ∧
      Wrote n oh.file h h'
        (handleWrite (bit oh.flags 0x400) ⟨file, 0⟩
          (oses oh.file (fun i => cs (i + 2)) (first :: more))).2.file
        (writeAnswer seq status written) := by
  obtain ⟨h1, cs1, status, written, hrun, hres, hwrote, -⟩ := @run_frameLoop kernel ex n oh.file
    (bit oh.flags 0x400) seq more first more.length 0 file
    { h with stripes := update h.stripes (stripeFor oh.inoKey) (some n) }
    (fun i => cs (i + 2)) hf hin hdone (Nat.le_refl _) (fun i => hcs (i + 1))
  exact ⟨_, _, status, written, run_handleWriteRpc_of_loop hlive hfree (hcs 0) hrun, hres,
    ⟨hwrote.replies, hwrote.content, hwrote.others⟩⟩

end

/-! ## Read -/

def readAnswer (seq offset : UInt64) (data : Bytes) (eof : Bool) : Response :=
  { op := .read, seq, status := .ok, offset, data, eof }

/-- Frames that carry `data` from `offset` on; the last one, and no other, says so. -/
def Delivers (seq : UInt64) : (offset : UInt64) → (data : Bytes) → List Response → Prop
  | _, _, [] => False
  | offset, data, [r] => r = readAnswer seq offset data true
  | offset, data, r :: rs => ∃ d rest, d ≠ [] ∧ data = d ++ rest ∧
      r = readAnswer seq offset d false ∧
      Delivers seq (offset + UInt64.ofNat d.length) rest rs

theorem delivers_cons {seq offset : UInt64} {data d rest : Bytes} {rs : List Response} (hd : d ≠ [])
    (hdata : data = d ++ rest) (h : Delivers seq (offset + UInt64.ofNat d.length) rest rs) :
    Delivers seq offset data (readAnswer seq offset d false :: rs) := by
  cases rs with
  | nil => exact h.elim
  | cons r rs => exact ⟨d, rest, hd, hdata, rfl, h⟩

theorem Delivers.length_le {seq : UInt64} {rs : List Response} : ∀ {offset : UInt64} {data : Bytes},
    Delivers seq offset data rs → rs.length ≤ data.length + 1 := by
  induction rs with
  | nil => intro _ _ h; exact h.elim
  | cons r rs ih =>
    intro offset data h
    cases rs with
    | nil => simp
    | cons r' rs =>
      obtain ⟨d, rest, hd, rfl, -, h⟩ := h
      have := ih h
      have := List.length_pos_iff.mpr hd
      simp only [List.length_cons, List.length_append] at *
      omega

/-- The frames one by one: each is where its data belongs, and the last one says so. -/
theorem Delivers.frames {seq : UInt64} {rs : List Response} : ∀ {offset : UInt64} {data : Bytes},
    Delivers seq offset data rs → offset.toNat + data.length < 2 ^ 64 → ∀ i r, rs[i]? = some r →
    r.status = .ok ∧ r.offset.toNat = offset.toNat + ((rs.take i).flatMap Response.data).length ∧
      (r.eof = true ↔ i + 1 = rs.length) := by
  induction rs with
  | nil => intro _ _ h; exact h.elim
  | cons r₀ rs ih =>
    intro offset data h hwrap i r hi
    cases rs with
    | nil =>
      obtain rfl : r₀ = readAnswer seq offset data true := h
      cases i with
      | zero =>
        obtain rfl : _ = r := by simpa using hi
        simp [readAnswer]
      | succ i => simp at hi
    | cons r₁ rs =>
      obtain ⟨d, rest, -, rfl, rfl, h⟩ := h
      rw [List.length_append] at hwrap
      have hnext : (offset + UInt64.ofNat d.length).toNat = offset.toNat + d.length := by
        have hlt : d.length < 2 ^ 64 := by omega
        rw [UInt64.toNat_add, UInt64.toNat_ofNat_of_lt' hlt]
        omega
      cases i with
      | zero =>
        obtain rfl : _ = r := by simpa using hi
        simp [readAnswer]
      | succ i =>
        obtain ⟨h1, h2, h3⟩ := ih h (by omega) i r (by simpa using hi)
        refine ⟨h1, ?_, by rw [h3]; simp⟩
        rw [h2, hnext, List.take_succ_cons, List.flatMap_cons, List.length_append]
        simp only [readAnswer]
        omega

theorem take_drop_eq_append {F : Bytes} {o k remaining : Nat} (hk : k ≤ remaining) :
    (F.drop o).take remaining = (F.drop o).take k ++
      (F.drop (o + ((F.drop o).take k).length)).take (remaining - ((F.drop o).take k).length) := by
  rcases Nat.le_total k (F.drop o).length with h | h
  · rw [List.length_take_of_le h, ← List.drop_drop]
    conv_lhs => rw [show remaining = k + (remaining - k) by omega, List.take_add]
  · have h1 : (F.drop o).take k = F.drop o := List.take_of_length_le h
    have h2 : (F.drop o).take remaining = F.drop o := List.take_of_length_le (by omega)
    have h3 : F.drop (o + (F.drop o).length) = [] :=
      List.drop_eq_nil_of_le (by rw [List.length_drop]; omega)
    rw [h1, h2, h3, List.take_nil, List.append_nil]

/-- **The read loop delivers the bytes of the file**, however short the reads are. -/
theorem run_readLoop {f : File} {seq : UInt64} {F : Bytes} (hread : f.Readable) :
    ∀ {fuel remaining : Nat} {offset : UInt64} {h : Host} {cs : Nat → Choice},
    h.fs.content f.ino = some F → offset.toNat + remaining ≤ offsetMax → remaining ≤ fuel →
    0 < remaining → (∀ i, (cs i).fault = none) →
    ∃ rs cs', (readLoop f seq fuel remaining offset).run (Sys.exec kernel ex n) cs h =
        some ((), { h with replies := h.replies ++ rs.map (n, ·) }, cs') ∧
      Delivers seq offset ((F.drop offset.toNat).take remaining) rs := by
  intro fuel
  induction fuel with
  | zero => intro remaining offset h cs _ _ h1 h2; omega
  | succ fuel ih =>
    intro remaining offset h cs hF hoff hfuel hpos hcs
    generalize hlen : min (min remaining readChunk)
      (max 1 ((cs 0).room.getD (min remaining readChunk))) = len
    have hlen1 : 1 ≤ len := by simp only [readChunk] at hlen; omega
    have hlen2 : len ≤ remaining := by omega
    generalize hbuf : (F.drop offset.toNat).take len = buf
    have hexec : Sys.exec kernel ex n (.readAt f offset (min remaining readChunk)) (cs 0) h =
        some (.ok buf, h) := by
      change some (readFile h f offset (min remaining readChunk) (cs 0), h) = _
      unfold readFile
      rw [if_neg (by omega), hcs 0, hF]
      simp only
      rw [if_pos hread, hlen, hbuf, if_neg (by omega)]
      rfl
    have hsplit := take_drop_eq_append (F := F) (o := offset.toNat) hlen2
    rw [hbuf] at hsplit
    unfold readLoop
    rw [if_neg (Nat.ne_of_gt hpos)]
    by_cases hb : buf = []
    · -- the end of the file
      subst hb
      have hF0 : F.drop offset.toNat = [] := by
        rcases List.take_eq_nil_iff.mp hbuf with h0 | h0
        · omega
        · exact h0
      refine ⟨[readAnswer seq offset [] true], _, (Prog.run_act hexec).trans rfl, ?_⟩
      simp [Delivers, hF0]
    · have hblen : 0 < buf.length := List.length_pos_iff.mpr hb
      have hble : buf.length ≤ remaining := by rw [← hbuf, List.length_take]; omega
      have hbe : buf.isEmpty = false := by simpa using hb
      by_cases hleft : remaining - buf.length = 0
      · -- the end of the request
        refine ⟨[readAnswer seq offset buf true], fun i => cs (i + 2), ?_, ?_⟩
        · refine (Prog.run_act hexec).trans ?_
          simp only [hbe, hleft, Bool.false_or, decide_true, Bool.false_eq_true, if_false]
          cases fuel <;> rfl
        · rw [hsplit, hleft, List.take_zero, List.append_nil]
          rfl
      · have hoff' : (offset + UInt64.ofNat buf.length).toNat = offset.toNat + buf.length := by
          simp only [offsetMax] at hoff
          have hlt : buf.length < 2 ^ 64 := by omega
          rw [UInt64.toNat_add, UInt64.toNat_ofNat_of_lt' hlt]
          omega
        obtain ⟨rs, cs', hrun, hdel⟩ :=
          @ih (remaining - buf.length) (offset + UInt64.ofNat buf.length)
          { h with replies := h.replies ++ [(n, readAnswer seq offset buf false)] }
          (fun i => cs (i + 2)) hF (by omega) (by omega) (by omega) fun i => hcs _
        refine ⟨readAnswer seq offset buf false :: rs, cs', ?_, ?_⟩
        · refine (Prog.run_act hexec).trans ?_
          simp only [hbe, hleft, Bool.false_or, decide_false, Bool.false_eq_true, if_false]
          refine Eq.trans ?_ (hrun.trans ?_)
          · rfl
          · simp
        · rw [hoff'] at hdel
          exact delivers_cons hb hsplit hdel

/-- A Read of an open file, run alone. -/
theorem run_handleRead {session : Nat} {seq : UInt64} {handle : ServerHandle} {offset : UInt64}
    {length : UInt32} {f : File} {F : Bytes} {h : Host} {cs : Nat → Choice}
    (hlive : (h.tables session).getFile handle = some f) (hread : f.Readable)
    (hF : h.fs.content f.ino = some F) (hoff : offset.toNat + length.toNat ≤ offsetMax)
    (hpos : 0 < length.toNat) (hmax : length.toNat ≤ maxReadRequest)
    (hcs : ∀ i, (cs i).fault = none) :
    ∃ rs cs', (handleRead session seq handle offset length).run (Sys.exec kernel ex n) cs h =
        some ((), { h with replies := h.replies ++ rs.map (n, ·) }, cs') ∧
      Delivers seq offset ((F.drop offset.toNat).take length.toNat) rs := by
  have hget : Sys.exec kernel ex n (.getFile session handle) (cs 0) h = some (some f, h) := by
    change some ((h.tables session).getFile handle, h) = _
    rw [hlive]
  obtain ⟨rs, cs', hrun, hdel⟩ := @run_readLoop kernel ex n f seq F hread length.toNat
    length.toNat offset h (fun i => cs (i + 1)) hF hoff (Nat.le_refl _) hpos fun i => hcs _
  refine ⟨rs, cs', ?_, hdel⟩
  unfold handleRead
  rw [if_neg (Nat.not_lt.mpr hmax)]
  exact (Prog.run_act hget).trans hrun

end

end QuicFs.Server
