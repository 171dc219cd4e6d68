import QuicFs.Server.Alone
import QuicFs.System.Steps

/-!
# Reads and writes end to end

A client task run by itself, with every RPC it sends served to its end before the task goes
on (`execServed`): the RPCs of `client/src/conn.rs` composed with the handlers of the server.
`connRead` returns the bytes of the file (`read_end_to_end`) and `connWrite` writes its data
as one positioned write, or reports the failure (`write_end_to_end`).
-/

namespace QuicFs.System

open Lib Client Server Function

/-- The choices of an act, and of the stream it may open. -/
structure Served extends Chance where
  server : Nat → Chance := fun _ => {}

/-- The stream that was opened, if one was, runs to its end. -/
def serveNow (S : Setup) (c : Served) : Option Nat × World → Option (Option Nat × World)
  | (none, w) => some (none, w)
  | (some n, w) =>
    ((serveStream S).run (World.exec S (.stream n)) c.server w).map fun o => (some n, o.2.1)

/-- An act of a task; a request it sends is served at once. -/
def execServed (S : Setup) (actor : Actor) (a : Act) (c : Served) (w : World) :
    Option (a.Ret × World) :=
  match a with
  | .net (.send session request more purpose) =>
    (World.exec S (.client actor) (.net (.send session request more purpose)) c.toChance w).bind
      (serveNow S c)
  | a => World.exec S (.client actor) a c.toChance w

section
variable {S : Setup} {actor : Actor} {w : World}

/-- A handler run alone on the server's host is one run alone in the mount. -/
theorem run_onServer {n : Nat} {α : Type} {p : Calls α} : ∀ {w : World} {cs : Nat → Chance} {x : α}
    {h' : Host} {cs' : Nat → Server.Choice},
    p.run (Sys.exec S.kernel S.ex n) (fun i => (cs i).toChoice) w.host = some (x, h', cs') →
    ∃ hist cs'', (onServer p).run (World.exec S (.stream n)) cs w =
      some (x, { w with host := h', hist }, cs'') := by
  induction p with
  | ret y =>
    intro w cs x h' cs' h
    obtain ⟨rfl, rfl, -⟩ : y = x ∧ w.host = h' ∧ _ := by simpa using h
    exact ⟨w.hist, cs, rfl⟩
  | act a k ih =>
    intro w cs x h' cs' h
    obtain ⟨⟨r, h1⟩, he, h⟩ := Option.bind_eq_some_iff.mp h
    have hexec : World.exec S (.stream n) (.sys a) (cs 0) w =
        some (r, { w with host := h1,
                          hist := (w.hist.afterSys (w.net.rpcs n) a r).record n a r }) := by
      change (a.exec S.kernel S.ex n (cs 0).toChoice w.host).map _ = _
      rw [he]
      rfl
    obtain ⟨hist, cs'', hrun⟩ := ih r (w := { w with
      host := h1, hist := (w.hist.afterSys (w.net.rpcs n) a r).record n a r }) h
    exact ⟨hist, cs'', (Prog.run_act hexec).trans hrun⟩

/-- The mount after an RPC that was served. -/
def World.served (w : World) (rpc : Rpc) (host : Host) (hist : History) : World :=
  { w with
    net := { w.net with
      rpcs := update w.net.rpcs w.net.nextRpc (some { rpc with accepted := true })
      nextRpc := w.net.nextRpc + 1 }
    host, hist }

/-- **A request that is sent is served**, given what its handler does by itself. -/
theorem execServed_send (actor : Actor) {session : Nat} (request : Request)
    {more : List WriteRequest} (purpose : Purpose) {c : Served} {h' : Host}
    {cs' : Nat → Server.Choice} (hfail : c.fail = false) (hopen : w.net.closed session = false)
    (h : (handle S.ex S.dur more.length session request).run (Sys.exec S.kernel S.ex w.net.nextRpc)
      (fun i => (c.server (i + 1)).toChoice)
      { w.host with inbox := update w.host.inbox w.net.nextRpc more } = some ((), h', cs')) :
    ∃ hist, execServed S actor (.net (.send session request more purpose)) c w =
      some (some w.net.nextRpc,
        w.served (w.newRpc actor session request more purpose) h' hist) := by
  generalize hrpc : w.newRpc actor session request more purpose = rpc
  have hsend : World.exec S (.client actor) (.net (.send session request more purpose))
      c.toChance w =
      some (some w.net.nextRpc, w.post rpc more) := by
    change NetAct.exec S actor c.toChance w (.send session request more purpose) = _
    rw [NetAct.exec, if_neg (by simp [hfail, hopen]), ← hrpc]
    rfl
  have hrpcs : (w.post rpc more).net.rpcs w.net.nextRpc = some rpc := update_self ..
  have haccept : World.exec S (.stream w.net.nextRpc) .accept (c.server 0) (w.post rpc more) =
      some (⟨session, request, more.length⟩, (w.post rpc more).setRpc w.net.nextRpc
        { rpc with accepted := true }) := by
    change (w.post rpc more).accept w.net.nextRpc = _
    rw [World.accept, hrpcs, ← hrpc]
    rfl
  obtain ⟨hist, cs'', hrun⟩ := run_onServer (S := S) (n := w.net.nextRpc)
    (w := (w.post rpc more).setRpc w.net.nextRpc { rpc with accepted := true }) h
  refine ⟨hist, ?_⟩
  change (World.exec S (.client actor) (.net (.send session request more purpose))
    c.toChance w).bind
    (serveNow S c) = _
  rw [hsend]
  change serveNow S c (some w.net.nextRpc, w.post rpc more) = _
  have hserve : (serveStream S).run (World.exec S (.stream w.net.nextRpc)) c.server
      (w.post rpc more) =
      _ := (Prog.run_act haccept).trans hrun
  simp only [serveNow, hserve, Option.map_some]
  simp only [World.post, World.setRpc, World.served, update_idem]

theorem execServed_await {n : Nat} {rpc : Rpc} {r : Response} {c : Served} (hfail : c.fail = false)
    (hrpc : w.net.rpcs n = some rpc) (hr : (answersOf w.host n)[rpc.taken]? = some r) :
    execServed S actor (.net (.await n)) c w =
      some (some r, w.setRpc n { rpc with taken := rpc.taken + 1 }) := by
  change NetAct.exec S actor c.toChance w (.await n) = _
  rw [NetAct.exec, hrpc]
  simp only [hfail, Bool.false_eq_true, if_false, hr]
  rfl

theorem run_ensureConn {s : Nat} {cs : Nat → Served} (hconn : w.net.conn = some s)
    (hopen : w.net.closed s = false) :
    ensureConn.run (execServed S actor) cs w = some (some s, w, fun i => cs (i + 1)) := by
  have hlive : execServed S actor (.net .liveConn) (cs 0) w = some (some s, w) := by
    change some (w.net.conn.filter (!w.net.closed ·), w) = _
    rw [hconn, Option.filter_some, hopen]
    rfl
  exact Prog.run_act hlive

theorem run_awaitChecked {n : Nat} {rpc : Rpc} {r : Response} {cs : Nat → Served}
    (hfail : (cs 0).fail = false) (hrpc : w.net.rpcs n = some rpc)
    (hr : (answersOf w.host n)[rpc.taken]? = some r) :
    (awaitChecked n).run (execServed S actor) cs w =
      some (checkStatus r, w.setRpc n { rpc with taken := rpc.taken + 1 }, fun i => cs (i + 1)) :=
  Prog.run_act (execServed_await hfail hrpc hr)

/-! ## Write -/

/-- What the client makes of the answer to a Write. -/
def writeResult (status : Status) : Except RpcError Unit :=
  if status = .ok then .ok () else .error (.server status)

theorem writeResult_eq_ok {status : Status} : writeResult status = .ok () ↔ status = .ok := by
  unfold writeResult
  split <;> simp_all

/-- `ConnManager::write` over a live connection, given what the server's handler does. -/
theorem run_connWrite (actor : Actor) {s : Nat} (fh : Fh) {handle : ServerHandle} {offset : UInt64}
    {data : Bytes} {first : WriteRequest} {more : List WriteRequest} {cs : Nat → Served} {h' : Host}
    {cs' : Nat → Server.Choice} {r : Response} (hconn : w.net.conn = some s)
    (hopen : w.net.closed s = false) (hfail : ∀ i, (cs i).fail = false)
    (hframes : writeFrames S.chunkSize handle offset data = first :: more)
    (h : (handleWriteRpc more.length s w.net.seq first).run (Sys.exec S.kernel S.ex w.net.nextRpc)
      (fun i => ((cs 2).server (i + 1)).toChoice)
      { w.host with inbox := update w.host.inbox w.net.nextRpc more } = some ((), h', cs'))
    (hr : answersOf h' w.net.nextRpc = [r]) :
    ∃ w' rest, (connWrite S.chunkSize fh handle offset data).run (execServed S actor) cs w =
      some (writeResult r.status, w', rest) ∧ w'.host = h' := by
  have hseq : execServed S actor (.net .nextSeq) (cs 1) w =
      some (w.net.seq, { w with net := { w.net with seq := w.net.seq + 1 } }) := rfl
  obtain ⟨hist, hsend⟩ :=
    execServed_send (w := { w with net := { w.net with seq := w.net.seq + 1 } })
    actor (.write w.net.seq first) (.write fh) (hfail 2) hopen h
  generalize hw1 : World.served _ _ h' hist = w1 at hsend
  have hhost : w1.host = h' := by rw [← hw1]; rfl
  obtain ⟨rpc, hrpc, htaken⟩ : ∃ rpc, w1.net.rpcs w.net.nextRpc = some rpc ∧ rpc.taken = 0 := by
    rw [← hw1]
    exact ⟨_, update_self .., rfl⟩
  have hr1 : (answersOf w1.host w.net.nextRpc)[rpc.taken]? = some r := by
    rw [hhost, hr, htaken]
    rfl
  refine ⟨w1.setRpc w.net.nextRpc { rpc with taken := rpc.taken + 1 },
    fun i => cs (i + 4), ?_, hhost⟩
  unfold connWrite
  refine (Prog.run_bind (run_ensureConn hconn hopen)).trans ?_
  refine (@Prog.run_act _ _ _ _ _ (execServed S actor) (.net .nextSeq) _ (fun i => cs (i + 1)) w _ _
    hseq).trans ?_
  simp only [hframes]
  refine (@Prog.run_act _ _ _ _ _ (execServed S actor) (.net (.send s _ more (.write fh))) _
    (fun i => cs (i + 2)) _ _ _ hsend).trans ?_
  refine (Prog.run_bind (run_awaitChecked (hfail 3) hrpc hr1)).trans ?_
  unfold checkStatus writeResult
  by_cases hok : r.status = .ok
  · simp only [hok, if_true]
    rfl
  · simp only [hok, if_false]
    rfl

theorem answersOf_append {h h' : Host} {n : Nat} {rs : List Response}
    (h1 : h'.replies = h.replies ++ rs.map (n, ·)) : answersOf h' n = answersOf h n ++ rs := by
  have hself : (rs.map fun r => (n, r)).filter (·.1 = n) = rs.map fun r => (n, r) :=
    List.filter_eq_self.mpr (by simp)
  unfold answersOf
  rw [h1, List.filter_append, List.map_append, hself, List.map_map]
  simp

/-- How many bytes the operating system takes of frame number `i` of a Write that is served with
the choices `sv`; the choices before are the start of the stream, the lookup of the handle and
the wait for the stripe. -/
def roomOf (sv : Nat → Chance) (i : Nat) (f : WriteRequest) : Nat :=
  (sv (2 * i + 3)).room.getD f.data.length

theorem answersOf_wrote {n : Nat} {f : File} {h h' : Host} {file : Bytes} {r : Response}
    (hwrote : Wrote n f h h' file r) (hnew : answersOf h n = []) : answersOf h' n = [r] := by
  have happ : answersOf h' n = answersOf h n ++ [r] := answersOf_append hwrote.replies
  rw [happ, hnew, List.nil_append]

theorem exists_data_ne_nil {ws : List WriteRequest} (h : payload ws ≠ []) :
    ∃ f ∈ ws, f.data ≠ [] := by
  by_contra hno
  push Not at hno
  exact h (List.flatMap_eq_nil_iff.mpr hno)

/-- Frames that the operating system takes in full are written, all of them. -/
theorem handleWrite_taken {ws : List WriteRequest} {o : UInt64} {F : Bytes} {g : File}
    (os : Nat → Server.Choice) (hchain : Chained o ws) (hne : ws ≠ [])
    (hfit : o.toNat + (payload ws).length ≤ offsetMax)
    (hroom : ∀ i f, ws[i]? = some f → f.data.length ≤ (osOf g (os (2 * i)) f.data).room) :
    (handleWrite false ⟨F, 0⟩ (oses g os ws)).1 = some (.ok, (payload ws).length) ∧
      (handleWrite false ⟨F, 0⟩ (oses g os ws)).2.file = pwrite F o.toNat (payload ws) := by
  have hfst := map_fst_oses ws os (f := g)
  have hok : (handleWrite false ⟨F, 0⟩ (oses g os ws)).1 =
      some (.ok, 0 + (payload ((oses g os ws).map Prod.fst)).length) := by
    refine handleWrite_fits (hfst.symm ▸ hchain) (fun e => hne (by rw [← hfst, e]; rfl))
      (by rwa [hfst]) (fun x hx => ?_) ?_
    · obtain ⟨i, hi, hos⟩ := mem_oses.mp hx
      rw [hos]
      exact hroom i x.1 hi
    · rw [hfst]
      simp only [offsetMax, u64Max] at *
      omega
  rw [hfst, Nat.zero_add] at hok
  refine ⟨hok, ?_⟩
  rw [oses_eq_zip] at hok ⊢
  exact handleWrite_ok hchain hok

/-- A frame that the operating system does not take in full ends the Write with an error, and what
was written lies in the range of the data. -/
theorem handleWrite_cut {ws : List WriteRequest} {o : UInt64} {F : Bytes} {g : File}
    (os : Nat → Server.Choice) (hchain : Chained o ws) {i : Nat} {f : WriteRequest}
    (hi : ws[i]? = some f) (hshort : (osOf g (os (2 * i)) f.data).room < f.data.length) :
    (∃ e total, (handleWrite false ⟨F, 0⟩ (oses g os ws)).1 = some (.ofIo e, total)) ∧
      F.length ≤ (handleWrite false ⟨F, 0⟩ (oses g os ws)).2.file.length ∧
      ∀ p, p < o.toNat ∨ o.toNat + (payload ws).length ≤ p →
        (handleWrite false ⟨F, 0⟩ (oses g os ws)).2.file.getD p 0 = F.getD p 0 := by
  constructor
  · refine handleWrite_short (fun x hx => ?_)
      ⟨(f, osOf g (os (2 * i)) f.data), mem_oses.mpr ⟨i, hi, rfl⟩, hshort⟩
    refine (doneLast_of_chained hchain).dropLast x.1 ?_
    rw [← map_fst_oses (f := g) ws os, ← List.map_dropLast]
    exact List.mem_map_of_mem hx
  · obtain ⟨es, hes, hcov⟩ := handleWrite_within ⟨F, 0⟩ ((oses g os ws).map Prod.snd) hchain
    rw [oses_eq_zip, hes]
    refine ⟨length_le_applyAll F es, fun p hp => ?_⟩
    have hnone : lastHit es p = none := by
      rw [← Option.not_isSome_iff_eq_none]
      intro hsome
      have := Extent.hit_isSome.mp (hcov p hsome)
      simp only [Extent.stop] at this
      omega
    rw [getD_applyAll, hnone, Option.getD_none]

/-- **Write end to end.** Whichever of its frames the operating system takes in full, a Write of
`data` at `offset` on a live positioned handle is answered. If it takes all of them the answer
is `Ok` and the file has the data at the offset; if it fails one, or the handle is not open for
writing, the answer is an error and the file is as it was outside the range of the data. -/
theorem write_end_to_end {s : Nat} {fh : Fh} {handle : ServerHandle} {oh : OpenHandle} {F : Bytes}
    {offset : UInt64} {data : Bytes} {cs : Nat → Served} (hconn : w.net.conn = some s)
    (hopen : w.net.closed s = false) (hnew : answersOf w.host w.net.nextRpc = [])
    (hlive : (w.host.tables s).inner.lookup handle = some oh) (hpos : bit oh.flags 0x400 = false)
    (hF : w.host.fs.content oh.file.ino = some F)
    (hfree : w.host.stripes (stripeFor oh.inoKey) = none) (hdata : data ≠ [])
    (hfit : offset.toNat + data.length ≤ offsetMax) (hnet : ∀ i, (cs i).fail = false)
    (htime : ∀ i, ((cs 2).server (2 * i + 2)).fault = none) :
    ∃ result w' rest r,
      (connWrite S.chunkSize fh handle offset data).run (execServed S actor) cs w =
        some (result, w', rest) ∧
      answersOf w'.host w.net.nextRpc = [r] ∧
      (∀ j, j ≠ oh.file.ino → w'.host.fs.nodes j = w.host.fs.nodes j) ∧
      (oh.file.Writable → (∀ i f, (writeFrames S.chunkSize handle offset data)[i]? = some f →
          f.data.length ≤ roomOf (cs 2).server i f) →
        result = .ok () ∧ r.status = .ok ∧ r.written = data.length ∧
        w'.host.fs.content oh.file.ino = some (pwrite F offset.toNat data)) ∧
      ((¬oh.file.Writable ∨ ∃ i f, (writeFrames S.chunkSize handle offset data)[i]? = some f ∧
          roomOf (cs 2).server i f < f.data.length) →
        result ≠ .ok () ∧ r.status ≠ .ok ∧
        ∃ F', w'.host.fs.content oh.file.ino = some F' ∧ F.length ≤ F'.length ∧
          ∀ p, p < offset.toNat ∨ offset.toNat + data.length ≤ p → F'.getD p 0 = F.getD p 0) := by
  have hchain := writeFrames_chained S.chunkSize handle offset data
  have hpay := payload_writeFrames S.chunkSize handle offset data
  have hhandle := handle_of_mem_writeFrames S.chunkSize handle offset data
  generalize hws : writeFrames S.chunkSize handle offset data = ws at hchain hpay hhandle ⊢
  obtain ⟨first, more, rfl⟩ : ∃ first more, ws = first :: more := by
    cases ws with
    | nil => exact absurd hpay.symm hdata
    | cons first more => exact ⟨first, more, rfl⟩
  have hfirst : (w.host.tables s).inner.lookup first.handle = some oh := by
    rw [hhandle first List.mem_cons_self]; exact hlive
  obtain ⟨h', cs', status, written, hrun, hres, hwrote⟩ := @run_handleWriteRpc S.kernel S.ex
    w.net.nextRpc s w.net.seq first oh
    { w.host with inbox := update w.host.inbox w.net.nextRpc more }
    (fun i => ((cs 2).server (i + 1)).toChoice) more F hfirst hF hfree
    (update_self ..) (doneLast_of_chained hchain) htime
  rw [hpos] at hres hwrote
  have hanswers := answersOf_wrote hwrote hnew
  obtain ⟨w', rest, hconnRun, rfl⟩ := run_connWrite actor fh hconn hopen hnet hws hrun hanswers
  -- the choices that the calls of the frames are made with
  let os : Nat → Server.Choice := fun i => ((cs 2).server (i + 3)).toChoice
  have hroomOf : oh.file.Writable → ∀ i f, (osOf oh.file (os (2 * i)) f.data).room =
      roomOf (cs 2).server i f := fun hwrite i f => by rw [osOf, if_pos hwrite]; rfl
  refine ⟨_, w', rest, _, hconnRun, hanswers, hwrote.others, fun hwrite hroom => ?_,
    fun hshort => ?_⟩
  · obtain ⟨hok, hfile⟩ := handleWrite_taken (F := F) os hchain (List.cons_ne_nil _ _) (hpay ▸ hfit)
      fun i f hi => (hroom i f hi).trans_eq (hroomOf hwrite i f).symm
    rw [hpay] at hok hfile
    obtain ⟨rfl, rfl⟩ : status = .ok ∧ written = data.length := by simpa using hres.symm.trans hok
    exact ⟨rfl, rfl, rfl, hwrote.content.trans (congrArg some hfile)⟩
  · obtain ⟨i, f, hi, hless⟩ : ∃ i f, (first :: more)[i]? = some f ∧
        (osOf oh.file (os (2 * i)) f.data).room < f.data.length := by
      by_cases hwrite : oh.file.Writable
      · obtain ⟨i, f, hi, hless⟩ := hshort.resolve_left (not_not.mpr hwrite)
        exact ⟨i, f, hi, (hroomOf hwrite i f).trans_lt hless⟩
      · obtain ⟨f, hf, hne⟩ := exists_data_ne_nil (hpay ▸ hdata)
        obtain ⟨i, hi⟩ := List.mem_iff_getElem?.mp hf
        refine ⟨i, f, hi, ?_⟩
        rw [osOf, if_neg hwrite]
        exact List.length_pos_iff.mpr hne
    obtain ⟨⟨e, total, herr⟩, hlen, hsame⟩ := handleWrite_cut (F := F) os hchain hi hless
    obtain ⟨rfl, rfl⟩ : status = .ofIo e ∧ written = total := by simpa using hres.symm.trans herr
    exact ⟨fun h => Status.ofIo_ne_ok e (writeResult_eq_ok.mp h), Status.ofIo_ne_ok e, _,
      hwrote.content, hlen, hpay ▸ hsame⟩

/-- The small mount with `/a` created and open, on the server handle `0x700000001`. -/
def openedMount : World :=
  (((callback 65536 (.create 1 ['a'] 0o644 2)).run (execServed smallSetup .fuse) (fun _ => {})
    smallMount).map fun o => o.2.1).getD smallMount

/-- What the server keeps for `/a`. -/
def openedHandle : OpenHandle := ⟨[⟨['a'], by decide⟩], 2, ⟨2, .rdwr⟩, 2⟩

/-- Three bytes past the end of an empty file, in two frames. -/
theorem write_end_to_end_gap : ∃ w' rest,
    (connWrite 2 1 0x700000001 3 [1, 2, 3]).run
    (execServed { smallSetup with chunkSize := 2 } .fuse)
      (fun _ => {}) openedMount = some (.ok (), w', rest) ∧
    w'.host.fs.content 2 = some [0, 0, 0, 1, 2, 3] := by
  obtain ⟨result, w', rest, r, hrun, -, -, hok, -⟩ := @write_end_to_end
    { smallSetup with chunkSize := 2 } .fuse openedMount 0 1 0x700000001 openedHandle [] 3 [1, 2, 3]
    (fun _ => {}) (by decide +kernel) (by decide +kernel) (List.isEmpty_iff.mp (by decide +kernel))
    (by decide +kernel) (by decide) (by decide +kernel) (by decide +kernel) (by decide) (by decide)
    (fun _ => rfl) (fun _ => rfl)
  obtain ⟨rfl, -, -, hcontent⟩ := hok (by decide) fun i f _ => Nat.le_refl _
  exact ⟨w', rest, hrun, hcontent⟩

/-! ## Read -/

/-- The client collects what the frames deliver. -/
theorem run_readFrames {n : Nat} {seq : UInt64} (rs : List Response) :
    ∀ {fuel : Nat} {got data : Bytes} {offset : UInt64} {before : List Response}
      {w : World} {rpc : Rpc}
      {cs : Nat → Served},
    Delivers seq offset data rs → w.net.rpcs n = some rpc → answersOf w.host n = before ++ rs →
    rpc.taken = before.length → rs.length ≤ fuel → (∀ i, (cs i).fail = false) →
    ∃ w' rest, (readFrames n fuel got).run (execServed S actor) cs w =
      some (.ok (got ++ data), w', rest) ∧ w'.host = w.host := by
  induction rs with
  | nil => intro _ _ _ _ _ _ _ _ h; exact h.elim
  | cons r rs ih =>
    intro fuel got data offset before w rpc cs hdel hrpc hanswers htaken hfuel hcs
    obtain ⟨fuel, rfl⟩ : ∃ k, fuel = k + 1 := ⟨fuel - 1, by rw [List.length_cons] at hfuel; omega⟩
    have hr : (answersOf w.host n)[rpc.taken]? = some r := by
      rw [hanswers, htaken, List.getElem?_append_right (Nat.le_refl _), Nat.sub_self]
      rfl
    have hawait := @run_awaitChecked S actor w n rpc r cs (hcs 0) hrpc hr
    unfold readFrames
    cases rs with
    | nil =>
      obtain rfl : r = readAnswer seq offset data true := hdel
      exact ⟨_, _, Prog.run_bind hawait, rfl⟩
    | cons r' rs =>
      obtain ⟨d, rest, -, rfl, rfl, hdel⟩ := hdel
      obtain ⟨w', cs', hrun, hhost⟩ := @ih fuel (got ++ d) rest _ (before ++ [_])
        (w.setRpc n { rpc with taken := rpc.taken + 1 }) { rpc with taken := rpc.taken + 1 }
        (fun i => cs (i + 1)) hdel (update_self ..)
        (by rw [List.append_assoc]; exact hanswers) (by rw [List.length_append, ← htaken]; rfl)
        (Nat.le_of_succ_le_succ hfuel) (fun i => hcs (i + 1))
      refine ⟨w', cs', ?_, hhost⟩
      rw [← List.append_assoc]
      exact (Prog.run_bind hawait).trans hrun

/-- **Read end to end.** However short the reads of the operating system are, a Read of `length`
bytes at `offset` returns the bytes of the file in that range, in frames of which each is where
its data belongs and exactly the last one has `eof`. -/
theorem read_end_to_end {s : Nat} {fh : Fh} {handle : ServerHandle} {f : File} {F : Bytes}
    {offset : UInt64} {length : UInt32} {cs : Nat → Served} (hconn : w.net.conn = some s)
    (hopen : w.net.closed s = false) (hnew : answersOf w.host w.net.nextRpc = [])
    (hlive : (w.host.tables s).getFile handle = some f) (hread : f.Readable)
    (hF : w.host.fs.content f.ino = some F) (hoff : offset.toNat + length.toNat ≤ offsetMax)
    (hpos : 0 < length.toNat) (hmax : length.toNat ≤ maxReadRequest)
    (hnet : ∀ i, (cs i).fail = false) (hos : ∀ i, ((cs 2).server i).fault = none) :
    ∃ w' rest rs,
      (connRead fh handle offset length).run (execServed S actor) cs w =
        some (.ok ((F.drop offset.toNat).take length.toNat), w', rest) ∧
      answersOf w'.host w.net.nextRpc = rs ∧ rs ≠ [] ∧ ∀ i r, rs[i]? = some r →
        r.status = .ok ∧
        r.offset.toNat = offset.toNat + ((rs.take i).flatMap Response.data).length ∧
        (r.eof = true ↔ i + 1 = rs.length) := by
  obtain ⟨rs, cs', hrun, hdel⟩ := @run_handleRead S.kernel S.ex w.net.nextRpc s w.net.seq
    handle offset
    length f F { w.host with inbox := update w.host.inbox w.net.nextRpc [] }
    (fun i => ((cs 2).server (i + 1)).toChoice) hlive hread hF hoff hpos hmax (fun i => hos _)
  have hseq : execServed S actor (.net .nextSeq) (cs 1) w =
      some (w.net.seq, { w with net := { w.net with seq := w.net.seq + 1 } }) := rfl
  obtain ⟨hist, hsend⟩ :=
    execServed_send (w := { w with net := { w.net with seq := w.net.seq + 1 } })
    actor (.read w.net.seq handle offset length) (.read fh) (hnet 2) hopen hrun
  generalize hw1 : World.served _ _ _ hist = w1 at hsend
  have hanswers : answersOf w1.host w.net.nextRpc = [] ++ rs := by
    rw [← hw1, ← hnew]
    exact answersOf_append rfl
  obtain ⟨rpc, hrpc, htaken⟩ : ∃ rpc, w1.net.rpcs w.net.nextRpc = some rpc ∧ rpc.taken = 0 := by
    rw [← hw1]
    exact ⟨_, update_self .., rfl⟩
  have hdata : ((F.drop offset.toNat).take length.toNat).length ≤ length.toNat :=
    List.length_take_le ..
  obtain ⟨w', rest, hcollect, hhost⟩ := @run_readFrames S actor w.net.nextRpc w.net.seq rs
    (length.toNat + 1) [] _ offset [] w1 rpc (fun i => cs (i + 3)) hdel hrpc hanswers htaken
    (Nat.le_trans hdel.length_le (by omega)) (fun i => hnet _)
  have hwrap : offset.toNat + ((F.drop offset.toNat).take length.toNat).length < 2 ^ 64 := by
    simp only [offsetMax, maxReadRequest] at *
    omega
  refine ⟨w', rest, rs, ?_, by rw [hhost, hanswers, List.nil_append], ?_, hdel.frames hwrap⟩
  · unfold connRead
    refine (Prog.run_bind (run_ensureConn hconn hopen)).trans ?_
    refine (@Prog.run_act _ _ _ _ _ (execServed S actor) (.net .nextSeq) _
      (fun i => cs (i + 1)) w _ _
      hseq).trans ?_
    exact (@Prog.run_act _ _ _ _ _ (execServed S actor) (.net (.send s _ [] (.read fh))) _
      (fun i => cs (i + 2)) _ _ _ hsend).trans hcollect
  · rintro rfl
    exact hdel

end

/-- The file of three bytes, read from the second on, one byte at a time. -/
theorem read_end_to_end_short_reads :
    let w := { openedMount with host := { openedMount.host with
      fs := openedMount.host.fs.setContent 2 [7, 8, 9] } }
    ∃ w' rest, (connRead 1 0x700000001 1 5).run (execServed smallSetup .fuse)
      (fun _ => { server := fun _ => { room := some 1 } }) w = some (.ok [8, 9], w', rest) := by
  intro w
  obtain ⟨w', rest, -, hrun, -⟩ := @read_end_to_end smallSetup .fuse w 0 1 0x700000001 ⟨2, .rdwr⟩
    [7, 8, 9] 1 5 (fun _ => { server := fun _ => { room := some 1 } }) (by decide +kernel)
    (by decide +kernel) (List.isEmpty_iff.mp (by decide +kernel)) (by decide +kernel) (by decide)
    (by decide +kernel) (by decide) (by decide) (by decide) (fun _ => rfl) (fun _ => rfl)
  exact ⟨w', rest, hrun⟩

/-- Past `i64::MAX` the file cannot be positioned: an error and not the empty read. -/
theorem read_past_offsetMax :
    openedMount.host.fs.content 2 = some [] ∧
      ((0x8000000000000000 : UInt64).toNat = offsetMax + 1) ∧
    ((connRead 1 0x700000001 0x8000000000000000 10).run (execServed smallSetup .fuse) (fun _ => {})
      openedMount).map Prod.fst = some (.error (.server .invalidArg)) := by
  decide +kernel

end QuicFs.System
