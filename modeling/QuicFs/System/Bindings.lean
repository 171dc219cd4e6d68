import QuicFs.System.Attempts
import QuicFs.System.Generations
import QuicFs.System.Serving

/-!
# The file behind a handle

A client handle is bound to a file by the server handles it uses: those of the sessions it was
opened and reopened in. `Steady` holds in the runs in which a reopen finds the handle's own file or
none, and no id of a server handle is given out twice; in these every server handle that the client
uses for a handle leads to the file the handle was opened on (`Bound`), and so the streams read and
write that file only: `handle_keeps_file`. In others they do not, since the path that `ensure_live`
reopens may have been given to another file: `handle_rebound`.
-/

namespace QuicFs.Server

open Lib Function

def WalkEnd.found? (base : Ino) : WalkEnd → Option Ino
  | .found stack => some (top base stack)
  | _ => none

def Sys.accesses? : Sys → Option File
  | .writeAt f _ _ _ | .readAt f _ _ => some f
  | _ => none

/-- What an `open` finds at its path. -/
def Sys.finds? (kernel : Kernel) (ex : Export) (fs : Fs) : Sys → Option Ino
  | .openat2 path flags _ =>
    (kernel.beneath fs ex.root (!flags.noFollow) (path.map (·.1))).found? ex.root
  | .openPlain path flags _ => (walkPath ex fs (!flags.noFollow) path).found? slash
  | _ => none

section
variable {kernel : Kernel} {ex : Export} {n : Nat} {c : Choice} {h h' : Host} {path : RootPath}
    {flags : OpenFlags}
  {mode : Nat} {fd : Ino}

theorem found_of_openAt {fs fs' : Fs} {base : Ino} {e : WalkEnd} (hc : flags.creat = false)
    (ho : fs.openAt base flags mode e = .ok (fd, fs')) : e.found? base = some fd := by
  rcases Fs.openAt_eq_ok ho with ⟨st, rfl, rfl, -⟩ | ⟨st, name, -, hcreat, -⟩
  · rfl
  · cases hc.symm.trans hcreat

theorem found_of_withFault {fault : Option Errno} {base : Ino} {e : WalkEnd}
    (hc : flags.creat = false)
    (ho : withFault fault h (h.fs.openAt base flags mode e) = some (.ok fd, h')) :
    e.found? base = some fd := by
  rcases withFault_eq_some ho with ⟨-, y, fs, hok, hr, -⟩ | ⟨⟨_, hr⟩, -⟩
  · cases hr
    exact found_of_openAt hc hok
  · cases hr

theorem finds_of_openat2 (hc : flags.creat = false)
    (he : (Sys.openat2 path flags mode).exec kernel ex n c h = some (.ok fd, h')) :
    (Sys.openat2 path flags mode).finds? kernel ex h.fs = some fd := by
  change openBeneath kernel ex h path flags mode c.fault = some (.ok fd, h') at he
  rcases openBeneath_eq_some he with ⟨-, -, he⟩ | ⟨-, hr, -⟩
  · exact found_of_withFault hc he
  · cases hr

theorem finds_of_openPlain (hc : flags.creat = false)
    (he : (Sys.openPlain path flags mode).exec kernel ex n c h = some (.ok fd, h')) :
    (Sys.openPlain path flags mode).finds? kernel ex h.fs = some fd :=
  found_of_withFault hc he

theorem getFile_update {tables : Nat → HandleTable} {t : HandleTable} {s session : Nat}
    {id : ServerHandle} {f : File} (hf : (update tables s t session).getFile id = some f) :
    session = s ∧ t.getFile id = some f ∨ (tables session).getFile id = some f := by
  by_cases e : session = s
  · subst e
    rw [update_self] at hf
    exact .inl ⟨rfl, hf⟩
  · rw [update_of_ne e] at hf
    exact .inr hf

theorem exec_tables {a : Sys} {r : a.Ret} (he : a.exec kernel ex n c h = some (r, h'))
    {session : Nat} {id : ServerHandle} {f : File} (hf : (h'.tables session).getFile id = some f) :
    (h.tables session).getFile id = some f ∨
      ∃ handle, a = .tryInsert session handle ∧ HEq r (some id) ∧ f = handle.file := by
  by_cases ha : a.OnFs
  · obtain ⟨fs, rfl⟩ := exec_onFs ha he
    exact .inl hf
  · cases a with
    | tryInsert s handle =>
      simp only [Sys.exec] at he
      split at he
      · cases he; exact .inl hf
      · next id' t ht =>
        cases he
        rcases getFile_update hf with ⟨rfl, hnew⟩ | hold
        · rw [HandleTable.getFile_tryInsert ht] at hnew
          split at hnew
          · next e =>
            subst e
            exact .inr ⟨handle, rfl, .rfl, (Option.some.inj hnew).symm⟩
          · exact .inl hnew
        · exact .inl hold
    | removeHandle s id' =>
      cases he
      rcases getFile_update hf with ⟨rfl, hnew⟩ | hold
      · have hnew := (HandleTable.getFile_remove (h.tables session) id' id).symm.trans hnew
        split at hnew
        · cases hnew
        · exact .inl hnew
      · exact .inl hold
    | getFile | getWriteCtx => cases he; exact .inl hf
    | unlockStripe | reply => cases he; exact .inl hf
    | lockStripe i =>
      simp only [Sys.exec] at he
      split at he
      · cases he; exact .inl hf
      · split at he <;> cases he
        exact .inl hf
    | recvFrame =>
      simp only [Sys.exec] at he
      split at he
      · cases he; exact .inl hf
      · split at he <;> cases he
        exact .inl hf
    | _ => exact absurd trivial ha

end

end QuicFs.Server

namespace QuicFs.System

open Lib Client Server Function

def Purpose.accesses? : Purpose → Option Fh
  | .read fh | .write fh => some fh
  | _ => none

def Purpose.reopens? : Purpose → Option Fh
  | .reopen fh => some fh
  | _ => none

/-- The stream that opens a file by its path, and the file at the path. -/
def Tid.opens? (S : Setup) (fs : Fs) : Tid → Act → Option (Nat × Ino)
  | .stream n, .sys a => (a.finds? S.kernel S.ex fs).map (n, ·)
  | _, _ => none

/-- The file that the id which the handle table gives out next was given out for before. -/
def Tid.reissues? (w : World) : Tid → Act → Option Ino
  | .stream _, .sys (.tryInsert session _) => w.hist.issued (w.host.tables session).counter
  | _, _ => none

/-- A reopen finds the file of the handle or none, and ids are new. -/
def Steady (S : Setup) : MountCond where
  run w t a _ :=
    (∀ x ∈ t.opens? S w.host.fs a, ∀ rpc ∈ w.net.rpcs x.1, ∀ fh ∈ rpc.purpose.reopens?,
      w.files.home fh = some x.2) ∧
    t.reissues? w a = none
  start := promisedStart
  env _ _ := True

instance (S : Setup) : (Steady S).Checkable where
  run w t a _ := inferInstanceAs (Decidable (
    (∀ x ∈ t.opens? S w.host.fs a, ∀ rpc ∈ w.net.rpcs x.1, ∀ fh ∈ rpc.purpose.reopens?,
      w.files.home fh = some x.2) ∧
    t.reissues? w a = none))
  start w t job := inferInstanceAs (Decidable (promisedStart w t job))
  env _ _ := isTrue trivial

/-- The server handle leads to the file the client's handle was opened on. -/
def World.Binds (w : World) (fh : Fh) (h : ServerHandle) : Prop :=
  ∃ i, w.files.home fh = some i ∧ w.hist.issued h = some i

/-- If the RPC is to reopen a handle, that handle was opened on the file. -/
def World.Reopens (w : World) (n : Nat) (i : Ino) : Prop :=
  ∀ rpc ∈ w.net.rpcs n, ∀ fh ∈ rpc.purpose.reopens?, w.files.home fh = some i

/-- What a stream has in hand. -/
structure StreamBound (w : World) (n : Nat) (l : StreamPhase) : Prop where
  held : ∀ {f}, l.held = some f → ∃ id, l.request.handle? = some id ∧ w.hist.issued id = some f.ino
  fds : ∀ i ∈ l.fds, w.Reopens n i
  inserted : ∀ {h i}, l.inserted = some (h, i) → w.hist.issued h = some i ∧ i ∈ l.fds

def World.AnswersFor (w : World) (n : Nat) (r : Response) : Prop :=
  r.status = .ok → r.op = .open ∨ r.op = .create →
    ∃ i, w.hist.issued r.handle = some i ∧ (∀ st ∈ r.stat, st.1 = i) ∧ w.Reopens n i

/-- Every server handle in use leads to the file it was issued for, and every one that is used for
a handle of the client to the file that handle was opened on. -/
structure Bound (w : World) (p : Clients) (s : Streams) : Prop where
  table : ∀ {session id f}, (w.host.tables session).getFile id = some f →
    w.hist.issued id = some f.ino
  opened : ∀ {fh f}, w.files.opened fh = some f → w.Binds fh f.serverHandle
  known : ∀ {a fh h}, (fh, h) ∈ (p a).known → w.Binds fh h
  fresh : ∀ {a h i}, (p a).opened = some (h, i) → w.hist.issued h = some i
  sent : ∀ {n rpc fh h}, w.net.rpcs n = some rpc → rpc.purpose.accesses? = some fh →
    rpc.request.handle? = some h → w.Binds fh h
  stream : ∀ {n l}, s n = some l → StreamBound w n l
  replies : ∀ {n r}, (n, r) ∈ w.host.replies → w.AnswersFor n r

/-- Nothing that was issued, opened or sent changes. -/
structure Onward (w w' : World) : Prop where
  issued : ∀ {h i}, w.hist.issued h = some i → w'.hist.issued h = some i
  home : ∀ {fh i}, w.files.home fh = some i → w'.files.home fh = some i
  rpcs : ∀ {n rpc'}, w'.net.rpcs n = some rpc' →
    w.net.rpcs n = none ∨ ∃ rpc, w.net.rpcs n = some rpc ∧ rpc.Same rpc'

section
variable {S : Setup} {a : Actor} {w w' : World} {l : ClientPhase} {p p' : Clients} {s s' : Streams}
    {ch : Chance}
  {n : Nat} {rpc rpc' : Rpc} {fh : Fh} {i : Ino} {h : ServerHandle}

theorem Onward.binds (hl : Onward w w') (hb : w.Binds fh h) : w'.Binds fh h := by
  obtain ⟨i, hhome, hi⟩ := hb
  exact ⟨i, hl.home hhome, hl.issued hi⟩

theorem Onward.reopens (hl : Onward w w') (hn : w.net.rpcs n = some rpc) (hr : w.Reopens n i) :
    w'.Reopens n i := by
  intro rpc' hm fh hp
  rcases hl.rpcs hm with hnone | ⟨rpc, hm, hs⟩
  · cases hn.symm.trans hnone
  · exact hl.home (hr rpc hm fh (hs.purpose ▸ hp))

theorem Onward.stream {l : StreamPhase} (hl : Onward w w') (hn : w.net.rpcs n = some rpc)
    (h : StreamBound w n l) : StreamBound w' n l where
  held hf := by
    obtain ⟨id, hid, hi⟩ := h.held hf
    exact ⟨id, hid, hl.issued hi⟩
  fds i hi := hl.reopens hn (h.fds i hi)
  inserted hi := ⟨hl.issued (h.inserted hi).1, (h.inserted hi).2⟩

theorem Onward.answersFor {r : Response} (hl : Onward w w') (hn : w.net.rpcs n = some rpc)
    (h : w.AnswersFor n r) : w'.AnswersFor n r := by
  intro hok hop
  obtain ⟨i, hi, hst, hr⟩ := h hok hop
  exact ⟨i, hl.issued hi, hst, hl.reopens hn hr⟩

/-- A stream has in hand the file that the handle of its Read or Write was opened on. -/
theorem Bound.home {l : StreamPhase} {f : File} (hb : Bound w p s) (hm : Mounted w p s)
    (hn : s n = some l) (hf : l.held = some f) (hrpc : w.net.rpcs n = some rpc)
    (hp : rpc.purpose.accesses? = some fh) : w.files.home fh = some f.ino := by
  obtain ⟨id, hid, hi⟩ := (hb.stream hn).held hf
  obtain ⟨rpc', hrpc', -, -, hreq⟩ := hm.rpcs.stream hn
  obtain rfl : rpc' = rpc := Option.some.inj (hrpc'.symm.trans hrpc)
  obtain ⟨i, hhome, hi'⟩ := hb.sent hrpc hp (hreq ▸ hid)
  rw [hhome, ← hi', hi]

/-- A step keeps the bindings if what is new in it is bound. -/
theorem Bound.step (hb : Bound w p s) (hm : Mounted w p s) (hl : Onward w w')
    (htable : ∀ {session id f}, (w'.host.tables session).getFile id = some f →
      (w.host.tables session).getFile id = some f ∨ w'.hist.issued id = some f.ino)
    (hopened : ∀ {fh f}, w'.files.opened fh = some f → w.files.opened fh = some f ∨
      w'.Binds fh f.serverHandle)
    (hknown : ∀ {a fh h}, (fh, h) ∈ (p' a).known → (fh, h) ∈ (p a).known ∨ w'.Binds fh h)
    (hfresh : ∀ {a h i}, (p' a).opened = some (h, i) → (p a).opened = some (h, i) ∨
      w'.hist.issued h = some i)
    (hsent : ∀ {n rpc fh h}, w.net.rpcs n = none → w'.net.rpcs n = some rpc →
      rpc.purpose.accesses? = some fh →
      rpc.request.handle? = some h → w'.Binds fh h)
    (hstream : ∀ {n l}, s' n = some l → s n = some l ∨ StreamBound w' n l)
    (hreplies : ∀ {n r}, (n, r) ∈ w'.host.replies → (n, r) ∈ w.host.replies ∨ w'.AnswersFor n r) :
    Bound w' p' s' where
  table hf := (htable hf).elim (fun hf => hl.issued (hb.table hf)) id
  opened hf := (hopened hf).elim (fun hf => hl.binds (hb.opened hf)) id
  known hk := (hknown hk).elim (fun hk => hl.binds (hb.known hk)) id
  fresh ho := (hfresh ho).elim (fun ho => hl.issued (hb.fresh ho)) id
  sent {n rpc' fh h} hn hp hh := by
    rcases hl.rpcs hn with hnone | ⟨rpc, hm, hs⟩
    · exact hsent hnone hn hp hh
    · exact hl.binds (hb.sent hm (hs.purpose ▸ hp) (hs.request ▸ hh))
  stream {n l} hn := by
    rcases hstream hn with hn | h
    · obtain ⟨rpc, hrpc, -⟩ := hm.rpcs.stream hn
      exact hl.stream hrpc (hb.stream hn)
    · exact h
  replies {n r} hr := by
    rcases hreplies hr with hr | h
    · obtain ⟨rpc, hrpc, -⟩ := hm.rpcs.replies hr
      exact hl.answersFor hrpc (hb.replies hr)
    · exact h

theorem Bound.frame (hb : Bound w p s) (hm : Mounted w p s) (hf : w'.files = w.files)
    (hn : w'.net.rpcs = w.net.rpcs) (hh : w'.host = w.host) (hi : w'.hist.issued = w.hist.issued)
    (hk : l.known = (p a).known) (ho : l.opened = (p a).opened) : Bound w' (update p a l) s := by
  refine hb.step hm ⟨fun h => hi ▸ h, fun h => hf ▸ h, fun hm => .inr (rpcs_same hn hm)⟩ ?_ ?_ ?_
    ?_ ?_ .inl ?_
  · intro _ _ _ h
    exact .inl (hh ▸ h)
  · intro _ _ h
    exact .inl (hf ▸ h)
  · intro b fh h hb
    by_cases e : b = a
    · subst e
      rw [update_self, hk] at hb
      exact .inl hb
    · exact .inl (by rwa [update_of_ne e] at hb)
  · intro b h i hb
    by_cases e : b = a
    · subst e
      rw [update_self, ho] at hb
      exact .inl hb
    · exact .inl (by rwa [update_of_ne e] at hb)
  · intro n rpc fh h hnone hm
    rw [hn, hnone] at hm
    cases hm
  · intro _ _ h
    exact .inl (hh ▸ h)

theorem known_update {k : Fh × ServerHandle} {b : Actor} {P : Prop}
    (hk : k ∈ (update p a l b).known) (hl : k ∈ l.known → k ∈ (p a).known ∨ P) :
    k ∈ (p b).known ∨ P := by
  by_cases e : b = a
  · subst e
    rw [update_self] at hk
    exact hl hk
  · rw [update_of_ne e] at hk
    exact .inl hk

theorem opened_update {x : ServerHandle × Ino} {b : Actor} {P : Prop}
    (hx : (update p a l b).opened = some x) (hl : l.opened = some x → (p a).opened = some x ∨ P) :
    (p b).opened = some x ∨ P := by
  by_cases e : b = a
  · subst e
    rw [update_self] at hx
    exact hl hx
  · rw [update_of_ne e] at hx
    exact .inl hx

/-- A step on the client's table of open files. -/
theorem Bound.files {f : Files} (hb : Bound w p s) (hm : Mounted w p s)
    (hhome : ∀ {fh i}, w.files.home fh = some i → f.home fh = some i)
    (hopened : ∀ {fh x}, f.opened fh = some x → w.files.opened fh = some x ∨
      { w with files := f }.Binds fh x.serverHandle)
    (hknown : ∀ {fh h}, (fh, h) ∈ l.known → (fh, h) ∈ (p a).known ∨
      { w with files := f }.Binds fh h)
    (hfresh : l.opened = (p a).opened) : Bound { w with files := f } (update p a l) s := by
  refine hb.step hm ⟨id, hhome, fun hm => .inr (rpcs_same rfl hm)⟩ .inl hopened ?_ ?_ ?_ .inl .inl
  · intro _ _ _ hk
    exact known_update hk hknown
  · intro _ _ _ ho
    exact opened_update ho fun h => .inl (hfresh ▸ h)
  · intro _ _ _ _ hnone hn
    cases hnone.symm.trans hn

theorem bound_files {op : FileAct} {r : op.Ret} (hb : Bound w p s) (hm : Mounted w p s)
    (hpre : fileProtocol.pre (p a) op)
    (he : World.exec S (.client a) (.files op) ch w = some (r, w')) :
    Bound w' (update p a (fileProtocol.next (p a) op r)) s := by
  obtain ⟨f, hx, rfl⟩ := exec_files he
  obtain ⟨rfl, rfl⟩ := Prod.mk.inj hx
  cases op with
  | get fh =>
    refine hb.files hm id .inl (fun {fh' h} hk => ?_) ?_
    · change (fh', h) ∈ ((p a).found fh (w.files.opened fh)).known at hk
      cases ho : w.files.opened fh with
      | none =>
        rw [ho] at hk
        exact .inl hk
      | some x =>
        rw [ho] at hk
        rcases List.mem_cons.mp hk with e | hk
        · obtain ⟨rfl, rfl⟩ := Prod.mk.inj e
          exact .inr (hb.opened ho)
        · exact .inl hk
    · change ((p a).found fh (w.files.opened fh)).opened = _
      cases w.files.opened fh <;> rfl
  | restamp fh handle gen =>
    refine hb.files hm id (fun {fh' x} hf => ?_) .inl rfl
    simp only [update_apply] at hf
    split at hf
    · next e =>
      subst e
      obtain ⟨y, -, rfl⟩ := Option.map_eq_some_iff.mp hf
      exact .inr (hb.known hpre)
    · exact .inl hf
  | nextFh => exact hb.files hm id .inl .inl rfl
  | insert fh file home =>
    have hnone := ((hm.opened.task a).fresh fh hpre.1).2
    refine hb.files hm (fun {fh' i} hi => ?_) (fun {fh' x} hf => ?_) .inl rfl
    · refine (update_of_ne (fun e => ?_) ..).trans hi
      subst e
      cases hnone.symm.trans hi
    · simp only [update_apply] at hf
      split at hf
      · next e =>
        obtain rfl := Option.some.inj hf
        exact .inr ⟨home, by simp [e], hb.fresh hpre.2⟩
      · exact .inl hf
  | remove fh =>
    refine hb.files hm id (fun {fh' x} hf => ?_) .inl rfl
    simp only [update_apply] at hf
    split at hf
    · cases hf
    · exact .inl hf

/-! ## Sending and receiving -/

theorem binds_of_maySend {chunkSize : UInt32} {request : Request} {more : List WriteRequest}
    {purpose : Purpose} (hb : Bound w p s) (hm : (p a).MaySend chunkSize request more purpose)
    (hp : purpose.accesses? = some fh) (hh : request.handle? = some h) : w.Binds fh h := by
  cases purpose with
  | read k =>
    obtain rfl := Option.some.inj hp
    obtain ⟨-, seq, handle, offset, length, rfl, hk, -⟩ := hm
    obtain rfl := Option.some.inj hh
    exact hb.known hk
  | write k =>
    obtain rfl := Option.some.inj hp
    obtain ⟨seq, first, handle, offset, data, runs, batch, rfl, hframes, hk, -⟩ := hm
    obtain rfl := Option.some.inj hh
    have hfirst : first.handle = handle :=
      handle_of_mem_writeFrames _ _ _ _ first (hframes ▸ List.mem_cons_self)
    rw [hfirst]
    exact hb.known hk
  | other | «open» | reopen | truncate => cases hp

theorem bound_send {session : Nat} {request : Request} {more : List WriteRequest}
    {purpose : Purpose} (hb : Bound w p s) (hm : Mounted w p s)
    (hsend : (p a).MaySend S.chunkSize request more purpose)
    (hk : l.known = (p a).known) (ho : l.opened = (p a).opened) :
    Bound (w.post (w.newRpc a session request more purpose) more) (update p a l) s := by
  refine hb.step hm ⟨id, id, fun {n rpc'} hn => ?_⟩
    .inl .inl (fun hb => known_update hb fun h => .inl (hk ▸ h))
    (fun hb => opened_update hb fun h => .inl (ho ▸ h)) (fun {n rpc fh h} hnone hn hp hh => ?_)
      .inl .inl
  · rcases post_cases hn with ⟨rfl, -⟩ | hn
    · cases hold : w.net.rpcs w.net.nextRpc with
      | none => exact .inl rfl
      | some x => exact absurd (hm.rpcs.lt hold) (Nat.lt_irrefl _)
    · exact .inr ⟨rpc', hn, ⟨rfl, rfl, rfl, rfl, rfl, rfl⟩⟩
  · rcases post_cases hn with ⟨-, rfl⟩ | hn
    · have hbind : w.Binds fh h := binds_of_maySend hb hsend hp hh
      exact hbind
    · cases hnone.symm.trans hn

theorem received_binds {r : Response} {q : Purpose} (hb : Bound w p s) (hm : Mounted w p s)
    (hq : (p a).rpc = some (n, q)) (hr : (n, r) ∈ w.host.replies) :
    (∀ k ∈ ((p a).received (some r)).known, k ∈ (p a).known ∨ w.Binds k.1 k.2) ∧
    ∀ x, ((p a).received (some r)).opened = some x → (p a).opened = some x ∨
      w.hist.issued x.1 = some x.2 := by
  obtain ⟨-, rpc, hn, hp, -⟩ := (hm.rpcs.task a).rpc hq
  obtain ⟨rpc', hn', -, hop⟩ := hm.rpcs.replies hr
  obtain rfl : rpc = rpc' := Option.some.inj (hn.symm.trans hn')
  have hformed := hm.rpcs.formed hn
  unfold Rpc.Formed at hformed
  cases q with
  | «open» =>
    rw [hp] at hformed
    have hreq : r.op = .open ∨ r.op = .create := by
      rcases hformed with ⟨seq, path, flags, e⟩ | ⟨seq, path, flags, mode, e⟩
      · exact .inl (by rw [← hop, e]; rfl)
      · exact .inr (by rw [← hop, e]; rfl)
    refine ⟨fun k hk => .inl (by simpa [ClientPhase.received, hq] using hk), fun x hx => ?_⟩
    simp only [ClientPhase.received, hq] at hx
    split at hx
    · next hok =>
      obtain ⟨i, hi, hst, -⟩ := hb.replies hr hok hreq
      obtain ⟨st, hs, rfl⟩ := Option.map_eq_some_iff.mp hx
      exact .inr (by rw [hst st hs]; exact hi)
    · exact .inl hx
  | reopen fh =>
    rw [hp] at hformed
    obtain ⟨seq, path, flags, e⟩ := hformed
    have hreq : r.op = .open := by rw [← hop, e]; rfl
    refine ⟨fun k hk => ?_, fun x hx => .inl (by simpa [ClientPhase.received, hq] using hx)⟩
    simp only [ClientPhase.received, hq] at hk
    split at hk
    · next hok =>
      rcases List.mem_cons.mp hk with rfl | hk
      · obtain ⟨i, hi, -, hre⟩ := hb.replies hr hok.1 (.inl hreq)
        exact .inr ⟨i, hre rpc hn fh (by rw [hp]; rfl), hi⟩
      · exact .inl hk
    · exact .inl hk
  | other | read | write | truncate =>
    exact ⟨fun k hk => .inl (by simpa [ClientPhase.received, hq] using hk),
      fun x hx => .inl (by simpa [ClientPhase.received, hq] using hx)⟩

theorem received_same {r : Option Response} (hq : l.rpc = none ∨ r = none) :
    (l.received r).known = l.known ∧ (l.received r).opened = l.opened := by
  unfold ClientPhase.received
  rcases hq with hq | rfl
  · rw [hq]
    cases r with
    | none => exact ⟨rfl, rfl⟩
    | some r => dsimp only; split <;> exact ⟨rfl, rfl⟩
  · cases l.rpc <;> exact ⟨rfl, rfl⟩

theorem onward_setRpc (hn : w.net.rpcs n = some rpc) (hs : rpc.Same rpc') :
    Onward w (w.setRpc n rpc') := by
  refine ⟨id, id, fun {m x} hm => .inr ?_⟩
  rcases setRpc_cases hm with ⟨rfl, rfl⟩ | ⟨-, hm⟩
  · exact ⟨rpc, hn, hs⟩
  · exact rpcs_same rfl hm

theorem Bound.setRpc (hb : Bound w p s) (hm : Mounted w p s) (hn : w.net.rpcs n = some rpc)
    (hs : rpc.Same rpc') (hknown : ∀ k ∈ l.known, k ∈ (p a).known ∨ w.Binds k.1 k.2)
    (hfresh : ∀ x, l.opened = some x → (p a).opened = some x ∨ w.hist.issued x.1 = some x.2) :
    Bound (w.setRpc n rpc') (update p a l) s := by
  have honward := onward_setRpc hn hs
  refine hb.step hm honward
    .inl .inl (fun hk => known_update hk fun h => (hknown _ h).imp_right honward.binds)
    (fun ho => opened_update ho fun h => hfresh _ h) (fun {m x fh h} hnone hm => ?_) .inl .inl
  rcases setRpc_cases hm with ⟨rfl, -⟩ | ⟨-, hm⟩
  · cases hnone.symm.trans hn
  · cases hnone.symm.trans hm

theorem bound_await {r : Option Response} (hb : Bound w p s) (hm : Mounted w p s)
    (hpre : (netProtocol S.chunkSize).pre (p a) (.await n))
    (he : World.exec S (.client a) (.net (.await n)) ch w = some (r, w')) :
    Bound w' (update p a ((p a).received r)) s := by
  obtain ⟨rpc, hn, ⟨rfl, rfl⟩ | ⟨resp, rfl, hresp, rfl⟩⟩ := exec_await he
  · obtain ⟨hk, ho⟩ := received_same (l := p a) (r := none) (.inr rfl)
    exact hb.setRpc hm hn ⟨rfl, rfl, rfl, rfl, rfl, rfl⟩ (fun k h => .inl (hk ▸ h)) fun x h =>
      .inl (ho ▸ h)
  · rcases hpre with ⟨q, hq⟩ | ⟨hq, -⟩
    · obtain ⟨hk, ho⟩ := received_binds hb hm hq (mem_replies_of_answersOf hresp)
      exact hb.setRpc hm hn ⟨rfl, rfl, rfl, rfl, rfl, rfl⟩ hk ho
    · obtain ⟨hk, ho⟩ := received_same (l := p a) (r := some resp) (.inl hq)
      exact hb.setRpc hm hn ⟨rfl, rfl, rfl, rfl, rfl, rfl⟩ (fun k h => .inl (hk ▸ h)) fun x h =>
        .inl (ho ▸ h)

theorem tables_of_quiet {op : NetAct} {r : op.Ret}
    (he : World.exec S (.client a) (.net op) ch w = some (r, w'))
    (ho : op.Quiet) {session : Nat} {id : ServerHandle} {f : File}
    (hf : (w'.host.tables session).getFile id = some f) :
    (w.host.tables session).getFile id = some f := by
  change op.exec S a ch w = some (r, w') at he
  cases op with
  | loadGen | bumpGen | nextSeq | liveConn =>
    obtain ⟨-, rfl⟩ := Prod.mk.inj (Option.some.inj he)
    exact hf
  | connect =>
    simp only [NetAct.exec] at he
    split at he
    · obtain ⟨-, rfl⟩ := Prod.mk.inj (Option.some.inj he)
      exact hf
    · obtain ⟨-, rfl⟩ := Prod.mk.inj (Option.some.inj he)
      rcases getFile_update hf with ⟨-, hnew⟩ | hold
      · cases hnew
      · exact hold
  | send | await => exact ho.elim

theorem bound_net {op : NetAct} {r : op.Ret} (hb : Bound w p s) (hm : Mounted w p s)
    (hpre : (netProtocol S.chunkSize).pre (p a) op)
    (he : World.exec S (.client a) (.net op) ch w = some (r, w')) :
    Bound w' (update p a ((netProtocol S.chunkSize).next (p a) op r)) s := by
  have hframe := exec_net_frame he
  have hquiet : op.Quiet → Bound w' (update p a (p a)) s := by
    intro ho
    have hrpcs := (exec_net_quiet he ho).1
    rw [update_eq_self]
    refine hb.step hm
      ⟨fun h => hframe.hist ▸ h, fun h => hframe.files ▸ h, fun hm => .inr (rpcs_same hrpcs hm)⟩
      (fun hf => .inl (tables_of_quiet he ho hf)) (fun h => .inl (hframe.files ▸ h)) .inl .inl
      (fun hnone hm => ?_) .inl fun h => .inl (hframe.replies ▸ h)
    rw [hrpcs, hnone] at hm
    cases hm
  cases op with
  | send session request more purpose =>
    have hsame : ∀ m, ((p a).sent purpose m).known = (p a).known ∧
        ((p a).sent purpose m).opened = (p a).opened := by
      intro m
      unfold ClientPhase.sent
      split <;> exact ⟨rfl, rfl⟩
    rcases exec_send he with ⟨rfl, rfl⟩ | ⟨rfl, rfl⟩
    · exact hb.frame hm rfl rfl rfl rfl (hsame none).1 (hsame none).2
    · exact bound_send hb hm hpre.2 (hsame _).1 (hsame _).2
  | await n => exact bound_await hb hm hpre he
  | _ => exact hquiet trivial

/-! ## The streams -/

theorem issued_afterSys {hist : History} {rpc : Option Rpc} {act : Sys} {r : act.Ret}
    (hnew : ∀ session x id, act = .tryInsert session x → HEq r (some id) → hist.issued id = none)
    (hi : hist.issued h = some i) : (hist.afterSys rpc act r).issued h = some i := by
  unfold History.afterSys
  split
  · next session x r =>
    split
    · next id =>
      refine (update_of_ne (fun e => ?_) ..).trans hi
      subst e
      cases (hnew session x h rfl .rfl).symm.trans hi
    · exact hi
  · split <;> exact hi
  · split
    · split <;> exact hi
    · exact hi
  · split
    · split <;> exact hi
    · exact hi
  · exact hi

theorem id_of_tryInsert {session : Nat} {x : OpenHandle} {c : Choice} {host host' : Host}
    {id : ServerHandle}
    (he : (Server.Sys.tryInsert session x).exec S.kernel S.ex n c host = some (some id, host')) :
    id = (host.tables session).counter := by
  simp only [Sys.exec] at he
  split at he
  · cases he
  · next id' t ht =>
    cases he
    unfold HandleTable.tryInsert at ht
    split at ht
    · cases ht
    · exact (Prod.mk.inj (Option.some.inj ht)).1.symm

theorem reopens_of_open {act : Sys} {l : StreamPhase} {flags : OpenFlags} (hm : Mounted w p s)
    (hn : s n = some l) (hpre : l.MayOpen flags) (hK : (Steady S).run w (.stream n) (.sys act) ch)
    (hfinds : flags.creat = false → act.finds? S.kernel S.ex w.host.fs = some i) :
    w.Reopens n i := by
  intro rpc hrpc fh hp
  obtain ⟨rpc', hrpc', -, -, hreq⟩ := hm.rpcs.stream hn
  obtain rfl : rpc' = rpc := Option.some.inj (hrpc'.symm.trans hrpc)
  have hformed := hm.rpcs.formed hrpc
  cases hq : rpc'.purpose with
  | reopen k =>
    unfold Rpc.Formed at hformed
    rw [hq] at hformed
    obtain ⟨seq, path, oflags, e⟩ := hformed
    have hcreat : flags.creat = false := by
      cases hc : flags.creat with
      | false => rfl
      | true =>
        have hop := hpre.1 hc
        rw [hreq, e] at hop
        cases hop
    exact hK.1 (n, i) (Option.map_eq_some_iff.mpr ⟨i, hfinds hcreat, rfl⟩) rpc' hrpc fh hp
  | _ => rw [hq] at hp; cases hp

theorem StreamBound.next {act : Sys} {r : act.Ret} {l : StreamPhase} {host : Host} {hist : History}
    (hb : Bound w p s) (hm : Mounted w p s) (hn : s n = some l) (hpre : streamProtocol.pre l act)
    (hK : (Steady S).run w (.stream n) (.sys act) ch)
    (he : act.exec S.kernel S.ex n ch.toChoice w.host = some (r, host))
    (hw' : w' = { w with host, hist := hist })
    (hist_eq : hist.issued = (w.hist.afterSys (w.net.rpcs n) act r).issued)
    (h : StreamBound w' n l) : StreamBound w' n (streamProtocol.next l act r) := by
  have hfd : ∀ {flags : OpenFlags} {fd : Ino}, l.MayOpen flags →
      (flags.creat = false → act.finds? S.kernel S.ex w.host.fs = some fd) →
      StreamBound w' n { l with fds := fd :: l.fds } := by
    intro flags fd hopen hfinds
    refine ⟨h.held, fun i hi => ?_,
      fun hi => ⟨(h.inserted hi).1, List.mem_cons_of_mem _ (h.inserted hi).2⟩⟩
    rcases List.mem_cons.mp hi with rfl | hi
    · have hre : w.Reopens n i := reopens_of_open hm hn hopen hK hfinds
      rw [hw']
      exact hre
    · exact h.fds i hi
  have hheld : ∀ {x : Option File}, (∀ f, x = some f → ∃ id, l.request.handle? = some id ∧
      w'.hist.issued id = some f.ino) → StreamBound w' n { l with held := x } :=
    fun hx => ⟨fun hf => hx _ hf, h.fds, h.inserted⟩
  cases act with
  | openat2 path flags mode =>
    change Except Errno Ino at r
    cases r with
    | ok fd => exact hfd hpre fun hc => finds_of_openat2 hc he
    | error e => exact ⟨h.held, h.fds, h.inserted⟩
  | openPlain path flags mode =>
    change Except Errno Ino at r
    cases r with
    | ok fd => exact hfd hpre.2 fun hc => finds_of_openPlain hc he
    | error e => exact h
  | tryInsert session x =>
    change Option ServerHandle at r
    cases r with
    | none => exact ⟨h.held, h.fds, nofun⟩
    | some id =>
      refine ⟨h.held, h.fds, fun {k i} hi => ?_⟩
      obtain ⟨rfl, rfl⟩ := Prod.mk.inj (Option.some.inj hi)
      refine ⟨?_, hpre.2⟩
      rw [hw']
      exact (congrFun hist_eq id).trans (update_self ..)
  | getFile session id =>
    obtain ⟨rfl, rfl⟩ := Prod.mk.inj (Option.some.inj he)
    refine hheld fun f hf => ⟨id, hpre.2, ?_⟩
    rw [hw']
    exact (congrFun hist_eq id).trans (hb.table hf)
  | getWriteCtx session id =>
    obtain ⟨rfl, rfl⟩ := Prod.mk.inj (Option.some.inj he)
    refine hheld fun f hf => ⟨id, hpre.2, ?_⟩
    rw [HandleTable.getWriteCtx_fst] at hf
    rw [hw']
    exact (congrFun hist_eq id).trans (hb.table hf)
  | writeAt =>
    change Option IoErrorKind at r
    cases r <;> exact ⟨h.held, h.fds, h.inserted⟩
  | _ => exact ⟨h.held, h.fds, h.inserted⟩

theorem bound_sys {act : Sys} {r : act.Ret} {l : StreamPhase} (hb : Bound w p s)
    (hm : Mounted w p s) (hn : s n = some l) (hpre : streamProtocol.pre l act)
    (hK : (Steady S).run w (.stream n) (.sys act) ch)
    (he : World.exec S (.stream n) (.sys act) ch w = some (r, w')) :
    Bound w' p (update s n (some (streamProtocol.next l act r))) := by
  obtain ⟨host, hex, rfl⟩ := exec_sys he
  obtain ⟨rpc, hrpc, -⟩ := hm.rpcs.stream hn
  have honward :
      Onward w { w with host, hist := (w.hist.afterSys (w.net.rpcs n) act r).record n act r } := by
    refine ⟨fun hi => issued_afterSys ?_ hi, id, fun hm => .inr (rpcs_same rfl hm)⟩
    rintro session x id rfl hr
    obtain rfl := eq_of_heq hr
    exact id_of_tryInsert hex ▸ hK.2
  refine hb.step hm honward (fun {session id f} hf => ?_) .inl .inl .inl ?_ (fun {m l'} hm' => ?_)
    fun {m resp} hr => ?_
  · rcases exec_tables hex hf with hf | ⟨handle, rfl, hr, rfl⟩
    · exact .inl hf
    · obtain rfl := eq_of_heq hr
      exact .inr (update_self ..)
  · intro _ _ _ _ hnone hn
    cases hnone.symm.trans hn
  · by_cases e : m = n
    · subst e
      rw [update_self] at hm'
      obtain rfl := Option.some.inj hm'
      exact .inr (StreamBound.next hb hm hn hpre hK hex rfl rfl
        (honward.stream hrpc (hb.stream hn)))
    · rw [update_of_ne e] at hm'
      exact .inl hm'
  · rcases exec_replies hex with heq | ⟨resp', rfl, heq⟩
    · exact .inl (heq ▸ hr)
    · have hr : (m, resp) ∈ host.replies := hr
      rw [heq] at hr
      rcases List.mem_append.mp hr with hr | hr
      · exact .inl hr
      · obtain ⟨rfl, rfl⟩ := Prod.mk.inj (List.mem_singleton.mp hr)
        refine .inr fun hok hop => ?_
        obtain ⟨fd, hins, hst⟩ := hpre.2.2.1 hop hok
        obtain ⟨hi, hfd⟩ := (hb.stream hn).inserted hins
        exact ⟨fd, honward.issued hi, hst, honward.reopens hrpc ((hb.stream hn).fds fd hfd)⟩

theorem bound_keeps : Keeps S (Steady S) Mounted Bound where
  client {a act ch r w w' p s} hm hb hpre _ he := by
    cases act with
    | buf op =>
      obtain ⟨x, -, rfl⟩ := exec_buf he
      have hsame : (bufProtocol.next (p a) op r).known = (p a).known ∧
          (bufProtocol.next (p a) op r).opened = (p a).opened := by
        cases op with
        | beginFlush fh => change Option FlushBatch at r; cases r <;> exact ⟨rfl, rfl⟩
        | hasBuffered fh => change Bool at r; cases r <;> exact ⟨rfl, rfl⟩
        | totalBytes =>
          unfold bufProtocol ClientPhase.counted
          dsimp only
          split <;> exact ⟨rfl, rfl⟩
        | _ => exact ⟨rfl, rfl⟩
      exact hb.frame hm rfl rfl rfl rfl hsame.1 hsame.2
    | files op => exact bound_files hb hm hpre he
    | net op => exact bound_net hb hm hpre he
    | paths op =>
      obtain ⟨t, rfl⟩ := exec_paths he
      exact hb.frame hm rfl rfl rfl rfl rfl rfl
    | cache op =>
      obtain rfl := exec_cache he
      exact hb.frame hm rfl rfl rfl rfl rfl rfl
    | dev op =>
      cases op with
      | recv cb =>
        obtain rfl := exec_recv he
        exact hb.frame hm rfl rfl rfl rfl rfl rfl
      | reply x =>
        obtain rfl := exec_reply he
        exact hb.frame hm rfl rfl rfl rfl rfl rfl
    | accept | sys => exact hpre.elim
  accept {n ch w w' p s q} hm hb hn _ he := by
    obtain ⟨rpc, hrpc, -, -, rfl⟩ := exec_accept he
    have honward : Onward w (w.setRpc n { rpc with accepted := true }) :=
      onward_setRpc hrpc ⟨rfl, rfl, rfl, rfl, rfl, rfl⟩
    refine hb.step hm honward .inl .inl .inl .inl (fun {m x fh h} hnone hm => ?_)
      (fun {m l} hl => ?_) .inl
    · rcases setRpc_cases hm with ⟨rfl, -⟩ | ⟨-, hm⟩
      · cases hnone.symm.trans hrpc
      · cases hnone.symm.trans hm
    · by_cases e : m = n
      · subst e
        rw [update_self] at hl
        obtain rfl := Option.some.inj hl
        exact .inr ⟨nofun, nofun, nofun⟩
      · rw [update_of_ne e] at hl
        exact .inl hl
  sys hm hb hn hpre hK he := bound_sys hb hm hn hpre hK he
  task {a job w p s} hm hb _ _ := by
    refine hb.step hm ⟨id, id, fun hm => .inr (rpcs_same rfl hm)⟩
      .inl .inl (fun hk => known_update hk fun h => ?_)
      (fun ho => opened_update ho fun h => ?_) (fun hnone hn => ?_) .inl .inl
    · cases a <;> cases job <;> cases h
    · cases a <;> cases job <;> cases h
    · cases hnone.symm.trans hn
  stream {n job w p s} hm hb _ := by
    refine hb.step hm ⟨id, id, fun hm => .inr (rpcs_same rfl hm)⟩
      .inl .inl .inl .inl (fun hnone hn => ?_)
      (fun {m l} hl => ?_) .inl
    · cases hnone.symm.trans hn
    · by_cases e : m = n
      · subst e
        rw [update_self] at hl
        cases hl
      · rw [update_of_ne e] at hl
        exact .inl hl
  env {e w p s} hm hb _ := by
    have hframe : Bound (w.env e) (update p .fuse (p .fuse)) s := by
      cases e <;> exact hb.frame hm rfl rfl rfl rfl rfl rfl
    rwa [update_eq_self] at hframe

end

theorem bound_init (S : Setup) (fs : Fs) (epoch : UInt32) (root : Path)
    (perHandle total window : Nat) :
    Bound (.init S fs epoch root perHandle total window) (fun _ => {}) fun _ => none where
  table h := by cases h
  opened h := by cases h
  known h := by cases h
  fresh h := by cases h
  sent h := by cases h
  stream h := by cases h
  replies h := by cases h

/-- **A handle keeps its file**, in the runs that keep the bindings steady: a stream that is about
to read or write a file for a Read or Write of a handle is about to do so on the file that the
handle was opened on. -/
theorem handle_keeps_file (S : Setup) (fs : Fs) (epoch : UInt32) (root : Path)
    (perHandle total window : Nat) {c : Config Act Act.Ret World Tid}
    (h : Reach (mountMachine S).step (Steady S).Meets
      (Config.idle (.init S fs epoch root perHandle total window)) c)
    {n : Nat} {act : Sys} {k : act.Ret → Task Unit} (hn : c.threads (.stream n) = .act (.sys act) k)
    {f : File} (hact : act.accesses? = some f) {rpc : Rpc} (hrpc : c.state.net.rpcs n = some rpc)
    {fh : Fh} (hp : rpc.purpose.accesses? = some fh) : c.state.files.home fh = some f.ino := by
  have hmounted : Keeps S (Steady S) (fun _ _ _ => True) Mounted :=
    mounted_keeps.mono (fun _ => trivial) id id id
  obtain ⟨p, s, ⟨hm, hb⟩, -, hpre⟩ := mount_sound (hmounted.and bound_keeps)
    ⟨mounted_init S fs epoch root perHandle total window,
      bound_init S fs epoch root perHandle total window⟩ h
  have hpre := hpre n _ _ hn
  cases hs : s n with
  | none => rw [hs] at hpre; exact hpre.elim
  | some l =>
    rw [hs] at hpre
    have hheld : l.held = some f := by
      cases act with
      | writeAt f' offset data append =>
        obtain rfl := Option.some.inj hact
        exact hpre.1
      | readAt f' offset len =>
        obtain rfl := Option.some.inj hact
        exact hpre.1
      | _ => cases hact
    exact hb.home hm hs hheld hrpc hp

section
set_option synthInstance.maxSize 256

/-- `/a` was reopened over a second connection and the write is on its way to it. -/
theorem handle_keeps_file_reopened :
    ∃ c, Reach (mountMachine smallSetup).step (Steady smallSetup).Meets
      (Config.idle smallMount) c ∧ writeOf c 3 = some (⟨2, .rdwr⟩, 0, [5], false) ∧
    c.state.net.conn = some 1 ∧ c.state.files.home 1 = some 2 := by
  obtain ⟨c, hreach, hwrite, hconn, hrpc⟩ :=
    Reach.of_check (mountMachine smallSetup).step (Steady smallSetup).Meets (Config.idle smallMount)
    (reopenA ++ called (.flush 1) 8 ++ taken 3 3)
    (fun c => writeOf c 3 = some (⟨2, .rdwr⟩, 0, [5], false) ∧ c.state.net.conn = some 1 ∧
      (c.state.net.rpcs 3).map Rpc.purpose = some (.write 1))
    (by decide +kernel)
  obtain ⟨rpc, hrpc, hpurpose⟩ := Option.map_eq_some_iff.mp hrpc
  obtain ⟨k, hk⟩ := exists_of_writeOf hwrite
  exact ⟨c, hreach, hwrite, hconn,
    handle_keeps_file smallSetup _ _ _ _ _ _ hreach hk rfl hrpc (by rw [hpurpose]; rfl)⟩

/-- `/a` is renamed to `/b`, a new `/a` is created, and the connection is lost. -/
def replaceA : List MountLabel :=
  createA ++ called (.rename 1 ['a'] 1 ['b']) 6 ++ taken 1 9 ++ acts (.client .fuse) 3 ++
    called (.create 1 ['a'] 0o644 2) 5 ++ taken 2 7 ++ acts (.client .fuse) 6 ++ .env (.close 0) ::
    called (.lookup 1 ['a']) 9 ++ taken 3 6 ++ acts (.client .fuse) 4

/-- The handle `1` was opened on the file that is now `/b`. A write through it reopens the new `/a`
and lands there, and `flush` is about to reply success. -/
theorem handle_rebound :
    ∃ c x k, Reach (mountMachine smallSetup).step promised.Meets (Config.idle smallMount) c ∧
    c.threads (.client .fuse) = .act (.dev (.reply x)) k ∧ x.isError = false ∧
      c.state.files.home 1 = some 2 ∧
    c.state.buf.pool.acked 1 = [(0, ⟨0, [5], 0⟩)] ∧ c.state.host.fs.content 2 = some [] ∧
    c.state.host.fs.content 3 = some [5] := by
  obtain ⟨c, hreach, hreply, hhome, hacked, hold, hnew⟩ :=
    Reach.of_check (mountMachine smallSetup).step promised.Meets (Config.idle smallMount)
    (replaceA ++ called (.write 1 0 [5]) 6 ++ taken 4 8 ++ acts (.client .fuse) 4 ++
      called (.flush 1) 8 ++
      taken 5 6 ++ acts (.client .fuse) 4)
    (fun c => (replyOf c).map Answer.isError = some false ∧ c.state.files.home 1 = some 2 ∧
      c.state.buf.pool.acked 1 = [(0, ⟨0, [5], 0⟩)] ∧ c.state.host.fs.content 2 = some [] ∧
      c.state.host.fs.content 3 = some [5])
    (by decide +kernel)
  obtain ⟨x, hreply, hx⟩ := Option.map_eq_some_iff.mp hreply
  obtain ⟨k, hk⟩ := exists_of_replyOf hreply
  exact ⟨c, x, k, hreach, hk, hx, hhome, hacked, hold, hnew⟩

end

end QuicFs.System
