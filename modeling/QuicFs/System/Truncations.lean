import QuicFs.System.Fences

/-!
# Truncations

Before a truncation the client flushes the handle that `setattr` names, or every handle. `Fencing`
holds in the runs in which no truncating callback finds the guard of another task, no truncation by
a handle finds older chunks of other handles of the file, and no frame is applied after its chunks
have left the buffer; in these no chunk is applied behind a truncation whose callback began after it
was accepted (`truncation_fenced`). In others one is: `truncation_overtaken`.
-/

namespace QuicFs.System

open Lib Client Server

def Purpose.cut? : Purpose → Option Fh
  | .truncate fh => fh
  | _ => none

/-- The stream that changes the size of a file, and the file. -/
def Tid.cuts? : Tid → Act → Option (Nat × Ino)
  | .stream n, .sys (.setLen fd _) => some (n, fd)
  | _, _ => none

/-- The other handles of the file buffer nothing from before the mark. -/
def World.OthersClear (w : World) (fh : Fh) (i : Ino) (mark : Nat) : Prop :=
  ∀ fh' ∈ w.buf.pool.buf.handles, fh' ≠ fh → w.files.home fh' = some i →
    ∀ t ∈ w.buf.pool.tags fh', mark ≤ t.1

instance (w : World) (fh : Fh) (i : Ino) (mark : Nat) : Decidable (w.OthersClear fh i mark) :=
  inferInstanceAs (Decidable (∀ fh' ∈ w.buf.pool.buf.handles, _))

/-- A truncating callback finds no guard of another task, a truncation through a handle finds no
older chunks of other handles, and frames are applied while their chunks are buffered. -/
def Fencing : MountCond where
  run w t a _ :=
    (∀ n ∈ t.writes? a, ∀ rpc ∈ w.net.rpcs n, w.AllBuffered rpc) ∧
    (∀ fh ∈ t.fences? a, w.During Callback.truncates → w.Free fh) ∧
    ∀ x ∈ t.cuts? a, ∀ rpc ∈ w.net.rpcs x.1, ∀ fh ∈ rpc.purpose.cut?, w.OthersClear fh x.2 rpc.mark
  start := promisedStart
  env _ _ := True

instance : Fencing.Checkable where
  run w t a _ := inferInstanceAs (Decidable (
    (∀ n ∈ t.writes? a, ∀ rpc ∈ w.net.rpcs n, w.AllBuffered rpc) ∧
    (∀ fh ∈ t.fences? a, w.During Callback.truncates → w.Free fh) ∧
    ∀ x ∈ t.cuts? a, ∀ rpc ∈ w.net.rpcs x.1, ∀ fh ∈ rpc.purpose.cut?,
    w.OthersClear fh x.2 rpc.mark))
  start w t job := inferInstanceAs (Decidable (promisedStart w t job))
  env _ _ := isTrue trivial

/-- The handle was flushed before the RPC was sent, which is to truncate. -/
def Rpc.Behind (rpc : Rpc) (fh : Fh) : Prop :=
  match rpc.purpose with
  | .truncate (some k) => k = fh
  | .truncate none => True
  | .open => rpc.request.truncates = true
  | _ => False

/-- A truncation on its way finds nothing from before its callback, and one that was made left
nothing. -/
structure Ahead (w : World) : Prop where
  marks : ∀ {n rpc}, w.net.rpcs n = some rpc → rpc.mark ≤ w.buf.pool.next
  sent : ∀ {n rpc fh}, w.net.rpcs n = some rpc → rpc.Behind fh → ∀ t ∈ w.buf.pool.tags fh,
    rpc.mark ≤ t.1
  cut : ∀ x ∈ w.hist.truncs, x.2 ≤ w.buf.pool.next ∧
    ∀ fh, w.files.home fh = some x.1 → ∀ t ∈ w.buf.pool.tags fh, x.2 ≤ t.1

section
variable {S : Setup} {a : Actor} {w w' : World} {l : ClientPhase} {p : Clients} {s : Streams}
    {ch : Chance}
  {n : Nat} {rpc rpc' : Rpc}

theorem Rpc.Same.behind {fh : Fh} (h : rpc.Same rpc') (hb : rpc'.Behind fh) : rpc.Behind fh := by
  unfold Rpc.Behind at hb ⊢
  rwa [h.purpose, h.request] at hb

/-- A step that sends nothing and truncates nothing. -/
theorem Ahead.frame (h : Ahead w) (hn : w.buf.pool.next ≤ w'.buf.pool.next)
    (ht : ∀ fh, ∀ t ∈ w'.buf.pool.tags fh, t ∈ w.buf.pool.tags fh ∨ w.buf.pool.next ≤ t.1)
    (hr : ∀ {n rpc'}, w'.net.rpcs n = some rpc' → ∃ rpc, w.net.rpcs n = some rpc ∧ rpc.Same rpc')
    (hh : ∀ fh, w'.buf.pool.tags fh ≠ [] → w'.files.home fh = w.files.home fh)
    (hc : w'.hist.truncs = w.hist.truncs) : Ahead w' := by
  refine ⟨fun {n rpc'} hm => ?_, fun {n rpc' fh} hm hb t hx => ?_, fun x hx => ?_⟩
  · obtain ⟨rpc, hm, hs⟩ := hr hm
    exact hs.mark ▸ (h.marks hm).trans hn
  · obtain ⟨rpc, hm, hs⟩ := hr hm
    rw [hs.mark]
    exact (ht fh t hx).elim (h.sent hm (hs.behind hb) t) (h.marks hm).trans
  · obtain ⟨h1, h2⟩ := h.cut x (hc ▸ hx)
    refine ⟨h1.trans hn, fun fh hfh t hx => ?_⟩
    rw [hh fh (List.ne_nil_of_mem hx)] at hfh
    exact (ht fh t hx).elim (h2 fh hfh t) h1.trans

theorem Ahead.buf {x : Buf} (h : Ahead w) (hn : w.buf.pool.next ≤ x.pool.next)
    (ht : ∀ fh, ∀ t ∈ x.pool.tags fh, t ∈ w.buf.pool.tags fh ∨ w.buf.pool.next ≤ t.1) :
    Ahead { w with buf := x } :=
  h.frame hn ht (rpcs_same rfl) (fun _ _ => rfl) rfl

theorem tags_of_behind {chunkSize : UInt32} {session : Nat} {request : Request}
    {more : List WriteRequest} {purpose : Purpose} {fh : Fh} (hc : Cleared Callback.truncates w l)
    (hm : l.MaySend chunkSize request more purpose)
    (hb : (w.newRpc a session request more purpose).Behind fh) : w.buf.pool.tags fh = [] := by
  cases purpose with
  | truncate k =>
    cases k with
    | none => exact tags_of_fenced hc hm.1 hm.2.1 fh
    | some k =>
      obtain rfl : k = fh := hb
      obtain ⟨cb, hcb, hk⟩ := hm.2.1
      exact hc.flushed cb hcb hk k hm.1
  | «open» =>
    have hb : request.truncates = true := hb
    rcases hm with ⟨seq, path, flags, rfl⟩ | ⟨seq, path, flags, mode, rfl, hf⟩
    · cases hb
    · exact tags_of_fenced hc (hf hb).1 (hf hb).2 fh
  | other | reopen | read | write => exact hb.elim

theorem ahead_send {session : Nat} {request : Request} {more : List WriteRequest}
    {purpose : Purpose} (h : Ahead w) (hm : Mounted w p s)
    (hc : Cleared Callback.truncates w (p .fuse))
    (hsend : (p a).MaySend S.chunkSize request more purpose) :
    Ahead (w.post (w.newRpc a session request more purpose) more) := by
  have hmark : (w.newRpc a session request more purpose).mark ≤ w.buf.pool.next := by
    cases hcall : w.call with
    | none => simp [World.newRpc, hcall]
    | some c => simpa [World.newRpc, hcall] using hm.tasks.mark c hcall
  -- only the FUSE task truncates
  have htags : ∀ fh, (w.newRpc a session request more purpose).Behind fh →
      w.buf.pool.tags fh = [] := by
    intro fh hb
    by_cases e : a = .fuse
    · subst e
      exact tags_of_behind hc hsend hb
    · have hno : ¬(p a).Serves Callback.truncates := by
        rintro ⟨cb, hcb, -⟩
        rw [(hm.tasks.task a).cb e] at hcb
        cases hcb
      cases purpose with
      | truncate k => cases k <;> exact absurd hsend.2.1 hno
      | «open» =>
        have hb : request.truncates = true := hb
        rcases hsend with ⟨seq, path, flags, rfl⟩ | ⟨seq, path, flags, mode, rfl, hf⟩
        · cases hb
        · exact absurd (hf hb).2 hno
      | other | reopen | read | write => exact hb.elim
  refine ⟨fun {m x} hx => ?_, fun {m x fh} hx hb t ht => ?_, h.cut⟩
  · rcases post_cases hx with ⟨-, rfl⟩ | hx
    · exact hmark
    · exact h.marks hx
  · rcases post_cases hx with ⟨-, rfl⟩ | hx
    · rw [show (w.post (w.newRpc a session request more purpose) more).buf = w.buf from rfl,
        htags fh hb] at ht
      cases ht
    · exact h.sent hx hb t ht

/-- What a step of the server adds to the truncations. -/
theorem truncs_afterSys {hist : History} {rpc : Option Rpc} {act : Sys} {r : act.Ret}
    {x : Ino × Nat} (hx : x ∈ (hist.afterSys rpc act r).truncs) :
    x ∈ hist.truncs ∨ ∃ q, rpc = some q ∧ x.2 = q.mark ∧
      ((∃ size, act = .setLen x.1 size) ∨ ∃ path flags mode, flags.trunc = true ∧
        (act = .openat2 path flags mode ∨ act = .openPlain path flags mode)) := by
  unfold History.afterSys at hx
  split at hx
  · split at hx <;> exact .inl hx
  · split at hx
    · next _ q =>
      rcases List.mem_cons.mp hx with rfl | hx
      · exact .inr ⟨q, rfl, rfl, .inl ⟨_, rfl⟩⟩
      · exact .inl hx
    · exact .inl hx
  · next path flags mode r =>
    split at hx
    · next _ q =>
      split at hx
      · next ht =>
        rcases List.mem_cons.mp hx with rfl | hx
        · exact .inr ⟨q, rfl, rfl, .inr ⟨path, flags, mode, ht, .inl rfl⟩⟩
        · exact .inl hx
      · exact .inl hx
    · exact .inl hx
  · next path flags mode r =>
    split at hx
    · next _ q =>
      split at hx
      · next ht =>
        rcases List.mem_cons.mp hx with rfl | hx
        · exact .inr ⟨q, rfl, rfl, .inr ⟨path, flags, mode, ht, .inr rfl⟩⟩
        · exact .inl hx
      · exact .inl hx
    · exact .inl hx
  · exact .inl hx

theorem behind_of_truncates (hf : rpc.Formed) (ht : rpc.request.truncates = true) :
    (∀ fh, rpc.Behind fh) ∨ rpc.request.op ≠ .create ∧ ∃ fh, rpc.purpose.cut? = some fh ∧
    rpc.Behind fh := by
  unfold Rpc.Formed at hf
  unfold Rpc.Behind
  cases hp : rpc.purpose with
  | other =>
    rw [hp] at hf
    cases hq : rpc.request with
    | setAttr =>
      rw [hq] at hf ht
      cases hf.symm.trans ht
    | create => rw [hq] at hf; exact hf.elim
    | _ => rw [hq] at ht; cases ht
  | «open» => exact .inl fun _ => ht
  | reopen fh =>
    rw [hp] at hf
    obtain ⟨seq, path, flags, hq⟩ := hf
    rw [hq] at ht
    cases ht
  | read fh =>
    rw [hp] at hf
    obtain ⟨seq, handle, offset, length, hq⟩ := hf
    rw [hq] at ht
    cases ht
  | write fh =>
    rw [hp] at hf
    obtain ⟨seq, first, hq⟩ := hf
    rw [hq] at ht
    cases ht
  | truncate k =>
    cases k with
    | none => exact .inl fun _ => trivial
    | some k =>
      rw [hp] at hf
      obtain ⟨seq, path, valid, mode, size, atime, mtime, hq⟩ := hf
      exact .inr ⟨by rw [hq]; nofun, k, rfl, rfl⟩

theorem ahead_sys {act : Sys} {r : act.Ret} {l : StreamPhase} (h : Ahead w) (hm : Mounted w p s)
    (hn : s n = some l) (hpre : streamProtocol.pre l act)
    (hK : Fencing.run w (.stream n) (.sys act) ch)
    (he : World.exec S (.stream n) (.sys act) ch w = some (r, w')) : Ahead w' := by
  obtain ⟨host, -, rfl⟩ := exec_sys he
  refine ⟨h.marks, h.sent, fun x hx => ?_⟩
  rcases truncs_afterSys hx with hx | ⟨q, hq, hmark, hact⟩
  · exact h.cut x hx
  · rw [hmark]
    refine ⟨h.marks hq, fun fh hfh t ht => ?_⟩
    obtain ⟨q', hq', -, -, hreq⟩ := hm.rpcs.stream hn
    obtain rfl : q' = q := Option.some.inj (hq'.symm.trans hq)
    have hformed := hm.rpcs.formed hq
    rcases hact with ⟨size, rfl⟩ | ⟨path, flags, mode, htrunc, hact⟩
    · rcases behind_of_truncates hformed (hreq ▸ hpre.2) with hb | ⟨-, k, hk, hb⟩
      · exact h.sent hq (hb fh) t ht
      · by_cases e : fh = k
        · subst e
          exact h.sent hq hb t ht
        · exact hK.2.2 _ rfl q' hq k hk fh (mem_handles hm.tasks.ordered.toTagged ht) e hfh t ht
    · have hcreate : l.request.op = .create ∧ l.request.truncates = true := by
        rcases hact with rfl | rfl
        · exact hpre.2 htrunc
        · exact hpre.2.2 htrunc
      rw [hreq] at hcreate
      rcases behind_of_truncates hformed hcreate.2 with hb | ⟨hno, -⟩
      · exact h.sent hq (hb fh) t ht
      · exact absurd hcreate.1 hno

theorem ahead_buf {op : BufAct} {r : op.Ret} (h : Ahead w) (hm : Mounted w p s)
    (hpre : bufProtocol.pre (p a) op)
    (he : World.exec S (.client a) (.buf op) ch w = some (r, w')) : Ahead w' := by
  obtain ⟨x, hx, rfl⟩ := exec_buf he
  cases op with
  | push fh offset data =>
    obtain ⟨-, rfl⟩ := Prod.mk.inj (Option.some.inj hx)
    by_cases hr : (w.buf.pool.buf.push fh offset data w.now ch.iter).1 = .reject
    · rw [Pool.push_of_reject hr]
      exact h.buf (Nat.le_refl _) fun _ _ ht => .inl ht
    · rw [Pool.push_of_accept hr]
      refine h.buf (Nat.le_succ _) fun k t ht => ?_
      simp only [Function.update_apply] at ht
      split at ht
      · next e =>
        rcases List.mem_append.mp ht with ht | ht
        · exact .inl (e ▸ ht)
        · exact .inr (by rw [List.mem_singleton.mp ht])
      · exact .inl ht
  | beginFlush fh =>
    obtain ⟨-, rfl⟩ := Prod.mk.inj (Option.some.inj hx)
    rcases Pool.guarded_or_free w.buf.pool.buf fh with hr | ⟨hg, hq⟩
    · rw [Pool.beginFlush_of_refused hr]
      exact h.buf (Nat.le_refl _) fun _ _ ht => .inl ht
    · rw [Pool.beginFlush_of_free hg hq]
      exact h.buf (Nat.le_refl _) fun _ _ ht => .inl ht
  | ackFlush fh n =>
    obtain ⟨-, batch, hl, hn, -⟩ := hpre
    obtain ⟨f, hf, rfl, rfl⟩ := (hm.tasks.task a).flight_eq hl
    obtain rfl := exec_ackFlush hf hn hx
    refine h.buf (Nat.le_refl _) fun k t ht => .inl ?_
    simp only [Pool.ackFlush, Function.update_apply] at ht
    split at ht
    · next e => exact e ▸ List.mem_of_mem_drop ht
    · exact ht
  | dropHandle fh =>
    obtain ⟨-, rfl⟩ := Prod.mk.inj (Option.some.inj hx)
    refine h.buf (Nat.le_refl _) fun k t ht => .inl ?_
    simp only [Pool.dropHandle, Function.update_apply] at ht
    split at ht
    · cases ht
    · exact ht
  | failFlush fh | stickyInsert fh | stickyRemove fh =>
    obtain ⟨-, rfl⟩ := Prod.mk.inj (Option.some.inj hx)
    exact h.buf (Nat.le_refl _) fun _ _ ht => .inl ht
  | _ =>
    obtain rfl := exec_look hx trivial
    exact h

theorem ahead_files {op : FileAct} {r : op.Ret} (h : Ahead w) (hm : Mounted w p s)
    (hpre : fileProtocol.pre (p a) op)
    (he : World.exec S (.client a) (.files op) ch w = some (r, w')) : Ahead w' := by
  obtain ⟨f, hx, rfl⟩ := exec_files he
  cases op with
  | insert fh file home =>
    obtain ⟨-, rfl⟩ := Prod.mk.inj hx
    refine h.frame (Nat.le_refl _) (fun _ _ ht => .inl ht) (rpcs_same rfl) (fun k hk => ?_) rfl
    -- a handle that is registered has no chunks yet
    refine Function.update_of_ne (fun e => ?_) ..
    subst e
    obtain ⟨t, ht⟩ := List.exists_mem_of_ne_nil _ hk
    have := (hm.opened.accepted (hm.opened.recorded.tags k t ht)).1
    rw [((hm.opened.task a).fresh k hpre.1).2] at this
    cases this
  | _ =>
    obtain ⟨-, rfl⟩ := Prod.mk.inj hx
    exact h.frame (Nat.le_refl _) (fun _ _ ht => .inl ht) (rpcs_same rfl) (fun _ _ => rfl) rfl

theorem ahead_net {op : NetAct} {r : op.Ret} (h : Ahead w) (hm : Mounted w p s)
    (hc : Cleared Callback.truncates w (p .fuse)) (hpre : (netProtocol S.chunkSize).pre (p a) op)
    (he : World.exec S (.client a) (.net op) ch w = some (r, w')) : Ahead w' := by
  have hf := exec_net_frame he
  have hframe :
      (∀ {n rpc'}, w'.net.rpcs n = some rpc' → ∃ rpc, w.net.rpcs n = some rpc ∧ rpc.Same rpc') →
      Ahead w' :=
    fun hr => h.frame (by rw [hf.buf]) (fun _ _ ht => .inl (hf.buf ▸ ht)) hr
      (fun _ _ => by rw [hf.files])
      (by rw [hf.hist])
  cases op with
  | send session request more purpose =>
    rcases exec_send he with ⟨-, rfl⟩ | ⟨-, rfl⟩
    · exact h
    · exact ahead_send h hm hc hpre.2
  | await n =>
    obtain ⟨rpc, hn, ⟨-, rfl⟩ | ⟨resp, -, -, rfl⟩⟩ := exec_await he
    all_goals
      refine hframe fun hm => ?_
      rcases setRpc_cases hm with ⟨rfl, rfl⟩ | ⟨-, hm⟩
      · exact ⟨rpc, hn, ⟨rfl, rfl, rfl, rfl, rfl, rfl⟩⟩
      · exact rpcs_same rfl hm
  | _ => exact hframe (rpcs_same (exec_net_quiet he trivial).1)

theorem ahead_keeps : Keeps S (servingToo Fencing)
    (fun w p s => Mounted w p s ∧ Cleared Callback.truncates w (p .fuse)) fun w _ _ => Ahead w where
  client {a act ch r w w' p s} hj h hpre hK he := by
    cases act with
    | buf op => exact ahead_buf h hj.1 hpre he
    | files op => exact ahead_files h hj.1 hpre he
    | net op => exact ahead_net h hj.1 hj.2 hpre he
    | paths op =>
      obtain ⟨t, rfl⟩ := exec_paths he
      exact h.frame (Nat.le_refl _) (fun _ _ ht => .inl ht) (rpcs_same rfl) (fun _ _ => rfl) rfl
    | cache op =>
      obtain rfl := exec_cache he
      exact h
    | dev op =>
      cases op with
      | recv cb =>
        obtain rfl := exec_recv he
        exact h.frame (Nat.le_refl _) (fun _ _ ht => .inl ht) (rpcs_same rfl) (fun _ _ => rfl) rfl
      | reply x =>
        obtain rfl := exec_reply he
        exact h.frame (by rw [replied_pool]) (fun _ _ ht => .inl (by rwa [replied_pool] at ht))
          (rpcs_same rfl)
          (fun _ _ => rfl) rfl
    | accept | sys => exact hpre.elim
  accept {n ch w w' p s q} _ h _ _ he := by
    obtain ⟨rpc, hn, -, -, rfl⟩ := exec_accept he
    refine h.frame (Nat.le_refl _) (fun _ _ ht => .inl ht) (fun hm => ?_) (fun _ _ => rfl) rfl
    rcases setRpc_cases hm with ⟨rfl, rfl⟩ | ⟨-, hm⟩
    · exact ⟨rpc, hn, ⟨rfl, rfl, rfl, rfl, rfl, rfl⟩⟩
    · exact rpcs_same rfl hm
  sys hj h hn hpre hK he := ahead_sys h hj.1 hn hpre hK.1 he
  task _ h _ _ := h
  stream _ h _ := h
  env {e _ _ _} _ h _ := by
    cases e <;> exact h.frame (Nat.le_refl _) (fun _ _ ht => .inl ht) (rpcs_same rfl)
      (fun _ _ => rfl) rfl

end

/-- **The truncation fence**, in the runs that keep it: when a stream is about to apply a frame of a
Write to the file its handle was opened on, no chunk of the Write was accepted before the callback
of a truncation of the file that was made already. -/
theorem truncation_fenced (S : Setup) (fs : Fs) (epoch : UInt32) (root : Path)
    (perHandle total window : Nat) {c : Config Act Act.Ret World Tid}
    (h : Reach (mountMachine S).step Fencing.Meets
      (Config.idle (.init S fs epoch root perHandle total window)) c)
    {n : Nat} {f : File} {offset : UInt64} {data : Bytes} {append : Bool}
    {k : Option IoErrorKind → Task Unit} {ch : Chance}
    (hn : c.threads (.stream n) = .act (.sys (.writeAt f offset data append)) k)
    (hK : Fencing.Meets c (.run (.stream n) ch)) {rpc : Rpc} {fh : Fh}
    (hrpc : c.state.net.rpcs n = some rpc) (hp : rpc.purpose = .write fh)
    (hhome : c.state.files.home fh = some f.ino) :
    ∀ mark, (f.ino, mark) ∈ c.state.hist.truncs → ∀ t ∈ rpc.snapshot, mark ≤ t.1 := by
  have hmounted : Keeps S (servingToo Fencing) (fun _ _ _ => True) Mounted :=
    mounted_keeps.mono (fun _ => trivial) id id id
  have hcleared : Keeps S (servingToo Fencing) Mounted fun w p _ => Cleared Callback.truncates w
      (p .fuse) :=
    cleared_keeps fun hK => hK.2.1
  obtain ⟨-, -, ⟨-, ha⟩, -⟩ := mount_sound ((hmounted.and hcleared).and ahead_keeps)
    ⟨⟨mounted_init S fs epoch root perHandle total window,
      ⟨WriteBuffer.accounted_new _ _ _, nofun, nofun, nofun⟩⟩, ⟨nofun, nofun, nofun⟩⟩
        (reach_servingToo h)
  intro mark hmark t ht
  have hbuf : t ∈ c.state.buf.pool.tags fh := by
    have hK : Fencing.run c.state (.stream n) (.sys (.writeAt f offset data append)) ch := by
      simpa only [Cond.Meets, hn] using hK
    exact hK.1 n rfl rpc hrpc fh (by rw [hp]; rfl) t ht
  exact (ha.cut (f.ino, mark) hmark).2 fh hhome t hbuf

section
set_option synthInstance.maxSize 256

/-- `setattr` of the file `/a` to size 0, through its handle. -/
def setattrA : Callback := .setattr 2 none none none (some 0) none none (some 1)

/-- A byte is written, the file truncated, and another byte on its way. -/
theorem truncation_fenced_after : ∃ c rpc, Reach (mountMachine smallSetup).step Fencing.Meets
      (Config.idle smallMount) c ∧ c.state.net.rpcs 3 = some rpc ∧ c.state.hist.truncs = [(2, 1)] ∧
    ∀ mark, (2, mark) ∈ c.state.hist.truncs → ∀ t ∈ rpc.snapshot, mark ≤ t.1 := by
  obtain ⟨c, hreach, hwrite, hrpc, htrunc, hhome, hK⟩ :=
    Reach.of_check (mountMachine smallSetup).step Fencing.Meets (Config.idle smallMount)
    (createA ++ called (.write 1 0 [5]) 5 ++ called setattrA 9 ++ taken 1 6 ++
      acts (.client .fuse) 5 ++
      taken 2 8 ++ acts (.client .fuse) 3 ++ called (.write 1 0 [6]) 5 ++
        called (.flush 1) 8 ++ taken 3 3)
    (fun c => writeOf c 3 = some (⟨2, .rdwr⟩, 0, [6], false) ∧
      (c.state.net.rpcs 3).map Rpc.purpose = some (.write 1) ∧ c.state.hist.truncs = [(2, 1)] ∧
      c.state.files.home 1 = some 2 ∧ Fencing.Meets c (.run (.stream 3) {}))
    (by decide +kernel)
  obtain ⟨rpc, hrpc, hpurpose⟩ := Option.map_eq_some_iff.mp hrpc
  obtain ⟨k, hk⟩ := exists_of_writeOf hwrite
  exact ⟨c, rpc, hreach, hrpc, htrunc,
    truncation_fenced smallSetup _ _ _ _ _ _ hreach hk hK hrpc hpurpose hhome⟩

/-- The background task is sending a byte when the file is truncated. `setattr` finds its guard and
goes on; it is about to reply success, and the server to write the byte to the truncated file. -/
theorem truncation_overtaken : ∃ c rpc x k, Reach (mountMachine smallSetup).step promised.Meets
      (Config.idle smallMount) c ∧ c.threads (.client .fuse) = .act (.dev (.reply x)) k ∧
      x.isError = false ∧
    c.state.During Callback.truncates ∧ writeOf c 1 = some (⟨2, .rdwr⟩, 0, [5], false) ∧
    c.state.net.rpcs 1 = some rpc ∧ rpc.purpose = .write 1 ∧ c.state.files.home 1 = some 2 ∧
    c.state.hist.truncs = [(2, 1)] ∧ rpc.snapshot = [(0, ⟨0, [5], 0⟩)] := by
  obtain ⟨c, hreach, hreply, hduring, hwrite, hrpc, hhome, htrunc⟩ :=
    Reach.of_check (mountMachine smallSetup).step promised.Meets (Config.idle smallMount)
    (firstFlush ++ called setattrA 8 ++ taken 2 8 ++ acts (.client .fuse) 2 ++ taken 1 3)
    (fun c => (replyOf c).map Answer.isError = some false ∧ c.state.During Callback.truncates ∧
      writeOf c 1 = some (⟨2, .rdwr⟩, 0, [5], false) ∧
      (c.state.net.rpcs 1).map (fun rpc => (rpc.purpose, rpc.snapshot)) =
        some (.write 1, [(0, ⟨0, [5], 0⟩)]) ∧
      c.state.files.home 1 = some 2 ∧ c.state.hist.truncs = [(2, 1)])
    (by decide +kernel)
  obtain ⟨x, hreply, hx⟩ := Option.map_eq_some_iff.mp hreply
  obtain ⟨k, hk⟩ := exists_of_replyOf hreply
  obtain ⟨rpc, hrpc, he⟩ := Option.map_eq_some_iff.mp hrpc
  obtain ⟨hpurpose, hsnapshot⟩ := Prod.mk.inj he
  exact ⟨c, rpc, x, k, hreach, hk, hx, hduring, hwrite, hrpc, hpurpose, hhome, htrunc, hsnapshot⟩

end

end QuicFs.System
