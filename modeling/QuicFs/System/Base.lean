import QuicFs.System.Steps

/-!
# The phases agree with the state

`Tasks` holds in every run in which the kernel keeps its promise: the flush a task has begun
is its flight in the write buffer, it owes a sticky error exactly when it has dropped chunks
without setting it, and the callback it serves is the one the kernel asked for. The calls of
the tasks on the write buffer are then steps of `Pool`, whose order they keep. `Opened` is
about the open files: a handle is opened once and is used only afterwards.
-/

namespace QuicFs.System

open Lib Client Server Function

def Callback.fh? : Callback → Option Fh
  | .setattr _ _ _ _ _ _ _ fh => fh
  | .read fh _ _ | .write fh _ _ | .flush fh | .release fh | .fsync fh _ => some fh
  | _ => none

def Callback.data? : Callback → Option Bytes
  | .write _ _ data => some data
  | _ => none

def World.Promised (w : World) (cb : Callback) : Prop :=
  (∀ fh ∈ cb.fh?, (w.files.opened fh).isSome) ∧ ∀ data ∈ cb.data?, data ≠ []

instance (w : World) (cb : Callback) : Decidable (w.Promised cb) :=
  inferInstanceAs (Decidable (_ ∧ _))

def promisedStart (w : World) : Tid → Job → Prop
  | .client .fuse, .callback cb => w.Promised cb
  | _, _ => True

instance (w : World) (t : Tid) (job : Job) : Decidable (promisedStart w t job) :=
  match t, job with
  | .client .fuse, .callback cb => inferInstanceAs (Decidable (w.Promised cb))
  | .client .fuse, .tick | .client .fuse, .unmount | .client .fuse, .stream | .client .bg, _
  | .client .shutdown, _ | .stream _, _ => isTrue trivial

def promised : MountCond where
  run _ _ _ _ := True
  start := promisedStart
  env _ _ := True

instance : promised.Checkable where
  run _ _ _ _ := isTrue trivial
  start w t job := inferInstanceAs (Decidable (promisedStart w t job))
  env _ _ := isTrue trivial

/-! ## Tasks -/

/-- What the phase of a task says about the state. -/
structure TaskOk (w : World) (a : Actor) (l : ClientPhase) : Prop where
  flight : l.flight = (w.buf.pool.flight a).map fun f => (f.handle, f.batch)
  owing : w.buf.owing a = l.owes
  cb : a ≠ .fuse → l.cb = none
  call : a = .fuse → ∀ c, w.call = some c → l.cb = some c.cb

structure Tasks (w : World) (p : Clients) (_ : Streams) : Prop where
  task : ∀ a, TaskOk w a (p a)
  ordered : w.buf.pool.Ordered
  mark : ∀ c, w.call = some c → c.mark ≤ w.buf.pool.next

section
variable {S : Setup} {a b : Actor} {w w' : World} {l l' : ClientPhase} {fh : Fh}

theorem TaskOk.frame (h : TaskOk w a l) (hb : w'.buf = w.buf) (hc : w'.call = w.call)
    (hs : l.SameTask l') : TaskOk w' a l' where
  flight := by rw [hs.flight, hb, h.flight]
  owing := by rw [hs.owes, hb, h.owing]
  cb ha := by rw [hs.cb, h.cb ha]
  call ha c hw := by rw [hs.cb, h.call ha c (hc ▸ hw)]

theorem TaskOk.flight_eq (h : TaskOk w a l) {batch : FlushBatch}
    (hl : l.flight = some (fh, batch)) :
    ∃ f, w.buf.pool.flight a = some f ∧ f.handle = fh ∧ f.batch = batch := by
  rw [h.flight] at hl
  obtain ⟨f, hf, e⟩ := Option.map_eq_some_iff.mp hl
  exact ⟨f, hf, congrArg Prod.fst e, congrArg Prod.snd e⟩

theorem TaskOk.flight_none (h : TaskOk w a l) (hl : l.flight = none) :
    w.buf.pool.flight a = none := by
  rw [h.flight] at hl
  exact Option.map_eq_none_iff.mp hl

section
variable {now : Instant} {iter : List Fh} {x x' : Buf} {op : BufAct} {r : op.Ret}

theorem iterate_snd {hs hs' : List Fh} (he : iterate x hs iter = some (hs', x')) : x' = x := by
  unfold iterate at he
  split at he
  · cases he; rfl
  · cases he

def BufAct.Looks : BufAct → Prop
  | .hasBuffered _ | .handles | .totalBytes | .olderThan _ | .expiredHandles => True
  | _ => False

theorem exec_look (he : op.exec a now iter x = some (r, x')) (ho : op.Looks) : x' = x := by
  cases op with
  | hasBuffered | totalBytes => cases he; rfl
  | handles | olderThan | expiredHandles => exact iterate_snd he
  | _ => exact ho.elim

theorem exec_ackFlush {n : Nat} {f : Flight} {u : Unit} (hf : x.pool.flight a = some f)
    (hn : n = f.batch.sentCount)
    (he : BufAct.exec a now iter x (.ackFlush f.handle n) = some (u, x')) :
    x' = { x with pool := x.pool.ackFlush a f } := by
  obtain ⟨-, rfl⟩ := Prod.mk.inj (Option.some.inj he)
  subst hn
  simp [hf, endFlush, Pool.ackFlush]

theorem exec_failFlush {f : Flight} {u : Unit}
    (he : BufAct.exec a now iter x (.failFlush f.handle) = some (u, x')) :
    x' = { x with pool := x.pool.failFlush a f } := by
  obtain ⟨-, rfl⟩ := Prod.mk.inj (Option.some.inj he)
  rfl

end

theorem exec_buf_other {now : Instant} {iter : List Fh} {x x' : Buf} {op : BufAct} {r : op.Ret}
    (hb : b ≠ a) (he : op.exec a now iter x = some (r, x')) :
    x'.pool.flight b = x.pool.flight b ∧ x'.owing b = x.owing b := by
  cases op with
  | push fh offset data =>
    obtain ⟨-, rfl⟩ := Prod.mk.inj (Option.some.inj he)
    exact ⟨congrFun (Pool.flight_push ..) b, rfl⟩
  | beginFlush fh =>
    obtain ⟨-, rfl⟩ := Prod.mk.inj (Option.some.inj he)
    refine ⟨?_, rfl⟩
    rcases Pool.guarded_or_free x.pool.buf fh with hr | ⟨hg, hq⟩
    · simp only [Pool.beginFlush_of_refused hr]
    · simp only [Pool.beginFlush_of_free hg hq, update_of_ne hb]
  | ackFlush | failFlush =>
    obtain ⟨-, rfl⟩ := Prod.mk.inj (Option.some.inj he)
    exact ⟨update_of_ne hb _ _, rfl⟩
  | dropHandle fh =>
    obtain ⟨-, rfl⟩ := Prod.mk.inj (Option.some.inj he)
    refine ⟨update_of_ne hb _ _, ?_⟩
    dsimp only
    split
    · exact update_of_ne hb _ _
    · rfl
  | stickyInsert fh =>
    obtain ⟨-, rfl⟩ := Prod.mk.inj (Option.some.inj he)
    refine ⟨rfl, ?_⟩
    dsimp only
    split
    · exact update_of_ne hb _ _
    · rfl
  | stickyRemove fh =>
    obtain ⟨-, rfl⟩ := Prod.mk.inj (Option.some.inj he)
    exact ⟨rfl, rfl⟩
  | _ => obtain rfl := exec_look he trivial; exact ⟨rfl, rfl⟩

/-- The task's own flush and debt after a call on the buffer. -/
theorem exec_buf_own {now : Instant} {iter : List Fh} {x x' : Buf} {op : BufAct} {r : op.Ret}
    (hf : l.flight = (x.pool.flight a).map fun f => (f.handle, f.batch)) (ho : x.owing a = l.owes)
    (hpre : bufProtocol.pre l op) (he : op.exec a now iter x = some (r, x')) :
    (bufProtocol.next l op r).flight = (x'.pool.flight a).map (fun f => (f.handle, f.batch)) ∧
      x'.owing a = (bufProtocol.next l op r).owes := by
  cases op with
  | push fh offset data =>
    obtain ⟨-, rfl⟩ := Prod.mk.inj (Option.some.inj he)
    refine ⟨?_, ho⟩
    rw [Pool.flight_push]
    exact hf
  | beginFlush fh =>
    obtain ⟨rfl, rfl⟩ := Prod.mk.inj (Option.some.inj he)
    rcases Pool.guarded_or_free x.pool.buf fh with hr | ⟨hg, hq⟩
    · have hn : (x.pool.buf.beginFlush fh).1 = none := by rw [WriteBuffer.beginFlush_fst, if_pos hr]
      simp only [Pool.beginFlush_of_refused hr]
      change (l.begun fh _).flight = _ ∧ _ = (l.begun fh _).owes
      rw [hn]
      exact ⟨hf, ho⟩
    · have hs := WriteBuffer.beginFlush_eq_some.mpr ⟨hg, hq, rfl⟩
      simp only [Pool.beginFlush_of_free hg hq, update_self]
      change (l.begun fh _).flight = _ ∧ _ = (l.begun fh _).owes
      rw [hs]
      exact ⟨rfl, ho⟩
  | ackFlush | failFlush =>
    obtain ⟨-, rfl⟩ := Prod.mk.inj (Option.some.inj he)
    exact ⟨by simp [endFlush, bufProtocol], ho⟩
  | dropHandle fh =>
    obtain ⟨rfl, rfl⟩ := Prod.mk.inj (Option.some.inj he)
    refine ⟨?_, ?_⟩
    · -- its own flush was of this handle
      have hnone : ∀ f, x.pool.flight a = some f → f.handle = fh := by
        intro f hfl
        have := hpre.2.2 (f.handle, f.batch) (by rw [hf, hfl]; rfl)
        exact this
      change none = Option.map _ (update x.pool.flight a _ a)
      rw [update_self]
      cases hfl : x.pool.flight a with
      | none => rfl
      | some f => simp [hnone f hfl]
    · change (if 0 < _ then _ else _ : Actor → Option Fh) a = if 0 < _ then some fh else l.owes
      split
      · exact update_self ..
      · exact ho
  | stickyInsert fh =>
    obtain ⟨-, rfl⟩ := Prod.mk.inj (Option.some.inj he)
    refine ⟨hf, ?_⟩
    change (if x.owing a = some fh then _ else _ : Actor → Option Fh) a =
      if l.owes = some fh then none else l.owes
    rw [ho]
    split
    · exact update_self ..
    · exact ho
  | stickyRemove fh =>
    obtain ⟨-, rfl⟩ := Prod.mk.inj (Option.some.inj he)
    exact ⟨hf, ho⟩
  | hasBuffered fh =>
    obtain rfl := exec_look he trivial
    change (l.looked fh r).flight = _ ∧ _ = (l.looked fh r).owes
    unfold ClientPhase.looked
    split <;> exact ⟨hf, ho⟩
  | totalBytes =>
    obtain rfl := exec_look he trivial
    change (l.counted r).flight = _ ∧ _ = (l.counted r).owes
    unfold ClientPhase.counted
    split <;> exact ⟨hf, ho⟩
  | _ => obtain rfl := exec_look he trivial; exact ⟨hf, ho⟩

/-- A call of a task on the buffer is a step of `Pool`. -/
theorem exec_pool_step {now : Instant} {iter : List Fh} {op : BufAct} {r : op.Ret} {x' : Buf}
    (ht : TaskOk w a l) (hpre : bufProtocol.pre l op)
    (he : op.exec a now iter w.buf = some (r, x')) :
    x'.pool = w.buf.pool ∨ ∃ pop, w.buf.pool.step pop = some x'.pool ∧
      ∀ h o d n i, pop = .push h o d n i → ∃ fh offset data, op = .push fh offset data ∧
        (h, o, d, n, i) = (fh, offset, data, now, iter) := by
  cases op with
  | push fh offset data =>
    obtain ⟨-, rfl⟩ := Prod.mk.inj (Option.some.inj he)
    refine .inr ⟨.push fh offset data now iter, rfl, ?_⟩
    rintro h o d n i ⟨⟩
    exact ⟨fh, offset, data, rfl, rfl⟩
  | beginFlush fh =>
    obtain ⟨-, rfl⟩ := Prod.mk.inj (Option.some.inj he)
    refine .inr ⟨.beginFlush a fh, ?_, by simp⟩
    exact if_pos (ht.flight_none hpre.1)
  | ackFlush fh n =>
    obtain ⟨-, batch, hl, hn, -⟩ := hpre
    obtain ⟨f, hf, rfl, rfl⟩ := ht.flight_eq hl
    obtain rfl := exec_ackFlush hf hn he
    refine .inr ⟨.ackFlush a, ?_, by simp⟩
    simp [Pool.step, hf]
  | failFlush fh =>
    obtain ⟨-, batch, hl⟩ := hpre
    obtain ⟨f, hf, rfl, rfl⟩ := ht.flight_eq hl
    obtain rfl := exec_failFlush he
    refine .inr ⟨.failFlush a, ?_, by simp⟩
    simp [Pool.step, hf]
  | dropHandle fh =>
    obtain ⟨-, rfl⟩ := Prod.mk.inj (Option.some.inj he)
    exact .inr ⟨.dropHandle a fh, rfl, by simp⟩
  | stickyInsert | stickyRemove =>
    obtain ⟨-, rfl⟩ := Prod.mk.inj (Option.some.inj he)
    exact .inl rfl
  | _ => exact .inl (by rw [exec_look he trivial])

theorem buf_next_cb (op : BufAct) (r : op.Ret) : (bufProtocol.next l op r).cb = l.cb := by
  cases op with
  | beginFlush fh => change (l.begun fh r).cb = _; unfold ClientPhase.begun; split <;> rfl
  | hasBuffered fh => change (l.looked fh r).cb = _; unfold ClientPhase.looked; split <;> rfl
  | totalBytes => change (l.counted r).cb = _; unfold ClientPhase.counted; split <;> rfl
  | _ => rfl

theorem next_le_of_step {A : Type} [DecidableEq A] {q q' : Pool A} {op : PoolOp A}
    (h : q.step op = some q') : q.next ≤ q'.next := by
  cases op with
  | push fh offset data now iter =>
    obtain rfl := Option.some.inj h
    by_cases hr : (q.buf.push fh offset data now iter).1 = .reject
    · rw [Pool.push_of_reject hr]
    · rw [Pool.push_of_accept hr]; exact Nat.le_succ _
  | beginFlush c fh =>
    rw [Pool.step] at h
    split at h
    · obtain rfl := Option.some.inj h
      rcases Pool.guarded_or_free q.buf fh with hr | ⟨hg, hq⟩
      · rw [Pool.beginFlush_of_refused hr]
      · rw [Pool.beginFlush_of_free hg hq]
    · cases h
  | ackFlush c => obtain ⟨f, -, rfl⟩ := Option.map_eq_some_iff.mp h; exact Nat.le_refl _
  | failFlush c => obtain ⟨f, -, rfl⟩ := Option.map_eq_some_iff.mp h; exact Nat.le_refl _
  | dropHandle => obtain rfl := Option.some.inj h; exact Nat.le_refl _

@[simp] theorem replied_pool (x : Answer) : (w.replied x).buf.pool = w.buf.pool := by
  unfold World.replied
  split
  · split <;> rfl
  · split <;> rfl
  · rfl

@[simp] theorem replied_owing (x : Answer) :
    (w.replied x).buf.owing = update w.buf.owing .fuse none := by
  unfold World.replied
  split
  · split <;> rfl
  · split <;> rfl
  · rfl

theorem Tasks.mono {p : Clients} {s s' : Streams} (h : Tasks w p s) (hb : w'.buf = w.buf)
    (hc : w'.call = w.call) : Tasks w' p s' :=
  ⟨fun a => (h.task a).frame hb hc (.refl _), hb ▸ h.ordered, by rw [hb, hc]; exact h.mark⟩

/-- A step of a task that touches neither the buffer nor the callback. -/
theorem Tasks.update {p : Clients} {s : Streams} (h : Tasks w p s) (hb : w'.buf = w.buf)
    (hc : w'.call = w.call) (hs : (p a).SameTask l') : Tasks w' (Function.update p a l') s where
  task := (Function.forall_update_iff p _).mpr
    ⟨(h.task a).frame hb hc hs, fun b _ => (h.task b).frame hb hc (.refl _)⟩
  ordered := hb ▸ h.ordered
  mark := by rw [hb, hc]; exact h.mark

theorem tasks_buf {p : Clients} {s : Streams} {op : BufAct} {r : op.Ret} {ch : Chance}
    (h : Tasks w p s) (hpre : bufProtocol.pre (p a) op)
    (he : World.exec S (.client a) (.buf op) ch w = some (r, w')) :
    Tasks w' (update p a (bufProtocol.next (p a) op r)) s := by
  obtain ⟨x, hx, rfl⟩ := exec_buf he
  have hstep := exec_pool_step (h.task a) hpre hx
  refine ⟨(forall_update_iff p _).mpr ⟨?_, fun b hb => ?_⟩, ?_, fun c hc => ?_⟩
  · obtain ⟨h1, h2⟩ := exec_buf_own (h.task a).flight (h.task a).owing hpre hx
    refine ⟨h1, h2, fun ha => ?_, fun ha c hc => ?_⟩
    · rw [buf_next_cb]; exact (h.task a).cb ha
    · rw [buf_next_cb]; exact (h.task a).call ha c hc
  · obtain ⟨h1, h2⟩ := exec_buf_other hb hx
    exact ⟨h1 ▸ (h.task b).flight, h2 ▸ (h.task b).owing, (h.task b).cb, (h.task b).call⟩
  · rcases hstep with e | ⟨pop, hp, -⟩
    · rw [e]; exact h.ordered
    · exact Pool.ordered_step h.ordered hp
  · refine (h.mark c hc).trans ?_
    rcases hstep with e | ⟨pop, hp, -⟩
    · rw [e]
    · exact next_le_of_step hp

theorem tasks_recv {p : Clients} {s : Streams} {cb : Callback} (h : Tasks w p s)
    (hpre : (p a).cb = some cb) :
    Tasks { w with call := some ⟨cb, w.buf.pool.next⟩ } (update p a (p a)) s := by
  rw [update_eq_self]
  have ha : a = .fuse := by
    by_contra hne
    rw [(h.task a).cb hne] at hpre
    cases hpre
  refine ⟨fun b => ⟨(h.task b).flight, (h.task b).owing, (h.task b).cb, ?_⟩, h.ordered, ?_⟩
  · rintro rfl c ⟨⟩
    rw [← ha, hpre]
  · rintro c ⟨⟩
    exact Nat.le_refl _

theorem tasks_reply {p : Clients} {s : Streams} {x : Answer} (h : Tasks w p s)
    (hpre : (p a).cb.isSome) :
    Tasks (w.replied x) (update p a { p a with cb := none, owes := none }) s := by
  have ha : a = .fuse := by
    by_contra hne
    rw [(h.task a).cb hne] at hpre
    cases hpre
  subst ha
  refine ⟨(forall_update_iff p _).mpr ⟨?_, fun b hb => ?_⟩, ?_, nofun⟩
  · refine ⟨?_, ?_, fun _ => rfl, fun _ c hc => by cases hc⟩
    · rw [replied_pool]; exact (h.task _).flight
    · rw [replied_owing, update_self]
  · refine ⟨?_, ?_, (h.task b).cb, fun _ c hc => by cases hc⟩
    · rw [replied_pool]; exact (h.task _).flight
    · rw [replied_owing, update_of_ne hb]; exact (h.task _).owing
  · rw [replied_pool]; exact h.ordered

theorem tasks_start {p : Clients} {s : Streams} {job : Job} (h : Tasks w p s) (hr : (p a).Rested) :
    Tasks w (update p a (firstPhase a job)) s := by
  refine ⟨(forall_update_iff p _).mpr ⟨?_, fun b hb => h.task b⟩, h.ordered, h.mark⟩
  have hflight := (h.task a).flight_none hr.flight
  have howing := (h.task a).owing.trans hr.owes
  have hcall : a = .fuse → w.call = none := by
    intro ha
    cases hc : w.call with
    | none => rfl
    | some c =>
      have := (h.task a).call ha c hc
      rw [hr.cb] at this
      cases this
  cases a <;> cases job <;>
    exact ⟨by simp [hflight, firstPhase], howing, by simp [firstPhase],
      fun ha c hc => by simp [hcall ha] at hc⟩

theorem tasks_keeps : Keeps S promised (fun _ _ _ => True) Tasks where
  client {a act ch r w w' p s} _ h hpre _ he := by
    cases act with
    | buf op => exact tasks_buf h hpre he
    | files op =>
      obtain ⟨f, -, rfl⟩ := exec_files he
      exact h.update rfl rfl (files_sameTask op r)
    | paths op =>
      obtain ⟨t, rfl⟩ := exec_paths he
      exact h.update rfl rfl (.refl _)
    | cache op =>
      obtain rfl := exec_cache he
      exact h.update rfl rfl (.refl _)
    | dev op =>
      cases op with
      | recv cb =>
        obtain rfl := exec_recv he
        exact tasks_recv h hpre
      | reply x =>
        obtain rfl := exec_reply he
        exact tasks_reply h hpre.1
    | net op =>
      have hf := exec_net_frame he
      exact h.update hf.buf hf.call (net_sameTask op r)
    | accept | sys => exact hpre.elim
  accept _ h _ _ he := by
    obtain ⟨rpc, -, -, -, rfl⟩ := exec_accept he
    exact h.mono rfl rfl
  sys _ h _ _ _ he := by
    obtain ⟨host, -, rfl⟩ := exec_sys he
    exact h.mono rfl rfl
  task _ h hr _ := tasks_start h hr
  stream _ h _ := h.mono rfl rfl
  env {e _ _ _} _ h _ := by
    cases e <;> exact h.mono rfl rfl

end

/-! ## Open files -/

/-- What a task may rely on about the open files. -/
structure FileOk (w : World) (l : ClientPhase) : Prop where
  fresh : ∀ fh, l.fresh = some fh → fh < w.files.next ∧ w.files.home fh = none
  used : ∀ cb, l.cb = some cb →
    (∀ fh ∈ cb.fh?, (w.files.home fh).isSome) ∧ ∀ data ∈ cb.data?, data ≠ []

/-- A handle is opened once and is used only afterwards. -/
structure Opened (w : World) (p : Clients) (_ : Streams) : Prop where
  task : ∀ a, FileOk w (p a)
  alone : ∀ {a b fh}, (p a).fresh = some fh → (p b).fresh = some fh → a = b
  home_lt : ∀ {fh}, (w.files.home fh).isSome → fh < w.files.next
  opened : ∀ {fh}, (w.files.opened fh).isSome → (w.files.home fh).isSome
  recorded : w.buf.pool.Recorded
  accepted : ∀ {fh t}, t ∈ w.buf.pool.accepted fh → (w.files.home fh).isSome ∧ t.2.data ≠ []

section
variable {S : Setup} {a b : Actor} {w w' : World} {l l' : ClientPhase} {p : Clients}
    {s s' : Streams}

theorem FileOk.frame (h : FileOk w l) (hn : w'.files.next = w.files.next)
    (hh : w'.files.home = w.files.home) (hf : l'.fresh = l.fresh) (hc : l'.cb = l.cb) :
    FileOk w' l' := by
  constructor
  · rw [hf, hn, hh]; exact h.fresh
  · rw [hc, hh]; exact h.used

theorem Opened.mono (h : Opened w p s) (hf : w'.files = w.files) (hb : w'.buf.pool = w.buf.pool) :
    Opened w' p s' where
  task a := (h.task a).frame (by rw [hf]) (by rw [hf]) rfl rfl
  alone := h.alone
  home_lt := by rw [hf]; exact h.home_lt
  opened := by rw [hf]; exact h.opened
  recorded := hb ▸ h.recorded
  accepted := by rw [hf, hb]; exact h.accepted

theorem update_fresh (hl : l'.fresh = (p a).fresh) (b : Actor) :
    (update p a l' b).fresh = (p b).fresh := by
  by_cases e : b = a
  · subst e; rw [update_self, hl]
  · rw [update_of_ne e]

theorem Opened.alone_update (h : Opened w p s) (hl : l'.fresh = (p a).fresh) {c d : Actor} {fh : Fh}
    (hc : (Function.update p a l' c).fresh = some fh)
    (hd : (Function.update p a l' d).fresh = some fh) : c = d :=
  h.alone ((update_fresh hl c).symm.trans hc) ((update_fresh hl d).symm.trans hd)

/-- A step that leaves the open files and the accepted chunks alone. -/
theorem Opened.update (h : Opened w p s) (hw : w'.files = w.files)
    (hb : w'.buf.pool = w.buf.pool) (hl : l'.fresh = (p a).fresh) (hc : l'.cb = (p a).cb) :
    Opened w' (Function.update p a l') s where
  task := (Function.forall_update_iff p _).mpr
    ⟨(h.task a).frame (by rw [hw]) (by rw [hw]) hl hc,
      fun b _ => (h.task b).frame (by rw [hw]) (by rw [hw]) rfl rfl⟩
  alone := h.alone_update hl
  home_lt := by rw [hw]; exact h.home_lt
  opened := by rw [hw]; exact h.opened
  recorded := hb ▸ h.recorded
  accepted := by rw [hw, hb]; exact h.accepted

theorem buf_next_fresh (op : BufAct) (r : op.Ret) : (bufProtocol.next l op r).fresh = l.fresh := by
  cases op with
  | beginFlush fh => change (l.begun fh r).fresh = _; unfold ClientPhase.begun; split <;> rfl
  | hasBuffered fh => change (l.looked fh r).fresh = _; unfold ClientPhase.looked; split <;> rfl
  | totalBytes => change (l.counted r).fresh = _; unfold ClientPhase.counted; split <;> rfl
  | _ => rfl

theorem net_next_fresh {chunkSize : UInt32} (op : NetAct) (r : op.Ret) :
    ((clientProtocol chunkSize).next l (.net op) r).fresh = l.fresh := by
  cases op with
  | send session request more purpose =>
    change (l.sent purpose r).fresh = _
    unfold ClientPhase.sent
    split <;> rfl
  | await n =>
    change (l.received r).fresh = _
    unfold ClientPhase.received
    split <;> first | rfl | (split <;> rfl)
  | _ => rfl

theorem opened_buf {op : BufAct} {r : op.Ret} {ch : Chance} (ht : Tasks w p s) (h : Opened w p s)
    (hpre : bufProtocol.pre (p a) op)
    (he : World.exec S (.client a) (.buf op) ch w = some (r, w')) :
    Opened w' (update p a (bufProtocol.next (p a) op r)) s := by
  obtain ⟨x, hx, rfl⟩ := exec_buf he
  have hfresh := buf_next_fresh (l := p a) op r
  refine ⟨(forall_update_iff p _).mpr ⟨?_, fun b _ => (h.task b).frame rfl rfl rfl rfl⟩,
    h.alone_update hfresh, h.home_lt, h.opened, ?_, fun {fh t} hacc => ?_⟩
  · exact (h.task a).frame rfl rfl hfresh (buf_next_cb op r)
  · rcases exec_pool_step (ht.task a) hpre hx with e | ⟨pop, hp, -⟩
    · rw [e]; exact h.recorded
    · exact Pool.recorded_step ht.ordered.toTagged h.recorded hp
  · rcases exec_pool_step (ht.task a) hpre hx with e | ⟨pop, hp, hpush⟩
    · rw [e] at hacc; exact h.accepted hacc
    · rcases (Pool.accepted_step hp).2 fh t hacc with hacc | ⟨o, d, n, i, rfl, rfl⟩
      · exact h.accepted hacc
      · -- the chunk is the data of the callback
        obtain ⟨fh', offset, data, rfl, e⟩ := hpush _ _ _ _ _ rfl
        cases e
        obtain ⟨h1, h2⟩ := (h.task a).used _ hpre.1
        exact ⟨h1 _ rfl, h2 _ rfl⟩

theorem opened_insert {fh : Fh} {file : OpenFile} {home : Ino} {base : Fh → Bytes}
    (h : Opened w p s) (hf : (p a).fresh = some fh) : Opened { w with files := { w.files with
      opened := update w.files.opened fh (some file)
      home := update w.files.home fh (some home)
      base } } (update p a { p a with fresh := none }) s := by
  have hhome : ∀ k, (w.files.home k).isSome → (update w.files.home fh (some home) k).isSome := by
    intro k hk
    by_cases e : k = fh
    · subst e; simp
    · rwa [update_of_ne e]
  refine ⟨(forall_update_iff p _).mpr ⟨⟨nofun, fun cb hcb => ?_⟩, fun b hb =>
    ⟨fun k hk => ?_, fun cb hcb => ?_⟩⟩, fun {c d k} hc hd => ?_, fun {k} hk => ?_,
    fun {k} hk => ?_,
    h.recorded, fun hacc => ⟨hhome _ (h.accepted hacc).1, (h.accepted hacc).2⟩⟩
  · obtain ⟨h1, h2⟩ := (h.task a).used cb hcb
    exact ⟨fun k hk => hhome k (h1 k hk), h2⟩
  · obtain ⟨h1, h2⟩ := (h.task b).fresh k hk
    refine ⟨h1, ?_⟩
    have hne : k ≠ fh := by
      rintro rfl
      exact hb (h.alone hk hf)
    simp only [update_of_ne hne, h2]
  · obtain ⟨h1, h2⟩ := (h.task b).used cb hcb
    exact ⟨fun k hk => hhome k (h1 k hk), h2⟩
  · have hca : c ≠ a := by rintro rfl; simp at hc
    have hda : d ≠ a := by rintro rfl; simp at hd
    rw [update_of_ne hca] at hc
    rw [update_of_ne hda] at hd
    exact h.alone hc hd
  · by_cases e : k = fh
    · subst e; exact ((h.task a).fresh k hf).1
    · simp only [update_of_ne e] at hk
      exact h.home_lt hk
  · by_cases e : k = fh
    · subst e; simp
    · simp only [update_of_ne e] at hk ⊢
      exact h.opened hk

theorem opened_nextFh (h : Opened w p s) :
    Opened { w with files := { w.files with next := w.files.next + 1 } }
      (update p a { p a with fresh := some w.files.next }) s := by
  refine ⟨(forall_update_iff p _).mpr ⟨⟨fun k hk => ?_, (h.task a).used⟩, fun b _ =>
    ⟨fun k hk => ?_, (h.task b).used⟩⟩, fun {c d k} hc hd => ?_,
    fun hk => Nat.lt_succ_of_lt (h.home_lt hk),
    h.opened, h.recorded, h.accepted⟩
  · cases hk
    refine ⟨Nat.lt_succ_self _, ?_⟩
    by_contra hne
    exact absurd (h.home_lt (Option.isSome_iff_ne_none.mpr hne)) (Nat.lt_irrefl _)
  · obtain ⟨h1, h2⟩ := (h.task b).fresh k hk
    exact ⟨Nat.lt_succ_of_lt h1, h2⟩
  · -- the new handle is none of the others
    have hnew : ∀ {e k}, e ≠ a → (p e).fresh = some k → k ≠ w.files.next :=
      fun _ hk => Nat.ne_of_lt ((h.task _).fresh _ hk).1
    by_cases hca : c = a <;> by_cases hda : d = a
    · rw [hca, hda]
    · subst hca
      rw [update_self] at hc
      rw [update_of_ne hda] at hd
      cases hc
      exact absurd rfl (hnew hda hd)
    · subst hda
      rw [update_self] at hd
      rw [update_of_ne hca] at hc
      cases hd
      exact absurd rfl (hnew hca hc)
    · rw [update_of_ne hca] at hc
      rw [update_of_ne hda] at hd
      exact h.alone hc hd

theorem opened_files {op : FileAct} {r : op.Ret} {ch : Chance} {chunkSize : UInt32}
    (h : Opened w p s) (hpre : fileProtocol.pre (p a) op)
    (he : World.exec S (.client a) (.files op) ch w = some (r, w')) :
    Opened w' (update p a ((clientProtocol chunkSize).next (p a) (.files op) r)) s := by
  obtain ⟨f, hx, rfl⟩ := exec_files he
  have htask : (p a).SameTask ((clientProtocol chunkSize).next (p a) (.files op) r) :=
    files_sameTask op r
  have hcb := htask.cb
  cases op with
  | get fh =>
    obtain ⟨-, rfl⟩ := Prod.mk.inj hx
    refine h.update rfl rfl ?_ hcb
    change ((p a).found fh r).fresh = _
    cases r <;> rfl
  | restamp fh handle gen =>
    obtain ⟨-, rfl⟩ := Prod.mk.inj hx
    rw [show (clientProtocol chunkSize).next (p a) (.files (.restamp fh handle gen)) r =
      p a from rfl,
      update_eq_self]
    refine ⟨fun b => (h.task b).frame rfl rfl rfl rfl, h.alone, h.home_lt, fun {k} hk => ?_,
      h.recorded, h.accepted⟩
    by_cases e : k = fh
    · subst e
      refine h.opened ?_
      simpa using hk
    · simp only [update_of_ne e] at hk
      exact h.opened hk
  | nextFh =>
    obtain ⟨rfl, rfl⟩ := Prod.mk.inj hx
    exact opened_nextFh h
  | insert fh file home =>
    obtain ⟨-, rfl⟩ := Prod.mk.inj hx
    exact opened_insert h hpre.1
  | remove fh =>
    obtain ⟨-, rfl⟩ := Prod.mk.inj hx
    refine ⟨(forall_update_iff p _).mpr
      ⟨(h.task a).frame rfl rfl rfl rfl, fun b _ => (h.task b).frame rfl rfl rfl rfl⟩,
      h.alone_update (by rfl), h.home_lt, fun {k} hk => ?_, h.recorded, h.accepted⟩
    by_cases e : k = fh
    · subst e; simp at hk
    · simp only [update_of_ne e] at hk
      exact h.opened hk

theorem opened_start {job : Job} (h : Opened w p s) (hK : promisedStart w (.client a) job)
    (hr : (p a).Rested) : Opened w (update p a (firstPhase a job)) s := by
  have hfresh : (firstPhase a job).fresh = (p a).fresh := by
    rw [hr.fresh]
    cases a <;> cases job <;> rfl
  refine ⟨(forall_update_iff p _).mpr ⟨⟨fun k hk => ?_, fun cb hcb => ?_⟩, fun b _ => h.task b⟩,
    h.alone_update hfresh, h.home_lt, h.opened, h.recorded, h.accepted⟩
  · rw [hfresh, hr.fresh] at hk; cases hk
  · cases a <;> cases job <;> cases hcb
    exact ⟨fun fh hfh => h.opened (hK.1 fh hfh), hK.2⟩

theorem opened_keeps : Keeps S promised Tasks Opened where
  client {a act ch r w w' p s} ht h hpre _ he := by
    cases act with
    | buf op => exact opened_buf ht h hpre he
    | files op => exact opened_files h hpre he
    | paths op =>
      obtain ⟨t, rfl⟩ := exec_paths he
      exact h.update rfl rfl rfl rfl
    | cache op =>
      obtain rfl := exec_cache he
      exact h.update rfl rfl rfl rfl
    | dev op =>
      cases op with
      | recv cb =>
        obtain rfl := exec_recv he
        exact h.update rfl rfl rfl rfl
      | reply x =>
        obtain rfl := exec_reply he
        refine ⟨(forall_update_iff p _).mpr ⟨⟨(h.task a).fresh, nofun⟩, fun b _ =>
          (h.task b).frame rfl rfl rfl rfl⟩, h.alone_update (by rfl), h.home_lt, h.opened, ?_, ?_⟩
        · rw [replied_pool]; exact h.recorded
        · rw [replied_pool]; exact h.accepted
    | net op =>
      have hf := exec_net_frame he
      exact h.update hf.files (hf.buf ▸ rfl) (net_next_fresh op r) (net_sameTask op r).cb
    | accept | sys => exact hpre.elim
  accept _ h _ _ he := by
    obtain ⟨rpc, -, -, -, rfl⟩ := exec_accept he
    exact h.mono rfl rfl
  sys _ h _ _ _ he := by
    obtain ⟨host, -, rfl⟩ := exec_sys he
    exact h.mono rfl rfl
  task _ h hr hK := opened_start h hK hr
  stream _ h _ := h.mono rfl rfl
  env {e _ _ _} _ h _ := by
    cases e <;> exact h.mono rfl rfl

end

end QuicFs.System
