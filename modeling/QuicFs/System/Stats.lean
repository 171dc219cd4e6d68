import QuicFs.Client.Coalesce
import QuicFs.Server.Contents
import QuicFs.System.Bindings
import QuicFs.System.Sending

/-!
# Attributes in the cache

`get_stat` flushes every handle that has chunks, asks the server, and caches the answer if the
flushes succeeded. `Settled` holds in the runs in which none of these flushes finds the guard of
another task, only empty queues are dropped and the bindings are `Steady`. In these the server read
the attributes that are cached after it had applied every chunk accepted for the file
(`cached_stat_fresh`). In others it had not: `cached_stat_stale`.

`Applying` is about all Writes: what is acknowledged has been written, frame by frame, by streams of
the server, to the file that the handle was opened on.
-/

namespace QuicFs.System

open Lib Client Server Function

/-! ## The server answers with what it has read -/

/-- The phase of a stream is the record of its calls. -/
def answerSide : Tid → Protocol Act Act.Ret Log
  | .client _ => ⟨fun _ _ => True, fun _ _ _ => True, fun l _ _ => l⟩
  | .stream n =>
    { pre := fun l a =>
        match a with
        | .sys a => (answerProtocol n).pre l a
        | _ => True
      post := fun _ _ _ => True
      next := fun l a r =>
        match a, r with
        | .sys a, r => (answerProtocol n).next l a r
        | _, _ => l }

section
variable {S : Setup} {w₀ w w' : World} {c : Config Act Act.Ret World Tid} {n : Nat} {a : Actor}
    {ch : Chance}

theorem onServer_answers {α : Type} {p : Calls α} {l : Log} {Q : Log → α → Prop}
    (h : Answers n l p Q) : (onServer p).Follows (answerSide (.stream n)) l Q := by
  induction p generalizing l with
  | ret x => exact h
  | act a k ih => exact ⟨h.1, fun r hr => ih r (h.2 r hr)⟩

theorem exec_client_record {act : Act} {r : act.Ret}
    (he : World.exec S (.client a) act ch w = some (r, w')) :
    w'.hist = w.hist ∧ w'.host.replies = w.host.replies ∧ w'.host.fs = w.host.fs := by
  cases act with
  | buf op => obtain ⟨x, -, rfl⟩ := exec_buf he; exact ⟨rfl, rfl, rfl⟩
  | files op => obtain ⟨f, -, rfl⟩ := exec_files he; exact ⟨rfl, rfl, rfl⟩
  | paths op => obtain ⟨t, rfl⟩ := exec_paths he; exact ⟨rfl, rfl, rfl⟩
  | cache op => obtain rfl := exec_cache he; exact ⟨rfl, rfl, rfl⟩
  | net op => exact ⟨(exec_net_frame he).hist, (exec_net_frame he).replies, (exec_net_frame he).fs⟩
  | dev op =>
    cases op with
    | recv cb => obtain rfl := exec_recv he; exact ⟨rfl, rfl, rfl⟩
    | reply x => obtain rfl := exec_reply he; exact ⟨rfl, rfl, rfl⟩
  | accept | sys => cases he

theorem log_afterSys {rpc : Option Rpc} {act : Sys} {r : act.Ret} (hist : History) :
    ((hist.afterSys rpc act r).record n act r).log = hist.log ++ [⟨n, act, r⟩] := by
  have hlog : (hist.afterSys rpc act r).log = hist.log := by
    unfold History.afterSys
    split <;> (try rfl) <;> split <;> (try rfl) <;> split <;> rfl
  simp only [History.record, hlog]

/-- The calls of the streams are in the record, and their answers are made from it. -/
structure AnswersMade (w : World) (l : Tid → Log) : Prop where
  calls : ∀ n, l (.stream n) ⊆ w.hist.log
  made : ∀ {n r}, (n, r) ∈ w.host.replies → r.MadeFrom n w.hist.log

theorem AnswersMade.sys {l : Tid → Log} {act : Sys} {r : act.Ret} (h : AnswersMade w l)
    (hpre : (answerProtocol n).pre (l (.stream n)) act)
    (he : World.exec S (.stream n) (.sys act) ch w = some (r, w')) :
    AnswersMade w' (update l (.stream n) (l (.stream n) ++ [⟨n, act, r⟩])) := by
  obtain ⟨host, hex, rfl⟩ := exec_sys he
  have hlog : ((w.hist.afterSys (w.net.rpcs n) act r).record n act r).log = w.hist.log ++
      [⟨n, act, r⟩] :=
    log_afterSys w.hist
  have hmono : w.hist.log ⊆ ((w.hist.afterSys (w.net.rpcs n) act r).record n act r).log :=
    hlog ▸ List.subset_append_left _ _
  refine ⟨fun m => ?_, fun {m q} hm => ?_⟩
  · by_cases e : m = n
    · subst e
      rw [update_self, hlog]
      exact List.append_subset.mpr ⟨List.Subset.trans (h.calls m) (List.subset_append_left _ _),
        List.subset_append_right _ _⟩
    · rw [update_of_ne (by simpa using e)]
      exact List.Subset.trans (h.calls m) hmono
  · have hm : (m, q) ∈ host.replies := hm
    rcases exec_replies hex with heq | ⟨x, rfl, heq⟩
    · exact (h.made (heq ▸ hm)).mono hmono
    · rw [heq] at hm
      rcases List.mem_append.mp hm with hm | hm
      · exact (h.made hm).mono hmono
      · obtain ⟨rfl, rfl⟩ := Prod.mk.inj (List.mem_singleton.mp hm)
        exact (hpre q rfl).mono (List.Subset.trans (h.calls m) hmono)

theorem AnswersMade.run {t : Tid} {l : Tid → Log} {act : Act} {r : act.Ret} (h : AnswersMade w l)
    (hpre : (answerSide t).pre (l t) act) (he : World.exec S t act ch w = some (r, w')) :
    AnswersMade w' (update l t ((answerSide t).next (l t) act r)) := by
  cases t with
  | client b =>
    obtain ⟨hh, hrep, -⟩ := exec_client_record he
    have hsame : AnswersMade w' l := ⟨by rw [hh]; exact h.calls, by rw [hh, hrep]; exact h.made⟩
    exact (update_eq_self (.client b) l).symm ▸ hsame
  | stream n =>
    cases act with
    | accept =>
      obtain ⟨rpc, -, -, -, rfl⟩ := exec_accept he
      have hsame : AnswersMade (w.setRpc n { rpc with accepted := true }) l := ⟨h.calls, h.made⟩
      exact (update_eq_self (.stream n) l).symm ▸ hsame
    | sys a => exact h.sys hpre he
    | _ => cases he

/-- **Every answer is made from what its stream has read.** -/
theorem replies_madeFrom {K : MountCond} (h0 : w₀.host.replies = [])
    (h : Reach (mountMachine S).step K.Meets (Config.idle w₀) c) {r : Response}
    (hr : (n, r) ∈ c.state.host.replies) : r.MadeFrom n c.state.hist.log := by
  have hinit : AnswersMade w₀ fun _ => [] :=
    ⟨fun _ => List.nil_subset _, fun hr => by rw [h0] at hr; cases hr⟩
  have hinv := @Machine.sound _ _ _ _ _ _ _ _ _ (mountMachine S) K answerSide AnswersMade
    (fun _ _ => True) w₀ (fun _ => []) c hinit (fun _ => trivial) ?_
      (fun t act ch r w w' l hi hpre _ he => hi.run hpre he)
    ?_ ?_ h
  · exact hinv.elim fun _ hi => hi.1.made hr
  · intro t l a ch r s s' _ _
    cases t <;> trivial
  · intro t job w l hi _ _
    refine ⟨[], ⟨fun m => ?_, hi.made⟩, ?_⟩
    · rw [update_apply]
      split
      · exact List.nil_subset _
      · exact hi.calls m
    · cases t with
      | client b => exact Prog.follows_of_forall (fun _ _ => trivial) (fun _ _ => trivial) _
      | stream k =>
        cases job with
        | stream => exact ⟨trivial, fun (q : Incoming) _ =>
            onServer_answers (handle_answers S.ex S.dur q.frames q.session q.request)⟩
        | _ => trivial
  · intro e w w' l hi _ he
    obtain rfl := Option.some.inj he
    cases e <;> exact ⟨hi.calls, hi.made⟩

end

/-! ## What has been applied -/

/-- What is known of every run in which only empty queues are dropped, the bindings are steady and
no callback of the kind finds the guard of another task. -/
structure Carrying (kind : Callback → Bool) (w : World) (p : Clients) (s : Streams) : Prop where
  mounted : Mounted w p s
  sending : Sending w p s
  bound : Bound w p s
  cleared : Cleared kind w (p .fuse)
  lossless : w.buf.pool.Lossless

/-- The stream has written the frame to the file that the handle was opened on. -/
def World.Wrote (w : World) (log : Log) (fh : Fh) (n : Nat) (fr : WriteRequest) : Prop :=
  ∃ f append, w.files.home fh = some f.ino ∧
    ⟨n, .writeAt f fr.offset fr.data append, (none : Option IoErrorKind)⟩ ∈ log

/-- A Write of the handle carried the run, and all its frames were written. -/
def World.Delivered (w : World) (log : Log) (fh : Fh) (run : UInt64 × Bytes) : Prop :=
  ∃ n rpc, w.net.rpcs n = some rpc ∧ rpc.purpose = .write fh ∧ rpc.run = run ∧
    ∀ fr ∈ rpc.frames, w.Wrote log fh n fr

def World.Applied (w : World) (log : Log) (fh : Fh) (t : Tag) : Prop :=
  ∃ run, Within (t.2.offset, t.2.data) run ∧ w.Delivered log fh run

/-- What the second state has of the first. -/
structure Recalls (w w' : World) : Prop where
  home : ∀ {fh i}, w.files.home fh = some i → w'.files.home fh = some i
  rpcs : ∀ {n rpc}, w.net.rpcs n = some rpc → ∃ rpc', w'.net.rpcs n = some rpc' ∧ rpc.Same rpc'
  log : w.hist.log <+: w'.hist.log

/-- What is acknowledged has been applied. -/
structure Applying (w : World) (p : Clients) (s : Streams) : Prop where
  stream : ∀ {n l rpc fh}, s n = some l → w.net.rpcs n = some rpc → rpc.purpose = .write fh →
    ∀ fr ∈ l.wrote, w.Wrote w.hist.log fh n fr
  replies : ∀ {n r rpc fh}, (n, r) ∈ w.host.replies → w.net.rpcs n = some rpc →
    rpc.purpose = .write fh →
    r.status = .ok → ∀ fr ∈ rpc.frames, w.Wrote w.hist.log fh n fr
  task : ∀ {a fh batch}, (p a).flight = some (fh, batch) →
    ∃ done, batch.chunks = done ++ (p a).left ∧ ∀ run ∈ done, w.Delivered w.hist.log fh run
  carried : ∀ {a f}, w.buf.pool.flight a = some f → ∀ t ∈ f.snapshot,
    ∃ run ∈ f.batch.chunks, Within (t.2.offset, t.2.data) run
  acked : ∀ {fh t}, t ∈ w.buf.pool.acked fh → w.Applied w.hist.log fh t
  calls : ∀ {e}, e ∈ w.hist.log → ∃ rpc, w.net.rpcs e.thread = some rpc

section
variable {S : Setup} {a : Actor} {w w' : World} {l l' : ClientPhase} {p p' : Clients}
    {s s' : Streams} {ch : Chance}
  {n : Nat} {rpc rpc' : Rpc} {fh : Fh} {log log' : Log} {kind : Callback → Bool}

theorem Rpc.Same.refl (rpc : Rpc) : rpc.Same rpc := ⟨rfl, rfl, rfl, rfl, rfl, rfl⟩

namespace Recalls

theorem refl (w : World) : Recalls w w := ⟨id, fun h => ⟨_, h, .refl _⟩, List.prefix_rfl⟩

theorem of_eq (hf : w'.files.home = w.files.home) (hn : w'.net.rpcs = w.net.rpcs)
    (hl : w'.hist.log = w.hist.log) : Recalls w w' :=
  ⟨fun h => hf ▸ h, fun h => ⟨_, hn ▸ h, .refl _⟩, hl ▸ List.prefix_rfl⟩

theorem same (h : Recalls w w') (hn : w.net.rpcs n = some rpc) (hn' : w'.net.rpcs n = some rpc') :
    rpc.Same rpc' := by
  obtain ⟨x, hx, hs⟩ := h.rpcs hn
  obtain rfl := Option.some.inj (hx.symm.trans hn')
  exact hs

theorem wrote {fr : WriteRequest} (h : Recalls w w') (hl : log ⊆ log') (hw : w.Wrote log fh n fr) :
    w'.Wrote log' fh n fr := by
  obtain ⟨f, append, hf, he⟩ := hw
  exact ⟨f, append, h.home hf, hl he⟩

theorem delivered {run : UInt64 × Bytes} (h : Recalls w w') (hl : log ⊆ log')
    (hd : w.Delivered log fh run) : w'.Delivered log' fh run := by
  obtain ⟨n, rpc, hn, hp, hr, hall⟩ := hd
  obtain ⟨rpc', hn', hs⟩ := h.rpcs hn
  refine ⟨n, rpc', hn', hs.purpose.trans hp, hs.run.trans hr, fun fr hfr => ?_⟩
  exact h.wrote hl (hall fr (hs.frames ▸ hfr))

theorem applied {t : Tag} (h : Recalls w w') (hl : log ⊆ log') (ha : w.Applied log fh t) :
    w'.Applied log' fh t := by
  obtain ⟨run, hw, hd⟩ := ha
  exact ⟨run, hw, h.delivered hl hd⟩

end Recalls

/-! ### Every step recalls the state before it -/

theorem recalls_setRpc (hn : w.net.rpcs n = some rpc) (hs : rpc.Same rpc') :
    Recalls w (w.setRpc n rpc') := by
  refine ⟨id, fun {m x} hx => ?_, List.prefix_rfl⟩
  obtain ⟨x', hx', hsame, -⟩ := setRpc_same hn hs hx
  exact ⟨x', hx', hsame⟩

theorem recalls_files {op : FileAct} {r : op.Ret} (hm : Mounted w p s)
    (hpre : fileProtocol.pre (p a) op)
    (he : World.exec S (.client a) (.files op) ch w = some (r, w')) : Recalls w w' := by
  obtain ⟨f, hx, rfl⟩ := exec_files he
  obtain ⟨-, rfl⟩ := Prod.mk.inj hx
  cases op with
  | insert fh file home =>
    refine ⟨fun {k i} hk => ?_, fun h => ⟨_, h, .refl _⟩, List.prefix_rfl⟩
    have hnone := ((hm.opened.task a).fresh fh hpre.1).2
    refine (update_of_ne (fun e => ?_) ..).trans hk
    subst e
    cases hnone.symm.trans hk
  | _ => exact .of_eq rfl rfl rfl

theorem recalls_net {op : NetAct} {r : op.Ret} (hm : Mounted w p s)
    (he : World.exec S (.client a) (.net op) ch w = some (r, w')) : Recalls w w' := by
  have hf := exec_net_frame he
  cases op with
  | send session request more purpose =>
    rcases exec_send he with ⟨-, rfl⟩ | ⟨-, rfl⟩
    · exact .refl _
    · refine ⟨id, fun {m x} hx => ⟨x, ?_, .refl x⟩, List.prefix_rfl⟩
      exact (update_of_ne (Nat.ne_of_lt (hm.rpcs.lt hx)) ..).trans hx
  | await n =>
    obtain ⟨rpc, hn, ⟨-, rfl⟩ | ⟨resp, -, -, rfl⟩⟩ := exec_await he
    · exact recalls_setRpc hn ⟨rfl, rfl, rfl, rfl, rfl, rfl⟩
    · exact recalls_setRpc hn ⟨rfl, rfl, rfl, rfl, rfl, rfl⟩
  | _ => exact .of_eq (by rw [hf.files]) (exec_net_quiet he trivial).1 (by rw [hf.hist])

theorem recalls_client {act : Act} {r : act.Ret} (hm : Mounted w p s)
    (hpre : (clientProtocol S.chunkSize).pre (p a) act)
    (he : World.exec S (.client a) act ch w = some (r, w')) : Recalls w w' := by
  cases act with
  | buf op => obtain ⟨x, -, rfl⟩ := exec_buf he; exact .of_eq rfl rfl rfl
  | files op => exact recalls_files hm hpre he
  | paths op => obtain ⟨t, rfl⟩ := exec_paths he; exact .of_eq rfl rfl rfl
  | cache op => obtain rfl := exec_cache he; exact .refl _
  | net op => exact recalls_net hm he
  | dev op =>
    cases op with
    | recv cb => obtain rfl := exec_recv he; exact .of_eq rfl rfl rfl
    | reply x => obtain rfl := exec_reply he; exact .of_eq rfl rfl rfl
  | accept | sys => exact hpre.elim

theorem recalls_accept {q : Incoming} (he : World.exec S (.stream n) .accept ch w = some (q, w')) :
    Recalls w w' := by
  obtain ⟨rpc, hn, -, -, rfl⟩ := exec_accept he
  exact recalls_setRpc hn ⟨rfl, rfl, rfl, rfl, rfl, rfl⟩

theorem recalls_sys {act : Sys} {r : act.Ret}
    (he : World.exec S (.stream n) (.sys act) ch w = some (r, w')) : Recalls w w' := by
  obtain ⟨host, -, rfl⟩ := exec_sys he
  exact ⟨id, fun h => ⟨_, h, .refl _⟩, by rw [log_afterSys]; exact List.prefix_append _ _⟩

theorem recalls_env (e : Env) : Recalls w (w.env e) := by
  cases e <;> exact .of_eq rfl rfl rfl

/-! ### Every step keeps what is applied -/

/-- A step, given what is new in it. -/
theorem Applying.step (h : Applying w p s) (hm : Mounted w p s) (hr : Recalls w w')
    (hstream : ∀ {n l}, s' n = some l → (∃ l', s n = some l' ∧ l.wrote = l'.wrote) ∨
      ∀ rpc, w'.net.rpcs n = some rpc → ∀ fh, rpc.purpose = .write fh →
      ∀ fr ∈ l.wrote, w'.Wrote w'.hist.log fh n fr)
    (hreplies : ∀ {n r}, (n, r) ∈ w'.host.replies → (n, r) ∈ w.host.replies ∨
      ∀ rpc, w'.net.rpcs n = some rpc → ∀ fh, rpc.purpose = .write fh → r.status = .ok →
        ∀ fr ∈ rpc.frames, w'.Wrote w'.hist.log fh n fr)
    (htask : ∀ {a fh batch}, (p' a).flight = some (fh, batch) →
      ((p a).flight = some (fh, batch) ∧ (p' a).left = (p a).left) ∨
      ∃ done, batch.chunks = done ++ (p' a).left ∧ ∀ run ∈ done, w'.Delivered w'.hist.log fh run)
    (hcarried : ∀ {a f}, w'.buf.pool.flight a = some f → w.buf.pool.flight a = some f ∨
      ∀ t ∈ f.snapshot, ∃ run ∈ f.batch.chunks, Within (t.2.offset, t.2.data) run)
    (hacked : ∀ {fh t}, t ∈ w'.buf.pool.acked fh → t ∈ w.buf.pool.acked fh ∨
      w'.Applied w'.hist.log fh t)
    (hcalls : ∀ {e}, e ∈ w'.hist.log → e ∈ w.hist.log ∨ ∃ rpc, w'.net.rpcs e.thread = some rpc) :
    Applying w' p' s' where
  stream {n l rpc fh} hl hn hp fr hfr := by
    rcases hstream hl with ⟨l', hl', e⟩ | hnew
    · obtain ⟨x, hx, -⟩ := hm.rpcs.stream hl'
      have hs := hr.same hx hn
      exact hr.wrote hr.log.subset (h.stream hl' hx (hs.purpose ▸ hp) fr (e ▸ hfr))
    · exact hnew rpc hn fh hp fr hfr
  replies {n r rpc fh} hx hn hp hok fr hfr := by
    rcases hreplies hx with hx | hnew
    · obtain ⟨x, hx', -⟩ := hm.rpcs.replies hx
      have hs := hr.same hx' hn
      exact hr.wrote hr.log.subset (h.replies hx hx' (hs.purpose ▸ hp) hok fr (hs.frames ▸ hfr))
    · exact hnew rpc hn fh hp hok fr hfr
  task {a fh batch} hf := by
    rcases htask hf with ⟨hf, e⟩ | hnew
    · obtain ⟨done, hd, hall⟩ := h.task hf
      exact ⟨done, by rw [e]; exact hd, fun run hrun => hr.delivered hr.log.subset (hall run hrun)⟩
    · exact hnew
  carried hf := (hcarried hf).elim (fun hf => h.carried hf) id
  acked ht := (hacked ht).elim (fun ht => hr.applied hr.log.subset (h.acked ht)) id
  calls he := by
    rcases hcalls he with he | hnew
    · obtain ⟨rpc, hn⟩ := h.calls he
      obtain ⟨rpc', hn', -⟩ := hr.rpcs hn
      exact ⟨rpc', hn'⟩
    · exact hnew

/-- A step of a task that neither receives an answer nor touches the buffer. -/
theorem Applying.update (h : Applying w p s) (hm : Mounted w p s) (hr : Recalls w w')
    (hrep : w'.host.replies = w.host.replies) (hlog : w'.hist.log = w.hist.log)
    (hb : w'.buf.pool = w.buf.pool) (hf : l'.flight = (p a).flight) (hl : l'.left = (p a).left) :
    Applying w' (Function.update p a l') s := by
  refine h.step hm hr (fun hl => .inl ⟨_, hl, rfl⟩) (fun hx => .inl (hrep ▸ hx))
    (fun {b fh batch} hfl => .inl ?_)
    (fun hfl => .inl (hb ▸ hfl)) (fun ht => .inl (hb ▸ ht)) fun he => .inl (hlog ▸ he)
  by_cases e : b = a
  · subst e
    rw [Function.update_self] at hfl ⊢
    exact ⟨hf ▸ hfl, hl⟩
  · rw [Function.update_of_ne e] at hfl ⊢
    exact ⟨hfl, rfl⟩

theorem applying_begin (h : Applying w p s) (hc : Carrying kind w p s) :
    Applying { w with buf := { w.buf with pool := w.buf.pool.beginFlush a fh } }
      (update p a ((p a).begun fh (w.buf.pool.buf.beginFlush fh).1)) s := by
  have hr : Recalls w { w with buf := { w.buf with pool := w.buf.pool.beginFlush a fh } } :=
    .of_eq rfl rfl rfl
  rcases Pool.guarded_or_free w.buf.pool.buf fh with hg | ⟨hg, hq⟩
  · have hnone : (w.buf.pool.buf.beginFlush fh).1 = none := by
      rw [WriteBuffer.beginFlush_fst, if_pos hg]
    rw [Pool.beginFlush_of_refused hg, hnone]
    exact h.update hc.mounted (.refl w) rfl rfl rfl rfl rfl
  · have hsome := WriteBuffer.beginFlush_eq_some.mpr ⟨hg, hq, rfl⟩
    rw [Pool.beginFlush_of_free hg hq] at hr ⊢
    rw [hsome]
    refine h.step hc.mounted hr (fun hl => .inl ⟨_, hl, rfl⟩) .inl (fun {b k batch} hf => ?_)
      (fun {b f} hf => ?_)
      .inl .inl
    · by_cases e : b = a
      · subst e
        rw [update_self] at hf ⊢
        obtain ⟨-, rfl⟩ := Prod.mk.inj (Option.some.inj hf)
        exact .inr ⟨[], rfl, nofun⟩
      · rw [update_of_ne e] at hf ⊢
        exact .inl ⟨hf, rfl⟩
    · simp only [update_apply] at hf
      split at hf
      · obtain rfl := Option.some.inj hf
        refine .inr fun t ht => ?_
        have hmem : t.2 ∈ w.buf.pool.buf.queue fh := by
          rw [← hc.lossless.queue fh]
          exact List.mem_map_of_mem ht
        exact within_batchOf (hc.cleared.accounted.byteCount_queue_lt fh) hmem
      · exact .inl hf

/-- All runs of an acknowledged flush have been delivered. -/
theorem applying_ack {f : Flight} (h : Applying w p s) (hc : Carrying kind w p s)
    (hf : w.buf.pool.flight a = some f) (hl : (p a).flight = some (f.handle, f.batch))
    (hleft : (p a).left = []) (hnone : l'.flight = none) :
    Applying { w with buf := { w.buf with pool := w.buf.pool.ackFlush a f } }
      (update p a l') s := by
  have hr : Recalls w { w with buf := { w.buf with pool := w.buf.pool.ackFlush a f } } :=
    .of_eq rfl rfl rfl
  refine h.step hc.mounted hr (fun hl => .inl ⟨_, hl, rfl⟩) .inl (fun {b k batch} hb => ?_)
    (fun {b g} hg => .inl ?_)
    (fun {k t} ht => ?_) .inl
  · by_cases e : b = a
    · subst e
      rw [update_self, hnone] at hb
      cases hb
    · rw [update_of_ne e] at hb ⊢
      exact .inl ⟨hb, rfl⟩
  · simp only [Pool.ackFlush, update_apply] at hg
    split at hg
    · cases hg
    · exact hg
  · simp only [Pool.ackFlush, update_apply] at ht
    split at ht
    · next e =>
      subst e
      rcases List.mem_append.mp ht with ht | ht
      · exact .inl ht
      · obtain ⟨done, hd, hall⟩ := h.task hl
        rw [hleft, List.append_nil] at hd
        obtain ⟨run, hrun, hw⟩ := h.carried hf t ht
        exact .inr ⟨run, hw, hr.delivered (fun _ he => he) (hall run (hd ▸ hrun))⟩
    · exact .inl ht

theorem applying_buf {op : BufAct} {r : op.Ret} (h : Applying w p s) (hc : Carrying kind w p s)
    (hpre : bufProtocol.pre (p a) op)
    (he : World.exec S (.client a) (.buf op) ch w = some (r, w')) :
    Applying w' (update p a (bufProtocol.next (p a) op r)) s := by
  obtain ⟨x, hx, rfl⟩ := exec_buf he
  have hr : Recalls w { w with buf := x } := .of_eq rfl rfl rfl
  -- a step after which the task has no flush, and which acknowledges none
  have hend : ∀ {l' : ClientPhase}, l'.flight = none →
      (∀ b g, x.pool.flight b = some g → w.buf.pool.flight b = some g) →
      x.pool.acked = w.buf.pool.acked → Applying { w with buf := x } (update p a l') s := by
    intro l' hnone hfl hack
    refine h.step hc.mounted hr (fun hl => .inl ⟨_, hl, rfl⟩) .inl (fun {b k batch} hb => ?_)
      (fun {b g} hg => .inl (hfl b g hg)) (fun ht => .inl (hack ▸ ht)) .inl
    by_cases e : b = a
    · subst e
      rw [update_self, hnone] at hb
      cases hb
    · rw [update_of_ne e] at hb ⊢
      exact .inl ⟨hb, rfl⟩
  cases op with
  | push fh offset data =>
    obtain ⟨-, rfl⟩ := Prod.mk.inj (Option.some.inj hx)
    have hack : (w.buf.pool.push fh offset data w.now ch.iter).acked = w.buf.pool.acked := by
      unfold Pool.push
      split <;> rfl
    refine hend hpre.2 (fun b g hg => ?_) hack
    rwa [Pool.flight_push] at hg
  | beginFlush fh =>
    obtain ⟨rfl, rfl⟩ := Prod.mk.inj (Option.some.inj hx)
    exact applying_begin h hc
  | ackFlush fh n =>
    obtain ⟨-, batch, hl, hn, hleft⟩ := hpre
    obtain ⟨f, hf, rfl, rfl⟩ := (hc.mounted.tasks.task a).flight_eq hl
    obtain rfl := exec_ackFlush hf hn hx
    exact applying_ack h hc hf hl hleft rfl
  | failFlush fh =>
    obtain ⟨-, batch, hl⟩ := hpre
    obtain ⟨f, hf, rfl, rfl⟩ := (hc.mounted.tasks.task a).flight_eq hl
    obtain rfl := exec_failFlush hx
    refine hend rfl (fun b g hg => ?_) rfl
    simp only [Pool.failFlush, update_apply] at hg
    split at hg
    · cases hg
    · exact hg
  | dropHandle fh =>
    obtain ⟨-, rfl⟩ := Prod.mk.inj (Option.some.inj hx)
    refine hend rfl (fun b g hg => ?_) rfl
    simp only [Pool.dropHandle, update_apply] at hg
    split at hg
    · next e => exact e ▸ (Option.mem_filter_iff.mp hg).1
    · exact hg
  | hasBuffered fh =>
    obtain rfl := exec_look hx trivial
    change Applying w (update p a ((p a).looked fh r)) s
    unfold ClientPhase.looked
    split <;> exact h.update hc.mounted hr rfl rfl rfl rfl rfl
  | totalBytes =>
    obtain rfl := exec_look hx trivial
    change Applying w (update p a ((p a).counted r)) s
    unfold ClientPhase.counted
    split <;> exact h.update hc.mounted hr rfl rfl rfl rfl rfl
  | handles | olderThan | expiredHandles =>
    obtain rfl := exec_look hx trivial
    exact h.update hc.mounted hr rfl rfl rfl rfl rfl
  | stickyInsert fh | stickyRemove fh =>
    obtain ⟨-, rfl⟩ := Prod.mk.inj (Option.some.inj hx)
    exact h.update hc.mounted hr rfl rfl rfl rfl rfl

/-- The runs left after an answer: the one that was answered `Ok` has been delivered. -/
theorem received_left_cases (r : Option Response) :
    (l.received r).left = l.left ∨ ∃ n fh resp, l.rpc = some (n, .write fh) ∧ r = some resp ∧
    resp.status = .ok ∧
      (l.received r).left = l.left.tail := by
  unfold ClientPhase.received
  split <;> try exact .inl rfl
  · split <;> exact .inl rfl
  · next n fh resp hrpc =>
    dsimp only
    split
    · next hok => exact .inr ⟨n, fh, resp, hrpc, rfl, hok, rfl⟩
    · exact .inl rfl

theorem applying_await {r : Option Response} (h : Applying w p s) (hc : Carrying kind w p s)
    (hpre : (netProtocol S.chunkSize).pre (p a) (.await n))
    (he : World.exec S (.client a) (.net (.await n)) ch w = some (r, w')) :
    Applying w' (update p a ((p a).received r)) s := by
  have hr := recalls_net hc.mounted he
  have hf := exec_net_frame he
  refine h.step hc.mounted hr (fun hl => .inl ⟨_, hl, rfl⟩) (fun hx => .inl (hf.replies ▸ hx))
    (fun {b k batch} hb => ?_) (fun hg => .inl (hf.buf ▸ hg)) (fun ht => .inl (hf.buf ▸ ht))
    fun he => .inl (hf.hist ▸ he)
  by_cases e : b = a
  swap
  · rw [update_of_ne e] at hb ⊢
    exact .inl ⟨hb, rfl⟩
  subst e
  rw [update_self] at hb ⊢
  rw [(received_sameTask r).flight] at hb
  rcases received_left_cases (l := p b) r with hl | ⟨m, fh, resp, hrpc, rfl, hok, hl⟩
  · exact .inl ⟨hb, hl⟩
  -- the run in front was sent by the Write that is answered
  obtain rfl : m = n := by
    rcases hpre with ⟨q, hq⟩ | ⟨hq, -⟩
    · exact (Prod.mk.inj (Option.some.inj (hrpc.symm.trans hq))).1
    · cases hrpc.symm.trans hq
  obtain ⟨rpc, hn, ⟨hno, -⟩ | ⟨resp', hsome, hresp, -⟩⟩ := exec_await he
  · cases hno
  obtain rfl := Option.some.inj hsome
  obtain ⟨-, rpc', hn', hp, -⟩ := (hc.mounted.rpcs.task b).rpc hrpc
  obtain rfl := Option.some.inj (hn.symm.trans hn')
  obtain ⟨⟨runs, hruns⟩, f, hflight, hh, -⟩ := (hc.sending.task b).waits hrpc hn
  obtain ⟨done, hd, hall⟩ := h.task hb
  have hk : k = fh := by
    obtain ⟨g, hg, rfl, -⟩ := (hc.mounted.tasks.task b).flight_eq hb
    rw [hflight] at hg
    rw [← hh, Option.some.inj hg]
  subst hk
  have hnew : w.Delivered w.hist.log k rpc.run :=
    ⟨m, rpc, hn, hp, rfl, h.replies (mem_replies_of_answersOf hresp) hn hp hok⟩
  refine .inr ⟨done ++ [rpc.run], ?_, fun run hrun => hr.delivered hr.log.subset ?_⟩
  · rw [hl, hruns, hd, hruns]
    simp
  · rcases List.mem_append.mp hrun with hrun | hrun
    · exact hall run hrun
    · exact List.mem_singleton.mp hrun ▸ hnew

theorem applying_net {op : NetAct} {r : op.Ret} (h : Applying w p s) (hc : Carrying kind w p s)
    (hpre : (netProtocol S.chunkSize).pre (p a) op)
    (he : World.exec S (.client a) (.net op) ch w = some (r, w')) :
    Applying w' (update p a ((netProtocol S.chunkSize).next (p a) op r)) s := by
  have hr := recalls_net hc.mounted he
  have hf := exec_net_frame he
  have hlog : w'.hist.log = w.hist.log := by rw [hf.hist]
  cases op with
  | send session request more purpose =>
    have hleft : ((p a).sent purpose r).left = (p a).left := by
      unfold ClientPhase.sent
      split <;> rfl
    exact h.update hc.mounted hr hf.replies hlog (by rw [hf.buf]) (sent_sameTask ..).flight hleft
  | await n => exact applying_await h hc hpre he
  | _ => exact h.update hc.mounted hr hf.replies hlog (by rw [hf.buf]) rfl rfl

/-- The frames that a stream has written after a call. -/
theorem wrote_next {act : Sys} {r : act.Ret} {l : StreamPhase} (hpre : streamProtocol.pre l act) :
    (streamProtocol.next l act r).wrote = l.wrote ∨ ∃ f fr append, l.held = some f ∧
      (streamProtocol.next l act r).wrote = l.wrote ++ [fr] ∧
      (⟨n, act, r⟩ : Event Sys Sys.Ret Nat) =
        ⟨n, .writeAt f fr.offset fr.data append, (none : Option IoErrorKind)⟩ := by
  cases act with
  | openat2 | openPlain => change Except Errno Ino at r; cases r <;> exact .inl rfl
  | writeAt f offset data append =>
    obtain ⟨hheld, -, fr, hfr, rfl, rfl⟩ := hpre
    change Option IoErrorKind at r
    cases r with
    | none =>
      refine .inr ⟨f, fr, append, hheld, ?_, rfl⟩
      change l.wrote ++ l.frame.toList = _
      rw [Option.mem_def.mp hfr]
      rfl
    | some e => exact .inl rfl
  | _ => exact .inl rfl

theorem applying_sys {act : Sys} {r : act.Ret} {l : StreamPhase} (h : Applying w p s)
    (hc : Carrying kind w p s) (hn : s n = some l) (hpre : streamProtocol.pre l act)
    (he : World.exec S (.stream n) (.sys act) ch w = some (r, w')) :
    Applying w' p (update s n (some (streamProtocol.next l act r))) := by
  have hr := recalls_sys he
  obtain ⟨host, hex, rfl⟩ := exec_sys he
  have hlog : ((w.hist.afterSys (w.net.rpcs n) act r).record n act r).log = w.hist.log ++
      [⟨n, act, r⟩] :=
    log_afterSys w.hist
  obtain ⟨rpc, hrpc, -⟩ := hc.mounted.rpcs.stream hn
  refine h.step hc.mounted hr (fun {m l'} hl => ?_) (fun {m q} hq => ?_)
    (fun hf => .inl ⟨hf, rfl⟩) .inl .inl
    fun {e} he => ?_
  · by_cases e : m = n
    swap
    · rw [update_of_ne e] at hl
      exact .inl ⟨l', hl, rfl⟩
    subst e
    rw [update_self] at hl
    obtain rfl := Option.some.inj hl
    rcases wrote_next (n := m) (r := r) hpre with hsame | ⟨f, fr, append, hheld, hnew, hev⟩
    · exact .inl ⟨l, hn, hsame⟩
    refine .inr fun x hx fh hp y hy => ?_
    obtain rfl := Option.some.inj (hrpc.symm.trans hx)
    rw [hnew] at hy
    rcases List.mem_append.mp hy with hy | hy
    · exact hr.wrote hr.log.subset (h.stream hn hrpc hp y hy)
    · obtain rfl := List.mem_singleton.mp hy
      refine ⟨f, append, hc.bound.home hc.mounted hn hheld hrpc (by rw [hp]; rfl), ?_⟩
      change _ ∈ ((w.hist.afterSys (w.net.rpcs m) act r).record m act r).log
      rw [hlog, hev]
      exact List.mem_append_right _ (List.mem_singleton_self _)
  · have hq : (m, q) ∈ host.replies := hq
    rcases exec_replies hex with heq | ⟨x, rfl, heq⟩
    · exact .inl (heq ▸ hq)
    · rw [heq] at hq
      rcases List.mem_append.mp hq with hq | hq
      · exact .inl hq
      · obtain ⟨rfl, rfl⟩ := Prod.mk.inj (List.mem_singleton.mp hq)
        refine .inr fun x hx fh hp hok fr hfr => hr.wrote hr.log.subset ?_
        obtain rfl := Option.some.inj (hrpc.symm.trans hx)
        obtain ⟨y, hy, -, -, hreq⟩ := hc.mounted.rpcs.stream hn
        obtain rfl := Option.some.inj (hrpc.symm.trans hy)
        have hop : q.op = .write := by
          have hformed := hc.mounted.rpcs.formed hrpc
          unfold Rpc.Formed at hformed
          rw [hp] at hformed
          obtain ⟨seq, first, e⟩ := hformed
          rw [← hpre.2.1, hreq, e]
          rfl
        rw [← hc.sending.wrote hn hrpc hp hpre.2.2 hop hok] at hfr
        exact h.stream hn hrpc hp fr hfr
  · have he : e ∈ ((w.hist.afterSys (w.net.rpcs n) act r).record n act r).log := he
    rw [hlog] at he
    rcases List.mem_append.mp he with he | he
    · exact .inl he
    · obtain rfl := List.mem_singleton.mp he
      exact .inr ⟨rpc, hrpc⟩

theorem applying_keeps : Keeps S promised (Carrying kind) Applying where
  client {a act ch r w w' p s} hc h hpre _ he := by
    have hr := recalls_client hc.mounted hpre he
    cases act with
    | buf op => exact applying_buf h hc hpre he
    | files op =>
      obtain ⟨f, -, rfl⟩ := exec_files he
      exact h.update hc.mounted hr rfl rfl rfl (files_sameTask op r).flight (files_next_left op r)
    | net op => exact applying_net h hc hpre he
    | paths op =>
      obtain ⟨t, rfl⟩ := exec_paths he
      exact h.update hc.mounted hr rfl rfl rfl rfl rfl
    | cache op =>
      obtain rfl := exec_cache he
      exact h.update hc.mounted hr rfl rfl rfl rfl rfl
    | dev op =>
      cases op with
      | recv cb =>
        obtain rfl := exec_recv he
        exact h.update hc.mounted hr rfl rfl rfl rfl rfl
      | reply x =>
        obtain rfl := exec_reply he
        exact h.update hc.mounted hr rfl rfl (replied_pool x) rfl rfl
    | accept | sys => exact hpre.elim
  accept {n ch w w' p s q} hc h _ _ he := by
    have hr := recalls_accept he
    obtain ⟨rpc, -, -, -, rfl⟩ := exec_accept he
    refine h.step hc.mounted hr (fun {m l} hl => ?_) .inl (fun hf => .inl ⟨hf, rfl⟩) .inl .inl .inl
    by_cases e : m = n
    · subst e
      rw [update_self] at hl
      obtain rfl := Option.some.inj hl
      exact .inr nofun
    · rw [update_of_ne e] at hl
      exact .inl ⟨l, hl, rfl⟩
  sys hc h hn hpre _ he := applying_sys h hc hn hpre he
  task {a job w p s} hc h _ _ := by
    refine h.step hc.mounted (.refl w) (fun hl => .inl ⟨_, hl, rfl⟩) .inl (fun {b k batch} hb => ?_)
      .inl .inl .inl
    by_cases e : b = a
    · subst e
      rw [update_self] at hb
      cases b <;> cases job <;> cases hb
    · rw [update_of_ne e] at hb ⊢
      exact .inl ⟨hb, rfl⟩
  stream {n job w p s} hc h _ := by
    refine h.step hc.mounted (.refl w) (fun {m l} hl => .inl ⟨l, ?_, rfl⟩)
      .inl (fun hf => .inl ⟨hf, rfl⟩) .inl .inl .inl
    rw [update_apply] at hl
    split at hl
    · cases hl
    · exact hl
  env {e w p s} hc h _ := by
    cases e <;>
      exact h.step hc.mounted (.of_eq rfl rfl rfl) (fun hl => .inl ⟨_, hl, rfl⟩)
        .inl (fun hf => .inl ⟨hf, rfl⟩) .inl
        .inl .inl

end

/-! ## Behind the fence of `get_stat` -/

/-- Every chunk accepted so far was applied before the first call of the stream. -/
def World.AppliedBefore (w : World) (n : Nat) : Prop :=
  ∃ before after, w.hist.log = before ++ after ∧ (∀ e ∈ before, e.thread ≠ n) ∧
    ∀ fh, ∀ t ∈ w.buf.pool.accepted fh, w.Applied before fh t

/-- What the FUSE task waits for or has received behind a fence of `get_stat`. -/
structure Attested (w : World) (l : ClientPhase) : Prop where
  waits : ∀ {n q}, l.rpc = some (n, q) → l.Fenced → l.Serves Callback.looksUp → w.AppliedBefore n
  stat : ∀ {st}, l.stat = some st → l.Serves Callback.looksUp →
    ∃ n r, (n, r) ∈ w.host.replies ∧ r.stat = some st ∧ w.AppliedBefore n

section
variable {S : Setup} {a : Actor} {w w' : World} {l l' : ClientPhase} {p : Clients} {s : Streams}
    {ch : Chance}
  {n : Nat}

theorem Recalls.appliedBefore (h : Recalls w w') (ha : w'.buf.pool.accepted = w.buf.pool.accepted)
    (hb : w.AppliedBefore n) : w'.AppliedBefore n := by
  obtain ⟨before, after, hlog, hne, hall⟩ := hb
  obtain ⟨more, hmore⟩ := h.log
  refine ⟨before, after ++ more, by rw [← hmore, hlog, List.append_assoc], hne, fun fh t ht => ?_⟩
  rw [ha] at ht
  exact h.applied (fun _ he => he) (hall fh t ht)

theorem Attested.mono (h : Attested w l) (hr : Recalls w w')
    (ha : w'.buf.pool.accepted = w.buf.pool.accepted) (hrep : w.host.replies ⊆ w'.host.replies)
    (hrpc : ∀ x, l'.rpc = some x → l.rpc = some x)
    (hstat : ∀ st, l'.stat = some st → l.stat = some st) (hcb : ∀ cb ∈ l'.cb, cb ∈ l.cb)
    (hf : ∀ x, l'.rpc = some x → l'.Fenced → l.Fenced) : Attested w' l' := by
  have hserves : l'.Serves Callback.looksUp → l.Serves Callback.looksUp :=
    fun ⟨cb, hc, hk⟩ => ⟨cb, hcb cb hc, hk⟩
  refine ⟨fun hn hfen hs => ?_, fun hst hs => ?_⟩
  · exact hr.appliedBefore ha (h.waits (hrpc _ hn) (hf _ hn hfen) (hserves hs))
  · obtain ⟨n, r, hx, hrst, hb⟩ := h.stat (hstat _ hst) (hserves hs)
    exact ⟨n, r, hrep hx, hrst, hr.appliedBefore ha hb⟩

theorem Attested.frame (h : Attested w l) (hr : Recalls w w')
    (ha : w'.buf.pool.accepted = w.buf.pool.accepted) (hrep : w.host.replies ⊆ w'.host.replies)
    (hrpc : l'.rpc = l.rpc) (hstat : l'.stat = l.stat) (hcb : ∀ cb ∈ l'.cb, cb ∈ l.cb)
    (hflushed : l'.flushed = l.flushed) (hlisted : l'.listed = l.listed) : Attested w' l' := by
  refine h.mono hr ha hrep (fun _ hn => hrpc ▸ hn) (fun _ hst => hstat ▸ hst) hcb
    fun _ _ ⟨hs, hl, hall⟩ => ?_
  exact ⟨hs, hlisted ▸ hl, hflushed ▸ hall⟩

theorem exec_accepted {op : BufAct} {r : op.Ret} {x : Buf}
    (hx : op.exec a w.now ch.iter w.buf = some (r, x))
    (hne : ∀ fh offset data, op ≠ .push fh offset data) :
    x.pool.accepted = w.buf.pool.accepted := by
  cases op with
  | push fh offset data => exact absurd rfl (hne fh offset data)
  | beginFlush fh =>
    obtain ⟨-, rfl⟩ := Prod.mk.inj (Option.some.inj hx)
    rcases Pool.guarded_or_free w.buf.pool.buf fh with hg | ⟨hg, hq⟩
    · rw [Pool.beginFlush_of_refused hg]
    · rw [Pool.beginFlush_of_free hg hq]
  | ackFlush | failFlush | dropHandle | stickyInsert | stickyRemove =>
    obtain ⟨-, rfl⟩ := Prod.mk.inj (Option.some.inj hx)
    rfl
  | _ => rw [exec_look hx trivial]

theorem attested_buf {op : BufAct} {r : op.Ret} (h : Attested w l) (hpre : bufProtocol.pre l op)
    (he : World.exec S (.client a) (.buf op) ch w = some (r, w')) :
    Attested w' (bufProtocol.next l op r) := by
  obtain ⟨x, hx, rfl⟩ := exec_buf he
  have hr : Recalls w { w with buf := x } := .of_eq rfl rfl rfl
  have hrest : (∀ fh offset data, op ≠ .push fh offset data) → l.rpc = none →
      (bufProtocol.next l op r).stat = l.stat →
      Attested { w with buf := x } (bufProtocol.next l op r) := by
    intro hne hnone hstat
    have hrpc : ∀ y, (bufProtocol.next l op r).rpc ≠ some y := by
      intro y hy
      rw [(buf_next_rpc op r).1, hnone] at hy
      cases hy
    exact h.mono hr (exec_accepted hx hne) (fun _ hm => hm) (fun y hy => absurd hy (hrpc y))
      (fun _ hst => hstat ▸ hst) (fun _ hc => buf_next_cb op r ▸ hc) fun y hy => absurd hy (hrpc y)
  cases op with
  | push fh offset data =>
    -- a write asks for no attributes
    have hno : ¬(bufProtocol.next l (.push fh offset data) r).Serves Callback.looksUp := by
      rintro ⟨cb, hcb, hk⟩
      obtain rfl := Option.some.inj (hpre.1.symm.trans hcb)
      cases hk
    exact ⟨fun _ _ hs => absurd hs hno, fun _ hs => absurd hs hno⟩
  | beginFlush fh =>
    refine hrest nofun hpre.2 ?_
    change (l.begun fh r).stat = _
    unfold ClientPhase.begun
    split <;> rfl
  | hasBuffered fh =>
    refine hrest nofun hpre ?_
    change (l.looked fh r).stat = _
    unfold ClientPhase.looked
    split <;> rfl
  | totalBytes =>
    refine hrest nofun hpre ?_
    change (l.counted r).stat = _
    unfold ClientPhase.counted
    split <;> rfl
  | handles => exact hrest nofun hpre rfl
  | ackFlush | failFlush => exact hrest nofun hpre.1 rfl
  | dropHandle => exact hrest nofun hpre.2.1 rfl
  | olderThan | expiredHandles | stickyInsert | stickyRemove =>
    exact h.frame hr (exec_accepted hx nofun) (fun _ hm => hm) rfl rfl (fun _ hc => hc) rfl rfl

theorem appliedBefore_send {session : Nat} {request : Request} {more : List WriteRequest}
    {purpose : Purpose} (hc : Carrying Callback.looksUp w p s) (h : Applying w p s)
    (hf : (p .fuse).Fenced) (hs : (p .fuse).Serves Callback.looksUp) :
    (w.post (w.newRpc a session request more purpose) more).AppliedBefore w.net.nextRpc := by
  refine ⟨w.hist.log, [], (List.append_nil _).symm, fun e he heq => ?_, fun fh t ht => ?_⟩
  · obtain ⟨rpc, hn⟩ := h.calls he
    exact Nat.lt_irrefl _ (heq ▸ hc.mounted.rpcs.lt hn)
  · have hacked : t ∈ w.buf.pool.acked fh := by
      have hfifo := hc.lossless.fifo fh
      rw [tags_of_fenced hc.cleared hf hs fh, List.append_nil] at hfifo
      rw [hfifo]
      exact ht
    have hr : Recalls w (w.post (w.newRpc a session request more purpose) more) := by
      refine ⟨id, fun {m x} hx => ⟨x, ?_, .refl x⟩, List.prefix_rfl⟩
      exact (update_of_ne (Nat.ne_of_lt (hc.mounted.rpcs.lt hx)) ..).trans hx
    exact hr.applied (fun _ he => he) (h.acked hacked)

theorem received_stat (r : Option Response) :
    (l.received r).stat = l.stat ∨ ∃ x resp, l.rpc = some x ∧ r = some resp ∧
      ((l.received r).stat = none ∨ l.Fenced ∧ (l.received r).stat = resp.stat) := by
  unfold ClientPhase.received
  split <;> try exact .inl rfl
  · split <;> exact .inl rfl
  · next x resp _ _ _ hrpc =>
    dsimp only
    split
    · split
      · next hf => exact .inr ⟨x, resp, hrpc, rfl, .inr ⟨hf, rfl⟩⟩
      · exact .inr ⟨x, resp, hrpc, rfl, .inl rfl⟩
    · exact .inl rfl

theorem attested_await {r : Option Response} (h : Attested w l) (hm : Mounted w p s)
    (hpre : (netProtocol S.chunkSize).pre l (.await n))
    (he : World.exec S (.client a) (.net (.await n)) ch w = some (r, w')) :
    Attested w' (l.received r) := by
  have hr := recalls_net hm he
  have hf := exec_net_frame he
  have hacc : w'.buf.pool.accepted = w.buf.pool.accepted := by rw [hf.buf]
  have hcb : (l.received r).cb = l.cb := (received_sameTask r).cb
  refine ⟨fun hn => ?_, fun {st} hst hs => ?_⟩
  · rw [received_rpc] at hn
    cases hn
  have hserves : l.Serves Callback.looksUp := by
    obtain ⟨cb, hc, hk⟩ := hs
    exact ⟨cb, hcb ▸ hc, hk⟩
  rcases received_stat (l := l) r with hsame | ⟨⟨m, q⟩, resp, hrpc, rfl, hnone | ⟨hfen, hnew⟩⟩
  · obtain ⟨n', r', hx, hrst, hb⟩ := h.stat (hsame ▸ hst) hserves
    exact ⟨n', r', hf.replies ▸ hx, hrst, hr.appliedBefore hacc hb⟩
  · rw [hnone] at hst
    cases hst
  · obtain rfl : m = n := by
      rcases hpre with ⟨q', hq⟩ | ⟨hq, -⟩
      · exact (Prod.mk.inj (Option.some.inj (hrpc.symm.trans hq))).1
      · cases hrpc.symm.trans hq
    obtain ⟨rpc, -, ⟨hno, -⟩ | ⟨resp', hsome, hresp, -⟩⟩ := exec_await he
    · cases hno
    obtain rfl := Option.some.inj hsome
    refine ⟨m, resp, ?_, hnew ▸ hst, hr.appliedBefore hacc (h.waits hrpc hfen hserves)⟩
    rw [hf.replies]
    exact mem_replies_of_answersOf hresp

theorem attested_net {op : NetAct} {r : op.Ret} (h : Attested w (p .fuse))
    (hc : Carrying Callback.looksUp w p s) (hap : Applying w p s)
    (hpre : (netProtocol S.chunkSize).pre (p .fuse) op)
    (he : World.exec S (.client a) (.net op) ch w = some (r, w')) :
    Attested w' ((netProtocol S.chunkSize).next (p .fuse) op r) := by
  have hr := recalls_net hc.mounted he
  have hf := exec_net_frame he
  have hacc : w'.buf.pool.accepted = w.buf.pool.accepted := by rw [hf.buf]
  cases op with
  | send session request more purpose =>
    have hst : (((p .fuse).sent purpose r).stat = (p .fuse).stat ∧
        ((p .fuse).sent purpose r).cb = (p .fuse).cb) ∧
        ((p .fuse).sent purpose r).flushed = (p .fuse).flushed ∧
          ((p .fuse).sent purpose r).listed = (p .fuse).listed := by
      unfold ClientPhase.sent
      split <;> exact ⟨⟨rfl, rfl⟩, rfl, rfl⟩
    obtain ⟨⟨hstat, hcb⟩, hflushed, hlisted⟩ := hst
    rcases exec_send he with ⟨rfl, rfl⟩ | ⟨rfl, rfl⟩
    · exact h.frame hr rfl (fun _ hx => hx) rfl rfl (fun _ hx => hx) rfl rfl
    refine ⟨fun {m q} hn hfen hs => ?_, fun hst hs => ?_⟩
    · obtain rfl : m = w.net.nextRpc := by
        cases purpose with
        | read => cases hpre.1.symm.trans hn
        | _ => exact (Prod.mk.inj (Option.some.inj hn)).1.symm
      obtain ⟨hs', hl', hall⟩ := hfen
      obtain ⟨cb, hcb', hk⟩ := hs
      exact appliedBefore_send hc hap ⟨hs', hlisted ▸ hl', hflushed ▸ hall⟩ ⟨cb, hcb ▸ hcb', hk⟩
    · obtain ⟨cb, hcb', hk⟩ := hs
      obtain ⟨n', r', hx, hrst, hb⟩ := h.stat (hstat ▸ hst) ⟨cb, hcb ▸ hcb', hk⟩
      exact ⟨n', r', hx, hrst, hr.appliedBefore hacc hb⟩
  | await n => exact attested_await h hc.mounted hpre he
  | _ => exact h.frame hr hacc (fun _ hx => hf.replies ▸ hx) rfl rfl (fun _ hx => hx) rfl rfl

theorem attested_other (h : Attested w (p .fuse)) (hm : Mounted w p s) (ha : a ≠ .fuse) {act : Act}
    {r : act.Ret} (hpre : (clientProtocol S.chunkSize).pre (p a) act)
    (he : World.exec S (.client a) act ch w = some (r, w')) : Attested w' (p .fuse) := by
  have hr := recalls_client hm hpre he
  obtain ⟨-, hrep, -⟩ := exec_client_record he
  refine h.frame hr ?_ (fun _ hx => hrep ▸ hx) rfl rfl (fun _ hx => hx) rfl rfl
  cases act with
  | buf op =>
    obtain ⟨x, hx, rfl⟩ := exec_buf he
    refine exec_accepted hx ?_
    rintro fh offset data rfl
    have := hpre.1
    rw [(hm.tasks.task a).cb ha] at this
    cases this
  | files op => obtain ⟨f, -, rfl⟩ := exec_files he; rfl
  | paths op => obtain ⟨t, rfl⟩ := exec_paths he; rfl
  | cache op => obtain rfl := exec_cache he; rfl
  | net op => rw [(exec_net_frame he).buf]
  | dev op =>
    cases op with
    | recv cb => obtain rfl := exec_recv he; rfl
    | reply x => obtain rfl := exec_reply he; rw [replied_pool]
  | accept | sys => exact hpre.elim

theorem attested_keeps :
    Keeps S promised (fun w p s => Carrying Callback.looksUp w p s ∧ Applying w p s)
      fun w p _ => Attested w (p .fuse) where
  client {a act ch r w w' p s} hj h hpre _ he := by
    by_cases e : a = .fuse
    swap
    · rw [update_of_ne (Ne.symm e)]
      exact attested_other h hj.1.mounted e hpre he
    subst e
    rw [update_self]
    have hr := recalls_client hj.1.mounted hpre he
    cases act with
    | buf op => exact attested_buf h hpre he
    | net op => exact attested_net h hj.1 hj.2 hpre he
    | files op =>
      obtain ⟨f, -, rfl⟩ := exec_files he
      have hsame : (p .fuse).SameTask ((clientProtocol S.chunkSize).next (p .fuse) (.files op) r) :=
        files_sameTask op r
      have hstat : ((clientProtocol S.chunkSize).next (p .fuse) (.files op) r).stat =
          (p .fuse).stat := by
        cases op with
        | get fh => change ((p .fuse).found fh r).stat = _; cases r <;> rfl
        | _ => rfl
      exact h.frame hr rfl (fun _ hx => hx) (files_next_rpc op r).1 hstat
        (fun _ hx => hsame.cb ▸ hx) hsame.flushed
        hsame.listed
    | paths op =>
      obtain ⟨t, rfl⟩ := exec_paths he
      exact h.frame hr rfl (fun _ hx => hx) rfl rfl (fun _ hx => hx) rfl rfl
    | cache op =>
      obtain rfl := exec_cache he
      exact h.frame hr rfl (fun _ hx => hx) rfl rfl (fun _ hx => hx) rfl rfl
    | dev op =>
      cases op with
      | recv cb =>
        obtain rfl := exec_recv he
        exact h.frame hr rfl (fun _ hx => hx) rfl rfl (fun _ hx => hx) rfl rfl
      | reply x =>
        obtain rfl := exec_reply he
        exact h.frame hr (by rw [replied_pool]) (fun _ hx => hx) rfl rfl
          (fun _ hx => by cases hx) rfl rfl
    | accept | sys => exact hpre.elim
  accept {n ch w w' p s q} _ h _ _ he := by
    have hr := recalls_accept he
    obtain ⟨rpc, -, -, -, rfl⟩ := exec_accept he
    exact h.frame hr rfl (fun _ hx => hx) rfl rfl (fun _ hx => hx) rfl rfl
  sys {n act ch w w' p s l r} _ h _ _ _ he := by
    have hr := recalls_sys he
    obtain ⟨host, hex, rfl⟩ := exec_sys he
    refine h.frame hr rfl (fun x hx => ?_) rfl rfl (fun _ hx => hx) rfl rfl
    rcases exec_replies hex with heq | ⟨resp, -, heq⟩
    · exact heq ▸ hx
    · change x ∈ host.replies
      rw [heq]
      exact List.mem_append_left _ hx
  task {a job w p s} _ h _ _ := by
    by_cases e : a = .fuse
    · subst e
      rw [update_self]
      refine ⟨fun hn => ?_, fun hst => ?_⟩
      · cases job <;> cases hn
      · cases job <;> cases hst
    · rw [update_of_ne (Ne.symm e)]
      exact h
  stream _ h _ := h
  env {e w p s} _ h _ := by
    have hr := recalls_env (w := w) e
    cases e <;> exact h.frame hr rfl (fun _ hx => hx) rfl rfl (fun _ hx => hx) rfl rfl

end

/-! ## The attributes that are cached -/

/-- A flush of `get_stat` finds no guard of another task over chunks, only empty queues are dropped,
and the bindings are steady. -/
def Settled (S : Setup) : MountCond where
  run w t a ch := (Steady S).run w t a ch ∧
    (∀ fh ∈ t.fences? a, w.During Callback.looksUp → w.Free fh) ∧ ∀ fh ∈ t.drops? a,
    w.buf.pool.tags fh = []
  start := promisedStart
  env _ _ := True

instance (S : Setup) : (Settled S).Checkable where
  run w t a ch :=
    have := Cond.Checkable.run (K := Steady S) w t a ch
    inferInstanceAs (Decidable ((Steady S).run w t a ch ∧
      (∀ fh ∈ t.fences? a, w.During Callback.looksUp → w.Free fh) ∧ ∀ fh ∈ t.drops? a,
      w.buf.pool.tags fh = []))
  start w t job := inferInstanceAs (Decidable (promisedStart w t job))
  env _ _ := isTrue trivial

section
variable {S : Setup} {K : MountCond} {w : World} {fh : Fh}

theorem sized_keeps (hk : S.kernel.CreatesInDir) :
    Keeps S K (fun _ _ _ => True) fun w _ _ => Sized w.host.fs w.hist.log where
  client {a act ch r w w' p s} _ h _ _ he := by
    obtain ⟨hh, -, hfs⟩ := exec_client_record he
    rw [hh, hfs]
    exact h
  accept _ h _ _ he := by
    obtain ⟨rpc, -, -, -, rfl⟩ := exec_accept he
    exact h
  sys {n a ch w w' p s l r} _ h _ _ _ he := by
    obtain ⟨host, hex, rfl⟩ := exec_sys he
    change Sized host.fs ((w.hist.afterSys (w.net.rpcs n) a r).record n a r).log
    rw [log_afterSys]
    exact h.exec hk hex
  task _ h _ _ := h
  stream _ h _ := h
  env {e _ _ _} _ h _ := by
    cases e <;> exact h

theorem carrying_keeps {kind : Callback → Bool}
    (hsteady : ∀ {w t a ch}, K.run w t a ch → (Steady S).run w t a ch)
    (hfence : ∀ {w t a ch}, K.run w t a ch → ∀ fh ∈ t.fences? a, w.During kind → w.Free fh)
    (hdrop : ∀ {w t a ch}, K.run w t a ch → ∀ fh ∈ t.drops? a, w.buf.pool.tags fh = [])
    (hstart : ∀ {w t job}, K.start w t job → promisedStart w t job) :
    Keeps S (servingToo K) (fun _ _ _ => True) (Carrying kind) := by
  have hmounted : Keeps S (servingToo K) (fun _ _ _ => True) Mounted :=
    mounted_keeps.mono (fun _ => trivial) hstart (fun _ => trivial) id
  have hsending : Keeps S (servingToo K) Mounted Sending :=
    sending_keeps.mono (fun _ => trivial) hstart (fun _ => trivial) id
  have hbound : Keeps S (servingToo K) Mounted Bound :=
    bound_keeps.mono (fun h => hsteady h.1) hstart (fun _ => trivial) id
  have hlossless : Keeps S (servingToo K) Mounted fun w _ _ => w.buf.pool.Lossless :=
    lossless_keeps fun {w t a ch} (h : (servingToo K).run w t a ch) => hdrop h.1
  have hall := (((hmounted.and hsending).and (hbound.mono id id id And.left)).and
    ((cleared_keeps hfence).mono id id id fun h => h.1.1)).and
      (hlossless.mono id id id fun h => h.1.1.1)
  exact hall.imp (fun ⟨⟨⟨⟨h1, h2⟩, h3⟩, h4⟩, h5⟩ => ⟨h1, h2, h3, h4, h5⟩)
    fun h => ⟨⟨⟨⟨h.mounted, h.sending⟩, h.bound⟩, h.cleared⟩, h.lossless⟩

/-- The size covers the chunks that were applied since the file was last resized. -/
theorem stop_le_size {p : Clients} {s : Streams} {old new after : Log} {e : Event Sys Sys.Ret Nat}
    {st : Ino × Node} {t : Tag} (hsend : Sending w p s) (hs : Sized w.host.fs w.hist.log)
    (hlog : w.hist.log = old ++ new ++ e :: after) (hst : e.act.attrs e.answer = some st)
    (hhome : w.files.home fh = some st.1) (hdata : t.2.data ≠ [])
    (hnew : ∀ x ∈ new, x.act.resizes? x.answer ≠ some st.1 ∧ x.act.appends? ≠ some st.1)
    (happ : w.Applied new fh t) : t.2.extent.stop ≤ st.2.size := by
  obtain ⟨run, ⟨before, rest, hrun, hoff⟩, n, rpc, hn, hp, rfl, hall⟩ := happ
  have hpos := List.length_pos_of_ne_nil hdata
  -- every frame was written at its offset
  have hwrite : ∀ fr ∈ rpc.frames, ∃ f : File, f.ino = st.1 ∧
      ⟨n, .writeAt f fr.offset fr.data false, (none : Option IoErrorKind)⟩ ∈ new := by
    intro fr hfr
    obtain ⟨f, append, hf, he⟩ := hall fr hfr
    have hino : f.ino = st.1 := Option.some.inj (hf.symm.trans hhome)
    cases append with
    | false => exact ⟨f, hino, he⟩
    | true => exact absurd (congrArg some hino) (hnew _ he).2
  have hlen : rpc.run.2.length = before.length + t.2.data.length + rest.length := by
    rw [hrun, List.length_append, List.length_append]
  have hoff : t.2.offset.toNat = rpc.run.1.toNat + before.length := hoff
  obtain ⟨fr, hfr, hle, hlt⟩ := (hsend.chained hn hp).exists_frame (fun fr hfr => by
      obtain ⟨f, -, he⟩ := hwrite fr hfr
      exact hs.fits (by rw [hlog]; exact List.mem_append_left _ (List.mem_append_right _ he)))
    (p := t.2.offset.toNat + t.2.data.length - 1) (by omega) (by
      have : (payload rpc.frames).length = rpc.run.2.length := rfl
      omega)
  obtain ⟨f, hino, he⟩ := hwrite fr hfr
  have hne : fr.data ≠ [] := by
    intro hnil
    rw [hnil, List.length_nil] at hlt
    omega
  have hsize := hs.read hlog hst (fun x hx => (hnew x hx).1) hino hne he
  change t.2.offset.toNat + t.2.data.length ≤ _
  omega

theorem carrying_init (S : Setup) (fs : Fs) (epoch : UInt32) (root : Path)
    (perHandle total window : Nat) (kind : Callback → Bool) :
    Carrying kind (.init S fs epoch root perHandle total window) (fun _ => {}) fun _ => none where
  mounted := mounted_init S fs epoch root perHandle total window
  sending := sending_init S fs epoch root perHandle total window
  bound := bound_init S fs epoch root perHandle total window
  cleared := ⟨WriteBuffer.accounted_new _ _ _, nofun, nofun, nofun⟩
  lossless := Pool.lossless_init

theorem applying_init (S : Setup) (fs : Fs) (epoch : UInt32) (root : Path)
    (perHandle total window : Nat) :
    Applying (.init S fs epoch root perHandle total window) (fun _ => {}) fun _ => none where
  stream h := by cases h
  replies h := by cases h
  task h := by cases h
  carried h := by cases h
  acked h := by cases h
  calls h := by cases h

end

/-- **Attributes that are cached are not stale**, in the runs that are settled: when `get_stat` is
about to cache attributes, a call of the server has read them after every chunk that was accepted
for the file had been applied, and the size in them covers every chunk applied since the file was
last resized. -/
theorem cached_stat_fresh (S : Setup) (fs : Fs) (epoch : UInt32) (root : Path)
    (perHandle total window : Nat) (hk : S.kernel.CreatesInDir) {c : Config Act Act.Ret World Tid}
    (h : Reach (mountMachine S).step (Settled S).Meets
      (Config.idle (.init S fs epoch root perHandle total window)) c)
    {path : Path} {st : Ino × Node} {k : Unit → Task Unit}
    (hc : c.threads (.client .fuse) = .act (.cache (.insert path st)) k) :
    ∃ before e after, c.state.hist.log = before ++ e :: after ∧ e.act.attrs e.answer = some st ∧
      ∀ fh, c.state.files.home fh = some st.1 → ∀ t ∈ c.state.buf.pool.accepted fh,
        c.state.Applied before fh t ∧ ∀ old new, before = old ++ new →
          (∀ x ∈ new, x.act.resizes? x.answer ≠ some st.1 ∧ x.act.appends? ≠ some st.1) →
          c.state.Applied new fh t → t.2.extent.stop ≤ st.2.size := by
  have hcarry : Keeps S (servingToo (Settled S)) (fun _ _ _ => True) (Carrying Callback.looksUp) :=
    carrying_keeps And.left (fun h => h.2.1) (fun h => h.2.2) id
  have hall := ((hcarry.and (applying_keeps.mono (fun _ => trivial) id (fun _ => trivial) id)).and
    (attested_keeps.mono (fun _ => trivial) id (fun _ => trivial) id)).and
    ((sized_keeps hk).mono id id id fun _ => trivial)
  obtain ⟨p, s, ⟨⟨⟨hcar, -⟩, hatt⟩, hsized⟩, hpre, -⟩ := mount_sound hall
    ⟨⟨⟨carrying_init S fs epoch root perHandle total window _,
      applying_init S fs epoch root perHandle total window⟩,
      ⟨nofun, nofun⟩⟩, sized_nil fs⟩ (reach_servingToo h)
  obtain ⟨hserves, hstat⟩ := hpre .fuse _ _ hc
  obtain ⟨n, r, hr, hrst, before, after, hlog, hne, happ⟩ := hatt.stat hstat hserves
  -- what the stream has read it has read after `before`
  obtain ⟨e, he, hen, hest⟩ := (replies_madeFrom rfl h hr).stat st hrst
  have hafter : e ∈ after := by
    rw [hlog] at he
    exact (List.mem_append.mp he).resolve_left fun hb => hne e hb hen
  obtain ⟨mid, rest, rfl⟩ := List.append_of_mem hafter
  rw [← List.append_assoc] at hlog
  refine ⟨before ++ mid, e, rest, hlog, hest,
    fun fh hhome t ht => ⟨?_, fun old new hb hnew hap => ?_⟩⟩
  · exact (Recalls.refl c.state).applied (List.subset_append_left _ _) (happ fh t ht)
  · rw [hb] at hlog
    exact stop_le_size hcar.sending hsized hlog hest hhome (hcar.mounted.opened.accepted ht).2 hnew
      hap

/-- The attributes that the FUSE task is about to cache. -/
def cachingOf (c : Config Act Act.Ret World Tid) : Option (Path × Ino × Node) :=
  match c.threads (.client .fuse) with
  | .act (.cache (.insert path st)) _ => some (path, st)
  | _ => none

theorem exists_of_cachingOf {c : Config Act Act.Ret World Tid} {path : Path} {st : Ino × Node}
    (h : cachingOf c = some (path, st)) :
    ∃ k, c.threads (.client .fuse) = .act (.cache (.insert path st)) k := by
  unfold cachingOf at h
  split at h
  · next path' st' k hk =>
    obtain ⟨rfl, rfl⟩ := Prod.mk.inj (Option.some.inj h)
    exact ⟨k, hk⟩
  · cases h

theorem not_applied {w : World} {log : Log} {fh : Fh} {t : Tag} (hdata : t.2.data ≠ [])
    (hlog : ∀ e ∈ log, e.act.writes? = none) : ¬w.Applied log fh t := by
  rintro ⟨run, ⟨before, after, hrun, -⟩, n, rpc, -, -, rfl, hall⟩
  cases hframes : rpc.frames with
  | nil =>
    have hnil : rpc.run.2 = [] := by
      unfold Rpc.run
      rw [hframes]
      rfl
    rw [hnil] at hrun
    have hparts := List.append_eq_nil_iff.mp (List.append_eq_nil_iff.mp hrun.symm).1
    exact hdata hparts.2
  | cons fr rest =>
    obtain ⟨f, append, -, he⟩ := hall fr (hframes ▸ List.mem_cons_self)
    cases hlog _ he

section
set_option synthInstance.maxSize 256

/-- `getattr` of the file `/a`, which finds chunks on the handle `1`, up to its `n`th act after
that. -/
def getattrA (n : Nat) : List MountLabel :=
  called (.getattr 2) 3 ++ .run (.client .fuse) { iter := [1] } :: acts (.client .fuse) n

/-- A byte is written and flushed by the `getattr` that follows. -/
theorem cached_stat_fresh_flushed :
    ∃ c path st k, Reach (mountMachine smallSetup).step (Settled smallSetup).Meets
      (Config.idle smallMount) c ∧ c.threads (.client .fuse) = .act (.cache (.insert path st)) k ∧
      st.2.size = 1 ∧
    c.state.files.home 1 = some st.1 ∧ ∃ before e after, c.state.hist.log = before ++ e :: after ∧
      e.act.attrs e.answer = some st ∧ c.state.Applied before 1 (0, ⟨0, [5], 0⟩) := by
  obtain ⟨c, hreach, hcache, hhome, hacc⟩ :=
    Reach.of_check (mountMachine smallSetup).step (Settled smallSetup).Meets
      (Config.idle smallMount)
    (createA ++ called (.write 1 0 [5]) 5 ++ getattrA 7 ++ taken 1 6 ++ acts (.client .fuse) 6 ++
      taken 2 6 ++
      acts (.client .fuse) 1)
    (fun c => (cachingOf c).map (fun x => (x.2.1, x.2.2.size)) = some (2, 1) ∧
      c.state.files.home 1 = some 2 ∧
      c.state.buf.pool.accepted 1 = [(0, ⟨0, [5], 0⟩)])
    (by decide +kernel)
  obtain ⟨⟨path, st⟩, hcache, hst⟩ := Option.map_eq_some_iff.mp hcache
  obtain ⟨hino, hsize⟩ := Prod.mk.inj hst
  obtain ⟨k, hk⟩ := exists_of_cachingOf hcache
  have hhome : c.state.files.home 1 = some st.1 := by rw [hhome, ← hino]
  obtain ⟨before, e, after, hlog, he, hall⟩ :=
    cached_stat_fresh smallSetup _ _ _ _ _ _ linux_createsInDir hreach hk
  refine ⟨c, path, st, k, hreach, hk, hsize, hhome, before, e, after, hlog, he,
    (hall 1 hhome _ ?_).1⟩
  rw [hacc]
  exact List.mem_singleton_self _

/-- The background task is sending a byte when `getattr` finds its guard and goes on. The server is
asked before it has written anything, and the size 0 is about to be cached. -/
theorem cached_stat_stale : ∃ c path st k, Reach (mountMachine smallSetup).step promised.Meets
      (Config.idle smallMount) c ∧ c.threads (.client .fuse) = .act (.cache (.insert path st)) k ∧
      st.2.size = 0 ∧
    c.state.files.home 1 = some st.1 ∧ (0, ⟨0, [5], 0⟩) ∈ c.state.buf.pool.accepted 1 ∧
    ∀ before after, c.state.hist.log = before ++ after →
      ¬c.state.Applied before 1 (0, ⟨0, [5], 0⟩) := by
  obtain ⟨c, hreach, hcache, hhome, hacc, hlog⟩ :=
    Reach.of_check (mountMachine smallSetup).step promised.Meets (Config.idle smallMount)
    (firstFlush ++ getattrA 7 ++ taken 2 6 ++ acts (.client .fuse) 1)
    (fun c => (cachingOf c).map (fun x => (x.2.1, x.2.2.size)) = some (2, 0) ∧
      c.state.files.home 1 = some 2 ∧
      c.state.buf.pool.accepted 1 = [(0, ⟨0, [5], 0⟩)] ∧
      c.state.hist.log.all (·.act.writes?.isNone) = true)
    (by decide +kernel)
  obtain ⟨⟨path, st⟩, hcache, hst⟩ := Option.map_eq_some_iff.mp hcache
  obtain ⟨hino, hsize⟩ := Prod.mk.inj hst
  obtain ⟨k, hk⟩ := exists_of_cachingOf hcache
  refine ⟨c, path, st, k, hreach, hk, hsize,
    by rw [hhome, ← hino], by rw [hacc]; exact List.mem_singleton_self _,
    fun before after hsplit => not_applied (by simp) fun e he => ?_⟩
  rw [hsplit, List.all_append, Bool.and_eq_true] at hlog
  exact Option.isNone_iff_eq_none.mp (List.all_eq_true.mp hlog.1 e he)

end

end QuicFs.System
