import QuicFs.Server.Contents
import QuicFs.System.Attempts
import QuicFs.System.Generations

/-!
# Only Writes write

The handlers that take no file from the handle table have nothing to write to, and those of Read,
Fsync and Release do not write to theirs: whoever writes to a file is the stream of a Write
(`handle_writes`). In a mount this was sent for the chunks of a handle (`writer_of_reach`).
-/

namespace QuicFs.Server

open Lib Function

/-- The protocol of a stream, in which only a Write writes. -/
def writerProtocol : Protocol Sys Sys.Ret StreamPhase where
  pre l a := streamProtocol.pre l a ∧ (a.writes?.isSome → l.request.op = .write)
  post := streamProtocol.post
  next := streamProtocol.next

section
variable {α : Type} {l : StreamPhase} {Q : StreamPhase → α → Prop} {p : Calls α}

/-- What keeps the phases keeps those who do not write from writing. -/
theorem follows_writer {I : StreamPhase → Prop} (h : Follows l p Q) (hl : I l)
    (hI : ∀ l a r, I l → streamProtocol.pre l a → I (streamProtocol.next l a r))
    (hw : ∀ l a, I l → streamProtocol.pre l a → a.writes?.isSome → l.request.op = .write) :
    p.Follows writerProtocol l Q := by
  induction p generalizing l with
  | ret x => exact h
  | act a k ih =>
    obtain ⟨hpre, hk⟩ := h
    exact ⟨⟨hpre, hw l a hl hpre⟩, fun r hr => ih r (hk r hr) (hI l a r hl hpre)⟩

theorem follows_writer_of_only (h : Follows l p Q) (ho : p.Only (·.writes? = none)) :
    p.Follows writerProtocol l Q := by
  induction p generalizing l with
  | ret x => exact h
  | act a k ih =>
    refine ⟨⟨h.1, fun hw => ?_⟩, fun r hr => ih r (h.2 r hr) (ho.2 r)⟩
    rw [ho.1] at hw
    cases hw

theorem held_next {a : Sys} {r : a.Ret} (hq : l.request.handle? = none) (hl : l.held = none)
    (hpre : streamProtocol.pre l a) : (streamProtocol.next l a r).held = none := by
  cases a with
  | getFile | getWriteCtx => cases hq.symm.trans hpre.2
  | openat2 | openPlain => change Except Errno Ino at r; cases r <;> exact hl
  | writeAt => change Option IoErrorKind at r; cases r <;> exact hl
  | _ => exact hl

theorem follows_writer_of_unheld (h : Follows l p Q) (hq : l.request.handle? = none)
    (hl : l.held = none) : p.Follows writerProtocol l Q := by
  refine follows_writer (I := fun l => l.request.handle? = none ∧ l.held = none) h ⟨hq, hl⟩ ?_ ?_
  · rintro l a r ⟨hq, hl⟩ hpre
    refine ⟨?_, held_next hq hl hpre⟩
    rw [(next_session a r).2]
    exact hq
  · rintro l a ⟨-, hl⟩ hpre hw
    cases a with
    | writeAt => cases hl.symm.trans hpre.1
    | _ => cases hw

theorem readLoop_only (f : File) (seq : UInt64) (fuel : Nat) : ∀ remaining offset,
    (readLoop f seq fuel remaining offset).Only (·.writes? = none) := by
  induction fuel with
  | zero => exact fun _ _ => trivial
  | succ fuel ih =>
    intro remaining offset
    rw [readLoop]
    split
    · trivial
    · refine ⟨rfl, fun (r : Except IoErrorKind Bytes) => ?_⟩
      cases r with
      | error e => exact ⟨rfl, fun _ => trivial⟩
      | ok buf =>
        refine ⟨rfl, fun _ => ?_⟩
        cases buf.isEmpty with
        | true => trivial
        | false => exact ih _ _

theorem handleRead_only (session : Nat) (seq : UInt64) (handle : ServerHandle) (offset : UInt64)
    (length : UInt32) :
    (handleRead session seq handle offset length).Only (·.writes? = none) := by
  unfold handleRead
  split
  · exact ⟨rfl, fun _ => trivial⟩
  · refine ⟨rfl, fun (r : Option File) => ?_⟩
    cases r with
    | none => exact ⟨rfl, fun _ => trivial⟩
    | some f => exact readLoop_only f seq _ _ _

theorem statusOf_fsync_only (i : Ino) (k : Status → Calls Unit)
    (hk : ∀ s, (k s).Only (·.writes? = none)) :
    ((statusOf (Io.sys (.fsync i) id)).bind k).Only (·.writes? = none) := by
  refine ⟨rfl, fun (r : Except Errno Unit) => ?_⟩
  cases r <;> exact hk _

theorem handleFsync_only (session : Nat) (seq : UInt64) (handle : ServerHandle) (datasync : Bool) :
    (handleFsync session seq handle datasync).Only (·.writes? = none) := by
  refine ⟨rfl, fun (r : Option File) => ?_⟩
  cases r with
  | none => exact ⟨rfl, fun _ => trivial⟩
  | some f => exact statusOf_fsync_only _ _ fun _ => ⟨rfl, fun _ => trivial⟩

theorem handleRelease_only (onClose : Bool) (session : Nat) (seq : UInt64) (handle : ServerHandle) :
    (handleRelease onClose session seq handle).Only (·.writes? = none) := by
  refine ⟨rfl, fun (r : Option OpenHandle) => ?_⟩
  cases r with
  | none => exact ⟨rfl, fun _ => trivial⟩
  | some h =>
    cases onClose with
    | true => exact statusOf_fsync_only _ _ fun _ => ⟨rfl, fun _ => trivial⟩
    | false => exact ⟨rfl, fun _ => trivial⟩

/-- **Only the handler of Write writes to a file.** -/
theorem handle_writes (ex : Export) (dur : Durability) (frames session : Nat) (q : Request) :
    (handle ex dur frames session q).Follows writerProtocol (.start session q) fun _ _ => True := by
  have h := handle_follows ex dur frames session q
  cases q with
  | read seq handle offset length =>
    exact follows_writer_of_only h (handleRead_only session seq handle offset length)
  | fsync seq handle datasync =>
    exact follows_writer_of_only h (handleFsync_only session seq handle datasync)
  | release seq handle =>
    exact follows_writer_of_only h (handleRelease_only dur.syncOnClose session seq handle)
  | write seq first =>
    refine follows_writer (I := fun l => l.request.op = .write) h rfl (fun l a r hl _ => ?_)
      fun _ _ hl _ _ => hl
    rw [(next_session a r).2]
    exact hl
  | _ => exact follows_writer_of_unheld h rfl rfl

end

end QuicFs.Server

namespace QuicFs.System

open Lib Client Server Function

/-- The phase of a stream, once it has its request. -/
def writerSide : Tid → Protocol Act Act.Ret (Option StreamPhase)
  | .client _ => ⟨fun _ _ => True, fun _ _ _ => True, fun l _ _ => l⟩
  | .stream _ =>
    { pre := fun l a =>
        match a, l with
        | .sys a, some l => writerProtocol.pre l a
        | .sys _, none => False
        | _, _ => True
      post := fun l a r =>
        match a, l, r with
        | .sys a, some l, r => streamProtocol.post l a r
        | _, _, _ => True
      next := fun l a r =>
        match a, r with
        | .accept, r => some (.start (r : Incoming).session (r : Incoming).request)
        | .sys a, r => l.map (streamProtocol.next · a r)
        | _, _ => l }

/-- The streams run what was sent. -/
structure Running (w : World) (l : Tid → Option StreamPhase) : Prop where
  lt : ∀ {n rpc}, w.net.rpcs n = some rpc → n < w.net.nextRpc
  stream : ∀ {n l'}, l (.stream n) = some l' → ∃ rpc, w.net.rpcs n = some rpc ∧
    rpc.request = l'.request

section
variable {S : Setup} {K : MountCond} {w₀ w w' : World} {a : Actor} {n : Nat} {ch : Chance}
  {c : Config Act Act.Ret World Tid} {l l' : Tid → Option StreamPhase}

theorem onServer_writes {α : Type} {p : Calls α} {l : StreamPhase} {Q : StreamPhase → α → Prop}
    (h : p.Follows writerProtocol l Q) :
    (onServer p).Follows (writerSide (.stream n)) (some l) fun _ _ => True := by
  induction p generalizing l with
  | ret x => trivial
  | act a k ih => exact ⟨h.1, fun r hr => ih r (h.2 r hr)⟩

theorem serveStream_writes (S : Setup) (n : Nat) :
    (serveStream S).Follows (writerSide (.stream n)) none fun _ _ => True := by
  refine ⟨trivial, fun (q : Incoming) _ => ?_⟩
  have h := handle_writes S.ex S.dur q.frames q.session q.request
  exact onServer_writes h

theorem rpcs_lt {t : Tid} {act : Act} {r : act.Ret}
    (hlt : ∀ {n rpc}, w.net.rpcs n = some rpc → n < w.net.nextRpc)
    (he : World.exec S t act ch w = some (r, w')) {n : Nat} {rpc : Rpc}
    (hn : w'.net.rpcs n = some rpc) : n < w'.net.nextRpc := by
  have hset : ∀ {m x x'}, w.net.rpcs m = some x → (w.setRpc m x').net.rpcs n = some rpc →
      n < w.net.nextRpc := by
    intro m x x' hm hn
    rcases setRpc_cases hn with ⟨rfl, -⟩ | ⟨-, hn⟩
    · exact hlt hm
    · exact hlt hn
  cases t with
  | client a =>
    cases act with
    | buf op => obtain ⟨x, -, rfl⟩ := exec_buf he; exact hlt hn
    | files op => obtain ⟨f, -, rfl⟩ := exec_files he; exact hlt hn
    | paths op => obtain ⟨t, rfl⟩ := exec_paths he; exact hlt hn
    | cache op => obtain rfl := exec_cache he; exact hlt hn
    | dev op =>
      cases op with
      | recv cb => obtain rfl := exec_recv he; exact hlt hn
      | reply x => obtain rfl := exec_reply he; exact hlt hn
    | net op =>
      cases op with
      | send session request more purpose =>
        rcases exec_send he with ⟨-, rfl⟩ | ⟨-, rfl⟩
        · exact hlt hn
        · rcases post_cases hn with ⟨rfl, -⟩ | hn
          · exact Nat.lt_succ_self _
          · exact Nat.lt_succ_of_lt (hlt hn)
      | await m =>
        obtain ⟨x, hm, ⟨-, rfl⟩ | ⟨resp, -, -, rfl⟩⟩ := exec_await he <;> exact hset hm hn
      | _ =>
        obtain ⟨hr, hx, -⟩ := exec_net_quiet he trivial
        exact hx ▸ hlt (hr ▸ hn)
    | accept | sys => cases he
  | stream m =>
    cases act with
    | accept =>
      obtain ⟨x, hm, -, -, rfl⟩ := exec_accept he
      exact hset hm hn
    | sys act => obtain ⟨host, -, rfl⟩ := exec_sys he; exact hlt hn
    | _ => cases he

theorem Running.update {x : Option StreamPhase} (h : Running w l)
    (hx : ∀ l', x = some l' → ∃ rpc, w.net.rpcs n = some rpc ∧ rpc.request = l'.request) :
    Running w (Function.update l (.stream n) x) where
  lt := h.lt
  stream {m l'} hl := by
    rw [Function.update_apply] at hl
    split at hl
    · next e =>
      obtain rfl := Tid.stream.inj e
      exact hx l' hl
    · exact h.stream hl

theorem running_run {t : Tid} {act : Act} {r : act.Ret} (h : Running w l)
    (he : World.exec S t act ch w = some (r, w')) :
    Running w' (update l t ((writerSide t).next (l t) act r)) := by
  have hkept : Running w' l := by
    refine ⟨fun hn => rpcs_lt h.lt he hn, fun hl => ?_⟩
    obtain ⟨rpc, hx, hreq⟩ := h.stream hl
    obtain ⟨rpc', hx', -, hsame⟩ := (exec_later h.lt he).rpcs hx
    exact ⟨rpc', hx', hsame.trans hreq⟩
  cases t with
  | client b => exact (update_eq_self (.client b) l).symm ▸ hkept
  | stream n =>
    cases act with
    | accept =>
      obtain ⟨rpc, hn, -, rfl, rfl⟩ := exec_accept he
      refine hkept.update fun l' e => ?_
      obtain rfl := Option.some.inj e
      exact ⟨_, update_self .., rfl⟩
    | sys a =>
      refine hkept.update fun l' e => ?_
      obtain ⟨x, hx, rfl⟩ := Option.map_eq_some_iff.mp e
      obtain ⟨rpc, hn, hreq⟩ := hkept.stream hx
      exact ⟨rpc, hn, hreq.trans (next_session a r).2.symm⟩
    | _ => cases he

theorem writerSide_post {t : Tid} {x : Option StreamPhase} {act : Act} {r : act.Ret}
    (he : World.exec S t act ch w = some (r, w')) : (writerSide t).post x act r := by
  cases t with
  | client b => trivial
  | stream n =>
    cases act with
    | sys a =>
      cases x with
      | none => trivial
      | some x =>
        obtain ⟨host, hex, -⟩ := exec_sys he
        exact exec_post (l := x) hex
    | _ => cases x <;> trivial

/-- **Whoever writes to a file is the stream of a Write.** -/
theorem writer_of_reach (h0 : ∀ n, w₀.net.rpcs n = none)
    (h : Reach (mountMachine S).step K.Meets (Config.idle w₀) c)
    {act : Sys} {k : act.Ret → Task Unit} (hn : c.threads (.stream n) = .act (.sys act) k)
    (hw : act.writes?.isSome) : ∃ rpc, c.state.net.rpcs n = some rpc ∧ rpc.request.op = .write := by
  have hinit : Running w₀ fun _ => none := by
    refine ⟨fun {m rpc} hx => ?_, nofun⟩
    rw [h0] at hx
    cases hx
  have hinv := @Machine.sound _ _ _ _ _ _ _ _ _ (mountMachine S) K writerSide Running
    (fun _ _ => True) w₀ (fun _ => none) c hinit (fun _ => trivial)
    (fun t l a ch r s s' _ he => writerSide_post he)
      (fun t act ch r w w' l hi _ _ he => running_run hi he)
    ?_ ?_ h
  · obtain ⟨l, hrun, hfol⟩ := hinv
    have hf := hfol (.stream n)
    rw [hn] at hf
    have hpre : (writerSide (.stream n)).pre (l (.stream n)) (.sys act) := hf.1
    cases hl : l (.stream n) with
    | none => rw [hl] at hpre; exact hpre.elim
    | some x =>
      rw [hl] at hpre
      obtain ⟨rpc, hrpc, hreq⟩ := hrun.stream hl
      exact ⟨rpc, hrpc, by rw [hreq]; exact hpre.2 hw⟩
  · intro t job w l hi _ _
    cases t with
    | client b =>
      refine ⟨l (.client b), ?_, Prog.follows_of_forall (fun _ _ => trivial) (fun _ _ => trivial) _⟩
      rwa [update_eq_self]
    | stream m =>
      refine ⟨none, hi.update fun l' e => ?_, ?_⟩
      · cases e
      cases job with
      | stream => exact serveStream_writes S m
      | _ => trivial
  · intro e w w' l hi _ he
    obtain rfl := Option.some.inj he
    cases e <;> exact ⟨hi.lt, hi.stream⟩

theorem Rpc.Formed.write {rpc : Rpc} (h : rpc.Formed) (hop : rpc.request.op = .write) :
    ∃ fh, rpc.purpose = .write fh := by
  unfold Rpc.Formed at h
  split at h
  · cases hreq : rpc.request with
    | write =>
      rw [hreq] at h
      exact h.elim
    | _ =>
      rw [hreq] at hop
      cases hop
  · rcases h with ⟨_, _, _, e⟩ | ⟨_, _, _, _, e⟩ <;> rw [e] at hop <;> cases hop
  · obtain ⟨_, _, _, e⟩ := h
    rw [e] at hop
    cases hop
  · obtain ⟨_, _, _, _, e⟩ := h
    rw [e] at hop
    cases hop
  · next fh hp => exact ⟨fh, hp⟩
  · obtain ⟨_, _, _, _, _, _, _, e⟩ := h
    rw [e] at hop
    cases hop

/-- The condition, and that a stream that writes is that of a Write. -/
def writersToo (K : MountCond) : MountCond where
  run w t a ch := K.run w t a ch ∧ ∀ n ∈ t.writes? a, ∃ rpc, w.net.rpcs n = some rpc ∧
    rpc.request.op = .write
  start := K.start
  env := K.env

theorem meets_writersToo (h0 : ∀ n, w₀.net.rpcs n = none)
    (hr : Reach (mountMachine S).step K.Meets (Config.idle w₀) c) {l : Label Tid Chance Job Env}
    (hl : K.Meets c l) : (writersToo K).Meets c l := by
  cases l with
  | run t ch =>
    cases ht : c.threads t with
    | ret x => simp only [Cond.Meets, ht]
    | act a k =>
      simp only [Cond.Meets, ht] at hl ⊢
      refine ⟨hl, fun n hn => ?_⟩
      cases t with
      | client b => cases hn
      | stream m =>
        cases a with
        | sys act =>
          cases act with
          | writeAt f offset data append =>
            obtain rfl := Option.some.inj hn
            exact writer_of_reach h0 hr ht rfl
          | _ => cases hn
        | _ => cases hn
  | start t job => exact hl
  | env e => exact hl

end

end QuicFs.System
