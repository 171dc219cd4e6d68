import QuicFs.Server.Effects
import QuicFs.System.Base

/-!
# RPCs

What is known of every RPC of a mount. Its request fits the purpose it was sent for
(`Rpc.Formed`), a task waits for an RPC that nobody else waits for and that it has not given
up, a Write that is neither answered nor given up is waited for, and the streams of the
server run the requests that were sent (`Rpcs`).
-/

namespace QuicFs.System

open Lib Client Server Function

/-- The request fits the purpose it is sent for. -/
def Rpc.Formed (rpc : Rpc) : Prop :=
  match rpc.purpose with
  | .other => PlainRequest rpc.request
  | .open => (∃ seq path flags, rpc.request = .open seq path flags) ∨
      ∃ seq path flags mode, rpc.request = .create seq path flags mode
  | .reopen _ => ∃ seq path flags, rpc.request = .open seq path flags
  | .read _ => ∃ seq handle offset length, rpc.request = .read seq handle offset length
  | .write _ => ∃ seq first, rpc.request = .write seq first
  | .truncate _ => ∃ seq path valid mode size atime mtime,
      rpc.request = .setAttr seq path valid mode size atime mtime

/-- What was sent does not change. -/
structure Rpc.Same (rpc rpc' : Rpc) : Prop where
  session : rpc'.session = rpc.session
  request : rpc'.request = rpc.request
  more : rpc'.more = rpc.more
  purpose : rpc'.purpose = rpc.purpose
  mark : rpc'.mark = rpc.mark
  snapshot : rpc'.snapshot = rpc.snapshot

theorem Rpc.Same.formed {rpc rpc' : Rpc} (h : rpc.Same rpc') (hf : rpc.Formed) : rpc'.Formed := by
  unfold Rpc.Formed
  rw [h.purpose, h.request]
  exact hf

/-- What a task waits for. -/
structure AwaitOk (w : World) (l : ClientPhase) : Prop where
  rpc : ∀ {n q}, l.rpc = some (n, q) → (∀ fh, q ≠ .read fh) ∧
    ∃ rpc, w.net.rpcs n = some rpc ∧ rpc.purpose = q ∧ rpc.givenUp = false ∧ rpc.taken = 0
  reading : ∀ {n}, l.reading = some n → ∃ rpc fh, w.net.rpcs n = some rpc ∧ rpc.purpose = .read fh

structure Rpcs (w : World) (p : Clients) (s : Streams) : Prop where
  task : ∀ a, AwaitOk w (p a)
  alone : ∀ {a b n q q'}, (p a).rpc = some (n, q) → (p b).rpc = some (n, q') → a = b
  awaited : ∀ {n rpc fh}, w.net.rpcs n = some rpc → rpc.purpose = .write fh → rpc.givenUp = false →
    rpc.taken = 0 → ∃ a, (p a).rpc = some (n, .write fh)
  lt : ∀ {n rpc}, w.net.rpcs n = some rpc → n < w.net.nextRpc
  formed : ∀ {n rpc}, w.net.rpcs n = some rpc → rpc.Formed
  stream : ∀ {n l}, s n = some l → ∃ rpc, w.net.rpcs n = some rpc ∧ rpc.accepted = true ∧
    l.session = rpc.session ∧ l.request = rpc.request
  replies : ∀ {n r}, (n, r) ∈ w.host.replies → ∃ rpc, w.net.rpcs n = some rpc ∧
    rpc.accepted = true ∧ rpc.request.op = r.op

section
variable {S : Setup} {a b : Actor} {w w' : World} {l l' : ClientPhase} {p : Clients}
    {s s' : Streams}
  {n m : Nat} {rpc rpc' : Rpc}

theorem rpcs_same (he : w'.net.rpcs = w.net.rpcs) (hm : w'.net.rpcs n = some rpc') :
    ∃ rpc, w.net.rpcs n = some rpc ∧ rpc.Same rpc' :=
  ⟨rpc', he ▸ hm, ⟨rfl, rfl, rfl, rfl, rfl, rfl⟩⟩

theorem AwaitOk.frame (h : AwaitOk w l) (hw : w'.net.rpcs = w.net.rpcs) (hr : l'.rpc = l.rpc)
    (hg : l'.reading = l.reading) : AwaitOk w' l' := by
  constructor
  · rw [hr, hw]; exact h.rpc
  · rw [hg, hw]; exact h.reading

theorem update_rpc (hl : l'.rpc = (p a).rpc) (b : Actor) :
    (update p a l' b).rpc = (p b).rpc := by
  by_cases e : b = a
  · subst e; rw [update_self, hl]
  · rw [update_of_ne e]

/-- A step of a task that leaves the RPCs alone. -/
theorem Rpcs.update (h : Rpcs w p s) (hn : w'.net.rpcs = w.net.rpcs)
    (hx : w'.net.nextRpc = w.net.nextRpc) (hr : w'.host.replies = w.host.replies)
    (hl : l'.rpc = (p a).rpc) (hg : l'.reading = (p a).reading) :
    Rpcs w' (Function.update p a l') s where
  task := (Function.forall_update_iff p _).mpr
    ⟨(h.task a).frame hn hl hg, fun b _ => (h.task b).frame hn rfl rfl⟩
  alone hc hd := h.alone ((update_rpc hl _).symm.trans hc) ((update_rpc hl _).symm.trans hd)
  awaited hm hp hg ht := by
    obtain ⟨b, hb⟩ := h.awaited (hn ▸ hm) hp hg ht
    exact ⟨b, (update_rpc hl b).trans hb⟩
  lt := by rw [hn, hx]; exact h.lt
  formed := by rw [hn]; exact h.formed
  stream := by rw [hn]; exact h.stream
  replies := by rw [hn, hr]; exact h.replies

theorem Rpcs.mono (h : Rpcs w p s) (hn : w'.net.rpcs = w.net.rpcs)
    (hx : w'.net.nextRpc = w.net.nextRpc) (hr : w'.host.replies = w.host.replies) :
    Rpcs w' p s := by
  have : Rpcs w' (Function.update p .fuse (p .fuse)) s := h.update hn hx hr rfl rfl
  rwa [update_eq_self] at this

@[simp] theorem received_rpc (r : Option Response) : (l.received r).rpc = none := by
  unfold ClientPhase.received
  split <;> first | rfl | assumption | (split <;> assumption)

theorem received_reading (r : Option Response) :
    (l.received r).reading = l.reading ∨ (l.received r).reading = none := by
  unfold ClientPhase.received
  split <;> first | exact .inl rfl | exact .inr rfl | (split <;>
    first | exact .inl rfl | exact .inr rfl)

theorem setRpc_cases (hm : (w.setRpc n rpc').net.rpcs m = some rpc) :
    (m = n ∧ rpc = rpc') ∨ (m ≠ n ∧ w.net.rpcs m = some rpc) := by
  simp only [World.setRpc, update_apply] at hm
  split at hm
  · next e => exact .inl ⟨e, (Option.some.inj hm).symm⟩
  · next e => exact .inr ⟨e, hm⟩

theorem setRpc_same (hn : w.net.rpcs n = some rpc) (hs : rpc.Same rpc') {x : Rpc}
    (hm : w.net.rpcs m = some x) :
    ∃ x', (w.setRpc n rpc').net.rpcs m = some x' ∧ x.Same x' ∧
      (x' = x ∨ m = n ∧ x = rpc ∧ x' = rpc') := by
  by_cases e : m = n
  · subst e
    rw [hn] at hm
    cases hm
    exact ⟨rpc', by simp [World.setRpc], hs, .inr ⟨rfl, rfl, rfl⟩⟩
  · exact ⟨x, by simpa [World.setRpc, e] using hm, ⟨rfl, rfl, rfl, rfl, rfl, rfl⟩, .inl rfl⟩

theorem post_cases {more : List WriteRequest} (hm : (w.post rpc' more).net.rpcs m = some rpc) :
    (m = w.net.nextRpc ∧ rpc = rpc') ∨ w.net.rpcs m = some rpc := by
  simp only [World.post, update_apply] at hm
  split at hm
  · next e => exact .inl ⟨e, (Option.some.inj hm).symm⟩
  · exact .inr hm

theorem Rpcs.post_old (h : Rpcs w p s) {more : List WriteRequest} (hm : w.net.rpcs m = some rpc) :
    (w.post rpc' more).net.rpcs m = some rpc := by
  have hne : m ≠ w.net.nextRpc := Nat.ne_of_lt (h.lt hm)
  simpa [World.post, hne] using hm

theorem formed_of_maySend {chunkSize : UInt32} {session : Nat} {request : Request}
    {more : List WriteRequest} {purpose : Purpose} (hm : l.MaySend chunkSize request more purpose) :
    (w.newRpc a session request more purpose).Formed := by
  cases purpose with
  | other => exact hm
  | «open» =>
    rcases hm with h | ⟨seq, path, flags, mode, h, -⟩
    · exact .inl h
    · exact .inr ⟨seq, path, flags, mode, h⟩
  | reopen fh => exact hm
  | read fh =>
    obtain ⟨-, seq, handle, offset, length, h, -, -⟩ := hm
    exact ⟨seq, handle, offset, length, h⟩
  | write fh =>
    obtain ⟨seq, first, -, -, -, -, -, h, -⟩ := hm
    exact ⟨seq, first, h⟩
  | truncate fh => cases fh <;> exact hm.2.2

theorem sent_rpc_of_ne {purpose : Purpose} (hp : ∀ fh, purpose ≠ .read fh) :
    l.sent purpose (some n) = { l with rpc := some (n, purpose) } := by
  cases purpose <;> first | rfl | exact absurd rfl (hp _)

theorem rpcs_send {chunkSize : UInt32} {session : Nat} {request : Request}
    {more : List WriteRequest} {purpose : Purpose} (h : Rpcs w p s) (hl : (p a).rpc = none)
    (hm : (p a).MaySend chunkSize request more purpose) :
    Rpcs (w.post (w.newRpc a session request more purpose) more)
      (update p a ((p a).sent purpose (some w.net.nextRpc))) s := by
  generalize hrpc : w.newRpc a session request more purpose = rpc
  have hpurp : rpc.purpose = purpose := hrpc ▸ rfl
  have hnew : (w.post rpc more).net.rpcs w.net.nextRpc = some rpc := by simp [World.post]
  have hold : ∀ {b}, AwaitOk (w.post rpc more) (p b) := by
    intro b
    refine ⟨fun hr => ?_, fun hr => ?_⟩
    · obtain ⟨h1, x, hx, h2⟩ := (h.task b).rpc hr
      exact ⟨h1, x, h.post_old hx, h2⟩
    · obtain ⟨x, fh, hx, h2⟩ := (h.task b).reading hr
      exact ⟨x, fh, h.post_old hx, h2⟩
  -- the phase of the sender: an RPC it waits for, or a Read
  have hphase : (∃ fh, purpose = .read fh ∧ ((p a).sent purpose (some w.net.nextRpc)).rpc = none) ∨
      ((∀ fh, purpose ≠ .read fh) ∧
        ((p a).sent purpose (some w.net.nextRpc)) =
          { p a with rpc := some (w.net.nextRpc, purpose) }) := by
    by_cases hp : ∃ fh, purpose = .read fh
    · obtain ⟨fh, rfl⟩ := hp
      exact .inl ⟨fh, rfl, hl⟩
    · have hp' : ∀ fh, purpose ≠ .read fh := fun fh e => hp ⟨fh, e⟩
      exact .inr ⟨hp', sent_rpc_of_ne hp'⟩
  refine ⟨(forall_update_iff p _).mpr ⟨⟨fun {m q} hr => ?_, fun {m} hr => ?_⟩, fun b _ => hold⟩,
    fun {c d m q q'} hc hd => ?_, fun {m x fh} hx hp hg ht => ?_, fun {m x} hx => ?_,
    fun {m x} hx => ?_,
    fun {m l} hx => ?_, fun {m r} hx => ?_⟩
  · rcases hphase with ⟨fh, -, e⟩ | ⟨hp, e⟩
    · rw [e] at hr; cases hr
    · rw [e] at hr
      cases hr
      refine ⟨hp, rpc, hnew, hpurp, ?_⟩
      rw [← hrpc]
      exact ⟨rfl, rfl⟩
  · rcases hphase with ⟨fh, hp, -⟩ | ⟨hp, e⟩
    · subst hp
      cases hr
      exact ⟨rpc, fh, hnew, hpurp⟩
    · rw [e] at hr
      exact hold.reading hr
  · -- nobody else waits for a new RPC
    have hnone : ∀ {e m q}, (p e).rpc = some (m, q) → m ≠ w.net.nextRpc := by
      intro e m q he
      obtain ⟨-, x, hx, -⟩ := (h.task e).rpc he
      exact Nat.ne_of_lt (h.lt hx)
    have hown : ∀ {m q}, ((p a).sent purpose (some w.net.nextRpc)).rpc = some (m, q) →
        m = w.net.nextRpc := by
      intro m q he
      rcases hphase with ⟨fh, -, e⟩ | ⟨hp, e⟩
      · rw [e] at he; cases he
      · rw [e] at he; cases he; rfl
    by_cases hca : c = a <;> by_cases hda : d = a
    · rw [hca, hda]
    · subst hca
      rw [update_self] at hc
      rw [update_of_ne hda] at hd
      exact absurd (hown hc) (hnone hd)
    · subst hda
      rw [update_self] at hd
      rw [update_of_ne hca] at hc
      exact absurd (hown hd) (hnone hc)
    · rw [update_of_ne hca] at hc
      rw [update_of_ne hda] at hd
      exact h.alone hc hd
  · rcases post_cases hx with ⟨rfl, rfl⟩ | hx
    · refine ⟨a, ?_⟩
      obtain rfl : purpose = .write fh := hpurp.symm.trans hp
      rw [update_self, sent_rpc_of_ne (by simp)]
    · obtain ⟨b, hb⟩ := h.awaited hx hp hg ht
      have hne : b ≠ a := by rintro rfl; rw [hl] at hb; cases hb
      exact ⟨b, by rw [update_of_ne hne]; exact hb⟩
  · rcases post_cases hx with ⟨rfl, -⟩ | hx
    · exact Nat.lt_succ_self _
    · exact Nat.lt_succ_of_lt (h.lt hx)
  · rcases post_cases hx with ⟨-, rfl⟩ | hx
    · rw [← hrpc]; exact formed_of_maySend hm
    · exact h.formed hx
  · obtain ⟨x, hx, h2⟩ := h.stream hx
    exact ⟨x, h.post_old hx, h2⟩
  · obtain ⟨x, hx, h2⟩ := h.replies hx
    exact ⟨x, h.post_old hx, h2⟩

/-- The end of a wait: the entry changes in what the client has had from it. -/
theorem rpcs_await {r : Option Response} (h : Rpcs w p s) (hn : w.net.rpcs n = some rpc)
    (hpre : (∃ q, (p a).rpc = some (n, q)) ∨ (p a).rpc = none ∧ (p a).reading = some n)
    (hs : rpc.Same rpc') (hacc : rpc'.accepted = rpc.accepted)
    (hend : rpc'.givenUp = true ∨ rpc'.taken ≠ 0) :
    Rpcs (w.setRpc n rpc') (update p a ((p a).received r)) s := by
  -- the other tasks wait for other RPCs
  have hother : ∀ {b m q}, b ≠ a → (p b).rpc = some (m, q) → m ≠ n := by
    rintro b m q hb hr rfl
    rcases hpre with ⟨q', hq⟩ | ⟨-, hread⟩
    · exact hb (h.alone hr hq)
    · obtain ⟨x, fh, hx, hfh⟩ := (h.task a).reading hread
      obtain ⟨hq, y, hy, rfl, -⟩ := (h.task b).rpc hr
      rw [hx] at hy
      cases hy
      exact hq fh hfh
  have hreading : ∀ {b m}, (p b).reading = some m →
      ∃ x fh, (w.setRpc n rpc').net.rpcs m = some x ∧ x.purpose = .read fh := by
    intro b m hr
    obtain ⟨x, fh, hx, hfh⟩ := (h.task b).reading hr
    obtain ⟨x', hx', hsame, -⟩ := setRpc_same hn hs hx
    exact ⟨x', fh, hx', hsame.purpose.trans hfh⟩
  refine ⟨(forall_update_iff p _).mpr ⟨⟨fun {m q} hr => ?_, fun {m} hr => ?_⟩, fun b hb =>
    ⟨fun {m q} hr => ?_, hreading⟩⟩, fun {c d m q q'} hc hd => ?_, fun {m x fh} hx hp hg ht => ?_,
    fun {m x} hx => ?_, fun {m x} hx => ?_, fun {m l} hx => ?_, fun {m r} hx => ?_⟩
  · rw [received_rpc] at hr; cases hr
  · rcases received_reading (l := p a) r with e | e
    · exact hreading (e ▸ hr)
    · rw [e] at hr; cases hr
  · obtain ⟨h1, x, hx, h2⟩ := (h.task b).rpc hr
    refine ⟨h1, x, ?_, h2⟩
    simpa [World.setRpc, hother hb hr] using hx
  · by_cases hca : c = a
    · subst hca
      rw [update_self, received_rpc] at hc
      cases hc
    · by_cases hda : d = a
      · subst hda
        rw [update_self, received_rpc] at hd
        cases hd
      · rw [update_of_ne hca] at hc
        rw [update_of_ne hda] at hd
        exact h.alone hc hd
  · rcases setRpc_cases hx with ⟨rfl, rfl⟩ | ⟨hne, hx⟩
    · rcases hend with hend | hend
      · rw [hg] at hend; cases hend
      · exact absurd ht hend
    · obtain ⟨b, hb⟩ := h.awaited hx hp hg ht
      have hba : b ≠ a := by
        rintro rfl
        rcases hpre with ⟨q', hq⟩ | ⟨hnone, -⟩
        · rw [hb] at hq; cases hq; exact hne rfl
        · rw [hb] at hnone; cases hnone
      exact ⟨b, by rw [update_of_ne hba]; exact hb⟩
  · rcases setRpc_cases hx with ⟨rfl, -⟩ | ⟨-, hx⟩
    · exact h.lt hn
    · exact h.lt hx
  · rcases setRpc_cases hx with ⟨-, rfl⟩ | ⟨-, hx⟩
    · exact hs.formed (h.formed hn)
    · exact h.formed hx
  · obtain ⟨x, hx, h1, h2, h3⟩ := h.stream hx
    obtain ⟨x', hx', hsame, hcase⟩ := setRpc_same hn hs hx
    refine ⟨x', hx', ?_, h2.trans hsame.session.symm, h3.trans hsame.request.symm⟩
    rcases hcase with rfl | ⟨-, rfl, rfl⟩
    · exact h1
    · exact hacc.trans h1
  · obtain ⟨x, hx, h1, h2⟩ := h.replies hx
    obtain ⟨x', hx', hsame, hcase⟩ := setRpc_same hn hs hx
    refine ⟨x', hx', ?_, by rw [hsame.request]; exact h2⟩
    rcases hcase with rfl | ⟨-, rfl, rfl⟩
    · exact h1
    · exact hacc.trans h1

theorem rpcs_accept (h : Rpcs w p s) (hn : w.net.rpcs n = some rpc) :
    Rpcs (w.setRpc n { rpc with accepted := true }) p
      (update s n (some (.start rpc.session rpc.request))) := by
  have hs : rpc.Same { rpc with accepted := true } := ⟨rfl, rfl, rfl, rfl, rfl, rfl⟩
  refine ⟨fun a => ⟨fun {m q} hr => ?_, fun {m} hr => ?_⟩, h.alone, fun {m x fh} hx hp hg ht => ?_,
    fun {m x} hx => ?_, fun {m x} hx => ?_, fun {m l} hx => ?_, fun {m r} hx => ?_⟩
  · obtain ⟨h1, x, hx, h2, h3, h4⟩ := (h.task a).rpc hr
    obtain ⟨x', hx', hsame, hcase⟩ := setRpc_same hn hs hx
    refine ⟨h1, x', hx', hsame.purpose.trans h2, ?_⟩
    rcases hcase with rfl | ⟨-, rfl, rfl⟩ <;> exact ⟨h3, h4⟩
  · obtain ⟨x, fh, hx, hfh⟩ := (h.task a).reading hr
    obtain ⟨x', hx', hsame, -⟩ := setRpc_same hn hs hx
    exact ⟨x', fh, hx', hsame.purpose.trans hfh⟩
  · rcases setRpc_cases hx with ⟨rfl, rfl⟩ | ⟨-, hx⟩
    · exact h.awaited hn hp hg ht
    · exact h.awaited hx hp hg ht
  · rcases setRpc_cases hx with ⟨rfl, -⟩ | ⟨-, hx⟩
    · exact h.lt hn
    · exact h.lt hx
  · rcases setRpc_cases hx with ⟨-, rfl⟩ | ⟨-, hx⟩
    · exact hs.formed (h.formed hn)
    · exact h.formed hx
  · by_cases e : m = n
    · subst e
      rw [update_self] at hx
      cases hx
      exact ⟨{ rpc with accepted := true }, by simp [World.setRpc], rfl, rfl, rfl⟩
    · rw [update_of_ne e] at hx
      obtain ⟨x, hx, h2⟩ := h.stream hx
      exact ⟨x, by simpa [World.setRpc, e] using hx, h2⟩
  · obtain ⟨x, hx, h1, h2⟩ := h.replies hx
    obtain ⟨x', hx', hsame, hcase⟩ := setRpc_same hn hs hx
    refine ⟨x', hx', ?_, by rw [hsame.request]; exact h2⟩
    rcases hcase with rfl | ⟨-, rfl, rfl⟩
    · exact h1
    · rfl

theorem rpcs_sys {l : StreamPhase} {act : Sys} {r : act.Ret} {c : Choice} {host : Host}
    {hist : History} (h : Rpcs w p s) (hn : s n = some l) (hpre : streamProtocol.pre l act)
    (he : act.exec S.kernel S.ex n c w.host = some (r, host)) :
    Rpcs { w with host, hist } p (update s n (some (streamProtocol.next l act r))) := by
  refine ⟨fun a => (h.task a).frame rfl rfl rfl, h.alone, h.awaited, h.lt, h.formed,
    fun {m l'} hx => ?_,
    fun {m resp} hx => ?_⟩
  · by_cases e : m = n
    · subst e
      rw [update_self] at hx
      cases hx
      rw [(next_session act r).1, (next_session act r).2]
      exact h.stream hn
    · rw [update_of_ne e] at hx
      exact h.stream hx
  · rcases exec_replies he with e | ⟨resp', rfl, e⟩
    · exact h.replies (e ▸ hx)
    · change (m, resp) ∈ host.replies at hx
      rw [e] at hx
      rcases List.mem_append.mp hx with hx | hx
      · exact h.replies hx
      · cases List.mem_singleton.mp hx
        obtain ⟨x, hx, h1, -, h3⟩ := h.stream hn
        exact ⟨x, hx, h1, h3 ▸ hpre.2.1⟩

theorem buf_next_rpc (op : BufAct) (r : op.Ret) :
    (bufProtocol.next l op r).rpc = l.rpc ∧ (bufProtocol.next l op r).reading = l.reading := by
  cases op with
  | beginFlush fh =>
    change (l.begun fh r).rpc = _ ∧ (l.begun fh r).reading = _
    unfold ClientPhase.begun
    split <;> exact ⟨rfl, rfl⟩
  | hasBuffered fh =>
    change (l.looked fh r).rpc = _ ∧ (l.looked fh r).reading = _
    unfold ClientPhase.looked
    split <;> exact ⟨rfl, rfl⟩
  | totalBytes =>
    change (l.counted r).rpc = _ ∧ (l.counted r).reading = _
    unfold ClientPhase.counted
    split <;> exact ⟨rfl, rfl⟩
  | _ => exact ⟨rfl, rfl⟩

theorem files_next_rpc {chunkSize : UInt32} (op : FileAct) (r : op.Ret) :
    ((clientProtocol chunkSize).next l (.files op) r).rpc = l.rpc ∧
      ((clientProtocol chunkSize).next l (.files op) r).reading = l.reading := by
  cases op with
  | get fh =>
    change (l.found fh r).rpc = _ ∧ (l.found fh r).reading = _
    cases r <;> exact ⟨rfl, rfl⟩
  | _ => exact ⟨rfl, rfl⟩

theorem rpcs_net {op : NetAct} {r : op.Ret} {ch : Chance} (h : Rpcs w p s)
    (hpre : (netProtocol S.chunkSize).pre (p a) op)
    (he : World.exec S (.client a) (.net op) ch w = some (r, w')) :
    Rpcs w' (update p a ((clientProtocol S.chunkSize).next (p a) (.net op) r)) s := by
  have hf := exec_net_frame he
  cases op with
  | send session request more purpose =>
    rcases exec_send he with ⟨rfl, rfl⟩ | ⟨rfl, rfl⟩
    · exact h.update rfl rfl rfl (by rfl) (by rfl)
    · exact rpcs_send h hpre.1 hpre.2
  | await n =>
    have hpre' : (∃ q, (p a).rpc = some (n, q)) ∨ (p a).rpc = none ∧ (p a).reading = some n :=
      hpre.imp id fun h => ⟨h.1, h.2.1⟩
    obtain ⟨rpc, hn, ⟨rfl, rfl⟩ | ⟨resp, rfl, -, rfl⟩⟩ := exec_await he
    · exact rpcs_await h hn hpre' ⟨rfl, rfl, rfl, rfl, rfl, rfl⟩ rfl (.inl rfl)
    · exact rpcs_await h hn hpre' ⟨rfl, rfl, rfl, rfl, rfl, rfl⟩ rfl (.inr (Nat.succ_ne_zero _))
  | _ =>
    obtain ⟨h1, h2, -⟩ := exec_net_quiet he trivial
    exact h.update h1 h2 hf.replies (by rfl) (by rfl)

theorem rpcs_keeps : Keeps S promised (fun _ _ _ => True) Rpcs where
  client {a act ch r w w' p s} _ h hpre _ he := by
    cases act with
    | buf op =>
      obtain ⟨x, -, rfl⟩ := exec_buf he
      exact h.update rfl rfl rfl (buf_next_rpc op r).1 (buf_next_rpc op r).2
    | files op =>
      obtain ⟨f, -, rfl⟩ := exec_files he
      exact h.update rfl rfl rfl (files_next_rpc op r).1 (files_next_rpc op r).2
    | paths op =>
      obtain ⟨t, rfl⟩ := exec_paths he
      exact h.update rfl rfl rfl rfl rfl
    | cache op =>
      obtain rfl := exec_cache he
      exact h.update rfl rfl rfl rfl rfl
    | dev op =>
      cases op with
      | recv cb => obtain rfl := exec_recv he; exact h.update rfl rfl rfl rfl rfl
      | reply x => obtain rfl := exec_reply he; exact h.update rfl rfl rfl rfl rfl
    | net op => exact rpcs_net h hpre he
    | accept | sys => exact hpre.elim
  accept _ h _ _ he := by
    obtain ⟨rpc, hn, -, rfl, rfl⟩ := exec_accept he
    exact rpcs_accept h hn
  sys _ h hn hpre _ he := by
    obtain ⟨host, hx, rfl⟩ := exec_sys he
    exact rpcs_sys h hn hpre hx
  task {a job w p s} _ h hr _ := by
    have hfirst : (firstPhase a job).rpc = (p a).rpc := by
      rw [hr.rpc]
      cases a <;> cases job <;> rfl
    have hread : (firstPhase a job).reading = none := by cases a <;> cases job <;> rfl
    refine ⟨(forall_update_iff p _).mpr ⟨⟨fun hx => ?_, fun hx => ?_⟩, fun b _ => h.task b⟩,
      fun hc hd => ?_, fun hx hp hg ht => ?_, h.lt, h.formed, h.stream, h.replies⟩
    · exact (h.task a).rpc (hfirst ▸ hx)
    · rw [hread] at hx; cases hx
    · exact h.alone ((update_rpc hfirst _).symm.trans hc) ((update_rpc hfirst _).symm.trans hd)
    · obtain ⟨b, hb⟩ := h.awaited hx hp hg ht
      exact ⟨b, (update_rpc hfirst b).trans hb⟩
  stream {n job w p s} _ h _ := by
    refine ⟨h.task, h.alone, h.awaited, h.lt, h.formed, fun {m l} hx => ?_, h.replies⟩
    by_cases e : m = n
    · subst e; rw [update_self] at hx; cases hx
    · rw [update_of_ne e] at hx; exact h.stream hx
  env {e _ _ _} _ h _ := by
    cases e <;> exact h.mono rfl rfl rfl

end

/-! ## Together -/

/-- What holds in every state of a mount whose kernel keeps its promise. -/
structure Mounted (w : World) (p : Clients) (s : Streams) : Prop where
  tasks : Tasks w p s
  opened : Opened w p s
  rpcs : Rpcs w p s

theorem mounted_keeps {S : Setup} : Keeps S promised (fun _ _ _ => True) Mounted := by
  have h := (tasks_keeps.and opened_keeps).and
    ((rpcs_keeps (S := S)).mono id id id fun _ => trivial)
  refine h.imp (fun h => ⟨h.1.1, h.1.2, h.2⟩) fun h => ⟨⟨h.tasks, h.opened⟩, h.rpcs⟩

theorem mounted_init (S : Setup) (fs : Fs) (epoch : UInt32) (root : Path)
    (perHandle total window : Nat) :
    Mounted (.init S fs epoch root perHandle total window) (fun _ => {}) fun _ => none where
  tasks := ⟨fun _ => ⟨rfl, rfl, fun _ => rfl, fun _ _ h => by cases h⟩, Pool.ordered_init
    fun _ => rfl,
    fun _ h => by cases h⟩
  opened := {
    task := fun _ => ⟨fun _ h => (by cases h), fun _ h => by cases h⟩
    alone := fun h => by cases h
    home_lt := fun h => by cases h
    opened := fun h => by cases h
    recorded := Pool.recorded_init _
    accepted := fun h => by cases h }
  rpcs := {
    task := fun _ => ⟨fun h => (by cases h), fun h => by cases h⟩
    alone := fun h => by cases h
    awaited := fun h => by cases h
    lt := fun h => by cases h
    formed := fun h => by cases h
    stream := fun h => by cases h
    replies := fun h => by cases h }

end QuicFs.System
