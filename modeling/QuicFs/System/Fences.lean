import QuicFs.Client.Accounting
import QuicFs.System.Attempts
import QuicFs.System.Serving

/-!
# Fences

Some callbacks flush before they ask the server for something: a handle, or every handle that has
chunks. A flush succeeds also if it finds the guard of another task, whose chunks may be sent at any
later time. In the runs in which no callback of a kind finds one, what it has flushed is empty
(`cleared_keeps`).
-/

namespace QuicFs.System

open Lib Client Server Function

def Tid.fences? : Tid → Act → Option Fh
  | .client .fuse, .buf (.beginFlush fh) => some fh
  | _, _ => none

def World.During (w : World) (kind : Callback → Bool) : Prop :=
  (w.call.map fun c => kind c.cb) = some true

instance (w : World) (kind : Callback → Bool) : Decidable (w.During kind) :=
  inferInstanceAs (Decidable (_ = _))

def World.Free (w : World) (fh : Fh) : Prop :=
  w.buf.pool.buf.guarded fh = false ∨ w.buf.pool.tags fh = []

instance (w : World) (fh : Fh) : Decidable (w.Free fh) := inferInstanceAs (Decidable (_ ∨ _))

/-- What a callback of the kind has flushed is empty. -/
structure Cleared (kind : Callback → Bool) (w : World) (l : ClientPhase) : Prop where
  accounted : w.buf.pool.buf.Accounted
  /-- Nothing was pushed behind a flush of the FUSE task. -/
  flying : ∀ f ∈ w.buf.pool.flight .fuse, (w.buf.pool.tags f.handle).length ≤ f.batch.sentCount
  flushed : ∀ cb ∈ l.cb, kind cb = true → ∀ fh ∈ l.flushed, w.buf.pool.tags fh = []
  listed : ∀ hs ∈ l.listed, ∀ fh, fh ∉ hs → w.buf.pool.tags fh = []

section
variable {S : Setup} {a : Actor} {w w' : World} {l l' : ClientPhase} {p : Clients} {s : Streams}
    {ch : Chance}
  {kind : Callback → Bool}

/-- A step after which the buffer holds no more than before. -/
theorem Cleared.step (h : Cleared kind w l) (hacc : w'.buf.pool.buf.Accounted)
    (hlen : ∀ fh, (w'.buf.pool.tags fh).length ≤ (w.buf.pool.tags fh).length)
    (hfly : ∀ f ∈ w'.buf.pool.flight .fuse, w.buf.pool.flight .fuse = some f ∨
      (w'.buf.pool.tags f.handle).length ≤ f.batch.sentCount)
    (hcb : ∀ cb ∈ l'.cb, cb ∈ l.cb)
    (hflushed : ∀ cb ∈ l'.cb, kind cb = true → ∀ fh ∈ l'.flushed, fh ∈ l.flushed ∨
      w'.buf.pool.tags fh = [])
    (hlisted : ∀ hs ∈ l'.listed, l.listed = some hs ∨ ∀ fh, fh ∉ hs → w'.buf.pool.tags fh = []) :
    Cleared kind w' l' := by
  have hempty : ∀ fh, w.buf.pool.tags fh = [] → w'.buf.pool.tags fh = [] := by
    intro fh hfh
    have := hlen fh
    rw [hfh] at this
    exact List.eq_nil_of_length_eq_zero (Nat.le_zero.mp this)
  refine ⟨hacc, fun f hf => ?_, fun cb hc hk fh hfh => ?_, fun hs hl fh hfh => ?_⟩
  · rcases hfly f hf with hf | hf
    · exact (hlen f.handle).trans (h.flying f hf)
    · exact hf
  · exact (hflushed cb hc hk fh hfh).elim
      (fun hfh => hempty fh (h.flushed cb (hcb cb hc) hk fh hfh)) id
  · exact (hlisted hs hl).elim (fun hl => hempty fh (h.listed hs hl fh hfh)) fun hl => hl fh hfh

theorem Cleared.frame (h : Cleared kind w l) (hb : w'.buf.pool = w.buf.pool)
    (hcb : ∀ cb ∈ l'.cb, cb ∈ l.cb) (hf : l'.flushed = l.flushed) (hl : l'.listed = l.listed) :
    Cleared kind w' l' :=
  h.step (hb ▸ h.accounted) (fun _ => by rw [hb]) (fun _ hx => .inl (hb ▸ hx)) hcb
    (fun _ _ _ _ hx => .inl (hf ▸ hx)) fun _ hx => .inl (hl ▸ hx)

theorem tags_of_fenced (hc : Cleared kind w l) (hf : l.Fenced) (hs : l.Serves kind) (fh : Fh) :
    w.buf.pool.tags fh = [] := by
  obtain ⟨hs', hl, hall⟩ := hf
  obtain ⟨cb, hcb, hk⟩ := hs
  by_cases hfh : fh ∈ hs'
  · exact hc.flushed cb hcb hk fh (hall fh hfh)
  · exact hc.listed hs' hl fh hfh

/-- The FUSE task after a step of some task that flushes nothing. -/
theorem Cleared.shrink (h : Cleared kind w (p .fuse)) (hacc : w'.buf.pool.buf.Accounted)
    (hlen : ∀ fh, (w'.buf.pool.tags fh).length ≤ (w.buf.pool.tags fh).length)
    (hfly : ∀ f ∈ w'.buf.pool.flight .fuse, w.buf.pool.flight .fuse = some f)
    (hcb : l'.cb = (p a).cb) (hf : l'.flushed = (p a).flushed) (hl : l'.listed = (p a).listed) :
    Cleared kind w' (update p a l' .fuse) := by
  by_cases e : a = .fuse
  · subst e
    rw [update_self]
    exact h.step hacc hlen (fun f hx => .inl (hfly f hx)) (fun _ hx => hcb ▸ hx)
      (fun _ _ _ _ hx => .inl (hf ▸ hx))
      fun _ hx => .inl (hl ▸ hx)
  · rw [update_of_ne (Ne.symm e)]
    exact h.step hacc hlen (fun f hx => .inl (hfly f hx)) (fun _ hx => hx)
      (fun _ _ _ _ hx => .inl hx)
      fun _ hx => .inl hx

theorem Cleared.sameTask (h : Cleared kind w (p .fuse)) (hb : w'.buf.pool = w.buf.pool)
    (hs : (p a).SameTask l') : Cleared kind w' (update p a l' .fuse) :=
  h.shrink (hb ▸ h.accounted) (fun _ => by rw [hb]) (fun _ hx => hb ▸ hx) hs.cb hs.flushed hs.listed

theorem tags_of_totalBytes (hm : Mounted w p s) (ha : w.buf.pool.buf.Accounted)
    (hz : w.buf.pool.buf.totalBytes = 0) (fh : Fh) : w.buf.pool.tags fh = [] := by
  have hle := ha.byteCount_queue_le fh
  rw [hz, ← hm.tasks.ordered.queue] at hle
  by_contra hne
  obtain ⟨t, ts, ht⟩ := List.exists_cons_of_ne_nil hne
  have hdata := (hm.opened.accepted (hm.opened.recorded.tags fh t (ht ▸ List.mem_cons_self ..))).2
  have hpos := List.length_pos_of_ne_nil hdata
  rw [ht] at hle
  simp only [byteCount, List.map_cons, List.sum_cons] at hle
  omega

theorem cleared_look {op : BufAct} {r : op.Ret} (h : Cleared kind w (p .fuse)) (hm : Mounted w p s)
    (ho : op.Looks) (hx : op.exec a w.now ch.iter w.buf = some (r, w.buf)) :
    Cleared kind w (update p a (bufProtocol.next (p a) op r) .fuse) := by
  by_cases e : a = .fuse
  swap
  · rw [update_of_ne (Ne.symm e)]
    exact h
  subst e
  rw [update_self]
  have hstep : ∀ {l' : ClientPhase}, l'.cb = (p .fuse).cb →
      (∀ fh ∈ l'.flushed, fh ∈ (p .fuse).flushed ∨ w.buf.pool.tags fh = []) →
      (∀ hs ∈ l'.listed, (p .fuse).listed = some hs ∨ ∀ fh, fh ∉ hs → w.buf.pool.tags fh = []) →
      Cleared kind w l' :=
    fun hcb hf hl => h.step h.accounted (fun _ => Nat.le_refl _) (fun _ hx => .inl hx)
      (fun _ hc => hcb ▸ hc)
      (fun _ _ _ => hf) hl
  cases op with
  | hasBuffered fh =>
    change Cleared kind w ((p .fuse).looked fh r)
    have hr : w.buf.pool.buf.hasBuffered fh = r := (Prod.mk.inj (Option.some.inj hx)).1
    unfold ClientPhase.looked
    split
    · exact h
    · next hno =>
      refine hstep rfl (fun k hk => ?_) fun _ hl => .inl hl
      rcases List.mem_cons.mp hk with rfl | hk
      · rw [← hr, WriteBuffer.hasBuffered_eq, ← hm.tasks.ordered.queue] at hno
        exact .inr (by simpa using hno)
      · exact .inl hk
  | handles =>
    refine hstep rfl (fun _ hk => .inl hk) fun hs hl => .inr fun fh hfh => ?_
    obtain rfl := Option.some.inj hl
    have hperm : ch.iter.Perm w.buf.pool.buf.handles ∧ ch.iter = r := by
      change iterate w.buf w.buf.pool.buf.handles ch.iter = some (r, w.buf) at hx
      unfold iterate at hx
      split at hx
      · next hp => exact ⟨hp, (Prod.mk.inj (Option.some.inj hx)).1⟩
      · cases hx
    by_contra hne
    obtain ⟨u, hu⟩ := List.exists_mem_of_ne_nil _ hne
    exact hfh (hperm.2 ▸ hperm.1.mem_iff.mpr (mem_handles hm.tasks.ordered.toTagged hu))
  | totalBytes =>
    change Cleared kind w ((p .fuse).counted r)
    have hr : w.buf.pool.buf.totalBytes = r := (Prod.mk.inj (Option.some.inj hx)).1
    unfold ClientPhase.counted
    split
    · next hz =>
      refine hstep rfl (fun _ hk => .inl hk) fun hs hl => .inr fun fh _ => ?_
      exact tags_of_totalBytes hm h.accounted (hr.trans hz) fh
    · exact h
  | olderThan | expiredHandles => exact h
  | _ => exact ho.elim

theorem cleared_begin {fh : Fh} (h : Cleared kind w (p .fuse)) (hm : Mounted w p s)
    (hK : a = .fuse → ∀ cb ∈ (p .fuse).cb, kind cb = true → w.Free fh) :
    Cleared kind { w with buf := { w.buf with pool := w.buf.pool.beginFlush a fh } }
      (update p a ((p a).begun fh (w.buf.pool.buf.beginFlush fh).1) .fuse) := by
  have hqueue : w.buf.pool.buf.queue fh = [] → w.buf.pool.tags fh = [] := by
    intro hq
    rw [← hm.tasks.ordered.queue] at hq
    exact List.map_eq_nil_iff.mp hq
  rcases Pool.guarded_or_free w.buf.pool.buf fh with hr | ⟨hg, hq⟩
  · have hnone : (w.buf.pool.buf.beginFlush fh).1 = none := by
      rw [WriteBuffer.beginFlush_fst, if_pos hr]
    rw [Pool.beginFlush_of_refused hr, hnone]
    by_cases e : a = .fuse
    · subst e
      rw [update_self]
      refine h.step h.accounted (fun _ => Nat.le_refl _) (fun _ hx => .inl hx) (fun _ hc => hc)
        (fun cb hc hk k hkf => ?_) fun _ hl => .inl hl
      rcases List.mem_cons.mp hkf with rfl | hkf
      · refine .inr ((hK rfl cb hc hk).elim (fun hfree => ?_) id)
        exact hqueue (hr.resolve_left (by simp [hfree]))
      · exact .inl hkf
    · rw [update_of_ne (Ne.symm e)]
      exact h
  · have hsome := WriteBuffer.beginFlush_eq_some.mpr ⟨hg, hq, rfl⟩
    have hacc := WriteBuffer.accounted_beginFlush (h := fh) h.accounted
    rw [Pool.beginFlush_of_free hg hq, hsome]
    by_cases e : a = .fuse
    · subst e
      rw [update_self]
      refine h.step hacc (fun _ => Nat.le_refl _) (fun f hf => .inr ?_) (fun _ hc => hc)
        (fun _ _ _ _ hk => .inl hk) fun _ hl => .inl hl
      simp only [update_self] at hf
      obtain rfl := Option.some.inj hf
      rw [← hm.tasks.ordered.queue fh]
      simp [WriteBuffer.batchOf]
    · rw [update_of_ne (Ne.symm e)]
      refine h.step hacc (fun _ => Nat.le_refl _) (fun f hf => .inl ?_) (fun _ hc => hc)
        (fun _ _ _ _ hk => .inl hk) fun _ hl => .inl hl
      simp only [update_of_ne (Ne.symm e)] at hf
      exact hf

theorem length_ackFlush_le (q : Pool Actor) (f : Flight) (fh : Fh) :
    ((q.ackFlush a f).tags fh).length ≤ (q.tags fh).length := by
  simp only [Pool.ackFlush, update_apply]
  split
  · next e => rw [e, List.length_drop]; exact Nat.sub_le _ _
  · exact Nat.le_refl _

theorem cleared_ack {f : Flight} (h : Cleared kind w (p .fuse)) (hf : w.buf.pool.flight a = some f)
    (hcb : l'.cb = (p a).cb) (hl : l'.listed = (p a).listed)
    (hflushed : l'.flushed = f.handle :: (p a).flushed) :
    Cleared kind { w with buf := { w.buf with pool := w.buf.pool.ackFlush a f } }
      (update p a l' .fuse) := by
  have hacc : (w.buf.pool.ackFlush a f).buf.Accounted := WriteBuffer.accounted_ackFlush h.accounted
  have hlen := length_ackFlush_le (a := a) w.buf.pool f
  by_cases e : a = .fuse
  · subst e
    rw [update_self]
    refine h.step hacc hlen (fun g hg => ?_) (fun _ hc => hcb ▸ hc) (fun cb hc hk k hkf => ?_)
      fun _ hx => .inl (hl ▸ hx)
    · simp only [Pool.ackFlush, update_self] at hg
      cases hg
    · rw [hflushed] at hkf
      rcases List.mem_cons.mp hkf with rfl | hkf
      · refine .inr ?_
        simp only [Pool.ackFlush, update_self]
        exact List.drop_eq_nil_of_le (h.flying f hf)
      · exact .inl hkf
  · rw [update_of_ne (Ne.symm e)]
    refine h.step hacc hlen (fun g hg => .inl ?_) (fun _ hc => hc) (fun _ _ _ _ hk => .inl hk)
      fun _ hx => .inl hx
    simp only [Pool.ackFlush, update_of_ne (Ne.symm e)] at hg
    exact hg

theorem cleared_buf {op : BufAct} {r : op.Ret} (h : Cleared kind w (p .fuse)) (hm : Mounted w p s)
    (hpre : bufProtocol.pre (p a) op)
    (hK : a = .fuse → ∀ fh, op = .beginFlush fh → ∀ cb ∈ (p .fuse).cb, kind cb = true → w.Free fh)
    (he : World.exec S (.client a) (.buf op) ch w = some (r, w')) :
    Cleared kind w' (update p a (bufProtocol.next (p a) op r) .fuse) := by
  obtain ⟨x, hx, rfl⟩ := exec_buf he
  have hlook : op.Looks →
      Cleared kind { w with buf := x } (update p a (bufProtocol.next (p a) op r) .fuse) := by
    intro ho
    obtain rfl := exec_look hx ho
    exact cleared_look h hm ho hx
  cases op with
  | push fh offset data =>
    obtain ⟨-, rfl⟩ := Prod.mk.inj (Option.some.inj hx)
    obtain rfl : a = .fuse := by
      by_contra hne
      have := hpre.1
      rw [(hm.tasks.task a).cb hne] at this
      cases this
    -- the flushes are forgotten, and there is none in flight
    have hnone : w.buf.pool.flight .fuse = none := by
      have := (hm.tasks.task .fuse).flight.symm.trans hpre.2
      simpa using this
    rw [update_self]
    refine ⟨?_, fun f hf => ?_, fun _ _ _ _ hk => (by cases hk), fun _ hl => by cases hl⟩
    · have hbuf : (w.buf.pool.push fh offset data w.now ch.iter).buf =
          (w.buf.pool.buf.push fh offset data w.now ch.iter).2 := by
        unfold Pool.push
        split <;> next e => rw [e]
      change (w.buf.pool.push fh offset data w.now ch.iter).buf.Accounted
      rw [hbuf]
      exact WriteBuffer.accounted_push h.accounted
    · change f ∈ (w.buf.pool.push fh offset data w.now ch.iter).flight .fuse at hf
      rw [Pool.flight_push, hnone] at hf
      cases hf
  | beginFlush fh =>
    obtain ⟨rfl, rfl⟩ := Prod.mk.inj (Option.some.inj hx)
    exact cleared_begin h hm fun e => hK e fh rfl
  | ackFlush fh n =>
    obtain ⟨-, batch, hl, hn, -⟩ := hpre
    obtain ⟨f, hf, rfl, rfl⟩ := (hm.tasks.task a).flight_eq hl
    obtain rfl := exec_ackFlush hf hn hx
    exact cleared_ack h hf rfl rfl rfl
  | failFlush fh =>
    obtain ⟨-, batch, hl⟩ := hpre
    obtain ⟨f, hf, rfl, rfl⟩ := (hm.tasks.task a).flight_eq hl
    obtain rfl := exec_failFlush hx
    have hacc : (w.buf.pool.failFlush a f).buf.Accounted :=
      WriteBuffer.accounted_failFlush h.accounted
    have hfly : ∀ g ∈ (w.buf.pool.failFlush a f).flight .fuse, w.buf.pool.flight .fuse =
        some g := by
      intro g hg
      simp only [Pool.failFlush, update_apply] at hg
      split at hg
      · cases hg
      · exact hg
    exact h.shrink hacc (fun _ => Nat.le_refl _) hfly rfl rfl rfl
  | dropHandle fh =>
    obtain ⟨-, rfl⟩ := Prod.mk.inj (Option.some.inj hx)
    have hacc : (w.buf.pool.dropHandle a fh).buf.Accounted :=
      WriteBuffer.accounted_dropHandle h.accounted
    have hlen : ∀ k, ((w.buf.pool.dropHandle a fh).tags k).length ≤ (w.buf.pool.tags k).length := by
      intro k
      simp only [Pool.dropHandle, update_apply]
      split
      · exact Nat.zero_le _
      · exact Nat.le_refl _
    have hfly : ∀ g ∈ (w.buf.pool.dropHandle a fh).flight .fuse, w.buf.pool.flight .fuse =
        some g := by
      intro g hg
      simp only [Pool.dropHandle, update_apply] at hg
      split at hg
      · next e => exact e ▸ (Option.mem_filter_iff.mp hg).1
      · exact hg
    exact h.shrink hacc hlen hfly rfl rfl rfl
  | stickyInsert fh | stickyRemove fh =>
    obtain ⟨-, rfl⟩ := Prod.mk.inj (Option.some.inj hx)
    exact h.shrink h.accounted (fun _ => Nat.le_refl _) (fun _ hg => hg) rfl rfl rfl
  | _ => exact hlook trivial

/-- **What a callback of the kind has flushed is empty**, in the runs in which none of them finds
the guard of another task. -/
theorem cleared_keeps {K : MountCond}
    (hK : ∀ {w t a ch}, K.run w t a ch → ∀ fh ∈ t.fences? a, w.During kind → w.Free fh) :
    Keeps S (servingToo K) Mounted fun w p _ => Cleared kind w (p .fuse) where
  client {a act ch r w w' p s} hm h hpre hrun he := by
    cases act with
    | buf op =>
      refine cleared_buf h hm hpre (fun ha fh hop cb hcb hkind => ?_) he
      subst ha hop
      refine hK hrun.1 fh rfl ?_
      obtain ⟨c, hc⟩ := Option.isSome_iff_exists.mp (hrun.2 rfl fun cb => by simp)
      obtain rfl :
          c.cb = cb := Option.some.inj (((hm.tasks.task .fuse).call rfl c hc).symm.trans hcb)
      rw [World.During, hc, Option.map_some, hkind]
    | files op =>
      obtain ⟨f, -, rfl⟩ := exec_files he
      exact h.sameTask rfl (files_sameTask op r)
    | paths op =>
      obtain ⟨t, rfl⟩ := exec_paths he
      exact h.sameTask rfl (.refl _)
    | cache op =>
      obtain rfl := exec_cache he
      exact h.sameTask rfl (.refl _)
    | net op => exact h.sameTask (by rw [(exec_net_frame he).buf]) (net_sameTask op r)
    | dev op =>
      cases op with
      | recv cb =>
        obtain rfl := exec_recv he
        exact h.sameTask rfl (.refl _)
      | reply x =>
        obtain rfl := exec_reply he
        by_cases e : a = .fuse
        · subst e
          rw [update_self]
          exact h.frame (replied_pool x) (fun _ hc => by cases hc) rfl rfl
        · rw [update_of_ne (Ne.symm e)]
          exact h.frame (replied_pool x) (fun _ hc => hc) rfl rfl
    | accept | sys => exact hpre.elim
  accept _ h _ _ he := by
    obtain ⟨rpc, -, -, -, rfl⟩ := exec_accept he
    exact h.frame rfl (fun _ hc => hc) rfl rfl
  sys _ h _ _ _ he := by
    obtain ⟨host, -, rfl⟩ := exec_sys he
    exact h.frame rfl (fun _ hc => hc) rfl rfl
  task {a job w p s} _ h _ _ := by
    by_cases e : a = .fuse
    · subst e
      rw [update_self]
      refine ⟨h.accounted, h.flying, fun _ _ _ fh hfh => ?_, fun hs hl => ?_⟩
      · cases job <;> cases hfh
      · cases job <;> cases hl
    · rw [update_of_ne (Ne.symm e)]
      exact h
  stream _ h _ := h
  env {e _ _ _} _ h _ := by
    cases e <;> exact h.frame rfl (fun _ hc => hc) rfl rfl

end

end QuicFs.System
