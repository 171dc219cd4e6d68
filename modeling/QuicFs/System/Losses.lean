import QuicFs.Client.Accounting
import QuicFs.System.Serving

/-!
# Chunks that are lost

A chunk that was accepted leaves the buffer when a flush of it is acknowledged, or it is dropped; a
drop is followed by the sticky error of the handle, under another lock. `flush` and `fsync` take the
sticky error and report it. `Heard` holds in the runs in which no sticky error is taken between a
drop and its sticky error, and no chunk is pushed behind a flush whose own chunks were dropped; in
these a `flush` or `fsync` that replies success leaves no chunk unaccounted for
(`no_silent_loss`). In others one does: `loss_unheard`.
-/

namespace QuicFs.System

open Lib Client Server Function

def Tid.pushes? : Tid → Act → Option Fh
  | .client _, .buf (.push fh _ _) => some fh
  | _, _ => none

def Tid.takes? : Tid → Act → Option Fh
  | .client _, .buf (.stickyRemove fh) => some fh
  | _, _ => none

/-- A flush in flight on the handle still has its chunks at the front of the queue. -/
def World.FlightsKept (w : World) (fh : Fh) : Prop :=
  ∀ b, ∀ f ∈ w.buf.pool.flight b, f.handle = fh → f.snapshot <+: w.buf.pool.tags fh

instance (w : World) (fh : Fh) : Decidable (w.FlightsKept fh) :=
  inferInstanceAs
    (Decidable (∀ b, ∀ f ∈ w.buf.pool.flight b, f.handle = fh → f.snapshot <+: w.buf.pool.tags fh))

/-- No chunk is pushed behind a flush whose chunks were dropped, and no sticky error is taken while
a task has still to set it. -/
def Heard : MountCond where
  run w t a _ := (∀ fh ∈ t.pushes? a, w.FlightsKept fh) ∧ ∀ fh ∈ t.takes? a, ∀ b,
    w.buf.owing b ≠ some fh
  start := promisedStart
  env _ _ := True

instance : Heard.Checkable where
  run w t a _ := inferInstanceAs (Decidable (
    (∀ fh ∈ t.pushes? a, w.FlightsKept fh) ∧ ∀ fh ∈ t.takes? a, ∀ b, w.buf.owing b ≠ some fh))
  start w t job := inferInstanceAs (Decidable (promisedStart w t job))
  env _ _ := isTrue trivial

def ReportsOn (cb : Option Callback) (fh : Fh) : Prop :=
  cb = some (.flush fh) ∨ ∃ datasync, cb = some (.fsync fh datasync)

/-- Every chunk is accounted for, and a loss that was not reported yet will be. -/
structure Heeded (w : World) (l : ClientPhase) : Prop where
  sound : w.buf.pool.Sound
  kept : ∀ fh, ∀ t ∈ w.buf.pool.accepted fh, t ∈ w.buf.pool.acked fh ∨ t ∈ w.buf.pool.tags fh ∨
    t ∈ w.buf.lost fh ∨ t ∈ w.buf.reported fh
  recorded : ∀ fh, ∀ t ∈ w.buf.lost fh, t ∈ w.buf.pool.accepted fh
  known : ∀ fh, w.buf.lost fh ≠ [] → fh ∈ w.buf.writeErrors ∨ (∃ a, w.buf.owing a = some fh) ∨
    w.files.opened fh = none ∨ ClientPhase.Closes l.cb fh ∧ l.sticky = some true
  empty : ∀ fh ∈ l.empty, w.buf.pool.tags fh = []
  clean : ∀ fh, ReportsOn l.cb fh → l.sticky = some false → w.buf.pool.tags fh = [] ∧
    w.buf.lost fh = []
  opened : ∀ fh, ReportsOn l.cb fh → w.files.opened fh ≠ none
  removed : ∀ fh, l.cb = some (.release fh) → l.removed = true → w.files.opened fh = none

/-- The phases agree on the callback and on what was learnt about its handle. -/
structure ClientPhase.SameFace (l l' : ClientPhase) : Prop where
  cb : l'.cb = l.cb
  sticky : l'.sticky = l.sticky
  empty : l'.empty = l.empty
  removed : l'.removed = l.removed

section
variable {S : Setup} {a : Actor} {w w' : World} {l l' : ClientPhase} {p : Clients} {s : Streams}
    {ch : Chance}

theorem ClientPhase.SameFace.refl (l : ClientPhase) : l.SameFace l := ⟨rfl, rfl, rfl, rfl⟩

theorem net_sameFace {chunkSize : UInt32} (op : NetAct) (r : op.Ret) :
    l.SameFace ((clientProtocol chunkSize).next l (.net op) r) := by
  cases op with
  | send session request more purpose =>
    change l.SameFace (l.sent purpose r)
    unfold ClientPhase.sent
    split <;> exact ⟨rfl, rfl, rfl, rfl⟩
  | await n =>
    change l.SameFace (l.received r)
    unfold ClientPhase.received
    split <;> first | exact ⟨rfl, rfl, rfl, rfl⟩ | (split <;> exact ⟨rfl, rfl, rfl, rfl⟩)
  | _ => exact .refl l

theorem SameFace.update (h : (p a).SameFace l') :
    (p .fuse).SameFace (Function.update p a l' .fuse) := by
  by_cases e : a = .fuse
  · subst e; rwa [Function.update_self]
  · rw [Function.update_of_ne (Ne.symm e)]; exact .refl _

theorem Heeded.frame (h : Heeded w l) (hb : w'.buf = w.buf)
    (ho : ∀ fh, w'.files.opened fh = none ↔ w.files.opened fh = none) (hl : l.SameFace l') :
    Heeded w' l' where
  sound := hb ▸ h.sound
  kept := by rw [hb]; exact h.kept
  recorded := by rw [hb]; exact h.recorded
  known fh := by rw [hb, ho, hl.cb, hl.sticky]; exact h.known fh
  empty := by rw [hb, hl.empty]; exact h.empty
  clean := by rw [hb, hl.cb, hl.sticky]; exact h.clean
  opened fh := by rw [hl.cb, Ne, ho]; exact h.opened fh
  removed fh := by rw [hl.cb, hl.removed, ho]; exact h.removed fh

/-- A step on the buffer that loses nothing. -/
theorem Heeded.buf {x : Buf} (h : Heeded w l) (hs : x.pool.Sound)
    (hkept : ∀ fh, ∀ t ∈ x.pool.accepted fh, t ∈ x.pool.acked fh ∨ t ∈ x.pool.tags fh ∨
      t ∈ x.lost fh ∨
      t ∈ x.reported fh)
    (htags : ∀ fh, w.buf.pool.tags fh = [] → x.pool.tags fh = []) (hlost : x.lost = w.buf.lost)
    (hacc : x.pool.accepted = w.buf.pool.accepted)
    (herr : ∀ fh, (fh ∈ w.buf.writeErrors ∨ ∃ a, w.buf.owing a = some fh) →
      fh ∈ x.writeErrors ∨ ∃ a, x.owing a = some fh) (hl : l.SameFace l') :
    Heeded { w with buf := x } l' where
  sound := hs
  kept := hkept
  recorded := by rw [hlost, hacc]; exact h.recorded
  known fh hne := by
    rw [hl.cb, hl.sticky]
    have hold := h.known fh (hlost ▸ hne)
    rw [← or_assoc] at hold ⊢
    exact hold.imp_left (herr fh)
  empty fh hfh := htags fh (h.empty fh (hl.empty ▸ hfh))
  clean fh hr hst := by
    obtain ⟨h1, h2⟩ := h.clean fh (hl.cb ▸ hr) (hl.sticky ▸ hst)
    exact ⟨htags fh h1, hlost ▸ h2⟩
  opened fh := by rw [hl.cb]; exact h.opened fh
  removed fh := by rw [hl.cb, hl.removed]; exact h.removed fh

theorem mem_of_ack {q : Pool Actor} {f : Flight} (hs : q.Sound) (hf : q.flight a = some f) {t : Tag}
    (ht : t ∈ q.tags f.handle) : t ∈ f.snapshot ∨ t ∈ (q.tags f.handle).drop f.batch.sentCount := by
  obtain ⟨⟨rest, hrest⟩, -⟩ := hs.live hf (List.ne_nil_of_mem ht)
  rw [(hs.flight_ok hf).1, ← hrest, List.drop_left]
  rw [← hrest] at ht
  exact List.mem_append.mp ht

theorem dropped_pos {q : Pool Actor} {fh : Fh} (hq : q.Tagged)
    (hdata : ∀ t ∈ q.tags fh, t.2.data ≠ []) (hne : q.tags fh ≠ []) :
    0 < (q.buf.dropHandle fh).1 := by
  have hbytes : (q.buf.dropHandle fh).1 = byteCount (q.buf.queue fh) := by
    rw [WriteBuffer.byteCount_queue]
    unfold WriteBuffer.dropHandle
    cases q.buf.perHandle.lookup fh <;> rfl
  obtain ⟨t, ts, ht⟩ := List.exists_cons_of_ne_nil hne
  have hpos := List.length_pos_of_ne_nil (hdata t (ht ▸ List.mem_cons_self ..))
  rw [hbytes, ← hq.queue fh, ht]
  simp only [byteCount, List.map_cons, List.sum_cons]
  omega

theorem heeded_push {fh : Fh} {offset : UInt64} {data : Bytes} {now : Instant} {iter : List Fh}
    (h : Heeded w (p .fuse)) (hm : Mounted w p s) (hcb : (p a).cb = some (.write fh offset data))
    (hK : w.FlightsKept fh) (hl : l'.cb = (p a).cb) (hs : l'.sticky = (p a).sticky)
    (he : l'.empty = []) (hr : l'.removed = (p a).removed) :
    Heeded { w with buf := { w.buf with pool := w.buf.pool.push fh offset data now iter } }
      (update p a l' .fuse) := by
  obtain rfl : a = .fuse := by
    by_contra hne
    rw [(hm.tasks.task a).cb hne] at hcb
    cases hcb
  rw [update_self]
  have hno : ∀ k, ¬ReportsOn l'.cb k := by
    intro k hk
    rw [hl, hcb] at hk
    rcases hk with hk | ⟨d, hk⟩ <;> cases hk
  have hnone : l'.cb = some (.write fh offset data) := hl.trans hcb
  refine ⟨Pool.sound_push h.sound hK, fun k t ht => ?_, fun k t ht => ?_, fun k hk => ?_,
    by simp [he],
    fun k hk => absurd hk (hno k), fun k hk => absurd hk (hno k), fun k hk =>
      by rw [hnone] at hk; cases hk⟩
  · by_cases hrej : (w.buf.pool.buf.push fh offset data now iter).1 = .reject
    · rw [Pool.push_of_reject hrej] at ht ⊢
      exact h.kept k t ht
    · rw [Pool.push_of_accept hrej] at ht ⊢
      simp only [update_apply] at ht ⊢
      split at ht
      · next e =>
        subst e
        rcases List.mem_append.mp ht with ht | ht
        · rw [if_pos rfl]
          exact (h.kept k t ht).imp_right (.imp_left (List.mem_append_left _))
        · rw [if_pos rfl]
          exact .inr (.inl (List.mem_append_right _ ht))
      · next hne => rw [if_neg hne]; exact h.kept k t ht
  · have hstep : w.buf.pool.step (.push fh offset data now iter) =
        some (w.buf.pool.push fh offset data now iter) := rfl
    exact (Pool.accepted_step hstep).1 k t (h.recorded k t ht)
  · rw [hl, hs]
    exact h.known k hk

theorem heeded_drop {fh : Fh} (h : Heeded w (p .fuse)) (hm : Mounted w p s)
    (hpre : (p a).owes = none) (hl : (p a).SameFace l') : Heeded { w with buf := { w.buf with
      pool := w.buf.pool.dropHandle a fh
      lost := update w.buf.lost fh (w.buf.lost fh ++ w.buf.pool.tags fh)
      owing := if 0 < (w.buf.pool.buf.dropHandle fh).1 then update w.buf.owing a (some fh)
        else w.buf.owing } } (update p a l' .fuse) := by
  have hface := SameFace.update hl
  have howing : w.buf.owing a = none := (hm.tasks.task a).owing.trans hpre
  have htags : ∀ k, w.buf.pool.tags k = [] → (w.buf.pool.dropHandle a fh).tags k = [] := by
    intro k hk
    simp only [Pool.dropHandle, update_apply]
    split <;> first | rfl | exact hk
  -- whoever owed a sticky error owes it still
  have hkeep : ∀ {k}, (∃ b, w.buf.owing b = some k) → ∃ b,
      (if 0 < (w.buf.pool.buf.dropHandle fh).1 then update w.buf.owing a (some fh) else w.buf.owing)
        b =
        some k := by
    rintro k ⟨b, hb⟩
    refine ⟨b, ?_⟩
    split
    · rw [update_of_ne, hb]
      rintro rfl
      cases howing.symm.trans hb
    · exact hb
  refine ⟨Pool.sound_dropHandle h.sound, fun k t ht => ?_, fun k t ht => ?_, fun k hk => ?_,
    fun k hk => ?_,
    fun k hr hst => ?_,
    fun k => by rw [hface.cb]; exact h.opened k,
    fun k => by rw [hface.cb, hface.removed]; exact h.removed k⟩
  · simp only [Pool.dropHandle, update_apply] at ht ⊢
    rcases h.kept k t ht with hk | hk | hk | hk
    · exact .inl hk
    · split
      · next e => exact .inr (.inr (.inl (List.mem_append_right _ (e ▸ hk))))
      · exact .inr (.inl hk)
    · split
      · next e => exact .inr (.inr (.inl (List.mem_append_left _ (e ▸ hk))))
      · exact .inr (.inr (.inl hk))
    · exact .inr (.inr (.inr hk))
  · simp only [update_apply] at ht
    split at ht
    · next e =>
      subst e
      exact (List.mem_append.mp ht).elim (h.recorded k t) (hm.opened.recorded.tags k t)
    · exact h.recorded k t ht
  · rw [hface.cb, hface.sticky]
    by_cases hold : w.buf.lost k = []
    · -- the handle has lost its first chunks
      simp only [update_apply] at hk
      split at hk
      · next e =>
        subst e
        have hne : w.buf.pool.tags k ≠ [] := by simpa [hold] using hk
        have hpos := dropped_pos hm.tasks.ordered.toTagged
          (fun t ht => (hm.opened.accepted (hm.opened.recorded.tags k t ht)).2) hne
        exact .inr (.inl ⟨a, by simp [hpos]⟩)
      · exact absurd hold hk
    · exact (h.known k hold).imp_right (.imp_left hkeep)
  · exact htags k (h.empty k (hface.empty ▸ hk))
  · obtain ⟨h1, h2⟩ := h.clean k (hface.cb ▸ hr) (hface.sticky ▸ hst)
    refine ⟨htags k h1, ?_⟩
    simp only [update_apply]
    split
    · next e => rw [← e, h1, h2, List.append_nil]
    · exact h2

theorem closes_of_reportsOn {cb : Option Callback} {fh : Fh} (h : ReportsOn cb fh) :
    ClientPhase.Closes cb fh :=
  h.imp_right .inl

theorem closes_unique {cb : Option Callback} {fh fh' : Fh} (h : ClientPhase.Closes cb fh)
    (h' : ClientPhase.Closes cb fh') : fh = fh' := by
  rcases h with rfl | ⟨d, rfl⟩ | rfl <;> rcases h' with h' | ⟨d', h'⟩ | h' <;> cases h' <;> rfl

theorem heeded_stickyRemove {fh : Fh} (h : Heeded w (p .fuse)) (hm : Mounted w p s)
    (hc : ClientPhase.Closes (p a).cb fh) (hst : (p a).sticky = none)
    (hK : ∀ b, w.buf.owing b ≠ some fh) :
    Heeded { w with buf := { w.buf with writeErrors := w.buf.writeErrors.erase fh } }
      (update p a ((p a).tookSticky fh (decide (fh ∈ w.buf.writeErrors))) .fuse) := by
  obtain rfl : a = .fuse := by
    by_contra hne
    rw [(hm.tasks.task a).cb hne] at hc
    rcases hc with hc | ⟨d, hc⟩ | hc <;> cases hc
  rw [update_self]
  -- what is lost on this handle has its sticky error, which is taken now
  have hset : w.buf.lost fh ≠ [] → w.files.opened fh ≠ none → fh ∈ w.buf.writeErrors := by
    intro hne hop
    rcases h.known fh hne with hk | ⟨b, hb⟩ | hk | ⟨-, hk⟩
    · exact hk
    · exact absurd hb (hK b)
    · exact absurd hk hop
    · rw [hst] at hk; cases hk
  refine ⟨h.sound, h.kept, h.recorded, fun k hk => ?_, h.empty, fun k hr hfalse => ?_,
    h.opened, h.removed⟩
  · by_cases e : k = fh
    · subst e
      by_cases hop : w.files.opened k = none
      · exact .inr (.inr (.inl hop))
      · refine .inr (.inr (.inr ⟨hc, ?_⟩))
        simp [ClientPhase.tookSticky, hset hk hop]
    · rcases h.known k hk with hk | hk | hk | ⟨-, hk⟩
      · exact .inl (Finset.mem_erase.mpr ⟨e, hk⟩)
      · exact .inr (.inl hk)
      · exact .inr (.inr (.inl hk))
      · rw [hst] at hk; cases hk
  · obtain rfl := closes_unique hc (closes_of_reportsOn hr)
    have hb := Option.some.inj hfalse
    rw [Bool.or_eq_false_iff] at hb
    refine ⟨h.empty fh (by simpa using hb.2), ?_⟩
    by_contra hne
    exact absurd (hset hne (h.opened fh hr)) (by simpa using hb.1)

theorem heeded_look {op : BufAct} {r : op.Ret} (h : Heeded w (p .fuse)) (hm : Mounted w p s)
    (ho : op.Looks) (hx : op.exec a w.now ch.iter w.buf = some (r, w.buf)) :
    Heeded w (update p a (bufProtocol.next (p a) op r) .fuse) := by
  have hsame : (p a).SameFace (bufProtocol.next (p a) op r) →
      Heeded w (update p a (bufProtocol.next (p a) op r) .fuse) :=
    fun hf => h.frame rfl (fun _ => Iff.rfl) (SameFace.update hf)
  cases op with
  | hasBuffered fh =>
    change Heeded w (update p a ((p a).looked fh r) .fuse)
    have hr : w.buf.pool.buf.hasBuffered fh = r := (Prod.mk.inj (Option.some.inj hx)).1
    by_cases e : a = .fuse
    · subst e
      rw [update_self]
      unfold ClientPhase.looked
      split
      · exact h
      · next hno =>
        refine ⟨h.sound, h.kept, h.recorded, h.known, fun k hk => ?_, h.clean, h.opened, h.removed⟩
        rcases List.mem_cons.mp hk with rfl | hk
        · rw [← hr, WriteBuffer.hasBuffered_eq, ← hm.tasks.ordered.queue] at hno
          simpa using hno
        · exact h.empty k hk
    · rw [update_of_ne (Ne.symm e)]
      exact h
  | totalBytes =>
    refine hsame ?_
    change (p a).SameFace ((p a).counted r)
    unfold ClientPhase.counted
    split <;> exact ⟨rfl, rfl, rfl, rfl⟩
  | handles | olderThan | expiredHandles => exact hsame ⟨rfl, rfl, rfl, rfl⟩
  | _ => exact ho.elim

theorem heeded_buf {op : BufAct} {r : op.Ret} (hm : Mounted w p s) (h : Heeded w (p .fuse))
    (hpre : bufProtocol.pre (p a) op) (hK : Heard.run w (.client a) (.buf op) ch)
    (he : World.exec S (.client a) (.buf op) ch w = some (r, w')) :
    Heeded w' (update p a (bufProtocol.next (p a) op r) .fuse) := by
  obtain ⟨x, hx, rfl⟩ := exec_buf he
  have hlook : op.Looks →
      Heeded { w with buf := x } (update p a (bufProtocol.next (p a) op r) .fuse) := by
    intro ho
    obtain rfl := exec_look hx ho
    exact heeded_look h hm ho hx
  cases op with
  | push fh offset data =>
    obtain ⟨-, rfl⟩ := Prod.mk.inj (Option.some.inj hx)
    exact heeded_push h hm hpre.1 (hK.1 fh rfl) rfl rfl rfl rfl
  | beginFlush fh =>
    obtain ⟨-, rfl⟩ := Prod.mk.inj (Option.some.inj hx)
    have hface : (p a).SameFace ((p a).begun fh r) := by
      unfold ClientPhase.begun
      split <;> exact ⟨rfl, rfl, rfl, rfl⟩
    have hsound : (w.buf.pool.beginFlush a fh).Sound := Pool.sound_beginFlush h.sound
    rcases Pool.guarded_or_free w.buf.pool.buf fh with hr | ⟨hg, hq⟩
    · rw [Pool.beginFlush_of_refused hr] at hsound ⊢
      exact h.buf hsound h.kept (fun _ hk => hk) rfl rfl (fun _ hk => hk) (SameFace.update hface)
    · rw [Pool.beginFlush_of_free hg hq] at hsound ⊢
      exact h.buf hsound h.kept (fun _ hk => hk) rfl rfl (fun _ hk => hk) (SameFace.update hface)
  | ackFlush fh n =>
    obtain ⟨-, batch, hl, hn, -⟩ := hpre
    obtain ⟨f, hf, rfl, rfl⟩ := (hm.tasks.task a).flight_eq hl
    obtain rfl := exec_ackFlush hf hn hx
    refine h.buf (Pool.sound_ackFlush h.sound hf) (fun k t ht => ?_) (fun k hk => ?_) rfl rfl
      (fun _ hk => hk)
      (SameFace.update ⟨rfl, rfl, rfl, rfl⟩)
    · simp only [Pool.ackFlush, update_apply]
      rcases h.kept k t ht with hk | hk | hk
      · refine .inl ?_
        split
        · next e => exact List.mem_append_left _ (e ▸ hk)
        · exact hk
      · split
        · next e =>
          subst e
          rcases mem_of_ack h.sound hf hk with hk | hk
          · exact .inl (List.mem_append_right _ hk)
          · exact .inr (.inl hk)
        · exact .inr (.inl hk)
      · exact .inr (.inr hk)
    · simp only [Pool.ackFlush, update_apply]
      split
      · next e => rw [← e, hk, List.drop_nil]
      · exact hk
  | failFlush fh =>
    obtain ⟨-, batch, hl⟩ := hpre
    obtain ⟨f, hf, rfl, rfl⟩ := (hm.tasks.task a).flight_eq hl
    obtain rfl := exec_failFlush hx
    exact h.buf (Pool.sound_failFlush h.sound hf) h.kept (fun _ hk => hk) rfl rfl (fun _ hk => hk)
      (SameFace.update ⟨rfl, rfl, rfl, rfl⟩)
  | dropHandle fh =>
    obtain ⟨-, rfl⟩ := Prod.mk.inj (Option.some.inj hx)
    exact heeded_drop h hm hpre.1 ⟨rfl, rfl, rfl, rfl⟩
  | stickyInsert fh =>
    obtain ⟨-, rfl⟩ := Prod.mk.inj (Option.some.inj hx)
    refine h.buf h.sound h.kept (fun _ hk => hk) rfl rfl (fun k hk => ?_)
      (SameFace.update ⟨rfl, rfl, rfl, rfl⟩)
    by_cases e : k = fh
    · exact .inl (e ▸ Finset.mem_insert_self ..)
    · refine hk.imp (fun hk => Finset.mem_insert_of_mem hk) ?_
      rintro ⟨b, hb⟩
      refine ⟨b, ?_⟩
      dsimp only
      split
      · next ha =>
        rw [update_of_ne, hb]
        rintro rfl
        exact e (Option.some.inj (hb.symm.trans ha))
      · exact hb
  | stickyRemove fh =>
    obtain ⟨rfl, rfl⟩ := Prod.mk.inj (Option.some.inj hx)
    exact heeded_stickyRemove h hm hpre.1 hpre.2 (hK.2 fh rfl)
  | _ => exact hlook trivial

theorem heeded_files {op : FileAct} {r : op.Ret} (hm : Mounted w p s) (h : Heeded w (p .fuse))
    (hpre : fileProtocol.pre (p a) op)
    (he : World.exec S (.client a) (.files op) ch w = some (r, w')) :
    Heeded w' (update p a (fileProtocol.next (p a) op r) .fuse) := by
  obtain ⟨f, hx, rfl⟩ := exec_files he
  cases op with
  | get fh =>
    obtain ⟨rfl, rfl⟩ := Prod.mk.inj hx
    refine h.frame rfl (fun _ => Iff.rfl) (SameFace.update ?_)
    change (p a).SameFace ((p a).found fh _)
    unfold ClientPhase.found
    split <;> exact ⟨rfl, rfl, rfl, rfl⟩
  | restamp fh handle gen =>
    obtain ⟨rfl, rfl⟩ := Prod.mk.inj hx
    refine h.frame rfl (fun k => ?_) (SameFace.update ⟨rfl, rfl, rfl, rfl⟩)
    simp only [update_apply]
    split
    · next e => rw [Option.map_eq_none_iff, e]
    · exact Iff.rfl
  | nextFh =>
    obtain ⟨rfl, rfl⟩ := Prod.mk.inj hx
    exact h.frame rfl (fun _ => Iff.rfl) (SameFace.update ⟨rfl, rfl, rfl, rfl⟩)
  | insert fh file home =>
    obtain ⟨rfl, rfl⟩ := Prod.mk.inj hx
    -- a new handle has lost nothing, and no callback is about it
    have hnone : w.files.home fh = none := ((hm.opened.task a).fresh fh hpre.1).2
    have hface : (p .fuse).SameFace (update p a { p a with fresh := none } .fuse) :=
      SameFace.update ⟨rfl, rfl, rfl, rfl⟩
    refine ⟨h.sound, h.kept, h.recorded, fun k hk => ?_, fun k hk => h.empty k (hface.empty ▸ hk),
      fun k hr hst => h.clean k (hface.cb ▸ hr) (hface.sticky ▸ hst), fun k hr => ?_,
      fun k hc hrem => ?_⟩
    · have hne : k ≠ fh := by
        rintro rfl
        obtain ⟨t, ht⟩ := List.exists_mem_of_ne_nil _ hk
        have := (hm.opened.accepted (h.recorded k t ht)).1
        rw [hnone] at this
        cases this
      have hold := h.known k hk
      rw [← hface.cb, ← hface.sticky] at hold
      simp only [update_of_ne hne]
      exact hold
    · simp only [update_apply]
      split
      · exact Option.some_ne_none _
      · exact h.opened k (hface.cb ▸ hr)
    · have hc' : (p .fuse).cb = some (.release k) := hface.cb ▸ hc
      have hne : k ≠ fh := by
        rintro rfl
        have := ((hm.opened.task .fuse).used _ hc').1 k rfl
        rw [hnone] at this
        cases this
      simp only [update_of_ne hne]
      exact h.removed k hc' (hface.removed ▸ hrem)
  | remove fh =>
    obtain ⟨rfl, rfl⟩ := Prod.mk.inj hx
    have hc : (p a).cb = some (.release fh) := hpre
    obtain rfl : a = .fuse := by
      by_contra hne
      rw [(hm.tasks.task a).cb hne] at hc
      cases hc
    rw [update_self]
    have hclosed : ∀ k, w.files.opened k = none → update w.files.opened fh none k = none := by
      intro k hk
      simp only [update_apply]
      split <;> first | rfl | exact hk
    refine ⟨h.sound, h.kept, h.recorded, fun k hk => ?_, h.empty, h.clean, fun k hr => ?_,
      fun k hk _ => ?_⟩
    · exact (h.known k hk).imp_right (.imp_right (.imp_left (hclosed k)))
    · rcases hr with hr | ⟨d, hr⟩ <;> cases hc.symm.trans hr
    · cases hc.symm.trans hk
      exact update_self ..

theorem replied_of_not_reportsOn {x : Answer}
    (h : ∀ fh, ¬(ReportsOn (w.call.map Call.cb) fh ∧ x.isError = true)) :
    (w.replied x).buf.lost = w.buf.lost ∧ (w.replied x).buf.reported = w.buf.reported := by
  unfold World.replied
  split
  · next fh m hc =>
    rw [if_neg fun hx => h fh ⟨.inl (by rw [hc]; rfl), hx⟩]
    exact ⟨rfl, rfl⟩
  · next fh d m hc =>
    rw [if_neg fun hx => h fh ⟨.inr ⟨d, by rw [hc]; rfl⟩, hx⟩]
    exact ⟨rfl, rfl⟩
  · exact ⟨rfl, rfl⟩

theorem replied_of_reportsOn {x : Answer} {fh : Fh} (h : ReportsOn (w.call.map Call.cb) fh)
    (hx : x.isError = true) :
    (w.replied x).buf.lost = (w.buf.report fh).lost ∧
    (w.replied x).buf.reported = (w.buf.report fh).reported := by
  unfold World.replied
  rcases h with h | ⟨d, h⟩
  all_goals
    obtain ⟨⟨cb, mark⟩, hc, rfl⟩ := Option.map_eq_some_iff.mp h
    rw [hc]
    dsimp only
    rw [if_pos hx]
    exact ⟨rfl, rfl⟩

theorem replied_lost (x : Answer) (fh : Fh) :
    ((w.replied x).buf.lost fh = w.buf.lost fh ∧ (w.replied x).buf.reported fh = w.buf.reported fh ∧
      ¬(ReportsOn (w.call.map Call.cb) fh ∧ x.isError = true)) ∨
    ((w.replied x).buf.lost fh = [] ∧ (w.replied x).buf.reported fh = w.buf.reported fh ++
      w.buf.lost fh) := by
  by_cases hr : ∃ k, ReportsOn (w.call.map Call.cb) k ∧ x.isError = true
  · obtain ⟨k, hk, hx⟩ := hr
    obtain ⟨h1, h2⟩ := replied_of_reportsOn hk hx
    rw [h1, h2]
    simp only [Buf.report, update_apply]
    by_cases e : fh = k
    · rw [if_pos e, if_pos e, e]
      exact .inr ⟨rfl, rfl⟩
    · rw [if_neg e, if_neg e]
      exact .inl ⟨rfl, rfl,
        fun hr => e (closes_unique (closes_of_reportsOn hr.1) (closes_of_reportsOn hk))⟩
  · rw [not_exists] at hr
    obtain ⟨h1, h2⟩ := replied_of_not_reportsOn hr
    rw [h1, h2]
    exact .inl ⟨rfl, rfl, hr fh⟩

@[simp] theorem replied_writeErrors (x : Answer) :
    (w.replied x).buf.writeErrors = w.buf.writeErrors := by
  unfold World.replied
  split
  · split <;> rfl
  · split <;> rfl
  · rfl

/-- **A reply reports what is lost**, or there is nothing to report. -/
theorem heeded_reply {x : Answer} (hm : Mounted w p s) (h : Heeded w (p .fuse)) (ha : a = .fuse)
    (hcall : w.call.map Call.cb = (p a).cb)
    (howes : ∀ fh, (p a).owes = some fh → (p a).cb = some (.release fh))
    (hmay : (p a).MayAnswer x) :
    Heeded (w.replied x) (update p a { p a with cb := none, owes := none } .fuse) := by
  subst ha
  rw [update_self]
  have hreleased : ∀ fh, (p .fuse).cb = some (.release fh) → w.files.opened fh = none := by
    intro fh hcb
    refine h.removed fh hcb ?_
    rw [ClientPhase.MayAnswer, hcb] at hmay
    exact hmay
  have hnone : ∀ fh, ¬ReportsOn none fh := by
    rintro fh (hr | ⟨d, hr⟩) <;> cases hr
  have hfiles : (w.replied x).files = w.files := by
    unfold World.replied
    rfl
  refine ⟨by rw [replied_pool]; exact h.sound, fun fh t ht => ?_, fun fh t ht => ?_,
    fun fh hne => ?_,
    fun fh hfh => by rw [replied_pool]; exact h.empty fh hfh, fun fh hr => absurd hr (hnone fh),
    fun fh hr => absurd hr (hnone fh), fun fh hr => by cases hr⟩
  · rw [replied_pool] at ht ⊢
    rcases replied_lost (w := w) x fh with ⟨h1, h2, -⟩ | ⟨h1, h2⟩
    · rw [h1, h2]
      exact h.kept fh t ht
    · rw [h2]
      rcases h.kept fh t ht with hk | hk | hk | hk
      · exact .inl hk
      · exact .inr (.inl hk)
      · exact .inr (.inr (.inr (List.mem_append_right _ hk)))
      · exact .inr (.inr (.inr (List.mem_append_left _ hk)))
  · rw [replied_pool]
    rcases replied_lost (w := w) x fh with ⟨h1, -⟩ | ⟨h1, -⟩
    · exact h.recorded fh t (h1 ▸ ht)
    · rw [h1] at ht
      cases ht
  · rcases replied_lost (w := w) x fh with ⟨h1, -, hno⟩ | ⟨h1, -⟩
    · rw [replied_writeErrors, replied_owing, hfiles]
      rcases h.known fh (h1 ▸ hne) with hk | ⟨b, hb⟩ | hk | ⟨hc, hst⟩
      · exact .inl hk
      · by_cases e : b = .fuse
        · subst e
          exact .inr (.inr
            (.inl (hreleased fh (howes fh ((hm.tasks.task .fuse).owing.symm.trans hb)))))
        · exact .inr (.inl ⟨b, by rw [update_of_ne e, hb]⟩)
      · exact .inr (.inr (.inl hk))
      · -- the sticky error was taken, so the reply is an error and reports the loss
        refine .inr (.inr (.inl ?_))
        have herror : ReportsOn (p .fuse).cb fh → x.isError = true := by
          intro hr
          have hmay' : ∃ b, (p .fuse).sticky = some b ∧ (b = true → x.isError = true) := by
            rcases hr with hr | ⟨d, hr⟩
            all_goals rw [ClientPhase.MayAnswer, hr] at hmay; exact hmay
          obtain ⟨b, hb, himp⟩ := hmay'
          exact himp (Option.some.inj (hb.symm.trans hst))
        rw [hcall] at hno
        rcases hc with hc | ⟨d, hc⟩ | hc
        · exact absurd ⟨.inl hc, herror (.inl hc)⟩ hno
        · exact absurd ⟨.inr ⟨d, hc⟩, herror (.inr ⟨d, hc⟩)⟩ hno
        · exact hreleased fh hc
    · exact absurd h1 hne

theorem heeded_keeps : Keeps S (servingToo Heard) Mounted fun w p _ => Heeded w (p .fuse) where
  client {a act ch r w w' p s} hm h hpre hK he := by
    cases act with
    | buf op => exact heeded_buf hm h hpre hK.1 he
    | files op => exact heeded_files hm h hpre he
    | paths op =>
      obtain ⟨t, rfl⟩ := exec_paths he
      exact h.frame rfl (fun _ => Iff.rfl) (SameFace.update (.refl _))
    | cache op =>
      obtain rfl := exec_cache he
      exact h.frame rfl (fun _ => Iff.rfl) (SameFace.update (.refl _))
    | net op =>
      have hf := exec_net_frame he
      exact h.frame hf.buf (fun _ => by rw [hf.files]) (SameFace.update (net_sameFace op r))
    | dev op =>
      cases op with
      | recv cb =>
        obtain rfl := exec_recv he
        exact h.frame rfl (fun _ => Iff.rfl) (SameFace.update (.refl _))
      | reply x =>
        obtain rfl := exec_reply he
        obtain ⟨hcb, -, -, howes, hmay⟩ := hpre
        have ha : a = .fuse := by
          by_contra hne
          rw [(hm.tasks.task a).cb hne] at hcb
          cases hcb
        have hcall : w.call.map Call.cb = (p a).cb := by
          obtain ⟨c, hc⟩ := Option.isSome_iff_exists.mp (hK.2 (by rw [ha]) fun cb => by simp)
          rw [hc, (hm.tasks.task a).call ha c hc, Option.map_some]
        exact heeded_reply hm h ha hcall howes hmay
    | accept | sys => exact hpre.elim
  accept _ h _ _ he := by
    obtain ⟨rpc, -, -, -, rfl⟩ := exec_accept he
    exact h.frame rfl (fun _ => Iff.rfl) (.refl _)
  sys _ h _ _ _ he := by
    obtain ⟨host, -, rfl⟩ := exec_sys he
    exact h.frame rfl (fun _ => Iff.rfl) (.refl _)
  task {a job w p s} hm h hr hK := by
    by_cases ha : a = .fuse
    · subst ha
      rw [update_self]
      have hrest : (p .fuse).cb = none := hr.cb
      refine ⟨h.sound, h.kept, h.recorded, fun fh hne => ?_, fun fh hfh => ?_, fun fh _ hst => ?_,
        fun fh hrep => ?_,
        fun fh _ hrem => ?_⟩
      · refine (h.known fh hne).imp_right (.imp_right (.imp_right ?_))
        rintro ⟨hc, -⟩
        rw [hrest] at hc
        rcases hc with hc | ⟨d, hc⟩ | hc <;> cases hc
      · cases job <;> cases hfh
      · cases job <;> cases hst
      · have hopen : ∀ cb, job = .callback cb → ReportsOn (some cb) fh →
            w.files.opened fh ≠ none := by
          rintro cb rfl hrep
          have hfh : cb.fh? = some fh := by
            rcases hrep with hrep | ⟨d, hrep⟩ <;> cases hrep <;> rfl
          exact Option.isSome_iff_ne_none.mp (hK.1 fh hfh)
        cases job with
        | callback cb => exact hopen cb rfl hrep
        | tick | unmount | stream => rcases hrep with hrep | ⟨d, hrep⟩ <;> cases hrep
      · cases job <;> cases hrem
    · rw [update_of_ne (Ne.symm ha)]
      exact h
  stream _ h _ := h
  env {e _ _ _} _ h _ := by
    cases e <;> exact h.frame rfl (fun _ => Iff.rfl) (.refl _)

end

/-- **No silent loss**, in the runs in which every loss is heard: when `flush` or `fsync` is about
to reply success, each chunk that was accepted on the handle is one of an acknowledged flush, or an
earlier `flush` or `fsync` of the handle reported its loss. -/
theorem no_silent_loss (S : Setup) (fs : Fs) (epoch : UInt32) (root : Path)
    (perHandle total window : Nat) {c : Config Act Act.Ret World Tid}
    (h : Reach (mountMachine S).step Heard.Meets
      (Config.idle (.init S fs epoch root perHandle total window)) c)
    {x : Answer} {k : Unit → Task Unit} (ht : c.threads (.client .fuse) = .act (.dev (.reply x)) k)
    (hx : x.isError = false) {fh : Fh} (hcall : ReportsOn (c.state.call.map Call.cb) fh) :
    ∀ t ∈ c.state.buf.pool.accepted fh, t ∈ c.state.buf.pool.acked fh ∨
      t ∈ c.state.buf.reported fh := by
  have hmounted : Keeps S (servingToo Heard) (fun _ _ _ => True) Mounted :=
    mounted_keeps.mono (fun _ => trivial) id id id
  obtain ⟨p, s, ⟨hm, hh⟩, hpre, -⟩ := mount_sound (hmounted.and heeded_keeps)
    ⟨mounted_init S fs epoch root perHandle total window,
      ⟨Pool.sound_init perHandle total window, fun _ _ ht => (by cases ht),
        fun _ _ ht => (by cases ht),
        fun _ hne => absurd rfl hne, nofun,
        fun _ hr => (by rcases hr with hr | ⟨d, hr⟩ <;> cases hr),
        fun _ hr => (by rcases hr with hr | ⟨d, hr⟩ <;> cases hr), fun _ hr => (by cases hr)⟩⟩
          (reach_servingToo h)
  have hcb : ReportsOn (p .fuse).cb fh := by
    rcases hcall with hcall | ⟨d, hcall⟩
    all_goals
      obtain ⟨call, hc, hcb⟩ := Option.map_eq_some_iff.mp hcall
      have := (hm.tasks.task .fuse).call rfl call hc
      rw [hcb] at this
    · exact .inl this
    · exact .inr ⟨d, this⟩
  have hmay : ∃ b, (p .fuse).sticky = some b ∧ (b = true → x.isError = true) := by
    obtain ⟨-, -, -, -, hmay⟩ := hpre .fuse (.dev (.reply x)) k ht
    rcases hcb with hcb | ⟨d, hcb⟩
    all_goals rw [ClientPhase.MayAnswer, hcb] at hmay; exact hmay
  obtain ⟨b, hb, himp⟩ := hmay
  obtain rfl : b = false := by
    cases b with
    | false => rfl
    | true => cases hx.symm.trans (himp rfl)
  obtain ⟨htags, hlost⟩ := hh.clean fh hcb hb
  intro t ht
  rcases hh.kept fh t ht with hk | hk | hk | hk
  · exact .inl hk
  · rw [htags] at hk; cases hk
  · rw [hlost] at hk; cases hk
  · exact .inr hk

/-- The handle that the callback in progress flushes for its caller. -/
def flushOf (c : Config Act Act.Ret World Tid) : Option Fh :=
  match c.state.call.map Call.cb with
  | some (.flush fh) => some fh
  | _ => none

theorem reportsOn_of_flushOf {c : Config Act Act.Ret World Tid} {fh : Fh}
    (h : flushOf c = some fh) : ReportsOn (c.state.call.map Call.cb) fh := by
  unfold flushOf at h
  split at h
  · next hcb =>
    cases h
    exact .inl hcb
  · cases h

/-- A byte is written and dropped when it is too old, before its sticky error is set. -/
def agedOut : List MountLabel :=
  createA ++ called (.write 1 0 [5]) 5 ++
    [.env (.tick 120000), .start (.client .bg) .tick, .run (.client .bg) { iter := [1] },
      .run (.client .bg) {}]

/-- One byte is too old, which `flush` reports, and another is flushed. -/
theorem no_silent_loss_reported : ∃ c, Reach (mountMachine smallSetup).step Heard.Meets
      (Config.idle smallMount) c ∧
      c.state.buf.pool.accepted 1 = [(0, ⟨0, [5], 0⟩), (1, ⟨0, [6], 120000⟩)] ∧
    c.state.buf.reported 1 = [(0, ⟨0, [5], 0⟩)] ∧
    ∀ t ∈ c.state.buf.pool.accepted 1, t ∈ c.state.buf.pool.acked 1 ∨
      t ∈ c.state.buf.reported 1 := by
  obtain ⟨c, hreach, hreply, hcall, haccepted, hreported⟩ :=
    Reach.of_check (mountMachine smallSetup).step
    Heard.Meets (Config.idle smallMount)
    (agedOut ++ acts (.client .bg) 2 ++ called (.flush 1) 7 ++ called (.write 1 0 [6]) 5 ++
      called (.flush 1) 8 ++ taken 1 6 ++ acts (.client .fuse) 4)
    (fun c => (replyOf c).map Answer.isError = some false ∧ flushOf c = some 1 ∧
      c.state.buf.pool.accepted 1 = [(0, ⟨0, [5], 0⟩), (1, ⟨0, [6], 120000⟩)] ∧
      c.state.buf.reported 1 = [(0, ⟨0, [5], 0⟩)])
    (by decide +kernel)
  obtain ⟨x, hreply, hx⟩ := Option.map_eq_some_iff.mp hreply
  obtain ⟨k, hk⟩ := exists_of_replyOf hreply
  exact ⟨c, hreach, haccepted, hreported,
    no_silent_loss smallSetup _ _ _ _ _ _ hreach hk hx (reportsOn_of_flushOf hcall)⟩

/-- The background task has dropped the byte and has not set the sticky error yet: `flush` finds
nothing to send and nothing to report, and succeeds. -/
theorem loss_unheard : ∃ c x k, Reach (mountMachine smallSetup).step promised.Meets
      (Config.idle smallMount) c ∧ c.threads (.client .fuse) = .act (.dev (.reply x)) k ∧
    x.isError = false ∧ ReportsOn (c.state.call.map Call.cb) 1 ∧
    (0, ⟨0, [5], 0⟩) ∈ c.state.buf.pool.accepted 1 ∧ (0, ⟨0, [5], 0⟩) ∉ c.state.buf.pool.acked 1 ∧
    (0, ⟨0, [5], 0⟩) ∉ c.state.buf.reported 1 := by
  obtain ⟨c, hreach, hreply, hcall, hlost⟩ := Reach.of_check (mountMachine smallSetup).step
    promised.Meets (Config.idle smallMount) (agedOut ++ called (.flush 1) 6)
    (fun c => (replyOf c).map Answer.isError = some false ∧ flushOf c = some 1 ∧
      (0, ⟨0, [5], 0⟩) ∈ c.state.buf.pool.accepted 1 ∧ (0, ⟨0, [5], 0⟩) ∉ c.state.buf.pool.acked 1 ∧
      (0, ⟨0, [5], 0⟩) ∉ c.state.buf.reported 1)
    (by decide +kernel)
  obtain ⟨x, hreply, hx⟩ := Option.map_eq_some_iff.mp hreply
  obtain ⟨k, hk⟩ := exists_of_replyOf hreply
  exact ⟨c, x, k, hreach, hk, hx, reportsOn_of_flushOf hcall, hlost⟩

end QuicFs.System
