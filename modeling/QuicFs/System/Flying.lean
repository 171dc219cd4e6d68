import QuicFs.Client.Numbers
import QuicFs.Lib.Writeback
import QuicFs.System.Stats
import QuicFs.System.Writers

/-!
# Flushes in order

A flush is in order if sorting its chunks by offset does not change what they write and no other
handle of the file buffers an older chunk where they write (`World.InOrder`). `Flying` is about the
runs in which every flush is in order when it begins and no Write is given up: it is then in order
as long as it is in flight, and the flushes of two tasks on one file write to different places
(`Flying.apart`).
-/

namespace QuicFs.Client

open QuicFs.Lib

def topStop (es : List (Extent UInt8)) : Nat := (es.map Extent.stop).foldr max 0

theorem stop_le_topStop {es : List (Extent UInt8)} {e : Extent UInt8} (he : e ∈ es) :
    e.stop ≤ topStop es := by
  induction es with
  | nil => cases he
  | cons d es ih =>
    change e.stop ≤ max d.stop (topStop es)
    rcases List.mem_cons.mp he with rfl | he
    · exact Nat.le_max_left _ _
    · exact (ih he).trans (Nat.le_max_right _ _)

theorem offsetOrderAgrees_iff_below {es : List (Extent UInt8)} :
    OffsetOrderAgrees es ↔ ∀ p ∈ List.range (topStop es), topHit es p = lastHit es p := by
  rw [offsetOrderAgrees_iff]
  refine ⟨fun h p _ => h p, fun h p => ?_⟩
  by_cases hp : p < topStop es
  · exact h p (List.mem_range.mpr hp)
  · have hnone : lastHit es p = none := by
      refine lastHit_eq_none.mpr fun e he => Extent.hit_eq_none (.inr ?_)
      exact (stop_le_topStop he).trans (Nat.not_lt.mp hp)
    have htop : (topHit es p).isSome = (lastHit es p).isSome := by
      rw [← lastHit_insertionSort]
      exact lastHit_isSome_of_perm (List.perm_insertionSort _ _) p
    rw [hnone] at htop ⊢
    exact Option.isSome_eq_false_iff.mp htop |> Option.isNone_iff_eq_none.mp

instance (es : List (Extent UInt8)) : Decidable (OffsetOrderAgrees es) :=
  decidable_of_iff _ offsetOrderAgrees_iff_below.symm

end QuicFs.Client

namespace QuicFs.System

open Lib Client Server

def Tid.begins? : Tid → Act → Option Fh
  | .client _, .buf (.beginFlush fh) => some fh
  | _, _ => none

def Tid.awaits? : Tid → Act → Option Nat
  | .client _, .net (.await n) => some n
  | _, _ => none

/-- A flush of the handle would write what its chunks write, and nothing older is left behind. -/
def World.InOrder (w : World) (fh : Fh) : Prop :=
  OffsetOrderAgrees (chunkExtents (w.buf.pool.buf.queue fh)) ∧ ∀ t ∈ w.buf.pool.tags fh,
    w.NoneOlder fh t

instance (w : World) (fh : Fh) : Decidable (w.InOrder fh) := inferInstanceAs (Decidable (_ ∧ _))

/-- Flushes begin in order, and the answer to a Write comes. -/
def World.Orderly (w : World) (t : Tid) (a : Act) (ch : Chance) : Prop :=
  (∀ fh ∈ t.begins? a, w.buf.pool.buf.guarded fh = false → w.InOrder fh) ∧
  ∀ n ∈ t.awaits? a, ∀ rpc ∈ w.net.rpcs n, rpc.purpose.written?.isSome → ch.fail = false

instance (w : World) (t : Tid) (a : Act) (ch : Chance) : Decidable (w.Orderly t a ch) :=
  inferInstanceAs (Decidable (_ ∧ ∀ n ∈ t.awaits? a, _))

/-- The flushes in flight. -/
structure Flying (w : World) (_ : Clients) (_ : Streams) : Prop where
  agrees : ∀ {a f}, w.buf.pool.flight a = some f →
    OffsetOrderAgrees (chunkExtents (f.snapshot.map Prod.snd))
  bytes : ∀ {a f}, w.buf.pool.flight a = some f → byteCount (f.snapshot.map Prod.snd) < 2 ^ 64
  none_older : ∀ {a f}, w.buf.pool.flight a = some f → ∀ t ∈ f.snapshot, w.NoneOlder f.handle t
  kept : ∀ {n rpc fh}, w.net.rpcs n = some rpc → rpc.purpose = .write fh → rpc.givenUp = false
  numbered : w.buf.pool.Numbered

section
variable {S : Setup} {a b : Actor} {w w' : World} {p p' : Clients} {s s' : Streams} {ch : Chance}
    {kind : Callback → Bool}
  {n : Nat} {fh : Fh} {t : Tag} {f g : Flight} {rpc : Rpc}

theorem home_of_tags (hm : Mounted w p s) (ht : t ∈ w.buf.pool.tags fh) :
    (w.files.home fh).isSome :=
  (hm.opened.accepted (hm.opened.recorded.tags fh t ht)).1

theorem home_of_flight (hm : Mounted w p s) (hf : w.buf.pool.flight a = some f) :
    (w.files.home f.handle).isSome := by
  obtain ⟨t, ht⟩ := List.exists_mem_of_ne_nil _ (hm.tasks.ordered.flight_ok hf).2.1
  exact (hm.opened.accepted (hm.opened.recorded.flight hf t ht)).1

theorem World.NoneOlder.step (h : w.NoneOlder fh t) (hm : Mounted w p s)
    (hfh : (w.files.home fh).isSome) (ht : t.1 < w.buf.pool.next)
    (htags : ∀ k, ∀ u ∈ w'.buf.pool.tags k, u ∈ w.buf.pool.tags k ∨ w.buf.pool.next ≤ u.1)
    (hhome : ∀ k, (w.files.home k).isSome → w'.files.home k = w.files.home k) :
    w'.NoneOlder fh t := by
  intro k _ hne he u hu hlt
  rcases htags k u hu with hu | hnew
  · rw [hhome k (home_of_tags hm hu), hhome fh hfh] at he
    exact h k (mem_handles hm.tasks.ordered.toTagged hu) hne he u hu hlt
  · omega

/-- A step, given what is new in it. -/
theorem Flying.step (h : Flying w p s) (hm : Mounted w p s)
    (hflight : ∀ {a f}, w'.buf.pool.flight a = some f → w.buf.pool.flight a = some f ∨
      OffsetOrderAgrees (chunkExtents (f.snapshot.map Prod.snd)) ∧
      byteCount (f.snapshot.map Prod.snd) < 2 ^ 64 ∧
        ∀ t ∈ f.snapshot, w'.NoneOlder f.handle t)
    (htags : ∀ k, ∀ u ∈ w'.buf.pool.tags k, u ∈ w.buf.pool.tags k ∨ w.buf.pool.next ≤ u.1)
    (hhome : ∀ k, (w.files.home k).isSome → w'.files.home k = w.files.home k)
    (hkept : ∀ {n rpc fh}, w'.net.rpcs n = some rpc → rpc.purpose = .write fh →
      w.net.rpcs n = some rpc ∨
      rpc.givenUp = false)
    (hnum : w'.buf.pool.Numbered) : Flying w' p' s' where
  agrees hf := (hflight hf).elim (fun hf => h.agrees hf) (·.1)
  bytes hf := (hflight hf).elim (fun hf => h.bytes hf) (·.2.1)
  none_older {a f} hf t ht := by
    rcases hflight hf with hf | hnew
    · exact (h.none_older hf t ht).step hm (home_of_flight hm hf)
        ((hm.tasks.ordered.flight_ok hf).2.2 t ht) htags hhome
    · exact hnew.2.2 t ht
  kept hn hp := (hkept hn hp).elim (fun hn => h.kept hn hp) id
  numbered := hnum

theorem Flying.frame (h : Flying w p s) (hm : Mounted w p s) (hb : w'.buf.pool = w.buf.pool)
    (hf : w'.files.home = w.files.home)
    (hkept : ∀ {n rpc fh}, w'.net.rpcs n = some rpc → rpc.purpose = .write fh →
      w.net.rpcs n = some rpc ∨
      rpc.givenUp = false) : Flying w' p' s' :=
  h.step hm (fun hx => .inl (hb ▸ hx)) (fun _ _ hu => .inl (hb ▸ hu)) (fun _ _ => by rw [hf]) hkept
    (hb ▸ h.numbered)

theorem numbered_buf {op : BufAct} {r : op.Ret} {x : Buf} (hm : Mounted w p s)
    (hn : w.buf.pool.Numbered) (hpre : bufProtocol.pre (p a) op)
    (hx : op.exec a w.now ch.iter w.buf = some (r, x)) : x.pool.Numbered := by
  rcases exec_pool_step (hm.tasks.task a) hpre hx with e | ⟨pop, hstep, -⟩
  · rw [e]
    exact hn
  · exact Pool.numbered_step hn hstep

theorem flying_begin (h : Flying w p s) (hc : Carrying kind w p s)
    (hK : w.buf.pool.buf.guarded fh = false → w.InOrder fh)
    (hnum : (w.buf.pool.beginFlush a fh).Numbered) :
    Flying { w with buf := { w.buf with pool := w.buf.pool.beginFlush a fh } } p' s' := by
  rcases Pool.guarded_or_free w.buf.pool.buf fh with hg | ⟨hg, hq⟩
  · rw [Pool.beginFlush_of_refused hg]
    exact h.frame hc.mounted rfl rfl fun hn _ => .inl hn
  · obtain ⟨hagrees, hold⟩ := hK hg
    rw [Pool.beginFlush_of_free hg hq] at hnum ⊢
    refine h.step hc.mounted (fun {b f} hf => ?_) (fun _ _ hu => .inl hu) (fun _ _ => rfl)
      (fun hn _ => .inl hn) hnum
    simp only [Function.update_apply] at hf
    split at hf
    · obtain rfl := Option.some.inj hf
      refine .inr ⟨?_, ?_, fun t ht => ?_⟩
      · rw [hc.lossless.queue fh]
        exact hagrees
      · rw [hc.lossless.queue fh]
        exact hc.cleared.accounted.byteCount_queue_lt fh
      · exact (hold t ht).step hc.mounted (home_of_tags hc.mounted ht) (hc.lossless.tags_lt fh t ht)
          (fun _ _ hu => .inl hu) fun _ _ => rfl
    · exact .inl hf

theorem meets_servingToo {K : MountCond} {w₀ : World} {c : Config Act Act.Ret World Tid}
    (hr : Reach (mountMachine S).step K.Meets (Config.idle w₀) c) {l : Label Tid Chance Job Env}
    (hl : K.Meets c l) : (servingToo K).Meets c l := by
  cases l with
  | run t ch =>
    cases ht : c.threads t with
    | ret x => simp only [Cond.Meets, ht]
    | act a k =>
      simp only [Cond.Meets, ht] at hl ⊢
      refine ⟨hl, fun e hne => ?_⟩
      subst e
      rcases serving hr ht with ⟨cb, hcb⟩ | hcall
      · exact absurd hcb (hne cb)
      · exact hcall
  | start t job => exact hl
  | env e => exact hl

/-- What a task leaves buffered was buffered before, or it has a new number. -/
theorem client_tags {act : Act} {r : act.Ret} (hm : Mounted w p s)
    (hpre : (clientProtocol S.chunkSize).pre (p a) act)
    (he : World.exec S (.client a) act ch w = some (r, w')) :
    w.buf.pool.Feeds w'.buf.pool := by
  have hsame : w'.buf.pool = w.buf.pool → w.buf.pool.Feeds w'.buf.pool := by
    intro e
    rw [e]
    exact ⟨fun _ _ hu => .inl hu, Nat.le_refl _⟩
  cases act with
  | buf op =>
    obtain ⟨x, hx, rfl⟩ := exec_buf he
    rcases exec_pool_step (hm.tasks.task a) hpre hx with e | ⟨pop, hstep, -⟩
    · exact hsame e
    · exact Pool.tags_step hstep
  | files op => obtain ⟨f, -, rfl⟩ := exec_files he; exact hsame rfl
  | paths op => obtain ⟨t, rfl⟩ := exec_paths he; exact hsame rfl
  | cache op => obtain rfl := exec_cache he; exact hsame rfl
  | net op => exact hsame (by rw [(exec_net_frame he).buf])
  | dev op =>
    cases op with
    | recv cb => obtain rfl := exec_recv he; exact hsame rfl
    | reply x => obtain rfl := exec_reply he; exact hsame (replied_pool x)
  | accept | sys => exact hpre.elim

theorem flying_buf {op : BufAct} {r : op.Ret} (h : Flying w p s) (hc : Carrying kind w p s)
    (hpre : bufProtocol.pre (p a) op) (hK : w.Orderly (.client a) (.buf op) ch)
    (he : World.exec S (.client a) (.buf op) ch w = some (r, w')) : Flying w' p' s' := by
  have hact : (clientProtocol S.chunkSize).pre (p a) (.buf op) := hpre
  have htags := (client_tags hc.mounted hact he).1
  obtain ⟨x, hx, rfl⟩ := exec_buf he
  have hnum := numbered_buf hc.mounted h.numbered hpre hx
  -- a step that begins no flush
  have hstep : (∀ {b f}, x.pool.flight b = some f → w.buf.pool.flight b = some f) →
      Flying { w with buf := x } p' s' :=
    fun hf => h.step hc.mounted (fun hg => .inl (hf hg)) htags (fun _ _ => rfl)
      (fun hn _ => .inl hn) hnum
  cases op with
  | push k offset data =>
    obtain ⟨-, rfl⟩ := Prod.mk.inj (Option.some.inj hx)
    exact hstep fun hf => by rwa [Pool.flight_push] at hf
  | beginFlush k =>
    obtain ⟨-, rfl⟩ := Prod.mk.inj (Option.some.inj hx)
    exact flying_begin h hc (hK.1 k rfl) hnum
  | ackFlush k m =>
    obtain ⟨-, batch, hl, hn, -⟩ := hpre
    obtain ⟨f, hf, rfl, rfl⟩ := (hc.mounted.tasks.task a).flight_eq hl
    obtain rfl := exec_ackFlush hf hn hx
    refine hstep fun hg => ?_
    simp only [Pool.ackFlush, Function.update_apply] at hg
    split at hg
    · cases hg
    · exact hg
  | failFlush k =>
    obtain ⟨-, batch, hl⟩ := hpre
    obtain ⟨f, hf, rfl, rfl⟩ := (hc.mounted.tasks.task a).flight_eq hl
    obtain rfl := exec_failFlush hx
    refine hstep fun hg => ?_
    simp only [Pool.failFlush, Function.update_apply] at hg
    split at hg
    · cases hg
    · exact hg
  | dropHandle k =>
    obtain ⟨-, rfl⟩ := Prod.mk.inj (Option.some.inj hx)
    refine hstep fun hg => ?_
    simp only [Pool.dropHandle, Function.update_apply] at hg
    split at hg
    · next e => exact e ▸ (Option.mem_filter_iff.mp hg).1
    · exact hg
  | stickyInsert k | stickyRemove k =>
    obtain ⟨-, rfl⟩ := Prod.mk.inj (Option.some.inj hx)
    exact hstep id
  | _ =>
    obtain rfl := exec_look hx trivial
    exact hstep id

theorem home_files {op : FileAct} {r : op.Ret} (hm : Mounted w p s)
    (hpre : fileProtocol.pre (p a) op)
    (he : World.exec S (.client a) (.files op) ch w = some (r, w')) (k : Fh)
    (hk : (w.files.home k).isSome) : w'.files.home k = w.files.home k := by
  obtain ⟨i, hi⟩ := Option.isSome_iff_exists.mp hk
  rw [hi]
  exact (recalls_files hm hpre he).home hi

theorem fail_of_await (he : World.exec S (.client a) (.net (.await n)) ch w = some (none, w')) :
    ch.fail = true := by
  change NetAct.exec S a ch w (.await n) = some (none, w') at he
  simp only [NetAct.exec] at he
  split at he
  · cases he
  · split at he
    · assumption
    · split at he <;> cases he

theorem flying_net {op : NetAct} {r : op.Ret} (h : Flying w p s) (hm : Mounted w p s)
    (hK : w.Orderly (.client a) (.net op) ch)
    (he : World.exec S (.client a) (.net op) ch w = some (r, w')) : Flying w' p' s' := by
  have hf := exec_net_frame he
  refine h.frame hm (by rw [hf.buf]) (by rw [hf.files]) fun {m x fh} hx hp => ?_
  cases op with
  | send session request more purpose =>
    rcases exec_send he with ⟨-, rfl⟩ | ⟨-, rfl⟩
    · exact .inl hx
    · rcases post_cases hx with ⟨-, rfl⟩ | hx
      · exact .inr rfl
      · exact .inl hx
  | await n =>
    obtain ⟨rpc, hn, ⟨rfl, rfl⟩ | ⟨resp, -, -, rfl⟩⟩ := exec_await he
    · rcases setRpc_cases hx with ⟨rfl, rfl⟩ | ⟨-, hx⟩
      · -- a Write is not given up
        have hno := hK.2 m rfl rpc hn (by rw [show rpc.purpose = .write fh from hp]; rfl)
        rw [fail_of_await he] at hno
        cases hno
      · exact .inl hx
    · rcases setRpc_cases hx with ⟨rfl, rfl⟩ | ⟨-, hx⟩
      · have hp : rpc.purpose = .write fh := hp
        have hno := h.kept hn hp
        exact .inr hno
      · exact .inl hx
  | _ => exact .inl ((exec_net_quiet he trivial).1 ▸ hx)

theorem flying_keeps {K : MountCond} (hK : ∀ {w t a ch}, K.run w t a ch → w.Orderly t a ch) :
    Keeps S K (Carrying kind) Flying where
  client {a act ch r w w' p s} hc h hpre hrun he := by
    cases act with
    | buf op => exact flying_buf h hc hpre (hK hrun) he
    | files op =>
      have hhome := home_files hc.mounted hpre he
      obtain ⟨f, -, rfl⟩ := exec_files he
      exact h.step hc.mounted .inl (fun _ _ hu => .inl hu) hhome (fun hn _ => .inl hn) h.numbered
    | paths op =>
      obtain ⟨t, rfl⟩ := exec_paths he
      exact h.frame hc.mounted rfl rfl fun hn _ => .inl hn
    | cache op =>
      obtain rfl := exec_cache he
      exact h.frame hc.mounted rfl rfl fun hn _ => .inl hn
    | dev op =>
      cases op with
      | recv cb =>
        obtain rfl := exec_recv he
        exact h.frame hc.mounted rfl rfl fun hn _ => .inl hn
      | reply x =>
        obtain rfl := exec_reply he
        exact h.frame hc.mounted (replied_pool x) rfl fun hn _ => .inl hn
    | net op => exact flying_net h hc.mounted (hK hrun) he
    | accept | sys => exact hpre.elim
  accept hc h _ _ he := by
    obtain ⟨rpc, hn, -, -, rfl⟩ := exec_accept he
    refine h.frame hc.mounted rfl rfl fun {m x fh} hx hp => ?_
    rcases setRpc_cases hx with ⟨rfl, rfl⟩ | ⟨-, hx⟩
    · have hp : rpc.purpose = .write fh := hp
      have hno := h.kept hn hp
      exact .inr hno
    · exact .inl hx
  sys hc h _ _ _ he := by
    obtain ⟨host, -, rfl⟩ := exec_sys he
    exact h.frame hc.mounted rfl rfl fun hn _ => .inl hn
  task hc h _ _ := h.frame hc.mounted rfl rfl fun hn _ => .inl hn
  stream hc h _ := h.frame hc.mounted rfl rfl fun hn _ => .inl hn
  env {e _ _ _} hc h _ := by
    cases e <;> exact h.frame hc.mounted rfl rfl fun hn _ => .inl hn

theorem flying_init (S : Setup) (fs : Fs) (epoch : UInt32) (root : Path)
    (perHandle total window : Nat) :
    Flying (.init S fs epoch root perHandle total window) (fun _ => {}) fun _ => none where
  agrees hf := by cases hf
  bytes hf := by cases hf
  none_older hf := by cases hf
  kept hn := by cases hn
  numbered := Pool.numbered_init _

/-! ## Where the flushes write -/

theorem hit_of_lastHit {ts : List Tag} {q : Nat}
    (hq : (lastHit (chunkExtents (ts.map Prod.snd)) q).isSome) :
    ∃ t ∈ ts, (t.2.extent.hit q).isSome := by
  obtain ⟨e, he, hhit⟩ := lastHit_isSome.mp hq
  obtain ⟨c, hc, rfl⟩ := List.mem_map.mp he
  obtain ⟨t, ht, rfl⟩ := List.mem_map.mp hc
  exact ⟨t, ht, hhit⟩

theorem Flying.covers (h : Flying w p s) (hm : Mounted w p s) (hf : w.buf.pool.flight a = some f)
    {run : UInt64 × Bytes} (hrun : run ∈ f.batch.chunks) {q : Nat}
    (hq : ((extentOf run).hit q).isSome) : ∃ t ∈ f.snapshot, (t.2.extent.hit q).isSome := by
  refine hit_of_lastHit ?_
  rw [← batchOf_covers (h.bytes hf), ← hm.opened.recorded.batch hf]
  exact lastHit_isSome.mpr ⟨_, List.mem_map_of_mem hrun, hq⟩

theorem Flying.lastHit_batch (h : Flying w p s) (hm : Mounted w p s)
    (hf : w.buf.pool.flight a = some f) (q : Nat) :
    lastHit (extentsOf f.batch.chunks) q = lastHit (chunkExtents (f.snapshot.map Prod.snd)) q := by
  rw [hm.opened.recorded.batch hf, lastHit_batchOf (h.bytes hf)]
  exact offsetOrderAgrees_iff.mp (h.agrees hf) q

theorem tags_of_snapshot (hl : w.buf.pool.Lossless) (hf : w.buf.pool.flight a = some f)
    (ht : t ∈ f.snapshot) : t ∈ w.buf.pool.tags f.handle :=
  (hl.live hf (hl.buffered hf)).1.subset ht

/-- **Two flushes on one file write to different places.** -/
theorem Flying.apart (h : Flying w p s) (hc : Carrying kind w p s)
    (hf : w.buf.pool.flight a = some f) (hg : w.buf.pool.flight b = some g) (hne : a ≠ b)
    (hhome : w.files.home g.handle = w.files.home f.handle) {t u : Tag} (ht : t ∈ f.snapshot)
    (hu : u ∈ g.snapshot) {q : Nat} (htq : (t.2.extent.hit q).isSome) :
    u.2.extent.hit q = none := by
  by_contra hno
  have huq : (u.2.extent.hit q).isSome := Option.isSome_iff_ne_none.mpr hno
  have hhandle : f.handle ≠ g.handle := fun e => hne (hc.lossless.one hf hg e)
  have ht' := tags_of_snapshot hc.lossless hf ht
  have hu' := tags_of_snapshot hc.lossless hg hu
  have htagged := hc.lossless.toTagged
  rcases Nat.lt_trichotomy t.1 u.1 with hlt | heq | hlt
  · exact h.none_older hg u hu f.handle (mem_handles htagged ht') hhandle hhome.symm t ht' hlt
      (overlap_of_hit htq huq)
  · refine hhandle (h.numbered.apart (hc.mounted.opened.recorded.flight hf t ht) ?_ heq)
    exact hc.mounted.opened.recorded.flight hg u hu
  · exact h.none_older hf t ht g.handle (mem_handles htagged hu') hhandle.symm hhome u hu' hlt
      (overlap_of_hit huq htq)

end

end QuicFs.System
