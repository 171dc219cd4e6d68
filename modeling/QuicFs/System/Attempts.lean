import QuicFs.System.Rpcs

/-!
# Attempts that come late

A Write that the client has given up on is not withdrawn: the server may take it up at any
later time. `InTime` holds in the runs in which a frame is applied only while the chunks of its
attempt are still buffered and no flush is acknowledged over an older write of another handle;
in these no attempt of an older write touches what a later one has written and the server has
acknowledged (`acked_not_overwritten`). In others it does: `late_attempt_overwrites`.
-/

namespace QuicFs.System

open Lib Client Server Function

def Overlap (u t : PendingWrite) : Prop :=
  max u.extent.off t.extent.off < min u.extent.stop t.extent.stop

instance (u t : PendingWrite) : Decidable (Overlap u t) := inferInstanceAs (Decidable (_ < _))

theorem overlap_of_hit {u t : PendingWrite} {p : Nat} (hu : (u.extent.hit p).isSome)
    (ht : (t.extent.hit p).isSome) : Overlap u t := by
  have h1 := Extent.hit_isSome.mp hu
  have h2 := Extent.hit_isSome.mp ht
  unfold Overlap
  omega

def Purpose.written? : Purpose → Option Fh
  | .write fh => some fh
  | _ => none

/-- The other handles of the file that `fh` is open on buffer nothing older than `t` where `t`
writes. -/
def World.NoneOlder (w : World) (fh : Fh) (t : Tag) : Prop :=
  ∀ fh' ∈ w.buf.pool.buf.handles, fh' ≠ fh → w.files.home fh' = w.files.home fh →
    ∀ u ∈ w.buf.pool.tags fh', u.1 < t.1 → ¬Overlap u.2 t.2

instance (w : World) (fh : Fh) (t : Tag) : Decidable (w.NoneOlder fh t) :=
  inferInstanceAs (Decidable (∀ fh' ∈ w.buf.pool.buf.handles, _))

/-- The chunks an RPC was sent for are all buffered. -/
def World.AllBuffered (w : World) (rpc : Rpc) : Prop :=
  ∀ fh ∈ rpc.purpose.written?, ∀ u ∈ rpc.snapshot, u ∈ w.buf.pool.tags fh

instance (w : World) (rpc : Rpc) : Decidable (w.AllBuffered rpc) :=
  inferInstanceAs (Decidable (∀ fh ∈ rpc.purpose.written?, _))

def Tid.writes? : Tid → Act → Option Nat
  | .stream n, .sys (.writeAt ..) => some n
  | _, _ => none

/-- The task that acknowledges a flush, and its handle. -/
def Tid.acks? : Tid → Act → Option (Actor × Fh)
  | .client a, .buf (.ackFlush fh _) => some (a, fh)
  | _, _ => none

/-- The frames of a Write are applied while its chunks are buffered, and a flush is acknowledged
when no other handle of the file buffers an older write to the same place. -/
def InTime : MountCond where
  run w t a _ :=
    (∀ n ∈ t.writes? a, ∀ rpc ∈ w.net.rpcs n, w.AllBuffered rpc) ∧
    ∀ x ∈ t.acks? a, ∀ f ∈ w.buf.pool.flight x.1, ∀ t ∈ f.snapshot, w.NoneOlder x.2 t
  start := promisedStart
  env _ _ := True

instance : InTime.Checkable where
  run w t a _ := inferInstanceAs (Decidable (
    (∀ n ∈ t.writes? a, ∀ rpc ∈ w.net.rpcs n, w.AllBuffered rpc) ∧
    ∀ x ∈ t.acks? a, ∀ f ∈ w.buf.pool.flight x.1, ∀ t ∈ f.snapshot, w.NoneOlder x.2 t))
  start w t job := inferInstanceAs (Decidable (promisedStart w t job))
  env _ _ := isTrue trivial

/-- What a handle has had acknowledged is not older than what the other handles of its file
still buffer in the same place. -/
structure Overtakes (w : World) (_ : Clients) (_ : Streams) : Prop where
  none_older : ∀ {fh fh'}, fh ≠ fh' → (w.files.home fh).isSome →
    w.files.home fh' = w.files.home fh →
    ∀ t ∈ w.buf.pool.acked fh', ∀ u ∈ w.buf.pool.tags fh, u.1 < t.1 → ¬Overlap u.2 t.2

section
variable {S : Setup} {a : Actor} {w w' : World} {p p' : Clients} {s s' : Streams}

theorem mem_handles {q : Pool Actor} (ht : q.Tagged) {fh : Fh} {u : Tag} (hu : u ∈ q.tags fh) :
    fh ∈ q.buf.handles := by
  have hne : q.buf.queue fh ≠ [] := by
    rw [← ht.queue fh]
    exact List.ne_nil_of_mem (List.mem_map_of_mem hu)
  by_contra hno
  refine hne ?_
  unfold WriteBuffer.queue
  rw [AList.lookup_eq_none.mpr hno]
  rfl

theorem Overtakes.frame (h : Overtakes w p s) (hh : w'.files.home = w.files.home)
    (ht : ∀ fh, ∀ u ∈ w'.buf.pool.tags fh, u ∈ w.buf.pool.tags fh)
    (ha : w'.buf.pool.acked = w.buf.pool.acked) : Overtakes w' p' s' := by
  refine ⟨fun {fh fh'} hne hs he t hta u hu => ?_⟩
  rw [hh] at hs he
  rw [ha] at hta
  exact h.none_older hne hs he t hta u (ht fh u hu)

theorem overtakes_push {fh : Fh} {offset : UInt64} {data : Bytes} {now : Instant} {iter : List Fh}
    (h : Overtakes w p s) (hm : Mounted w p s) :
    Overtakes { w with buf := { w.buf with pool := w.buf.pool.push fh offset data now iter } } p'
      s' := by
  by_cases hr : (w.buf.pool.buf.push fh offset data now iter).1 = .reject
  · rw [Pool.push_of_reject hr]
    exact h.frame rfl (fun _ _ hu => hu) rfl
  refine ⟨fun {k k'} hne hs he t ht u hu => ?_⟩
  rw [Pool.push_of_accept hr] at ht hu
  simp only [update_apply] at hu
  split at hu
  · next e =>
    rcases List.mem_append.mp hu with hu | hu
    · exact h.none_older hne hs he t ht u (e ▸ hu)
    · -- the new chunk is newer than anything acknowledged
      intro hlt
      obtain rfl := List.mem_singleton.mp hu
      exact absurd hlt (Nat.lt_asymm (hm.tasks.ordered.acked_lt k' t ht).1)
  · exact h.none_older hne hs he t ht u hu

theorem overtakes_buf {op : BufAct} {r : op.Ret} {ch : Chance} (hm : Mounted w p s)
    (h : Overtakes w p s) (hpre : bufProtocol.pre (p a) op)
    (hK : InTime.run w (.client a) (.buf op) ch)
    (he : World.exec S (.client a) (.buf op) ch w = some (r, w')) : Overtakes w' p' s' := by
  obtain ⟨x, hx, rfl⟩ := exec_buf he
  cases op with
  | push fh offset data =>
    obtain ⟨-, rfl⟩ := Prod.mk.inj (Option.some.inj hx)
    exact overtakes_push h hm
  | beginFlush fh =>
    obtain ⟨-, rfl⟩ := Prod.mk.inj (Option.some.inj hx)
    refine h.frame rfl (fun k u hu => ?_) ?_
    all_goals rcases Pool.guarded_or_free w.buf.pool.buf fh with hr | ⟨hg, hq⟩
    · simpa only [Pool.beginFlush_of_refused hr] using hu
    · simpa only [Pool.beginFlush_of_free hg hq] using hu
    · simp only [Pool.beginFlush_of_refused hr]
    · simp only [Pool.beginFlush_of_free hg hq]
  | ackFlush fh n =>
    obtain ⟨-, batch, hl, hn, -⟩ := hpre
    obtain ⟨f, hf, rfl, rfl⟩ := (hm.tasks.task a).flight_eq hl
    obtain rfl := exec_ackFlush hf hn hx
    have hsub : ∀ k, ∀ u ∈ (w.buf.pool.ackFlush a f).tags k, u ∈ w.buf.pool.tags k := by
      intro k u hu
      simp only [Pool.ackFlush, update_apply] at hu
      split at hu
      · next e => exact e ▸ List.mem_of_mem_drop hu
      · exact hu
    refine ⟨fun {k k'} hne hs he t ht u hu => ?_⟩
    simp only [Pool.ackFlush, update_apply] at ht
    split at ht
    · next e =>
      subst e
      rcases List.mem_append.mp ht with ht | ht
      · exact h.none_older hne hs he t ht u (hsub k u hu)
      · have hu' := hsub k u hu
        exact hK.2 _ rfl f hf t ht k (mem_handles hm.tasks.ordered.toTagged hu') hne he.symm u hu'
    · exact h.none_older hne hs he t ht u (hsub k u hu)
  | failFlush fh =>
    obtain ⟨-, rfl⟩ := Prod.mk.inj (Option.some.inj hx)
    exact h.frame rfl (fun _ _ hu => hu) rfl
  | dropHandle fh =>
    obtain ⟨-, rfl⟩ := Prod.mk.inj (Option.some.inj hx)
    refine h.frame rfl (fun k u hu => ?_) rfl
    simp only [Pool.dropHandle, update_apply] at hu
    split at hu
    · cases hu
    · exact hu
  | stickyInsert fh | stickyRemove fh =>
    obtain ⟨-, rfl⟩ := Prod.mk.inj (Option.some.inj hx)
    exact h.frame rfl (fun _ _ hu => hu) rfl
  | _ =>
    obtain rfl := exec_look hx trivial
    exact h.frame rfl (fun _ _ hu => hu) rfl

theorem overtakes_insert {fh : Fh} {file : OpenFile} {home : Ino} {base : Fh → Bytes}
    (hm : Mounted w p s) (h : Overtakes w p s) (hf : (p a).fresh = some fh) :
    Overtakes { w with files := { w.files with
      opened := update w.files.opened fh (some file)
      home := update w.files.home fh (some home)
      base } } p' s' := by
  have hnone : w.files.home fh = none := ((hm.opened.task a).fresh fh hf).2
  have hempty : ∀ t, t ∉ w.buf.pool.accepted fh := by
    intro t ht
    have := (hm.opened.accepted ht).1
    rw [hnone] at this
    cases this
  refine ⟨fun {k k'} hne hs he t ht u hu => ?_⟩
  have hk : k ≠ fh := by
    rintro rfl
    exact hempty u (hm.opened.recorded.tags _ u hu)
  have hk' : k' ≠ fh := by
    rintro rfl
    exact hempty t (hm.opened.recorded.acked _ t ht)
  simp only [update_of_ne hk, update_of_ne hk'] at hs he
  exact h.none_older hne hs he t ht u hu

theorem overtakes_keeps : Keeps S InTime Mounted Overtakes where
  client {a act ch r w w' p s} hm h hpre hK he := by
    cases act with
    | buf op => exact overtakes_buf hm h hpre hK he
    | files op =>
      obtain ⟨f, hx, rfl⟩ := exec_files he
      cases op with
      | insert fh file home =>
        obtain ⟨-, rfl⟩ := Prod.mk.inj hx
        exact overtakes_insert hm h hpre.1
      | _ =>
        obtain ⟨-, rfl⟩ := Prod.mk.inj hx
        exact h.frame rfl (fun _ _ hu => hu) rfl
    | paths op =>
      obtain ⟨t, rfl⟩ := exec_paths he
      exact h.frame rfl (fun _ _ hu => hu) rfl
    | cache op =>
      obtain rfl := exec_cache he
      exact h.frame rfl (fun _ _ hu => hu) rfl
    | dev op =>
      cases op with
      | recv cb =>
        obtain rfl := exec_recv he
        exact h.frame rfl (fun _ _ hu => hu) rfl
      | reply x =>
        obtain rfl := exec_reply he
        exact h.frame rfl (fun _ _ hu => by rwa [replied_pool] at hu) (by rw [replied_pool])
    | net op =>
      have hf := exec_net_frame he
      exact h.frame (by rw [hf.files]) (fun _ _ hu => by rwa [hf.buf] at hu) (by rw [hf.buf])
    | accept | sys => exact hpre.elim
  accept _ h _ _ he := by
    obtain ⟨rpc, -, -, -, rfl⟩ := exec_accept he
    exact h.frame rfl (fun _ _ hu => hu) rfl
  sys _ h _ _ _ he := by
    obtain ⟨host, -, rfl⟩ := exec_sys he
    exact h.frame rfl (fun _ _ hu => hu) rfl
  task _ h _ _ := h.frame rfl (fun _ _ hu => hu) rfl
  stream _ h _ := h.frame rfl (fun _ _ hu => hu) rfl
  env {e _ _ _} _ h _ := by
    cases e <;> exact h.frame rfl (fun _ _ hu => hu) rfl

end

/-- **A late attempt does not overwrite newer data**, in the runs that are in time. When a stream
is about to apply a frame of a Write, whatever chunk the Write was sent for is not older than an
acknowledged write to the same file at a common position. -/
theorem acked_not_overwritten (S : Setup) (fs : Fs) (epoch : UInt32) (root : Path)
    (perHandle total window : Nat) {c : Config Act Act.Ret World Tid}
    (h : Reach (mountMachine S).step InTime.Meets
      (Config.idle (.init S fs epoch root perHandle total window)) c)
    {n : Nat} {f : File} {offset : UInt64} {data : Bytes} {append : Bool}
    {k : Option IoErrorKind → Task Unit} {ch : Chance}
    (hn : c.threads (.stream n) = .act (.sys (.writeAt f offset data append)) k)
    (hK : InTime.Meets c (.run (.stream n) ch)) {rpc : Rpc} {fh : Fh}
    (hrpc : c.state.net.rpcs n = some rpc) (hp : rpc.purpose = .write fh) :
    ∀ fh', c.state.files.home fh' = c.state.files.home fh → ∀ t ∈ c.state.buf.pool.acked fh',
      ∀ u ∈ rpc.snapshot, ∀ p, (u.2.extent.hit p).isSome → (t.2.extent.hit p).isSome →
      t.1 ≤ u.1 := by
  have hmounted : Keeps S InTime (fun _ _ _ => True) Mounted :=
    mounted_keeps.mono (fun _ => trivial) id id id
  obtain ⟨l, s, ⟨hm, ho⟩, -⟩ := mount_sound (hmounted.and overtakes_keeps)
    ⟨mounted_init S fs epoch root perHandle total window, ⟨fun _ _ _ t ht => by cases ht⟩⟩ h
  intro fh' he t ht u hu p hup htp
  have hbuf : u ∈ c.state.buf.pool.tags fh := by
    have hK : InTime.run c.state (.stream n) (.sys (.writeAt f offset data append)) ch := by
      simpa only [Cond.Meets, hn] using hK
    exact hK.1 n rfl rpc hrpc fh (by rw [hp]; rfl) u hu
  by_contra hlt
  rw [Nat.not_le] at hlt
  by_cases e : fh = fh'
  · subst e
    exact absurd hlt (Nat.lt_asymm ((hm.tasks.ordered.acked_lt fh t ht).2 u hbuf))
  · have hhome := (hm.opened.accepted (hm.opened.recorded.tags fh u hbuf)).1
    exact ho.none_older e hhome he t ht u hbuf hlt (overlap_of_hit hup htp)

def writeOf (c : Config Act Act.Ret World Tid) (n : Nat) : Option (File × UInt64 × Bytes × Bool) :=
  match c.threads (.stream n) with
  | .act (.sys (.writeAt f offset data append)) _ => some (f, offset, data, append)
  | _ => none

theorem exists_of_writeOf {c : Config Act Act.Ret World Tid} {n : Nat} {f : File} {offset : UInt64}
    {data : Bytes} {append : Bool} (h : writeOf c n = some (f, offset, data, append)) :
    ∃ k, c.threads (.stream n) = .act (.sys (.writeAt f offset data append)) k := by
  unfold writeOf at h
  split at h
  · next k hk =>
    cases h
    exact ⟨k, hk⟩
  · cases h

/-- The first write, and the flush of it that the background task has begun. -/
def firstFlush : List MountLabel :=
  createA ++ called (.write 1 0 [5]) 5 ++ .env (.tick 20) :: ticked 7

/-- A second write to the same place, and the flush of it that the background task has begun. -/
def secondFlush : List MountLabel := called (.write 1 0 [6]) 5 ++ .env (.tick 20) :: ticked 7

/-- The second byte on the same position, after the first was acknowledged. -/
theorem acked_not_overwritten_in_turn : ∃ c rpc, Reach (mountMachine smallSetup).step InTime.Meets
      (Config.idle smallMount) c ∧ c.state.net.rpcs 2 = some rpc ∧
    (0, ⟨0, [5], 0⟩) ∈ c.state.buf.pool.acked 1 ∧ ∀ t ∈ c.state.buf.pool.acked 1,
    ∀ u ∈ rpc.snapshot,
      ∀ p, (u.2.extent.hit p).isSome → (t.2.extent.hit p).isSome → t.1 ≤ u.1 := by
  obtain ⟨c, hreach, hwrite, hrpc, hacked, hK⟩ := Reach.of_check (mountMachine smallSetup).step
    InTime.Meets
    (Config.idle smallMount)
      (firstFlush ++ taken 1 6 ++ acts (.client .bg) 2 ++ secondFlush ++ taken 2 3)
    (fun c => writeOf c 2 = some (⟨2, .rdwr⟩, 0, [6], false) ∧
      (c.state.net.rpcs 2).map Rpc.purpose = some (.write 1) ∧
      (0, ⟨0, [5], 0⟩) ∈ c.state.buf.pool.acked 1 ∧ InTime.Meets c (.run (.stream 2) {}))
    (by decide +kernel)
  obtain ⟨rpc, hrpc, hpurpose⟩ := Option.map_eq_some_iff.mp hrpc
  obtain ⟨k, hk⟩ := exists_of_writeOf hwrite
  exact ⟨c, rpc, hreach, hrpc, hacked,
    acked_not_overwritten smallSetup _ _ _ _ _ _ hreach hk hK hrpc hpurpose 1 rfl⟩

/-- The background task gives up on the first Write; a second write to the same place is flushed
and acknowledged, and then the server takes up the first. -/
theorem late_attempt_overwrites : ∃ c c', Reach (mountMachine smallSetup).step promised.Meets
      (Config.idle smallMount) c ∧ (1, ⟨0, [6], 20⟩) ∈ c.state.buf.pool.acked 1 ∧
    c.state.host.fs.content 2 = some [6] ∧
    (mountMachine smallSetup).step c (.run (.stream 1) {}) = some c' ∧
    c'.state.host.fs.content 2 = some [5] := by
  obtain ⟨c, hreach, hacked, hbefore, hafter⟩ := Reach.of_check (mountMachine smallSetup).step
    promised.Meets (Config.idle smallMount)
    (firstFlush ++ .run (.client .bg) { fail := true } :: acts (.client .bg) 2 ++ secondFlush ++
      taken 2 6 ++ acts (.client .bg) 4 ++ taken 3 6 ++ acts (.client .bg) 2 ++ taken 1 3)
    (fun c => (1, ⟨0, [6], 20⟩) ∈ c.state.buf.pool.acked 1 ∧ c.state.host.fs.content 2 = some [6] ∧
      ((mountMachine smallSetup).step c (.run (.stream 1) {})).map (·.state.host.fs.content 2) =
        some (some [5]))
    (by decide +kernel)
  obtain ⟨c', hstep, hafter⟩ := Option.map_eq_some_iff.mp hafter
  exact ⟨c, c', hreach, hacked, hbefore, hstep, hafter⟩

end QuicFs.System
