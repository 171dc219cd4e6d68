import QuicFs.System.Protocol

/-!
# The tasks of a mount follow their protocols

Every callback and the two flush tasks follow the protocol of `Protocol.lean`: `serve_follows`,
`backgroundTick_follows`, `unmountFlush_follows`.
-/

namespace QuicFs.System

open Lib Client Server

/-- Serving a callback, between two flushes. -/
structure ClientPhase.Idle (cb : Callback) (l : ClientPhase) : Prop extends l.AtRest where
  cb : l.cb = some cb
  fresh : l.fresh = none

/-- A callback is done and may reply. -/
structure ClientPhase.Done (l : ClientPhase) (a : Answer) : Prop where
  cb : l.cb.isSome
  flight : l.flight = none
  left : l.left = []
  rpc : l.rpc = none
  fresh : l.fresh = none
  owes : ∀ fh, l.owes = some fh → l.cb = some (.release fh)
  answer : l.MayAnswer a

def Callback.Free : Callback → Prop
  | .flush _ | .fsync .. | .release _ | .read .. => False
  | _ => True

section
variable {chunkSize : UInt32} {l l' : ClientPhase} {cb : Callback}

theorem ClientPhase.Ext.idle (h : l.Ext l') (hl : l.Idle cb) : l'.Idle cb :=
  ⟨h.atRest hl.toAtRest, h.cb.trans hl.cb, h.fresh.trans hl.fresh⟩

theorem ClientPhase.Idle.listed (hl : l.Idle cb) (hs : Option (List Fh)) :
    { l with listed := hs }.Idle cb := ⟨⟨hl.flight, hl.left, hl.rpc, hl.owes⟩, hl.cb, hl.fresh⟩

theorem ClientPhase.Idle.answered (hl : l.Idle cb) (p : Purpose) (r : Response) :
    (l.answered p r).Idle cb := by
  cases p <;> exact ⟨⟨hl.flight, hl.left, hl.rpc, hl.owes⟩, hl.cb, hl.fresh⟩

theorem ClientPhase.Idle.done (hl : l.Idle cb) {a : Answer} (ha : l.MayAnswer a) : l.Done a :=
  ⟨by simp [hl.cb], hl.flight, hl.left, hl.rpc, hl.fresh, by simp [hl.owes], ha⟩

theorem ClientPhase.Idle.done_of_free (hl : l.Idle cb) (hcb : cb.Free) (a : Answer) : l.Done a := by
  refine hl.done ?_
  unfold ClientPhase.MayAnswer
  rw [hl.cb]
  cases cb <;> trivial

theorem follows_withPath {ino : FuseIno} {k : Path → Task Answer} {Q : ClientPhase → Answer → Prop}
    (hnone : Q l (.error .enoent)) (hk : ∀ path, TaskFollows chunkSize l (k path) Q) :
    TaskFollows chunkSize l (withPath ino k) Q := by
  refine ⟨trivial, fun (path : Option Path) _ => ?_⟩
  cases path with
  | none => exact hnone
  | some path => exact hk path

/-- The outcome of one RPC with attributes, in the callbacks that only change names and
attributes. -/
theorem viaStat_follows {path : Path} {purpose : Purpose} {request : UInt64 → Request}
    (hl : l.Idle cb) (hm : ∀ seq, l.MaySend chunkSize (request seq) [] purpose)
    (hr : ∀ fh, purpose ≠ .read fh) (hw : ∀ fh, purpose ≠ .write fh) :
    TaskFollows chunkSize l (viaStat path purpose request) fun l' _ => l'.Idle cb := by
  refine TaskFollows.bind (rpcStat_follows hl.rpc hm hr hw) fun l' r h => ?_
  have hl' : l'.Idle cb := by
    rcases h.1 with rfl | ⟨resp, rfl⟩
    · exact hl
    · exact hl.answered _ _
  rcases r with e | ⟨resp, st⟩
  · exact hl'
  · exact ⟨trivial, fun _ _ => hl'⟩

theorem viaStatus_follows {request : UInt64 → Request} {done : PathAct} (hl : l.Idle cb)
    (hm : ∀ seq, PlainRequest (request seq)) :
    TaskFollows chunkSize l (viaStatus request done) fun l' _ => l'.Idle cb := by
  refine TaskFollows.bind (rpc_follows hl.rpc hm (fun _ => nofun) fun _ => nofun) fun l' r h => ?_
  cases r with
  | error e => exact h ▸ hl
  | ok r =>
    have hl' : l'.Idle cb := h ▸ hl.answered _ _
    exact ⟨trivial, fun _ _ => hl'⟩

/-! ## Fences and attributes -/

theorem counted_idle (hl : l.Idle cb) (n : Nat) : (l.counted n).Idle cb := by
  unfold ClientPhase.counted
  split
  · exact hl.listed _
  · exact hl

theorem flushAllHandles_idle (hl : l.Idle cb) :
    TaskFollows chunkSize l (flushAllHandles chunkSize) fun l' r =>
      l'.Idle cb ∧ (r = .ok () → l'.Fenced) := by
  refine (flushAllHandles_follows hl.toAtRest).mono fun l' r h => ?_
  obtain ⟨hs, hext, hf⟩ := h
  exact ⟨hext.idle (hl.listed _), hf⟩

theorem fenceTruncatingOpen_follows (flags : UInt32) (hl : l.Idle cb) :
    TaskFollows chunkSize l (fenceTruncatingOpen chunkSize flags) fun l' r =>
      l'.Idle cb ∧ (r = .ok () → bit flags oTrunc = true → l'.Fenced) := by
  unfold fenceTruncatingOpen
  split
  · next hno =>
    refine ⟨hl, fun _ ht => ?_⟩
    simp [ht] at hno
  · refine follows_totalBytes hl.rpc fun total => ?_
    have hl' := counted_idle hl total
    split
    · next hz =>
      subst hz
      exact ⟨hl', fun _ _ => ⟨[], rfl, by simp⟩⟩
    · exact (flushAllHandles_idle hl').mono fun _ _ h => ⟨h.1, fun hr _ => h.2 hr⟩

theorem fenceSetattr_follows (size : Option UInt64) (fh : Option Fh) (hl : l.Idle cb) :
    TaskFollows chunkSize l (fenceSetattr chunkSize size fh) fun l' r =>
      l'.Idle cb ∧
      (r = .ok () → size.isSome → (fh = none → l'.Fenced) ∧ ∀ h ∈ fh, h ∈ l'.flushed) := by
  unfold fenceSetattr
  split
  · exact ⟨hl, nofun⟩
  · next fh =>
    refine (flushHandle_follows hl.toAtRest).mono fun l' r h =>
      ⟨h.1.idle hl, fun hr _ => ⟨nofun, ?_⟩⟩
    rintro _ ⟨⟩
    exact h.2 hr
  · exact (flushAllHandles_idle hl).mono fun l' r h => ⟨h.1, fun hr _ => ⟨fun _ => h.2 hr, nofun⟩⟩

theorem flushPending_follows (hl : l.Idle cb) :
    TaskFollows chunkSize l (flushPending chunkSize) fun l' ok => l'.Idle cb ∧
      (ok = true → l'.Fenced) := by
  refine follows_totalBytes hl.rpc fun total => ?_
  have hl' := counted_idle hl total
  split
  · refine TaskFollows.bind (flushAllHandles_idle hl') fun l' r h => ?_
    cases r with
    | ok _ => exact ⟨h.1, fun _ => h.2 rfl⟩
    | error e => exact ⟨h.1, nofun⟩
  · next hz =>
    obtain rfl : total = 0 := Nat.eq_zero_of_not_pos hz
    exact ⟨hl', fun _ => ⟨[], rfl, by simp⟩⟩

theorem getStat_follows (path : Path) (hl : l.Idle cb) (hcb : cb.looksUp = true) :
    TaskFollows chunkSize l (getStat chunkSize path) fun l' _ => l'.Idle cb := by
  refine TaskFollows.bind (flushPending_follows hl) fun l1 flushOk h1 => ?_
  obtain ⟨hl1, hfence⟩ := h1
  refine follows_call trivial fun (c : Option (Option (Ino × Node))) => ?_
  rcases c with _ | _ | st
  · refine TaskFollows.bind (rpcStat_follows hl1.rpc (fun _ => trivial) (fun _ => nofun)
      fun _ => nofun) fun l' r h => ?_
    have hl' : l'.Idle cb := by
      rcases h.1 with rfl | ⟨resp, rfl⟩
      · exact hl1
      · exact hl1.answered _ _
    rcases r with e | ⟨resp, st⟩
    · dsimp only
      split
      · exact ⟨trivial, fun _ _ => hl'⟩
      · exact hl'
    · obtain ⟨rfl, hst⟩ := h.2 resp st rfl
      dsimp only
      split
      · next hok =>
        have hstat : (l1.answered .other resp).stat = some st := (if_pos (hfence hok)).trans hst
        exact ⟨⟨⟨cb, hl1.cb, hcb⟩, hstat⟩, fun _ _ => hl'⟩
      · exact hl'
  · exact hl1
  · exact hl1

theorem attrOf_follows (path : Path) (hl : l.Idle cb) (hcb : cb.looksUp = true) :
    TaskFollows chunkSize l (attrOf chunkSize path) fun l' _ => l'.Idle cb := by
  refine TaskFollows.bind (getStat_follows path hl hcb) fun l' r hl' => ?_
  cases r with
  | ok st => exact ⟨trivial, fun _ _ => hl'⟩
  | error e => exact hl'

theorem validBits_none (mode uid gid : Option UInt32) (atime mtime : Option Int64) :
    bit (validBits mode uid gid none atime mtime) 0x8 = false := by
  unfold validBits
  generalize mode.isSome = a, uid.isSome = b, gid.isSome = c, atime.isSome = d, mtime.isSome = e
  revert a b c d e
  decide

theorem setattr_follows {ino : FuseIno} {mode uid gid : Option UInt32} {size : Option UInt64}
    {atime mtime : Option Int64} {fh : Option Fh}
    (hl : l.Idle (.setattr ino mode uid gid size atime mtime fh)) :
    TaskFollows chunkSize l (setattr chunkSize ino mode uid gid size atime mtime fh)
      fun l' _ => l'.Idle (.setattr ino mode uid gid size atime mtime fh) := by
  refine follows_withPath hl fun path => ?_
  refine TaskFollows.bind (fenceSetattr_follows size fh hl) fun l1 r h => ?_
  cases r with
  | error e => exact h.1
  | ok _ =>
    have hf := h.2 rfl
    cases size with
    | none => exact viaStat_follows h.1 (fun _ => validBits_none ..) (fun _ => nofun) fun _ => nofun
    | some size =>
      refine viaStat_follows h.1 (fun seq => ?_) (fun _ => nofun) fun _ => nofun
      have hserves : l1.Serves Callback.truncates := ⟨_, h.1.cb, rfl⟩
      cases fh with
      | none => exact ⟨(hf rfl).1 rfl, hserves, seq, path, _, _, _, _, _, rfl⟩
      | some fh => exact ⟨(hf rfl).2 fh rfl, hserves, seq, path, _, _, _, _, _, rfl⟩

/-! ## Files -/

theorem registerOpen_follows {path : Path} {flags : UInt32} {handle : ServerHandle} {home : Ino}
    (hl : l.Idle cb) (ho : l.opened = some (handle, home)) :
    TaskFollows chunkSize l (registerOpen path flags handle home) fun l' _ => l'.Idle cb := by
  refine ⟨hl.fresh, fun (fh : Fh) _ => follows_reconnectGen fun gen => ?_⟩
  exact ⟨⟨rfl, ho⟩, fun _ _ => ⟨⟨hl.flight, hl.left, hl.rpc, hl.owes⟩, hl.cb, rfl⟩⟩

/-- The handle and the inode of an Open or Create that was answered `Ok`. -/
theorem opening_follows {request : UInt64 → Request} (hl : l.Idle cb)
    (hm : ∀ seq, l.MaySend chunkSize (request seq) [] .open) :
    TaskFollows chunkSize l (rpcStat .open request) fun l' r =>
      l'.Idle cb ∧ ∀ resp st, r = .ok (resp, st) → l'.opened = some (resp.handle, st.1) := by
  refine (rpcStat_follows hl.rpc hm (fun _ => nofun) fun _ => nofun).mono fun l' r h => ⟨?_, ?_⟩
  · rcases h.1 with rfl | ⟨resp, rfl⟩
    · exact hl
    · exact hl.answered _ _
  · intro resp st hr
    obtain ⟨rfl, hst⟩ := h.2 resp st hr
    simp [ClientPhase.answered, hst]

theorem openFile_follows {ino : FuseIno} {flags : UInt32} (hl : l.Idle cb) :
    TaskFollows chunkSize l (openFile chunkSize ino flags) fun l' _ => l'.Idle cb := by
  refine follows_withPath hl fun path => ?_
  refine TaskFollows.bind (fenceTruncatingOpen_follows flags hl) fun l1 r h => ?_
  cases r with
  | error e => exact h.1
  | ok _ =>
    refine TaskFollows.bind (opening_follows h.1 fun seq => .inl ⟨seq, path, flags, rfl⟩)
      fun l2 r h2 => ?_
    rcases r with e | ⟨resp, st⟩
    · exact h2.1
    · exact TaskFollows.bind (registerOpen_follows h2.1 (h2.2 resp st rfl)) fun l3 fh hl3 => hl3

theorem create_follows {parent : FuseIno} {name : Name} {mode flags : UInt32}
    (hl : l.Idle (.create parent name mode flags)) :
    TaskFollows chunkSize l (create chunkSize parent name mode flags)
      fun l' _ => l'.Idle (.create parent name mode flags) := by
  refine follows_withPath hl fun path => ?_
  refine TaskFollows.bind (fenceTruncatingOpen_follows flags hl) fun l1 r h => ?_
  cases r with
  | error e => exact h.1
  | ok _ =>
    refine TaskFollows.bind
      (opening_follows h.1 fun seq => .inr ⟨seq, _, flags, mode, rfl, fun ht =>
        ⟨h.2 rfl ht, _, h.1.cb, ht⟩⟩)
      fun l2 r h2 => ?_
    rcases r with e | ⟨resp, st⟩
    · exact h2.1
    · refine TaskFollows.bind (registerOpen_follows h2.1 (h2.2 resp st rfl)) fun l3 fh hl3 => ?_
      exact ⟨trivial, fun _ _ => hl3⟩

theorem read_follows {fh : Fh} {offset : UInt64} {size : UInt32}
    (hl : l.Idle (.read fh offset size)) :
    TaskFollows chunkSize l (read chunkSize fh offset size) fun l' a => l'.Done a := by
  have herr : ∀ (l' : ClientPhase) e, l'.Idle (.read fh offset size) → l'.Done (.error e) := by
    intro l' e hl'
    refine hl'.done ?_
    unfold ClientPhase.MayAnswer
    rw [hl'.cb]
    exact fun _ h => by cases h
  refine TaskFollows.bind (flushHandle_follows hl.toAtRest) fun l1 r h1 => ?_
  have hl1 := h1.1.idle hl
  cases r with
  | error e => exact herr _ _ hl1
  | ok _ =>
    refine TaskFollows.bind (ensureLive_follows hl1.toAtRest true) fun l2 r h2 => ?_
    have hl2 := h2.1.idle hl1
    have hf : fh ∈ l2.flushed := h2.1.flushed (h1.2 rfl)
    cases r with
    | none => exact herr _ _ hl2
    | some handle =>
      refine TaskFollows.bind (connRead_follows hl2.rpc hf (h2.2 handle rfl) hl2.cb)
        fun l3 r h3 => ?_
      have hl3 : l3.Idle (.read fh offset size) := by
        rw [h3.1]
        exact ⟨⟨hl2.flight, hl2.left, hl2.rpc, hl2.owes⟩, hl2.cb, hl2.fresh⟩
      cases r with
      | error e => exact herr _ _ hl3
      | ok data =>
        refine hl3.done ?_
        unfold ClientPhase.MayAnswer
        rw [hl3.cb]
        rintro d ⟨⟩
        refine ⟨(h3.2 data rfl).1, (h3.2 data rfl).2, ?_⟩
        rw [h3.1]
        exact hf

theorem settled_of_rest {fh : Fh} (hl : l.AtRest) : l.settled fh = l := by
  have ho := hl.owes
  cases l
  simp_all [ClientPhase.settled]

theorem write_follows {fh : Fh} {offset : UInt64} {data : Bytes}
    (hl : l.Idle (.write fh offset data)) :
    TaskFollows chunkSize l (write chunkSize fh offset data)
      fun l' _ => l'.Idle (.write fh offset data) := by
  refine TaskFollows.bind (ensureLive_follows hl.toAtRest true) fun l1 _ h1 => ?_
  have hl1 := h1.1.idle hl
  refine follows_push hl1.cb hl1.flight fun d => ?_
  generalize hl2 : ({ l1 with flushed := [], empty := [], listed := none } : ClientPhase) = l2
  have hi : l2.Idle (.write fh offset data) :=
    hl2 ▸ ⟨⟨hl1.flight, hl1.left, hl1.rpc, hl1.owes⟩, hl1.cb, hl1.fresh⟩
  have hflush : ∀ h, TaskFollows chunkSize l2
      (flushHandle chunkSize h >>= fun _ => .ret (Answer.written data.length))
      fun l' _ => l'.Idle (.write fh offset data) := fun h =>
    TaskFollows.bind (flushHandle_follows hi.toAtRest) fun l' _ h' => h'.1.idle hi
  cases d with
  | buffered => exact hi
  | flushThis h => exact hflush h
  | flushOther h => exact hflush h
  | reject =>
    refine follows_stickyInsert ?_
    rw [settled_of_rest hi.toAtRest]
    exact hi

/-- An outcome of `Ok` is on an empty buffer without a sticky error. -/
theorem drainReply_follows {fh : Fh} (hl : l.Idle cb) (hc : ClientPhase.Closes (some cb) fh)
    (hs : l.sticky = none) :
    TaskFollows chunkSize l (drainReply chunkSize fh) fun l' r =>
      l'.Idle cb ∧ ∃ b, l'.sticky = some b ∧ (b = true → r ≠ .ok ()) := by
  refine TaskFollows.bind (drainRounds_follows 500 hl.toAtRest) fun l1 r h1 => ?_
  have hl1 := h1.1.idle hl
  have hs1 : l1.sticky = none := h1.1.sticky.trans hs
  have hc1 : ClientPhase.Closes l1.cb fh := hl1.cb ▸ hc
  cases r with
  | ok _ =>
    refine follows_stickyRemove hc1 hs1 fun b => ?_
    refine ⟨⟨⟨hl1.flight, hl1.left, hl1.rpc, hl1.owes⟩, hl1.cb, hl1.fresh⟩, _, rfl, ?_⟩
    intro hb hr
    obtain rfl := (flushReply_eq_ok.mp hr).2
    simp [h1.2 rfl] at hb
  | error e =>
    refine follows_stickyRemove hc1 hs1 fun b => ?_
    refine ⟨⟨⟨hl1.flight, hl1.left, hl1.rpc, hl1.owes⟩, hl1.cb, hl1.fresh⟩, _, rfl, ?_⟩
    exact fun _ => by simp [flushReply]

theorem flush_follows {fh : Fh} (hl : l.Idle (.flush fh)) (hs : l.sticky = none) :
    TaskFollows chunkSize l (flush chunkSize fh) fun l' a => l'.Done a := by
  refine TaskFollows.bind (drainReply_follows hl (.inl rfl) hs) fun l' r h => ?_
  obtain ⟨hl', b, hb, hok⟩ := h
  cases r with
  | error e =>
    refine hl'.done ?_
    unfold ClientPhase.MayAnswer
    rw [hl'.cb]
    exact ⟨b, hb, fun _ => rfl⟩
  | ok _ =>
    refine hl'.done ?_
    unfold ClientPhase.MayAnswer
    rw [hl'.cb]
    exact ⟨b, hb, fun ht => absurd rfl (hok ht)⟩

theorem fsync_follows {fh : Fh} {datasync : Bool} (hl : l.Idle (.fsync fh datasync))
    (hs : l.sticky = none) :
    TaskFollows chunkSize l (fsync chunkSize fh datasync) fun l' a => l'.Done a := by
  have hdone : ∀ (l' : ClientPhase) b a, l'.Idle (.fsync fh datasync) → l'.sticky = some b →
      (b = true → a.isError = true) → l'.Done a := by
    intro l' b a hl' hb ha
    refine hl'.done ?_
    unfold ClientPhase.MayAnswer
    rw [hl'.cb]
    exact ⟨b, hb, ha⟩
  refine TaskFollows.bind (drainReply_follows hl (.inr (.inl ⟨datasync, rfl⟩)) hs) fun l1 r h => ?_
  obtain ⟨hl1, b, hb, hok⟩ := h
  cases r with
  | error e => exact hdone _ b _ hl1 hb fun _ => rfl
  | ok _ =>
    refine TaskFollows.bind (ensureLive_follows hl1.toAtRest true) fun l2 r h2 => ?_
    have hl2 := h2.1.idle hl1
    have hb2 : l2.sticky = some b := h2.1.sticky.trans hb
    cases r with
    | none => exact hdone _ b _ hl2 hb2 fun _ => rfl
    | some handle =>
      refine TaskFollows.bind (rpc_follows hl2.rpc (fun _ => trivial) (fun _ => nofun)
        fun _ => nofun) fun l3 r h3 => ?_
      cases r with
      | error e => exact hdone _ b _ (h3 ▸ hl2) (h3 ▸ hb2) fun _ => rfl
      | ok r => exact hdone _ b _ (h3 ▸ hl2.answered _ r) (h3 ▸ hb2) fun ht => absurd rfl (hok ht)

theorem release_follows {fh : Fh} (hl : l.Idle (.release fh)) (hs : l.sticky = none) :
    TaskFollows chunkSize l (release chunkSize fh) fun l' a => l'.Done a := by
  refine TaskFollows.bind (drainRounds_follows 500 hl.toAtRest) fun l1 _ h1 => ?_
  have hl1 := h1.1.idle hl
  refine follows_stickyRemove (.inr (.inr hl1.cb)) (h1.1.sticky.trans hs) fun b => ?_
  refine ⟨hl1.cb, fun (file : Option OpenFile) _ => ?_⟩
  generalize hl2 : (clientProtocol chunkSize).next (l1.tookSticky fh b) (.files (.remove fh)) file =
    l2
  have hi : l2.Idle (.release fh) :=
    hl2 ▸ ⟨⟨hl1.flight, hl1.left, hl1.rpc, hl1.owes⟩, hl1.cb, hl1.fresh⟩
  have hrem : l2.removed = true := hl2 ▸ rfl
  show TaskFollows chunkSize l2 _ _
  refine follows_dropHandle hi.owes hi.rpc (by simp [hi.flight]) fun m => ?_
  -- the reply ends what the task owes for the chunks it dropped here
  have hdone : ∀ st, { l2.dropped fh m with stat := st }.Done .ok := by
    intro st
    have hcb : { l2.dropped fh m with stat := st }.cb = some (.release fh) := hi.cb
    refine ⟨Option.isSome_iff_exists.mpr ⟨_, hcb⟩, rfl, rfl, hi.rpc, hi.fresh, fun k hk => ?_, ?_⟩
    · change (if 0 < m then some fh else l2.owes) = some k at hk
      rw [hi.owes] at hk
      split at hk
      · cases hk; exact hcb
      · cases hk
    · unfold ClientPhase.MayAnswer
      rw [hcb]
      exact hrem
  cases file with
  | none => exact hdone _
  | some f =>
    refine TaskFollows.bind (rpc_follows hi.rpc (fun _ => trivial) (fun _ => nofun)
      fun _ => nofun) fun l3 r h3 => ?_
    cases r with
    | error e => exact h3 ▸ hdone _
    | ok r => exact h3 ▸ hdone _

/-- **Every callback follows the protocol.** -/
theorem callback_follows (cb : Callback) :
    TaskFollows chunkSize { cb := some cb } (callback chunkSize cb) fun l' a => l'.Done a := by
  have hl : ClientPhase.Idle cb { cb := some cb } := ⟨⟨rfl, rfl, rfl, rfl⟩, rfl, rfl⟩
  have hfree : ∀ {p : Task Answer}, cb.Free →
      TaskFollows chunkSize { cb := some cb } p (fun l' _ => l'.Idle cb) →
      TaskFollows chunkSize { cb := some cb } p fun l' a => l'.Done a :=
    fun hcb h => h.mono fun l' a hl' => hl'.done_of_free hcb a
  cases cb with
  | lookup parent name => exact hfree trivial (follows_withPath hl fun p => attrOf_follows _ hl rfl)
  | getattr ino => exact hfree trivial (follows_withPath hl fun p => attrOf_follows _ hl rfl)
  | setattr => exact hfree trivial (setattr_follows hl)
  | mkdir | symlink =>
    exact hfree trivial (follows_withPath hl fun p =>
      viaStat_follows hl (fun _ => trivial) (fun _ => nofun) fun _ => nofun)
  | unlink | rmdir =>
    exact hfree trivial (follows_withPath hl fun p => viaStatus_follows hl fun _ => trivial)
  | rename =>
    exact hfree trivial (follows_withPath hl fun p => follows_withPath hl fun p' =>
      viaStatus_follows hl fun _ => trivial)
  | link =>
    exact hfree trivial (follows_withPath hl fun p => follows_withPath hl fun p' =>
      viaStat_follows hl (fun _ => trivial) (fun _ => nofun) fun _ => nofun)
  | «open» => exact hfree trivial (openFile_follows hl)
  | create => exact hfree trivial (create_follows hl)
  | write => exact hfree trivial (write_follows hl)
  | read => exact read_follows hl
  | flush => exact flush_follows hl rfl
  | fsync => exact fsync_follows hl rfl
  | release => exact release_follows hl rfl

/-- Between two jobs. -/
structure ClientPhase.Rested (l : ClientPhase) : Prop extends l.AtRest where
  fresh : l.fresh = none
  cb : l.cb = none

theorem serve_follows (cb : Callback) :
    TaskFollows chunkSize { cb := some cb } (serve chunkSize cb) fun l' _ => l'.Rested := by
  refine ⟨rfl, fun _ _ => ?_⟩
  refine TaskFollows.bind (callback_follows cb) fun l' a h => ?_
  exact ⟨⟨h.cb, h.flight, h.rpc, h.owes, h.answer⟩,
    fun _ _ => ⟨⟨h.flight, h.left, h.rpc, rfl⟩, h.fresh, rfl⟩⟩

/-! ## The flush tasks -/

theorem ClientPhase.Ext.rested (h : l.Ext l') (hl : l.Rested) : l'.Rested :=
  ⟨h.atRest hl.toAtRest, h.fresh.trans hl.fresh, h.cb.trans hl.cb⟩

theorem dropOld_follows (hs : List Fh) (hl : l.Rested) :
    TaskFollows chunkSize l (dropOld hs) fun l' _ => l'.Rested := by
  induction hs with
  | nil => exact hl
  | cons fh hs ih =>
    refine follows_dropHandle hl.owes hl.rpc (by simp [hl.flight]) fun m => ?_
    split
    · refine follows_stickyInsert ?_
      rw [settled_dropped hl.owes, hl.ended]
      exact ih
    · next hm =>
      obtain rfl : m = 0 := by omega
      rw [dropped_zero hl.toAtRest]
      exact ih

theorem flushList_follows (allowReopen : Bool) (hs : List Fh) : ∀ {l : ClientPhase}, l.Rested →
    TaskFollows chunkSize l (flushList chunkSize allowReopen hs) fun l' _ => l'.Rested := by
  induction hs with
  | nil => exact id
  | cons fh hs ih =>
    intro l hl
    refine TaskFollows.bind (flushAttempts_follows allowReopen 2 .other hl.toAtRest)
      fun l' _ h => ?_
    exact ih (h.1.rested hl)

theorem backgroundTick_follows (hl : l.Rested) :
    TaskFollows chunkSize l (backgroundTick chunkSize) fun l' _ => l'.Rested := by
  refine ⟨trivial, fun (tooOld : List Fh) _ => ?_⟩
  refine TaskFollows.bind (dropOld_follows tooOld hl) fun l' _ hl' => ?_
  exact ⟨trivial, fun (expired : List Fh) _ => flushList_follows false expired hl'⟩

theorem unmountFlush_follows (hl : l.Rested) :
    TaskFollows chunkSize l (unmountFlush chunkSize) fun l' _ => l'.Rested := by
  refine ⟨hl.rpc, fun (hs : List Fh) _ => flushList_follows true hs ?_⟩
  exact ⟨⟨hl.flight, hl.left, hl.rpc, hl.owes⟩, hl.fresh, hl.cb⟩

end

end QuicFs.System
