import QuicFs.Server.Discipline
import QuicFs.System.Callbacks

/-!
# What the client's tasks may do

The protocol of a task. Its phase records the flush it has begun and the runs of it that have not
been acknowledged, the RPC it waits for, the server handles it knows for each open file, the handles
it has flushed or found empty in this callback, and what it learnt about the sticky error. A task
acknowledges a flush only when every run was answered `Ok`, sends Reads and Writes only on handles
it knows, sends a truncating RPC only behind its fence, caches attributes only behind one, and
replies `ok` to `flush` and `fsync` only on an empty buffer without a sticky error.

This module has the rules for the RPCs and the flushes, `Discipline.lean` those for the
callbacks and the flush tasks; every result about whole runs is then about the protocol.
-/

namespace QuicFs.System

open Lib Client Server

structure ClientPhase where
  /-- The callback being served. -/
  cb : Option Callback := none
  /-- The flush it has begun. -/
  flight : Option (Fh × FlushBatch) := none
  /-- The runs of the flush that have not been answered `Ok`. -/
  left : List (UInt64 × Bytes) := []
  /-- The RPC it waits for. -/
  rpc : Option (Nat × Purpose) := none
  /-- Server handles of open files. -/
  known : List (Fh × ServerHandle) := []
  /-- The server handle and the inode of a file just opened. -/
  opened : Option (ServerHandle × Ino) := none
  /-- A client handle that is not registered yet. -/
  fresh : Option Fh := none
  /-- Chunks of this handle were dropped and the sticky error is not set yet. -/
  owes : Option Fh := none
  /-- Handles with nothing left to send, or whose guard another task held. -/
  flushed : List Fh := []
  /-- The handles that may have had chunks when the fence began. -/
  listed : Option (List Fh) := none
  /-- Handles found to have no chunk. -/
  empty : List Fh := []
  /-- When the sticky error was taken: whether it was set or the buffer not known to be empty. -/
  sticky : Option Bool := none
  /-- The file was taken from the open files. -/
  removed : Bool := false
  /-- The Read it collects the frames of, what it has of it, and whether that is all. -/
  reading : Option Nat := none
  got : Bytes := []
  readDone : Bool := false
  /-- The attributes in the last answer of `Ok`, if it came behind a fence. -/
  stat : Option (Ino × Node) := none

/-- Requests that open no file, read or write none and truncate none. -/
def PlainRequest : Request → Prop
  | .setAttr _ _ valid .. => bit valid 0x8 = false
  | .open .. | .create .. | .read .. | .write .. => False
  | _ => True

def Callback.truncates : Callback → Bool
  | .setattr _ _ _ _ size _ _ _ => size.isSome
  | .create _ _ _ flags => bit flags oTrunc
  | _ => false

def Callback.looksUp : Callback → Bool
  | .lookup .. | .getattr _ => true
  | _ => false

namespace ClientPhase

def Serves (l : ClientPhase) (kind : Callback → Bool) : Prop := ∃ cb ∈ l.cb, kind cb = true

/-- Every handle that may have had chunks has been flushed. -/
def Fenced (l : ClientPhase) : Prop := ∃ hs ∈ l.listed, ∀ h ∈ hs, h ∈ l.flushed

instance (l : ClientPhase) : Decidable l.Fenced :=
  inferInstanceAs (Decidable (∃ hs ∈ l.listed, _))

/-- What must hold for an RPC to be sent. -/
def MaySend (chunkSize : UInt32) (l : ClientPhase) (request : Request) (more : List WriteRequest) :
    Purpose → Prop
  | .other => PlainRequest request
  | .open =>
    (∃ seq path flags, request = .open seq path flags) ∨
    ∃ seq path flags mode, request = .create seq path flags mode ∧
      (bit flags oTrunc = true → l.Fenced ∧ l.Serves Callback.truncates)
  | .reopen _ => ∃ seq path flags, request = .open seq path flags
  | .read fh => fh ∈ l.flushed ∧ ∃ seq handle offset length,
      request = .read seq handle offset length ∧ (fh, handle) ∈ l.known ∧
      l.cb = some (.read fh offset length)
  | .write fh => ∃ seq first handle offset data runs batch, request = .write seq first ∧
      first :: more = writeFrames chunkSize handle offset data ∧ (fh, handle) ∈ l.known ∧
      l.left = (offset, data) :: runs ∧ l.flight = some (fh, batch)
  | .truncate none => l.Fenced ∧ l.Serves Callback.truncates ∧
      ∃ seq path valid mode size atime mtime,
      request = .setAttr seq path valid mode size atime mtime
  | .truncate (some fh) => fh ∈ l.flushed ∧ l.Serves Callback.truncates ∧
      ∃ seq path valid mode size atime mtime,
        request = .setAttr seq path valid mode size atime mtime

/-- The callback ends the use of a handle or reports on it. -/
def Closes (cb : Option Callback) (fh : Fh) : Prop :=
  cb = some (.flush fh) ∨ (∃ datasync, cb = some (.fsync fh datasync)) ∨ cb = some (.release fh)

def MayAnswer (l : ClientPhase) (a : Answer) : Prop :=
  match l.cb with
  | some (.flush _) | some (.fsync ..) => ∃ b, l.sticky = some b ∧ (b = true → a.isError = true)
  | some (.release _) => l.removed = true
  | some (.read fh _ _) => ∀ d, a = .data d → d = l.got ∧ l.readDone = true ∧ fh ∈ l.flushed
  | _ => True

/-- The phase after an answer from the network, `none` if the task gave up. -/
def received (l : ClientPhase) (r : Option Response) : ClientPhase :=
  match l.rpc, r with
  | none, none => { l with reading := none }
  | none, some r =>
    if r.status = .ok then { l with got := l.got ++ r.data, readDone := r.eof }
    else { l with reading := none }
  | some _, none => { l with rpc := none }
  | some (_, .write _), some r =>
    { l with rpc := none, left := if r.status = .ok then l.left.tail else l.left }
  | some (_, .open), some r =>
    { l with
      rpc := none
      opened := if r.status = .ok then r.stat.map fun st => (r.handle, st.1) else l.opened }
  | some (_, .reopen fh), some r =>
    { l with
      rpc := none
      known := if r.status = .ok ∧ r.stat.isSome then (fh, r.handle) :: l.known else l.known }
  | some _, some r =>
    { l with rpc := none, stat := if r.status = .ok then (if l.Fenced then r.stat else none)
      else l.stat }

/-- The phase after `drop_handle` freed `n` bytes. -/
def dropped (l : ClientPhase) (fh : Fh) (n : Nat) : ClientPhase :=
  { l with flight := none, left := [], owes := if 0 < n then some fh else l.owes }

def settled (l : ClientPhase) (fh : Fh) : ClientPhase :=
  { l with owes := if l.owes = some fh then none else l.owes }

def tookSticky (l : ClientPhase) (fh : Fh) (wasSet : Bool) : ClientPhase :=
  { l with sticky := some (wasSet || !decide (fh ∈ l.empty)) }

/-- The phase after `has_buffered`. -/
def looked (l : ClientPhase) (fh : Fh) (buffered : Bool) : ClientPhase :=
  if buffered then l else { l with empty := fh :: l.empty, flushed := fh :: l.flushed }

/-- The phase after `total_bytes`. -/
def counted (l : ClientPhase) (n : Nat) : ClientPhase :=
  if n = 0 then { l with listed := some [] } else l

/-- The phase after `begin_flush`. -/
def begun (l : ClientPhase) (fh : Fh) (batch : Option FlushBatch) : ClientPhase :=
  match batch with
  | some batch => { l with flight := some (fh, batch), left := batch.chunks }
  | none => { l with flushed := fh :: l.flushed }

def found (l : ClientPhase) (fh : Fh) (file : Option OpenFile) : ClientPhase :=
  match file with
  | some f => { l with known := (fh, f.serverHandle) :: l.known }
  | none => l

/-- The phase after an RPC was sent, `none` if it was not. -/
def sent (l : ClientPhase) (purpose : Purpose) (n : Option Nat) : ClientPhase :=
  match n, purpose with
  | none, _ => l
  | some n, .read _ => { l with reading := some n, got := [], readDone := false }
  | some n, p => { l with rpc := some (n, p) }

end ClientPhase

def bufProtocol : Protocol BufAct BufAct.Ret ClientPhase where
  pre l a :=
    match a with
    | .push fh offset data => l.cb = some (.write fh offset data) ∧ l.flight = none
    | .beginFlush _ => l.flight = none ∧ l.rpc = none
    | .ackFlush fh n =>
      l.rpc = none ∧ ∃ batch, l.flight = some (fh, batch) ∧ n = batch.sentCount ∧ l.left = []
    | .failFlush fh => l.rpc = none ∧ ∃ batch, l.flight = some (fh, batch)
    | .dropHandle fh => l.owes = none ∧ l.rpc = none ∧ ∀ f ∈ l.flight, f.1 = fh
    | .hasBuffered _ | .handles | .totalBytes => l.rpc = none
    | .stickyRemove fh => ClientPhase.Closes l.cb fh ∧ l.sticky = none
    | _ => True
  post _ _ _ := True
  next l a r :=
    match a, r with
    | .push .., _ => { l with flushed := [], empty := [], listed := none }
    | .beginFlush fh, r => l.begun fh r
    | .ackFlush fh _, _ => { l with flight := none, flushed := fh :: l.flushed }
    | .failFlush _, _ => { l with flight := none, left := [] }
    | .dropHandle fh, r => l.dropped fh r
    | .hasBuffered fh, r => l.looked fh r
    | .handles, r => { l with listed := some r }
    | .totalBytes, r => l.counted r
    | .stickyInsert fh, _ => l.settled fh
    | .stickyRemove fh, r => l.tookSticky fh r
    | .olderThan _, _ | .expiredHandles, _ => l

def fileProtocol : Protocol FileAct FileAct.Ret ClientPhase where
  pre l a :=
    match a with
    | .restamp fh handle _ => (fh, handle) ∈ l.known
    | .nextFh => l.fresh = none
    | .insert fh file home => l.fresh = some fh ∧ l.opened = some (file.serverHandle, home)
    | .remove fh => l.cb = some (.release fh)
    | .get _ => True
  post _ _ _ := True
  next l a r :=
    match a, r with
    | .get fh, r => l.found fh r
    | .nextFh, r => { l with fresh := some r }
    | .insert .., _ => { l with fresh := none }
    | .remove _, _ => { l with removed := true }
    | .restamp .., _ => l

def netProtocol (chunkSize : UInt32) : Protocol NetAct NetAct.Ret ClientPhase where
  pre l a :=
    match a with
    | .send _ request more purpose => l.rpc = none ∧ l.MaySend chunkSize request more purpose
    | .await n =>
      (∃ p, l.rpc = some (n, p)) ∨ l.rpc = none ∧ l.reading = some n ∧ l.readDone = false
    | _ => True
  post _ _ _ := True
  next l a r :=
    match a, r with
    | .send _ _ _ purpose, r => l.sent purpose r
    | .await _, r => l.received r
    | _, _ => l

def clientProtocol (chunkSize : UInt32) : Protocol Act Act.Ret ClientPhase where
  pre l a :=
    match a with
    | .buf op => bufProtocol.pre l op
    | .files op => fileProtocol.pre l op
    | .net op => (netProtocol chunkSize).pre l op
    | .dev (.recv cb) => l.cb = some cb
    | .dev (.reply a) => l.cb.isSome ∧ l.flight = none ∧ l.rpc = none ∧
      (∀ fh, l.owes = some fh → l.cb = some (.release fh)) ∧ l.MayAnswer a
    | .cache (.insert _ st) => l.Serves Callback.looksUp ∧ l.stat = some st
    | .paths _ | .cache _ => True
    | .accept | .sys _ => False
  post _ _ _ := True
  next l a r :=
    match a, r with
    | .buf op, r => bufProtocol.next l op r
    | .files op, r => fileProtocol.next l op r
    | .net op, r => (netProtocol chunkSize).next l op r
    | .dev (.reply _), _ => { l with cb := none, owes := none }
    | _, _ => l

/-! ## Phases that only grow -/

/-- The task has only learnt handles, and flushed some. -/
structure ClientPhase.Ext (l l' : ClientPhase) : Prop where
  eq : l' = { l with known := l'.known, flushed := l'.flushed, empty := l'.empty }
  known : l.known ⊆ l'.known
  flushed : l.flushed ⊆ l'.flushed
  empty : l.empty ⊆ l'.empty

/-- Between two flushes. -/
structure ClientPhase.AtRest (l : ClientPhase) : Prop where
  flight : l.flight = none
  left : l.left = []
  rpc : l.rpc = none
  owes : l.owes = none

section
variable {l l' l'' : ClientPhase}

namespace ClientPhase.Ext

theorem refl (l : ClientPhase) : l.Ext l := ⟨rfl, fun _ h => h, fun _ h => h, fun _ h => h⟩

theorem trans (h : l.Ext l') (h' : l'.Ext l'') : l.Ext l'' where
  eq := by rw [h'.eq, h.eq]
  known := fun _ hx => h'.known (h.known hx)
  flushed := fun _ hx => h'.flushed (h.flushed hx)
  empty := fun _ hx => h'.empty (h.empty hx)

theorem cb (h : l.Ext l') : l'.cb = l.cb := by rw [h.eq]

theorem sticky (h : l.Ext l') : l'.sticky = l.sticky := by rw [h.eq]

theorem fresh (h : l.Ext l') : l'.fresh = l.fresh := by rw [h.eq]

theorem listed (h : l.Ext l') : l'.listed = l.listed := by rw [h.eq]

theorem flight (h : l.Ext l') : l'.flight = l.flight := by rw [h.eq]

theorem left (h : l.Ext l') : l'.left = l.left := by rw [h.eq]

theorem rpc (h : l.Ext l') : l'.rpc = l.rpc := by rw [h.eq]

theorem atRest (h : l.Ext l') (hl : l.AtRest) : l'.AtRest := by
  rw [h.eq]
  exact ⟨hl.flight, hl.left, hl.rpc, hl.owes⟩

end ClientPhase.Ext

end

/-! ## RPCs -/

section
variable {chunkSize : UInt32} {l : ClientPhase} {α β : Type}

/-- The task follows its protocol from `l` on and ends with `Q`. -/
abbrev TaskFollows (chunkSize : UInt32) (l : ClientPhase) (p : Task α)
    (Q : ClientPhase → α → Prop) : Prop := p.Follows (clientProtocol chunkSize) l Q

theorem TaskFollows.bind {p : Task α} {f : α → Task β} {Q : ClientPhase → α → Prop}
    {Q' : ClientPhase → β → Prop} (h : TaskFollows chunkSize l p Q)
    (hf : ∀ l x, Q l x → TaskFollows chunkSize l (f x) Q') : TaskFollows chunkSize l (p >>= f) Q' :=
  Prog.Follows.bind h hf

theorem follows_call {a : Act} {f : a.Ret → Task β} {Q : ClientPhase → β → Prop}
    (ha : (clientProtocol chunkSize).pre l a)
    (hf : ∀ r, TaskFollows chunkSize ((clientProtocol chunkSize).next l a r) (f r) Q) :
    TaskFollows chunkSize l (Prog.call a >>= f) Q :=
  ⟨ha, fun r _ => hf r⟩

section
variable {Q : ClientPhase → β → Prop} {fh : Fh} {n : Nat}

theorem follows_nextSeq {k : UInt64 → Task β} (hk : ∀ seq, TaskFollows chunkSize l (k seq) Q) :
    TaskFollows chunkSize l (nextSeq >>= k) Q := ⟨trivial, fun seq _ => hk seq⟩

theorem follows_reconnectGen {k : Nat → Task β} (hk : ∀ gen, TaskFollows chunkSize l (k gen) Q) :
    TaskFollows chunkSize l (reconnectGen >>= k) Q := ⟨trivial, fun gen _ => hk gen⟩

theorem follows_getOpen {k : Option OpenFile → Task β}
    (hk : ∀ f, TaskFollows chunkSize (l.found fh f) (k f) Q) :
    TaskFollows chunkSize l (getOpen fh >>= k) Q := ⟨trivial, fun f _ => hk f⟩

theorem follows_hasBuffered {k : Bool → Task β} (hr : l.rpc = none)
    (hk : ∀ b, TaskFollows chunkSize (l.looked fh b) (k b) Q) :
    TaskFollows chunkSize l (hasBuffered fh >>= k) Q := ⟨hr, fun b _ => hk b⟩

theorem follows_push {offset : UInt64} {data : Bytes} {k : PushDecision → Task β}
    (hcb : l.cb = some (.write fh offset data)) (hf : l.flight = none)
    (hk : ∀ d, TaskFollows chunkSize { l with flushed := [], empty := [], listed := none } (k d)
      Q) :
    TaskFollows chunkSize l (push fh offset data >>= k) Q := ⟨⟨hcb, hf⟩, fun d _ => hk d⟩

theorem follows_totalBytes {k : Nat → Task β} (hr : l.rpc = none)
    (hk : ∀ m, TaskFollows chunkSize (l.counted m) (k m) Q) :
    TaskFollows chunkSize l (totalBytes >>= k) Q := ⟨hr, fun m _ => hk m⟩

theorem follows_dropHandle {k : Nat → Task β} (ho : l.owes = none) (hr : l.rpc = none)
    (hf : ∀ f ∈ l.flight, f.1 = fh) (hk : ∀ m, TaskFollows chunkSize (l.dropped fh m) (k m) Q) :
    TaskFollows chunkSize l (dropHandle fh >>= k) Q := ⟨⟨ho, hr, hf⟩, fun m _ => hk m⟩

theorem follows_beginFlush {k : Option FlushBatch → Task β} (hf : l.flight = none)
    (hr : l.rpc = none) (hk : ∀ b, TaskFollows chunkSize (l.begun fh b) (k b) Q) :
    TaskFollows chunkSize l (beginFlush fh >>= k) Q := ⟨⟨hf, hr⟩, fun b _ => hk b⟩

theorem follows_restamp {handle : ServerHandle} {gen : Nat} {k : Unit → Task β}
    (hk : (fh, handle) ∈ l.known) (h : TaskFollows chunkSize l (k ()) Q) :
    TaskFollows chunkSize l (restamp fh handle gen >>= k) Q := ⟨hk, fun _ _ => h⟩

theorem follows_stickyInsert {k : Unit → Task β}
    (h : TaskFollows chunkSize (l.settled fh) (k ()) Q) :
    TaskFollows chunkSize l (stickyInsert fh >>= k) Q := ⟨trivial, fun _ _ => h⟩

theorem follows_stickyRemove {k : Bool → Task β} (hc : ClientPhase.Closes l.cb fh)
    (hs : l.sticky = none) (hk : ∀ b, TaskFollows chunkSize (l.tookSticky fh b) (k b) Q) :
    TaskFollows chunkSize l (stickyRemove fh >>= k) Q := ⟨⟨hc, hs⟩, fun b _ => hk b⟩

theorem follows_send {session : Nat} {request : Request} {more : List WriteRequest}
    {purpose : Purpose} {k : Option Nat → Task β} (hl : l.rpc = none)
    (hm : l.MaySend chunkSize request more purpose)
    (hk : ∀ n, TaskFollows chunkSize (l.sent purpose n) (k n) Q) :
    TaskFollows chunkSize l (send session request more purpose >>= k) Q :=
  ⟨⟨hl, hm⟩, fun n _ => hk n⟩

theorem awaitChecked_follows
    (hn : (∃ p, l.rpc = some (n, p)) ∨ l.rpc = none ∧ l.reading = some n ∧ l.readDone = false) :
    TaskFollows chunkSize l (awaitChecked n) fun l' r =>
      match r with
      | .error _ => l.received none = l' ∨ ∃ r, r.status ≠ .ok ∧ l.received (some r) = l'
      | .ok r => r.status = .ok ∧ l.received (some r) = l' := by
  refine ⟨hn, fun (r : Option Response) _ => ?_⟩
  cases r with
  | none => exact .inl rfl
  | some r =>
    by_cases hok : r.status = .ok
    · have he : checkStatus r = .ok r := if_pos hok
      show match checkStatus r with
        | .error _ => _
        | .ok _ => _
      rw [he]
      exact ⟨hok, rfl⟩
    · have he : checkStatus r = .error (.server r.status) := if_neg hok
      show match checkStatus r with
        | .error _ => _
        | .ok _ => _
      rw [he]
      exact .inr ⟨r, hok, rfl⟩

end

theorem ensureConn_follows : TaskFollows chunkSize l ensureConn fun l' _ => l = l' := by
  refine ⟨trivial, fun (s : Option Nat) _ => ?_⟩
  cases s with
  | some s => rfl
  | none =>
    refine ⟨trivial, fun (s : Option Nat) _ => ?_⟩
    cases s with
    | some s => exact ⟨trivial, fun _ _ => rfl⟩
    | none => rfl

theorem rpc_none_eq (hl : l.rpc = none) (x : Option (Nat × Purpose)) :
    { { l with rpc := x } with rpc := none } = l := by
  cases l
  simp_all

/-- What a task knows after an answer of `Ok`. -/
def ClientPhase.answered (l : ClientPhase) (purpose : Purpose) (r : Response) : ClientPhase :=
  match purpose with
  | .open => { l with opened := r.stat.map fun st => (r.handle, st.1) }
  | .reopen fh => { l with known := if r.stat.isSome then (fh, r.handle) :: l.known else l.known }
  | _ => { l with stat := if l.Fenced then r.stat else none }

theorem received_none (hl : l.rpc = none) (n : Nat) {p : Purpose} :
    { l with rpc := some (n, p) }.received none = l := rpc_none_eq hl _

theorem received_error (hl : l.rpc = none) (n : Nat) {p : Purpose} {r : Response}
    (hr : r.status ≠ .ok) : { l with rpc := some (n, p) }.received (some r) = l := by
  cases p <;> simp [ClientPhase.received, hr] <;> exact rpc_none_eq hl none

theorem received_ok (hl : l.rpc = none) (n : Nat) {p : Purpose} {r : Response} (hr : r.status = .ok)
    (hp : ∀ fh, p ≠ .write fh) :
    { l with rpc := some (n, p) }.received (some r) = l.answered p r := by
  cases l
  cases p <;> simp_all [ClientPhase.received, ClientPhase.answered] <;> rfl

variable {purpose : Purpose} {request : UInt64 → Request}

theorem rpc_follows (hl : l.rpc = none)
    (hm : ∀ seq, l.MaySend chunkSize (request seq) [] purpose) (hr : ∀ fh, purpose ≠ .read fh)
    (hw : ∀ fh, purpose ≠ .write fh) :
    TaskFollows chunkSize l (rpc purpose request) fun l' r =>
      match r with
      | .error _ => l = l'
      | .ok r => l.answered purpose r = l' := by
  refine follows_nextSeq fun seq => ?_
  refine TaskFollows.bind ensureConn_follows ?_
  rintro _ (_ | s) rfl
  · rfl
  refine follows_send hl (hm seq) fun n => ?_
  cases n with
  | none => rfl
  | some n =>
    have hsent : l.sent purpose (some n) = { l with rpc := some (n, purpose) } := by
      cases purpose <;> first | rfl | exact absurd rfl (hr _)
    rw [hsent]
    refine (awaitChecked_follows (.inl ⟨purpose, rfl⟩)).mono fun l' r h => ?_
    cases r with
    | error e =>
      rcases h with h | ⟨r, hne, h⟩
      · rw [← h]; exact (received_none hl n).symm
      · rw [← h]; exact (received_error hl n hne).symm
    | ok r => rw [← h.2]; exact (received_ok hl n h.1 hw).symm

theorem rpcStat_follows (hl : l.rpc = none)
    (hm : ∀ seq, l.MaySend chunkSize (request seq) [] purpose) (hr : ∀ fh, purpose ≠ .read fh)
    (hw : ∀ fh, purpose ≠ .write fh) :
    TaskFollows chunkSize l (rpcStat purpose request) fun l' r =>
      (l = l' ∨ ∃ resp, l.answered purpose resp = l') ∧
      ∀ resp st, r = .ok (resp, st) → l.answered purpose resp = l' ∧ resp.stat = some st := by
  refine TaskFollows.bind (rpc_follows hl hm hr hw) fun l' r h => ?_
  cases r with
  | error e => exact ⟨.inl h, fun _ _ hr => by cases hr⟩
  | ok r =>
    dsimp only at h ⊢
    subst h
    split
    · exact ⟨.inr ⟨r, rfl⟩, fun _ _ hr => by cases hr⟩
    · next st hst =>
      refine ⟨.inr ⟨r, rfl⟩, ?_⟩
      rintro resp st' ⟨⟩
      exact ⟨rfl, hst⟩

theorem readFrames_follows {n : Nat} (fuel : Nat) : ∀ {l : ClientPhase} {got : Bytes},
    l.rpc = none → l.reading = some n → l.readDone = false → l.got = got →
    TaskFollows chunkSize l (readFrames n fuel got) fun l' r =>
      l' = { l with reading := l'.reading, got := l'.got, readDone := l'.readDone } ∧
      ∀ d, r = .ok d → d = l'.got ∧ l'.readDone = true := by
  induction fuel with
  | zero => intros; exact ⟨rfl, fun d hd => by cases hd⟩
  | succ fuel ih =>
    intro l got hl hn hdone hgot
    refine TaskFollows.bind (awaitChecked_follows (.inr ⟨hl, hn, hdone⟩)) fun l' r h => ?_
    cases r with
    | error e =>
      rcases h with h | ⟨r, hne, h⟩
      · subst h
        simp only [ClientPhase.received, hl]
        exact ⟨rfl, fun d hd => by cases hd⟩
      · subst h
        simp only [ClientPhase.received, hl, hne, if_false]
        exact ⟨rfl, fun d hd => by cases hd⟩
    | ok r =>
      obtain ⟨hok, rfl⟩ := h
      simp only [ClientPhase.received, hl, hok, if_true]
      cases he : r.eof with
      | true => exact ⟨rfl, fun d hd => by cases hd; exact ⟨by rw [hgot], rfl⟩⟩
      | false =>
        refine Prog.Follows.mono (ih rfl hn rfl (by rw [hgot])) fun l' r h => ⟨?_, h.2⟩
        rw [h.1]

theorem connRead_follows {fh : Fh} {handle : ServerHandle} {offset : UInt64} {length : UInt32}
    (hl : l.rpc = none) (hf : fh ∈ l.flushed) (hk : (fh, handle) ∈ l.known)
    (hcb : l.cb = some (.read fh offset length)) :
    TaskFollows chunkSize l (connRead fh handle offset length) fun l' r =>
      l' = { l with reading := l'.reading, got := l'.got, readDone := l'.readDone } ∧
      ∀ d, r = .ok d → d = l'.got ∧ l'.readDone = true := by
  have herr : ∀ e, TaskFollows chunkSize l (.ret (.error e)) fun l' (r : Except RpcError Bytes) =>
      l' = { l with reading := l'.reading, got := l'.got, readDone := l'.readDone } ∧
      ∀ d, r = .ok d → d = l'.got ∧ l'.readDone = true := fun e => ⟨rfl, fun d hd => by cases hd⟩
  refine TaskFollows.bind ensureConn_follows ?_
  rintro _ (_ | s) rfl
  · exact herr _
  refine follows_nextSeq fun seq => ?_
  refine follows_send hl ⟨hf, seq, handle, offset, length, rfl, hk, hcb⟩ fun n => ?_
  cases n with
  | none => exact herr _
  | some n =>
    refine (readFrames_follows _ ?_ rfl rfl rfl).mono fun l' r h => ⟨?_, h.2⟩
    · exact hl
    · rw [h.1]; rfl

theorem connWrite_follows {fh : Fh} {handle : ServerHandle} {offset : UInt64} {data : Bytes}
    {runs : List (UInt64 × Bytes)} {batch : FlushBatch} (hl : l.rpc = none)
    (hk : (fh, handle) ∈ l.known) (hleft : l.left = (offset, data) :: runs)
    (hf : l.flight = some (fh, batch)) :
    TaskFollows chunkSize l (connWrite chunkSize fh handle offset data) fun l' r =>
      match r with
      | .error _ => l = l'
      | .ok _ => { l with left := runs } = l' := by
  refine TaskFollows.bind ensureConn_follows ?_
  rintro _ (_ | s) rfl
  · rfl
  refine follows_nextSeq fun seq => ?_
  cases hws : writeFrames chunkSize handle offset data with
  | nil => rfl
  | cons first more =>
    refine follows_send hl ⟨seq, first, handle, offset, data, runs, batch, rfl, hws.symm, hk, hleft,
      hf⟩ fun n => ?_
    cases n with
    | none => rfl
    | some n =>
      refine TaskFollows.bind (awaitChecked_follows (.inl ⟨.write fh, rfl⟩)) fun l' r h => ?_
      cases r with
      | error e =>
        rcases h with h | ⟨r, hne, h⟩
        · rw [← h]; exact (received_none hl n).symm
        · rw [← h]; exact (received_error hl n hne).symm
      | ok r =>
        obtain ⟨hok, rfl⟩ := h
        cases l
        simp_all [ClientPhase.sent, ClientPhase.received]

theorem sendBatch_follows {fh : Fh} {handle : ServerHandle} {batch : FlushBatch}
    (runs : List (UInt64 × Bytes)) : ∀ {l : ClientPhase}, l.rpc = none → (fh, handle) ∈ l.known →
      l.left = runs → l.flight = some (fh, batch) →
    TaskFollows chunkSize l (sendBatch chunkSize fh handle runs) fun l' r =>
      (∃ left, { l with left } = l') ∧ (r = .ok () → { l with left := [] } = l') := by
  induction runs with
  | nil =>
    intro l _ _ hleft _
    refine ⟨⟨l.left, rfl⟩, fun _ => by rw [← hleft]⟩
  | cons run runs ih =>
    intro l hl hk hleft hf
    refine TaskFollows.bind (connWrite_follows hl hk hleft hf) fun l' r h => ?_
    cases r with
    | error e =>
      dsimp only at h ⊢
      subst h
      exact ⟨⟨l.left, rfl⟩, fun h => by cases h⟩
    | ok _ =>
      dsimp only at h ⊢
      subst h
      exact ih hl hk rfl hf

end

/-! ## Flushes -/

section
variable {chunkSize : UInt32} {l : ClientPhase} {fh : Fh}

theorem looked_ext (b : Bool) : l.Ext (l.looked fh b) := by
  cases b with
  | true => exact .refl l
  | false =>
    exact ⟨rfl, fun _ h => h, List.subset_cons_self _ _, List.subset_cons_self _ _⟩

theorem found_ext (f : Option OpenFile) : l.Ext (l.found fh f) := by
  cases f with
  | none => exact .refl l
  | some f => exact ⟨rfl, List.subset_cons_self _ _, fun _ h => h, fun _ h => h⟩

theorem mem_known_found (f : OpenFile) : (fh, f.serverHandle) ∈ (l.found fh (some f)).known :=
  List.mem_cons_self

theorem answered_reopen_ext (r : Response) : l.Ext (l.answered (.reopen fh) r) := by
  refine ⟨rfl, ?_, fun _ h => h, fun _ h => h⟩
  unfold ClientPhase.answered
  dsimp only
  split
  · exact List.subset_cons_self _ _
  · exact fun _ h => h

theorem ClientPhase.AtRest.ended (hl : l.AtRest) : { l with flight := none, left := [] } = l := by
  obtain ⟨h1, h2, -, -⟩ := hl
  cases l
  simp_all

theorem settled_dropped (ho : l.owes = none) (n : Nat) :
    (l.dropped fh n).settled fh = { l with flight := none, left := [] } := by
  cases l
  simp only [ClientPhase.dropped, ClientPhase.settled] at *
  subst ho
  by_cases hn : 0 < n <;> simp [hn]

theorem dropped_zero (hl : l.AtRest) : l.dropped fh 0 = l := hl.ended

theorem dropAppends_follows (hl : l.AtRest) (isAppend : Bool) :
    TaskFollows chunkSize l (dropAppends fh isAppend) fun l' _ => l.Ext l' := by
  unfold dropAppends
  split
  · refine follows_hasBuffered hl.rpc fun b => ?_
    have hext : l.Ext (l.looked fh b) := looked_ext b
    have hrest := hext.atRest hl
    split
    · refine follows_dropHandle hrest.owes hrest.rpc (by simp [hrest.flight]) fun m => ?_
      split
      · refine ⟨trivial, fun _ _ => ?_⟩
        show l.Ext (((l.looked fh b).dropped fh m).settled fh)
        rw [settled_dropped hrest.owes, hrest.ended]
        exact hext
      · next hm =>
        obtain rfl : m = 0 := by omega
        show l.Ext _
        rw [dropped_zero hrest]
        exact hext
    · exact hext
  · exact .refl l

theorem ensureLive_follows (hl : l.AtRest) (allowReopen : Bool) :
    TaskFollows chunkSize l (ensureLive fh allowReopen) fun l' r =>
      l.Ext l' ∧ ∀ h, r = some h → (fh, h) ∈ l'.known := by
  refine follows_reconnectGen fun cur => follows_getOpen fun f => ?_
  cases f with
  | none => exact ⟨.refl l, fun _ h => by cases h⟩
  | some f =>
    have hext : l.Ext (l.found fh (some f)) := found_ext (some f)
    dsimp only
    split
    · exact ⟨hext, fun h hh => by cases hh; exact mem_known_found f⟩
    split
    · exact ⟨hext, fun _ h => by cases h⟩
    have hm : ∀ seq, (l.found fh (some f)).MaySend chunkSize
        (.open seq f.path (reopenFlags f.flags)) [] (.reopen fh) := fun seq => ⟨seq, _, _, rfl⟩
    refine TaskFollows.bind (rpcStat_follows (hext.atRest hl).rpc hm (fun _ => nofun)
      fun _ => nofun) fun l1 r h => ?_
    have hext1 : l.Ext l1 := by
      rcases h.1 with rfl | ⟨resp, rfl⟩
      · exact hext
      · exact hext.trans (answered_reopen_ext resp)
    cases r with
    | error _ => exact ⟨hext1, fun _ h => by cases h⟩
    | ok r =>
      obtain ⟨resp, st⟩ := r
      obtain ⟨rfl, hst⟩ := h.2 resp st rfl
      have hk : (fh, resp.handle) ∈ ((l.found fh (some f)).answered (.reopen fh) resp).known := by
        simp [ClientPhase.answered, hst]
      refine follows_restamp hk ?_
      refine TaskFollows.bind (dropAppends_follows (hext1.atRest hl) f.isAppend) fun l2 _ h2 => ?_
      exact ⟨hext1.trans h2, fun h hh => by cases hh; exact h2.known hk⟩

theorem ended_ext (hl : l.AtRest) (fh : Fh) (x : Option (Fh × FlushBatch))
    (y : List (UInt64 × Bytes)) (f : Option OpenFile) :
    l.Ext { ({ l with flight := x, left := y } : ClientPhase).found fh f with
      flight := none, left := [] } := by
  obtain ⟨h1, h2, -, -⟩ := hl
  cases f with
  | none =>
    refine ⟨?_, fun _ h => h, fun _ h => h, fun _ h => h⟩
    simp [ClientPhase.found, ← h1, ← h2]
  | some f =>
    refine ⟨?_, List.subset_cons_self _ _, fun _ h => h, fun _ h => h⟩
    simp [ClientPhase.found, ← h1, ← h2]

theorem found_owes (f : Option OpenFile) : (l.found fh f).owes = l.owes := by cases f <;> rfl

theorem found_rpc (f : Option OpenFile) : (l.found fh f).rpc = l.rpc := by cases f <;> rfl

theorem found_flight (f : Option OpenFile) : (l.found fh f).flight = l.flight := by cases f <;> rfl

/-- A flush that ends without an error has sent everything, or another task is at it. -/
theorem flushAttempts_follows (allowReopen : Bool) (k : Nat) :
    ∀ {l : ClientPhase} (last : RpcError),
    l.AtRest →
    TaskFollows chunkSize l (flushAttempts chunkSize fh allowReopen k last) fun l' r =>
      l.Ext l' ∧ (r = .ok () → fh ∈ l'.flushed) := by
  induction k with
  | zero => exact fun last hl => ⟨.refl _, fun h => by cases h⟩
  | succ k ih =>
    intro l last hl
    refine TaskFollows.bind (ensureLive_follows hl allowReopen) fun l1 live h1 => ?_
    have hl1 := h1.1.atRest hl
    cases live with
    | none =>
      refine follows_hasBuffered hl1.rpc fun b => ?_
      cases b with
      | true => exact ⟨h1.1, fun h => by cases h⟩
      | false => exact ⟨h1.1.trans (looked_ext false), fun _ => List.mem_cons_self⟩
    | some handle =>
      refine follows_beginFlush hl1.flight hl1.rpc fun batch => ?_
      cases batch with
      | none =>
        refine ⟨h1.1.trans ⟨rfl, fun _ h => h, List.subset_cons_self _ _, fun _ h => h⟩,
          fun _ => ?_⟩
        exact List.mem_cons_self
      | some batch =>
        refine follows_reconnectGen fun genBefore => ?_
        refine TaskFollows.bind (sendBatch_follows batch.chunks hl1.rpc (h1.2 handle rfl) rfl rfl)
          fun l2 r h2 => ?_
        cases r with
        | ok _ =>
          obtain rfl := h2.2 rfl
          refine ⟨⟨hl1.rpc, batch, rfl, rfl, rfl⟩, fun _ _ => ?_⟩
          refine ⟨h1.1.trans ⟨?_, fun _ h => h, List.subset_cons_self _ _, fun _ h => h⟩,
            fun _ => List.mem_cons_self⟩
          rw [← hl1.ended]
          rfl
        | error e =>
          obtain ⟨left, rfl⟩ := h2.1
          refine follows_getOpen fun file => ?_
          have hend := h1.1.trans (ended_ext hl1 fh (some (fh, batch)) left file)
          split
          · refine follows_dropHandle ((found_owes file).trans hl1.owes)
              ((found_rpc file).trans hl1.rpc) ?_ fun m => ?_
            · rw [found_flight]
              rintro _ ⟨⟩
              rfl
            · refine follows_stickyInsert ?_
              rw [settled_dropped (by exact (found_owes file).trans hl1.owes)]
              exact ⟨hend, fun h => by cases h⟩
          · refine ⟨⟨(found_rpc file).trans hl1.rpc, batch, found_flight file⟩, fun _ _ => ?_⟩
            split
            · refine follows_reconnectGen fun gen => ?_
              split
              · refine Prog.Follows.mono (ih e (hend.atRest hl)) fun l' r h => ⟨hend.trans h.1, h.2⟩
              · exact ⟨hend, fun h => by cases h⟩
            · exact ⟨hend, fun h => by cases h⟩

theorem flushHandle_follows (hl : l.AtRest) :
    TaskFollows chunkSize l (flushHandle chunkSize fh) fun l' r =>
      l.Ext l' ∧ (r = .ok () → fh ∈ l'.flushed) := flushAttempts_follows true 2 .other hl

theorem drainRounds_follows (k : Nat) : ∀ {l : ClientPhase}, l.AtRest →
    TaskFollows chunkSize l (drainRounds chunkSize fh k) fun l' r =>
      l.Ext l' ∧ (r = .ok () → fh ∈ l'.empty) := by
  induction k with
  | zero => exact fun hl => ⟨.refl _, fun h => by cases h⟩
  | succ k ih =>
    intro l hl
    refine TaskFollows.bind (flushHandle_follows hl) fun l1 r h1 => ?_
    cases r with
    | error e => exact ⟨h1.1, fun h => by cases h⟩
    | ok _ =>
      refine follows_hasBuffered (h1.1.atRest hl).rpc fun b => ?_
      have hext : l.Ext (l1.looked fh b) := h1.1.trans (looked_ext b)
      cases b with
      | true => exact Prog.Follows.mono (ih (hext.atRest hl)) fun l' r h => ⟨hext.trans h.1, h.2⟩
      | false => exact ⟨hext, fun _ => List.mem_cons_self⟩

theorem flushEach_follows (hs : List Fh) : ∀ {l : ClientPhase} (first : Option RpcError), l.AtRest →
    TaskFollows chunkSize l (flushEach chunkSize hs first) fun l' r =>
      l.Ext l' ∧ (r = .ok () → first = none ∧ ∀ h ∈ hs, h ∈ l'.flushed) := by
  induction hs with
  | nil =>
    intro l first hl
    cases first with
    | none => exact ⟨.refl _, fun _ => ⟨rfl, by simp⟩⟩
    | some e => exact ⟨.refl _, fun h => by cases h⟩
  | cons fh hs ih =>
    intro l first hl
    refine TaskFollows.bind (flushHandle_follows hl) fun l1 r h1 => ?_
    have hl1 := h1.1.atRest hl
    cases r with
    | ok _ =>
      refine Prog.Follows.mono (ih first hl1) fun l' r h => ⟨h1.1.trans h.1, fun hr => ?_⟩
      have hall := h.2 hr
      refine ⟨hall.1, fun x hx => ?_⟩
      rcases List.mem_cons.mp hx with rfl | hx
      · exact h.1.flushed (h1.2 rfl)
      · exact hall.2 x hx
    | error e =>
      refine Prog.Follows.mono (ih _ hl1) fun l' r h => ⟨h1.1.trans h.1, fun hr => ?_⟩
      cases first <;> exact absurd (h.2 hr).1 nofun

theorem flushAllHandles_follows (hl : l.AtRest) :
    TaskFollows chunkSize l (flushAllHandles chunkSize) fun l' r =>
      ∃ hs, { l with listed := some hs }.Ext l' ∧ (r = .ok () → l'.Fenced) := by
  refine ⟨hl.rpc, fun (hs : List Fh) _ => ?_⟩
  have hrest : { l with listed := some hs }.AtRest := ⟨hl.flight, hl.left, hl.rpc, hl.owes⟩
  refine Prog.Follows.mono (flushEach_follows hs none hrest) fun l' r h => ?_
  exact ⟨hs, h.1, fun hr => ⟨hs, h.1.listed, (h.2 hr).2⟩⟩

end

end QuicFs.System
