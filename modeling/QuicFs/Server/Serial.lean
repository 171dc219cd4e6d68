import QuicFs.Server.Alone
import QuicFs.Server.Jail

/-!
# Write RPCs to one file are serial

Any number of Write RPCs on any handles and sessions, their frames arriving in any order and
any of them cut off while it waits. The stripe of the write lock is chosen by the key of the
file, so while one RPC is between its lock and its unlock no other RPC to the same file
writes. The content of every file is then what the RPCs leave when they are applied one after
another in the order in which they took their locks (`writes_serial`).

The server is run with a record of its steps. What one RPC does is in its phase
(`WritePhase`), which follows the handler's text.
-/

namespace QuicFs.Server

open Lib Function

/-- A Write RPC: its session, its first frame, and how many frames follow at most. -/
structure WriteRpc where
  session : Nat
  seq : UInt64
  first : WriteRequest
  frames : Nat

def WriteRpc.incoming (q : WriteRpc) : Incoming := ⟨q.session, .write q.seq q.first, q.frames⟩

def OneWriteEach (rpcs : Nat → WriteRpc) : Cond Sys (Host × Log) Nat Choice Incoming Empty where
  run _ _ _ _ := True
  start s n q := q = (rpcs n).incoming ∧ ∀ e ∈ s.2, e.thread ≠ n
  env _ _ := True

instance (rpcs : Nat → WriteRpc) : (OneWriteEach rpcs).Checkable where
  run _ _ _ _ := isTrue trivial
  start s n q := inferInstanceAs (Decidable (q = (rpcs n).incoming ∧ ∀ e ∈ s.2, e.thread ≠ n))
  env _ _ := isTrue trivial

/-- The frames of an RPC: those up to the one marked `done`. -/
def rpcFrames : List WriteRequest → List WriteRequest
  | [] => []
  | w :: ws => if w.done then [w] else w :: rpcFrames ws

def placed (append : Bool) (F : Bytes) (w : WriteRequest) : Bytes :=
  pwrite F (if append then F.length else w.offset.toNat) w.data

/-- What an RPC wrote: some frames in full, and possibly a part of one more. -/
structure Txn where
  stream : Nat
  file : File
  append : Bool
  frames : List WriteRequest := []
  torn : Option (WriteRequest × Nat) := none

def Txn.apply (F : Bytes) (t : Txn) : Bytes :=
  match t.torn with
  | none => t.frames.foldl (placed t.append) F
  | some (w, k) =>
    placed t.append (t.frames.foldl (placed t.append) F) { w with data := w.data.take k }

def Txn.frame (t : Txn) (w : WriteRequest) : Txn := { t with frames := t.frames ++ [w] }

def Txn.tear (t : Txn) (w : WriteRequest) (k : Nat) : Txn := { t with torn := some (w, k) }

def serial (F : Bytes) (txns : List Txn) : Bytes := txns.foldl Txn.apply F

def lockedBy (e : Event Sys Sys.Ret Nat) : Option Nat :=
  match e with
  | ⟨n, .lockStripe _, r⟩ =>
    match (r : Bool) with
    | true => some n
    | false => none
  | _ => none

/-- The streams in the order in which they took their stripe. -/
def locked (log : Log) : List Nat := log.filterMap lockedBy

/-- The step answers the stream with `Ok`. -/
def AnswersOk (n : Nat) (e : Event Sys Sys.Ret Nat) : Prop :=
  e.thread = n ∧ ∃ r, e.act = .reply r ∧ r.status = .ok

/-- The step is a write of the frame that the system refused or cut short. -/
def WriteFails (n : Nat) (w : WriteRequest) (e : Event Sys Sys.Ret Nat) : Prop :=
  ∃ (f : File) (append : Bool) (k : IoErrorKind),
    e = ⟨n, .writeAt f w.offset w.data append, (some k : Option IoErrorKind)⟩

/-- What an RPC wrote is a prefix of its frames, and all of them if it answered `Ok`. Only a
frame whose write failed is there in part. -/
structure Txn.Sound (h₀ : Host) (rpcs : Nat → WriteRpc) (log : Log) (t : Txn) : Prop where
  handle : ∃ oh, (h₀.tables (rpcs t.stream).session).inner.lookup (rpcs t.stream).first.handle =
    some oh ∧ t.file = oh.file ∧ t.append = bit oh.flags 0x400
  frames : t.frames ++ (t.torn.map Prod.fst).toList <+:
    rpcFrames ((rpcs t.stream).first :: h₀.inbox t.stream)
  ok : (∃ e ∈ log, AnswersOk t.stream e) →
    t.torn = none ∧ t.frames = rpcFrames ((rpcs t.stream).first :: h₀.inbox t.stream)
  torn : ∀ w k, t.torn = some (w, k) → ∃ e ∈ log, WriteFails t.stream w e

/-! ## Frames -/

theorem rpcFrames_append {ws : List WriteRequest} (h : ∀ w ∈ ws, w.done = false)
    (rest : List WriteRequest) : rpcFrames (ws ++ rest) = ws ++ rpcFrames rest := by
  induction ws with
  | nil => rfl
  | cons w ws ih =>
    rw [List.cons_append, rpcFrames, if_neg (by simp [h w List.mem_cons_self]),
      ih fun v hv => h v (List.mem_cons_of_mem _ hv), List.cons_append]

theorem head_rpcFrames (w : WriteRequest) (ws : List WriteRequest) :
    [w] <+: rpcFrames (w :: ws) := by
  rw [rpcFrames]
  split
  · exact List.prefix_rfl
  · exact ⟨rpcFrames ws, rfl⟩

/-! ## One write -/

/-- What a `writeAt` does to the contents, successful or not. -/
theorem exec_writeAt_content {kernel : Kernel} {ex : Export} {n : Nat} {f : File} {w : WriteRequest}
    {append : Bool} {c : Choice} {h h' : Host} {r : Option IoErrorKind}
    (he : Sys.exec kernel ex n (.writeAt f w.offset w.data append) c h = some (r, h')) :
    ∃ k, (r = none → k = w.data.length) ∧ ∀ i F, h.fs.content i = some F → h'.fs.content i =
      some (if i = f.ino then placed append F { w with data := w.data.take k } else F) := by
  change some (writeFile h f w.offset w.data append c) = _ at he
  obtain he := Option.some.inj he
  have hsame : ∀ {i F}, h.fs.content i = some F → h.fs.content i =
      some (if i = f.ino then placed append F { w with data := w.data.take 0 } else F) := by
    intro i F hF
    have : placed append F { w with data := w.data.take 0 } = F := by simp [placed, pwrite]
    rw [this, ite_self, hF]
  unfold writeFile at he
  split at he
  · cases he
    exact ⟨0, nofun, fun i F => hsame⟩
  · next file hfile =>
    generalize hwa : writeAt ⟨file, 0⟩ w.offset w.data append _ = o at he
    obtain ⟨r', st⟩ := o
    obtain ⟨rfl, rfl⟩ := Prod.mk.inj he
    obtain ⟨k, hk, hplaced⟩ := writeAt_placed hwa
    refine ⟨k, hk, fun i F hF => ?_⟩
    by_cases e : i = f.ino
    · subst e
      obtain rfl := Option.some.inj (hfile.symm.trans hF)
      rw [if_pos rfl, Fs.content_setContent hF, hplaced]
      rfl
    · rw [if_neg e]
      unfold Fs.content Fs.kind at hF ⊢
      rw [Fs.nodes_setContent_ne _ _ e]
      exact hF

/-! ## The phases of a Write -/

/-- What the handler has from the handle table. -/
structure WriteCtx where
  file : File
  append : Bool
  key : Nat

inductive WritePhase where
  | fresh
  | refused
  | found (x : WriteCtx)
  | writing (x : WriteCtx) (wrote : List WriteRequest) (w : WriteRequest)
  | waiting (x : WriteCtx) (wrote : List WriteRequest)
  | answering (x : WriteCtx) (wrote : List WriteRequest) (status : Status)
  | leaving (x : WriteCtx)
  | ended

namespace WritePhase

/-- The file it writes to, from its lock to its unlock. -/
def holds : WritePhase → Option WriteCtx
  | writing x _ _ | waiting x _ | answering x _ _ | leaving x => some x
  | _ => none

/-- The frames it has written in full, while it still may write more. -/
def wrote? : WritePhase → Option (List WriteRequest)
  | writing _ wrote _ | waiting _ wrote | answering _ wrote .ok => some wrote
  | _ => none

def Allows (q : WriteRpc) : WritePhase → Sys → Prop
  | fresh, a => a = .getWriteCtx q.session q.first.handle
  | found x, a => a = .lockStripe (stripeFor x.key)
  | writing x _ w, a => a = .writeAt x.file w.offset w.data x.append
  | waiting x _, a => a = .recvFrame ∨ a = .unlockStripe (stripeFor x.key)
  | answering _ _ status, a => ∃ r, a = .reply r ∧ r.status = status
  | leaving x, a => a = .unlockStripe (stripeFor x.key)
  | refused, a => ∃ r, a = .reply r ∧ r.status = .stale
  | ended, _ => False

/-- The phase after an answer. -/
def after (q : WriteRpc) : WritePhase → (a : Sys) → a.Ret → WritePhase
  | fresh, .getWriteCtx .., r =>
    match (r : Option (File × UInt32 × Nat)) with
    | none => refused
    | some (f, flags, key) => found ⟨f, bit flags 0x400, key⟩
  | found x, .lockStripe _, r =>
    match (r : Bool) with
    | true => writing x [] q.first
    | false => ended
  | writing x wrote w, .writeAt .., r =>
    match (r : Option IoErrorKind) with
    | none => if w.done then answering x (wrote ++ [w]) .ok else waiting x (wrote ++ [w])
    | some e => answering x wrote (.ofIo e)
  | waiting x wrote, .recvFrame, r =>
    match (r : Option WriteRequest) with
    | some w => writing x wrote w
    | none => leaving x
  | answering x _ _, .reply _, _ => leaving x
  | _, _, _ => ended

end WritePhase

def writeProtocol (q : WriteRpc) : Protocol Sys Sys.Ret WritePhase where
  pre := WritePhase.Allows q
  post _ _ _ := True
  next := WritePhase.after q

/-- At the end of its frames the handler has answered or is cut off, and still has its stripe. -/
def WritePhase.AtEnd (x : WriteCtx) (l : WritePhase) : Prop :=
  l = .leaving x ∨ ∃ wrote, l = .waiting x wrote

theorem frameLoop_phases {q : WriteRpc} {x : WriteCtx} {seq : UInt64} (fuel : Nat) :
    ∀ {total : Nat} {wrote : List WriteRequest} {w : WriteRequest},
    (frameLoop x.file x.append seq fuel total w).Follows (writeProtocol q) (.writing x wrote w)
      fun l _ => l.AtEnd x := by
  induction fuel with
  | zero =>
    intro total wrote w
    rw [frameLoop]
    refine ⟨rfl, fun (r : Option IoErrorKind) _ => ?_⟩
    cases r with
    | some e => exact ⟨⟨_, rfl, rfl⟩, fun _ _ => .inl rfl⟩
    | none =>
      cases hd : w.done with
      | true =>
        simp only [if_true]
        change Prog.Follows _ (if w.done then _ else _) _ _
        rw [hd]
        exact ⟨⟨_, rfl, rfl⟩, fun _ _ => .inl rfl⟩
      | false =>
        simp only [Bool.false_eq_true, if_false]
        change WritePhase.AtEnd x (if w.done then _ else _)
        rw [hd]
        exact .inr ⟨_, rfl⟩
  | succ fuel ih =>
    intro total wrote w
    rw [frameLoop]
    refine ⟨rfl, fun (r : Option IoErrorKind) _ => ?_⟩
    cases r with
    | some e => exact ⟨⟨_, rfl, rfl⟩, fun _ _ => .inl rfl⟩
    | none =>
      cases hd : w.done with
      | true =>
        simp only [if_true]
        change Prog.Follows _ (if w.done then _ else _) _ _
        rw [hd]
        exact ⟨⟨_, rfl, rfl⟩, fun _ _ => .inl rfl⟩
      | false =>
        simp only [Bool.false_eq_true, if_false]
        change Prog.Follows _ (if w.done then _ else _) _ _
        rw [hd]
        refine ⟨.inl rfl, fun (next : Option WriteRequest) _ => ?_⟩
        cases next with
        | none => exact .inl rfl
        | some w' => exact ih

theorem handleWriteRpc_phases (q : WriteRpc) :
    (handleWriteRpc q.frames q.session q.seq q.first).Follows (writeProtocol q) .fresh
      fun l _ => l = .ended := by
  refine ⟨rfl, fun (r : Option (File × UInt32 × Nat)) _ => ?_⟩
  rcases r with _ | ⟨f, flags, key⟩
  · exact ⟨⟨_, rfl, rfl⟩, fun _ _ => rfl⟩
  · refine ⟨rfl, fun (b : Bool) _ => ?_⟩
    cases b with
    | false => rfl
    | true =>
      refine Prog.Follows.bind (frameLoop_phases (x := ⟨f, bit flags 0x400, key⟩) q.frames) ?_
      rintro l - (rfl | ⟨wrote, rfl⟩)
      · exact ⟨rfl, fun _ _ => rfl⟩
      · exact ⟨.inr rfl, fun _ _ => rfl⟩

/-! ## The invariant -/

section
variable (h₀ : Host) (rpcs : Nat → WriteRpc)

def framesOf (n : Nat) : List WriteRequest := (rpcs n).first :: h₀.inbox n

/-- The context comes from the entry of the handle. -/
def CtxOf (n : Nat) (x : WriteCtx) : Prop :=
  ∃ oh, (h₀.tables (rpcs n).session).inner.lookup (rpcs n).first.handle = some oh ∧
    x = ⟨oh.file, bit oh.flags 0x400, oh.inoKey⟩

/-- Which frames are written and which still to come. -/
def WritePhase.Frames (h : Host) (n : Nat) : WritePhase → Prop
  | fresh => h.inbox n = h₀.inbox n
  | found x => CtxOf h₀ rpcs n x ∧ h.inbox n = h₀.inbox n
  | writing x wrote w => CtxOf h₀ rpcs n x ∧ wrote ++ w :: h.inbox n = framesOf h₀ rpcs n ∧
    ∀ v ∈ wrote, v.done = false
  | waiting x wrote => CtxOf h₀ rpcs n x ∧ wrote ++ h.inbox n = framesOf h₀ rpcs n ∧
    ∀ v ∈ wrote, v.done = false
  | answering x wrote status => CtxOf h₀ rpcs n x ∧
    (status = .ok → wrote = rpcFrames (framesOf h₀ rpcs n))
  | leaving x => CtxOf h₀ rpcs n x
  | refused | ended => True

def WritePhase.Over : WritePhase → Prop
  | leaving _ | ended => True
  | _ => False

/-- What the record says about a stream. -/
structure WritePhase.InLog (log : Log) (n : Nat) (l : WritePhase) : Prop where
  fresh : (∀ e ∈ log, e.thread ≠ n) ↔ l = .fresh
  quiet : ¬l.Over → ∀ e ∈ log, ¬AnswersOk n e
  unlocked : n ∈ locked log → l.holds.isSome ∨ l = .ended

/-- The RPC of the stream is the last one to its file. -/
def LastOn (T : Nat → Txn) (order : List Nat) (n : Nat) : Prop :=
  ∃ before after, order = before ++ n :: after ∧ ∀ m ∈ after, (T m).file.ino ≠ (T n).file.ino

/-- The RPC of a stream that holds its stripe. -/
structure Holds (T : Nat → Txn) (s : Host × Log) (n : Nat) (l : WritePhase) (x : WriteCtx) :
    Prop where
  stripe : s.1.stripes (stripeFor x.key) = some n
  file : (T n).file = x.file
  append : (T n).append = x.append
  last : LastOn T (locked s.2) n
  wrote : ∀ wrote, l.wrote? = some wrote → (T n).frames = wrote ∧ (T n).torn = none

/-- `T n` is what the RPC of stream `n` has written. -/
structure Serialised (T : Nat → Txn) (s : Host × Log) (l : Nat → WritePhase) : Prop where
  stream : ∀ n, (T n).stream = n
  tables : s.1.tables = h₀.tables
  frames : ∀ n, (l n).Frames h₀ rpcs s.1 n
  inLog : ∀ n, (l n).InLog s.2 n
  holds : ∀ n x, (l n).holds = some x → Holds T s n (l n) x
  nodup : (locked s.2).Nodup
  sound : ∀ n ∈ locked s.2, (T n).Sound h₀ rpcs s.2
  answered : ∀ n, (∃ e ∈ s.2, AnswersOk n e) → n ∈ locked s.2
  content : ∀ i F, h₀.fs.content i = some F →
    s.1.fs.content i = some (serial F (((locked s.2).map T).filter (·.file.ino = i)))

end

section
variable {h₀ : Host} {rpcs : Nat → WriteRpc} {T : Nat → Txn} {s : Host × Log}
    {h h' : Host} {log : Log}
variable {n m : Nat} {l l' : WritePhase} {e : Event Sys Sys.Ret Nat}

theorem WritePhase.holds_of_wrote? {wrote : List WriteRequest} (h : l.wrote? = some wrote) :
    ∃ x, l.holds = some x := by
  unfold wrote? at h
  split at h
  · exact ⟨_, rfl⟩
  · exact ⟨_, rfl⟩
  · exact ⟨_, rfl⟩
  · cases h

theorem lockedBy_thread (h : lockedBy e = some m) : e.thread = m := by
  unfold lockedBy at h
  split at h
  · split at h
    · exact Option.some.inj h
    · cases h
  · cases h

theorem locked_append (log : Log) (e : Event Sys Sys.Ret Nat) :
    locked (log ++ [e]) = locked log ++ (lockedBy e).toList := by
  rw [locked, List.filterMap_append]
  cases h : lockedBy e <;> simp [locked, h]

theorem locked_quiet (h : lockedBy e = none) : locked (log ++ [e]) = locked log := by
  rw [locked_append, h, Option.toList_none, List.append_nil]

theorem mem_locked_append_ne (h : e.thread ≠ m) : m ∈ locked (log ++ [e]) ↔ m ∈ locked log := by
  rw [locked_append, List.mem_append]
  refine ⟨fun hm => hm.resolve_right fun hm => h (lockedBy_thread (Option.mem_toList.mp hm)), .inl⟩

theorem WritePhase.InLog.other (hl : l.InLog log m) (h : e.thread ≠ m) :
    l.InLog (log ++ [e]) m where
  fresh := by
    rw [← hl.fresh]
    simp [h, or_imp, forall_and]
  quiet hov e' he' := by
    rcases List.mem_append.mp he' with he' | he'
    · exact hl.quiet hov e' he'
    · rw [List.mem_singleton.mp he']
      exact fun hok => h hok.1
  unlocked hm := hl.unlocked ((mem_locked_append_ne h).mp hm)

theorem WritePhase.InLog.step (hl : l.InLog log n) (h : e.thread = n) (hlock : lockedBy e = none)
    (hne : l' ≠ .fresh) (hq : ¬l'.Over → ¬l.Over ∧ ¬AnswersOk n e)
    (hh : l.holds.isSome ∨ l = .ended → l'.holds.isSome ∨ l' = .ended) :
    l'.InLog (log ++ [e]) n where
  fresh := by
    refine ⟨fun hall => absurd h (hall e (by simp)), fun h' => absurd h' hne⟩
  quiet hov e' he' := by
    rcases List.mem_append.mp he' with he' | he'
    · exact hl.quiet (hq hov).1 e' he'
    · rw [List.mem_singleton.mp he']
      exact (hq hov).2
  unlocked hm := hh (hl.unlocked (locked_quiet hlock ▸ hm))

theorem WritePhase.Frames.congr (hl : l.Frames h₀ rpcs h m) (he : h'.inbox m = h.inbox m) :
    l.Frames h₀ rpcs h' m := by
  cases l <;> simp only [Frames, he] at hl ⊢ <;> exact hl

theorem Txn.Sound.append {t : Txn} (ht : t.Sound h₀ rpcs log)
    (hok : AnswersOk t.stream e → t.torn = none ∧
      t.frames = rpcFrames (framesOf h₀ rpcs t.stream)) :
    t.Sound h₀ rpcs (log ++ [e]) where
  handle := ht.handle
  frames := ht.frames
  ok := by
    rintro ⟨e', he', h⟩
    rcases List.mem_append.mp he' with he' | he'
    · exact ht.ok ⟨e', he', h⟩
    · exact hok (List.mem_singleton.mp he' ▸ h)
  torn w k hw := by
    obtain ⟨e', he', h⟩ := ht.torn w k hw
    exact ⟨e', List.mem_append_left _ he', h⟩

/-- The stream keeps its stripe, with no more written than before. -/
theorem Holds.keep {x : WriteCtx} (hh : Holds T s n l x) (hlock : lockedBy e = none)
    (hs : h'.stripes (stripeFor x.key) = some n)
    (hw : ∀ wrote, l'.wrote? = some wrote → l.wrote? = some wrote) :
    Holds T (h', s.2 ++ [e]) n l' x where
  stripe := hs
  file := hh.file
  append := hh.append
  last := by
    rw [locked_quiet hlock]
    exact hh.last
  wrote wrote h := hh.wrote wrote (hw wrote h)

/-- A step of stream `n` that neither writes nor takes a stripe. -/
theorem Serialised.quiet {l : Nat → WritePhase} (hi : Serialised h₀ rpcs T s l) (he : e.thread = n)
    (hlock : lockedBy e = none) (hfs : h'.fs = s.1.fs) (htab : h'.tables = s.1.tables)
    (hinbox : ∀ m ≠ n, h'.inbox m = s.1.inbox m) (hframes : l'.Frames h₀ rpcs h' n)
    (hlog : l'.InLog (s.2 ++ [e]) n)
    (hothers : ∀ m ≠ n, ∀ x, (l m).holds = some x → h'.stripes (stripeFor x.key) = some m)
    (hown : ∀ x, l'.holds = some x → (l n).holds = some x ∧ h'.stripes (stripeFor x.key) = some n ∧
      ∀ wrote, l'.wrote? = some wrote → (l n).wrote? = some wrote)
    (hok : AnswersOk n e → (l n).wrote? = some (rpcFrames (framesOf h₀ rpcs n))) :
    Serialised h₀ rpcs T (h', s.2 ++ [e]) (update l n l') := by
  have hmem : ∀ {m x}, (l m).holds = some x → m ∈ locked s.2 := fun {m x} hx => by
    obtain ⟨_, _, horder, -⟩ := (hi.holds m x hx).last
    rw [horder]
    simp
  constructor
  case stream => exact hi.stream
  case tables => exact htab.trans hi.tables
  case frames =>
    exact (forall_update_iff l fun m φ => φ.Frames h₀ rpcs h' m).mpr
      ⟨hframes, fun m hm => (hi.frames m).congr (hinbox m hm)⟩
  case inLog =>
    exact (forall_update_iff l fun m φ => φ.InLog (s.2 ++ [e]) m).mpr
      ⟨hlog, fun m hm => (hi.inLog m).other fun h => hm (h.symm.trans he)⟩
  case holds =>
    refine (forall_update_iff l fun m φ => ∀ x, φ.holds = some x → Holds T _ m φ x).mpr
      ⟨fun x hx => ?_, fun m hm x hx => ?_⟩
    · obtain ⟨hx, hstripe, hw⟩ := hown x hx
      exact (hi.holds n x hx).keep hlock hstripe hw
    · exact (hi.holds m x hx).keep hlock (hothers m hm x hx) fun _ h => h
  case nodup => exact (locked_quiet hlock).symm ▸ hi.nodup
  case sound =>
    intro m hm
    refine (hi.sound m (locked_quiet hlock ▸ hm)).append fun h => ?_
    rw [hi.stream] at h ⊢
    obtain rfl := he.symm.trans h.1
    obtain ⟨x, hx⟩ := WritePhase.holds_of_wrote? (hok h)
    exact ((hi.holds _ x hx).wrote _ (hok h)).symm
  case answered =>
    rintro m ⟨e', he', h⟩
    rw [locked_quiet hlock]
    rcases List.mem_append.mp he' with he' | he'
    · exact hi.answered m ⟨e', he', h⟩
    · obtain rfl := List.mem_singleton.mp he'
      obtain rfl := he.symm.trans h.1
      obtain ⟨x, hx⟩ := WritePhase.holds_of_wrote? (hok h)
      exact hmem hx
  case content =>
    intro i F hF
    rw [locked_quiet hlock]
    exact hfs ▸ hi.content i F hF

/-- Streams that share a file share the key of its lock. -/
def OneKeyPerFile (h : Host) : Prop :=
  ∀ {session session' id id' oh oh'}, (h.tables session).inner.lookup id = some oh →
    (h.tables session').inner.lookup id' = some oh' → oh.file.ino = oh'.file.ino →
    oh.inoKey = oh'.inoKey

theorem CtxOf.key_eq (hkey : OneKeyPerFile h₀) {x y : WriteCtx} (hx : CtxOf h₀ rpcs n x)
    (hy : CtxOf h₀ rpcs m y) (h : x.file.ino = y.file.ino) : x.key = y.key := by
  obtain ⟨_, hx, rfl⟩ := hx
  obtain ⟨_, hy, rfl⟩ := hy
  exact hkey hx hy h

theorem WritePhase.Frames.ctx {x : WriteCtx} (hl : l.Frames h₀ rpcs h n) (hx : l.holds = some x) :
    CtxOf h₀ rpcs n x := by
  cases l with
  | writing => cases hx; exact hl.1
  | waiting => cases hx; exact hl.1
  | answering => cases hx; exact hl.1
  | leaving => cases hx; exact hl
  | _ => cases hx

theorem map_update_of_notMem {order : List Nat} {t : Txn} (h : n ∉ order) :
    order.map (update T n t) = order.map T :=
  List.map_congr_left fun m hm => update_of_ne (fun he : m = n => h (he ▸ hm)) _ _

/-- What the last RPC to a file writes comes after everything written to the file. -/
theorem serial_update {order : List Nat} {t : Txn} {g : Bytes → Bytes} (hlast : LastOn T order n)
    (hnd : order.Nodup) (hfile : t.file = (T n).file) (ht : ∀ F, t.apply F = g ((T n).apply F))
    (i : Ino) (F : Bytes) :
    serial F ((order.map (update T n t)).filter (·.file.ino = i)) =
      if i = (T n).file.ino then g (serial F ((order.map T).filter (·.file.ino = i)))
      else serial F ((order.map T).filter (·.file.ino = i)) := by
  obtain ⟨before, after, rfl, hafter⟩ := hlast
  have hn := List.nodup_middle.mp hnd
  have hnot := (List.nodup_cons.mp hn).1
  rw [List.mem_append, not_or] at hnot
  rw [List.map_append, List.map_cons, map_update_of_notMem hnot.1, map_update_of_notMem hnot.2,
    update_self, List.map_append, List.map_cons]
  by_cases hi : i = (T n).file.ino
  · -- nothing follows it on this file
    have hnil : (after.map T).filter (·.file.ino = i) = [] := by
      rw [List.filter_eq_nil_iff]
      intro u hu
      obtain ⟨m, hm, rfl⟩ := List.mem_map.mp hu
      simpa [hi] using hafter m hm
    rw [if_pos hi, List.filter_append, List.filter_append,
      List.filter_cons_of_pos (by simp [hfile, hi]), List.filter_cons_of_pos (by simp [hi]), hnil]
    simp [serial, List.foldl_append, ht]
  · have hne : ¬(T n).file.ino = i := fun h => hi h.symm
    rw [if_neg hi, List.filter_append, List.filter_append,
      List.filter_cons_of_neg (by simp [hfile, hne]), List.filter_cons_of_neg (by simp [hne])]

theorem LastOn.update {order : List Nat} {t : Txn} (hlast : LastOn T order m)
    (hfile : t.file = (T n).file) : LastOn (Function.update T n t) order m := by
  have hsame : ∀ k, (Function.update T n t k).file = (T k).file := fun k => by
    rw [Function.update_apply]
    split
    · next h => rw [h, hfile]
    · rfl
  obtain ⟨before, after, horder, hafter⟩ := hlast
  exact ⟨before, after, horder, fun k hk => by rw [hsame, hsame]; exact hafter k hk⟩

theorem LastOn.push {order : List Nat} {t : Txn} (hlast : LastOn T order m) (hn : n ∉ order)
    (hino : t.file.ino ≠ (T m).file.ino) : LastOn (Function.update T n t) (order ++ [n]) m := by
  obtain ⟨before, after, rfl, hafter⟩ := hlast
  have hold : ∀ k ∈ before ++ m :: after, Function.update T n t k = T k := fun k hk =>
    update_of_ne (fun e : k = n => hn (e ▸ hk)) _ _
  refine ⟨before, after ++ [n], by simp, fun k hk => ?_⟩
  rw [hold m (by simp)]
  rcases List.mem_append.mp hk with hk | hk
  · rw [hold k (by simp [hk])]
    exact hafter k hk
  · rw [List.mem_singleton.mp hk, update_self]
    exact hino

/-- An RPC that has written nothing changes nothing. -/
theorem serial_push {order : List Nat} {t : Txn} (hn : n ∉ order)
    (ht : ∀ F, t.apply F = F) (i : Ino) (F : Bytes) :
    serial F (((order ++ [n]).map (update T n t)).filter (·.file.ino = i)) =
      serial F ((order.map T).filter (·.file.ino = i)) := by
  rw [List.map_append, map_update_of_notMem hn, List.map_singleton, update_self,
    List.filter_append, serial, serial, List.foldl_append]
  by_cases hi : t.file.ino = i
  · rw [List.filter_cons_of_pos (by simpa using hi)]
    exact ht _
  · rw [List.filter_cons_of_neg (by simpa using hi)]
    rfl

theorem WritePhase.InLog.lock (hl : l.InLog log n) (h : e.thread = n) (hover : ¬l.Over)
    (hnok : ¬AnswersOk n e) (hne : l' ≠ .fresh) (hholds : l'.holds.isSome) :
    l'.InLog (log ++ [e]) n where
  fresh := ⟨fun hall => absurd h (hall e (by simp)), fun h' => absurd h' hne⟩
  quiet _ e' he' := by
    rcases List.mem_append.mp he' with he' | he'
    · exact hl.quiet hover e' he'
    · rw [List.mem_singleton.mp he']
      exact hnok
  unlocked _ := .inl hholds

/-- A stream keeps its stripe while another takes one for another file. -/
theorem Holds.beside {x : WriteCtx} {t : Txn} (hh : Holds T s m l x) (hmn : m ≠ n)
    (hn : n ∉ locked s.2) (horder : locked log = locked s.2 ++ [n])
    (hs : h'.stripes (stripeFor x.key) = some m) (hino : t.file.ino ≠ x.file.ino) :
    Holds (update T n t) (h', log) m l x where
  stripe := hs
  file := by rw [update_of_ne hmn, hh.file]
  append := by rw [update_of_ne hmn, hh.append]
  last := horder ▸ hh.last.push hn (hh.file ▸ hino)
  wrote := by
    rw [update_of_ne hmn]
    exact hh.wrote

/-- A stream takes its stripe: its RPC is the last so far. -/
theorem Serialised.lock {l : Nat → WritePhase} {x : WriteCtx} (hkey : OneKeyPerFile h₀)
    (hi : Serialised h₀ rpcs T s l) (hl : l n = .found x)
    (hfree : s.1.stripes (stripeFor x.key) = none) :
    Serialised h₀ rpcs (update T n ⟨n, x.file, x.append, [], none⟩)
      ({ s.1 with stripes := update s.1.stripes (stripeFor x.key) (some n) },
        s.2 ++ [⟨n, .lockStripe (stripeFor x.key), true⟩])
      (update l n (.writing x [] (rpcs n).first)) := by
  obtain ⟨hctx, hinbox⟩ : CtxOf h₀ rpcs n x ∧ s.1.inbox n = h₀.inbox n := by
    simpa [hl, WritePhase.Frames] using hi.frames n
  have hlog := hi.inLog n
  rw [hl] at hlog
  have hnew : n ∉ locked s.2 := fun h => by simpa [WritePhase.holds] using hlog.unlocked h
  set e : Event Sys Sys.Ret Nat := ⟨n, .lockStripe (stripeFor x.key), true⟩
  have horder : locked (s.2 ++ [e]) = locked s.2 ++ [n] := locked_append s.2 e
  have hnok : ∀ {k}, ¬AnswersOk k e := fun h => by obtain ⟨_, _, h, _⟩ := h; cases h
  have hbefore : ∀ {k}, (∃ e' ∈ s.2 ++ [e], AnswersOk k e') → ∃ e' ∈ s.2, AnswersOk k e' := by
    rintro k ⟨e', he', h⟩
    rcases List.mem_append.mp he' with he' | he'
    · exact ⟨e', he', h⟩
    · exact absurd (List.mem_singleton.mp he' ▸ h) hnok
  constructor
  case stream =>
    exact (forall_update_iff T fun m t => t.stream = m).mpr ⟨rfl, fun m _ => hi.stream m⟩
  case tables => exact hi.tables
  case frames =>
    exact (forall_update_iff l fun m φ => φ.Frames h₀ rpcs _ m).mpr
      ⟨⟨hctx, by simp [hinbox, framesOf], by simp⟩, fun m _ => (hi.frames m).congr rfl⟩
  case inLog =>
    exact (forall_update_iff l fun m φ => φ.InLog (s.2 ++ [e]) m).mpr
      ⟨hlog.lock rfl id hnok nofun rfl, fun m hm => (hi.inLog m).other fun h => hm h.symm⟩
  case holds =>
    refine (forall_update_iff l fun m φ => ∀ y, φ.holds = some y → Holds _ _ m φ y).mpr
      ⟨fun y hy => ?_, fun m hm y hy => ?_⟩
    · obtain rfl : x = y := Option.some.inj hy
      refine ⟨update_self _ _ _, by rw [update_self],
        by rw [update_self], ⟨locked s.2, [], horder, nofun⟩, fun wrote hw => ?_⟩
      rw [update_self]
      exact ⟨Option.some.inj hw, rfl⟩
    · have hh := hi.holds m y hy
      -- the stripe was free, so nobody holds one for this file
      have hstripe : stripeFor y.key ≠ stripeFor x.key := fun h => by
        have := hh.stripe
        rw [h, hfree] at this
        cases this
      have hkept : update s.1.stripes (stripeFor x.key) (some n) (stripeFor y.key) = some m := by
        rw [update_of_ne hstripe, hh.stripe]
      exact hh.beside hm hnew horder hkept fun h =>
        hstripe (by rw [hctx.key_eq hkey ((hi.frames m).ctx hy) h])
  case nodup =>
    rw [horder]
    exact List.nodup_append'.mpr ⟨hi.nodup, List.nodup_singleton n, by simpa using hnew⟩
  case sound =>
    intro m hm
    rw [horder] at hm
    rcases List.mem_append.mp hm with hm | hm
    · rw [update_of_ne fun h : m = n => hnew (h ▸ hm)]
      exact (hi.sound m hm).append fun h => absurd h hnok
    · obtain rfl := List.mem_singleton.mp hm
      rw [update_self]
      obtain ⟨oh, hoh, rfl⟩ := hctx
      refine ⟨⟨oh, hoh, rfl, rfl⟩, List.nil_prefix, fun h => ?_, nofun⟩
      obtain ⟨e', he', h⟩ := hbefore h
      exact absurd h (hlog.quiet id e' he')
  case answered =>
    intro m h
    rw [horder]
    exact List.mem_append_left _ (hi.answered m (hbefore h))
  case content =>
    intro i F hF
    rw [horder, serial_push hnew fun _ => rfl]
    exact hi.content i F hF

/-- A stream that holds its stripe writes: the content changes as its RPC does. -/
theorem Serialised.rewrite {l : Nat → WritePhase} {x : WriteCtx} {t : Txn} {g : Bytes → Bytes}
    (hi : Serialised h₀ rpcs T s l) (hx : (l n).holds = some x) (he : e.thread = n)
    (hlock : lockedBy e = none) (hnok : ∀ k, ¬AnswersOk k e) (htab : h'.tables = s.1.tables)
    (hinbox : h'.inbox = s.1.inbox) (hstripes : h'.stripes = s.1.stripes)
    (hfs : ∀ i F, s.1.fs.content i = some F →
      h'.fs.content i = some (if i = x.file.ino then g F else F))
    (hstream : t.stream = n) (hfile : t.file = (T n).file) (happend : t.append = (T n).append)
    (ht : ∀ F, t.apply F = g ((T n).apply F)) (hsound : t.Sound h₀ rpcs (s.2 ++ [e]))
    (hframes : l'.Frames h₀ rpcs h' n) (hlog : l'.InLog (s.2 ++ [e]) n) (hx' : l'.holds = some x)
    (hwrote : ∀ wrote, l'.wrote? = some wrote → t.frames = wrote ∧ t.torn = none) :
    Serialised h₀ rpcs (update T n t) (h', s.2 ++ [e]) (update l n l') := by
  have hh := hi.holds n x hx
  constructor
  case stream =>
    exact (forall_update_iff T fun m t => t.stream = m).mpr ⟨hstream, fun m _ => hi.stream m⟩
  case tables => exact htab.trans hi.tables
  case frames =>
    exact (forall_update_iff l fun m φ => φ.Frames h₀ rpcs h' m).mpr
      ⟨hframes, fun m _ => (hi.frames m).congr (congrFun hinbox m)⟩
  case inLog =>
    exact (forall_update_iff l fun m φ => φ.InLog (s.2 ++ [e]) m).mpr
      ⟨hlog, fun m hm => (hi.inLog m).other fun h => hm (h.symm.trans he)⟩
  case holds =>
    intro m y hy
    have hlast : ∀ {k}, LastOn T (locked s.2) k →
        LastOn (update T n t) (locked (s.2 ++ [e])) k := fun h => by
      rw [locked_quiet hlock]
      exact h.update hfile
    by_cases hm : m = n
    · subst hm
      rw [update_self] at hy ⊢
      obtain rfl : x = y := Option.some.inj (hx'.symm.trans hy)
      refine ⟨(congrFun hstripes _).trans hh.stripe, ?_, ?_, hlast hh.last, fun wrote hw => ?_⟩
      · rw [update_self, hfile, hh.file]
      · rw [update_self, happend, hh.append]
      · rw [update_self]
        exact hwrote wrote hw
    · rw [update_of_ne hm] at hy ⊢
      have hm' := hi.holds m y hy
      refine ⟨(congrFun hstripes _).trans hm'.stripe, ?_, ?_, hlast hm'.last, fun wrote hw => ?_⟩
      · rw [update_of_ne hm, hm'.file]
      · rw [update_of_ne hm, hm'.append]
      · rw [update_of_ne hm]
        exact hm'.wrote wrote hw
  case nodup => exact (locked_quiet hlock).symm ▸ hi.nodup
  case sound =>
    intro m hm
    by_cases h : m = n
    · subst h
      rwa [update_self]
    · rw [update_of_ne h]
      exact (hi.sound m (locked_quiet hlock ▸ hm)).append fun hok => absurd hok (hnok _)
  case answered =>
    rintro m ⟨e', he', h⟩
    rw [locked_quiet hlock]
    rcases List.mem_append.mp he' with he' | he'
    · exact hi.answered m ⟨e', he', h⟩
    · exact absurd (List.mem_singleton.mp he' ▸ h) (hnok m)
  case content =>
    intro i F hF
    rw [locked_quiet hlock, serial_update hh.last hi.nodup hfile ht, hh.file,
      hfs i _ (hi.content i F hF)]

theorem Txn.apply_frame {t : Txn} (h : t.torn = none) (w : WriteRequest) (F : Bytes) :
    Txn.apply F (t.frame w) = placed t.append (Txn.apply F t) w := by
  simp [Txn.apply, Txn.frame, h, List.foldl_append]

theorem Txn.apply_tear {t : Txn} (h : t.torn = none) (w : WriteRequest) (k : Nat) (F : Bytes) :
    Txn.apply F (t.tear w k) = placed t.append (Txn.apply F t)
      { w with data := w.data.take k } := by
  simp [Txn.apply, Txn.tear, h]

theorem begins_rpcFrames {wrote rest : List WriteRequest} {w : WriteRequest}
    (hall : wrote ++ w :: rest = framesOf h₀ rpcs n) (hdone : ∀ v ∈ wrote, v.done = false) :
    wrote ++ [w] <+: rpcFrames (framesOf h₀ rpcs n) := by
  rw [← hall, rpcFrames_append hdone]
  exact (List.prefix_append_right_inj _).mpr (head_rpcFrames w rest)

variable {kernel : Kernel} {ex : Export} {dur : Durability} {c : Choice}

theorem exec_writeAt_host {f : File} {offset : UInt64} {data : Bytes} {append : Bool}
    {r : Option IoErrorKind}
    (hex : Sys.exec kernel ex n (.writeAt f offset data append) c h = some (r, h')) :
    h'.tables = h.tables ∧ h'.inbox = h.inbox ∧ h'.stripes = h.stripes := by
  obtain rfl : _ = h' := congrArg Prod.snd (Option.some.inj hex)
  unfold writeFile
  split <;> exact ⟨rfl, rfl, rfl⟩

/-- The RPC is the stream's own, unanswered while the stream is writing. -/
theorem Serialised.unanswered {l : Nat → WritePhase} {x : WriteCtx} {wrote : List WriteRequest}
    {w : WriteRequest} (hi : Serialised h₀ rpcs T s l) (hl : l n = .writing x wrote w)
    (hnok : ∀ k, ¬AnswersOk k e) : ¬∃ e' ∈ s.2 ++ [e], AnswersOk (T n).stream e' := by
  rintro ⟨e', he', h⟩
  rcases List.mem_append.mp he' with he' | he'
  · rw [hi.stream] at h
    refine (hi.inLog n).quiet ?_ e' he' h
    rw [hl]
    exact id
  · exact hnok _ (List.mem_singleton.mp he' ▸ h)

theorem Serialised.writing {l : Nat → WritePhase} {x : WriteCtx} {wrote : List WriteRequest}
    {w : WriteRequest} (hi : Serialised h₀ rpcs T s l) (hl : l n = .writing x wrote w) :
    (l n).holds = some x ∧ (T n).Sound h₀ rpcs s.2 ∧ (T n).frames = wrote ∧ (T n).torn = none ∧
      CtxOf h₀ rpcs n x ∧ wrote ++ w :: s.1.inbox n = framesOf h₀ rpcs n ∧
      ∀ v ∈ wrote, v.done = false := by
  have hx : (l n).holds = some x := by rw [hl]; rfl
  have hh := hi.holds n x hx
  obtain ⟨hframes, htorn⟩ := hh.wrote wrote (by rw [hl]; rfl)
  obtain ⟨_, _, horder, -⟩ := hh.last
  have hphase := hi.frames n
  rw [hl] at hphase
  exact ⟨hx, hi.sound n (by rw [horder]; simp), hframes, htorn, hphase⟩

/-- A frame is written in full. -/
theorem Serialised.write_full {l : Nat → WritePhase} {x : WriteCtx} {wrote : List WriteRequest}
    {w : WriteRequest} (hi : Serialised h₀ rpcs T s l) (hl : l n = .writing x wrote w)
    (hex : Sys.exec kernel ex n (.writeAt x.file w.offset w.data x.append) c s.1 =
      some ((none : Option IoErrorKind), h')) :
    Serialised h₀ rpcs (update T n ((T n).frame w))
      (h', s.2 ++ [⟨n, .writeAt x.file w.offset w.data x.append, (none : Option IoErrorKind)⟩])
      (update l n
        (if w.done then .answering x (wrote ++ [w]) .ok else .waiting x (wrote ++ [w]))) := by
  obtain ⟨hx, hsound, hframes, htorn, hctx, hall, hdone⟩ := hi.writing hl
  have hlog := hi.inLog n
  rw [hl] at hlog
  obtain ⟨k, hk, hcontent⟩ := exec_writeAt_content hex
  obtain ⟨htables, hinbox, hstripes⟩ := exec_writeAt_host hex
  have hw : ({ w with data := w.data.take k } : WriteRequest) = w := by
    rw [hk rfl, List.take_length]
  set e : Event Sys Sys.Ret Nat :=
    ⟨n, .writeAt x.file w.offset w.data x.append, (none : Option IoErrorKind)⟩ with he
  have hnok : ∀ m, ¬AnswersOk m e := fun m h => by obtain ⟨_, _, h, _⟩ := h; cases h
  have hs : ((T n).frame w).Sound h₀ rpcs (s.2 ++ [e]) := by
    refine ⟨hsound.handle, ?_, fun h => absurd h (hi.unanswered hl hnok),
      fun v j h => absurd (htorn.symm.trans h) nofun⟩
    simpa [Txn.frame, htorn, hframes, hi.stream n, framesOf] using begins_rpcFrames hall hdone
  have hrest : ∀ {l' : WritePhase}, l'.holds = some x → l'.wrote? = some (wrote ++ [w]) →
      l'.Frames h₀ rpcs h' n → Serialised h₀ rpcs (update T n ((T n).frame w))
        (h', s.2 ++ [e]) (update l n l') := by
    intro l' hx' hwrote hphase
    refine hi.rewrite hx rfl rfl hnok htables hinbox hstripes (g := fun F => placed x.append F w)
      (fun i F hF => by rw [hcontent i F hF, hw]) (hi.stream n) rfl rfl
      (fun F => by rw [Txn.apply_frame htorn, (hi.holds n x hx).append]) hs hphase
      (hlog.step rfl rfl ?_ (fun _ => ⟨id, hnok n⟩) fun _ => .inl (by rw [hx']; rfl)) hx'
      fun v hv => ?_
    · rintro rfl
      cases hx'
    · obtain rfl := Option.some.inj (hwrote.symm.trans hv)
      exact ⟨by rw [Txn.frame, hframes], htorn⟩
  cases hd : w.done with
  | true =>
    refine hrest rfl rfl ⟨hctx, fun _ => ?_⟩
    rw [← hall, rpcFrames_append hdone, rpcFrames, if_pos hd]
  | false =>
    refine hrest rfl rfl ⟨hctx, by rw [hinbox, List.append_assoc]; exact hall, fun v hv => ?_⟩
    rcases List.mem_append.mp hv with hv | hv
    · exact hdone v hv
    · rw [List.mem_singleton.mp hv, hd]

/-- The write of a frame fails, with a part of it written. -/
theorem Serialised.write_torn {l : Nat → WritePhase} {x : WriteCtx} {wrote : List WriteRequest}
    {w : WriteRequest} {err : IoErrorKind} (hi : Serialised h₀ rpcs T s l)
    (hl : l n = .writing x wrote w)
    (hex : Sys.exec kernel ex n (.writeAt x.file w.offset w.data x.append) c s.1 =
      some ((some err : Option IoErrorKind), h')) :
    ∃ k, Serialised h₀ rpcs (update T n ((T n).tear w k))
      (h', s.2 ++ [⟨n, .writeAt x.file w.offset w.data x.append, (some err : Option IoErrorKind)⟩])
      (update l n (.answering x wrote (.ofIo err))) := by
  obtain ⟨hx, hsound, hframes, htorn, hctx, hall, hdone⟩ := hi.writing hl
  have hlog := hi.inLog n
  rw [hl] at hlog
  obtain ⟨k, -, hcontent⟩ := exec_writeAt_content hex
  obtain ⟨htables, hinbox, hstripes⟩ := exec_writeAt_host hex
  set e : Event Sys Sys.Ret Nat :=
    ⟨n, .writeAt x.file w.offset w.data x.append, (some err : Option IoErrorKind)⟩ with he
  have hnok : ∀ m, ¬AnswersOk m e := fun m h => by obtain ⟨_, _, h, _⟩ := h; cases h
  have hs : ((T n).tear w k).Sound h₀ rpcs (s.2 ++ [e]) := by
    refine ⟨hsound.handle, ?_, fun h => absurd h (hi.unanswered hl hnok), fun v j h => ?_⟩
    · simpa [Txn.tear, hframes, hi.stream n, framesOf] using begins_rpcFrames hall hdone
    · obtain ⟨rfl, rfl⟩ := Prod.mk.inj (Option.some.inj h)
      exact ⟨e, by simp, x.file, x.append, err, by rw [he, Txn.tear, hi.stream]⟩
  refine ⟨k, hi.rewrite hx rfl rfl hnok htables hinbox hstripes hcontent (hi.stream n) rfl rfl
    (fun F => by rw [Txn.apply_tear htorn, (hi.holds n x hx).append]) hs
    ⟨hctx, fun h => absurd h (Status.ofIo_ne_ok err)⟩
    (hlog.step rfl rfl nofun (fun _ => ⟨id, hnok n⟩) fun _ => .inl rfl) rfl fun v hv => ?_⟩
  -- an RPC that will answer an error writes no more
  cases err <;> cases hv

theorem Serialised.unlock {l : Nat → WritePhase} {x : WriteCtx} (hi : Serialised h₀ rpcs T s l)
    (hx : (l n).holds = some x) :
    Serialised h₀ rpcs T
      ({ s.1 with stripes := update s.1.stripes (stripeFor x.key) none },
        s.2 ++ [⟨n, .unlockStripe (stripeFor x.key), ()⟩]) (update l n .ended) := by
  refine hi.quiet rfl rfl rfl rfl (fun _ _ => rfl) trivial ?_ (fun m hm y hy => ?_) nofun ?_
  · exact (hi.inLog n).step rfl rfl nofun (fun h => absurd trivial h) fun _ => .inr rfl
  · -- another stream's stripe is another one
    have hstripe := (hi.holds m y hy).stripe
    change update s.1.stripes (stripeFor x.key) none (stripeFor y.key) = some m
    rw [update_of_ne, hstripe]
    intro h
    rw [h, (hi.holds n x hx).stripe] at hstripe
    exact hm (Option.some.inj hstripe).symm
  · rintro ⟨_, _, h, _⟩
    cases h

/-- A stream reads the handle table. -/
theorem Serialised.getCtx {l : Nat → WritePhase} (hi : Serialised h₀ rpcs T s l)
    (hl : l n = .fresh) :
    Serialised h₀ rpcs T (s.1, s.2 ++ [⟨n, .getWriteCtx (rpcs n).session (rpcs n).first.handle,
        (s.1.tables (rpcs n).session).getWriteCtx (rpcs n).first.handle⟩])
      (update l n (WritePhase.fresh.after (rpcs n)
        (.getWriteCtx (rpcs n).session (rpcs n).first.handle)
        ((s.1.tables (rpcs n).session).getWriteCtx (rpcs n).first.handle))) := by
  have hlog := hi.inLog n
  have hinbox : s.1.inbox n = h₀.inbox n := by simpa [hl, WritePhase.Frames] using hi.frames n
  rw [hl] at hlog
  set q := rpcs n with hq
  have hnext : ∀ {l' : WritePhase} {r : Option (File × UInt32 × Nat)}, l'.holds = none →
      l' ≠ .fresh →
      l'.Frames h₀ rpcs s.1 n → Serialised h₀ rpcs T
        (s.1, s.2 ++ [⟨n, .getWriteCtx q.session q.first.handle, r⟩]) (update l n l') := by
    intro l' r hnone hne hphase
    have hnok : ¬AnswersOk n ⟨n, .getWriteCtx q.session q.first.handle, r⟩ := by
      rintro ⟨_, _, h, _⟩
      cases h
    refine hi.quiet rfl rfl rfl rfl (fun _ _ => rfl) hphase ?_
      (fun m _ x hx => (hi.holds m x hx).stripe) (by simp [hnone]) fun h => absurd h hnok
    exact hlog.step rfl rfl hne (fun _ => ⟨id, hnok⟩) (by simp [WritePhase.holds])
  rcases hc : (s.1.tables q.session).getWriteCtx q.first.handle with _ | ⟨f, flags, key⟩
  · exact hnext rfl nofun trivial
  · refine hnext rfl nofun ⟨?_, hinbox⟩
    obtain ⟨oh, hoh, h⟩ := Option.map_eq_some_iff.mp hc
    cases h
    exact ⟨oh, by rw [← hi.tables]; exact hoh, rfl⟩

theorem Serialised.recv {l : Nat → WritePhase} {x : WriteCtx} {wrote : List WriteRequest}
    {r : Option WriteRequest} (hi : Serialised h₀ rpcs T s l) (hl : l n = .waiting x wrote)
    (hex : Sys.exec kernel ex n .recvFrame c s.1 = some (r, h')) :
    Serialised h₀ rpcs T (h', s.2 ++ [⟨n, .recvFrame, r⟩])
      (update l n ((WritePhase.waiting x wrote).after (rpcs n) .recvFrame r)) := by
  have hx : (l n).holds = some x := by rw [hl]; rfl
  have hstripe := fun m y hy => (hi.holds m y hy).stripe
  have hlog := hi.inLog n
  have hphase := hi.frames n
  rw [hl] at hlog hphase
  obtain ⟨hctx, hall, hdone⟩ := hphase
  have hnok : ¬AnswersOk n ⟨n, .recvFrame, r⟩ := by
    rintro ⟨_, _, h, _⟩
    cases h
  simp only [Sys.exec] at hex
  split at hex
  · obtain ⟨rfl, rfl⟩ := Prod.mk.inj (Option.some.inj hex)
    exact hi.quiet rfl rfl rfl rfl (fun _ _ => rfl) hctx
      (hlog.step rfl rfl (fun h => by cases h) (fun h => absurd trivial h) fun _ => .inl rfl)
      (fun m _ => hstripe m)
      (fun y hy => ⟨hx.trans hy, hstripe n y (hx.trans hy), fun v hv => by cases hv⟩)
      fun h => absurd h hnok
  · split at hex
    · cases hex
    · next w ws hws =>
      obtain ⟨rfl, rfl⟩ := Prod.mk.inj (Option.some.inj hex)
      refine hi.quiet rfl rfl rfl rfl (fun m hm => update_of_ne hm _ _) ?_
        (hlog.step rfl rfl (fun h => by cases h) (fun _ => ⟨id, hnok⟩) fun _ => .inl rfl)
        (fun m _ => hstripe m)
        (fun y hy => ⟨hx.trans hy, hstripe n y (hx.trans hy), fun v hv => by rw [hl]; exact hv⟩)
        fun h => absurd h hnok
      refine ⟨hctx, ?_, hdone⟩
      change wrote ++ w :: update s.1.inbox n ws n = _
      rw [update_self, ← hws]
      exact hall

theorem Serialised.answer {l : Nat → WritePhase} {q : Response} (hi : Serialised h₀ rpcs T s l)
    (ha : (l n).Allows (rpcs n) (.reply q)) :
    Serialised h₀ rpcs T ({ s.1 with replies := s.1.replies ++ [(n, q)] },
        s.2 ++ [⟨n, .reply q, ()⟩])
      (update l n ((l n).after (rpcs n) (.reply q) ())) := by
  have hstripe := fun m y hy => (hi.holds m y hy).stripe
  have hlog := hi.inLog n
  have hphase := hi.frames n
  cases hl : l n with
  | refused =>
    rw [hl] at ha hlog
    obtain ⟨r, hr, hstatus⟩ := ha
    cases hr
    refine hi.quiet rfl rfl rfl rfl (fun _ _ => rfl) trivial
      (hlog.step rfl rfl nofun (fun h => absurd trivial h) fun _ => .inr rfl)
      (fun m _ => hstripe m) nofun ?_
    rintro ⟨_, r, hr, hok⟩
    cases hr
    rw [hstatus] at hok
    cases hok
  | answering x wrote status =>
    rw [hl] at ha hlog hphase
    have hx : (l n).holds = some x := by rw [hl]; rfl
    obtain ⟨r, hr, hstatus⟩ := ha
    cases hr
    refine hi.quiet rfl rfl rfl rfl (fun _ _ => rfl) hphase.1
      (hlog.step rfl rfl nofun (fun h => absurd trivial h) fun _ => .inl rfl)
      (fun m _ => hstripe m) (fun y hy => ⟨hx.trans hy, hstripe n y (hx.trans hy), nofun⟩) ?_
    rintro ⟨_, r, hr, hok⟩
    cases hr
    obtain rfl : status = .ok := hstatus.symm.trans hok
    rw [hl, ← hphase.2 rfl]
    rfl
  | waiting x wrote =>
    rw [hl] at ha
    rcases ha with h | h <;> cases h
  | ended =>
    rw [hl] at ha
    exact ha.elim
  | _ =>
    rw [hl] at ha
    cases ha

theorem Serialised.exec (hkey : OneKeyPerFile h₀) {l : Nat → WritePhase} {a : Sys} {r : a.Ret}
    (hi : Serialised h₀ rpcs T s l) (ha : (l n).Allows (rpcs n) a)
    (hex : a.exec kernel ex n c s.1 = some (r, h')) :
    ∃ T, Serialised h₀ rpcs T (h', s.2 ++ [⟨n, a, r⟩])
      (update l n ((l n).after (rpcs n) a r)) := by
  cases hl : l n with
  | fresh =>
    rw [hl] at ha
    obtain rfl := ha
    obtain ⟨rfl, rfl⟩ := Prod.mk.inj (Option.some.inj hex)
    exact ⟨T, hi.getCtx hl⟩
  | found x =>
    rw [hl] at ha
    obtain rfl := ha
    simp only [Sys.exec] at hex
    split at hex
    · -- it ran into its time limit
      obtain ⟨rfl, rfl⟩ := Prod.mk.inj (Option.some.inj hex)
      have hlog := hi.inLog n
      rw [hl] at hlog
      have hnok : ¬AnswersOk n ⟨n, .lockStripe (stripeFor x.key), false⟩ := by
        rintro ⟨_, _, h, _⟩
        cases h
      exact ⟨T, hi.quiet rfl rfl rfl rfl (fun _ _ => rfl) trivial
        (hlog.step rfl rfl (fun h => by cases h) (fun h => absurd trivial h) fun _ => .inr rfl)
        (fun m _ y hy => (hi.holds m y hy).stripe) (fun y hy => by cases hy)
        fun h => absurd h hnok⟩
    · split at hex
      · next hfree =>
        obtain ⟨rfl, rfl⟩ := Prod.mk.inj (Option.some.inj hex)
        exact ⟨_, hi.lock hkey hl hfree⟩
      · cases hex
  | writing x wrote w =>
    rw [hl] at ha
    obtain rfl := ha
    change Option IoErrorKind at r
    cases r with
    | none => exact ⟨_, hi.write_full hl hex⟩
    | some err => exact (hi.write_torn hl hex).elim fun k h => ⟨_, h⟩
  | waiting x wrote =>
    rw [hl] at ha
    rcases ha with rfl | rfl
    · exact ⟨T, hi.recv hl hex⟩
    · obtain ⟨-, rfl⟩ := Prod.mk.inj (Option.some.inj hex)
      exact ⟨T, hi.unlock (by rw [hl]; rfl)⟩
  | answering x wrote status =>
    have ha' := ha
    rw [hl] at ha
    obtain ⟨q, rfl, -⟩ := ha
    obtain ⟨-, rfl⟩ := Prod.mk.inj (Option.some.inj hex)
    exact ⟨T, hl ▸ hi.answer ha'⟩
  | leaving x =>
    rw [hl] at ha
    obtain rfl := ha
    obtain ⟨-, rfl⟩ := Prod.mk.inj (Option.some.inj hex)
    exact ⟨T, hi.unlock (by rw [hl]; rfl)⟩
  | refused =>
    have ha' := ha
    rw [hl] at ha
    obtain ⟨q, rfl, -⟩ := ha
    obtain ⟨-, rfl⟩ := Prod.mk.inj (Option.some.inj hex)
    exact ⟨T, hl ▸ hi.answer ha'⟩
  | ended =>
    rw [hl] at ha
    exact ha.elim

theorem Serialised.start (h₀ : Host) (rpcs : Nat → WriteRpc) :
    Serialised h₀ rpcs (fun n => ⟨n, ⟨0, .path⟩, false, [], none⟩) (h₀, []) fun _ => .fresh := by
  constructor
  case stream => exact fun _ => rfl
  case tables => rfl
  case frames => exact fun _ => rfl
  case inLog =>
    intro n
    refine ⟨⟨fun _ => rfl, fun _ e he => ?_⟩, fun _ e he => ?_, fun h => ?_⟩
    all_goals simp [locked] at *
  case holds => exact fun n x hx => nomatch hx
  case nodup => exact List.nodup_nil
  case sound => exact fun n hn => absurd hn List.not_mem_nil
  case answered =>
    rintro n ⟨e, he, -⟩
    cases he
  case content => exact fun _ _ hF => hF

/-- **Write RPCs are serial.** Any Write RPCs on any handles and sessions, their steps in any
order and any of them cut off. What the files hold is what the RPCs leave one after another, in
the order in which they took their stripe, each with the frames it wrote. -/
theorem writes_serial {c : Config Sys Sys.Ret (Host × Log) Nat} (hkey : OneKeyPerFile h₀)
    (h : Reach (serverMachine kernel ex dur).recorded.step (OneWriteEach rpcs).Meets
      (Config.idle (h₀, [])) c) :
    ∃ txns : List Txn, txns.map Txn.stream = locked c.state.2 ∧ (locked c.state.2).Nodup ∧
      (∀ t ∈ txns, t.Sound h₀ rpcs c.state.2) ∧
      (∀ n, (∃ e ∈ c.state.2, AnswersOk n e) → n ∈ locked c.state.2) ∧
      ∀ i F, h₀.fs.content i = some F →
        c.state.1.fs.content i = some (serial F (txns.filter (·.file.ino = i))) := by
  let final : Nat → WritePhase → Prop := fun _ l => l = .fresh ∨ l = .ended
  have hinv := @Machine.sound Sys Sys.Ret (Host × Log) Nat Choice Incoming Empty WritePhase _
    (serverMachine kernel ex dur).recorded (OneWriteEach rpcs) (fun n => writeProtocol (rpcs n))
    (fun s l => ∃ T, Serialised h₀ rpcs T s l) final (h₀, []) (fun _ => .fresh) c
    ⟨_, .start h₀ rpcs⟩ (fun _ => .inl rfl) (fun _ _ _ _ _ _ _ _ _ => trivial)
    ?_ ?_ (fun e => e.elim) h
  · obtain ⟨l, ⟨T, hi⟩, -⟩ := hinv
    refine ⟨(locked c.state.2).map T, ?_, hi.nodup, ?_, hi.answered, hi.content⟩
    · rw [List.map_map]
      exact (List.map_congr_left fun n _ => hi.stream n).trans (List.map_id _)
    · rintro t ht
      obtain ⟨n, hn, rfl⟩ := List.mem_map.mp ht
      exact hi.sound n hn
  · rintro n a ch r s s' l ⟨T, hi⟩ ha - hex
    obtain ⟨hex, hlog⟩ := Machine.exec_recorded hex
    have := hi.exec hkey ha hex
    rw [← hlog] at this
    exact this
  · rintro n q s l ⟨T, hi⟩ hfin ⟨rfl, hnew⟩
    have hl := (hi.inLog n).fresh.mp hnew
    refine ⟨.fresh, ⟨T, ?_⟩, (handleWriteRpc_phases (rpcs n)).mono fun l _ h => .inr h⟩
    rw [← hl, update_eq_self]
    exact hi

end

/-- An export with one file of three bytes, open in two sessions, once for appending. -/
def sharedHost : Host where
  fs := ⟨fun i => ([⟨.dir [(['s', 'r', 'v'], 1)], 0o755, 0, 0⟩, ⟨.dir [(['f'], 2)], 0o755, 0, 0⟩,
    ⟨.file [1, 2, 3], 0o644, 0, 0⟩] : List Node)[i]?, 3, fun _ hi => List.getElem?_eq_none hi⟩
  tables session := ⟨8, 100, AList.singleton 7 ⟨[⟨['f'], by decide⟩],
    if session = 0 then 1 else 0x401, ⟨2, .wronly⟩, 2⟩⟩
  inbox n := if n = 0 then [⟨7, 1, [11], true⟩] else []
  stripes _ := none
  replies := []

/-- Two bytes in two frames, and two bytes to append whose last frame never comes. -/
def sharedRpcs (n : Nat) : WriteRpc :=
  if n = 0 then ⟨0, 1, ⟨7, 0, [10], false⟩, 1⟩ else ⟨1, 1, ⟨7, 0, [20, 21], false⟩, 1⟩

theorem sharedHost_oneKey : OneKeyPerFile sharedHost := by
  have hkey : ∀ {session id oh}, (sharedHost.tables session).inner.lookup id = some oh →
      oh.inoKey = 2 := by
    intro session id oh h
    have hid : id = 7 := by
      by_contra hne
      rw [AList.lookup_eq_none.mpr] at h
      · cases h
      · change id ∉ AList.singleton 7 _
        simpa [AList.mem_keys, AList.keys, AList.singleton] using hne
    subst hid
    cases h
    rfl
  intro session session' id id' oh oh' h h' _
  rw [hkey h, hkey h']

/-- The second RPC is at the lock while the first still waits for its second frame. -/
theorem writes_serial_two : ∃ c : Config Sys Sys.Ret (Host × Log) Nat,
    Reach (serverMachine linux srv ⟨false, false⟩).recorded.step
      (OneWriteEach sharedRpcs).Meets (Config.idle (sharedHost, [])) c ∧
    c.state.1.fs.content 2 = some [10, 11, 3, 20, 21] ∧
    ∃ txns : List Txn, txns.map Txn.stream = [0, 1] ∧
      some (serial [1, 2, 3] (txns.filter (·.file.ino = 2))) = c.state.1.fs.content 2 := by
  have hrun : (execBy (serverMachine linux srv ⟨false, false⟩).recorded.step
      (OneWriteEach sharedRpcs).Meets (Config.idle (sharedHost, []))
      ([.start 0 (sharedRpcs 0).incoming, .start 1 (sharedRpcs 1).incoming, .run 0 {}, .run 1 {}] ++
        List.replicate 6 (.run 0 {}) ++
        [.run 1 {}, .run 1 {}, .run 1 { fault := some .eio }, .run 1 {}])).map
      (fun c => (locked c.state.2, c.state.1.fs.content 2)) =
      some ([0, 1], some [10, 11, 3, 20, 21]) := by decide +kernel
  obtain ⟨c, hc, hend⟩ := Option.map_eq_some_iff.mp hrun
  obtain ⟨horder, hfinal⟩ := Prod.mk.inj hend
  have hreach := Reach.of_execBy .refl hc
  obtain ⟨txns, hstreams, -, -, -, hcontent⟩ := writes_serial sharedHost_oneKey hreach
  exact ⟨c, hreach, hfinal, txns, hstreams.trans horder, (hcontent 2 [1, 2, 3] rfl).symm⟩

end QuicFs.Server
