import QuicFs.Server.DataOps

/-!
# What a handler may do

The protocol of a stream. Its phase records the descriptors the handler has opened, the directory it
lists, the file it took from the handle table, the frame it is to write and those it has written,
what it has read and sent, and the handle it has inserted. The handlers use only descriptors they
opened themselves, read and write only the file of their request's handle, write the frames in
order, and answer an Open or Create with the handle they inserted and the attributes of the file
behind it (`handle_follows`).
-/

namespace QuicFs.Server

open Lib

structure StreamPhase where
  session : Nat
  request : Request
  /-- The descriptors it has opened. -/
  fds : List Ino := []
  /-- The directory it has opened by its path. -/
  listing : Option Ino := none
  /-- The kernel has answered that it has no `openat2`. -/
  noOpenat2 : Bool := false
  /-- The file of the request's handle. -/
  held : Option File := none
  /-- The frame that is to be written next. -/
  frame : Option WriteRequest := none
  /-- The frames written in full, in order. -/
  wrote : List WriteRequest := []
  /-- A frame could not be written in full. -/
  failed : Bool := false
  /-- What the last `read` gave. -/
  buf : Option Bytes := none
  /-- What has been read and sent. -/
  sent : Bytes := []
  /-- The handle it has inserted, and its file. -/
  inserted : Option (ServerHandle × Ino) := none
  /-- It has answered for good. -/
  replied : Bool := false

def Request.handle? : Request → Option ServerHandle
  | .release _ h | .read _ h _ _ | .fsync _ h _ => some h
  | .write _ first => some first.handle
  | _ => none

/-- The operation a request asks for. -/
def Request.op : Request → Op
  | .getAttr .. => .getAttr
  | .setAttr .. => .setAttr
  | .mkDir .. => .mkDir
  | .rmDir .. => .rmDir
  | .unlink .. => .unlink
  | .rename .. => .rename
  | .symlink .. => .symlink
  | .link .. => .link
  | .open .. => .open
  | .create .. => .create
  | .release .. => .release
  | .read .. => .read
  | .write .. => .write
  | .fsync .. => .fsync
  | .readDir .. => .readDir
  | .readLink .. => .readLink
  | .statFs .. => .statFs

def Request.truncates : Request → Bool
  | .setAttr _ _ valid .. => bit valid 0x8
  | .create _ _ flags _ => bit flags 0x200
  | _ => false

def StreamPhase.start (session : Nat) (request : Request) : StreamPhase where
  session := session
  request := request
  frame :=
    match request with
    | .write _ first => some first
    | _ => none

/-- What the answer must agree with. -/
def StreamPhase.MayReply (l : StreamPhase) (r : Response) : Prop :=
  (r.op = .open ∨ r.op = .create → r.status = .ok →
    ∃ fd, l.inserted = some (r.handle, fd) ∧ ∀ st ∈ r.stat, st.1 = fd) ∧
  (r.op = .write → r.status = .ok →
    l.failed = false ∧ l.frame = none ∧ ∃ w ∈ l.wrote.getLast?, w.done = true) ∧
  (r.op = .read → r.status = .ok → l.buf = some r.data ∧ ∃ seq h offset length,
    l.request = .read seq h offset length ∧
    (r.eof = true ↔ r.data = [] ∨ length.toNat ≤ l.sent.length + r.data.length))

/-- What the flags of an `open` may ask for: only a Create makes a file or empties one. -/
def StreamPhase.MayOpen (l : StreamPhase) (flags : OpenFlags) : Prop :=
  (flags.creat = true → l.request.op = .create) ∧
  (flags.trunc = true → l.request.op = .create ∧ l.request.truncates = true)

def streamProtocol : Protocol Sys Sys.Ret StreamPhase where
  pre l a :=
    match a with
    | .mkdirat d _ _ | .fchmodat d _ _ | .unlinkat d _ _ | .symlinkat _ d _ => d ∈ l.fds
    | .linkat d _ d' _ | .renameat d _ d' _ => d ∈ l.fds ∧ d' ∈ l.fds
    | .fchmod fd _ | .utimens fd _ _ | .fstat fd | .readlinkat fd _ => fd ∈ l.fds
    | .nextEntry dir _ | .statEntry dir _ => l.listing = some dir
    | .setLen fd _ => fd ∈ l.fds ∧ l.request.truncates = true
    | .openat2 _ flags _ => l.MayOpen flags
    | .openPlain _ flags _ => l.noOpenat2 = true ∧ l.MayOpen flags
    | .tryInsert session h => session = l.session ∧ h.file.ino ∈ l.fds
    | .getFile session id | .getWriteCtx session id | .removeHandle session id =>
      session = l.session ∧ l.request.handle? = some id
    | .writeAt f offset data _ =>
      l.held = some f ∧ l.replied = false ∧ ∃ w ∈ l.frame, w.offset = offset ∧ w.data = data
    | .recvFrame => l.frame = none ∧ l.failed = false
    | .readAt f offset len =>
      l.held = some f ∧ l.replied = false ∧ ∃ seq h o length, l.request = .read seq h o length ∧
        offset = o + UInt64.ofNat l.sent.length ∧
        len = min (length.toNat - l.sent.length) readChunk ∧
        l.sent.length < length.toNat
    | .reply r => l.replied = false ∧ l.request.op = r.op ∧ l.MayReply r
    | _ => True
  post _ a r :=
    match a, r with
    | .fstat fd, r => ∀ st, r = Except.ok st → st.1 = fd
    | .readAt _ _ len, r => ∀ buf : Bytes, r = Except.ok buf → buf.length ≤ len
    | _, _ => True
  next l a r :=
    match a, r with
    | .openat2 .., r =>
      match (r : Except Errno Ino) with
      | .ok fd => { l with fds := fd :: l.fds }
      | .error e => { l with noOpenat2 := l.noOpenat2 || e = .enosys }
    | .openPlain .., r =>
      match (r : Except Errno Ino) with
      | .ok fd => { l with fds := fd :: l.fds }
      | .error _ => l
    | .readDir _, r => { l with listing := (r : Except Errno Ino).toOption }
    | .tryInsert _ h, r => { l with inserted := (r : Option ServerHandle).map (·, h.file.ino) }
    | .getFile .., r => { l with held := r }
    | .getWriteCtx .., r => { l with held := (r : Option (File × UInt32 × Nat)).map Prod.fst }
    | .writeAt .., r =>
      match (r : Option IoErrorKind) with
      | none => { l with wrote := l.wrote ++ l.frame.toList, frame := none }
      | some _ => { l with frame := none, failed := true }
    | .recvFrame, r => { l with frame := r }
    | .readAt .., r => { l with buf := (r : Except IoErrorKind Bytes).toOption }
    | .reply r, _ =>
      { l with
        sent := l.sent ++ r.data
        buf := none
        -- only a Read that is not at its end goes on after an answer
        replied := !(r.op = .read && r.status = .ok && !r.eof) }
    | _, _ => l

/-- The stream follows its protocol from `l` on and ends with `Q`. -/
abbrev Follows {α : Type} (l : StreamPhase) (p : Calls α) (Q : StreamPhase → α → Prop) : Prop :=
  p.Follows streamProtocol l Q

/-- The phase has only gained descriptors. -/
structure StreamPhase.Ext (l l' : StreamPhase) : Prop where
  eq : l' = { l with fds := l'.fds, noOpenat2 := l'.noOpenat2 }
  fds : l.fds ⊆ l'.fds

section
variable {l l' l'' : StreamPhase} {α β : Type}

namespace StreamPhase.Ext

theorem refl (l : StreamPhase) : l.Ext l := ⟨rfl, fun _ h => h⟩

theorem trans (h : l.Ext l') (h' : l'.Ext l'') : l.Ext l'' where
  eq := by rw [h'.eq, h.eq]
  fds := fun _ hx => h'.fds (h.fds hx)

theorem session (h : l.Ext l') : l'.session = l.session := by rw [h.eq]

theorem replied (h : l.Ext l') : l'.replied = l.replied := by rw [h.eq]

theorem inserted (h : l.Ext l') : l'.inserted = l.inserted := by rw [h.eq]

theorem request (h : l.Ext l') : l'.request = l.request := by rw [h.eq]

end StreamPhase.Ext

/-- The program follows the protocol, only gains descriptors, and a result other than an
error meets `Q`. -/
def FollowsIo (l : StreamPhase) (p : Io α) (Q : StreamPhase → α → Prop) : Prop :=
  Follows l p.toCalls fun l' r => l.Ext l' ∧ ∀ x, r = .ok x → Q l' x

def FollowsExt (l : StreamPhase) (p : Calls α) : Prop := Follows l p fun l' _ => l.Ext l'

theorem FollowsIo.bind {p : Io α} {f : α → Io β} {Q : StreamPhase → α → Prop}
    {Q' : StreamPhase → β → Prop} (h : FollowsIo l p Q)
    (hf : ∀ l' x, l.Ext l' → Q l' x → FollowsIo l' (f x) Q') : FollowsIo l (p >>= f) Q' := by
  refine Prog.Follows.bind h fun l' r hr => ?_
  cases r with
  | ok x =>
    refine (hf l' x hr.1 (hr.2 x rfl)).mono fun l'' r' hr' => ?_
    exact ⟨hr.1.trans hr'.1, hr'.2⟩
  | error e => exact ⟨hr.1, fun x hx => by cases hx⟩

theorem followsIo_pure {x : α} {Q : StreamPhase → α → Prop} (h : Q l x) : FollowsIo l (pure x) Q :=
  ⟨.refl l, fun y hy => by cases hy; exact h⟩

theorem followsIo_throw {e : IoError} {Q : StreamPhase → α → Prop} : FollowsIo l (Io.throw e) Q :=
  ⟨.refl l, fun x hx => by cases hx⟩

theorem followsIo_sys {a : Sys} {f : a.Ret → Except Errno α} (ha : streamProtocol.pre l a)
    (hn : ∀ r, streamProtocol.next l a r = l) : FollowsIo l (Io.sys a f) fun _ _ => True :=
  ⟨ha, fun r _ => ⟨by rw [hn r]; exact .refl l, fun _ _ => trivial⟩⟩

theorem followsIo_when {c : Bool} {p : Io Unit} (hp : c = true → FollowsIo l p fun _ _ => True) :
    FollowsIo l (Io.when c p) fun _ _ => True := by
  unfold Io.when
  split
  · next hc => exact hp hc
  · exact followsIo_pure trivial

theorem FollowsIo.calls {p : Io α} {Q : StreamPhase → α → Prop} (h : FollowsIo l p Q) :
    FollowsExt l p.toCalls :=
  h.mono fun _ _ h => h.1

theorem FollowsExt.bind {p : Calls α} {f : α → Calls β} {Q : StreamPhase → β → Prop}
    (h : FollowsExt l p) (hf : ∀ l' x, l.Ext l' → Follows l' (f x) Q) : Follows l (p.bind f) Q :=
  Prog.Follows.bind h hf

theorem follows_act_same {a : Sys} {k : a.Ret → Calls α} {Q : StreamPhase → α → Prop}
    (ha : streamProtocol.pre l a) (hn : ∀ r, streamProtocol.next l a r = l)
    (hk : ∀ r, streamProtocol.post l a r → Follows l (k r) Q) : Follows l (.act a k) Q :=
  ⟨ha, fun r hr => by rw [hn r]; exact hk r hr⟩

end

/-! ## The confined operations -/

section
variable {l : StreamPhase} (ex : Export)

theorem openConfined_follows (path : RootPath) (flags : OpenFlags) (mode : Nat)
    (hf : l.MayOpen flags) :
    FollowsIo l (openConfined path flags mode) fun l' fd => fd ∈ l'.fds := by
  refine ⟨hf, fun (r : Except Errno Ino) _ => ?_⟩
  cases r with
  | ok fd =>
    refine ⟨⟨rfl, List.subset_cons_self _ _⟩, ?_⟩
    rintro x ⟨⟩
    exact List.mem_cons_self
  | error e =>
    have hext : l.Ext { l with noOpenat2 := l.noOpenat2 || e = .enosys } := ⟨rfl, fun _ h => h⟩
    cases e with
    | enosys =>
      -- the fallback, on a kernel without the call
      refine ⟨⟨by simp [streamProtocol], hf⟩, fun (r : Except Errno Ino) _ => ?_⟩
      cases r with
      | ok fd =>
        refine ⟨hext.trans ⟨rfl, List.subset_cons_self _ _⟩, ?_⟩
        rintro x ⟨⟩
        exact List.mem_cons_self
      | error e => exact ⟨hext, fun x hx => by cases hx⟩
    | _ => exact ⟨hext, fun x hx => by cases hx⟩

theorem confinedParent_follows (resolved : RootPath) :
    FollowsIo l (confinedParent ex resolved) fun l' p => p.1 ∈ l'.fds := by
  unfold confinedParent
  split
  · exact followsIo_throw
  · exact (openConfined_follows _ _ _ ⟨by simp, by simp⟩).bind fun l' dir _ hdir =>
      followsIo_pure hdir

theorem mkdirConfined_follows (resolved : RootPath) (mode : UInt32) :
    FollowsIo l (mkdirConfined ex resolved mode) fun _ _ => True := by
  refine (confinedParent_follows ex resolved).bind ?_
  rintro l' ⟨dir, name⟩ - hdir
  refine FollowsIo.bind (followsIo_sys hdir fun _ => rfl) fun l'' _ hext _ => ?_
  exact followsIo_sys (hext.fds hdir) fun _ => rfl

theorem removeConfined_follows (resolved : RootPath) (isDir : Bool) :
    FollowsIo l (removeConfined ex resolved isDir) fun _ _ => True := by
  refine (confinedParent_follows ex resolved).bind ?_
  rintro l' ⟨dir, name⟩ - hdir
  exact followsIo_sys hdir fun _ => rfl

theorem symlinkConfined_follows (link : RootPath) (target : List Char) :
    FollowsIo l (symlinkConfined ex link target) fun _ _ => True := by
  refine (confinedParent_follows ex link).bind ?_
  rintro l' ⟨dir, name⟩ - hdir
  dsimp only
  split
  · exact followsIo_throw
  · exact followsIo_sys hdir fun _ => rfl

theorem linkConfined_follows (src dst : RootPath) :
    FollowsIo l (linkConfined ex src dst) fun _ _ => True := by
  refine (confinedParent_follows ex src).bind ?_
  rintro l' ⟨sdir, sname⟩ - hs
  refine (confinedParent_follows ex dst).bind ?_
  rintro l'' ⟨ddir, dname⟩ hext hd
  exact followsIo_sys ⟨hext.fds hs, hd⟩ fun _ => rfl

theorem readlinkConfined_follows (resolved : RootPath) :
    FollowsIo l (readlinkConfined ex resolved) fun _ _ => True := by
  refine (confinedParent_follows ex resolved).bind ?_
  rintro l' ⟨dir, name⟩ - hdir
  exact followsIo_sys hdir fun _ => rfl

theorem renameConfined_follows (old new : RootPath) :
    FollowsIo l (renameConfined ex old new) fun _ _ => True := by
  refine (confinedParent_follows ex old).bind ?_
  rintro l' ⟨odir, oname⟩ - ho
  refine (confinedParent_follows ex new).bind ?_
  rintro l'' ⟨ndir, nname⟩ hext hn
  exact followsIo_sys ⟨hext.fds ho, hn⟩ fun _ => rfl

theorem checkIntermediate_follows (todo : RootPath) : ∀ walking,
    FollowsExt l (checkIntermediate walking todo) := by
  induction todo with
  | nil => intro _; exact .refl l
  | cons c cs ih =>
    intro walking
    cases cs with
    | nil => exact .refl l
    | cons c' cs =>
      refine follows_act_same trivial (fun _ => rfl) fun (link : Bool) _ => ?_
      split
      · exact .refl l
      · exact ih _

theorem checkCanonical_follows (joined : RootPath) : FollowsExt l (checkCanonical ex joined) := by
  refine follows_act_same trivial (fun _ => rfl) fun (there : Bool) _ => ?_
  cases there with
  | false => exact .refl l
  | true =>
    refine follows_act_same trivial (fun _ => rfl) fun _ _ => ?_
    exact follows_act_same trivial (fun _ => rfl) fun _ _ => .refl l

theorem resolve_follows (path : List Char) : FollowsExt l (resolve ex path) := by
  unfold resolve
  split
  · exact .refl l
  · refine (checkIntermediate_follows _ _).bind fun l' r hext => ?_
    split
    · exact hext
    · refine (checkCanonical_follows ex _).bind fun l'' r hext' => ?_
      split
      · exact hext.trans hext'
      · exact hext.trans hext'

end

/-! ## The handlers -/

section
variable {l : StreamPhase} (ex : Export)

/-- In the middle of a Write. -/
structure StreamPhase.Writing (l : StreamPhase) (f : File) : Prop where
  held : l.held = some f
  replied : l.replied = false
  op : l.request.op = .write
  failed : l.failed = false

/-- The stream still owes the answer to its request. -/
structure StreamPhase.Pending (l : StreamPhase) (op : Op) : Prop where
  replied : l.replied = false
  op : l.request.op = op

theorem StreamPhase.Ext.pending {l' : StreamPhase} {op : Op} (h : l.Ext l') (hl : l.Pending op) :
    l'.Pending op :=
  ⟨h.replied.trans hl.replied, h.request ▸ hl.op⟩

/-- The operations whose answers carry nothing the protocol looks at. -/
def Op.Plain (op : Op) : Prop := op ≠ .open ∧ op ≠ .create ∧ op ≠ .write ∧ op ≠ .read

instance (op : Op) : Decidable op.Plain := inferInstanceAs (Decidable (_ ∧ _))

theorem mayReply_of_plain {r : Response} (h : r.op.Plain) : l.MayReply r :=
  ⟨fun ho => absurd ho (by simp [h.1, h.2.1]), fun ho => absurd ho h.2.2.1,
    fun ho => absurd ho h.2.2.2⟩

theorem mayReply_of_error {r : Response} (h : r.status ≠ .ok) : l.MayReply r :=
  ⟨fun _ hs => absurd hs h, fun _ hs => absurd hs h, fun _ hs => absurd hs h⟩

theorem reply_follows {r : Response} (hl : l.Pending r.op) (hr : l.MayReply r) :
    Follows l (reply r) fun _ _ => True :=
  ⟨⟨hl.replied, hl.op, hr⟩, fun _ _ => trivial⟩

theorem withResolved_follows {op : Op} {seq : UInt64} {path : List Char} {k : RootPath → Calls Unit}
    (hl : l.Pending op)
    (hk : ∀ l' p, l.Ext l' → Follows l' (k p) fun _ _ => True) :
    Follows l (withResolved ex op seq path k) fun _ _ => True := by
  refine (resolve_follows ex path).bind fun l' r hext => ?_
  cases r with
  | error _ => exact reply_follows (hext.pending hl) (mayReply_of_error nofun)
  | ok p => exact hk l' p hext

theorem statusOf_follows {p : Io Unit} (hp : FollowsIo l p fun _ _ => True) :
    FollowsExt l (statusOf p) := by
  refine hp.calls.bind fun l' r hext => ?_
  cases r with
  | ok _ => exact hext
  | error _ => exact hext

theorem syncIf_follows (sync : Bool) (status : Status) (resolved : RootPath) :
    FollowsExt l (syncIf sync status resolved) := by
  unfold syncIf
  split
  · unfold syncParentDir
    split
    · exact .refl l
    · have hsync : FollowsIo l (fsyncDirConfined resolved.dropLast) fun _ _ => True :=
        (openConfined_follows _ _ _ ⟨by simp, by simp⟩).bind fun _ _ _ _ => followsIo_sys trivial
          fun _ => rfl
      exact hsync.calls.bind fun _ _ hext => hext
  · exact .refl l

theorem statIf_follows {status : Status} {a : Sys} {f : a.Ret → Except Errno (Ino × Node)}
    (ha : streamProtocol.pre l a) (hn : ∀ r, streamProtocol.next l a r = l) :
    FollowsExt l (statIf status a f) := by
  unfold statIf
  split
  · exact follows_act_same ha hn fun _ _ => .refl l
  · exact .refl l

/-- The end of the handlers that answer with a status and attributes. -/
theorem finish_follows {p : Io Unit} {op : Op} (hp : FollowsIo l p fun _ _ => True)
    (hl : l.Pending op) {k : Status → Calls Unit}
    (hk : ∀ l' status, l'.Pending op → Follows l' (k status) fun _ _ => True) :
    Follows l ((statusOf p).bind k) fun _ _ => True :=
  (statusOf_follows hp).bind fun l' status hext => hk l' status (hext.pending hl)

theorem sync_stat_reply_follows {sync : Bool} {status : Status} {resolved : RootPath} {a : Sys}
    {f : a.Ret → Except Errno (Ino × Node)} {k : Option (Ino × Node) → Response}
    (hl : ∀ st, l.Pending (k st).op) (ha : ∀ l, streamProtocol.pre l a)
    (hn : ∀ l r, streamProtocol.next l a r = l) (hk : ∀ st, (k st).op.Plain) :
    Follows l ((syncIf sync status resolved).bind fun _ =>
      (statIf status a f).bind fun st => reply (k st)) fun _ _ => True := by
  refine (syncIf_follows sync status resolved).bind fun l' _ hext => ?_
  refine (statIf_follows (ha l') (hn l')).bind fun l'' st hext' => ?_
  exact reply_follows ((hext.trans hext').pending (hl st)) (mayReply_of_plain (hk st))

theorem handleGetattr_follows (seq : UInt64) (path : List Char) (hl : l.Pending .getAttr) :
    Follows l (handleGetattr ex seq path) fun _ _ => True := by
  refine withResolved_follows ex hl fun l' resolved hext => ?_
  refine follows_act_same trivial (fun _ => rfl) fun (r : Except Errno (Ino × Node)) _ => ?_
  have hplain : Op.getAttr.Plain := by decide
  cases r with
  | ok _ => exact reply_follows (hext.pending hl) (mayReply_of_plain hplain)
  | error _ => exact reply_follows (hext.pending hl) (mayReply_of_plain hplain)

theorem collectEntries_follows {dir : Ino} (hd : l.listing = some dir) (room : Nat) :
    ∀ {pos}, FollowsExt l (collectEntries dir room pos) := by
  induction room with
  | zero => exact .refl l
  | succ room ih =>
    intro pos
    refine follows_act_same hd (fun _ => rfl) fun (name : Option Name) _ => ?_
    cases name with
    | none => exact .refl l
    | some name =>
      refine follows_act_same hd (fun _ => rfl) fun (st : Except Errno (Ino × Node)) _ => ?_
      exact ih.bind fun _ _ hext => hext

theorem dirEntries_follows {dir : Ino} (hd : l.listing = some dir) (skip : Nat) :
    ∀ {pos}, FollowsExt l (dirEntries dir skip pos) := by
  induction skip with
  | zero => exact collectEntries_follows hd _
  | succ skip ih =>
    intro pos
    refine follows_act_same hd (fun _ => rfl) fun (name : Option Name) _ => ?_
    cases name with
    | none => exact .refl l
    | some _ => exact ih

theorem handleReaddir_follows (seq : UInt64) (path : List Char) (cursor : UInt64)
    (hl : l.Pending .readDir) : Follows l (handleReaddir ex seq path cursor) fun _ _ => True := by
  have hplain : Op.readDir.Plain := by decide
  refine (resolve_follows ex path).bind fun l' r hext => ?_
  have hl' := hext.pending hl
  cases r with
  | error _ => exact reply_follows hl' (mayReply_of_plain hplain)
  | ok resolved =>
    refine ⟨trivial, fun (r : Except Errno Ino) _ => ?_⟩
    cases r with
    | error _ => exact reply_follows ⟨hl'.replied, hl'.op⟩ (mayReply_of_plain hplain)
    | ok dir =>
      refine (dirEntries_follows rfl _).bind fun l'' _ hext' => ?_
      exact reply_follows (hext'.pending ⟨hl'.replied, hl'.op⟩) (mayReply_of_plain hplain)

theorem handleReadlink_follows (seq : UInt64) (path : List Char) (hl : l.Pending .readLink) :
    Follows l (handleReadlink ex seq path) fun _ _ => True := by
  have hplain : Op.readLink.Plain := by decide
  refine withResolved_follows ex hl fun l1 resolved h1 => ?_
  refine (readlinkConfined_follows ex resolved).calls.bind fun l2 r h2 => ?_
  have hl2 := (h1.trans h2).pending hl
  cases r with
  | ok _ => exact reply_follows hl2 (mayReply_of_plain hplain)
  | error _ => exact reply_follows hl2 (mayReply_of_plain hplain)

theorem handleStatfs_follows (seq : UInt64) (path : List Char) (hl : l.Pending .statFs) :
    Follows l (handleStatfs ex seq path) fun _ _ => True := by
  refine withResolved_follows ex hl fun l1 resolved h1 => ?_
  refine follows_act_same trivial (fun _ => rfl) fun (r : Except Errno (Ino × StatFs)) _ => ?_
  exact reply_follows (h1.pending hl) (mayReply_of_plain (by decide : Op.statFs.Plain))

variable (sync : Bool)

theorem handleMkdir_follows (seq : UInt64) (path : List Char) (mode : UInt32)
    (hl : l.Pending .mkDir) : Follows l (handleMkdir ex sync seq path mode) fun _ _ => True := by
  refine withResolved_follows ex hl fun l' resolved hext => ?_
  refine finish_follows (mkdirConfined_follows ex resolved mode) (hext.pending hl) ?_
  intro l'' status hl''
  exact sync_stat_reply_follows (fun _ => hl'') (fun _ => trivial) (fun _ _ => rfl) fun _ =>
    (by decide : Op.mkDir.Plain)

theorem handleRemove_follows (op : Op) (isDir : Bool) (seq : UInt64) (path : List Char)
    (hop : op.Plain) (hl : l.Pending op) :
    Follows l (handleRemove ex sync op isDir seq path) fun _ _ => True := by
  refine withResolved_follows ex hl fun l' resolved hext => ?_
  refine finish_follows (removeConfined_follows ex resolved isDir) (hext.pending hl) ?_
  intro l'' status hl''
  refine (syncIf_follows sync status resolved).bind fun _ _ hext' => ?_
  exact reply_follows (hext'.pending hl'') (mayReply_of_plain hop)

theorem handleRename_follows (seq : UInt64) (old new : List Char) (hl : l.Pending .rename) :
    Follows l (handleRename ex sync seq old new) fun _ _ => True := by
  have hplain : Op.rename.Plain := by decide
  refine withResolved_follows ex hl fun l1 old h1 => ?_
  refine withResolved_follows ex (h1.pending hl) fun l2 new h2 => ?_
  refine finish_follows (renameConfined_follows ex old new)
    ((h1.trans h2).pending hl) fun l3 status hl3 => ?_
  refine (syncIf_follows sync status old).bind fun l4 _ h4 => ?_
  dsimp only
  split
  · refine (syncIf_follows sync status new).bind fun l5 _ h5 => ?_
    exact reply_follows ((h4.trans h5).pending hl3) (mayReply_of_plain hplain)
  · exact reply_follows (h4.pending hl3) (mayReply_of_plain hplain)

theorem handleSymlink_follows (seq : UInt64) (target link : List Char) (hl : l.Pending .symlink) :
    Follows l (handleSymlink ex sync seq target link) fun _ _ => True := by
  unfold handleSymlink
  split
  · exact reply_follows hl (mayReply_of_error nofun)
  · refine withResolved_follows ex hl fun l' link hext => ?_
    refine finish_follows (symlinkConfined_follows ex link target) (hext.pending hl) ?_
    intro l'' status hl''
    exact sync_stat_reply_follows (fun _ => hl'') (fun _ => trivial) (fun _ _ => rfl) fun _ =>
      (by decide : Op.symlink.Plain)

theorem handleLink_follows (seq : UInt64) (path link : List Char) (hl : l.Pending .link) :
    Follows l (handleLink ex sync seq path link) fun _ _ => True := by
  refine withResolved_follows ex hl fun l1 src h1 => ?_
  refine withResolved_follows ex (h1.pending hl) fun l2 dst h2 => ?_
  refine finish_follows (linkConfined_follows ex src dst) ((h1.trans h2).pending hl) ?_
  intro l3 status hl3
  exact sync_stat_reply_follows (fun _ => hl3) (fun _ => trivial) (fun _ _ => rfl) fun _ =>
    (by decide : Op.link.Plain)

theorem setLen_follows {fd : Ino} (hfd : fd ∈ l.fds) (ht : l.request.truncates = true)
    (size : UInt64) : FollowsIo l (setLen fd size) fun _ _ => True := by
  unfold setLen
  split
  · exact followsIo_throw
  · exact followsIo_sys ⟨hfd, ht⟩ fun _ => rfl

theorem setModeTimes_follows (resolved : RootPath) (valid mode : UInt32) (atime mtime : Int64) :
    FollowsIo l (setModeTimes resolved valid mode atime mtime) fun _ _ => True := by
  refine (openConfined_follows _ _ _ ⟨by simp, by simp⟩).bind fun l1 fd _ hfd => ?_
  refine FollowsIo.bind (followsIo_when fun _ => followsIo_sys hfd fun _ => rfl)
    fun l2 _ h2 _ => ?_
  exact followsIo_when fun _ => followsIo_sys (h2.fds hfd) fun _ => rfl

theorem applySetattr_follows (resolved : RootPath) (valid mode : UInt32) (size : UInt64)
    (atime mtime : Int64) (ht : bit valid 0x8 = true → l.request.truncates = true) :
    FollowsIo l (applySetattr resolved valid mode size atime mtime) fun _ _ => True := by
  refine FollowsIo.bind (followsIo_when fun hv => ?_) fun _ _ _ _ =>
    followsIo_when fun _ => setModeTimes_follows _ _ _ _ _
  refine (openConfined_follows _ _ _ ⟨by simp, by simp⟩).bind fun l' fd hext hfd => ?_
  exact setLen_follows hfd (hext.request ▸ ht hv) size

theorem handleSetattr_follows (seq : UInt64) (path : List Char) (valid mode : UInt32)
    (size : UInt64) (atime mtime : Int64) (hl : l.Pending .setAttr)
    (ht : bit valid 0x8 = true → l.request.truncates = true) :
    Follows l (handleSetattr ex seq path valid mode size atime mtime) fun _ _ => True := by
  have hplain : Op.setAttr.Plain := by decide
  refine withResolved_follows ex hl fun l1 resolved h1 => ?_
  refine finish_follows (applySetattr_follows resolved valid mode size atime mtime
    (h1.request ▸ ht)) (h1.pending hl) fun l2 status hl2 => ?_
  split
  · exact reply_follows hl2 (mayReply_of_plain hplain)
  · refine follows_act_same trivial (fun _ => rfl) fun (r : Except Errno (Ino × Node)) _ => ?_
    cases r with
    | ok _ => exact reply_follows hl2 (mayReply_of_plain hplain)
    | error _ => exact reply_follows hl2 (mayReply_of_plain hplain)

/-- The answer names the handle that was inserted and the attributes of its file. -/
theorem retain_follows {op : Op} {seq : UInt64} {resolved : RootPath} {flags : UInt32} {f : File}
    {k : Calls Unit} (hop : op = .open ∨ op = .create) (hf : f.ino ∈ l.fds)
    (hl : l.Pending op) (hk : ∀ l', FollowsExt l' k) :
    Follows l (retain op l.session seq resolved flags f k) fun _ _ => True := by
  refine follows_act_same hf (fun _ => rfl) fun (st : Except Errno (Ino × Node)) hst => ?_
  refine ⟨⟨rfl, hf⟩, fun (id : Option ServerHandle) _ => ?_⟩
  cases id with
  | none => exact reply_follows ⟨hl.replied, hl.op⟩ (mayReply_of_error nofun)
  | some handle =>
    refine (hk _).bind fun l' _ hext => reply_follows (hext.pending ⟨hl.replied, hl.op⟩) ?_
    refine ⟨fun _ _ => ⟨f.ino, hext.inserted, fun st' hs => ?_⟩, ?_, ?_⟩
    · cases st with
      | error _ => cases hs
      | ok _ => cases hs; exact hst st' rfl
    · rintro ⟨⟩; cases hop with
      | inl h => cases h
      | inr h => cases h
    · rintro ⟨⟩; cases hop with
      | inl h => cases h
      | inr h => cases h

theorem handleOpen_follows (seq : UInt64) (path : List Char) (flags : UInt32)
    (hl : l.Pending .open) :
    Follows l (handleOpen ex l.session seq path flags) fun _ _ => True := by
  refine withResolved_follows ex hl fun l1 resolved h1 => ?_
  refine Prog.Follows.bind (openConfined_follows _ _ _ ⟨nofun, nofun⟩) fun l2 r hr => ?_
  have h2 := h1.trans hr.1
  cases r with
  | error e => exact reply_follows (h2.pending hl) (mayReply_of_error (Status.ofIo_ne_ok _))
  | ok fd =>
    rw [← h2.session]
    exact retain_follows (.inl rfl) (hr.2 fd rfl) (h2.pending hl) fun l' => .refl l'

theorem handleCreate_follows (seq : UInt64) (path : List Char) (flags mode : UInt32)
    (hl : l.Pending .create) (ht : bit flags 0x200 = true → l.request.truncates = true) :
    Follows l (handleCreate ex sync l.session seq path flags mode) fun _ _ => True := by
  refine withResolved_follows ex hl fun l1 resolved h1 => ?_
  have hf : l1.MayOpen (createFlags flags) :=
    ⟨fun _ => h1.request ▸ hl.op, fun h => h1.request ▸ ⟨hl.op, ht h⟩⟩
  refine Prog.Follows.bind (openConfined_follows _ _ _ hf) fun l2 r hr => ?_
  have h2 := h1.trans hr.1
  cases r with
  | error e => exact reply_follows (h2.pending hl) (mayReply_of_error (Status.ofIo_ne_ok _))
  | ok fd =>
    refine follows_act_same (hr.2 fd rfl) (fun _ => rfl) fun _ _ => ?_
    rw [← h2.session]
    exact retain_follows (.inr rfl) (hr.2 fd rfl) (h2.pending hl)
      fun l' => syncIf_follows sync _ resolved

theorem fsync_reply_follows {fd : Ino} {op : Op} {k : Status → Response} (hl : l.Pending op)
    (ho : ∀ status, (k status).op = op) (hk : ∀ status, (k status).op.Plain) :
    Follows l ((statusOf (Io.sys (.fsync fd) id)).bind fun status => reply (k status))
      fun _ _ => True :=
  finish_follows (followsIo_sys (a := .fsync fd) trivial fun _ => rfl) hl fun _ status hl' =>
    reply_follows (ho status ▸ hl') (mayReply_of_plain (hk status))

theorem handleRelease_follows (onClose : Bool) (seq : UInt64) (handle : ServerHandle)
    (hl : l.Pending .release) (hr : l.request.handle? = some handle) :
    Follows l (handleRelease onClose l.session seq handle) fun _ _ => True := by
  have hplain : Op.release.Plain := by decide
  refine follows_act_same ⟨rfl, hr⟩ (fun _ => rfl) fun (removed : Option OpenHandle) _ => ?_
  cases removed with
  | none => exact reply_follows hl (mayReply_of_plain hplain)
  | some h =>
    dsimp only
    split
    · exact fsync_reply_follows hl (fun _ => rfl) fun _ => hplain
    · exact reply_follows hl (mayReply_of_plain hplain)

theorem handleFsync_follows (seq : UInt64) (handle : ServerHandle) (datasync : Bool)
    (hl : l.Pending .fsync) (hr : l.request.handle? = some handle) :
    Follows l (handleFsync l.session seq handle datasync) fun _ _ => True := by
  refine ⟨⟨rfl, hr⟩, fun (r : Option File) _ => ?_⟩
  cases r with
  | none => exact reply_follows ⟨hl.replied, hl.op⟩ (mayReply_of_error nofun)
  | some f =>
    exact fsync_reply_follows ⟨hl.replied, hl.op⟩ (fun _ => rfl) fun _ =>
      (by decide : Op.fsync.Plain)

theorem sendReadErr_follows {e : Status} (seq offset : UInt64) (hl : l.Pending .read)
    (he : e ≠ .ok) : Follows l (sendReadErr seq offset e) fun _ _ => True :=
  reply_follows hl (mayReply_of_error he)

/-- What has been sent and what remains make up the length that was asked for. -/
theorem readLoop_follows {f : File} {seq o : UInt64} {h : ServerHandle} {length : UInt32}
    (fuel : Nat) : ∀ {l : StreamPhase} {remaining : Nat} {offset : UInt64},
      l.held = some f → (remaining ≠ 0 → l.Pending .read) →
      l.request = .read seq h o length → offset = o + UInt64.ofNat l.sent.length →
      l.sent.length + remaining = length.toNat →
      Follows l (readLoop f seq fuel remaining offset) fun _ _ => True := by
  induction fuel with
  | zero => intros; trivial
  | succ fuel ih =>
    intro l remaining offset hheld hreplied hreq hoff hlen
    unfold readLoop
    split
    · trivial
    · next hrem =>
      have hl := hreplied hrem
      refine ⟨⟨hheld, hl.replied, seq, h, o, length, hreq, hoff, ?_, by omega⟩, ?_⟩
      · congr 1; omega
      · intro (r : Except IoErrorKind Bytes) hpost
        cases r with
        | error e => exact sendReadErr_follows seq offset ⟨hl.replied, hl.op⟩ (Status.ofIo_ne_ok e)
        | ok buf =>
          have hbuf : buf.length ≤ remaining := (hpost buf rfl).trans (Nat.min_le_left _ _)
          have heof : (buf.isEmpty || decide (remaining - buf.length = 0)) = true ↔
              buf = [] ∨ length.toNat ≤ l.sent.length + buf.length := by
            simp only [Bool.or_eq_true, List.isEmpty_iff, decide_eq_true_eq]
            exact or_congr_right (by omega)
          refine ⟨⟨hl.replied, hl.op, nofun, nofun,
            fun _ _ => ⟨rfl, seq, h, o, length, hreq, heof⟩⟩, ?_⟩
          intro _ _
          cases he : buf.isEmpty with
          | true => trivial
          | false =>
            refine ih hheld (fun hleft => ?_) hreq ?_ ?_
            · exact ⟨by simp [streamProtocol, hleft], hl.op⟩
            · simp only [streamProtocol, List.length_append, hoff]
              rw [UInt64.ofNat_add, UInt64.add_assoc]
            · simp only [streamProtocol, List.length_append]; omega

theorem handleRead_follows (seq : UInt64) (handle : ServerHandle) (offset : UInt64)
    (length : UInt32) (hl : l.Pending .read) (hs : l.sent = [])
    (hr : l.request = .read seq handle offset length) :
    Follows l (handleRead l.session seq handle offset length) fun _ _ => True := by
  unfold handleRead
  split
  · exact sendReadErr_follows seq offset hl nofun
  · refine ⟨⟨rfl, by rw [hr]; rfl⟩, fun (r : Option File) _ => ?_⟩
    cases r with
    | none => exact sendReadErr_follows seq offset ⟨hl.replied, hl.op⟩ nofun
    | some f =>
      exact readLoop_follows _ rfl (fun _ => ⟨hl.replied, hl.op⟩) hr (by simp [streamProtocol, hs])
        (by simp [streamProtocol, hs])

/-- One frame, and what comes after it unless it is the last. -/
theorem frame_follows {f : File} {append : Bool} {seq : UInt64} {total total' : Nat}
    {w : WriteRequest} {rest : Calls Unit} (hl : l.Writing f) (hw : l.frame = some w)
    (hrest : ∀ l' : StreamPhase, l'.Writing f → l'.frame = none → Follows l' rest fun _ _ => True) :
    Follows l (.act (.writeAt f w.offset w.data append) fun (r : Option IoErrorKind) =>
      match r with
      | some e => reply { op := .write, seq, status := .ofIo e, written := total }
      | none =>
        if w.done then reply { op := .write, seq, status := .ok, written := total' } else rest)
      fun _ _ => True := by
  refine ⟨⟨hl.held, hl.replied, w, hw, rfl, rfl⟩, fun (r : Option IoErrorKind) _ => ?_⟩
  cases r with
  | some e =>
    exact reply_follows ⟨hl.replied, hl.op⟩ (mayReply_of_error (Status.ofIo_ne_ok e))
  | none =>
    dsimp only
    split
    · next hdone =>
      refine reply_follows ⟨hl.replied, hl.op⟩
        ⟨nofun, fun _ _ => ⟨hl.failed, rfl, w, ?_, hdone⟩, nofun⟩
      simp [streamProtocol, hw]
    · exact hrest _ ⟨hl.held, hl.replied, hl.op, hl.failed⟩ rfl

theorem frameLoop_follows {f : File} {append : Bool} {seq : UInt64} (fuel : Nat) :
    ∀ {l : StreamPhase} {total : Nat} {w : WriteRequest}, l.Writing f → l.frame = some w →
      Follows l (frameLoop f append seq fuel total w) fun _ _ => True := by
  induction fuel with
  | zero =>
    intro l total w hl hw
    rw [frameLoop]
    exact frame_follows hl hw fun _ _ _ => trivial
  | succ fuel ih =>
    intro l total w hl hw
    rw [frameLoop]
    refine frame_follows hl hw fun l' hl' hw' => ?_
    refine ⟨⟨hw', hl'.failed⟩, fun (next : Option WriteRequest) _ => ?_⟩
    cases next with
    | none => trivial
    | some w => exact ih ⟨hl'.held, hl'.replied, hl'.op, hl'.failed⟩ rfl

theorem handleWriteRpc_follows (frames : Nat) (seq : UInt64) (first : WriteRequest)
    (hl : l.Pending .write) (hf : l.failed = false) (hw : l.frame = some first)
    (hr : l.request.handle? = some first.handle) :
    Follows l (handleWriteRpc frames l.session seq first) fun _ _ => True := by
  refine ⟨⟨rfl, hr⟩, fun (r : Option (File × UInt32 × Nat)) _ => ?_⟩
  rcases r with _ | ⟨f, flags, inoKey⟩
  · exact reply_follows ⟨hl.replied, hl.op⟩ (mayReply_of_error nofun)
  · refine follows_act_same trivial (fun _ => rfl) fun (locked : Bool) _ => ?_
    cases locked with
    | false => trivial
    | true =>
      refine Prog.Follows.bind (frameLoop_follows frames ⟨rfl, hl.replied, hl.op, hf⟩ hw)
        fun _ _ _ => ?_
      exact ⟨trivial, fun _ _ => trivial⟩

/-- **Every handler follows the protocol.** -/
theorem handle_follows (dur : Durability) (frames session : Nat) (q : Request) :
    Follows (.start session q) (handle ex dur frames session q) fun _ _ => True := by
  cases q with
  | getAttr seq path => exact handleGetattr_follows ex seq path ⟨rfl, rfl⟩
  | setAttr seq path valid mode size atime mtime =>
    exact handleSetattr_follows ex seq path valid mode size atime mtime ⟨rfl, rfl⟩ id
  | mkDir seq path mode => exact handleMkdir_follows ex _ seq path mode ⟨rfl, rfl⟩
  | rmDir seq path => exact handleRemove_follows ex _ .rmDir true seq path (by decide) ⟨rfl, rfl⟩
  | unlink seq path => exact handleRemove_follows ex _ .unlink false seq path (by decide) ⟨rfl, rfl⟩
  | rename seq old new => exact handleRename_follows ex _ seq old new ⟨rfl, rfl⟩
  | symlink seq target link => exact handleSymlink_follows ex _ seq target link ⟨rfl, rfl⟩
  | link seq path link => exact handleLink_follows ex _ seq path link ⟨rfl, rfl⟩
  | «open» seq path flags =>
    exact handleOpen_follows (l := .start session _) ex seq path flags ⟨rfl, rfl⟩
  | create seq path flags mode =>
    exact handleCreate_follows (l := .start session _) ex _ seq path flags mode ⟨rfl, rfl⟩ id
  | release seq h => exact handleRelease_follows (l := .start session _) _ seq h ⟨rfl, rfl⟩ rfl
  | read seq h offset length =>
    exact handleRead_follows (l := .start session _) seq h offset length ⟨rfl, rfl⟩ rfl rfl
  | write seq first =>
    exact handleWriteRpc_follows (l := .start session _) frames seq first ⟨rfl, rfl⟩ rfl rfl rfl
  | fsync seq h datasync =>
    exact handleFsync_follows (l := .start session _) seq h datasync ⟨rfl, rfl⟩ rfl
  | readDir seq path cursor => exact handleReaddir_follows ex seq path cursor ⟨rfl, rfl⟩
  | readLink seq path => exact handleReadlink_follows ex seq path ⟨rfl, rfl⟩
  | statFs seq path => exact handleStatfs_follows ex seq path ⟨rfl, rfl⟩

end

theorem exec_post {kernel : Kernel} {ex : Export} {stream : Nat} {l : StreamPhase} {a : Sys}
    {c : Choice} {r : a.Ret} {h h' : Host} (he : a.exec kernel ex stream c h = some (r, h')) :
    streamProtocol.post l a r := by
  cases a with
  | fstat fd =>
    intro st hst
    simp only [Sys.exec, withFault] at he
    split at he
    · cases he; cases hst
    · cases he; cases hst
    · next heq =>
      cases he; cases hst
      split at heq
      · cases heq; rfl
      · cases heq
  | readAt f offset len =>
    intro buf hbuf
    simp only [Sys.exec, readFile] at he
    obtain ⟨hr, -⟩ := Prod.mk.inj (Option.some.inj he)
    rw [hbuf] at hr
    split at hr
    · cases hr
    · split at hr
      · cases hr
      · cases hr
      · split at hr
        · split at hr
          · cases hr
          · cases hr
            simp only [List.length_take]
            omega
        · cases hr
  | _ => trivial

end QuicFs.Server
