import QuicFs.Server.Jail

/-!
# What the answers disclose

Every answer of a handler is made from what its own calls read (`Response.MadeFrom`), and with
each such call the record has the object it read (`Sys.source`). A call on a descriptor or on
the file of a handle reads an object that is not outside the export root, whatever other
streams do meanwhile. A call by path, made after `resolve` has checked the path, reads
whatever the path leads to by then: `answers_inside` needs that the check of the canonical path
would still pass, and `getattr_follows_swapped_link` is a run in which it would not.
-/

namespace QuicFs.Server

open Lib Function

/-! ## What a call reads -/

/-- The object the answer tells about. -/
def Sys.source : (a : Sys) → a.Ret → Option Ino
  | .stat _, r => (r : Except Errno (Ino × Node)).toOption.map Prod.fst
  | .lstat _, r => (r : Except Errno (Ino × Node)).toOption.map Prod.fst
  | .fstat _, r => (r : Except Errno (Ino × Node)).toOption.map Prod.fst
  | .statEntry .., r => (r : Except Errno (Ino × Node)).toOption.map Prod.fst
  | .nextEntry dir _, r => (r : Option Name).map fun _ => dir
  | .readlinkat .., r => (r : Except Errno (Ino × List Char)).toOption.map Prod.fst
  | .statvfs _, r => (r : Except Errno (Ino × StatFs)).toOption.map Prod.fst
  | .readAt f _ _, r => (r : Except IoErrorKind Bytes).toOption.map fun _ => f.ino
  | _, _ => none

def Sys.attrs : (a : Sys) → a.Ret → Option (Ino × Node)
  | .stat _, r => (r : Except Errno (Ino × Node)).toOption
  | .lstat _, r => (r : Except Errno (Ino × Node)).toOption
  | .fstat _, r => (r : Except Errno (Ino × Node)).toOption
  | _, _ => none

/-- All that the frame tells about objects of the filesystem is in answers to calls of its
stream. -/
structure Response.MadeFrom (r : Response) (n : Nat) (log : Log) : Prop where
  stat : ∀ st ∈ r.stat, ∃ e ∈ log, e.thread = n ∧ e.act.attrs e.answer = some st
  data : r.data ≠ [] → ∃ f offset len,
    ⟨n, .readAt f offset len, (.ok r.data : Except IoErrorKind Bytes)⟩ ∈ log
  entries : ∀ d ∈ r.entries, ∃ dir pos, ⟨n, .nextEntry dir pos, some d.name⟩ ∈ log ∧
    (d.ino = 0 ∧ d.mode = 0 ∨ ∃ node, d.mode = node.stMode ∧
      ⟨n, .statEntry dir d.name, (.ok (d.ino, node) : Except Errno (Ino × Node))⟩ ∈ log)
  target : r.target ≠ [] → ∃ dir name i,
    ⟨n, .readlinkat dir name, (.ok (i, r.target) : Except Errno (Ino × List Char))⟩ ∈ log
  statfs : ∀ s ∈ r.statfs, s = {} ∨ ∃ path i,
    ⟨n, .statvfs path, (.ok (i, s) : Except Errno (Ino × StatFs))⟩ ∈ log

def Response.Bare (r : Response) : Prop :=
  r.stat = none ∧ r.data = [] ∧ r.entries = [] ∧ r.target = [] ∧ r.statfs = none

theorem Response.Bare.madeFrom {r : Response} (h : r.Bare) (n : Nat) (log : Log) :
    r.MadeFrom n log := by
  obtain ⟨h1, h2, h3, h4, h5⟩ := h
  constructor <;> simp [h1, h2, h3, h4, h5]

theorem Response.MadeFrom.mono {r : Response} {n : Nat} {log log' : Log} (h : r.MadeFrom n log)
    (hl : log ⊆ log') : r.MadeFrom n log' where
  stat st hst := (h.stat st hst).imp fun _ h => ⟨hl h.1, h.2⟩
  data hd := by
    obtain ⟨f, offset, len, he⟩ := h.data hd
    exact ⟨f, offset, len, hl he⟩
  entries d hd := by
    obtain ⟨dir, pos, he, hst⟩ := h.entries d hd
    exact ⟨dir, pos, hl he, hst.imp_right fun ⟨node, hm, he⟩ => ⟨node, hm, hl he⟩⟩
  target ht := by
    obtain ⟨dir, name, i, he⟩ := h.target ht
    exact ⟨dir, name, i, hl he⟩
  statfs s hs := (h.statfs s hs).imp_right fun ⟨path, i, he⟩ => ⟨path, i, hl he⟩

/-! ## The handlers answer with what they have read -/

/-- The phase is the record of the stream's own calls. -/
def answerProtocol (n : Nat) : Protocol Sys Sys.Ret Log where
  pre l a := ∀ r, a = .reply r → r.MadeFrom n l
  post _ _ _ := True
  next l a r := l ++ [⟨n, a, r⟩]

def Sys.NotReply : Sys → Prop
  | .reply _ => False
  | _ => True

theorem Sys.NotReply.ne {a : Sys} (h : a.NotReply) (r : Response) : a ≠ .reply r := by
  rintro rfl
  exact h

section
variable {n : Nat} {l : Log} {α β : Type}

abbrev Answers (n : Nat) (l : Log) (p : Calls α) (Q : Log → α → Prop) : Prop :=
  p.Follows (answerProtocol n) l Q

theorem answers_of_only {p : Calls α} (h : p.Only Sys.NotReply) :
    Answers n l p fun l' _ => l ⊆ l' := by
  induction p generalizing l with
  | ret x => exact List.Subset.refl l
  | act a k ih =>
    refine ⟨fun r hr => absurd hr (h.1.ne r), fun r _ => ?_⟩
    refine (ih r (h.2 r)).mono fun l' _ hl => ?_
    exact List.Subset.trans (List.subset_append_left _ _) hl

theorem Answers.quiet_bind {p : Calls α} {f : α → Calls β} {Q : Log → β → Prop}
    (h : p.Only Sys.NotReply) (hf : ∀ l' x, l ⊆ l' → Answers n l' (f x) Q) :
    Answers n l (p.bind f) Q :=
  Prog.Follows.bind (answers_of_only h) hf

theorem answers_act {a : Sys} {k : a.Ret → Calls α} {Q : Log → α → Prop} (ha : a.NotReply)
    (hk : ∀ r, Answers n (l ++ [⟨n, a, r⟩]) (k r) Q) : Answers n l (.act a k) Q :=
  ⟨fun r hr => absurd hr (ha.ne r), fun r _ => hk r⟩

theorem answers_reply {r : Response} (h : r.MadeFrom n l) : Answers n l (reply r) fun _ _ => True :=
  ⟨fun _ hr => by cases hr; exact h, fun _ _ => trivial⟩

theorem answers_bare {r : Response} (h : r.Bare) : Answers n l (reply r) fun _ _ => True :=
  answers_reply (h.madeFrom n l)

theorem madeFrom_attrs {op : Op} {seq : UInt64} {status : Status} {handle : ServerHandle} {a : Sys}
    {ans : a.Ret} {st : Option (Ino × Node)} (he : ⟨n, a, ans⟩ ∈ l)
    (hst : ∀ x ∈ st, a.attrs ans = some x) :
    ({ op, seq, status, handle, stat := st } : Response).MadeFrom n l := by
  constructor
  case stat => exact fun x hx => ⟨_, he, rfl, hst x hx⟩
  all_goals simp

theorem madeFrom_data {seq offset : UInt64} {status : Status} {eof : Bool} {f : File} {o : UInt64}
    {len : Nat} {data : Bytes}
    (he : ⟨n, .readAt f o len, (.ok data : Except IoErrorKind Bytes)⟩ ∈ l) :
    ({ op := .read, seq, status, offset, data, eof } : Response).MadeFrom n l := by
  constructor
  case data => exact fun _ => ⟨f, o, len, he⟩
  all_goals simp

end

namespace Io

variable {α β : Type} {P : Sys → Prop}

theorem only_bind {p : Io α} {f : α → Io β} (h : p.toCalls.Only P)
    (hf : ∀ x, (f x).toCalls.Only P) : (p >>= f).toCalls.Only P :=
  Prog.Only.bind h fun r => by
    cases r with
    | ok x => exact hf x
    | error _ => trivial

theorem only_sys {a : Sys} {f : a.Ret → Except Errno α} (h : P a) : (sys a f).toCalls.Only P :=
  ⟨h, fun _ => trivial⟩

theorem only_when {c : Bool} {p : Io Unit} (h : p.toCalls.Only P) :
    (Io.when c p).toCalls.Only P := by
  unfold Io.when
  split
  · exact h
  · trivial

end Io

section
variable {P : Sys → Prop} (ex : Export)

theorem openConfined_only (path : RootPath) (flags : OpenFlags) (mode : Nat) :
    (openConfined path flags mode).toCalls.Only Sys.NotReply := by
  refine ⟨trivial, fun (r : Except Errno Ino) => ?_⟩
  cases r with
  | ok _ => trivial
  | error e =>
    cases e with
    | enosys => exact Io.only_sys trivial
    | _ => trivial

theorem confinedParent_only (resolved : RootPath) :
    (confinedParent ex resolved).toCalls.Only Sys.NotReply := by
  unfold confinedParent
  split
  · trivial
  · exact Io.only_bind (openConfined_only _ _ _) fun _ => trivial

theorem checkIntermediate_only (todo : RootPath) :
    ∀ walking, (checkIntermediate walking todo).Only Sys.NotReply := by
  induction todo with
  | nil => intro _; trivial
  | cons c cs ih =>
    intro walking
    cases cs with
    | nil => trivial
    | cons c' cs =>
      refine ⟨trivial, fun (link : Bool) => ?_⟩
      cases link with
      | true => trivial
      | false => exact ih _

theorem checkCanonical_only (joined : RootPath) :
    (checkCanonical ex joined).Only Sys.NotReply := by
  refine ⟨trivial, fun (there : Bool) => ?_⟩
  cases there with
  | true => exact ⟨trivial, fun _ => ⟨trivial, fun _ => trivial⟩⟩
  | false => trivial

theorem resolve_only (path : List Char) : (resolve ex path).Only Sys.NotReply := by
  unfold resolve
  split
  · trivial
  · refine (checkIntermediate_only _ _).bind fun r => ?_
    cases r with
    | error _ => trivial
    | ok _ =>
      refine (checkCanonical_only ex _).bind fun r => ?_
      cases r <;> trivial

theorem statusOf_only {p : Io Unit} (h : p.toCalls.Only Sys.NotReply) :
    (statusOf p).Only Sys.NotReply :=
  h.bind fun r => by cases r <;> trivial

theorem syncIf_only (sync : Bool) (status : Status) (resolved : RootPath) :
    (syncIf sync status resolved).Only Sys.NotReply := by
  unfold syncIf
  split
  · unfold syncParentDir
    split
    · trivial
    · have h : (fsyncDirConfined resolved.dropLast).toCalls.Only Sys.NotReply :=
        Io.only_bind (openConfined_only _ _ _) fun _ => Io.only_sys trivial
      exact h.bind fun _ => trivial
  · trivial

theorem mkdirConfined_only (resolved : RootPath) (mode : UInt32) :
    (mkdirConfined ex resolved mode).toCalls.Only Sys.NotReply :=
  Io.only_bind (confinedParent_only ex _) fun _ =>
    Io.only_bind (Io.only_sys trivial) fun _ => Io.only_sys trivial

theorem removeConfined_only (resolved : RootPath) (isDir : Bool) :
    (removeConfined ex resolved isDir).toCalls.Only Sys.NotReply :=
  Io.only_bind (confinedParent_only ex _) fun _ => Io.only_sys trivial

theorem symlinkConfined_only (link : RootPath) (target : List Char) :
    (symlinkConfined ex link target).toCalls.Only Sys.NotReply := by
  refine Io.only_bind (confinedParent_only ex _) fun x => ?_
  dsimp only
  split
  · trivial
  · exact Io.only_sys trivial

theorem linkConfined_only (src dst : RootPath) :
    (linkConfined ex src dst).toCalls.Only Sys.NotReply :=
  Io.only_bind (confinedParent_only ex _) fun _ =>
    Io.only_bind (confinedParent_only ex _) fun _ => Io.only_sys trivial

theorem renameConfined_only (old new : RootPath) :
    (renameConfined ex old new).toCalls.Only Sys.NotReply :=
  Io.only_bind (confinedParent_only ex _) fun _ =>
    Io.only_bind (confinedParent_only ex _) fun _ => Io.only_sys trivial

theorem applySetattr_only (resolved : RootPath) (valid mode : UInt32) (size : UInt64)
    (atime mtime : Int64) :
    (applySetattr resolved valid mode size atime mtime).toCalls.Only Sys.NotReply := by
  refine Io.only_bind (Io.only_when ?_) fun _ => Io.only_when ?_
  · refine Io.only_bind (openConfined_only _ _ _) fun fd => ?_
    unfold setLen
    split
    · trivial
    · exact Io.only_sys trivial
  · refine Io.only_bind (openConfined_only _ _ _) fun fd => ?_
    exact Io.only_bind (Io.only_when (Io.only_sys trivial)) fun _ =>
      Io.only_when (Io.only_sys trivial)

end

section
variable {n : Nat} {l : Log} (ex : Export)

theorem withResolved_answers {op : Op} {seq : UInt64} {path : List Char} {k : RootPath → Calls Unit}
    (hk : ∀ l p, Answers n l (k p) fun _ _ => True) :
    Answers n l (withResolved ex op seq path k) fun _ _ => True := by
  refine .quiet_bind (resolve_only ex path) fun l' r _ => ?_
  cases r with
  | error _ => exact answers_bare ⟨rfl, rfl, rfl, rfl, rfl⟩
  | ok p => exact hk l' p

theorem stat_answers {op : Op} {seq : UInt64} (resolved : RootPath) :
    Answers n l (.act (.stat resolved) fun (r : Except Errno (Ino × Node)) =>
      match r with
      | .ok st => reply { op, seq, status := .ok, stat := some st }
      | .error e => reply { op, seq, status := .ofIo e.kind }) fun _ _ => True := by
  refine answers_act trivial fun (r : Except Errno (Ino × Node)) => ?_
  cases r with
  | ok st =>
    refine answers_reply (madeFrom_attrs
      (List.mem_append_right l (List.mem_singleton.mpr rfl)) fun x hx => ?_)
    cases hx
    rfl
  | error _ => exact answers_bare ⟨rfl, rfl, rfl, rfl, rfl⟩

/-- An answer with a status, and after a success with the attributes of a path. -/
theorem statIf_answers {op : Op} {seq : UInt64} {status : Status} {a : Sys}
    {f : a.Ret → Except Errno (Ino × Node)} (ha : a.NotReply)
    (hf : ∀ r, a.attrs r = (f r).toOption) :
    Answers n l ((statIf status a f).bind fun stat => reply { op, seq, status, stat })
      fun _ _ => True := by
  unfold statIf
  split
  · refine answers_act ha fun r => answers_reply (madeFrom_attrs
      (List.mem_append_right l (List.mem_singleton.mpr rfl)) fun x hx => ?_)
    rw [hf]
    exact hx
  · exact answers_bare ⟨rfl, rfl, rfl, rfl, rfl⟩

theorem handleGetattr_answers (seq : UInt64) (path : List Char) :
    Answers n l (handleGetattr ex seq path) fun _ _ => True :=
  withResolved_answers ex fun _ resolved => stat_answers resolved

def Collected (n : Nat) (l : Log) (out : List DirEntry) : Prop :=
  ({ op := .readDir, seq := 0, status := .ok, entries := out } : Response).MadeFrom n l

theorem collectEntries_answers (dir : Ino) (room : Nat) : ∀ {l : Log} {pos : Nat},
    Answers n l (collectEntries dir room pos) fun l' out => l ⊆ l' ∧ Collected n l' out := by
  induction room with
  | zero =>
    intro l pos
    exact ⟨List.Subset.refl l, Response.Bare.madeFrom ⟨rfl, rfl, rfl, rfl, rfl⟩ n l⟩
  | succ room ih =>
    intro l pos
    refine answers_act trivial fun (name : Option Name) => ?_
    cases name with
    | none =>
      exact ⟨List.subset_append_left _ _, Response.Bare.madeFrom ⟨rfl, rfl, rfl, rfl, rfl⟩ n _⟩
    | some name =>
      refine answers_act trivial fun (st : Except Errno (Ino × Node)) => ?_
      refine Prog.Follows.bind ih ?_
      rintro l' out ⟨hl, hout⟩
      rw [List.append_assoc] at hl
      refine ⟨List.Subset.trans (List.subset_append_left _ _) hl, ?_⟩
      constructor
      case entries =>
        intro d hd
        rcases List.mem_cons.mp hd with rfl | hd
        · refine ⟨dir, pos, hl (by simp), ?_⟩
          cases st with
          | error _ => exact .inl ⟨rfl, rfl⟩
          | ok st =>
            refine .inr ⟨st.2, rfl, hl (List.mem_append_right l (List.mem_cons_of_mem _ ?_))⟩
            exact List.mem_singleton.mpr rfl
        · exact hout.entries d hd
      all_goals simp

theorem dirEntries_answers (dir : Ino) (skip : Nat) : ∀ {l : Log} {pos : Nat},
    Answers n l (dirEntries dir skip pos) fun l' out => Collected n l' out := by
  induction skip with
  | zero => intro l pos; exact (collectEntries_answers dir _).mono fun _ _ h => h.2
  | succ skip ih =>
    intro l pos
    refine answers_act trivial fun (name : Option Name) => ?_
    cases name with
    | none => exact Response.Bare.madeFrom ⟨rfl, rfl, rfl, rfl, rfl⟩ n _
    | some _ => exact ih

theorem handleReaddir_answers (seq : UInt64) (path : List Char) (cursor : UInt64) :
    Answers n l (handleReaddir ex seq path cursor) fun _ _ => True := by
  refine .quiet_bind (resolve_only ex path) fun l' r _ => ?_
  cases r with
  | error _ => exact answers_bare ⟨rfl, rfl, rfl, rfl, rfl⟩
  | ok resolved =>
    refine answers_act trivial fun (r : Except Errno Ino) => ?_
    cases r with
    | error _ => exact answers_bare ⟨rfl, rfl, rfl, rfl, rfl⟩
    | ok dir =>
      refine Prog.Follows.bind (dirEntries_answers dir _) fun l' out hout => answers_reply ?_
      exact ⟨nofun, fun h => absurd rfl h, hout.entries, fun h => absurd rfl h, nofun⟩

theorem handleReadlink_answers (seq : UInt64) (path : List Char) :
    Answers n l (handleReadlink ex seq path) fun _ _ => True := by
  refine withResolved_answers ex fun l resolved => ?_
  -- the target is the answer to the last call
  have hlink : Answers n l (readlinkConfined ex resolved).toCalls fun l' r =>
      ∀ target, r = .ok target → ∃ dir name i,
        ⟨n, .readlinkat dir name, (.ok (i, target) : Except Errno (Ino × List Char))⟩ ∈ l' := by
    refine Prog.Follows.bind (answers_of_only (confinedParent_only ex resolved)) fun l' r _ => ?_
    cases r with
    | error _ => exact nofun
    | ok x =>
      refine answers_act trivial fun (r : Except Errno (Ino × List Char)) => ?_
      cases r with
      | error _ => exact nofun
      | ok r =>
        rintro target ⟨⟩
        exact ⟨x.1, x.2, r.1, by simp⟩
  refine Prog.Follows.bind hlink fun l' r hr => ?_
  cases r with
  | error _ => exact answers_bare ⟨rfl, rfl, rfl, rfl, rfl⟩
  | ok target =>
    exact answers_reply ⟨nofun, fun h => absurd rfl h, nofun, fun _ => hr target rfl, nofun⟩

theorem handleStatfs_answers (seq : UInt64) (path : List Char) :
    Answers n l (handleStatfs ex seq path) fun _ _ => True := by
  refine withResolved_answers ex fun l resolved => ?_
  refine answers_act trivial fun (r : Except Errno (Ino × StatFs)) => answers_reply ?_
  refine ⟨nofun, fun h => absurd rfl h, nofun, fun h => absurd rfl h, fun s hs => ?_⟩
  cases r with
  | error _ => cases hs; exact .inl rfl
  | ok r =>
    cases hs
    exact .inr ⟨resolved, r.1, List.mem_append_right l (List.mem_singleton.mpr rfl)⟩

variable (sync : Bool)

theorem sync_statIf_answers {p : Io Unit} {op : Op} {seq : UInt64} {resolved : RootPath} {a : Sys}
    {f : a.Ret → Except Errno (Ino × Node)} (hp : p.toCalls.Only Sys.NotReply) (ha : a.NotReply)
    (hf : ∀ r, a.attrs r = (f r).toOption) :
    Answers n l ((statusOf p).bind fun status => (syncIf sync status resolved).bind fun _ =>
      (statIf status a f).bind fun stat => reply { op, seq, status, stat }) fun _ _ => True :=
  .quiet_bind (statusOf_only hp) fun _ _ _ =>
    .quiet_bind (syncIf_only _ _ _) fun _ _ _ => statIf_answers ha hf

theorem handleMkdir_answers (seq : UInt64) (path : List Char) (mode : UInt32) :
    Answers n l (handleMkdir ex sync seq path mode) fun _ _ => True :=
  withResolved_answers ex fun _ resolved =>
    sync_statIf_answers sync (mkdirConfined_only ex resolved mode) trivial fun _ => rfl

theorem handleRemove_answers (op : Op) (isDir : Bool) (seq : UInt64) (path : List Char) :
    Answers n l (handleRemove ex sync op isDir seq path) fun _ _ => True :=
  withResolved_answers ex fun _ resolved =>
    .quiet_bind (statusOf_only (removeConfined_only ex resolved isDir)) fun _ _ _ =>
      .quiet_bind (syncIf_only _ _ _) fun _ _ _ => answers_bare ⟨rfl, rfl, rfl, rfl, rfl⟩

theorem handleRename_answers (seq : UInt64) (old new : List Char) :
    Answers n l (handleRename ex sync seq old new) fun _ _ => True := by
  refine withResolved_answers ex fun l old => withResolved_answers ex fun l new => ?_
  refine .quiet_bind (statusOf_only (renameConfined_only ex old new)) fun _ status _ => ?_
  refine .quiet_bind (syncIf_only _ _ _) fun _ _ _ => ?_
  dsimp only
  split
  · exact .quiet_bind (syncIf_only _ _ _) fun _ _ _ => answers_bare ⟨rfl, rfl, rfl, rfl, rfl⟩
  · exact answers_bare ⟨rfl, rfl, rfl, rfl, rfl⟩

theorem handleSymlink_answers (seq : UInt64) (target link : List Char) :
    Answers n l (handleSymlink ex sync seq target link) fun _ _ => True := by
  unfold handleSymlink
  split
  · exact answers_bare ⟨rfl, rfl, rfl, rfl, rfl⟩
  · exact withResolved_answers ex fun _ link =>
      sync_statIf_answers sync (symlinkConfined_only ex link target) trivial fun _ => rfl

theorem handleLink_answers (seq : UInt64) (path link : List Char) :
    Answers n l (handleLink ex sync seq path link) fun _ _ => True :=
  withResolved_answers ex fun _ src => withResolved_answers ex fun _ dst =>
    sync_statIf_answers sync (linkConfined_only ex src dst) trivial fun _ => rfl

theorem handleSetattr_answers (seq : UInt64) (path : List Char) (valid mode : UInt32)
    (size : UInt64) (atime mtime : Int64) :
    Answers n l (handleSetattr ex seq path valid mode size atime mtime) fun _ _ => True := by
  refine withResolved_answers ex fun l resolved => ?_
  refine .quiet_bind (statusOf_only (applySetattr_only resolved valid mode size atime mtime))
    fun _ status _ => ?_
  split
  · exact answers_bare ⟨rfl, rfl, rfl, rfl, rfl⟩
  · exact stat_answers resolved

theorem retain_answers {op : Op} {session : Nat} {seq : UInt64} {resolved : RootPath}
    {flags : UInt32} {f : File} {k : Calls Unit} (hk : k.Only Sys.NotReply) :
    Answers n l (retain op session seq resolved flags f k) fun _ _ => True := by
  refine answers_act trivial fun (st : Except Errno (Ino × Node)) => ?_
  refine answers_act trivial fun (id : Option ServerHandle) => ?_
  cases id with
  | none => exact answers_bare ⟨rfl, rfl, rfl, rfl, rfl⟩
  | some handle =>
    refine .quiet_bind hk fun l' _ hl => ?_
    exact answers_reply (madeFrom_attrs
      (hl (List.mem_append_left _ (List.mem_append_right l (List.mem_singleton.mpr rfl))))
      fun x hx => hx)

theorem handleOpen_answers (session : Nat) (seq : UInt64) (path : List Char) (flags : UInt32) :
    Answers n l (handleOpen ex session seq path flags) fun _ _ => True := by
  refine withResolved_answers ex fun l resolved => ?_
  refine .quiet_bind (openConfined_only _ _ _) fun l' r _ => ?_
  cases r with
  | error _ => exact answers_bare ⟨rfl, rfl, rfl, rfl, rfl⟩
  | ok fd => exact retain_answers trivial

theorem handleCreate_answers (session : Nat) (seq : UInt64) (path : List Char)
    (flags mode : UInt32) :
    Answers n l (handleCreate ex sync session seq path flags mode) fun _ _ => True := by
  refine withResolved_answers ex fun l resolved => ?_
  refine .quiet_bind (openConfined_only _ _ _) fun l' r _ => ?_
  cases r with
  | error _ => exact answers_bare ⟨rfl, rfl, rfl, rfl, rfl⟩
  | ok fd => exact answers_act trivial fun _ => retain_answers (syncIf_only _ _ _)

theorem handleRelease_answers (onClose : Bool) (session : Nat) (seq : UInt64)
    (handle : ServerHandle) :
    Answers n l (handleRelease onClose session seq handle) fun _ _ => True := by
  refine answers_act trivial fun (removed : Option OpenHandle) => ?_
  cases removed with
  | none => exact answers_bare ⟨rfl, rfl, rfl, rfl, rfl⟩
  | some h =>
    dsimp only
    split
    · exact .quiet_bind (statusOf_only (Io.only_sys trivial)) fun _ _ _ =>
        answers_bare ⟨rfl, rfl, rfl, rfl, rfl⟩
    · exact answers_bare ⟨rfl, rfl, rfl, rfl, rfl⟩

theorem readLoop_answers {f : File} {seq : UInt64} (fuel : Nat) :
    ∀ {l : Log} {remaining : Nat} {offset : UInt64},
      Answers n l (readLoop f seq fuel remaining offset) fun _ _ => True := by
  induction fuel with
  | zero => intros; trivial
  | succ fuel ih =>
    intro l remaining offset
    unfold readLoop
    split
    · trivial
    · refine answers_act trivial fun (r : Except IoErrorKind Bytes) => ?_
      cases r with
      | error _ => exact answers_bare ⟨rfl, rfl, rfl, rfl, rfl⟩
      | ok buf =>
        refine Prog.Follows.bind (answers_reply ?_) fun l' _ _ => ?_
        · exact madeFrom_data (List.mem_append_right l (List.mem_singleton.mpr rfl))
        · split
          · trivial
          · exact ih

theorem handleRead_answers (session : Nat) (seq : UInt64) (handle : ServerHandle) (offset : UInt64)
    (length : UInt32) :
    Answers n l (handleRead session seq handle offset length) fun _ _ => True := by
  unfold handleRead
  split
  · exact answers_bare ⟨rfl, rfl, rfl, rfl, rfl⟩
  · refine answers_act trivial fun (r : Option File) => ?_
    cases r with
    | none => exact answers_bare ⟨rfl, rfl, rfl, rfl, rfl⟩
    | some f => exact readLoop_answers _

theorem frameLoop_answers {f : File} {append : Bool} {seq : UInt64} (fuel : Nat) :
    ∀ {l : Log} {total : Nat} {w : WriteRequest},
      Answers n l (frameLoop f append seq fuel total w) fun _ _ => True := by
  induction fuel with
  | zero =>
    intro l total w
    rw [frameLoop]
    refine answers_act trivial fun (r : Option IoErrorKind) => ?_
    cases r with
    | some _ => exact answers_bare ⟨rfl, rfl, rfl, rfl, rfl⟩
    | none =>
      dsimp only
      split
      · exact answers_bare ⟨rfl, rfl, rfl, rfl, rfl⟩
      · trivial
  | succ fuel ih =>
    intro l total w
    rw [frameLoop]
    refine answers_act trivial fun (r : Option IoErrorKind) => ?_
    cases r with
    | some _ => exact answers_bare ⟨rfl, rfl, rfl, rfl, rfl⟩
    | none =>
      dsimp only
      split
      · exact answers_bare ⟨rfl, rfl, rfl, rfl, rfl⟩
      · refine answers_act trivial fun (next : Option WriteRequest) => ?_
        cases next with
        | none => trivial
        | some _ => exact ih

theorem handleWriteRpc_answers (frames session : Nat) (seq : UInt64) (first : WriteRequest) :
    Answers n l (handleWriteRpc frames session seq first) fun _ _ => True := by
  refine answers_act trivial fun (r : Option (File × UInt32 × Nat)) => ?_
  rcases r with _ | ⟨f, flags, key⟩
  · exact answers_bare ⟨rfl, rfl, rfl, rfl, rfl⟩
  · refine answers_act trivial fun (locked : Bool) => ?_
    cases locked with
    | false => trivial
    | true =>
      exact Prog.Follows.bind (frameLoop_answers frames) fun _ _ _ =>
        answers_act trivial fun _ => trivial

theorem handleFsync_answers (session : Nat) (seq : UInt64) (handle : ServerHandle)
    (datasync : Bool) : Answers n l (handleFsync session seq handle datasync) fun _ _ => True := by
  refine answers_act trivial fun (r : Option File) => ?_
  cases r with
  | none => exact answers_bare ⟨rfl, rfl, rfl, rfl, rfl⟩
  | some f =>
    exact .quiet_bind (statusOf_only (Io.only_sys trivial)) fun _ _ _ =>
      answers_bare ⟨rfl, rfl, rfl, rfl, rfl⟩

/-- **Every handler answers with what it has read.** -/
theorem handle_answers (dur : Durability) (frames session : Nat) (q : Request) :
    Answers n l (handle ex dur frames session q) fun _ _ => True := by
  cases q with
  | getAttr => exact handleGetattr_answers ex _ _
  | setAttr => exact handleSetattr_answers ex _ _ _ _ _ _ _
  | mkDir => exact handleMkdir_answers ex _ _ _ _
  | rmDir => exact handleRemove_answers ex _ .rmDir true _ _
  | unlink => exact handleRemove_answers ex _ .unlink false _ _
  | rename => exact handleRename_answers ex _ _ _ _
  | symlink => exact handleSymlink_answers ex _ _ _ _
  | link => exact handleLink_answers ex _ _ _ _
  | «open» => exact handleOpen_answers ex _ _ _ _
  | create => exact handleCreate_answers ex _ _ _ _ _ _
  | release => exact handleRelease_answers _ _ _ _
  | read => exact handleRead_answers _ _ _ _ _
  | write => exact handleWriteRpc_answers _ _ _ _
  | fsync _ _ datasync => exact handleFsync_answers _ _ _ datasync
  | readDir => exact handleReaddir_answers ex _ _ _
  | readLink => exact handleReadlink_answers ex _ _
  | statFs => exact handleStatfs_answers ex _ _

end

/-! ## Where a path leads -/

/-- Every entry of the stack, from `/` up, is what its name leads to. -/
def Located (fs : Fs) : List (Name × Ino) → Prop
  | [] => True
  | (name, i) :: stack => Located fs stack ∧ fs.lookup (top slash stack) name = some i

section
variable {fs fs' : Fs} {stack : List (Name × Ino)}

theorem walkTo_located (follow : Bool) (todo : List Name) :
    ∀ {stack : List (Name × Ino)}, Located fs stack →
      (walkTo fs slash false follow stack todo).Stacks (Located fs) := by
  induction todo with
  | nil => intro stack h; exact h
  | cons c cs ih =>
    intro stack h
    unfold walkTo
    split
    · trivial
    · next es hes =>
      split
      · cases stack with
        | nil => exact ih h
        | cons e stack => exact ih h.1
      · split
        · split
          · exact h
          · trivial
        · next i hi =>
          have hpush : Located fs ((c, i) :: stack) := ⟨h, by rw [Fs.lookup, hes]; exact hi⟩
          split
          · split
            · exact hpush
            · split
              · exact trivial
              · exact h
          · exact ih hpush
          · trivial

theorem walk_located (follow : Bool) (links : Nat) :
    ∀ {stack : List (Name × Ino)} (todo : List Name), Located fs stack →
      (walk fs slash false follow links stack todo).Stacks (Located fs) := by
  induction links with
  | zero =>
    intro stack todo h
    have := walkTo_located follow todo h
    unfold walk
    split
    · trivial
    · exact this
  | succ links ih =>
    intro stack todo h
    have := walkTo_located follow todo h
    unfold walk
    split
    · next e => rw [e] at this; exact ih _ this
    · exact this

theorem Located.eq_of_names : ∀ {stack stack' : List (Name × Ino)}, Located fs stack →
    Located fs stack' → stack.map Prod.fst = stack'.map Prod.fst → stack = stack'
  | [], [], _, _, _ => rfl
  | (name, i) :: stack, (name', i') :: stack', h, h', hn => by
    obtain ⟨hname, hrest⟩ : name = name' ∧ stack.map Prod.fst = stack'.map Prod.fst := by
      simpa using hn
    obtain rfl := h.1.eq_of_names h'.1 hrest
    subst hname
    rw [Option.some.inj (h.2.symm.trans h'.2)]

theorem Located.suffix : ∀ {above : List (Name × Ino)}, Located fs (above ++ stack) →
    Located fs stack
  | [], h => h
  | _ :: _, h => h.1.suffix

/-- What is further along a path through a directory is beneath it. -/
theorem Located.beneath {r : Ino} (hr : top slash stack = r) : ∀ {above : List (Name × Ino)},
    Located fs (above ++ stack) → Beneath fs r (top slash (above ++ stack))
  | [], _ => hr ▸ .root
  | (name, i) :: above, h => by
    obtain ⟨es, hes, hl⟩ := Option.bind_eq_some_iff.mp h.2
    exact .entry (h.1.beneath hr) hes (mem_of_lookup hl)

/-- A stack stays where the directories along it keep their entries. -/
theorem Located.congr : ∀ {stack : List (Name × Ino)}, Located fs stack →
    (∀ tail, tail <:+ stack → tail ≠ stack →
      fs'.entries (top slash tail) = fs.entries (top slash tail)) → Located fs' stack
  | [], _, _ => trivial
  | (name, i) :: stack, h, he => by
    have hne : stack ≠ (name, i) :: stack := fun h => by simpa using congrArg List.length h
    refine ⟨h.1.congr fun tail ht _ => ?_, ?_⟩
    · refine he tail (ht.trans (List.suffix_cons _ _)) fun h => ?_
      have := ht.length_le
      rw [h] at this
      simp at this
    · rw [Fs.lookup, he stack (List.suffix_cons _ _) hne]
      exact h.2

end

/-- The export root is at its place, and nothing above it is beneath it. -/
structure Export.PlacedIn (ex : Export) (fs : Fs) : Prop where
  located : Located fs ex.stack
  root : top slash ex.stack = ex.root
  above : ∀ tail, tail <:+ ex.stack → tail ≠ ex.stack → Outside fs ex.root (top slash tail)

/-- The check of `resolve`, made now: where the path leads, if it exists, is under the root. -/
def UnderRoot (ex : Export) (fs : Fs) (follow : Bool) (path : RootPath) : Prop :=
  match walkPlain ex fs follow path with
  | .found stack => (ex.stack.reverse.map Prod.fst).isPrefixOf (stack.reverse.map Prod.fst)
  | _ => True

instance (ex : Export) (fs : Fs) (follow : Bool) (path : RootPath) :
    Decidable (UnderRoot ex fs follow path) := by
  unfold UnderRoot
  split
  · infer_instance
  · exact isTrue trivial

/-- The path of a call whose answer is sent, and whether a link at its end is followed. -/
def Sys.byPath : Sys → Option (Bool × RootPath)
  | .stat path | .readDir path | .statvfs path => some (true, path)
  | .lstat path => some (false, path)
  | _ => none

/-- At a call by path whose answer is sent the path would still pass the check. -/
def StillUnderRoot (ex : Export) : Cond Sys (Host × Log) Nat Choice Incoming Empty where
  run s _ a _ := ∀ q ∈ a.byPath, UnderRoot ex s.1.fs q.1 q.2
  start _ _ _ := True
  env _ _ := True

instance (ex : Export) : (StillUnderRoot ex).Checkable where
  run s _ a _ := inferInstanceAs (Decidable (∀ q ∈ a.byPath, UnderRoot ex s.1.fs q.1 q.2))
  start _ _ _ := isTrue trivial
  env _ _ := isTrue trivial

section
variable {ex : Export} {Out : Ino → Prop} {fs fs' fs₀ : Fs} {h h' : Host}

theorem UnderRoot.beneath (hloc : Located fs ex.stack) (hroot : top slash ex.stack = ex.root)
    {follow : Bool} {path : RootPath} (hu : UnderRoot ex fs follow path) {stack : List (Name × Ino)}
    (hw : walkPlain ex fs follow path = .found stack) : Beneath fs ex.root (top slash stack) := by
  unfold UnderRoot at hu
  rw [hw] at hu
  have hstack : Located fs stack := by
    have := walk_located follow maxSymlinks (path.map (·.1)) hloc
    rw [show walk fs slash false follow maxSymlinks ex.stack (path.map (·.1)) =
      .found stack from hw]
      at this
    exact this
  -- the names end with those of the root, so the stack ends with its stack
  have hsuffix : ex.stack.map Prod.fst <:+ stack.map Prod.fst := by
    rw [← List.reverse_prefix, ← List.map_reverse, ← List.map_reverse]
    exact List.isPrefixOf_iff_prefix.mp hu
  obtain ⟨names, hnames⟩ := hsuffix
  obtain ⟨above, below, rfl, -, hbelow⟩ := List.map_eq_append_iff.mp hnames.symm
  obtain rfl := hstack.suffix.eq_of_names hloc hbelow
  exact hstack.beneath hroot

theorem statAt_found {w : WalkEnd} {st : Ino × Node} (h : statAt fs w = .ok st) :
    ∃ stack, w = .found stack ∧ st.1 = top slash stack := by
  cases w with
  | found stack =>
    refine ⟨stack, rfl, ?_⟩
    simp only [statAt] at h
    split at h
    · cases h; rfl
    · cases h
  | _ => cases h

theorem withFault_ok {α : Type} {fault : Option Errno} {x : Except Errno (α × Fs)} {y : α}
    (he : withFault fault h x = some (.ok y, h')) : ∃ fs, x = .ok (y, fs) := by
  rcases withFault_eq_some he with ⟨-, y', fs, hok, hr, -⟩ | ⟨⟨_, hr⟩, -⟩
  · cases hr
    exact ⟨fs, hok⟩
  · cases hr

theorem withFault_map_ok {α : Type} {fault : Option Errno} {x : Except Errno α} {y : α}
    (he : withFault fault h (x.map (·, h.fs)) = some (.ok y, h')) : x = .ok y := by
  obtain ⟨fs, hx⟩ := withFault_ok he
  cases x with
  | error _ => cases hx
  | ok _ => cases hx; rfl

/-! ## A step -/

theorem Jailed.rebase (hj : Jailed Out fs₀ fs) : Jailed Out fs fs :=
  ⟨fun _ => rfl, hj.closed, hj.used⟩

theorem Fs.entries_fchmodat {d : Ino} {name : Name} {mode : Nat}
    (h : fs.fchmodat d name mode = .ok fs') :
    fs'.next = fs.next ∧ ∀ i, fs'.entries i = fs.entries i := by
  unfold Fs.fchmodat at h
  split at h
  · obtain ⟨n, hn, rfl⟩ := Fs.modify_eq_ok h
    refine ⟨rfl, fun i => ?_⟩
    rw [Fs.entries_eq, Fs.entries_eq]
    simp only [Fs.set]
    split
    · next hi => rw [hi.1, hn]; rfl
    · rfl
  all_goals cases h

end

section
variable {kernel : Kernel} {ex : Export} {dur : Durability} {Out : Ino → Prop} {h h' : Host}
    {c : Choice}

/-- What the streams have in hand stays inside, and the directories outside keep their
entries. -/
theorem Contained.next (hk : kernel.hasOpenat2 = true) (hroot : ¬Out ex.root) {n : Nat} {a : Sys}
    {r : a.Ret} {l : StreamPhase} (hc : Contained Out h.fs h) (hl : l.Inside Out)
    (ha : streamProtocol.pre l a) (he : a.exec kernel ex n c h = some (r, h')) :
    Contained Out h'.fs h' ∧ (streamProtocol.next l a r).Inside Out ∧
      ∀ i, Out i → h'.fs.entries i = h.fs.entries i := by
  by_cases hf : ∃ d name mode, a = .fchmodat d name mode
  · obtain ⟨d, name, mode, rfl⟩ := hf
    change Server.withFault_ c.fault h (h.fs.fchmodat d name.1 mode) = some (r, h') at he
    rcases withFault_unit_eq_some he with ⟨-, fs, hm, -, rfl⟩ | ⟨-, rfl, -⟩
    · obtain ⟨hnext, hentries⟩ := Fs.entries_fchmodat hm
      refine ⟨⟨⟨fun _ => rfl, fun {d es} hd hes => ?_, fun hi => ?_⟩, hc.retained⟩, hl,
        fun i _ => hentries i⟩
      · exact hc.fs.closed hd ((hentries d).symm.trans hes)
      · exact hnext ▸ hc.fs.used hi
    · exact ⟨hc, hl, fun _ _ => rfl⟩
  · have hcond : NoLinkAtChmod.run h n a c := by
      cases a
      case fchmodat d name mode => exact absurd ⟨d, name, mode, rfl⟩ hf
      all_goals trivial
    obtain ⟨hc', hl'⟩ := hc.exec hk hroot hl ha hcond he
    refine ⟨⟨hc'.fs.rebase, hc'.retained⟩, hl', fun i hi => ?_⟩
    rw [Fs.entries_eq, Fs.entries_eq, hc'.fs.same hi]

/-- The directory a stream lists is not outside. -/
theorem listing_next (hroot : ¬Out ex.root) (hloc : Located h.fs ex.stack)
    (htop : top slash ex.stack = ex.root) {log : Log} {n : Nat} {a : Sys} {r : a.Ret}
    {l : StreamPhase} (hc : Contained Out h.fs h) (hl : ∀ d ∈ l.listing, ¬Out d)
    (hu : (StillUnderRoot ex).run (h, log) n a c) (he : a.exec kernel ex n c h = some (r, h')) :
    ∀ d ∈ (streamProtocol.next l a r).listing, ¬Out d := by
  cases a with
  | readDir path =>
    intro d hd
    change d ∈ (r : Except Errno Ino).toOption at hd
    change Except Errno Ino at r
    cases r with
    | error _ => cases hd
    | ok i =>
      cases hd
      obtain ⟨fs, hx⟩ := withFault_ok he
      split at hx
      · next st hst =>
        split at hx
        · cases hx
          obtain ⟨stack, hw, htop'⟩ := statAt_found hst
          change d = _ at htop'
          rw [htop']
          exact hc.fs.beneath hroot ((hu _ rfl).beneath hloc htop (walkPath_found.mp hw).2)
        · cases hx
      · cases hx
  | openat2 | openPlain => change Except Errno Ino at r; cases r <;> exact hl
  | writeAt => change Option IoErrorKind at r; cases r <;> exact hl
  | _ => exact hl

/-- What is found by a path that still passes the check is not outside. -/
theorem stat_inside (hroot : ¬Out ex.root) (hloc : Located h.fs ex.stack)
    (htop : top slash ex.stack = ex.root) (hc : Contained Out h.fs h) {follow : Bool}
    {path : RootPath} (hu : UnderRoot ex h.fs follow path) {st : Ino × Node}
    (hst : statAt h.fs (walkPath ex h.fs follow path) = .ok st) : ¬Out st.1 := by
  obtain ⟨stack, hw, hi⟩ := statAt_found hst
  rw [hi]
  exact hc.fs.beneath hroot (hu.beneath hloc htop (walkPath_found.mp hw).2)

theorem source_inside (hroot : ¬Out ex.root) (hloc : Located h.fs ex.stack)
    (htop : top slash ex.stack = ex.root) {log : Log} {n : Nat} {a : Sys} {r : a.Ret}
    {l : StreamPhase} (hc : Contained Out h.fs h) (hl : l.Inside Out)
    (hlist : ∀ d ∈ l.listing, ¬Out d) (ha : streamProtocol.pre l a)
    (hu : (StillUnderRoot ex).run (h, log) n a c) (he : a.exec kernel ex n c h = some (r, h')) :
    ∀ i ∈ a.source r, ¬Out i := by
  intro i hi
  cases a with
  | stat path =>
    change Except Errno (Ino × Node) at r
    cases r with
    | error _ => cases hi
    | ok st => cases hi; exact stat_inside hroot hloc htop hc (hu _ rfl) (withFault_map_ok he)
  | lstat path =>
    change Except Errno (Ino × Node) at r
    cases r with
    | error _ => cases hi
    | ok st => cases hi; exact stat_inside hroot hloc htop hc (hu _ rfl) (withFault_map_ok he)
  | statvfs path =>
    change Except Errno (Ino × StatFs) at r
    cases r with
    | error _ => cases hi
    | ok st =>
      cases hi
      obtain ⟨fs, hx⟩ := withFault_ok he
      cases hst : statAt h.fs (walkPath ex h.fs true path) with
      | error _ => rw [hst] at hx; cases hx
      | ok st' => rw [hst] at hx; cases hx; exact stat_inside hroot hloc htop hc (hu _ rfl) hst
  | fstat fd =>
    change Except Errno (Ino × Node) at r
    cases r with
    | error _ => cases hi
    | ok st =>
      cases hi
      rw [exec_post (l := l) he st rfl]
      exact hl.fds fd ha
  | statEntry dir name =>
    change Except Errno (Ino × Node) at r
    cases r with
    | error _ => cases hi
    | ok st =>
      cases hi
      exact hc.fs.lookup (hlist dir ha) (Fs.fstatat_eq_ok (withFault_map_ok he)).1
  | readlinkat dir name =>
    change Except Errno (Ino × List Char) at r
    cases r with
    | error _ => cases hi
    | ok st =>
      cases hi
      exact hc.fs.lookup (hl.fds dir ha) (Fs.readlinkat_eq_ok (withFault_map_ok he))
  | nextEntry dir pos =>
    change Option Name at r
    cases r with
    | none => cases hi
    | some _ => cases hi; exact hlist dir ha
  | readAt f offset len =>
    change Except IoErrorKind Bytes at r
    cases r with
    | error _ => cases hi
    | ok _ => cases hi; exact hl.held f ha.1
  | _ => cases hi

/-- The calls of every stream read inside, and every frame is made from what its stream
has read. -/
structure Discreet (ex : Export) (Out : Ino → Prop) (s : Host × Log) (l : Nat → StreamPhase) :
    Prop where
  contained : Contained Out s.1.fs s.1
  located : Located s.1.fs ex.stack
  inside : ∀ n, (l n).Inside Out
  listing : ∀ n, ∀ d ∈ (l n).listing, ¬Out d
  sources : ∀ e ∈ s.2, ∀ i ∈ e.act.source e.answer, ¬Out i

theorem Discreet.update {s : Host × Log} {l : Nat → StreamPhase} {n : Nat} {l' : StreamPhase}
    (hd : Discreet ex Out s l) (hl : l'.Inside Out) (hlist : ∀ d ∈ l'.listing, ¬Out d) :
    Discreet ex Out s (Function.update l n l') where
  contained := hd.contained
  located := hd.located
  inside := (Function.forall_update_iff l fun _ l => l.Inside Out).mpr ⟨hl, fun m _ => hd.inside m⟩
  listing := (Function.forall_update_iff l fun _ l => ∀ d ∈ l.listing, ¬Out d).mpr
    ⟨hlist, fun m _ => hd.listing m⟩
  sources := hd.sources

end

section
variable {kernel : Kernel} {ex : Export} {dur : Durability} {h₀ : Host}
  {c : Config Sys Sys.Ret (Host × Log) Nat}

theorem sources_inside (hk : kernel.hasOpenat2 = true) (hex : ex.PlacedIn h₀.fs)
    (h₀r : ∀ s id f, (h₀.tables s).getFile id = some f → ¬Outside h₀.fs ex.root f.ino)
    (h : Reach (serverMachine kernel ex dur).recorded.step (StillUnderRoot ex).Meets
      (Config.idle (h₀, [])) c) :
    ∀ e ∈ c.state.2, ∀ i ∈ e.act.source e.answer, ¬Outside h₀.fs ex.root i := by
  have hroot : ¬Outside h₀.fs ex.root ex.root := fun h => h.2 .root
  have hinv := @Machine.sound _ _ _ _ _ _ _ _ _ _ _ (fun _ => streamProtocol)
    (Discreet ex (Outside h₀.fs ex.root)) (fun _ _ => True) _
    (fun _ => .start 0 (.getAttr 0 [])) _ ?_ (fun _ => trivial) ?_ ?_ ?_ (fun e => e.elim) h
  · exact hinv.elim fun _ hi => hi.1.sources
  · exact ⟨⟨jailed_start _ _, h₀r _ _ _⟩, hex.located, fun _ => StreamPhase.inside_start _ _ _,
      fun _ d hd => (Option.not_mem_none d hd).elim, fun e he => absurd he List.not_mem_nil⟩
  · intro t l a ch r s s' _ he
    exact exec_post (Machine.exec_recorded he).1
  · intro n a ch r s s' l hi ha hu he
    obtain ⟨he, hlog⟩ := Machine.exec_recorded he
    obtain ⟨hc, hl, hentries⟩ := hi.contained.next hk hroot (hi.inside n) ha he
    have hlist := listing_next hroot hi.located hex.root hi.contained (hi.listing n) hu he
    have hsource := source_inside hroot hi.located hex.root hi.contained (hi.inside n)
      (hi.listing n) ha hu he
    have hloc : Located s'.1.fs ex.stack := hi.located.congr fun tail ht hne =>
      hentries _ (hex.above tail ht hne)
    have hd : Discreet ex (Outside h₀.fs ex.root) s' l := by
      refine ⟨hc, hloc, hi.inside, hi.listing, fun e hm => ?_⟩
      rw [hlog] at hm
      rcases List.mem_append.mp hm with hm | hm
      · exact hi.sources e hm
      · rw [List.mem_singleton.mp hm]
        exact hsource
    exact hd.update hl hlist
  · intro n q s l hi _ _
    exact ⟨_, hi.update (StreamPhase.inside_start _ _ _)
      fun d hd => (Option.not_mem_none d hd).elim,
      handle_follows ex dur q.frames q.session q.request⟩

/-- In every run the frames are made from what their streams have read. -/
theorem frames_madeFrom {K : Cond Sys (Host × Log) Nat Choice Incoming Empty}
    (h : Reach (serverMachine kernel ex dur).recorded.step K.Meets (Config.idle (h₀, [])) c)
    {n : Nat} {r : Response} (hr : ⟨n, .reply r, ()⟩ ∈ c.state.2) : r.MadeFrom n c.state.2 := by
  let I : Host × Log → (Nat → Log) → Prop := fun s l => (∀ n, l n ⊆ s.2) ∧
    ∀ n r, ⟨n, .reply r, ()⟩ ∈ s.2 → r.MadeFrom n s.2
  have hinv := @Machine.sound _ _ _ _ _ _ _ _ _ _ K (fun n => answerProtocol n) I
    (fun _ _ => True) _ (fun _ => []) _ ?_ (fun _ => trivial) (fun _ _ _ _ _ _ _ _ _ => trivial) ?_
      ?_
    (fun e => e.elim) h
  · exact hinv.elim fun _ hi => hi.1.2 n r hr
  · exact ⟨fun _ => List.Subset.refl _, fun _ _ => nofun⟩
  · rintro n a ch r s s' l ⟨hsub, hmade⟩ ha - he
    obtain ⟨-, hlog⟩ := Machine.exec_recorded he
    have hmono : s.2 ⊆ s'.2 := hlog ▸ List.subset_append_left _ _
    refine ⟨fun m => ?_, fun m q hm => ?_⟩
    · by_cases e : m = n
      · subst e
        rw [update_self, hlog]
        exact List.append_subset.mpr ⟨List.Subset.trans (hsub m) (List.subset_append_left _ _),
          List.subset_append_right _ _⟩
      · rw [update_of_ne e]
        exact List.Subset.trans (hsub m) hmono
    · rw [hlog] at hm
      rcases List.mem_append.mp hm with hm | hm
      · exact (hmade m q hm).mono hmono
      · cases List.mem_singleton.mp hm
        exact (ha q rfl).mono (List.Subset.trans (hsub n) hmono)
  · rintro n q s l ⟨hsub, hmade⟩ - -
    refine ⟨[], ⟨?_, hmade⟩, handle_answers ex dur q.frames q.session q.request⟩
    exact (forall_update_iff l fun _ l => l ⊆ s.2).mpr
      ⟨List.nil_subset _, fun m _ => hsub m⟩

/-- **No answer tells about an object outside the export root**, in every run in which each
path still passes the check of `resolve` when it is used: the calls of the streams read no
such object, and the frames are made from what these calls have read. -/
theorem answers_inside (hk : kernel.hasOpenat2 = true) (hex : ex.PlacedIn h₀.fs)
    (h₀r : ∀ s id f, (h₀.tables s).getFile id = some f → ¬Outside h₀.fs ex.root f.ino)
    (h : Reach (serverMachine kernel ex dur).recorded.step (StillUnderRoot ex).Meets
      (Config.idle (h₀, [])) c) :
    (∀ e ∈ c.state.2, ∀ i ∈ e.act.source e.answer, ¬Outside h₀.fs ex.root i) ∧
      ∀ n r, ⟨n, .reply r, ()⟩ ∈ c.state.2 → r.MadeFrom n c.state.2 :=
  ⟨sources_inside hk hex h₀r h, fun _ _ => frames_madeFrom h⟩

end

theorem srv_placed : srv.PlacedIn keyHost.fs where
  located := ⟨trivial, rfl⟩
  root := rfl
  above tail ht hne := by
    -- only `/` is above the root, and the export is empty
    obtain rfl : tail = [] := by
      rcases List.suffix_cons_iff.mp ht with h | h
      · exact absurd h hne
      · exact List.suffix_nil.mp h
    refine ⟨rfl, fun h => ?_⟩
    have : ∀ i, Beneath keyHost.fs srv.root i → i = 1 := by
      intro i hi
      induction hi with
      | root => rfl
      | entry _ he hm ih => subst ih; cases he; cases hm
    exact absurd (this slash h) (by decide)

/-- GetAttr of `/x`, which is not there yet, up to the call that fetches the attributes. -/
def getattrRun : List (Label Nat Choice Incoming Empty) :=
  [.start 0 ⟨0, .getAttr 1 ['/', 'x'], 0⟩, .run 0 {}]

/-- A second stream makes `/x` a link to `/key`. -/
def linkRun : List (Label Nat Choice Incoming Empty) :=
  .start 1 ⟨0, .symlink 2 ['/', 'k', 'e', 'y'] ['/', 'x'], 0⟩ :: List.replicate 5 (.run 1 {})

/-- The link is made once the attributes are fetched; a GetAttr after that is refused. -/
theorem answers_inside_late_link : ∃ c : Config Sys Sys.Ret (Host × Log) Nat,
    Reach (serverMachine linux srv ⟨false, false⟩).recorded.step
      (StillUnderRoot srv).Meets
      (Config.idle (keyHost, [])) c ∧
    c.state.1.replies.map (·.2.status) = [.notFound, .ok, .permission] ∧
    ∀ e ∈ c.state.2, ∀ i ∈ e.act.source e.answer, ¬Outside keyHost.fs srv.root i := by
  have hrun : ((execBy (serverMachine linux srv ⟨false, false⟩).recorded.step
      (StillUnderRoot srv).Meets (Config.idle (keyHost, []))
      (getattrRun ++ [.run 0 {}, .run 0 {}] ++ linkRun ++
        .start 0 ⟨0, .getAttr 3 ['/', 'x'], 0⟩ :: List.replicate 4 (.run 0 {}))).map
      fun c => c.state.1.replies.map (·.2.status)) = some [.notFound, .ok, .permission] := by
    decide +kernel
  obtain ⟨c, hc, hr⟩ := Option.map_eq_some_iff.mp hrun
  have hreach := Reach.of_execBy .refl hc
  exact ⟨c, hreach, hr, (answers_inside rfl srv_placed (fun _ _ _ h => by cases h) hreach).1⟩

/-- The link is made between the check and the call: the attributes of `/key` are sent. -/
theorem getattr_follows_swapped_link : ∃ (c : Config Sys Sys.Ret (Host × Log) Nat) (r : Response),
    Reach (serverMachine linux srv ⟨false, false⟩).recorded.step anyLabel
      (Config.idle (keyHost, [])) c ∧
    Outside keyHost.fs srv.root 2 ∧ (0, r) ∈ c.state.1.replies ∧ r.status = .ok ∧
    r.stat = (keyHost.fs.nodes 2).map fun node => (2, node) := by
  have hrun : ((execBy (serverMachine linux srv ⟨false, false⟩).recorded.step anyLabel
      (Config.idle (keyHost, [])) (getattrRun ++ linkRun ++ [.run 0 {}, .run 0 {}])).bind
      fun c => c.state.1.replies.getLast?.map fun q => (q.1, q.2.status, q.2.stat)) =
      some (0, .ok, some (2, ⟨.file [42], 0o600, 0, 0⟩)) := by decide +kernel
  obtain ⟨c, hc, hr⟩ := Option.bind_eq_some_iff.mp hrun
  obtain ⟨⟨n, r⟩, hlast, heq⟩ := Option.map_eq_some_iff.mp hr
  obtain ⟨rfl, hstatus, hstat⟩ : n = 0 ∧ r.status = .ok ∧
      r.stat = some (2, ⟨.file [42], 0o600, 0, 0⟩) := by simpa using heq
  exact ⟨c, r, Reach.of_execBy .refl hc, key_outside, List.mem_of_getLast? hlast, hstatus, hstat⟩

end QuicFs.Server
