import QuicFs.Server.Effects

/-!
# The export root as a jail

Streams run the handlers, one system call at a time in any order. `Outside` are the objects
that are not beneath the export root when the run starts. `Jailed` says that none of them has
changed and that no directory of the export leads to one of them; a walk confined to the root
then never ends at one.

The handlers use the descriptors of the confined open and the files their handles retain
(`handle_follows`), so a call on a descriptor is on one that is not outside. One call does
not fit: `fchmodat` after `mkdirat` follows a link that has been put in the place of the new
directory (`chmod_follows_swapped_link`).
-/

namespace QuicFs.Server

open Lib

def Node.entries (n : Node) : Option (List (Name × Ino)) :=
  match n.kind with
  | .dir es => some es
  | _ => none

theorem Fs.entries_eq (fs : Fs) (d : Ino) : fs.entries d = (fs.nodes d).bind Node.entries := by
  unfold Fs.entries Fs.kind
  cases fs.nodes d with
  | none => rfl
  | some n => rcases n with ⟨k, _, _, _⟩; cases k <;> rfl

def Outside (fs₀ : Fs) (root i : Ino) : Prop := (fs₀.nodes i).isSome ∧ ¬Beneath fs₀ root i

section
variable (Out : Ino → Prop)

structure Jailed (fs₀ fs : Fs) : Prop where
  same : ∀ {i}, Out i → fs.nodes i = fs₀.nodes i
  closed : ∀ {d es}, ¬Out d → fs.entries d = some es → ∀ e ∈ es, ¬Out e.2
  used : ∀ {i}, Out i → i < fs.next

end

theorem jailed_start (fs : Fs) (root : Ino) : Jailed (Outside fs root) fs fs where
  same _ := rfl
  closed {d es} hd he e hm hout := by
    have hsome : (fs.nodes d).isSome := by
      rw [Fs.entries_eq] at he
      cases h : fs.nodes d with
      | none => rw [h] at he; cases he
      | some _ => rfl
    have hb : Beneath fs root d := Classical.byContradiction fun h => hd ⟨hsome, h⟩
    exact hout.2 (.entry hb he hm)
  used {i} hi := by
    refine Nat.lt_of_not_le fun h => ?_
    have := hi.1
    rw [fs.fresh i h] at this
    cases this

section
variable {Out : Ino → Prop} {fs₀ fs fs' : Fs} {d d' i : Ino} {name name' : Name} {mode : Nat}

namespace Jailed

theorem beneath (hj : Jailed Out fs₀ fs) {r : Ino} (hr : ¬Out r) (h : Beneath fs r i) : ¬Out i := by
  induction h with
  | root => exact hr
  | entry _ he hm ih => exact hj.closed ih he _ hm

theorem lookup (hj : Jailed Out fs₀ fs) (hd : ¬Out d) (h : fs.lookup d name = some i) : ¬Out i := by
  obtain ⟨es, he, hl⟩ := Option.bind_eq_some_iff.mp h
  exact hj.closed hd he _ (mem_of_lookup hl)

theorem entries_getD (hj : Jailed Out fs₀ fs) (hd : ¬Out d) :
    ∀ e ∈ (fs.entries d).getD [], ¬Out e.2 := by
  intro e he
  cases h : fs.entries d with
  | none => rw [h] at he; cases he
  | some es => rw [h] at he; exact hj.closed hd h e he

theorem set (hj : Jailed Out fs₀ fs) (hi : ¬Out i) {n : Option Node}
    (hn : ∀ es, n.bind Node.entries = some es → ∀ e ∈ es, ¬Out e.2) :
    Jailed Out fs₀ (fs.set i n) where
  same {j} hout := by
    have : ¬(j = i ∧ i < fs.next) := fun h => hi (h.1 ▸ hout)
    simp only [Fs.set, this, if_false, hj.same hout]
  closed {d es} hd he := by
    rw [Fs.entries_eq] at he
    simp only [Fs.set] at he
    split at he
    · exact hn es he
    · exact hj.closed hd ((fs.entries_eq d).trans he)
  used := hj.used

theorem setEntries (hj : Jailed Out fs₀ fs) (hd : ¬Out d) {es : List (Name × Ino)}
    (hes : ∀ e ∈ es, ¬Out e.2) : Jailed Out fs₀ (fs.setEntries d es) := by
  refine hj.set hd fun es' h => ?_
  cases hn : fs.nodes d with
  | none => rw [hn] at h; cases h
  | some n => rw [hn] at h; cases h; exact hes

theorem addEntry (hj : Jailed Out fs₀ fs) (hd : ¬Out d) (hi : ¬Out i) :
    Jailed Out fs₀ (fs.addEntry d name i) := by
  refine hj.setEntries hd fun e he => ?_
  rcases List.mem_append.mp he with he | he
  · exact hj.entries_getD hd e he
  · obtain rfl := List.mem_singleton.mp he
    exact hi

theorem dropEntry (hj : Jailed Out fs₀ fs) (hd : ¬Out d) : Jailed Out fs₀ (fs.dropEntry d name) :=
  hj.setEntries hd fun e he => hj.entries_getD hd e (List.mem_filter.mp he).1

theorem not_out_next (hj : Jailed Out fs₀ fs) : ¬Out fs.next := fun h => Nat.lt_irrefl _ (hj.used h)

theorem alloc (hj : Jailed Out fs₀ fs) {n : Node} (hn : ∀ es, n.entries = some es → es = []) :
    Jailed Out fs₀ (fs.alloc n) where
  same {j} hout := by
    have : j ≠ fs.next := fun h => hj.not_out_next (h ▸ hout)
    simp only [Fs.alloc, this, if_false, hj.same hout]
  closed {d es} hd he := by
    rw [Fs.entries_eq] at he
    simp only [Fs.alloc] at he
    split at he
    · intro e hm
      rw [hn es he] at hm
      cases hm
    · exact hj.closed hd ((fs.entries_eq d).trans he)
  used h := Nat.lt_succ_of_lt (hj.used h)

theorem create (hj : Jailed Out fs₀ fs) (hd : ¬Out d) {kind : Kind}
    (hk : ∀ es, kind = .dir es → es = []) : Jailed Out fs₀ (fs.create d name kind mode) := by
  refine (hj.alloc fun es h => ?_).addEntry hd hj.not_out_next
  cases kind with
  | dir es' => cases h; exact hk _ rfl
  | file _ => cases h
  | symlink _ => cases h

/-! ### The operations -/

theorem modify (hj : Jailed Out fs₀ fs) (hi : ¬Out i) {f : Node → Node}
    (h : fs.modify i f = .ok fs') (hf : ∀ n, (f n).kind = n.kind) : Jailed Out fs₀ fs' := by
  obtain ⟨n, hn, rfl⟩ := Fs.modify_eq_ok h
  refine hj.set hi fun es he => ?_
  refine hj.closed hi ?_
  rw [Fs.entries_eq, hn]
  simpa [Node.entries, hf n] using he

theorem setLen (hj : Jailed Out fs₀ fs) (hi : ¬Out i) {size : Nat}
    (h : fs.setLen i size = .ok fs') : Jailed Out fs₀ fs' := by
  unfold Fs.setLen at h
  split at h
  · cases h
    exact hj.set hi fun es he => by cases he
  · cases h

theorem setContent (hj : Jailed Out fs₀ fs) (hi : ¬Out i) {data : Bytes} :
    Jailed Out fs₀ (fs.setContent i data) := by
  refine hj.set hi fun es he => ?_
  cases hn : fs.nodes i with
  | none => rw [hn] at he; cases he
  | some n => rw [hn] at he; cases he

theorem utimens (hj : Jailed Out fs₀ fs) (hi : ¬Out i) {atime mtime : Option Timespec}
    (h : fs.utimens i atime mtime = .ok fs') : Jailed Out fs₀ fs' := by
  unfold Fs.utimens at h
  split at h
  · exact hj.modify hi h fun _ => rfl
  · cases h

theorem mkdirat (hj : Jailed Out fs₀ fs) (hd : ¬Out d) (h : fs.mkdirat d name mode = .ok fs') :
    Jailed Out fs₀ fs' := by
  obtain ⟨-, -, rfl⟩ := Fs.mkdirat_eq_ok h
  exact hj.create hd fun es he => by cases he; rfl

theorem symlinkat (hj : Jailed Out fs₀ fs) (hd : ¬Out d) {target : List Char}
    (h : fs.symlinkat target d name = .ok fs') : Jailed Out fs₀ fs' := by
  obtain ⟨-, -, rfl⟩ := Fs.symlinkat_eq_ok h
  exact hj.create hd fun es he => by cases he

theorem unlinkat (hj : Jailed Out fs₀ fs) (hd : ¬Out d) {removeDir : Bool}
    (h : fs.unlinkat d name removeDir = .ok fs') : Jailed Out fs₀ fs' := by
  obtain ⟨i, hi, ⟨-, rfl⟩ | ⟨-, rfl⟩⟩ := Fs.unlinkat_eq_ok h
  · exact hj.dropEntry hd
  · exact (hj.dropEntry hd).set (hj.lookup hd hi) fun es he => by cases he

theorem linkat (hj : Jailed Out fs₀ fs) (hd : ¬Out d) (hd' : ¬Out d')
    (h : fs.linkat d name d' name' = .ok fs') : Jailed Out fs₀ fs' := by
  obtain ⟨i, hi, -, -, -, rfl⟩ := Fs.linkat_eq_ok h
  exact hj.addEntry hd' (hj.lookup hd hi)

theorem moveEntry (hj : Jailed Out fs₀ fs) (hd : ¬Out d) (hd' : ¬Out d') (hi : ¬Out i) :
    Jailed Out fs₀ (fs.moveEntry d name d' name' i) :=
  ((hj.dropEntry hd).dropEntry hd').addEntry hd' hi

theorem renameat (hj : Jailed Out fs₀ fs) (hd : ¬Out d) (hd' : ¬Out d')
    (h : fs.renameat d name d' name' = .ok fs') : Jailed Out fs₀ fs' := by
  obtain ⟨i, hi, -, -, hren⟩ := Fs.renameat_eq_ok h
  have hmove : Jailed Out fs₀ (fs.moveEntry d name d' name' i) :=
    hj.moveEntry hd hd' (hj.lookup hd hi)
  cases hren with
  | same => exact hj
  | free => exact hmove
  | file => exact hmove
  | dir hjl => exact hmove.set (hj.lookup hd' hjl) fun es he => by cases he

theorem openAt (hj : Jailed Out fs₀ fs) {base : Ino} {flags : OpenFlags} {w : WalkEnd}
    (hw : w.Stacks fun st => ¬Out (top base st)) (h : fs.openAt base flags mode w = .ok (i, fs')) :
    ¬Out i ∧ Jailed Out fs₀ fs' := by
  rcases Fs.openAt_eq_ok h with ⟨st, rfl, rfl, rfl | ⟨-, n, rfl⟩⟩ | ⟨st, name, rfl, -, rfl, rfl⟩
  · exact ⟨hw, hj⟩
  · exact ⟨hw, hj.set hw fun es he => by cases he⟩
  · exact ⟨hj.not_out_next, hj.create hw fun es he => by cases he⟩

end Jailed

theorem walk_component {stack : List (Name × Ino)} (c : Component) {follow : Bool} {links : Nat}
    (hl : ∀ i ∈ fs.lookup (top slash stack) c.1, ¬fs.isSymlink i) {st : List (Name × Ino)}
    (h : walk fs slash false follow links stack [c.1] = .found st) :
    fs.lookup (top slash stack) c.1 = some (top slash st) := by
  unfold walk walkTo at h
  cases he : fs.entries (top slash stack) with
  | none => simp [he] at h
  | some es =>
    have hlook : fs.lookup (top slash stack) c.1 = es.lookup c.1 := by simp [Fs.lookup, he]
    rw [hlook] at hl ⊢
    simp only [he, c.2.2.2, if_false] at h
    cases hi : es.lookup c.1 with
    | none => simp [hi] at h
    | some i =>
      have hk := hl i hi
      simp only [hi] at h
      unfold Fs.isSymlink at hk
      cases hkind : fs.kind i with
      | none => simp [hkind] at h
      | some k =>
        cases k with
        | symlink t => simp [hkind] at hk
        | file _ => simp only [hkind, walkTo, WalkEnd.found.injEq] at h; subst h; rfl
        | dir _ => simp only [hkind, walkTo, WalkEnd.found.injEq] at h; subst h; rfl

theorem Jailed.fchmodat (hj : Jailed Out fs₀ fs) (hd : ¬Out d) {c : Component}
    (hl : ∀ i ∈ fs.lookup d c.1, ¬fs.isSymlink i) (h : fs.fchmodat d c.1 mode = .ok fs') :
    Jailed Out fs₀ fs' := by
  unfold Fs.fchmodat at h
  split at h
  · next st hw =>
    rw [← fs.top_stackOf fs.next d] at hl
    have := walk_component c hl hw
    rw [fs.top_stackOf] at this
    exact hj.modify (hj.lookup hd this) h fun _ => rfl
  · cases h
  · cases h
  · cases h

end

/-! ## Runs -/

/-- The filesystem is jailed, and so are the files the handles retain. -/
structure Contained (Out : Ino → Prop) (fs₀ : Fs) (h : Host) : Prop where
  fs : Jailed Out fs₀ h.fs
  retained : ∀ {s id f}, (h.tables s).getFile id = some f → ¬Out f.ino

/-- What a stream has in its hands is not outside, and it has not left the confined open. -/
structure StreamPhase.Inside (Out : Ino → Prop) (l : StreamPhase) : Prop where
  fds : ∀ fd ∈ l.fds, ¬Out fd
  held : ∀ f ∈ l.held, ¬Out f.ino
  noOpenat2 : l.noOpenat2 = false

theorem StreamPhase.inside_start (Out : Ino → Prop) (session : Nat) (q : Request) :
    (StreamPhase.start session q).Inside Out := ⟨nofun, nofun, rfl⟩

section
variable {Out : Ino → Prop} {fs₀ : Fs} {h h' : Host} {fault : Option Errno} {α : Type}

theorem Contained.withFault (hc : Contained Out fs₀ h) {r : Except Errno (α × Fs)}
    {x : Except Errno α} (e : withFault fault h r = some (x, h'))
    (hr : ∀ y fs, r = .ok (y, fs) → Jailed Out fs₀ fs) : Contained Out fs₀ h' := by
  rcases withFault_eq_some e with ⟨-, y, fs, hok, -, rfl⟩ | ⟨-, rfl, -⟩
  · exact ⟨hr y fs hok, hc.retained⟩
  · exact hc

theorem Contained.withFault_ (hc : Contained Out fs₀ h) {r : Except Errno Fs}
    {x : Except Errno Unit} (e : withFault_ fault h r = some (x, h'))
    (hr : ∀ fs, r = .ok fs → Jailed Out fs₀ fs) : Contained Out fs₀ h' := by
  refine hc.withFault e fun y fs hy => ?_
  cases r with
  | error _ => cases hy
  | ok fs' => cases hy; exact hr _ rfl

theorem Contained.writeFile (hc : Contained Out fs₀ h) {f : File} (hf : ¬Out f.ino)
    {offset : UInt64} {data : Bytes} {append : Bool} {c : Choice} :
    Contained Out fs₀ (writeFile h f offset data append c).2 := by
  unfold Server.writeFile
  split
  · exact hc
  · exact ⟨hc.fs.setContent hf, hc.retained⟩

theorem Contained.update (hc : Contained Out fs₀ h) {session : Nat} {t : HandleTable}
    (ht : ∀ {id f}, t.getFile id = some f → ¬Out f.ino) :
    Contained Out fs₀ { h with tables := Function.update h.tables session t } := by
  refine ⟨hc.fs, fun {s id f} hf => ?_⟩
  simp only [Function.update_apply] at hf
  split at hf
  · exact ht hf
  · exact hc.retained hf

end

/-- The name `fchmodat` is called on is no symbolic link. -/
def NoLinkAtChmod : Cond Sys Host Nat Choice Incoming Empty where
  run h _ a _ :=
    match a with
    | .fchmodat d name _ => ∀ i ∈ h.fs.lookup d name.1, ¬h.fs.isSymlink i
    | _ => True
  start _ _ _ := True
  env _ _ := True

instance : NoLinkAtChmod.Checkable where
  run h _ a _ := by
    cases a
    case fchmodat d name _ =>
      exact inferInstanceAs (Decidable (∀ i ∈ h.fs.lookup d name.1, ¬h.fs.isSymlink i))
    all_goals exact isTrue trivial
  start _ _ _ := isTrue trivial
  env _ _ := isTrue trivial

section
variable {kernel : Kernel} {ex : Export} {Out : Ino → Prop} {fs₀ : Fs} {h h' : Host} {c : Choice}

/-- The confined open ends beneath the root, where nothing is outside. -/
theorem Contained.openBeneath (hk : kernel.hasOpenat2 = true) (hroot : ¬Out ex.root)
    (hc : Contained Out fs₀ h) {path : RootPath} {flags : OpenFlags} {mode : Nat}
    {fault : Option Errno} {r : Except Errno Ino}
    (e : openBeneath kernel ex h path flags mode fault = some (r, h')) :
    Contained Out fs₀ h' ∧ r ≠ .error .enosys ∧ ∀ fd, r = .ok fd → ¬Out fd := by
  have hw : (kernel.beneath h.fs ex.root (!flags.noFollow) (path.map (·.1))).Stacks
      fun st => ¬Out (top ex.root st) := by
    have := kernel.confined h.fs ex.root (!flags.noFollow) (path.map (·.1))
    revert this
    cases kernel.beneath h.fs ex.root (!flags.noFollow) (path.map (·.1)) with
    | found _ => exact hc.fs.beneath hroot
    | absent _ _ => exact hc.fs.beneath hroot
    | link _ _ => exact hc.fs.beneath hroot
    | err _ => exact id
  rcases openBeneath_eq_some e with ⟨-, hne, he⟩ | ⟨hno, -⟩
  · refine ⟨hc.withFault he fun y fs hy => (hc.fs.openAt hw hy).2, hne, ?_⟩
    rintro fd rfl
    rcases withFault_eq_some he with ⟨-, y, fs, hok, hr, -⟩ | ⟨⟨_, hr⟩, -⟩
    · cases hr
      exact (hc.fs.openAt hw hok).1
    · cases hr
  · cases hk.symm.trans hno

theorem Contained.exec_onFs (hk : kernel.hasOpenat2 = true) (hroot : ¬Out ex.root)
    {t : Nat} {a : Sys} {r : a.Ret} {l : StreamPhase} (hfs : a.OnFs) (hreads : ¬a.Reads)
    (hc : Contained Out fs₀ h) (hl : l.Inside Out) (ha : streamProtocol.pre l a)
    (hcond : NoLinkAtChmod.run h t a c) (e : a.exec kernel ex t c h = some (r, h')) :
    Contained Out fs₀ h' := by
  cases a with
  | openat2 => exact (hc.openBeneath hk hroot e).1
  | openPlain => exact absurd ha (by simp [streamProtocol, hl.noOpenat2])
  | mkdirat d => exact hc.withFault_ e fun fs hr => hc.fs.mkdirat (hl.fds d ha) hr
  | fchmodat d => exact hc.withFault_ e fun fs hr => hc.fs.fchmodat (hl.fds d ha) hcond hr
  | unlinkat d => exact hc.withFault_ e fun fs hr => hc.fs.unlinkat (hl.fds d ha) hr
  | symlinkat _ d => exact hc.withFault_ e fun fs hr => hc.fs.symlinkat (hl.fds d ha) hr
  | linkat d _ d' =>
    exact hc.withFault_ e fun fs hr => hc.fs.linkat (hl.fds d ha.1) (hl.fds d' ha.2) hr
  | renameat d _ d' =>
    exact hc.withFault_ e fun fs hr => hc.fs.renameat (hl.fds d ha.1) (hl.fds d' ha.2) hr
  | setLen fd => exact hc.withFault_ e fun fs hr => hc.fs.setLen (hl.fds fd ha.1) hr
  | fchmod fd => exact hc.withFault_ e fun fs hr => hc.fs.modify (hl.fds fd ha) hr fun _ => rfl
  | utimens fd => exact hc.withFault_ e fun fs hr => hc.fs.utimens (hl.fds fd ha) hr
  | writeAt f =>
    obtain rfl := congrArg Prod.snd (Option.some.inj e)
    exact hc.writeFile (hl.held f ha.1)
  | tryInsert | removeHandle | lockStripe | unlockStripe | recvFrame | reply => exact hfs.elim
  | _ => exact absurd trivial hreads

theorem Contained.exec_offFs {t : Nat} {a : Sys} {r : a.Ret} {l : StreamPhase} (hfs : ¬a.OnFs)
    (hreads : ¬a.Reads) (hc : Contained Out fs₀ h) (hl : l.Inside Out) (ha : streamProtocol.pre l a)
    (e : a.exec kernel ex t c h = some (r, h')) : Contained Out fs₀ h' := by
  cases a with
  | tryInsert session handle =>
    simp only [Sys.exec] at e
    split at e
    · cases e; exact hc
    · next id t ht =>
      cases e
      refine hc.update fun {id' f} hf => ?_
      rw [HandleTable.getFile_tryInsert ht] at hf
      split at hf
      · cases hf; exact hl.fds _ ha.2
      · exact hc.retained hf
  | removeHandle session id =>
    cases e
    refine hc.update fun {id' f} hf => ?_
    have hf := (HandleTable.getFile_remove (h.tables session) id id').symm.trans hf
    split at hf
    · cases hf
    · exact hc.retained hf
  | lockStripe i =>
    simp only [Sys.exec] at e
    split at e
    · cases e; exact hc
    · split at e
      · cases e; exact ⟨hc.fs, hc.retained⟩
      · cases e
  | unlockStripe i => cases e; exact ⟨hc.fs, hc.retained⟩
  | recvFrame =>
    simp only [Sys.exec] at e
    split at e
    · cases e; exact hc
    · split at e
      · cases e
      · cases e; exact ⟨hc.fs, hc.retained⟩
  | reply => cases e; exact ⟨hc.fs, hc.retained⟩
  | getFile | getWriteCtx => exact absurd trivial hreads
  | _ => exact absurd trivial hfs

theorem Contained.inside_next (hk : kernel.hasOpenat2 = true) (hroot : ¬Out ex.root)
    {t : Nat} {a : Sys} {r : a.Ret} {l : StreamPhase} (hc : Contained Out fs₀ h) (hl : l.Inside Out)
    (ha : streamProtocol.pre l a) (e : a.exec kernel ex t c h = some (r, h')) :
    (streamProtocol.next l a r).Inside Out := by
  cases a with
  | openat2 path flags mode =>
    obtain ⟨-, hne, hfd⟩ := hc.openBeneath hk hroot e
    change Except Errno Ino at r
    cases r with
    | ok fd => exact ⟨List.forall_mem_cons.mpr ⟨hfd fd rfl, hl.fds⟩, hl.held, hl.noOpenat2⟩
    | error errno =>
      have he : errno ≠ .enosys := fun he => hne (by rw [he])
      exact ⟨hl.fds, hl.held, by simp [streamProtocol, hl.noOpenat2, he]⟩
  | openPlain => exact absurd ha (by simp [streamProtocol, hl.noOpenat2])
  | getFile => cases e; exact ⟨hl.fds, fun f hf => hc.retained hf, hl.noOpenat2⟩
  | getWriteCtx =>
    cases e
    refine ⟨hl.fds, fun f hf => ?_, hl.noOpenat2⟩
    exact hc.retained ((HandleTable.getWriteCtx_fst _ _).symm.trans hf)
  | writeAt =>
    change Option IoErrorKind at r
    cases r with
    | none => exact ⟨hl.fds, hl.held, hl.noOpenat2⟩
    | some _ => exact ⟨hl.fds, hl.held, hl.noOpenat2⟩
  | tryInsert | readDir | readAt | recvFrame | reply => exact ⟨hl.fds, hl.held, hl.noOpenat2⟩
  | _ => exact hl

theorem Contained.exec (hk : kernel.hasOpenat2 = true) (hroot : ¬Out ex.root) {t : Nat} {a : Sys}
    {r : a.Ret} {l : StreamPhase} (hc : Contained Out fs₀ h) (hl : l.Inside Out)
    (ha : streamProtocol.pre l a) (hcond : NoLinkAtChmod.run h t a c)
    (e : a.exec kernel ex t c h = some (r, h')) :
    Contained Out fs₀ h' ∧ (streamProtocol.next l a r).Inside Out := by
  refine ⟨?_, hc.inside_next hk hroot hl ha e⟩
  by_cases hreads : a.Reads
  · rwa [exec_reads hreads e]
  · by_cases hfs : a.OnFs
    · exact hc.exec_onFs hk hroot hfs hreads hl ha hcond e
    · exact hc.exec_offFs hfs hreads hl ha e

end

section
variable {kernel : Kernel} {ex : Export} {dur : Durability} {h₀ : Host}
  {c : Config Sys Sys.Ret Host Nat}

theorem contained_run (hk : kernel.hasOpenat2 = true)
    (h₀r : ∀ s id f, (h₀.tables s).getFile id = some f → ¬Outside h₀.fs ex.root f.ino)
    (h : Reach (serverMachine kernel ex dur).step NoLinkAtChmod.Meets (Config.idle h₀) c) :
    Contained (Outside h₀.fs ex.root) h₀.fs c.state := by
  have hroot : ¬Outside h₀.fs ex.root ex.root := fun h => h.2 .root
  let I : Host → (Nat → StreamPhase) → Prop := fun s l =>
    Contained (Outside h₀.fs ex.root) h₀.fs s ∧ ∀ t, (l t).Inside (Outside h₀.fs ex.root)
  have hupd : ∀ {l : Nat → StreamPhase} {l' : StreamPhase} {t : Nat},
      (∀ u, (l u).Inside (Outside h₀.fs ex.root)) → l'.Inside (Outside h₀.fs ex.root) →
      ∀ u, (Function.update l t l' u).Inside (Outside h₀.fs ex.root) := by
    intro l l' t hl hl' u
    rw [Function.update_apply]
    split
    · exact hl'
    · exact hl u
  have hinv := @Machine.sound _ _ _ _ _ _ _ _ _ _ _ (fun _ => streamProtocol) I (fun _ _ => True) _
    (fun _ => .start 0 (.getAttr 0 [])) _ ?_ (fun _ => trivial) ?_ ?_ ?_ (fun e => e.elim) h
  · exact hinv.elim fun _ hi => hi.1.1
  · exact ⟨⟨jailed_start _ _, h₀r _ _ _⟩, fun _ => StreamPhase.inside_start _ _ _⟩
  · intro t l a ch r s s' _ he
    exact exec_post he
  · intro t a ch r s s' l hi hp hc he
    obtain ⟨h1, h2⟩ := hi.1.exec hk hroot (hi.2 t) hp hc he
    exact ⟨h1, hupd hi.2 h2⟩
  · intro t q s l hi _ _
    exact ⟨_, ⟨hi.1, hupd hi.2 (StreamPhase.inside_start _ _ _)⟩,
      handle_follows ex dur q.frames q.session q.request⟩

/-- **The export root is a jail**, in every run in which no symbolic link stands at the name
of a `fchmodat` when it is called: whatever the streams do, an object that was not beneath
the root keeps its content, its entries, its mode and its times. -/
theorem outside_unchanged (hk : kernel.hasOpenat2 = true)
    (h₀r : ∀ s id f, (h₀.tables s).getFile id = some f → ¬Outside h₀.fs ex.root f.ino)
    (h : Reach (serverMachine kernel ex dur).step NoLinkAtChmod.Meets (Config.idle h₀) c) {i : Ino}
    (hi : Outside h₀.fs ex.root i) : c.state.fs.nodes i = h₀.fs.nodes i :=
  (contained_run hk h₀r h).fs.same hi

end

/-- A host with an export directory `/srv` (1) and a file `/key` beside it (2). -/
def keyNodes : List Node :=
  [⟨.dir [(['s', 'r', 'v'], 1), (['k', 'e', 'y'], 2)], 0o755, 0, 0⟩, ⟨.dir [], 0o755, 0, 0⟩,
    ⟨.file [42], 0o600, 0, 0⟩]

def keyHost : Host where
  fs := ⟨fun i => keyNodes[i]?, 3, fun _ hi => List.getElem?_eq_none hi⟩
  tables _ := .withLimit 7 100
  inbox _ := []
  stripes _ := none
  replies := []

theorem key_outside : Outside keyHost.fs srv.root 2 := by
  refine ⟨rfl, fun h => ?_⟩
  -- the export is empty, so only its root is beneath it
  have : ∀ i, Beneath keyHost.fs srv.root i → i = 1 := by
    intro i hi
    induction hi with
    | root => rfl
    | entry _ he hm ih => subst ih; cases he; cases hm
  exact absurd (this 2 h) (by decide)

/-- MkDir of `/x` up to its `mkdirat`. -/
def mkdirRun : List (Label Nat Choice Incoming Empty) :=
  [.start 0 ⟨0, .mkDir 1 ['/', 'x'] 0o777, 0⟩, .run 0 {}, .run 0 {}, .run 0 {}]

/-- A second stream removes `/x` and puts a link to `/key` there. -/
def swapRun : List (Label Nat Choice Incoming Empty) :=
  .start 1 ⟨0, .rmDir 2 ['/', 'x'], 0⟩ :: List.replicate 6 (.run 1 {}) ++
    .start 1 ⟨0, .symlink 3 ['/', 'k', 'e', 'y'] ['/', 'x'], 0⟩ :: List.replicate 5 (.run 1 {})

/-- The link is put there once the directory has its mode. -/
theorem outside_unchanged_late_swap : ∃ c : Config Sys Sys.Ret Host Nat,
    Reach (serverMachine linux srv ⟨false, false⟩).step NoLinkAtChmod.Meets
      (Config.idle keyHost) c ∧ c.state.replies.map (·.2.status) = [.ok, .ok] ∧
    c.state.fs.nodes 2 = keyHost.fs.nodes 2 := by
  have hrun : ∃ c, execBy (serverMachine linux srv ⟨false, false⟩).step NoLinkAtChmod.Meets
      (Config.idle keyHost) (mkdirRun ++ .run 0 {} :: swapRun) = some c ∧
      c.state.replies.map (·.2.status) = [.ok, .ok] := ⟨_, rfl, rfl⟩
  obtain ⟨c, hc, hr⟩ := hrun
  have hreach := Reach.of_execBy .refl hc
  exact ⟨c, hreach, hr, outside_unchanged rfl (fun _ _ _ h => by cases h) hreach key_outside⟩

/-- The link is put there between `mkdirat` and `fchmodat`: the mode of `/key` changes. -/
theorem chmod_follows_swapped_link : ∃ c : Config Sys Sys.Ret Host Nat,
    Reach (serverMachine linux srv ⟨false, false⟩).step anyLabel (Config.idle keyHost) c ∧
    Outside keyHost.fs srv.root 2 ∧
    (keyHost.fs.nodes 2).map Node.mode = some 0o600 ∧
    (c.state.fs.nodes 2).map Node.mode = some 0o777 := by
  have hrun : ∃ c, execBy (serverMachine linux srv ⟨false, false⟩).step anyLabel
      (Config.idle keyHost) (mkdirRun ++ swapRun ++ [.run 0 {}]) = some c ∧
      (c.state.fs.nodes 2).map Node.mode = some 0o777 := ⟨_, rfl, rfl⟩
  obtain ⟨c, hc, hm⟩ := hrun
  exact ⟨c, Reach.of_execBy .refl hc, key_outside, rfl, hm⟩

end QuicFs.Server
