import QuicFs.Client.Inodes
import QuicFs.Server.Resolve
import QuicFs.System.NameRpcs

/-!
# Directory listings are complete

Three layers divide a listing: the server answers pages of 256 entries from a cursor on, the
client asks for page after page and starts anew for each call of the kernel, and the kernel
calls with the offset of the last entry it got. On a directory that stands still each layer
delivers what is left from its position on (`answered_page`, `readdirPages_eq`,
`readdir_eq`), so that every entry comes once and in order (`listing_complete`).
-/

namespace QuicFs.System

open Lib Client Server

variable {L : StatStore} {S : Setup} {o : Outside} {s : Names L} {path : Path} {dir : Ino}
    {es : List (Name × Ino)}

/-- The path leads to the directory, which is enumerated in this order. A position in a directory
is an `i64`. -/
structure LeadsTo (ex : Export) (fs : Fs) (path : Path) (dir : Ino) (es : List (Name × Ino)) :
    Prop where
  resolves : ∃ p node, Resolves ex fs path p ∧ statAt fs (walkPath ex fs true p) = .ok (dir, node)
  entries : fs.entries dir = some es
  size : es.length < 2 ^ 63

/-- Every RPC is answered and no call of the server fails of itself. -/
def Outside.Complete (o : Outside) : Prop :=
  ∀ k, o.fate k = .answered ∧ ∀ j, (o.choices k j).fault = none

theorem Outside.Complete.sound (h : o.Complete) : o.Sound := fun k =>
  ⟨fun e => (by cases (h k).1.symm.trans e), (h k).2⟩

/-! ## The server's page -/

section
variable {kernel : Kernel} {ex : Export} {n : Nat} {h : Host}

/-- **A page**: the entries from the cursor on, 256 at most. -/
theorem answered_page (hdir : LeadsTo ex h.fs path dir es) (seq cursor : UInt64) : ∃ r h',
    Answered kernel ex n (handleReaddir ex seq path cursor) h r h' ∧ h'.fs = h.fs ∧ r.status = .ok ∧
      r.entries = ((es.drop cursor.toNat).take maxDirEntries).map (h.fs.listed dir) ∧
      r.eof = decide (r.entries.length < maxDirEntries) ∧
      r.cursor = cursor + UInt64.ofNat r.entries.length := by
  obtain ⟨p, node, hres, hst⟩ := hdir.resolves
  obtain ⟨r, hquiet, hr⟩ := @static_resolve kernel ex n h path
  rw [(hr p).mpr hres] at hquiet
  have hexec : ∀ c : Choice, c.fault = none → Sys.exec kernel ex n (.readDir p) c h =
      some ((.ok dir : Except Errno Ino), h) := by
    intro c hc
    simp only [Sys.exec, hst, Fs.isDir, hdir.entries, hc]
    rfl
  have hrun := @quiet_dirEntries kernel ex n h dir cursor.toNat 0
  rw [hdir.entries, Option.getD_some, Nat.zero_add] at hrun
  exact ⟨_, _, .bind hquiet (.act hexec (.bind hrun (answered_reply ..))), rfl, rfl, rfl, rfl, rfl⟩

end

/-- The cursor does not overflow: after an empty page it stays, and after another it is in the
directory. -/
theorem toNat_cursor (hsize : es.length < 2 ^ 63) (cursor : UInt64) {len : Nat}
    (hlen : len = ((es.drop cursor.toNat).take maxDirEntries).length) :
    (cursor + UInt64.ofNat len).toNat = cursor.toNat + len := by
  have hlt := cursor.toNat_lt
  rw [List.length_take, List.length_drop] at hlen
  rw [UInt64.toNat_add, UInt64.toNat_ofNat']
  omega

/-! ## The client's loop -/

/-- **The loop over the pages ends and has everything from the cursor on**, if it may ask for
enough of them. -/
theorem readdirPages_eq (ho : o.Complete) : ∀ {pages : Nat} {cursor : UInt64}
    {s : Names L}, LeadsTo S.ex s.host.fs path dir es → cursor.toNat ≤ es.length →
    es.length - cursor.toNat < maxDirEntries * pages → ∃ h', h'.fs = s.host.fs ∧
      s.readdirPages S o path pages cursor =
        some (.ok ((es.drop cursor.toNat).map (s.host.fs.listed dir)), { s with host := h' }) := by
  intro pages
  induction pages with
  | zero => exact fun _ _ h => absurd h (Nat.not_lt_zero _)
  | succ k ih =>
    intro cursor s hdir hle hpages
    obtain ⟨r, h₁, ha, hfs, hok, hent, heof, hcur⟩ := @answered_page _ _ _ S.kernel S.ex 0 s.host
      hdir o.seq cursor
    have hrpc : s.rpc S o k (.readDir · path cursor) = some (.ok r, { s with host := h₁ }) := by
      rcases rpc_eq (k := k) ho.sound (q := (.readDir · path cursor)) ha with ⟨-, hf⟩ | he
      · cases (ho k).1.symm.trans hf
      · rw [he, checkStatus_of_ok hok]
    have hlen : r.entries.length = min maxDirEntries (es.length - cursor.toNat) := by
      rw [hent, List.length_map, List.length_take, List.length_drop]
    rw [Names.readdirPages, hrpc, Option.bind_some]
    simp only
    by_cases hlast : r.entries.length < maxDirEntries
    · -- a page that is not full is the last one
      refine ⟨h₁, hfs, ?_⟩
      rw [heof, if_pos (decide_eq_true hlast), hent, List.take_of_length_le]
      rw [List.length_drop]
      omega
    · have hnext : r.cursor.toNat = cursor.toNat + maxDirEntries := by
        rw [hcur, toNat_cursor hdir.size cursor (by rw [hent, List.length_map])]
        omega
      have hdir₁ : LeadsTo S.ex ({ s with host := h₁ } : Names L).host.fs path dir es := by
        rwa [hfs]
      rw [Nat.mul_succ] at hpages
      obtain ⟨h₂, hfs₂, hrest⟩ := @ih r.cursor { s with host := h₁ } hdir₁ (by omega) (by omega)
      refine ⟨h₂, hfs₂.trans hfs, ?_⟩
      rw [heof, if_neg (by simpa using hlast), hrest, Option.map_some, hent, hnext]
      simp only [Except.map, hfs]
      rw [← List.map_append, ← List.drop_drop, List.take_append_drop]

/-! ## The calls of the kernel -/

theorem addEntries_fst (path : Path) : ∀ (room : Nat) (xs : List (DirEntry × Nat)) (t : InodeTable),
    (Names.addEntries path room xs t).1.map Prod.snd = (xs.take room).map fun x =>
    (x.2 + 1, x.1.name)
  | room, [], t => by cases room <;> rfl
  | 0, x :: xs, t => rfl
  | room + 1, x :: xs, t => by
    simp only [Names.addEntries, List.map_cons, List.take_succ_cons]
    rw [addEntries_fst path room xs]

theorem pathOf_getOrAlloc_of_some {t : InodeTable} (hb : t.Bounded) {ino : FuseIno} {p : Path}
    (h : t.pathOf ino = some p) (q : Path) : (t.getOrAlloc q).2.pathOf ino = some p := by
  unfold InodeTable.getOrAlloc
  split
  · exact h
  · have hne : ino ≠ t.next := fun e => by
      cases (hb.inos ino (Nat.le_of_eq e.symm)).symm.trans h
    exact (Function.update_of_ne hne ..).trans h

/-- One call: as many entries from the offset on as the reply has room for. -/
theorem readdir_eq (hdir : LeadsTo S.ex s.host.fs path dir es) (ho : o.Complete)
    (hpages : es.length < maxDirEntries * o.pages) {ino : FuseIno}
    (hpath : s.inodes.pathOf ino = some path) (hb : s.inodes.Bounded) (offset : Nat) :
    ∃ out s', s.readdir S o ino offset = some (.listing out, s') ∧
      out.map Prod.snd = ((es.zipIdx.drop offset).take o.room).map (fun x => (x.2 + 1, x.1.1)) ∧
      s'.host.fs = s.host.fs ∧ s'.inodes.pathOf ino = some path ∧ s'.inodes.Bounded := by
  obtain ⟨h', hfs, hrun⟩ := @readdirPages_eq L S o path dir es ho o.pages 0 s hdir
    (Nat.zero_le _) hpages
  have hkeep : ∀ xs : List (DirEntry × Nat),
      (Names.addEntries path o.room xs s.inodes).2.pathOf ino = some path ∧
        (Names.addEntries path o.room xs s.inodes).2.Bounded := fun xs =>
    addEntries_keeps (I := fun t => t.pathOf ino = some path ∧ t.Bounded)
      (fun e _ t ht => ⟨pathOf_getOrAlloc_of_some ht.2 ht.1 _, ht.2.exec (.getOrAlloc _)⟩)
        ⟨hpath, hb⟩
  obtain ⟨xs, hxs⟩ : ∃ xs, xs = (es.map (s.host.fs.listed dir)).zipIdx.drop offset := ⟨_, rfl⟩
  have hcall :
      s.readdir S o ino offset = some (.listing (Names.addEntries path o.room xs s.inodes).1,
      { s with host := h', inodes := (Names.addEntries path o.room xs s.inodes).2 }) := by
    rw [Names.readdir, Names.withPath, hpath]
    simp only [hrun, Option.map_some, hxs]
    rfl
  refine ⟨_, _, hcall, ?_, hfs, hkeep xs⟩
  rw [addEntries_fst, hxs, List.zipIdx_map, ← List.map_drop, ← List.map_take, List.map_map]
  rfl

variable (S) in
/-- One listing by the kernel: each call from the offset of the last entry delivered, up to the
reply that has none. -/
def listAll (ino : FuseIno) : (calls : List Outside) → (offset : Nat) → Names L →
    Option (List (FuseIno × Nat × Name) × Names L)
  | [], _, _ => none
  | o :: calls, offset, s =>
    (s.readdir S o ino offset).bind fun
      | (.listing out, s) =>
        match out.getLast? with
        | none => some ([], s)
        | some last => (listAll ino calls last.2.1 s).map fun (rest, s) => (out ++ rest, s)
      | _ => none

/-- The offset of the last entry of a reply is where the next call goes on. -/
theorem getLast?_delivered {room offset : Nat} (hroom : 0 < room) (hlt : offset < es.length)
    {out : List (FuseIno × Nat × Name)}
    (hout : out.map Prod.snd = ((es.zipIdx.drop offset).take room).map
      (fun x => (x.2 + 1, x.1.1))) :
    ∃ last, out.getLast? = some last ∧ last.2.1 = min es.length (offset + room) := by
  have hlen : out.length = min room (es.length - offset) := by
    have := congrArg List.length hout
    simpa using this
  have hne : out ≠ [] := fun e => by
    rw [e, List.length_nil] at hlen
    omega
  refine ⟨out.getLast hne, List.getLast?_eq_some_getLast hne, ?_⟩
  have hget := congrArg (fun l => l[out.length - 1]?) hout
  have hi : out.length - 1 < room := by omega
  have hj : offset + (out.length - 1) < es.length := by omega
  simp only [List.getElem?_map, List.getElem?_take_of_lt hi, List.getElem?_drop,
    List.getElem?_zipIdx,
    List.getElem?_eq_getElem hj, ← List.getLast?_eq_getElem?, List.getLast?_eq_some_getLast hne,
    Option.map_some] at hget
  rw [Option.some.inj hget]
  simp only
  omega

theorem drop_min_zipIdx (k : Nat) : es.zipIdx.drop (min es.length k) = es.zipIdx.drop k := by
  rcases Nat.le_total k es.length with h | h
  · rw [Nat.min_eq_right h]
  · rw [Nat.min_eq_left h, List.drop_eq_nil_of_le (by simp),
      List.drop_eq_nil_of_le (by simpa using h)]

/-- **The calls deliver everything from the offset on**, if there are enough of them. -/
theorem listAll_eq {ino : FuseIno} : ∀ {calls : List Outside} {offset : Nat}
    {s : Names L}, LeadsTo S.ex s.host.fs path dir es → s.inodes.pathOf ino = some path →
    s.inodes.Bounded →
    (∀ o ∈ calls, o.Complete ∧ 0 < o.room ∧ es.length < maxDirEntries * o.pages) →
    es.length - offset < calls.length → ∃ out s', listAll S ino calls offset s = some (out, s') ∧
      out.map Prod.snd = (es.zipIdx.drop offset).map fun x => (x.2 + 1, x.1.1) := by
  intro calls
  induction calls with
  | nil => exact fun _ _ _ _ h => absurd h (Nat.not_lt_zero _)
  | cons o calls ih =>
    intro offset s hdir hpath hb hcalls hlen
    obtain ⟨ho, hroom, hpages⟩ := hcalls o (List.mem_cons_self ..)
    obtain ⟨out, s', hrun, hout, hfs, hpath', hb'⟩ := readdir_eq hdir ho hpages hpath hb offset
    rw [listAll, hrun, Option.bind_some]
    simp only
    by_cases hend : es.length ≤ offset
    · -- nothing is left, so nothing is delivered
      have hdrop : es.zipIdx.drop offset = [] := List.drop_eq_nil_of_le (by simpa using hend)
      rw [hdrop] at hout ⊢
      obtain rfl : out = [] := by simpa using hout
      exact ⟨[], s', rfl, rfl⟩
    · have hlt : offset < es.length := Nat.lt_of_not_le hend
      obtain ⟨last, hgl, hoff⟩ := getLast?_delivered hroom hlt hout
      rw [hgl]
      simp only
      have hdir' : LeadsTo S.ex s'.host.fs path dir es := by rwa [hfs]
      obtain ⟨rest, s'', hrest, hrest'⟩ := @ih last.2.1 s' hdir' hpath' hb'
        (fun o ho => hcalls o (List.mem_cons_of_mem _ ho)) (by
          rw [hoff]
          simp only [List.length_cons] at hlen
          omega)
      refine ⟨out ++ rest, s'', by rw [hrest]; rfl, ?_⟩
      rw [List.map_append, hout, hrest', hoff, ← List.map_append, drop_min_zipIdx, ← List.drop_drop,
        List.take_append_drop]

/-- **Directory listings are complete.** Whatever cursor the server is sent, its page is what the
directory has from there on and the next cursor is behind it, without overflow; the client's
loop has every entry once and in order; the calls of the kernel, each with some room in its
reply, deliver every entry once and in order. -/
theorem listing_complete (hdir : LeadsTo S.ex s.host.fs path dir es) :
    (∀ seq cursor, ∃ r h', Answered S.kernel S.ex 0 (handleReaddir S.ex seq path cursor)
      s.host r h' ∧
      r.entries = ((es.drop cursor.toNat).take maxDirEntries).map (s.host.fs.listed dir) ∧
      r.cursor.toNat = cursor.toNat + r.entries.length) ∧
    (∀ o : Outside, o.Complete → es.length < maxDirEntries * o.pages → ∃ h',
      s.readdirPages S o path o.pages 0 =
        some (.ok (es.map (s.host.fs.listed dir)), { s with host := h' })) ∧
    ∀ ino, s.inodes.pathOf ino = some path → s.inodes.Bounded → ∀ calls : List Outside,
      (∀ o ∈ calls, o.Complete ∧ 0 < o.room ∧ es.length < maxDirEntries * o.pages) →
      es.length < calls.length → ∃ out s', listAll S ino calls 0 s = some (out, s') ∧
        out.map (·.2.2) = es.map Prod.fst ∧ ∀ x ∈ out, x.2.1 < 2 ^ 63 := by
  refine ⟨fun seq cursor => ?_, fun o ho hpages => ?_, fun ino hpath hb calls hcalls hlen => ?_⟩
  · obtain ⟨r, h', ha, -, -, hent, -, hcur⟩ := answered_page hdir seq cursor
    refine ⟨r, h', ha, hent, ?_⟩
    rw [hcur]
    exact toNat_cursor hdir.size cursor (by rw [hent, List.length_map])
  · obtain ⟨h', -, hrun⟩ := @readdirPages_eq L S o path dir es ho o.pages 0 s hdir
      (Nat.zero_le _) hpages
    exact ⟨h', hrun⟩
  · obtain ⟨out, s', hrun, hout⟩ := @listAll_eq L S path dir es ino calls 0 s hdir hpath
      hb hcalls hlen
    rw [List.drop_zero] at hout
    refine ⟨out, s', hrun, ?_, fun x hx => ?_⟩
    · have := congrArg (List.map Prod.snd) hout
      simp only [List.map_map] at this
      rw [show (·.2.2) = Prod.snd ∘ (Prod.snd : FuseIno × Nat × Name → Nat × Name) from rfl, this,
        show Prod.snd ∘ (fun x : (Name × Ino) × Nat => (x.2 + 1, x.1.1)) =
          Prod.fst ∘ Prod.fst from rfl,
        ← List.map_map, List.zipIdx_map_fst]
    · have hmem := List.mem_map_of_mem (f := Prod.snd) hx
      rw [hout] at hmem
      obtain ⟨y, hy, he⟩ := List.mem_map.mp hmem
      have hlt := (List.mem_zipIdx hy).2.1
      have hsize := hdir.size
      rw [← he]
      simp only
      omega

def threeNodes : List Node :=
  [⟨.dir [(['s', 'r', 'v'], 1)], 0o755, 0, 0⟩,
    ⟨.dir [(['a'], 2), (['b'], 3), (['c'], 4)], 0o755, 0, 0⟩, ⟨.file [], 0o644, 0, 0⟩,
    ⟨.file [], 0o644, 0, 0⟩, ⟨.file [], 0o644, 0, 0⟩]

/-- Replies with room for two entries. -/
theorem listing_complete_three : ∃ out s', listAll smallSetup 1 (List.replicate 4 { room := 2 }) 0
    (Names.mount (L := lru) smallSetup ['/'] {} (hostOf threeNodes)) = some (out, s') ∧
    out.map (·.2.2) = [['a'], ['b'], ['c']] := by
  have hdir : LeadsTo smallSetup.ex
      (Names.mount (L := lru) smallSetup ['/'] {} (hostOf threeNodes)).host.fs ['/'] 1
      [(['a'], 2), (['b'], 3), (['c'], 4)] := by
    refine ⟨⟨[], _, ⟨rfl, fun q c rest _ he => ?_, fun _ _ => List.prefix_refl _⟩, rfl⟩,
      rfl, by decide⟩
    simp at he
  have hcalls : ∀ o ∈ List.replicate 4 ({ room := 2 } : Outside),
      o.Complete ∧ 0 < o.room ∧ 3 < maxDirEntries * o.pages := fun o ho => by
    rw [(List.mem_replicate.mp ho).2]
    exact ⟨fun _ => ⟨rfl, fun _ => rfl⟩, by decide, by decide⟩
  obtain ⟨out, s', hrun, hnames, -⟩ := (listing_complete hdir).2.2 1 rfl
    (InodeTable.bounded_new _) _
    hcalls (by decide)
  exact ⟨out, s', hrun, hnames⟩

end QuicFs.System
