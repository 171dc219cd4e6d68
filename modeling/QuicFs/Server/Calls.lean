import QuicFs.Server.Sys

/-!
# What the calls do

The calls of `Sys.lean`, read backwards: what has been found and what has been changed when one
succeeds. Everything that is proved about a step of a stream goes through these; the definitions
are not unfolded again.
-/

namespace QuicFs.Server

namespace Fs

variable {fs fs' : Fs} {d d' i : Ino} {name name' : Name} {mode : Nat}

theorem modify_eq_ok {f : Node → Node} (h : fs.modify i f = .ok fs') :
    ∃ n, fs.nodes i = some n ∧ fs' = fs.set i (some (f n)) := by
  unfold modify at h
  split at h
  · cases h
  · next n hn => exact ⟨n, hn, (Except.ok.inj h).symm⟩

theorem fstatat_eq_ok {st : Ino × Node} (h : fs.fstatat d name = .ok st) :
    fs.lookup d name = some st.1 ∧ fs.nodes st.1 = some st.2 := by
  unfold fstatat at h
  split at h
  · cases h
  · next i hi =>
    split at h
    · next hn => cases h; exact ⟨hi, hn⟩
    · cases h

theorem readlinkat_eq_ok {st : Ino × List Char} (h : fs.readlinkat d name = .ok st) :
    fs.lookup d name = some st.1 := by
  unfold readlinkat at h
  split at h
  · cases h
  · next i hi =>
    split at h
    · cases h; exact hi
    · cases h

theorem mkdirat_eq_ok (h : fs.mkdirat d name mode = .ok fs') :
    ∃ es, fs.entries d = some es ∧ fs' = fs.create d name (.dir []) mode := by
  unfold mkdirat at h
  split at h
  · cases h
  · next es he =>
    split_ifs at h
    exact ⟨es, he, (Except.ok.inj h).symm⟩

theorem symlinkat_eq_ok {target : List Char} (h : fs.symlinkat target d name = .ok fs') :
    ∃ es, fs.entries d = some es ∧ fs' = fs.create d name (.symlink target) 0o777 := by
  unfold symlinkat at h
  split_ifs at h
  split at h
  · cases h
  · next es he =>
    split_ifs at h
    exact ⟨es, he, (Except.ok.inj h).symm⟩

theorem unlinkat_eq_ok {removeDir : Bool} (h : fs.unlinkat d name removeDir = .ok fs') :
    ∃ i, fs.lookup d name = some i ∧ (fs.entries i = none ∧ fs' = fs.dropEntry d name ∨
      fs.entries i = some [] ∧ fs' = (fs.dropEntry d name).set i none) := by
  unfold unlinkat at h
  split at h
  · cases h
  · next i hi =>
    refine ⟨i, hi, ?_⟩
    split at h
    · next he =>
      split_ifs at h
      exact .inl ⟨he, (Except.ok.inj h).symm⟩
    · next es he =>
      split_ifs at h with _ hes
      obtain rfl : es = [] := by simpa using hes
      exact .inr ⟨he, (Except.ok.inj h).symm⟩

theorem linkat_eq_ok (h : fs.linkat d name d' name' = .ok fs') :
    ∃ i, fs.lookup d name = some i ∧ fs.isDir d' = true ∧ fs.lookup d' name' = none ∧
      fs.isDir i = false ∧ fs' = fs.addEntry d' name' i := by
  unfold linkat at h
  split at h
  · cases h
  · next i hi =>
    split_ifs at h with hd hfree hfile
    exact ⟨i, hi, by simpa using hd, by simpa using hfree, by simpa using hfile,
      (Except.ok.inj h).symm⟩

/-- What `renameat` has done with the object `i`, by what was at the destination. -/
inductive Renamed (fs : Fs) (d : Ino) (name : Name) (d' : Ino) (name' : Name) (i : Ino) :
    Fs → Prop where
  | free : fs.lookup d' name' = none → Renamed fs d name d' name' i (fs.moveEntry d name d' name' i)
  | same : fs.lookup d' name' = some i → Renamed fs d name d' name' i fs
  | file {j : Ino} : fs.lookup d' name' = some j → i ≠ j → fs.entries j = none →
      Renamed fs d name d' name' i (fs.moveEntry d name d' name' i)
  | dir {j : Ino} : fs.lookup d' name' = some j → i ≠ j → fs.entries j = some [] →
      Renamed fs d name d' name' i ((fs.moveEntry d name d' name' i).set j none)

theorem renameat_eq_ok (h : fs.renameat d name d' name' = .ok fs') :
    ∃ i, fs.lookup d name = some i ∧ fs.isDir d' = true ∧
      (fs.isDir i = true → i ∉ (fs.stackOf fs.next d').map Prod.snd) ∧
      Renamed fs d name d' name' i fs' := by
  unfold renameat at h
  split at h
  · cases h
  · next i hi =>
    split_ifs at h with hd hout
    refine ⟨i, hi, by simpa using hd, fun hdir hm => hout ⟨hdir, hm⟩, ?_⟩
    split at h
    · next hj =>
      cases h
      exact .free hj
    · next j hj =>
      split_ifs at h with he
      · cases h
        exact .same (he ▸ hj)
      · split at h
        · cases h
        · cases h
        · next hes =>
          cases h
          exact .file hj he hes
        · next es _ hes =>
          split_ifs at h with hempty
          obtain rfl : es = [] := by simpa using hempty
          cases h
          exact .dir hj he hes

/-- What an `open` does: it makes an empty file, or it finds one and may empty it. -/
theorem openAt_eq_ok {base : Ino} {flags : OpenFlags} {w : WalkEnd} {fd : Ino}
    (h : fs.openAt base flags mode w = .ok (fd, fs')) :
    (∃ st, w = .found st ∧ fd = top base st ∧ (fs' = fs ∨ flags.trunc = true ∧
      ∃ n : Node, fs' = fs.set fd (some { n with kind := .file [] }))) ∨
    ∃ st name, w = .absent st name ∧ flags.creat = true ∧ fd = fs.next ∧
      fs' = fs.create (top base st) name (.file []) mode := by
  cases w with
  | err | link => cases h
  | absent st name =>
    simp only [openAt] at h
    split at h
    · next hc =>
      cases h
      exact .inr ⟨st, name, rfl, hc, rfl, rfl⟩
    · cases h
  | found st =>
    refine .inl ⟨st, rfl, ?_⟩
    simp only [openAt] at h
    split at h
    · cases h
    · split at h
      · cases h
      · next n _ =>
        split at h
        · split at h <;> cases h
          exact ⟨rfl, .inl rfl⟩
        · split at h <;> cases h
          exact ⟨rfl, .inl rfl⟩
        · split at h
          · cases h
          · split at h
            · next ht =>
              cases h
              exact ⟨rfl, .inr ⟨ht, n, rfl⟩⟩
            · cases h
              exact ⟨rfl, .inl rfl⟩

end Fs

variable {h h' : Host} {fault : Option Errno}

theorem withFault_eq_some {α : Type} {x : Except Errno (α × Fs)} {r : Except Errno α}
    (he : withFault fault h x = some (r, h')) :
    (fault = none ∧ ∃ y fs, x = .ok (y, fs) ∧ r = .ok y ∧ h' = { h with fs }) ∨
      ((∃ e, r = .error e) ∧ h' = h ∧ (fault = none → ∃ e, x = .error e)) := by
  unfold withFault at he
  split at he
  · cases he
    exact .inr ⟨⟨_, rfl⟩, rfl, fun hf => by cases hf⟩
  · cases he
    exact .inr ⟨⟨_, rfl⟩, rfl, fun _ => ⟨_, rfl⟩⟩
  · cases he
    exact .inl ⟨rfl, _, _, rfl, rfl, rfl⟩

theorem withFault_unit_eq_some {x : Except Errno Fs} {r : Except Errno Unit}
    (he : withFault_ fault h x = some (r, h')) :
    (fault = none ∧ ∃ fs, x = .ok fs ∧ r = .ok () ∧ h' = { h with fs }) ∨
      ((∃ e, r = .error e) ∧ h' = h ∧ (fault = none → ∃ e, x = .error e)) := by
  rcases withFault_eq_some he with ⟨hf, y, fs, hx, rfl, rfl⟩ | ⟨hr, hsame, hx⟩
  · cases x with
    | error e => cases hx
    | ok fs' => cases hx; exact .inl ⟨hf, _, rfl, rfl, rfl⟩
  · refine .inr ⟨hr, hsame, fun hf => ?_⟩
    obtain ⟨e, he'⟩ := hx hf
    cases x with
    | error e => exact ⟨e, rfl⟩
    | ok fs => cases he'

/-- A call that puts nothing in the place of the filesystem leaves the host as it was. -/
theorem withFault_same {α : Type} {x : Except Errno (α × Fs)} {r : Except Errno α}
    (hx : ∀ y fs, x = .ok (y, fs) → fs = h.fs) (he : withFault fault h x = some (r, h')) :
    h' = h := by
  rcases withFault_eq_some he with ⟨-, y, fs, hok, -, rfl⟩ | ⟨-, rfl, -⟩
  · rw [hx y fs hok]
  · rfl

theorem openBeneath_eq_some {kernel : Kernel} {ex : Export} {path : RootPath} {flags : OpenFlags}
    {mode : Nat} {r : Except Errno Ino}
    (he : openBeneath kernel ex h path flags mode fault = some (r, h')) :
    (kernel.hasOpenat2 = true ∧ r ≠ .error .enosys ∧
      withFault fault h (h.fs.openAt ex.root flags mode
      (kernel.beneath h.fs ex.root (!flags.noFollow) (path.map (·.1)))) = some (r, h')) ∨
    kernel.hasOpenat2 = false ∧ r = .error .enosys ∧ h' = h := by
  unfold openBeneath at he
  split_ifs at he with hk
  · split at he
    · cases he
    · next hne => exact .inl ⟨hk, fun hr => hne h' (hr ▸ he), he⟩
  · cases he
    exact .inr ⟨by simpa using hk, rfl, rfl⟩

end QuicFs.Server
