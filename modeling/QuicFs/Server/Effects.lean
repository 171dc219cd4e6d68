import QuicFs.Server.Calls
import QuicFs.Server.Discipline

/-!
# What a system call of a handler changes

A call on the filesystem changes nothing else of the host (`exec_onFs`); the other calls
leave the filesystem alone, and each of them changes one table, queue or list.
-/

namespace QuicFs.Server

open Lib

def Sys.OnFs : Sys → Prop
  | .tryInsert .. | .getFile .. | .getWriteCtx .. | .removeHandle ..
  | .lockStripe _ | .unlockStripe _ | .recvFrame | .reply _ => False
  | _ => True

section
variable {kernel : Kernel} {ex : Export} {n : Nat} {c : Choice} {h h' : Host}

theorem withFault_host {α : Type} {fault : Option Errno} {x : Except Errno (α × Fs)}
    {r : Except Errno α} (he : withFault fault h x = some (r, h')) : ∃ fs, h' = { h with fs } := by
  rcases withFault_eq_some he with ⟨-, y, fs, -, -, rfl⟩ | ⟨-, rfl, -⟩
  · exact ⟨fs, rfl⟩
  · exact ⟨h'.fs, rfl⟩

theorem withFault_map_same {α β : Type} {fault : Option Errno} {x : Except Errno α} {f : α → β}
    {r : Except Errno β} (he : withFault fault h (x.map fun y => (f y, h.fs)) = some (r, h')) :
    h' = h := by
  refine withFault_same (fun y fs hy => ?_) he
  cases x with
  | error _ => cases hy
  | ok _ => cases hy; rfl

theorem openBeneath_host {path : RootPath} {flags : OpenFlags} {mode : Nat} {fault : Option Errno}
    {r : Except Errno Ino} (he : openBeneath kernel ex h path flags mode fault = some (r, h')) :
    ∃ fs, h' = { h with fs } := by
  rcases openBeneath_eq_some he with ⟨-, -, he⟩ | ⟨-, -, rfl⟩
  · exact withFault_host he
  · exact ⟨h'.fs, rfl⟩

theorem writeFile_host {f : File} {offset : UInt64} {data : Bytes} {append : Bool}
    {r : Option IoErrorKind} (he : writeFile h f offset data append c = (r, h')) :
    ∃ fs, h' = { h with fs } := by
  unfold writeFile at he
  split at he
  · cases he; exact ⟨h.fs, rfl⟩
  · obtain ⟨-, rfl⟩ := Prod.mk.inj he; exact ⟨_, rfl⟩

theorem exec_onFs {a : Sys} {r : a.Ret} (ha : a.OnFs)
    (he : a.exec kernel ex n c h = some (r, h')) : ∃ fs, h' = { h with fs } := by
  cases a with
  | tryInsert | getFile | getWriteCtx | removeHandle | lockStripe | unlockStripe
  | recvFrame | reply =>
    exact ha.elim
  | openat2 => exact openBeneath_host he
  | writeAt => exact writeFile_host (Option.some.inj he)
  | readAt | «exists» | isSymlink | nextEntry =>
    obtain ⟨-, rfl⟩ := Prod.mk.inj (Option.some.inj he)
    exact ⟨_, rfl⟩
  | _ => exact withFault_host he

def Sys.Reads : Sys → Prop
  | .exists _ | .isSymlink _ | .lstat _ | .stat _ | .canonicalize _ | .readDir _
  | .nextEntry .. | .statEntry .. | .readlinkat .. | .statvfs _ | .fstat _ | .fsync _ | .getFile ..
  | .getWriteCtx .. | .readAt .. => True
  | _ => False

theorem exec_reads {a : Sys} {r : a.Ret} (ha : a.Reads)
    (he : a.exec kernel ex n c h = some (r, h')) : h' = h := by
  cases a with
  | «exists» | isSymlink | nextEntry | getFile | getWriteCtx | readAt =>
    obtain ⟨-, rfl⟩ := Prod.mk.inj (Option.some.inj he)
    rfl
  | lstat | stat | canonicalize | statEntry | readlinkat => exact withFault_map_same (f := id) he
  | statvfs => exact withFault_map_same he
  | readDir | fstat =>
    refine withFault_same (fun y fs hy => ?_) he
    repeat' split at hy
    all_goals cases hy
    rfl
  | fsync => exact withFault_same (fun _ _ hy => by cases hy; rfl) he
  | _ => exact ha.elim

theorem exec_replies {a : Sys} {r : a.Ret} (he : a.exec kernel ex n c h = some (r, h')) :
    h'.replies = h.replies ∨ ∃ resp, a = .reply resp ∧ h'.replies = h.replies ++ [(n, resp)] := by
  by_cases ha : a.OnFs
  · obtain ⟨fs, rfl⟩ := exec_onFs ha he
    exact .inl rfl
  · cases a with
    | tryInsert session handle =>
      simp only [Sys.exec] at he
      split at he <;> cases he <;> exact .inl rfl
    | getFile | getWriteCtx => cases he; exact .inl rfl
    | removeHandle | unlockStripe => cases he; exact .inl rfl
    | lockStripe i =>
      simp only [Sys.exec] at he
      split at he
      · cases he; exact .inl rfl
      · split at he <;> cases he
        exact .inl rfl
    | recvFrame =>
      simp only [Sys.exec] at he
      split at he
      · cases he; exact .inl rfl
      · split at he <;> cases he
        exact .inl rfl
    | reply resp => cases he; exact .inr ⟨resp, rfl, rfl⟩
    | _ => exact absurd trivial ha

theorem exec_inbox {a : Sys} {r : a.Ret} (he : a.exec kernel ex n c h = some (r, h')) :
    h'.inbox = h.inbox ∨ ∃ w ws, a = .recvFrame ∧ h.inbox n = w :: ws ∧
      h'.inbox = Function.update h.inbox n ws ∧ HEq r (some w) := by
  by_cases ha : a.OnFs
  · obtain ⟨fs, rfl⟩ := exec_onFs ha he
    exact .inl rfl
  · cases a with
    | tryInsert session handle =>
      simp only [Sys.exec] at he
      split at he <;> cases he <;> exact .inl rfl
    | getFile | getWriteCtx => cases he; exact .inl rfl
    | removeHandle | unlockStripe | reply => cases he; exact .inl rfl
    | lockStripe i =>
      simp only [Sys.exec] at he
      split at he
      · cases he; exact .inl rfl
      · split at he <;> cases he
        exact .inl rfl
    | recvFrame =>
      simp only [Sys.exec] at he
      split at he
      · cases he; exact .inl rfl
      · split at he
        · cases he
        · next w ws hw => cases he; exact .inr ⟨w, ws, rfl, hw, rfl, .rfl⟩
    | _ => exact absurd trivial ha

theorem exec_fs {a : Sys} {r : a.Ret} (ha : ¬a.OnFs) (he : a.exec kernel ex n c h = some (r, h')) :
    h'.fs = h.fs := by
  cases a with
  | tryInsert session handle =>
    simp only [Sys.exec] at he
    split at he <;> cases he <;> rfl
  | getFile | getWriteCtx => cases he; rfl
  | removeHandle | unlockStripe | reply => cases he; rfl
  | lockStripe i =>
    simp only [Sys.exec] at he
    split at he
    · cases he; rfl
    · split at he <;> cases he
      rfl
  | recvFrame =>
    simp only [Sys.exec] at he
    split at he
    · cases he; rfl
    · split at he <;> cases he
      rfl
  | _ => exact absurd trivial ha

theorem next_session {l : StreamPhase} (a : Sys) (r : a.Ret) :
    (streamProtocol.next l a r).session = l.session ∧
      (streamProtocol.next l a r).request = l.request := by
  cases a with
  | openat2 | openPlain => change Except Errno Ino at r; cases r <;> exact ⟨rfl, rfl⟩
  | writeAt => change Option IoErrorKind at r; cases r <;> exact ⟨rfl, rfl⟩
  | _ => exact ⟨rfl, rfl⟩

end

end QuicFs.Server
