import QuicFs.System.Rpcs

/-!
# Generations

`reconnect_gen` counts the connections installed after the first; a reconnect installs its
connection first and counts it afterwards. An open file is stamped with a generation, and a
stamp that is the current generation is to mean that the server handle is one of the current
connection.

`Counted` relates the counter and the connections in every run. `Stamped` adds the stamps, in the
runs in which no other task counts a connection while a file is being opened; there the stamps are
sound (`stamps_sound`). In others they are not: `register_open` reads the generation after the Open
was answered (`stamped_after_open`).
-/

namespace QuicFs.System

open Lib Client Server Function

def grants : Request → Bool
  | .open .. | .create .. => true
  | _ => false

def Callback.opens : Callback → Bool
  | .open .. | .create .. => true
  | _ => false

/-- An Open or Create over the session was answered with the handle. -/
def World.IssuedOn (w : World) (session : Nat) (handle : ServerHandle) : Prop :=
  ∃ n rpc r, w.net.rpcs n = some rpc ∧ rpc.session = session ∧ grants rpc.request = true ∧
    (n, r) ∈ w.host.replies ∧ r.status = .ok ∧ r.handle = handle

def Tid.counts? : Tid → Act → Option Actor
  | .client b, .net .bumpGen => some b
  | _, _ => none

/-- No other task counts a connection while a file is being opened. -/
def QuietOpens : MountCond where
  run w t a _ := ∀ b ∈ t.counts? a, b = .fuse ∨ ∀ c ∈ w.call, c.cb.opens = false
  start _ _ _ := True
  env _ _ := True

instance : QuietOpens.Checkable where
  run w t a _ :=
    inferInstanceAs (Decidable (∀ b ∈ t.counts? a, b = .fuse ∨ ∀ c ∈ w.call, c.cb.opens = false))
  start _ _ _ := isTrue trivial
  env _ _ := isTrue trivial

/-! ## What time keeps -/

/-- What the second state has of the first. -/
structure World.Later (w w' : World) : Prop where
  gen : w.net.gen ≤ w'.net.gen
  sessions : w.net.sessions ≤ w'.net.sessions
  rpcs : ∀ {n rpc}, w.net.rpcs n = some rpc →
    ∃ rpc', w'.net.rpcs n = some rpc' ∧ rpc'.session = rpc.session ∧ rpc'.request = rpc.request
  replies : w.host.replies ⊆ w'.host.replies
  home : ∀ {fh}, (w.files.home fh).isSome → (w'.files.home fh).isSome

section
variable {S : Setup} {w w' w'' : World} {a : Actor} {ch : Chance}

theorem World.Later.refl (w : World) : w.Later w :=
  ⟨Nat.le_refl _, Nat.le_refl _, fun h => ⟨_, h, rfl, rfl⟩, fun _ h => h, fun h => h⟩

theorem World.Later.trans (h : w.Later w') (h' : w'.Later w'') : w.Later w'' := by
  refine ⟨h.gen.trans h'.gen, h.sessions.trans h'.sessions, fun hn => ?_,
    fun _ hx => h'.replies (h.replies hx),
    fun hx => h'.home (h.home hx)⟩
  obtain ⟨rpc₁, h₁, hs₁, hr₁⟩ := h.rpcs hn
  obtain ⟨rpc₂, h₂, hs₂, hr₂⟩ := h'.rpcs h₁
  exact ⟨rpc₂, h₂, hs₂.trans hs₁, hr₂.trans hr₁⟩

theorem World.Later.of_eq (hn : w'.net = w.net) (hr : w'.host.replies = w.host.replies)
    (hh : ∀ {fh}, (w.files.home fh).isSome → (w'.files.home fh).isSome) : w.Later w' := by
  refine ⟨by rw [hn], by rw [hn], fun h => ⟨_, by rw [hn]; exact h, rfl, rfl⟩, ?_, hh⟩
  rw [hr]
  exact fun _ h => h

theorem World.IssuedOn.later {s : Nat} {handle : ServerHandle} (hi : w.IssuedOn s handle)
    (h : w.Later w') : w'.IssuedOn s handle := by
  obtain ⟨n, rpc, r, hn, hs, hg, hr, hok, hh⟩ := hi
  obtain ⟨rpc', hn', hs', hq'⟩ := h.rpcs hn
  exact ⟨n, rpc', r, hn', hs'.trans hs, by rw [hq']; exact hg, h.replies hr, hok, hh⟩

theorem later_setRpc {n : Nat} {rpc rpc' : Rpc} (hn : w.net.rpcs n = some rpc)
    (hs : rpc'.session = rpc.session) (hq : rpc'.request = rpc.request) :
    w.Later (w.setRpc n rpc') := by
  refine ⟨Nat.le_refl _, Nat.le_refl _, fun {m x} hm => ?_, fun _ h => h, fun h => h⟩
  by_cases e : m = n
  · subst e
    rw [hn] at hm
    cases hm
    exact ⟨rpc', by simp [World.setRpc], hs, hq⟩
  · exact ⟨x, by simpa [World.setRpc, e] using hm, rfl, rfl⟩

theorem later_post {rpc : Rpc} {more : List WriteRequest}
    (hlt : ∀ {n rpc}, w.net.rpcs n = some rpc → n < w.net.nextRpc) : w.Later (w.post rpc more) := by
  refine ⟨Nat.le_refl _, Nat.le_refl _, fun {m x} hm => ⟨x, ?_, rfl, rfl⟩, fun _ h => h, fun h => h⟩
  have hne : m ≠ w.net.nextRpc := Nat.ne_of_lt (hlt hm)
  simpa [World.post, hne] using hm

/-- The acts of a task other than those on the network leave the network and the server alone. -/
theorem exec_off_net {act : Act} {r : act.Ret} (hact : ∀ op, act ≠ .net op)
    (he : World.exec S (.client a) act ch w = some (r, w')) :
    w'.net = w.net ∧ w'.host = w.host := by
  cases act with
  | buf op => obtain ⟨x, -, rfl⟩ := exec_buf he; exact ⟨rfl, rfl⟩
  | files op => obtain ⟨f, -, rfl⟩ := exec_files he; exact ⟨rfl, rfl⟩
  | paths op => obtain ⟨t, rfl⟩ := exec_paths he; exact ⟨rfl, rfl⟩
  | cache op => obtain rfl := exec_cache he; exact ⟨rfl, rfl⟩
  | dev op =>
    cases op with
    | recv cb => obtain rfl := exec_recv he; exact ⟨rfl, rfl⟩
    | reply x => obtain rfl := exec_reply he; exact ⟨rfl, rfl⟩
  | net op => exact absurd rfl (hact op)
  | accept | sys => cases he

theorem exec_home {act : Act} {r : act.Ret} {fh : Fh}
    (he : World.exec S (.client a) act ch w = some (r, w')) (h : (w.files.home fh).isSome) :
    (w'.files.home fh).isSome := by
  cases act with
  | buf op => obtain ⟨x, -, rfl⟩ := exec_buf he; exact h
  | paths op => obtain ⟨t, rfl⟩ := exec_paths he; exact h
  | cache op => obtain rfl := exec_cache he; exact h
  | net op => rw [(exec_net_frame he).files]; exact h
  | dev op =>
    cases op with
    | recv cb => obtain rfl := exec_recv he; exact h
    | reply x => obtain rfl := exec_reply he; exact h
  | accept | sys => cases he
  | files op =>
    obtain ⟨f, hx, rfl⟩ := exec_files he
    cases op with
    | get | restamp | nextFh | remove =>
      obtain ⟨-, rfl⟩ := Prod.mk.inj hx
      exact h
    | insert k file home =>
      obtain ⟨-, rfl⟩ := Prod.mk.inj hx
      by_cases e : fh = k
      · subst e; simp
      · simpa only [update_of_ne e] using h

theorem exec_connect {r : Option Nat}
    (he : World.exec S (.client a) (.net .connect) ch w = some (r, w')) :
    (r = none ∧ w' = w) ∨ r = some w.net.sessions ∧ w'.net = { w.net with
      conn := some w.net.sessions, sessions := w.net.sessions + 1 } ∧
      w'.host.replies = w.host.replies ∧ w'.files = w.files ∧ w'.call = w.call := by
  change NetAct.exec S a ch w .connect = some (r, w') at he
  simp only [NetAct.exec] at he
  split at he
  · obtain ⟨rfl, rfl⟩ := Prod.mk.inj (Option.some.inj he)
    exact .inl ⟨rfl, rfl⟩
  · obtain ⟨rfl, rfl⟩ := Prod.mk.inj (Option.some.inj he)
    exact .inr ⟨rfl, rfl, rfl, rfl, rfl⟩

/-- **Every step keeps what has happened.** -/
theorem exec_later {t : Tid} {act : Act} {r : act.Ret}
    (hlt : ∀ {n rpc}, w.net.rpcs n = some rpc → n < w.net.nextRpc)
    (he : World.exec S t act ch w = some (r, w')) : w.Later w' := by
  cases t with
  | client a =>
    by_cases hact : ∃ op, act = .net op
    · obtain ⟨op, rfl⟩ := hact
      cases op with
      | loadGen | liveConn => obtain ⟨-, rfl⟩ := Prod.mk.inj (Option.some.inj he); exact .refl w
      | bumpGen | nextSeq =>
        obtain ⟨-, rfl⟩ := Prod.mk.inj (Option.some.inj he)
        exact ⟨by simp, Nat.le_refl _, fun h => ⟨_, h, rfl, rfl⟩, fun _ h => h, fun h => h⟩
      | connect =>
        have hhome : ∀ {fh}, (w.files.home fh).isSome → (w'.files.home fh).isSome := exec_home he
        rcases exec_connect he with ⟨-, rfl⟩ | ⟨-, hn, hr, -⟩
        · exact .refl w'
        · refine ⟨by rw [hn], by rw [hn]; exact Nat.le_succ _,
            fun h => ⟨_, by rw [hn]; exact h, rfl, rfl⟩, ?_, hhome⟩
          rw [hr]
          exact fun _ h => h
      | send session request more purpose =>
        rcases exec_send he with ⟨-, rfl⟩ | ⟨-, rfl⟩
        · exact .refl w'
        · exact later_post hlt
      | await n =>
        obtain ⟨rpc, hn, ⟨-, rfl⟩ | ⟨resp, -, -, rfl⟩⟩ := exec_await he
        · exact later_setRpc hn rfl rfl
        · exact later_setRpc hn rfl rfl
    · obtain ⟨hn, hh⟩ := exec_off_net (fun op e => hact ⟨op, e⟩) he
      exact .of_eq hn (by rw [hh]) (exec_home he)
  | stream n =>
    cases act with
    | accept =>
      obtain ⟨rpc, hn, -, -, rfl⟩ := exec_accept he
      exact later_setRpc hn rfl rfl
    | sys act =>
      obtain ⟨host, hx, rfl⟩ := exec_sys he
      refine ⟨Nat.le_refl _, Nat.le_refl _, fun h => ⟨_, h, rfl, rfl⟩, ?_, fun h => h⟩
      rcases exec_replies hx with e | ⟨resp, -, e⟩
      · exact fun _ h => e ▸ h
      · exact fun _ h => e ▸ List.mem_append_left _ h
    | _ => cases he

theorem env_later (w : World) (e : Env) : w.Later (w.env e) := by
  cases e <;> exact ⟨Nat.le_refl _, Nat.le_refl _, fun h => ⟨_, h, rfl, rfl⟩,
    fun _ h => h, fun h => h⟩

end

/-! ## What a task does about generations -/

/-- An RPC a task waits for: its session, the generation the task had read when it took the
connection, and whether it asks for a handle. -/
structure Asked where
  rpc : Nat
  session : Nat
  gen : Nat
  grants : Bool

structure GenPhase where
  /-- It has installed a connection and not counted it yet. -/
  bumping : Bool := false
  /-- The generation it read last. -/
  gen : Nat := 0
  /-- The session of the connection it took, and the generation it had read before. -/
  conn : Option (Nat × Nat) := none
  asked : Option Asked := none
  /-- A handle it was given, the session, and the generation it had read before. -/
  granted : Option (ServerHandle × Nat × Nat) := none
  /-- It serves callbacks. -/
  serves : Bool := false
  /-- The callback opens a file. -/
  opening : Bool := false

def GenPhase.took (l : GenPhase) (s : Option Nat) : GenPhase :=
  { l with conn := s.map (·, l.gen), asked := none, granted := none }

def GenPhase.sent (l : GenPhase) (request : Request) (n : Option Nat) : GenPhase :=
  { l with asked := n.bind fun n => l.conn.map fun o => ⟨n, o.1, o.2, System.grants request⟩ }

theorem sent_asked {l : GenPhase} {request : Request} {n s g : Nat} (hconn : l.conn = some (s, g)) :
    (l.sent request (some n)).asked = some ⟨n, s, g, System.grants request⟩ := by
  simp [GenPhase.sent, hconn]

def Asked.answer (q : Asked) (r : Response) : Option (ServerHandle × Nat × Nat) :=
  if q.grants = true ∧ r.status = .ok then some (r.handle, q.session, q.gen) else none

def genProtocol : Protocol Act Act.Ret GenPhase where
  pre l a :=
    match a with
    | .net .bumpGen => l.bumping = true
    | .net (.send session _ _ _) => l.bumping = false ∧ ∃ g, l.conn = some (session, g)
    | .net (.await n) => l.bumping = false ∧ ∃ q ∈ l.asked, q.rpc = n
    | .files (.restamp _ handle gen) => l.bumping = false ∧ ∃ s, l.granted = some (handle, s, gen)
    | .files (.insert _ file _) => l.bumping = false ∧ l.opening = true ∧ file.openedGen = l.gen ∧
        ∃ s g, l.granted = some (file.serverHandle, s, g)
    | .dev (.recv _) =>
      l.bumping = false ∧ l.serves = true ∧ l.conn = none ∧ l.asked = none ∧ l.granted = none
    | .dev (.reply _) => l.bumping = false ∧ l.serves = true
    | .accept | .sys _ => False
    | _ => l.bumping = false
  post _ _ _ := True
  next l a r :=
    match a, r with
    | .net .loadGen, r => { l with gen := r }
    | .net .liveConn, r => l.took r
    | .net .connect, r => { l.took r with bumping := (r : Option Nat).isSome }
    | .net .bumpGen, _ => { l with bumping := false }
    | .net (.send _ request _ _), r => l.sent request r
    | .net (.await _), r =>
      { l with granted := l.asked.bind fun q => (r : Option Response).bind q.answer }
    | .dev (.recv cb), _ => { l with opening := cb.opens }
    | .dev (.reply _), _ => { l with opening := false }
    | _, _ => l

/-- The task has no connection to count, and serves what it served. -/
structure GenPhase.Calm (l l' : GenPhase) : Prop where
  bumping : l'.bumping = false
  serves : l'.serves = l.serves
  opening : l'.opening = l.opening

def Counts {α : Type} (p : Task α) : Prop :=
  ∀ l : GenPhase, l.bumping = false → p.Follows genProtocol l fun l' _ => l.Calm l'

section
variable {α β : Type} {l l' l'' : GenPhase}

theorem GenPhase.Calm.trans (h : l.Calm l') (h' : l'.Calm l'') : l.Calm l'' :=
  ⟨h'.bumping, h'.serves.trans h.serves, h'.opening.trans h.opening⟩

theorem counts_ret (x : α) : Counts (.ret x : Task α) := fun _ hl => ⟨hl, rfl, rfl⟩

theorem Counts.after {p : Task α} (hp : Counts p) (h : l.Calm l') :
    p.Follows genProtocol l' fun l'' _ => l.Calm l'' :=
  (hp l' h.bumping).mono fun _ _ h' => h.trans h'

theorem Counts.bind {p : Task α} {f : α → Task β} (hp : Counts p) (hf : ∀ x, Counts (f x)) :
    Counts (p >>= f) := fun l hl => Prog.Follows.bind (hp l hl) fun _ x h => (hf x).after h

def Act.Plain : Act → Prop
  | .buf _ | .paths _ | .cache _ | .files (.get _) | .files .nextFh | .files (.remove _)
  | .net .nextSeq => True
  | _ => False

theorem counts_act {a : Act} {k : a.Ret → Task β} (ha : a.Plain) (hk : ∀ r, Counts (k r)) :
    Counts (.act a k) := by
  intro l hl
  cases a with
  | dev | accept | sys => exact ha.elim
  | buf | paths | cache => exact ⟨hl, fun r _ => hk r l hl⟩
  | files op => cases op <;> first | exact ⟨hl, fun r _ => hk r l hl⟩ | exact ha.elim
  | net op => cases op <;> first | exact ⟨hl, fun r _ => hk r l hl⟩ | exact ha.elim

theorem genFollows_call {a : Act} {f : a.Ret → Task β} {Q : GenPhase → β → Prop}
    (ha : genProtocol.pre l a) (hf : ∀ r, (f r).Follows genProtocol (genProtocol.next l a r) Q) :
    (Prog.call a >>= f).Follows genProtocol l Q := ⟨ha, fun r _ => hf r⟩

theorem counts_loadGen {k : Nat → Task β} (hk : ∀ gen, Counts (k gen)) :
    Counts (reconnectGen >>= k) := by
  refine fun l hl => genFollows_call hl fun (r : Nat) => (hk r).after ?_
  exact ⟨hl, rfl, rfl⟩

/-! ### RPCs -/

theorem ensureConn_counts (hl : l.bumping = false) :
    ensureConn.Follows genProtocol l fun l' r => l.Calm l' ∧ l'.gen = l.gen ∧
      ∀ s, r = some s → l'.conn = some (s, l.gen) := by
  refine ⟨hl, fun (s : Option Nat) _ => ?_⟩
  cases s with
  | some s =>
    refine ⟨⟨hl, rfl, rfl⟩, rfl, ?_⟩
    rintro s' ⟨⟩
    rfl
  | none =>
    refine ⟨hl, fun (s : Option Nat) _ => ?_⟩
    cases s with
    | none => exact ⟨⟨rfl, rfl, rfl⟩, rfl, nofun⟩
    | some s =>
      refine ⟨rfl, fun _ _ => ⟨⟨rfl, rfl, rfl⟩, rfl, ?_⟩⟩
      rintro s' ⟨⟩
      rfl

/-- One wait; an answer of `Ok` to a request for a handle has the handle. -/
theorem awaitChecked_counts {n : Nat} {q : Asked} (hl : l.bumping = false) (hq : l.asked = some q)
    (hn : q.rpc = n) : (awaitChecked n).Follows genProtocol l fun l' r => l.Calm l' ∧
    l'.gen = l.gen ∧
      l'.asked = l.asked ∧ ∀ resp, r = .ok resp → q.grants = true →
        l'.granted = some (resp.handle, q.session, q.gen) := by
  refine genFollows_call ⟨hl, q, hq, hn⟩ fun (r : Option Response) => ?_
  cases r with
  | none =>
    refine ⟨⟨hl, rfl, rfl⟩, rfl, rfl, fun resp hr => ?_⟩
    cases hr
  | some r =>
    refine ⟨⟨hl, rfl, rfl⟩, rfl, rfl, fun resp hr hg => ?_⟩
    unfold checkStatus at hr
    split at hr
    · next hok =>
      cases hr
      change (l.asked.bind fun q => (some r).bind q.answer) = _
      rw [hq]
      exact if_pos ⟨hg, hok⟩
    · cases hr

theorem rpc_counts (purpose : Purpose) (request : UInt64 → Request) (hl : l.bumping = false) :
    (rpc purpose request).Follows genProtocol l fun l' r => l.Calm l' ∧ l'.gen = l.gen ∧
      ∀ resp, r = .ok resp → (∀ seq, grants (request seq) = true) →
        ∃ s, l'.granted = some (resp.handle, s, l.gen) := by
  refine genFollows_call hl fun (seq : UInt64) => ?_
  refine Prog.Follows.bind (ensureConn_counts hl) fun l₁ s h₁ => ?_
  cases s with
  | none =>
    refine ⟨h₁.1, h₁.2.1, fun resp hr => ?_⟩
    cases hr
  | some s =>
    have hconn : l₁.conn = some (s, l.gen) := h₁.2.2 s rfl
    refine genFollows_call ⟨h₁.1.bumping, _, hconn⟩ fun (n : Option Nat) => ?_
    cases n with
    | none =>
      refine ⟨⟨h₁.1.bumping, h₁.1.serves, h₁.1.opening⟩, h₁.2.1, fun resp hr => ?_⟩
      cases hr
    | some n =>
      have hasked : (l₁.sent (request seq) (some n)).asked =
          some ⟨n, s, l.gen, grants (request seq)⟩ :=
        sent_asked hconn
      refine Prog.Follows.mono
        (awaitChecked_counts (l := l₁.sent (request seq) (some n)) h₁.1.bumping hasked rfl)
        fun l₂ r h₂ => ?_
      have hcalm :
          l.Calm l₂ :=
          ⟨h₂.1.bumping, h₂.1.serves.trans h₁.1.serves, h₂.1.opening.trans h₁.1.opening⟩
      exact ⟨hcalm, h₂.2.1.trans h₁.2.1, fun resp hr hg => ⟨s, h₂.2.2.2 resp hr (hg seq)⟩⟩

theorem rpcStat_counts (purpose : Purpose) (request : UInt64 → Request) (hl : l.bumping = false) :
    (rpcStat purpose request).Follows genProtocol l fun l' r => l.Calm l' ∧ l'.gen = l.gen ∧
      ∀ resp st, r = .ok (resp, st) → (∀ seq, grants (request seq) = true) →
        ∃ s, l'.granted = some (resp.handle, s, l.gen) := by
  refine Prog.Follows.bind (rpc_counts purpose request hl) fun l₁ r h₁ => ?_
  cases r with
  | error e =>
    refine ⟨h₁.1, h₁.2.1, fun resp st hr => ?_⟩
    cases hr
  | ok r =>
    dsimp only
    split
    · refine ⟨h₁.1, h₁.2.1, fun resp st hr => ?_⟩
      cases hr
    · refine ⟨h₁.1, h₁.2.1, ?_⟩
      rintro resp st ⟨⟩ hg
      exact h₁.2.2 r rfl hg

theorem counts_rpc (purpose : Purpose) (request : UInt64 → Request) :
    Counts (rpc purpose request) :=
  fun _ hl => (rpc_counts purpose request hl).mono fun _ _ h => h.1

theorem counts_rpcStat (purpose : Purpose) (request : UInt64 → Request) :
    Counts (rpcStat purpose request) :=
  fun _ hl => (rpcStat_counts purpose request hl).mono fun _ _ h => h.1

theorem readFrames_counts {n : Nat} (fuel : Nat) : ∀ {l : GenPhase} {q : Asked} {got : Bytes},
    l.bumping = false → l.asked = some q → q.rpc = n →
    (readFrames n fuel got).Follows genProtocol l fun l' _ => l.Calm l' := by
  induction fuel with
  | zero => exact fun hl _ _ => ⟨hl, rfl, rfl⟩
  | succ fuel ih =>
    intro l q got hl hq hn
    refine Prog.Follows.bind (awaitChecked_counts hl hq hn) fun l₁ r h₁ => ?_
    cases r with
    | error e => exact h₁.1
    | ok r =>
      dsimp only
      split
      · exact h₁.1
      · exact Prog.Follows.mono (ih h₁.1.bumping (h₁.2.2.1.trans hq) hn) fun _ _ h => h₁.1.trans h

theorem connRead_counts (fh : Fh) (handle : ServerHandle) (offset : UInt64) (length : UInt32) :
    Counts (connRead fh handle offset length) := by
  refine fun l hl => Prog.Follows.bind (ensureConn_counts hl) fun l₁ s h₁ => ?_
  cases s with
  | none => exact h₁.1
  | some s =>
    have hconn : l₁.conn = some (s, l.gen) := h₁.2.2 s rfl
    refine genFollows_call h₁.1.bumping fun (seq : UInt64) => ?_
    refine genFollows_call ⟨h₁.1.bumping, _, hconn⟩ fun (n : Option Nat) => ?_
    cases n with
    | none => exact ⟨h₁.1.bumping, h₁.1.serves, h₁.1.opening⟩
    | some n =>
      have hasked : (l₁.sent (.read seq handle offset length) (some n)).asked =
          some ⟨n, s, l.gen, false⟩ := sent_asked hconn
      exact Prog.Follows.mono
        (readFrames_counts (l := l₁.sent (.read seq handle offset length) (some n)) _
        h₁.1.bumping hasked rfl) fun l₂ _ h₂ =>
        ⟨h₂.bumping, h₂.serves.trans h₁.1.serves, h₂.opening.trans h₁.1.opening⟩

theorem connWrite_counts (chunkSize : UInt32) (fh : Fh) (handle : ServerHandle) (offset : UInt64)
    (data : Bytes) : Counts (connWrite chunkSize fh handle offset data) := by
  refine fun l hl => Prog.Follows.bind (ensureConn_counts hl) fun l₁ s h₁ => ?_
  cases s with
  | none => exact h₁.1
  | some s =>
    have hconn : l₁.conn = some (s, l.gen) := h₁.2.2 s rfl
    refine genFollows_call h₁.1.bumping fun (seq : UInt64) => ?_
    cases hws : writeFrames chunkSize handle offset data with
    | nil => exact h₁.1
    | cons first more =>
      refine genFollows_call ⟨h₁.1.bumping, _, hconn⟩ fun (n : Option Nat) => ?_
      cases n with
      | none => exact ⟨h₁.1.bumping, h₁.1.serves, h₁.1.opening⟩
      | some n =>
        have hasked : (l₁.sent (.write seq first) (some n)).asked = some ⟨n, s, l.gen, false⟩ :=
          sent_asked hconn
        refine Prog.Follows.bind (awaitChecked_counts (l := l₁.sent (.write seq first) (some n))
          h₁.1.bumping hasked rfl) fun l₂ r h₂ => ?_
        have hcalm : l.Calm l₂ :=
          ⟨h₂.1.bumping, h₂.1.serves.trans h₁.1.serves, h₂.1.opening.trans h₁.1.opening⟩
        cases r <;> exact hcalm

/-! ### Flushes -/

theorem dropAppends_counts (fh : Fh) (isAppend : Bool) : Counts (dropAppends fh isAppend) := by
  unfold dropAppends
  split
  · refine counts_act trivial fun (b : Bool) => ?_
    change Counts (if b then _ else _)
    split
    · refine counts_act trivial fun (n : Nat) => ?_
      change Counts (if n > 0 then _ else _)
      split
      · exact counts_act trivial fun _ => counts_ret _
      · exact counts_ret _
    · exact counts_ret _
  · exact counts_ret _

theorem ensureLive_counts (fh : Fh) (allowReopen : Bool) : Counts (ensureLive fh allowReopen) := by
  refine fun l hl => genFollows_call hl fun (cur : Nat) => genFollows_call hl
    fun (f : Option OpenFile) => ?_
  have hcalm : l.Calm { l with gen := cur } := ⟨hl, rfl, rfl⟩
  cases f with
  | none => exact hcalm
  | some f =>
    dsimp only
    split
    · exact hcalm
    split
    · exact hcalm
    refine Prog.Follows.bind (rpcStat_counts (l := { l with gen := cur }) (.reopen fh) _ hl)
      fun l₁ r h₁ => ?_
    have hcalm₁ := hcalm.trans h₁.1
    cases r with
    | error e => exact hcalm₁
    | ok r =>
      obtain ⟨s, hs⟩ := h₁.2.2 r.1 r.2 rfl fun _ => rfl
      refine genFollows_call ⟨h₁.1.bumping, s, hs⟩ fun _ => ?_
      exact Prog.Follows.bind ((dropAppends_counts fh f.isAppend).after hcalm₁) fun _ _ h => h

section
variable (chunkSize : UInt32)

theorem sendBatch_counts (fh : Fh) (handle : ServerHandle) (runs : List (UInt64 × Bytes)) :
    Counts (sendBatch chunkSize fh handle runs) := by
  induction runs with
  | nil => exact counts_ret _
  | cons run runs ih =>
    refine (connWrite_counts chunkSize fh handle run.1 run.2).bind fun r => ?_
    cases r with
    | error e => exact counts_ret _
    | ok _ => exact ih

theorem flushAttempts_counts (fh : Fh) (allowReopen : Bool) (k : Nat) :
    ∀ last, Counts (flushAttempts chunkSize fh allowReopen k last) := by
  induction k with
  | zero => exact fun last => counts_ret _
  | succ k ih =>
    refine fun last => (ensureLive_counts fh allowReopen).bind fun live => ?_
    cases live with
    | none =>
      refine counts_act trivial fun (b : Bool) => ?_
      cases b <;> exact counts_ret _
    | some handle =>
      refine counts_act trivial fun (batch : Option FlushBatch) => ?_
      cases batch with
      | none => exact counts_ret _
      | some batch =>
        refine counts_loadGen fun genBefore =>
          (sendBatch_counts chunkSize fh handle batch.chunks).bind fun r => ?_
        cases r with
        | ok _ => exact counts_act trivial fun _ => counts_ret _
        | error e =>
          refine counts_act trivial fun (file : Option OpenFile) => ?_
          change Counts (if (file.map OpenFile.isAppend).getD false then _ else _)
          split
          · exact counts_act trivial fun _ => counts_act trivial fun _ => counts_ret _
          · refine counts_act trivial fun _ => ?_
            change Counts (if allowReopen then _ else _)
            split
            · refine counts_loadGen fun gen => ?_
              split
              · exact ih e
              · exact counts_ret _
            · exact counts_ret _

theorem flushHandle_counts (fh : Fh) : Counts (flushHandle chunkSize fh) :=
  flushAttempts_counts chunkSize fh true 2 .other

theorem drainRounds_counts (fh : Fh) (k : Nat) : Counts (drainRounds chunkSize fh k) := by
  induction k with
  | zero => exact counts_ret _
  | succ k ih =>
    refine (flushHandle_counts chunkSize fh).bind fun r => ?_
    cases r with
    | error e => exact counts_ret _
    | ok _ =>
      refine counts_act trivial fun (b : Bool) => ?_
      cases b with
      | true => exact ih
      | false => exact counts_ret _

theorem flushEach_counts (hs : List Fh) : ∀ first, Counts (flushEach chunkSize hs first) := by
  induction hs with
  | nil => intro first; cases first <;> exact counts_ret _
  | cons fh hs ih =>
    refine fun first => (flushHandle_counts chunkSize fh).bind fun r => ?_
    cases r <;> exact ih _

theorem flushAllHandles_counts : Counts (flushAllHandles chunkSize) :=
  counts_act trivial fun hs => flushEach_counts chunkSize hs none

theorem fenceTruncatingOpen_counts (flags : UInt32) :
    Counts (fenceTruncatingOpen chunkSize flags) := by
  unfold fenceTruncatingOpen
  split
  · exact counts_ret _
  · refine counts_act trivial fun (total : Nat) => ?_
    change Counts (if total = 0 then _ else _)
    split
    · exact counts_ret _
    · exact flushAllHandles_counts chunkSize

theorem fenceSetattr_counts (size : Option UInt64) (fh : Option Fh) :
    Counts (fenceSetattr chunkSize size fh) := by
  unfold fenceSetattr
  split
  · exact counts_ret _
  · exact flushHandle_counts chunkSize _
  · exact flushAllHandles_counts chunkSize

/-! ### Callbacks -/

theorem counts_withPath {ino : FuseIno} {k : Path → Task Answer} (hk : ∀ path, Counts (k path)) :
    Counts (withPath ino k) := by
  refine counts_act trivial fun (path : Option Path) => ?_
  cases path with
  | none => exact counts_ret _
  | some path => exact hk path

theorem viaStat_counts (path : Path) (purpose : Purpose) (request : UInt64 → Request) :
    Counts (viaStat path purpose request) := by
  refine (counts_rpcStat purpose request).bind fun r => ?_
  cases r with
  | error e => exact counts_ret _
  | ok r => exact counts_act trivial fun _ => counts_ret _

theorem viaStatus_counts (request : UInt64 → Request) (done : PathAct) :
    Counts (viaStatus request done) := by
  refine (counts_rpc .other request).bind fun r => ?_
  cases r with
  | error e => exact counts_ret _
  | ok r => exact counts_act trivial fun _ => counts_ret _

theorem attrOf_counts (path : Path) : Counts (attrOf chunkSize path) := by
  have hpending : Counts (flushPending chunkSize) := by
    refine counts_act trivial fun (total : Nat) => ?_
    change Counts (if total > 0 then _ else _)
    split
    · refine (flushAllHandles_counts chunkSize).bind fun r => ?_
      cases r <;> exact counts_ret _
    · exact counts_ret _
  have hget : Counts (getStat chunkSize path) := by
    refine hpending.bind fun _ => counts_act trivial fun (c : Option (Option (Ino × Node))) => ?_
    rcases c with _ | _ | st
    · refine (counts_rpcStat .other _).bind fun r => ?_
      cases r with
      | ok x =>
        dsimp only
        split
        · exact counts_act trivial fun _ => counts_ret _
        · exact counts_ret _
      | error e =>
        dsimp only
        split
        · exact counts_act trivial fun _ => counts_ret _
        · exact counts_ret _
    · exact counts_ret _
    · exact counts_ret _
  refine hget.bind fun r => ?_
  cases r with
  | ok st => exact counts_act trivial fun _ => counts_ret _
  | error e => exact counts_ret _

theorem setattr_counts (ino : FuseIno) (mode uid gid : Option UInt32) (size : Option UInt64)
    (atime mtime : Option Int64) (fh : Option Fh) :
    Counts (setattr chunkSize ino mode uid gid size atime mtime fh) := by
  refine counts_withPath fun path => (fenceSetattr_counts chunkSize size fh).bind fun r => ?_
  cases r with
  | error e => exact counts_ret _
  | ok _ => exact viaStat_counts path _ _

theorem registerOpen_counts {path : Path} {flags : UInt32} {handle : ServerHandle}
    {home : Ino} {s g : Nat} (hl : l.bumping = false) (ho : l.opening = true)
    (hg : l.granted = some (handle, s, g)) :
    (registerOpen path flags handle home).Follows genProtocol l fun l' _ => l.Calm l' := by
  refine ⟨hl, fun (fh : Fh) _ => genFollows_call hl fun (gen : Nat) => ?_⟩
  exact ⟨⟨hl, ho, rfl, s, g, hg⟩, fun _ _ => ⟨hl, rfl, rfl⟩⟩

/-- An Open or Create, and what is made of its answer. -/
theorem opening_counts {request : UInt64 → Request}
    {f : Except RpcError (Response × Ino × Node) → Task Answer}
    {path : Path} {flags : UInt32} {k : Fh → Ino × Node → Task Answer} (hl : l.bumping = false)
    (ho : l.opening = true) (hreq : ∀ seq, grants (request seq) = true)
    (herr : ∀ e, Counts (f (.error e)))
    (hok : ∀ r st, f (.ok (r, st)) = registerOpen path flags r.handle st.1 >>= (k · st))
    (hk : ∀ fh st, Counts (k fh st)) :
    (rpcStat .open request >>= f).Follows genProtocol l fun l' _ => l.Calm l' := by
  refine Prog.Follows.bind (rpcStat_counts .open request hl) fun l₁ r h₁ => ?_
  cases r with
  | error e => exact (herr e).after h₁.1
  | ok r =>
    obtain ⟨s, hs⟩ := h₁.2.2 r.1 r.2 rfl hreq
    rw [hok]
    refine Prog.Follows.bind (registerOpen_counts h₁.1.bumping (h₁.1.opening.trans ho) hs)
      fun l₂ fh h₂ => ?_
    exact (hk fh r.2).after (h₁.1.trans h₂)

theorem openFile_counts (ino : FuseIno) (flags : UInt32) (hl : l.bumping = false)
    (ho : l.opening = true) :
    (openFile chunkSize ino flags).Follows genProtocol l fun l' _ => l.Calm l' := by
  refine genFollows_call hl fun (path : Option Path) => ?_
  cases path with
  | none => exact ⟨hl, rfl, rfl⟩
  | some path =>
    refine Prog.Follows.bind (fenceTruncatingOpen_counts chunkSize flags l hl) fun l₁ r h₁ => ?_
    cases r with
    | error e => exact h₁
    | ok _ =>
      exact Prog.Follows.mono (opening_counts h₁.bumping (h₁.opening.trans ho) (fun _ => rfl)
        (fun _ => counts_ret _) (fun _ _ => rfl) fun fh st => counts_ret (Answer.opened fh))
        fun _ _ h => h₁.trans h

theorem create_counts (parent : FuseIno) (name : Name) (mode flags : UInt32)
    (hl : l.bumping = false) (ho : l.opening = true) :
    (create chunkSize parent name mode flags).Follows genProtocol l fun l' _ => l.Calm l' := by
  refine genFollows_call hl fun (path : Option Path) => ?_
  cases path with
  | none => exact ⟨hl, rfl, rfl⟩
  | some path =>
    refine Prog.Follows.bind (fenceTruncatingOpen_counts chunkSize flags l hl) fun l₁ r h₁ => ?_
    cases r with
    | error e => exact h₁
    | ok _ =>
      exact Prog.Follows.mono (opening_counts h₁.bumping (h₁.opening.trans ho) (fun _ => rfl)
        (fun _ => counts_ret _) (fun _ _ => rfl) fun fh st =>
        counts_act (a := .paths (.getOrAlloc (childPath path name))) trivial fun ino =>
          counts_ret (Answer.created ino st fh)) fun _ _ h => h₁.trans h

theorem read_counts (fh : Fh) (offset : UInt64) (size : UInt32) :
    Counts (read chunkSize fh offset size) := by
  refine (flushHandle_counts chunkSize fh).bind fun r => ?_
  cases r with
  | error e => exact counts_ret _
  | ok _ =>
    refine (ensureLive_counts fh true).bind fun live => ?_
    cases live with
    | none => exact counts_ret _
    | some handle =>
      refine (connRead_counts fh handle offset size).bind fun r => ?_
      cases r <;> exact counts_ret _

theorem write_counts (fh : Fh) (offset : UInt64) (data : Bytes) :
    Counts (write chunkSize fh offset data) := by
  refine (ensureLive_counts fh true).bind fun _ => counts_act trivial fun (d : PushDecision) => ?_
  cases d with
  | buffered => exact counts_ret _
  | flushThis h => exact (flushHandle_counts chunkSize h).bind fun _ => counts_ret _
  | flushOther h => exact (flushHandle_counts chunkSize h).bind fun _ => counts_ret _
  | reject => exact counts_act trivial fun _ => counts_ret _

theorem drainReply_counts (fh : Fh) : Counts (drainReply chunkSize fh) := by
  refine (drainRounds_counts chunkSize fh 500).bind fun r => ?_
  cases r <;> exact counts_act trivial fun _ => counts_ret _

theorem flush_counts (fh : Fh) : Counts (flush chunkSize fh) := by
  refine (drainReply_counts chunkSize fh).bind fun r => ?_
  cases r <;> exact counts_ret _

theorem fsync_counts (fh : Fh) (datasync : Bool) : Counts (fsync chunkSize fh datasync) := by
  refine (drainReply_counts chunkSize fh).bind fun r => ?_
  cases r with
  | error e => exact counts_ret _
  | ok _ =>
    refine (ensureLive_counts fh true).bind fun live => ?_
    cases live with
    | none => exact counts_ret _
    | some handle =>
      refine (counts_rpc .other _).bind fun r => ?_
      cases r <;> exact counts_ret _

theorem release_counts (fh : Fh) : Counts (release chunkSize fh) := by
  refine (drainRounds_counts chunkSize fh 500).bind fun _ => counts_act trivial fun _ => ?_
  refine counts_act trivial fun (file : Option OpenFile) => counts_act trivial fun _ => ?_
  cases file with
  | none => exact counts_ret _
  | some f => exact (counts_rpc .other _).bind fun _ => counts_ret _

theorem callback_counts (cb : Callback) (hl : l.bumping = false) (ho : l.opening = cb.opens) :
    (callback chunkSize cb).Follows genProtocol l fun l' _ => l.Calm l' := by
  cases cb with
  | «open» ino flags => exact openFile_counts chunkSize ino flags hl ho
  | create parent name mode flags => exact create_counts chunkSize parent name mode flags hl ho
  | lookup | getattr => exact counts_withPath (fun _ => attrOf_counts chunkSize _) l hl
  | setattr => exact setattr_counts chunkSize _ _ _ _ _ _ _ _ l hl
  | mkdir | symlink => exact counts_withPath (fun _ => viaStat_counts _ _ _) l hl
  | unlink | rmdir => exact counts_withPath (fun _ => viaStatus_counts _ _) l hl
  | rename => exact counts_withPath (fun _ => counts_withPath fun _ => viaStatus_counts _ _) l hl
  | link => exact counts_withPath (fun _ => counts_withPath fun _ => viaStat_counts _ _ _) l hl
  | read fh offset size => exact read_counts chunkSize fh offset size l hl
  | write fh offset data => exact write_counts chunkSize fh offset data l hl
  | flush fh => exact flush_counts chunkSize fh l hl
  | fsync fh datasync => exact fsync_counts chunkSize fh datasync l hl
  | release fh => exact release_counts chunkSize fh l hl

theorem serve_counts (cb : Callback) :
    (serve chunkSize cb).Follows genProtocol { serves := true } fun l' _ => l'.bumping = false := by
  refine ⟨⟨rfl, rfl, rfl, rfl, rfl⟩, fun _ _ => ?_⟩
  refine Prog.Follows.bind
    (callback_counts (l := { serves := true, opening := cb.opens }) chunkSize cb rfl rfl)
    fun l₁ a h₁ => ?_
  exact ⟨⟨h₁.bumping, h₁.serves⟩, fun _ _ => h₁.bumping⟩

theorem dropOld_counts (hs : List Fh) : Counts (dropOld hs) := by
  induction hs with
  | nil => exact counts_ret _
  | cons fh hs ih =>
    refine counts_act trivial fun (n : Nat) => ?_
    change Counts (if n > 0 then _ else _)
    split
    · exact counts_act trivial fun _ => ih
    · exact ih

theorem flushList_counts (allowReopen : Bool) (hs : List Fh) :
    Counts (flushList chunkSize allowReopen hs) := by
  induction hs with
  | nil => exact counts_ret _
  | cons fh hs ih => exact (flushAttempts_counts chunkSize fh allowReopen 2 .other).bind fun _ => ih

theorem backgroundTick_counts : Counts (backgroundTick chunkSize) := by
  refine counts_act trivial fun (tooOld : List Fh) => (dropOld_counts tooOld).bind fun _ => ?_
  exact counts_act trivial fun (expired : List Fh) => flushList_counts chunkSize false expired

theorem unmountFlush_counts : Counts (unmountFlush chunkSize) :=
  counts_act trivial fun (hs : List Fh) => flushList_counts chunkSize true hs

end

end

/-! ## The counter and the connections -/

/-- What a task has learnt about generations is true. -/
structure GenOk (w : World) (l : GenPhase) : Prop where
  gen : l.gen ≤ w.net.gen
  conn : ∀ {s g}, l.conn = some (s, g) → g ≤ s ∧ s < w.net.sessions ∧ g ≤ w.net.gen
  asked : ∀ {q}, l.asked = some q → q.gen ≤ q.session ∧ q.gen ≤ w.net.gen ∧
    ∃ rpc, w.net.rpcs q.rpc = some rpc ∧ rpc.session = q.session ∧ grants rpc.request = q.grants
  granted : ∀ {h s g}, l.granted = some (h, s, g) → g ≤ s ∧ g ≤ w.net.gen ∧ w.IssuedOn s h
  bumping : l.bumping = true → l.asked = none ∧ l.granted = none

def bumps (g : Actor → GenPhase) : Nat :=
  (g .fuse).bumping.toNat + (g .bg).bumping.toNat + (g .shutdown).bumping.toNat

/-- The generation counts the connections after the first but for those a task is about to count. -/
structure Counted (w : World) (g : Actor → GenPhase) : Prop where
  counted : w.net.gen + bumps g + 1 = w.net.sessions
  conn : w.net.conn = some (w.net.sessions - 1)
  rpcs : ∀ {n rpc}, w.net.rpcs n = some rpc → n < w.net.nextRpc ∧ rpc.session < w.net.sessions
  task : ∀ a, GenOk w (g a)

section
variable {S : Setup} {w w' : World} {a b : Actor} {g : Actor → GenPhase} {l : GenPhase}
    {ch : Chance}

theorem bumps_update (g : Actor → GenPhase) (a : Actor) (l : GenPhase) :
    bumps (update g a l) + (g a).bumping.toNat = bumps g + l.bumping.toNat := by
  cases a <;> simp [bumps] <;> omega

theorem counted_same {n m : Nat} (hl : l.bumping = (g a).bumping) (h : n + bumps g + 1 = m) :
    n + bumps (update g a l) + 1 = m := by
  have := bumps_update g a l
  rw [hl] at this
  omega

theorem counted_more {n m : Nat} (ha : (g a).bumping = false) (hl : l.bumping = true)
    (h : n + bumps g + 1 = m) : n + bumps (update g a l) + 1 = m + 1 := by
  have := bumps_update g a l
  rw [ha, hl, Bool.toNat_false, Bool.toNat_true] at this
  omega

theorem counted_fewer {n m : Nat} (ha : (g a).bumping = true) (hl : l.bumping = false)
    (h : n + bumps g + 1 = m) : n + 1 + bumps (update g a l) + 1 = m := by
  have := bumps_update g a l
  rw [ha, hl, Bool.toNat_false, Bool.toNat_true] at this
  omega

theorem GenOk.later (h : GenOk w l) (hw : w.Later w') : GenOk w' l where
  gen := h.gen.trans hw.gen
  conn hc := by
    obtain ⟨hle, hlt, hg⟩ := h.conn hc
    exact ⟨hle, Nat.lt_of_lt_of_le hlt hw.sessions, hg.trans hw.gen⟩
  asked hq := by
    obtain ⟨hle, hgen, rpc, hn, hs, hg⟩ := h.asked hq
    obtain ⟨rpc', hn', hs', hq'⟩ := hw.rpcs hn
    exact ⟨hle, hgen.trans hw.gen, rpc', hn', hs'.trans hs, by rw [hq']; exact hg⟩
  granted hg := by
    obtain ⟨hle, hgen, hi⟩ := h.granted hg
    exact ⟨hle, hgen.trans hw.gen, hi.later hw⟩
  bumping := h.bumping

theorem GenOk.took (h : GenOk w l) (hw : w.Later w') {s : Option Nat}
    (hs : ∀ s' ∈ s, w.net.gen ≤ s' ∧ s' < w'.net.sessions) : GenOk w' (l.took s) where
  gen := h.gen.trans hw.gen
  conn hc := by
    obtain ⟨s', hs', e⟩ := Option.map_eq_some_iff.mp hc
    obtain ⟨rfl, rfl⟩ := Prod.mk.inj e
    exact ⟨h.gen.trans (hs s' hs').1, (hs s' hs').2, h.gen.trans hw.gen⟩
  asked hq := by cases hq
  granted hg := by cases hg
  bumping _ := ⟨rfl, rfl⟩

theorem Counted.live (h : Counted w g) {s : Nat} (hs : s ∈ w.net.conn.filter (!w.net.closed ·)) :
    s = w.net.sessions - 1 := by
  have := (Option.filter_eq_some_iff.mp hs).1
  rw [h.conn] at this
  exact (Option.some.inj this).symm

theorem GenOk.answered {q : Asked} {r : Option Response} {handle : ServerHandle} {s k : Nat}
    (h : GenOk w l) (hw : w.Later w') (hq : l.asked = some q)
    (he : World.exec S (.client a) (.net (.await q.rpc)) ch w = some (r, w'))
    (hx : (genProtocol.next l (.net (.await q.rpc)) r).granted = some (handle, s, k)) :
    s = q.session ∧ k = q.gen ∧ w'.IssuedOn s handle := by
  change l.asked.bind (fun q => r.bind q.answer) = _ at hx
  rw [hq] at hx
  change r.bind q.answer = _ at hx
  obtain ⟨resp, rfl, hgiven⟩ := Option.bind_eq_some_iff.mp hx
  unfold Asked.answer at hgiven
  split at hgiven
  · next hok =>
    cases hgiven
    obtain ⟨-, -, rpc, hrpc, hs, hg⟩ := (h.later hw).asked hq
    obtain ⟨rpc', hn, ⟨hr, -⟩ | ⟨resp', hr, hans, rfl⟩⟩ := exec_await he
    · cases hr
    · cases hr
      exact ⟨rfl, rfl, q.rpc, rpc, resp, hrpc, hs, hg.trans hok.1,
        mem_replies_of_answersOf hans, hok.2, rfl⟩
  · cases hgiven

theorem Counted.step (h : Counted w g) (hw : w.Later w')
    (hcount : w'.net.gen + bumps (update g a l) + 1 = w'.net.sessions)
    (hconn : w'.net.conn = some (w'.net.sessions - 1))
    (hrpcs : ∀ {n rpc}, w'.net.rpcs n = some rpc → n < w'.net.nextRpc ∧
      rpc.session < w'.net.sessions)
    (htask : GenOk w' l) : Counted w' (update g a l) where
  counted := hcount
  conn := hconn
  rpcs := hrpcs
  task := (forall_update_iff g _).mpr ⟨htask, fun b _ => (h.task b).later hw⟩

theorem Counted.frame (h : Counted w g) (hw : w.Later w') (hgen : w'.net.gen = w.net.gen)
    (hsess : w'.net.sessions = w.net.sessions) (hconn : w'.net.conn = w.net.conn)
    (hrpcs : ∀ {n rpc}, w'.net.rpcs n = some rpc → n < w'.net.nextRpc ∧
      rpc.session < w'.net.sessions)
    (hl : l.bumping = (g a).bumping) (htask : GenOk w' l) : Counted w' (update g a l) := by
  refine h.step hw ?_ (by rw [hconn, hsess]; exact h.conn) hrpcs htask
  rw [hgen, hsess]
  exact counted_same hl h.counted

theorem Counted.setRpc (h : Counted w g) {n m : Nat} {rpc rpc' x : Rpc}
    (hx : (w.setRpc n rpc').net.rpcs m = some x) (hn : w.net.rpcs n = some rpc)
    (hs : rpc'.session = rpc.session) : m < w.net.nextRpc ∧ x.session < w.net.sessions := by
  rcases setRpc_cases hx with ⟨rfl, rfl⟩ | ⟨-, hx⟩
  · exact ⟨(h.rpcs hn).1, hs ▸ (h.rpcs hn).2⟩
  · exact h.rpcs hx

theorem counted_net {op : NetAct} {r : op.Ret} (h : Counted w g)
    (hpre : genProtocol.pre (g a) (.net op))
    (he : World.exec S (.client a) (.net op) ch w = some (r, w')) :
    Counted w' (update g a (genProtocol.next (g a) (.net op) r)) := by
  have hw := exec_later (fun hn => (h.rpcs hn).1) he
  have hcount := h.counted
  have ht := (h.task a).later hw
  cases op with
  | bumpGen =>
    obtain ⟨-, rfl⟩ := Prod.mk.inj (Option.some.inj he)
    refine h.step hw (counted_fewer hpre rfl hcount) h.conn h.rpcs ?_
    exact ⟨ht.gen, ht.conn, ht.asked, ht.granted, fun hb => by cases hb⟩
  | loadGen =>
    obtain ⟨rfl, rfl⟩ := Prod.mk.inj (Option.some.inj he)
    exact h.frame hw rfl rfl rfl h.rpcs rfl
      ⟨Nat.le_refl _, ht.conn, ht.asked, ht.granted, ht.bumping⟩
  | nextSeq =>
    obtain ⟨-, rfl⟩ := Prod.mk.inj (Option.some.inj he)
    exact h.frame hw rfl rfl rfl h.rpcs rfl ht
  | liveConn =>
    obtain ⟨rfl, rfl⟩ := Prod.mk.inj (Option.some.inj he)
    refine h.frame hw rfl rfl rfl h.rpcs rfl ((h.task a).took hw fun s hs => ?_)
    rw [h.live hs]
    omega
  | connect =>
    have hfalse : (g a).bumping = false := hpre
    rcases exec_connect he with ⟨rfl, rfl⟩ | ⟨rfl, hn, -⟩
    · have ht := (h.task a).took hw (s := none) fun s hs => by cases hs
      exact h.frame hw rfl rfl rfl h.rpcs hfalse.symm
        ⟨ht.gen, ht.conn, ht.asked, ht.granted, fun _ => ⟨rfl, rfl⟩⟩
    · refine h.step hw ?_ (by rw [hn]; rfl) (fun hx => ?_) ?_
      · rw [hn]
        exact counted_more hfalse rfl hcount
      · rw [hn] at hx ⊢
        exact ⟨(h.rpcs hx).1, Nat.lt_succ_of_lt (h.rpcs hx).2⟩
      · have ht := (h.task a).took hw (s := some w.net.sessions) fun s hs => by
          cases hs
          rw [hn]
          simp only
          omega
        exact ⟨ht.gen, ht.conn, ht.asked, ht.granted, fun _ => ⟨rfl, rfl⟩⟩
  | send session request more purpose =>
    obtain ⟨hfalse, g', hconn⟩ := hpre
    rcases exec_send he with ⟨rfl, rfl⟩ | ⟨rfl, rfl⟩
    · refine h.frame hw rfl rfl rfl h.rpcs rfl ⟨ht.gen, ht.conn, nofun, ht.granted, fun hb => ?_⟩
      exact ⟨rfl, (ht.bumping hb).2⟩
    · refine h.frame hw rfl rfl rfl (fun hx => ?_) rfl
        ⟨ht.gen, ht.conn, fun hq => ?_, ht.granted, fun hb => ?_⟩
      · rcases post_cases hx with ⟨rfl, rfl⟩ | hx
        · exact ⟨Nat.lt_succ_self _, ((h.task a).conn hconn).2.1⟩
        · exact ⟨Nat.lt_succ_of_lt (h.rpcs hx).1, (h.rpcs hx).2⟩
      · obtain rfl := Option.some.inj ((sent_asked hconn).symm.trans hq)
        exact ⟨((h.task a).conn hconn).1, ((h.task a).conn hconn).2.2, _, update_self .., rfl, rfl⟩
      · exact absurd (hfalse.symm.trans hb) nofun
  | await n =>
    obtain ⟨hfalse, q, hq, rfl⟩ := hpre
    have htask : GenOk w' (genProtocol.next (g a) (.net (.await q.rpc)) r) := by
      refine ⟨ht.gen, ht.conn, ht.asked, fun hx => ?_, fun hb => ?_⟩
      · obtain ⟨rfl, rfl, hi⟩ := (h.task a).answered hw hq he hx
        exact ⟨(ht.asked hq).1, (ht.asked hq).2.1, hi⟩
      · exact absurd (hfalse.symm.trans hb) nofun
    obtain ⟨rpc, hn, ⟨-, rfl⟩ | ⟨resp, -, -, rfl⟩⟩ := exec_await he
    · exact h.frame hw rfl rfl rfl (fun hx => h.setRpc hx hn rfl) rfl htask
    · exact h.frame hw rfl rfl rfl (fun hx => h.setRpc hx hn rfl) rfl htask

theorem next_off_net {act : Act} (r : act.Ret) (hact : ∀ op, act ≠ .net op) :
    genProtocol.next l act r = { l with opening := (genProtocol.next l act r).opening } := by
  cases act with
  | net op => exact absurd rfl (hact op)
  | dev op => cases op <;> rfl
  | _ => rfl

theorem counted_client {act : Act} {r : act.Ret} (h : Counted w g)
    (hpre : genProtocol.pre (g a) act) (he : World.exec S (.client a) act ch w = some (r, w')) :
    Counted w' (update g a (genProtocol.next (g a) act r)) := by
  by_cases hact : ∃ op, act = .net op
  · obtain ⟨op, rfl⟩ := hact
    exact counted_net h hpre he
  · have hact : ∀ op, act ≠ .net op := fun op e => hact ⟨op, e⟩
    obtain ⟨hn, -⟩ := exec_off_net hact he
    have hw := exec_later (fun hn => (h.rpcs hn).1) he
    have ht := (h.task a).later hw
    rw [next_off_net r hact]
    refine h.frame hw (by rw [hn]) (by rw [hn]) (by rw [hn]) (by rw [hn]; exact h.rpcs) rfl ?_
    exact ⟨ht.gen, ht.conn, ht.asked, ht.granted, ht.bumping⟩

theorem Counted.elsewhere (h : Counted w g) (hw : w.Later w') (hgen : w'.net.gen = w.net.gen)
    (hsess : w'.net.sessions = w.net.sessions) (hconn : w'.net.conn = w.net.conn)
    (hrpcs : ∀ {n rpc}, w'.net.rpcs n = some rpc → n < w'.net.nextRpc ∧
      rpc.session < w'.net.sessions) :
    Counted w' g where
  counted := by rw [hgen, hsess]; exact h.counted
  conn := by rw [hconn, hsess]; exact h.conn
  rpcs := hrpcs
  task a := (h.task a).later hw

theorem counted_stream {n : Nat} {act : Act} {r : act.Ret} (h : Counted w g)
    (he : World.exec S (.stream n) act ch w = some (r, w')) : Counted w' g := by
  have hw := exec_later (fun hn => (h.rpcs hn).1) he
  cases act with
  | accept =>
    obtain ⟨rpc, hn, -, -, rfl⟩ := exec_accept he
    exact h.elsewhere hw rfl rfl rfl fun hx => h.setRpc hx hn rfl
  | sys act =>
    obtain ⟨host, -, rfl⟩ := exec_sys he
    exact h.elsewhere hw rfl rfl rfl h.rpcs
  | _ => cases he

theorem counted_env (h : Counted w g) (e : Env) : Counted (w.env e) g := by
  have hw := env_later w e
  cases e <;> exact h.elsewhere hw rfl rfl rfl h.rpcs

def firstGen : Actor → Job → GenPhase
  | .fuse, .callback _ => { serves := true }
  | _, _ => {}

theorem firstGen_cases (a : Actor) (job : Job) :
    firstGen a job = {} ∨ a = .fuse ∧ firstGen a job = { serves := true } := by
  cases a <;> cases job <;> first | exact .inl rfl | exact .inr ⟨rfl, rfl⟩

theorem counted_start {job : Job} (h : Counted w g) (ha : (g a).bumping = false) :
    Counted w (update g a (firstGen a job)) := by
  have hok : GenOk w (firstGen a job) ∧ (firstGen a job).bumping = false := by
    rcases firstGen_cases a job with e | ⟨-, e⟩ <;> rw [e] <;>
      exact ⟨⟨Nat.zero_le _, nofun, nofun, nofun, nofun⟩, rfl⟩
  exact h.frame (.refl w) rfl rfl rfl h.rpcs (hok.2.trans ha.symm) hok.1

end

theorem counted_init (S : Setup) (fs : Fs) (epoch : UInt32) (root : Path)
    (perHandle total window : Nat) :
    Counted (.init S fs epoch root perHandle total window) fun _ => {} where
  counted := rfl
  conn := rfl
  rpcs h := by cases h
  task _ := ⟨Nat.zero_le _, nofun, nofun, nofun, nofun⟩

/-! ## The rule for invariants about generations -/

/-- The protocols of the threads, as far as generations go. -/
def genSide : Tid → Protocol Act Act.Ret GenPhase
  | .client _ => genProtocol
  | .stream _ => ⟨fun _ _ => True, fun _ _ _ => True, fun l _ _ => l⟩

theorem prog_counts (S : Setup) (a : Actor) (job : Job) :
    ((mountMachine S).prog (.client a) job).Follows genProtocol (firstGen a job) fun l _ =>
    l.bumping = false := by
  have hcalm : ∀ {p : Task Unit}, Counts p → p.Follows genProtocol {} fun l _ =>
      l.bumping = false :=
    fun hp => (hp {} rfl).mono fun _ _ h => h.bumping
  cases a <;> cases job <;>
    first
    | exact serve_counts _ _
    | exact hcalm (backgroundTick_counts _)
    | exact hcalm (unmountFlush_counts _)
    | exact hcalm (counts_ret _)

/-- Every step that `K` and the protocol of the tasks allow keeps `I`. -/
structure GenKeeps (S : Setup) (K : MountCond) (I : World → (Actor → GenPhase) → Prop) : Prop where
  client : ∀ {a act ch r w w' g}, I w g → genProtocol.pre (g a) act → K.run w (.client a) act ch →
    World.exec S (.client a) act ch w = some (r, w') →
    I w' (update g a (genProtocol.next (g a) act r))
  stream : ∀ {n act ch r w w' g}, I w g → World.exec S (.stream n) act ch w = some (r, w') → I w' g
  task : ∀ {a job w g}, I w g → (g a).bumping = false → I w (update g a (firstGen a job))
  env : ∀ {e w g}, I w g → I (w.env e) g

section
variable {S : Setup} {K : MountCond} {I : World → (Actor → GenPhase) → Prop}

/-- The invariant in every state reached, with what the tasks are about to do. -/
theorem gen_sound {w₀ : World} {c : Config Act Act.Ret World Tid} (hk : GenKeeps S K I)
    (h0 : I w₀ fun _ => {}) (h : Reach (mountMachine S).step K.Meets (Config.idle w₀) c) :
    ∃ g, I c.state g ∧ ∀ a, (c.threads (.client a)).Follows genProtocol (g a) fun l _ =>
      l.bumping = false := by
  have hall : ∃ l : Tid → GenPhase, I c.state (fun a => l (.client a)) ∧
      ∀ t, (c.threads t).Follows (genSide t) (l t) fun l _ => ∀ a, t = .client a →
      l.bumping = false := by
    have hfin : ∀ t : Tid, ∀ a, t = .client a →
        ((fun _ => {} : Tid → GenPhase) t).bumping = false :=
      fun _ _ _ => rfl
    refine Machine.sound (I := fun w (l : Tid → GenPhase) => I w fun a => l (.client a)) h0 hfin
      (fun t l a ch r w w' _ _ => by cases t <;> trivial)
      (fun t act ch r w w' l hi hpre hK he => ?_) (fun t job w l hi hf _ => ?_)
      (fun e w w' l hi _ he => ?_) h
    · cases t with
      | client a =>
        refine cast (congrArg _ (funext fun b => ?_)) (hk.client hi hpre hK he)
        by_cases e : b = a
        · subst e; simp [genSide]
        · simp [e]
      | stream n => simpa using hk.stream hi he
    · cases t with
      | client a =>
        refine ⟨firstGen a job, ?_, (prog_counts S a job).mono fun l _ hl _ _ => hl⟩
        have hfirst : I w (update (fun b => l (.client b)) a (firstGen a job)) :=
          hk.task hi (hf a rfl)
        refine cast (congrArg _ (funext fun b => ?_)) hfirst
        by_cases e : b = a
        · subst e; simp
        · simp [e]
      | stream n =>
        exact ⟨{}, by simpa using hi,
          Prog.follows_of_forall (fun _ _ => trivial) (fun _ _ _ => nofun) _⟩
    · obtain rfl := Option.some.inj he
      exact hk.env hi
  obtain ⟨l, hi, hfol⟩ := hall
  exact ⟨_, hi, fun a => (hfol (.client a)).mono fun l _ hl => hl a rfl⟩

theorem counted_keeps : GenKeeps S K Counted where
  client h hpre _ he := counted_client h hpre he
  stream h he := counted_stream h he
  task h ha := counted_start h ha
  env h := counted_env h _

theorem bumping_of_thread {p : Task Unit} {l : GenPhase}
    (h : p.Follows genProtocol l fun l _ => l.bumping = false)
    (hne : ∀ k, p ≠ .act (.net .bumpGen) k) : l.bumping = false := by
  cases p with
  | ret x => exact h
  | act a k =>
    have hpre := h.1
    cases a with
    | buf | paths | cache => exact hpre
    | files op => cases op <;> first | exact hpre | exact hpre.1
    | dev op => cases op <;> exact hpre.1
    | net op => cases op <;> first | exact hpre | exact hpre.1 | exact absurd rfl (hne k)
    | accept | sys => exact hpre.elim

/-- With no connection left to count the counter has the number of the connection installed. -/
theorem Counted.all {w : World} {g : Actor → GenPhase} {p : Actor → Task Unit} (h : Counted w g)
    (hfol : ∀ a, (p a).Follows genProtocol (g a) fun l _ => l.bumping = false)
    (hne : ∀ a k, p a ≠ .act (.net .bumpGen) k) : w.net.gen + 1 = w.net.sessions := by
  have hnone : bumps g = 0 := by
    simp [bumps, bumping_of_thread (hfol _) (hne _)]
  have hcount := h.counted
  omega

end

/-! ## The stamps -/

/-- While it opens a file the connections it uses are not behind the counter. -/
structure OpenOk (w : World) (l : GenPhase) : Prop where
  call : ∃ c, w.call = some c ∧ c.cb.opens = true
  conn : ∀ {s g}, l.conn = some (s, g) → w.net.gen + l.bumping.toNat ≤ s
  asked : ∀ {q}, l.asked = some q → w.net.gen ≤ q.session
  granted : ∀ {h s g}, l.granted = some (h, s, g) → w.net.gen ≤ s

/-- No handle is stamped with a generation that came after its connection. -/
def World.StampOk (w : World) (f : OpenFile) : Prop :=
  ∃ s, f.openedGen ≤ s ∧ w.IssuedOn s f.serverHandle

structure Stamped (w : World) (g : Actor → GenPhase) : Prop extends Counted w g where
  serves : ∀ {a}, (g a).serves = true → a = .fuse
  opening : ∀ {a}, (g a).opening = true → (g a).serves = true ∧ OpenOk w (g a)
  files : ∀ {fh f}, w.files.opened fh = some f → w.StampOk f

section
variable {S : Setup} {w w' : World} {a b : Actor} {g : Actor → GenPhase} {l : GenPhase}
    {ch : Chance}

theorem World.StampOk.later {f : OpenFile} (h : w.StampOk f) (hw : w.Later w') : w'.StampOk f := by
  obtain ⟨s, hs, hi⟩ := h
  exact ⟨s, hs, hi.later hw⟩

theorem OpenOk.frame (h : OpenOk w l) (hg : w'.net.gen = w.net.gen) (hc : w'.call = w.call) :
    OpenOk w' l where
  call := by rw [hc]; exact h.call
  conn hx := by rw [hg]; exact h.conn hx
  asked hx := by rw [hg]; exact h.asked hx
  granted hx := by rw [hg]; exact h.granted hx

/-- The file entries after a step of a task: old ones, restamped ones, and a new one. -/
theorem opened_step {act : Act} {r : act.Ret} {fh : Fh} {f : OpenFile} (h : Counted w g)
    (hpre : genProtocol.pre (g a) act) (he : World.exec S (.client a) act ch w = some (r, w'))
    (hf : w'.files.opened fh = some f) :
    w.files.opened fh = some f ∨ (w'.StampOk f ∧ f.openedGen ≤ w'.net.gen) ∨
      ∃ home, act = .files (.insert fh f home) := by
  have hw := exec_later (fun hn => (h.rpcs hn).1) he
  cases act with
  | buf op => obtain ⟨x, -, rfl⟩ := exec_buf he; exact .inl hf
  | paths op => obtain ⟨t, rfl⟩ := exec_paths he; exact .inl hf
  | cache op => obtain rfl := exec_cache he; exact .inl hf
  | net op => rw [(exec_net_frame he).files] at hf; exact .inl hf
  | dev op =>
    cases op with
    | recv cb => obtain rfl := exec_recv he; exact .inl hf
    | reply x => obtain rfl := exec_reply he; exact .inl hf
  | accept | sys => exact hpre.elim
  | files op =>
    obtain ⟨x, hx, rfl⟩ := exec_files he
    cases op with
    | get | nextFh =>
      obtain ⟨-, rfl⟩ := Prod.mk.inj hx
      exact .inl hf
    | remove k =>
      obtain ⟨-, rfl⟩ := Prod.mk.inj hx
      simp only [update_apply] at hf
      split at hf
      · cases hf
      · exact .inl hf
    | restamp k handle gen =>
      obtain ⟨-, rfl⟩ := Prod.mk.inj hx
      simp only [update_apply] at hf
      split at hf
      · obtain ⟨f', -, rfl⟩ := Option.map_eq_some_iff.mp hf
        obtain ⟨s, hs⟩ := hpre.2
        obtain ⟨hle, hgen, hi⟩ := ((h.task a).later hw).granted hs
        exact .inr (.inl ⟨⟨s, hle, hi⟩, hgen⟩)
      · exact .inl hf
    | insert k file home =>
      obtain ⟨-, rfl⟩ := Prod.mk.inj hx
      simp only [update_apply] at hf
      split at hf
      · next e =>
        cases hf
        exact .inr (.inr ⟨home, by rw [e]⟩)
      · exact .inl hf

/-- A step of a task: what is left to show besides the counting. -/
theorem Stamped.step (h : Stamped w g) (hc : Counted w' (update g a l)) (hw : w.Later w')
    (hserves : l.serves = (g a).serves) (hopen : l.opening = true → l.serves = true ∧ OpenOk w' l)
    (hother : ∀ {b}, b ≠ a → (g b).serves = true → OpenOk w (g b) → OpenOk w' (g b))
    (hfiles : ∀ {fh f}, w'.files.opened fh = some f → w.files.opened fh = some f ∨ w'.StampOk f) :
    Stamped w' (update g a l) where
  toCounted := hc
  serves {b} hb := by
    by_cases e : b = a
    · subst e
      rw [update_self, hserves] at hb
      exact h.serves hb
    · rw [update_of_ne e] at hb
      exact h.serves hb
  opening {b} hb := by
    by_cases e : b = a
    · subst e
      rw [update_self] at hb ⊢
      exact hopen hb
    · rw [update_of_ne e] at hb ⊢
      obtain ⟨hs, ho⟩ := h.opening hb
      exact ⟨hs, hother e hs ho⟩
  files hf := by
    rcases hfiles hf with hf | hf
    · exact (h.files hf).later hw
    · exact hf

/-- A step that counts nothing and leaves the callback alone. -/
theorem Stamped.frame (h : Stamped w g) (hc : Counted w' (update g a l)) (hw : w.Later w')
    (hgen : w'.net.gen = w.net.gen) (hcall : w'.call = w.call) (hserves : l.serves = (g a).serves)
    (hopening : l.opening = (g a).opening) (hopen : OpenOk w (g a) → OpenOk w' l)
    (hfiles : ∀ {fh f}, w'.files.opened fh = some f → w.files.opened fh = some f ∨ w'.StampOk f) :
    Stamped w' (update g a l) := by
  refine h.step hc hw hserves (fun hb => ?_) (fun _ _ ho => ho.frame hgen hcall) hfiles
  obtain ⟨hs, ho⟩ := h.opening (hopening ▸ hb)
  exact ⟨hserves.trans hs, hopen ho⟩

theorem stamped_files {op : FileAct} {r : op.Ret} (h : Stamped w g)
    (hpre : genProtocol.pre (g a) (.files op))
    (he : World.exec S (.client a) (.files op) ch w = some (r, w')) :
    Stamped w' (update g a (genProtocol.next (g a) (.files op) r)) := by
  have hc := counted_client h.toCounted hpre he
  have hw := exec_later (fun hn => (h.rpcs hn).1) he
  obtain ⟨f, hx, rfl⟩ := exec_files he
  refine h.frame hc hw rfl rfl rfl rfl (fun ho => ho.frame rfl rfl) fun {k x} hf => ?_
  rcases opened_step h.toCounted hpre he hf with hf | ⟨hok, -⟩ | ⟨home, e⟩
  · exact .inl hf
  · exact .inr hok
  · cases e
    -- the generation was read after the answer, but nobody has counted a connection since
    obtain ⟨-, hopening, hgen, s, g', hs⟩ := hpre
    have hle := ((h.opening hopening).2).granted hs
    exact .inr ⟨s, hgen ▸ (h.task a).gen.trans hle, ((h.task a).granted hs).2.2.later hw⟩

theorem stamped_dev {op : DevAct} {r : Unit} (h : Stamped w g)
    (hpre : genProtocol.pre (g a) (.dev op))
    (he : World.exec S (.client a) (.dev op) ch w = some (r, w')) :
    Stamped w' (update g a (genProtocol.next (g a) (.dev op) r)) := by
  have hc := counted_client h.toCounted hpre he
  -- only the FUSE thread serves callbacks
  have hother : ∀ {b}, (g a).serves = true → b ≠ a → (g b).serves ≠ true :=
    fun ha hb hs => hb ((h.serves hs).trans (h.serves ha).symm)
  cases op with
  | recv cb =>
    obtain rfl := exec_recv he
    obtain ⟨-, hserves, hconn, hasked, hgranted⟩ := hpre
    refine h.step hc (.of_eq rfl rfl fun h => h) rfl
      (fun hb => ⟨hserves, ⟨_, rfl, hb⟩, fun hx => ?_, fun hx => ?_, fun hx => ?_⟩)
        (fun hb hs _ => absurd hs (hother hserves hb)) .inl
    · exact absurd (hconn.symm.trans hx) nofun
    · exact absurd (hasked.symm.trans hx) nofun
    · exact absurd (hgranted.symm.trans hx) nofun
  | reply x =>
    obtain rfl := exec_reply he
    exact h.step hc (.of_eq rfl rfl fun h => h) rfl (fun hb => by cases hb)
      (fun hb hs _ => absurd hs (hother hpre.2 hb)) .inl

theorem stamped_bumpGen {r : Unit} (h : Stamped w g) (hpre : genProtocol.pre (g a) (.net .bumpGen))
    (hK : QuietOpens.run w (.client a) (.net .bumpGen) ch)
    (he : World.exec S (.client a) (.net .bumpGen) ch w = some (r, w')) :
    Stamped w' (update g a { g a with bumping := false }) := by
  have hc := counted_client h.toCounted hpre he
  have hpre : (g a).bumping = true := hpre
  have hw := exec_later (fun hn => (h.rpcs hn).1) he
  obtain ⟨-, rfl⟩ := Prod.mk.inj (Option.some.inj he)
  refine h.step hc hw rfl (fun hb => ?_) (fun {b} e hs ho => ?_) .inl
  · obtain ⟨hs, ho⟩ := h.opening hb
    obtain ⟨hasked, hgranted⟩ := (h.task a).bumping hpre
    refine ⟨hs, ho.call, fun hx => ?_, fun hx => ?_, fun hx => ?_⟩
    · have := ho.conn hx
      rw [hpre] at this
      exact this
    · exact absurd (hasked.symm.trans hx) nofun
    · exact absurd (hgranted.symm.trans hx) nofun
  · -- the FUSE thread opens a file, and it is not the one that counts
    obtain ⟨c, hcall, hcb⟩ := ho.call
    rcases hK a rfl with rfl | hK
    · exact absurd (h.serves hs) e
    · rw [hK c hcall] at hcb
      cases hcb

theorem stamped_net {op : NetAct} {r : op.Ret} (h : Stamped w g)
    (hpre : genProtocol.pre (g a) (.net op)) (hK : QuietOpens.run w (.client a) (.net op) ch)
    (he : World.exec S (.client a) (.net op) ch w = some (r, w')) :
    Stamped w' (update g a (genProtocol.next (g a) (.net op) r)) := by
  have hc := counted_client h.toCounted hpre he
  have hw := exec_later (fun hn => (h.rpcs hn).1) he
  have hcount := h.counted
  cases op with
  | bumpGen => exact stamped_bumpGen h hpre hK he
  | loadGen =>
    obtain ⟨rfl, rfl⟩ := Prod.mk.inj (Option.some.inj he)
    exact h.frame hc hw rfl rfl rfl rfl (fun ho => ⟨ho.call, ho.conn, ho.asked, ho.granted⟩) .inl
  | nextSeq =>
    obtain ⟨-, rfl⟩ := Prod.mk.inj (Option.some.inj he)
    exact h.frame hc hw rfl rfl rfl rfl (fun ho => ho.frame rfl rfl) .inl
  | liveConn =>
    obtain ⟨rfl, rfl⟩ := Prod.mk.inj (Option.some.inj he)
    refine h.frame hc hw rfl rfl rfl rfl (fun ho => ⟨ho.call, fun hx => ?_, nofun, nofun⟩) .inl
    obtain ⟨s, hs, e⟩ := Option.map_eq_some_iff.mp hx
    obtain ⟨rfl, -⟩ := Prod.mk.inj e
    have hb : (genProtocol.next (g a) (.net .liveConn)
        (w.net.conn.filter (!w.net.closed ·))).bumping = false :=
      hpre
    rw [hb, h.live hs, Bool.toNat_false]
    omega
  | connect =>
    rcases exec_connect he with ⟨rfl, rfl⟩ | ⟨rfl, hn, -, hf, hcall⟩
    · exact h.frame hc hw rfl rfl rfl rfl (fun ho => ⟨ho.call, nofun, nofun, nofun⟩) .inl
    · refine h.frame hc hw (by rw [hn]) hcall rfl rfl
        (fun ho => ⟨by rw [hcall]; exact ho.call, fun hx => ?_, nofun, nofun⟩)
          (by rw [hf]; exact .inl)
      cases hx
      rw [hn]
      change w.net.gen + 1 ≤ w.net.sessions
      omega
  | send session request more purpose =>
    obtain ⟨hfalse, g', hconn⟩ := hpre
    rcases exec_send he with ⟨rfl, rfl⟩ | ⟨rfl, rfl⟩
    · exact h.frame hc hw rfl rfl rfl rfl (fun ho => ⟨ho.call, ho.conn, nofun, ho.granted⟩) .inl
    · refine h.frame hc hw rfl rfl rfl rfl (fun ho => ⟨ho.call, ho.conn, fun hq => ?_, ho.granted⟩)
        .inl
      obtain rfl := Option.some.inj ((sent_asked hconn).symm.trans hq)
      have := ho.conn hconn
      rw [hfalse] at this
      exact this
  | await n =>
    obtain ⟨hfalse, q, hq, rfl⟩ := hpre
    have hframe : w'.net.gen = w.net.gen ∧ w'.files = w.files ∧ w'.call = w.call := by
      obtain ⟨rpc, hn, ⟨-, rfl⟩ | ⟨resp, -, -, rfl⟩⟩ := exec_await he <;> exact ⟨rfl, rfl, rfl⟩
    obtain ⟨hgen, hfiles, hcall⟩ := hframe
    refine h.frame hc hw hgen hcall rfl rfl
      (fun ho => ⟨by rw [hcall]; exact ho.call, fun hx => ?_, fun hx => ?_,
      fun hx => ?_⟩) (by rw [hfiles]; exact .inl)
    · rw [hgen]; exact ho.conn hx
    · rw [hgen]; exact ho.asked hx
    · obtain ⟨rfl, rfl, -⟩ := (h.task a).answered hw hq he hx
      rw [hgen]
      exact ho.asked hq

theorem stamped_client {act : Act} {r : act.Ret} (h : Stamped w g)
    (hpre : genProtocol.pre (g a) act) (hK : QuietOpens.run w (.client a) act ch)
    (he : World.exec S (.client a) act ch w = some (r, w')) :
    Stamped w' (update g a (genProtocol.next (g a) act r)) := by
  have hc := counted_client h.toCounted hpre he
  have hself : OpenOk w (g a) → w'.net.gen = w.net.gen → w'.call = w.call → OpenOk w' (g a) :=
    OpenOk.frame
  cases act with
  | buf op =>
    obtain ⟨x, -, rfl⟩ := exec_buf he
    exact h.frame hc (.of_eq rfl rfl fun h => h) rfl rfl rfl rfl (hself · rfl rfl) .inl
  | paths op =>
    obtain ⟨t, rfl⟩ := exec_paths he
    exact h.frame hc (.of_eq rfl rfl fun h => h) rfl rfl rfl rfl (hself · rfl rfl) .inl
  | cache op =>
    obtain rfl := exec_cache he
    exact h.frame hc (.refl _) rfl rfl rfl rfl (hself · rfl rfl) .inl
  | files op => exact stamped_files h hpre he
  | dev op => exact stamped_dev h hpre he
  | net op => exact stamped_net h hpre hK he
  | accept | sys => exact hpre.elim

theorem Stamped.elsewhere (h : Stamped w g) (hc : Counted w' g) (hw : w.Later w')
    (hgen : w'.net.gen = w.net.gen) (hcall : w'.call = w.call) (hfiles : w'.files = w.files) :
    Stamped w' g where
  toCounted := hc
  serves := h.serves
  opening ho := ⟨(h.opening ho).1, (h.opening ho).2.frame hgen hcall⟩
  files hf := by
    rw [hfiles] at hf
    exact (h.files hf).later hw

theorem stamped_stream {n : Nat} {act : Act} {r : act.Ret} (h : Stamped w g)
    (he : World.exec S (.stream n) act ch w = some (r, w')) : Stamped w' g := by
  have hc := counted_stream h.toCounted he
  have hw := exec_later (fun hn => (h.rpcs hn).1) he
  cases act with
  | accept => obtain ⟨rpc, -, -, -, rfl⟩ := exec_accept he; exact h.elsewhere hc hw rfl rfl rfl
  | sys act => obtain ⟨host, -, rfl⟩ := exec_sys he; exact h.elsewhere hc hw rfl rfl rfl
  | _ => cases he

theorem stamped_start {job : Job} (h : Stamped w g) (ha : (g a).bumping = false) :
    Stamped w (update g a (firstGen a job)) := by
  refine ⟨counted_start h.toCounted ha, fun {b} hb => ?_, fun {b} hb => ?_, h.files⟩
  · by_cases e : b = a
    · subst e
      rw [update_self] at hb
      rcases firstGen_cases b job with e | ⟨e, -⟩
      · rw [e] at hb; cases hb
      · exact e
    · rw [update_of_ne e] at hb; exact h.serves hb
  · by_cases e : b = a
    · subst e
      rw [update_self] at hb
      rcases firstGen_cases b job with e | ⟨-, e⟩ <;> rw [e] at hb <;> cases hb
    · rw [update_of_ne e] at hb ⊢; exact h.opening hb

theorem stamped_keeps : GenKeeps S QuietOpens Stamped where
  client h hpre hK he := stamped_client h hpre hK he
  stream h he := stamped_stream h he
  task h ha := stamped_start h ha
  env {e w _} h := by
    have hc := counted_env h.toCounted e
    have hw := env_later w e
    cases e <;> exact h.elsewhere hc hw rfl rfl rfl

end

theorem stamped_init (S : Setup) (fs : Fs) (epoch : UInt32) (root : Path)
    (perHandle total window : Nat) :
    Stamped (.init S fs epoch root perHandle total window) fun _ => {} where
  toCounted := counted_init S fs epoch root perHandle total window
  serves h := by cases h
  opening h := by cases h
  files h := by cases h

/-- **The stamps are sound** in the runs in which no other task counts a connection while a file is
being opened: if no connection is uncounted, a file stamped with the current generation has a
handle of the current connection. -/
theorem stamps_sound (S : Setup) (fs : Fs) (epoch : UInt32) (root : Path)
    (perHandle total window : Nat) {c : Config Act Act.Ret World Tid}
    (h : Reach (mountMachine S).step QuietOpens.Meets
      (Config.idle (.init S fs epoch root perHandle total window)) c)
    (hcounted : ∀ a k, c.threads (.client a) ≠ .act (.net .bumpGen) k) {fh : Fh} {f : OpenFile}
    (hf : c.state.files.opened fh = some f) (hgen : f.openedGen = c.state.net.gen) :
    ∃ s, c.state.net.conn = some s ∧ c.state.IssuedOn s f.serverHandle := by
  obtain ⟨g, hg, hfol⟩ :=
    gen_sound stamped_keeps (stamped_init S fs epoch root perHandle total window) h
  have hcount := hg.all hfol hcounted
  obtain ⟨s, hs, hi⟩ := hg.files hf
  have hlt : s < c.state.net.sessions := by
    obtain ⟨n, rpc, r, hn, rfl, -⟩ := hi
    exact (hg.rpcs hn).2
  refine ⟨s, ?_, hi⟩
  rw [hg.conn]
  congr 1
  omega

def Counting : Task Unit → Prop
  | .act (.net .bumpGen) _ => True
  | _ => False

instance (p : Task Unit) : Decidable (Counting p) :=
  match p with
  | .ret _ => isFalse id
  | .act (.net .bumpGen) _ => isTrue trivial
  | .act (.net .loadGen) _ | .act (.net .nextSeq) _ | .act (.net .liveConn) _ | .act
    (.net .connect) _
  | .act (.net (.send ..)) _ | .act (.net (.await _)) _ | .act (.buf _) _ | .act (.files _) _ | .act
    (.paths _) _
  | .act (.cache _) _ | .act (.dev _) _ | .act .accept _ | .act (.sys _) _ => isFalse id

/-- `/a` is looked up over a second connection, the first having closed, and written to. -/
def reopenA : List MountLabel :=
  createA ++ .env (.close 0) :: called (.lookup 1 ['a']) 9 ++ taken 1 6 ++ acts (.client .fuse) 4 ++
    called (.write 1 0 [5]) 6 ++ taken 2 8 ++ acts (.client .fuse) 4

/-- The reopened file has a handle of the second connection. -/
theorem stamps_sound_reopened : ∃ c f, Reach (mountMachine smallSetup).step QuietOpens.Meets
      (Config.idle smallMount) c ∧ c.state.files.opened 1 = some f ∧ f.openedGen = 1 ∧
    c.state.net.conn = some 1 ∧ c.state.IssuedOn 1 f.serverHandle := by
  obtain ⟨c, hreach, hcounted, hf, hgen, hconn⟩ := Reach.of_check (mountMachine smallSetup).step
    QuietOpens.Meets
    (Config.idle smallMount) reopenA
    (fun c => (∀ a, ¬Counting (c.threads (.client a))) ∧
      (c.state.files.opened 1).map OpenFile.openedGen = some 1 ∧ c.state.net.gen = 1 ∧
      c.state.net.conn = some 1)
    (by decide +kernel)
  obtain ⟨f, hf, hone⟩ := Option.map_eq_some_iff.mp hf
  have hsound := stamps_sound smallSetup _ _ _ _ _ _ hreach
    (fun a k e => hcounted a (by rw [e]; trivial)) hf (hone.trans hgen.symm)
  obtain ⟨s, hs, hi⟩ := hsound
  obtain rfl : 1 = s := Option.some.inj (hconn.symm.trans hs)
  exact ⟨c, f, hreach, hf, hone, hconn, hi⟩

/-- While `/b` is created the background task reconnects: `register_open` stamps the handle of the
first connection with the generation of the second. -/
theorem stamped_after_open : ∃ c f, Reach (mountMachine smallSetup).step promised.Meets
      (Config.idle smallMount) c ∧ (∀ a k, c.threads (.client a) ≠ .act (.net .bumpGen) k) ∧
    c.state.files.opened 2 = some f ∧ f.openedGen = c.state.net.gen ∧ c.state.net.conn = some 1 ∧
    ¬c.state.IssuedOn 1 f.serverHandle := by
  obtain ⟨c, hreach, hcounted, hf, hconn, hissued⟩ := Reach.of_check (mountMachine smallSetup).step
    promised.Meets
    (Config.idle smallMount)
    (createA ++ called (.write 1 0 [5]) 5 ++ called (.create 1 ['b'] 0o644 2) 5 ++ taken 1 7 ++
      acts (.client .fuse) 1 ++ [.env (.close 0), .env (.tick 20)] ++ ticked 7 ++
        acts (.client .fuse) 3)
    (fun c => (∀ a, ¬Counting (c.threads (.client a))) ∧
      (c.state.files.opened 2).map OpenFile.openedGen = some c.state.net.gen ∧
      c.state.net.conn = some 1 ∧
      ∀ x ∈ c.state.host.replies, ∀ rpc ∈ c.state.net.rpcs x.1, rpc.session ≠ 1)
    (by decide +kernel)
  obtain ⟨f, hf, hgen⟩ := Option.map_eq_some_iff.mp hf
  refine ⟨c, f, hreach, fun a k e => hcounted a (by rw [e]; trivial), hf, hgen, hconn, ?_⟩
  rintro ⟨n, rpc, r, hn, hs, -, hr, -⟩
  exact hissued (n, r) hr rpc hn hs

end QuicFs.System
