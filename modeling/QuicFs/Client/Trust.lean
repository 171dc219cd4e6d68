import QuicFs.Client.KnownHosts
import QuicFs.Lib.Prog

/-!
# Connecting to a server whose key is pinned

`ConnManager::connect` and the reconnects of `client/src/conn.rs`, with the verifier of
`client/src/verify.rs`, as programs over the calls they make. The processes of a user share
the `known_hosts` file. Each has a main task, which connects, and any number of tasks that
use the connection managers it was given and reconnect. `std::fs::write` is two calls: one
truncates the file, the other writes the text, from the start of the file, and may stop
halfway.

A manager is known by its number. `loaded`, `answer`, `outcome` and `torn` are records for
the statements: no program reads them.
-/

namespace QuicFs.Client.Trust

open Lib

inductive TofuPolicy where
  | prompt
  | acceptNew
  | strict
  deriving DecidableEq, Repr

structure MountConfig where
  hostKey : Text
  tofu : TofuPolicy
  deriving DecidableEq

inductive PinMode where
  | capture
  | enforce (fp : Text)

/-- A connection, by the certificate the server presented on it. -/
structure Connection where
  cert : Bytes
  deriving DecidableEq

/-- `verify_server_cert`: whether the certificate is accepted, and the capture sink after it. -/
def verifyServerCert (X : Digests) (mode : PinMode) (sink : Option Text) (cert : Bytes) :
    Bool × Option Text :=
  match X.certFingerprint cert with
  | none => (false, sink)
  | some fp =>
    match mode with
    | .capture => (true, some fp)
    | .enforce expected => (fp = expected, sink)

/-- `prompt_yes_no`, of the lines typed before the end of the input. -/
def promptYesNo : List Text → Bool
  | [] => false
  | line :: rest =>
    if trim line = ['y', 'e', 's'] then true
    else if trim line = ['n', 'o'] then false
    else promptYesNo rest

structure Inner where
  cfg : MountConfig
  /-- The process it belongs to. -/
  owner : Nat
  conn : Option Connection := none
  expectedFp : Option Text := none
  captureSink : Option Text := none
  /-- The text that was loaded. -/
  loaded : Option Text := none
  /-- What the user has answered. -/
  answer : Option Bool := none
  /-- What `connect` has returned. -/
  outcome : Option Bool := none
  /-- The write of its save has failed. -/
  torn : Bool := false

structure State where
  /-- The `known_hosts` file, if there is one. -/
  file : Option Text
  /-- The processes between the two calls of a save. -/
  writing : List Nat
  mgrs : Nat → Inner
  count : Nat

def State.start (file : Option Text) : State :=
  ⟨file, [], fun _ => ⟨⟨[], .strict⟩, 0, none, none, none, none, none, none, false⟩, 0⟩

def State.modify (s : State) (m : Nat) (f : Inner → Inner) : State :=
  { s with mgrs := Function.update s.mgrs m (f (s.mgrs m)) }

/-- The calls of a task. -/
inductive Act where
  | create (cfg : MountConfig)
  /-- `Path::exists`, of the `known_hosts` path. -/
  | exists
  | readToString (m : Nat)
  | setExpected (m : Nat) (fp : Option Text)
  | getExpected (m : Nat)
  /-- The QUIC and TLS handshake, with the verifier in this mode. -/
  | tls (m : Nat) (mode : PinMode)
  | takeSink (m : Nat)
  | isTerminal
  | promptYesNo (m : Nat)
  | close (conn : Connection)
  | ensureDir
  | truncate (m : Nat)
  | writeAll (m : Nat) (text : Text)
  /-- The application handshake. -/
  | handshake (m : Nat) (conn : Connection)
  | install (m : Nat) (conn : Connection)
  | returned (m : Nat) (ok : Bool)
  /-- Whether the task has been given the manager. -/
  | holds (m : Nat)
  | liveConn (m : Nat)
  /-- Any other RPC. -/
  | rpc (m : Nat) (conn : Connection)

def Act.Ret : Act → Type
  | .create _ => Nat
  | .exists | .isTerminal | .ensureDir | .truncate _ | .writeAll .. | .handshake .. | .holds _ =>
    Bool
  | .readToString _ | .getExpected _ | .takeSink _ => Option Text
  | .tls .. | .liveConn _ => Option Connection
  | .promptYesNo _ => Option Bool
  | .setExpected .. | .close _ | .install .. | .returned .. | .rpc .. => Unit

/-- What a call leaves to the outside: a failure, the certificate a server presents and whether
the handshake goes through after it, the lines that are typed, and how much of a text a write
that fails has written. -/
structure Happening where
  fault : Bool := false
  cert : Bytes := []
  through : Bool := true
  typed : Option (List Text) := some []
  written : Nat := 0

def overlay (text old : Text) : Text := text ++ old.drop text.length

/-- One call of a task of the process `p`. -/
def exec (X : Digests) (p : Nat) : (a : Act) → Happening → State → Option (a.Ret × State)
  | .create cfg, _, s =>
    some (s.count, { s with
      count := s.count + 1, mgrs := Function.update s.mgrs s.count { cfg, owner := p } })
  | .exists, c, s => some (s.file.isSome && !c.fault, s)
  | .readToString m, c, s =>
    if c.fault then some (none, s)
    else some (s.file, s.modify m fun i => { i with loaded := s.file })
  | .setExpected m fp, _, s => some ((), s.modify m fun i => { i with expectedFp := fp })
  | .getExpected m, _, s => some ((s.mgrs m).expectedFp, s)
  | .tls m mode, c, s =>
    if c.fault then some (none, s)
    else
      let (accepted, sink) := verifyServerCert X mode (s.mgrs m).captureSink c.cert
      some (if accepted && c.through then some ⟨c.cert⟩ else none,
        s.modify m fun i => { i with captureSink := sink })
  | .takeSink m, _, s =>
    some ((s.mgrs m).captureSink, s.modify m fun i => { i with captureSink := none })
  | .isTerminal, c, s => some (!c.fault, s)
  | .promptYesNo m, c, s =>
    let answer := c.typed.map Trust.promptYesNo
    some (answer, s.modify m fun i => { i with answer })
  | .close _, _, s => some ((), s)
  | .ensureDir, c, s => some (!c.fault, s)
  | .truncate _, c, s =>
    if c.fault then some (false, s)
    else some (true, { s with file := some [], writing := p :: s.writing })
  | .writeAll m text, c, s =>
    let old := s.file.getD []
    if c.fault then
      some (false, { s.modify m fun i => { i with torn := true } with
        file := some (overlay (text.take c.written) old), writing := s.writing.erase p })
    else
      some (true, { s with
        file := some (overlay text old), writing := s.writing.erase p })
  | .handshake _ _, c, s => some (!c.fault, s)
  | .install m conn, _, s => some ((), s.modify m fun i => { i with conn := some conn })
  | .returned m ok, _, s => some ((), s.modify m fun i => { i with outcome := some ok })
  | .holds m, _, s => some ((s.mgrs m).owner = p && (s.mgrs m).outcome = some true, s)
  | .liveConn m, c, s => if c.fault then some (none, s) else some ((s.mgrs m).conn, s)
  | .rpc _ _, _, s => some ((), s)

/-! ## The programs -/

abbrev Task := Prog Act Act.Ret

/-- `KnownHosts::load`. -/
def load (m : Nat) : Task (Option KnownHosts) :=
  .act .exists fun (there : Bool) =>
    if there then
      .act (.readToString m) fun (text : Option Text) => .ret (text.map KnownHosts.parse)
    else .ret (some .empty)

def modeOf : Option Text → PinMode
  | some fp => .enforce fp
  | none => .capture

def establish (m : Nat) : Task (Option Connection) :=
  .act (.getExpected m) fun (expected : Option Text) => .act (.tls m (modeOf expected)) .ret

/-- `decide_first_contact`; `none` if the answer cannot be read. -/
def decideFirstContact (m : Nat) : TofuPolicy → Task (Option Bool)
  | .strict => .ret (some false)
  | .acceptNew => .ret (some true)
  | .prompt =>
    .act .isTerminal fun (terminal : Bool) =>
      if terminal then .act (.promptYesNo m) .ret else .ret (some false)

/-- `KnownHosts::save`. -/
def save (m : Nat) (known : KnownHosts) : Task Bool :=
  .act .ensureDir fun (ok : Bool) =>
    if ok then
      .act (.truncate m) fun (ok : Bool) =>
        if ok then .act (.writeAll m known.render) .ret else .ret false
    else .ret false

def fail (m : Nat) : Task Unit := .act (.returned m false) .ret

/-- The end of `connect`, with the key proven. -/
def finish (m : Nat) (conn : Connection) : Task Unit :=
  .act (.handshake m conn) fun (ok : Bool) =>
    if ok then .act (.install m conn) fun _ => .act (.returned m true) .ret else fail m

/-- What `connect` does with a key it has captured. -/
def firstContact (m : Nat) (cfg : MountConfig) (known : KnownHosts) (conn : Connection) :
    Task Unit :=
  .act (.takeSink m) fun (captured : Option Text) =>
    match captured with
    | none => fail m
    | some captured =>
      (decideFirstContact m cfg.tofu).bind fun accepted =>
        match accepted with
        | none => fail m
        | some false => .act (.close conn) fun _ => fail m
        | some true =>
          (save m (known.insert cfg.hostKey captured)).bind fun saved =>
            if saved then .act (.setExpected m (some captured)) fun _ => finish m conn else fail m

def connect (cfg : MountConfig) : Task Unit :=
  .act (.create cfg) fun (m : Nat) =>
    (load m).bind fun known =>
      match known with
      | none => fail m
      | some known =>
        .act (.setExpected m (known.get cfg.hostKey)) fun _ =>
          (establish m).bind fun conn =>
            match conn with
            | none => fail m
            | some conn =>
              if known.get cfg.hostKey = none then firstContact m cfg known conn else finish m conn

def doConnect (m : Nat) : Task (Option Connection) :=
  (establish m).bind fun conn =>
    match conn with
    | none => .ret none
    | some conn =>
      .act (.handshake m conn) fun (ok : Bool) =>
        if ok then .act (.install m conn) fun _ => .ret (some conn) else .ret none

/-- `reconnect`, until the deadline. -/
def reconnect (m : Nat) : (attempts : Nat) → Task (Option Connection)
  | 0 => .ret none
  | attempts + 1 =>
    (doConnect m).bind fun conn =>
      match conn with
      | some conn => .ret (some conn)
      | none => reconnect m attempts

/-- `ensure_conn`. -/
def ensureConn (m attempts : Nat) : Task (Option Connection) :=
  .act (.liveConn m) fun (conn : Option Connection) =>
    match conn with
    | some conn => .ret (some conn)
    | none => reconnect m attempts

/-- An operation of a task that may have the manager `m`. -/
def operation (m attempts : Nat) : Task Unit :=
  .act (.holds m) fun (held : Bool) =>
    if held then
      (ensureConn m attempts).bind fun conn =>
        match conn with
        | some conn => .act (.rpc m conn) .ret
        | none => .ret ()
    else .ret ()

inductive Job where
  | connect (cfg : MountConfig)
  | operation (m attempts : Nat)

/-- The processes of a user: `(p, 0)` is the main task of the process `p`, and only it connects. -/
def clients (X : Digests) : Machine Act Act.Ret State (Nat × Nat) Happening Job Empty where
  exec t := exec X t.1
  env e := e.elim
  prog t job :=
    match job with
    | .connect cfg => if t.2 = 0 then connect cfg else .ret ()
    | .operation m attempts => operation m attempts

end QuicFs.Client.Trust
