import QuicFs.Client.KnownHosts
import QuicFs.Lib.Crash

/-!
# The identity files

`Identity::load_or_generate_at` of `common/src/identity.rs`: the certificate and the private key
are two files. If both are there they are loaded, and otherwise both are written anew, the
certificate first. A call can be cut off between any two of its operations on the files, and the
next call takes whatever it then finds. The pair stays a matching one, and an intact key is kept,
as long as no call finds a key without a certificate and none is cut off after it has opened the
key file for writing (`identity_pair`). Both conditions are needed (`identity_lost`).
-/

namespace QuicFs.Client

open Lib

/-! ## The files -/

inductive IdFile where
  | cert
  | key
  deriving DecidableEq, Repr

/-- What is in the two files; `none` if there is no such file. -/
structure Disk where
  cert : Option Text
  key : Option Text
  deriving DecidableEq, Repr

namespace Disk

def get (d : Disk) : IdFile → Option Text
  | .cert => d.cert
  | .key => d.key

def set (d : Disk) (f : IdFile) (text : Text) : Disk :=
  match f with
  | .cert => { d with cert := some text }
  | .key => { d with key := some text }

end Disk

inductive FileOp where
  /-- `Path::exists`. -/
  | exists (f : IdFile)
  | read (f : IdFile)
  /-- The directory of a file is made. -/
  | ensureDir (f : IdFile)
  /-- A file is opened, made if it is not there and emptied if it is. -/
  | create (f : IdFile)
  /-- The permissions of the key file are set. -/
  | restrict
  | write (f : IdFile) (text : Text)
  deriving DecidableEq, Repr

def FileOp.Res : FileOp → Type
  | .read _ => Option Text
  | _ => Bool

/-- `fails` is `none` for an operation that succeeds; one that fails has written so many
characters. A file that cannot be looked at is taken for one that is not there. -/
def FileOp.exec (op : FileOp) (fails : Option Nat) (d : Disk) : Option (op.Res × Disk) :=
  match op with
  | .exists f => some ((d.get f).isSome && fails.isNone, d)
  | .read f => some (if fails.isNone then d.get f else none, d)
  | .ensureDir _ => some (fails.isNone, d)
  | .create f => some (fails.isNone, if fails.isNone then d.set f [] else d)
  | .restrict => some (fails.isNone, d)
  | .write f text => some (fails.isNone, d.set f (fails.elim text text.take))

/-! ## The identity -/

inductive IdError where
  | read (f : IdFile)
  /-- `no CERTIFICATE block in PEM`. -/
  | noBlock
  /-- `unterminated CERTIFICATE block`. -/
  | unterminated
  /-- `base64-decode certificate`. -/
  | base64
  /-- The certificate cannot be parsed. -/
  | parse
  /-- `generate keypair`. -/
  | keypair
  /-- `build cert params`. -/
  | params
  /-- `self-sign cert`. -/
  | selfSign
  | ensureDir (f : IdFile)
  | write (f : IdFile)
  deriving DecidableEq, Repr

structure Identity where
  certPem : Text
  keyPem : Text
  fingerprint : Text
  deriving DecidableEq, Repr

/-- The keys and certificates, which other crates make and read. -/
structure Crypto extends Digests where
  /-- `STANDARD.decode` of base64. -/
  decode : Text → Option Bytes
  /-- The PEM of a new private key; the number stands for what is drawn at random. -/
  generateKey : Nat → Option Text
  /-- Whether a name can be that of a certificate. -/
  certParams : Text → Bool
  /-- The PEM of the certificate for a subject name, a common name and a private key. -/
  selfSigned : Text → Text → Text → Option Text
  /-- The public key of a private key. -/
  publicKey : Text → Option Bytes

/-- The text before the first occurrence of another and after it. -/
def splitAtText (pat : Text) : Text → Option (Text × Text)
  | [] => if pat = [] then some ([], []) else none
  | c :: s =>
    if pat.isPrefixOf (c :: s) then some ([], (c :: s).drop pat.length)
    else (splitAtText pat s).map fun (a, b) => (c :: a, b)

def beginCertificate : Text := "-----BEGIN CERTIFICATE-----".toList

def endCertificate : Text := "-----END CERTIFICATE-----".toList

def sanOf (commonName : Text) : Text :=
  if commonName.all fun c => c.isAlphanum || c = '-' || c = '.' then commonName else "quicfs".toList

namespace Crypto

variable (X : Crypto)

/-- `rustls_pemfile_first_cert`. -/
def firstCert (pem : Text) : Except IdError Bytes :=
  match splitAtText beginCertificate pem with
  | none => .error .noBlock
  | some (_, after) =>
    match splitAtText endCertificate after with
    | none => .error .unterminated
    | some (b64, _) =>
      match X.decode (splitWhitespace b64).flatten with
      | none => .error .base64
      | some der => .ok der

def fingerprintOfPem (certPem : Text) : Except IdError Text := do
  let der ← X.firstCert certPem
  match X.certFingerprint der with
  | none => throw .parse
  | some fp => return fp

/-- `Identity::generate`. -/
def generate (commonName : Text) (seed : Nat) : Except IdError Identity :=
  match X.generateKey seed with
  | none => .error .keypair
  | some keyPem =>
    if !X.certParams (sanOf commonName) then .error .params
    else
      match X.selfSigned (sanOf commonName) commonName keyPem with
      | none => .error .selfSign
      | some certPem => (X.fingerprintOfPem certPem).map fun fp => ⟨certPem, keyPem, fp⟩

/-- The certificate carries the public key of the private one. -/
def Matches (certPem keyPem : Text) : Prop :=
  ∃ der spki, X.firstCert certPem = .ok der ∧ X.spki der = some spki ∧
    X.publicKey keyPem = some spki

def Intact (keyPem : Text) : Prop := (X.publicKey keyPem).isSome

/-- What is documented of the crates. -/
structure Lawful : Prop where
  /-- A certificate that is signed with a key carries that key. -/
  signed : ∀ {seed key san cn pem}, X.generateKey seed = some key →
    X.selfSigned san cn key = some pem →
    X.Matches pem key
  /-- An empty text holds no key. -/
  publicKey_nil : X.publicKey [] = none

variable {X}

theorem matches_generate (hX : X.Lawful) {cn : Text} {seed : Nat} {id : Identity}
    (h : X.generate cn seed = .ok id) : X.Matches id.certPem id.keyPem := by
  unfold generate at h
  split at h
  · cases h
  · next key hkey =>
    split at h
    · cases h
    · split at h
      · cases h
      · next pem hpem =>
        obtain ⟨fp, -, rfl⟩ : ∃ fp, X.fingerprintOfPem pem = .ok fp ∧
            (⟨pem, key, fp⟩ : Identity) = id := by
          cases hfp : X.fingerprintOfPem pem with
          | error e => rw [hfp] at h; cases h
          | ok fp => rw [hfp] at h; exact ⟨fp, rfl, Except.ok.inj h⟩
        exact hX.signed hkey hpem

end Crypto

abbrev IdProg := Prog FileOp FileOp.Res

/-- `std::fs::write`. -/
def writeFile (f : IdFile) (text : Text) : IdProg Bool :=
  .act (.create f) fun (ok : Bool) => if ok then .act (.write f text) .ret else .ret false

/-- `write_key`: the permissions are set before a byte of the key is written. -/
def writeKey (text : Text) : IdProg Bool :=
  .act (.create .key) fun (ok : Bool) =>
    if ok then
      .act .restrict fun (ok : Bool) =>
        if ok then .act (.write .key text) .ret else .ret false
    else .ret false

/-- `cert_path.exists() && key_path.exists()`. -/
def bothExist : IdProg Bool :=
  .act (.exists .cert) fun (there : Bool) => if there then .act (.exists .key) .ret else .ret false

/-- The identity as it is in the files. -/
def loadIdentity (X : Crypto) : IdProg (Except IdError Identity) :=
  .act (.read .cert) fun (cert : Option Text) => match cert with
    | none => .ret (.error (.read .cert))
    | some certPem => .act (.read .key) fun (key : Option Text) => match key with
      | none => .ret (.error (.read .key))
      | some keyPem => .ret ((X.fingerprintOfPem certPem).map fun fp => ⟨certPem, keyPem, fp⟩)

/-- The files are written; the certificate comes first. -/
def saveIdentity (id : Identity) : IdProg (Except IdError Identity) :=
  .act (.ensureDir .cert) fun (ok : Bool) => if !ok then .ret (.error (.ensureDir .cert)) else
  .act (.ensureDir .key) fun (ok : Bool) => if !ok then .ret (.error (.ensureDir .key)) else
  (writeFile .cert id.certPem).bind fun (ok : Bool) => if !ok then .ret (.error (.write .cert)) else
  (writeKey id.keyPem).bind fun (ok : Bool) => if !ok then .ret (.error (.write .key))
    else .ret (.ok id)

/-- `Identity::load_or_generate_at`. -/
def loadOrGenerateAt (X : Crypto) (commonName : Text) (seed : Nat) :
    IdProg (Except IdError Identity) :=
  bothExist.bind fun both =>
    if both then loadIdentity X
    else
      match X.generate commonName seed with
      | .error e => .ret (.error e)
      | .ok id => saveIdentity id

/-- The calls of `load_or_generate_at`, each with its common name and what it draws at random. -/
def identityCalls (X : Crypto) :
    Service FileOp FileOp.Res Disk (Option Nat) (Text × Nat) (Except IdError Identity) where
  exec := FileOp.exec
  prog q := loadOrGenerateAt X q.1 q.2

/-! ## Calls that are not cut off in the wrong place -/

/-- The key file has been opened for writing, and the key not yet written. -/
def KeyOpened : FileOp → Prop
  | .restrict => True
  | .write .key _ => True
  | _ => False

instance : DecidablePred KeyOpened
  | .exists _ | .read _ | .ensureDir _ | .create _ | .write .cert _ =>
      inferInstanceAs (Decidable False)
  | .restrict | .write .key _ => inferInstanceAs (Decidable True)

def SeesFile (d : Disk) (op : FileOp) (fails : Option Nat) : Prop :=
  match op with
  | .exists f => (d.get f).isSome = true → fails = none
  | _ => True

instance (d : Disk) (fails : Option Nat) : ∀ op, Decidable (SeesFile d op fails)
  | .exists f => inferInstanceAs (Decidable ((d.get f).isSome = true → fails = none))
  | .read _ | .ensureDir _ | .create _ | .restrict | .write _ _ => inferInstanceAs (Decidable True)

/-- No call finds a key without a certificate, none stops after it has opened the key file for
writing, and none is told that a file is not there which is. -/
def careful : CrashCond FileOp Disk (Option Nat) (Text × Nat) where
  start d _ := d.cert = none → d.key = none
  run d op fails := (KeyOpened op → fails = none) ∧ SeesFile d op fails
  crash _ op := ¬KeyOpened op

instance : careful.Checkable where
  start d _ := inferInstanceAs (Decidable (d.cert = none → d.key = none))
  run d op fails :=
    inferInstanceAs (Decidable ((KeyOpened op → fails = none) ∧ SeesFile d op fails))
  crash _ op := inferInstanceAs (Decidable (¬KeyOpened op))

variable {X : Crypto}

/-- The certificate and the key match, if both are there. -/
def Disk.Paired (X : Crypto) (d : Disk) : Prop :=
  ∀ cert key, d.cert = some cert → d.key = some key → X.Matches cert key

def KeepsKey (X : Crypto) (d d' : Disk) : Prop :=
  ∀ key, d.key = some key → X.Intact key → d'.key = some key

theorem keepsKey_refl (d : Disk) : KeepsKey X d d := fun _ h _ => h

theorem keepsKey_of_none {d d' : Disk} (h : d.key = none) : KeepsKey X d d' :=
  fun key hk => by cases h.symm.trans hk

abbrev IdGuarded (X : Crypto) {α : Type} (p : IdProg α) (d : Disk) (P : α → Disk → Prop) : Prop :=
  p.Guarded FileOp.exec careful (Disk.Paired X) (KeepsKey X) d P

def Returned (X : Crypto) (r : Except IdError Identity) (d : Disk) : Prop :=
  d.Paired X ∧ ∀ id, r = .ok id → X.Matches id.certPem id.keyPem

theorem guarded_look {α : Type} {op : FileOp} {k : op.Res → IdProg α} {d : Disk}
    {P : α → Disk → Prop} (hd : d.Paired X) (hop : ∀ c r d', op.exec c d = some (r, d') → d' = d)
    (h : ∀ c r, SeesFile d op c → op.exec c d = some (r, d) → IdGuarded X (k r) d P) :
    IdGuarded X (.act op k) d P := by
  refine ⟨fun _ => hd, fun c r d' hc he => ?_⟩
  obtain rfl := hop c r d' he
  exact ⟨keepsKey_refl _, h c r hc.2 he⟩

theorem guarded_bothExist {d : Disk} (hd : d.Paired X) :
    IdGuarded X bothExist d fun both d' =>
      d' = d ∧ (both = true ↔ (d.get .cert).isSome = true ∧ (d.get .key).isSome = true) := by
  have hsame : ∀ {f c r d'}, (FileOp.exists f).exec c d = some (r, d') → d' = d :=
    fun he => (Prod.mk.inj (Option.some.inj he)).2.symm
  have hfound : ∀ {f c r}, SeesFile d (.exists f) c → (FileOp.exists f).exec c d = some (r, d) →
      r = (d.get f).isSome := by
    intro f c r hc he
    have hr := (Prod.mk.inj (Option.some.inj he)).1
    cases hf : (d.get f).isSome with
    | false => rw [← hr, hf, Bool.false_and]
    | true => rw [← hr, hf, hc hf]; rfl
  refine guarded_look hd (fun c r d' he => hsame he) fun c r hc he => ?_
  obtain rfl := hfound hc he
  by_cases hcert : (d.get .cert).isSome = true
  · rw [if_pos hcert]
    refine guarded_look hd (fun c r d' he => hsame he) fun c r hc he => ?_
    obtain rfl := hfound hc he
    exact ⟨rfl, by simp [hcert]⟩
  · rw [if_neg hcert]
    exact ⟨rfl, by simp [hcert]⟩

theorem guarded_loadIdentity {d : Disk} (hd : d.Paired X) :
    IdGuarded X (loadIdentity X) d (Returned X) := by
  have hread : ∀ {f c r}, (FileOp.read f).exec c d = some (r, d) → ∀ text, r = some text →
      d.get f = some text := by
    intro f c r he text ht
    have hr := (Prod.mk.inj (Option.some.inj he)).1
    rw [ht] at hr
    cases c with
    | none => exact hr
    | some n => cases hr
  have hsame : ∀ {f c r d'}, (FileOp.read f).exec c d = some (r, d') → d' = d :=
    fun he => (Prod.mk.inj (Option.some.inj he)).2.symm
  have herr : ∀ e, Returned X (.error e) d := fun e => ⟨hd, fun _ h => by cases h⟩
  refine guarded_look hd (fun c r d' he => hsame he) fun c r _ he => ?_
  cases r with
  | none => exact herr _
  | some cert =>
    have hcert := hread he cert rfl
    refine guarded_look hd (fun c r d' he => hsame he) fun c r _ he => ?_
    cases r with
    | none => exact herr _
    | some key =>
      refine ⟨hd, fun id hid => ?_⟩
      cases hfp : X.fingerprintOfPem cert with
      | error e => rw [hfp] at hid; cases hid
      | ok fp =>
        rw [hfp] at hid
        obtain rfl := Except.ok.inj hid
        exact hd cert key hcert (hread he key rfl)

theorem paired_of_none {d : Disk} (h : d.key = none) : d.Paired X :=
  fun _ key _ hk => by cases h.symm.trans hk

theorem guarded_writeFile_cert {d : Disk} (hkey : d.key = none) (text : Text) :
    IdGuarded X (writeFile .cert text) d fun ok d' => d'.key = none ∧
      (ok = true → d'.cert = some text) := by
  refine ⟨fun _ => paired_of_none hkey, fun c r d₁ _ he => ⟨keepsKey_of_none hkey, ?_⟩⟩
  obtain ⟨rfl, rfl⟩ := Prod.mk.inj (Option.some.inj he)
  cases c with
  | some n => exact ⟨hkey, nofun⟩
  | none =>
    refine ⟨fun _ => paired_of_none hkey, fun c r d₂ _ he => ⟨keepsKey_of_none hkey, ?_⟩⟩
    obtain ⟨rfl, rfl⟩ := Prod.mk.inj (Option.some.inj he)
    cases c with
    | some n => exact ⟨hkey, nofun⟩
    | none => exact ⟨hkey, fun _ => rfl⟩

/-- The key file is empty for a moment, in which there is no pair; it is not a key that is lost. -/
theorem guarded_writeKey (hX : X.Lawful) {d : Disk} {cert text : Text} (hkey : d.key = none)
    (hcert : d.cert = some cert) (hm : X.Matches cert text) :
    IdGuarded X (writeKey text) d fun _ d' => d'.Paired X := by
  refine ⟨fun _ => paired_of_none hkey, fun c r d₁ _ he => ⟨keepsKey_of_none hkey, ?_⟩⟩
  obtain ⟨rfl, rfl⟩ := Prod.mk.inj (Option.some.inj he)
  cases c with
  | some n => exact paired_of_none hkey
  | none =>
    refine ⟨fun hcrash => absurd trivial hcrash, fun c r d₂ hc he => ?_⟩
    obtain rfl := hc.1 trivial
    obtain ⟨rfl, rfl⟩ := Prod.mk.inj (Option.some.inj he)
    refine ⟨keepsKey_refl _, fun hcrash => absurd trivial hcrash, fun c r d₃ hc he => ?_⟩
    obtain rfl := hc.1 trivial
    obtain ⟨rfl, rfl⟩ := Prod.mk.inj (Option.some.inj he)
    refine ⟨fun key hk hi => ?_, fun c k hc hk => ?_⟩
    · obtain rfl : [] = key := Option.some.inj hk
      rw [Crypto.Intact, hX.publicKey_nil] at hi
      cases hi
    · obtain rfl : text = k := Option.some.inj hk
      obtain rfl := Option.some.inj (hcert.symm.trans hc)
      exact hm

theorem guarded_saveIdentity (hX : X.Lawful) {d : Disk} (hkey : d.key = none) {id : Identity}
    (hm : X.Matches id.certPem id.keyPem) : IdGuarded X (saveIdentity id) d (Returned X) := by
  have herr : ∀ {d : Disk} (e), d.Paired X → Returned X (.error e) d :=
    fun e hd => ⟨hd, fun _ h => by cases h⟩
  have hd : d.Paired X := paired_of_none hkey
  have hdir : ∀ {f c r d'}, (FileOp.ensureDir f).exec c d = some (r, d') → d' = d :=
    fun he => (Prod.mk.inj (Option.some.inj he)).2.symm
  refine guarded_look hd (fun c r d' he => hdir he) fun c r _ _ => ?_
  cases r with
  | false => exact herr _ hd
  | true =>
    refine guarded_look hd (fun c r d' he => hdir he) fun c r _ _ => ?_
    cases r with
    | false => exact herr _ hd
    | true =>
      refine Prog.Guarded.bind (guarded_writeFile_cert hkey id.certPem) fun ok d₁ h₁ => ?_
      cases ok with
      | false => exact herr _ (paired_of_none h₁.1)
      | true =>
        refine Prog.Guarded.bind (guarded_writeKey hX h₁.1 (h₁.2 rfl) hm) fun ok d₂ h₂ => ?_
        cases ok with
        | false => exact herr _ h₂
        | true => exact ⟨h₂, fun id' h' => by obtain rfl := Except.ok.inj h'; exact hm⟩

theorem guarded_loadOrGenerateAt (hX : X.Lawful) {d : Disk} (hd : d.Paired X)
    (hstart : d.cert = none → d.key = none) (commonName : Text) (seed : Nat) :
    IdGuarded X (loadOrGenerateAt X commonName seed) d (Returned X) := by
  refine Prog.Guarded.bind (guarded_bothExist hd) ?_
  rintro both d' ⟨rfl, hboth⟩
  cases both with
  | true => exact guarded_loadIdentity hd
  | false =>
    have hkey : d'.key = none := by
      cases hc : d'.cert with
      | none => exact hstart hc
      | some cert => simpa [Disk.get, hc] using hboth
    cases hg : X.generate commonName seed with
    | error e =>
      simp only [Bool.false_eq_true, if_false]
      exact ⟨hd, fun _ h => by cases h⟩
    | ok id =>
      simp only [Bool.false_eq_true, if_false]
      exact guarded_saveIdentity hX hkey (Crypto.matches_generate hX hg)

/-- **The identity stays a matching pair** through any calls and crashes that meet the conditions: a
call that succeeds returns a certificate of the private key it returns, and a key that was intact
in any state is the key in every later one. -/
theorem identity_pair (hX : X.Lawful) {d₀ : Disk} (hd₀ : d₀.Paired X)
    {p : Process FileOp FileOp.Res Disk (Except IdError Identity)}
    (h : Reach (identityCalls X).step careful.Meets ⟨d₀, none⟩ p) :
    (∀ id, p.result? = some (.ok id) → X.Matches id.certPem id.keyPem) ∧
      ∀ p', Reach (identityCalls X).step careful.Meets p p' → KeepsKey X p.state p'.state := by
  have hfinish : ∀ r d, Returned X r d → d.Paired X := fun _ _ hr => hr.1
  have hstart : ∀ d q, d.Paired X → careful.start d q →
      ((identityCalls X).prog q).Guarded (identityCalls X).exec careful (Disk.Paired X) (KeepsKey X)
        d (Returned X) :=
    fun d q hd hs => guarded_loadOrGenerateAt hX hd hs q.1 q.2
  have hp := Service.sound keepsKey_refl hfinish hstart (p := ⟨d₀, none⟩) hd₀ h
  refine ⟨fun id hid => ?_, fun p' hp' => ?_⟩
  · obtain ⟨d, call⟩ := p
    obtain rfl : call = some (.ret (.ok id)) := Process.call_of_result? hid
    exact hp.2 id rfl
  · exact Service.sound_between keepsKey_refl hfinish hstart
      (fun hT hT' key hk hi => hT' key (hT key hk hi) hi) hp hp'

/-! ## Two keys -/

/-- Two keys, with certificates that hold them as they are. -/
def twoKeys : Crypto where
  toDigests := plainDigests
  decode text := some (text.map fun c => c.toNat.toUInt8)
  generateKey seed := some (if seed = 0 then "k0".toList else "k1".toList)
  certParams _ := true
  selfSigned _ _ key := some (beginCertificate ++ key ++ endCertificate)
  publicKey key := if key = [] then none else some (key.map fun c => c.toNat.toUInt8)

theorem lawful_twoKeys : twoKeys.Lawful where
  signed := by
    intro seed key san cn pem hkey hpem
    obtain rfl := Option.some.inj hpem
    obtain rfl := Option.some.inj hkey
    split
    · exact ⟨[107, 48], [107, 48], by decide +kernel, rfl, by decide +kernel⟩
    · exact ⟨[107, 49], [107, 49], by decide +kernel, rfl, by decide +kernel⟩
  publicKey_nil := rfl

/-- A call that makes an identity, one that is cut off after it has found the files, and one that
loads them. -/
theorem identity_pair_again :
    ∃ p, Reach (identityCalls twoKeys).step careful.Meets ⟨⟨none, none⟩, none⟩ p ∧
    ∃ id, p.result? = some (.ok id) ∧ twoKeys.Matches id.certPem id.keyPem := by
  obtain ⟨p, hp, hid⟩ := Reach.of_check (identityCalls twoKeys).step careful.Meets
    ⟨⟨none, none⟩, none⟩
    (.start ("host".toList, 0) :: List.replicate 8 (.run none) ++
      [.finish, .start ("host".toList, 1), .run none, .run none, .crash,
        .start ("host".toList, 1)] ++
      List.replicate 4 (.run none))
    (fun p => p.result?.any Except.isOk = true) (by decide +kernel)
  obtain ⟨r, hr, hok⟩ := (Option.any_eq_true ..).mp hid
  cases r with
  | error e => cases hok
  | ok id =>
    exact ⟨p, hp, id, hr, (identity_pair lawful_twoKeys (paired_of_none rfl) hp).1 id hr⟩

/-- **A call that is cut off before it has written the key leaves an empty one**, which the next
call returns beside the certificate; and **a key without a certificate is replaced**. -/
theorem identity_lost :
    (∃ p, Reach (identityCalls twoKeys).step anyLabel ⟨⟨none, none⟩, none⟩ p ∧
      ∃ id, p.result? = some (.ok id) ∧ ¬twoKeys.Matches id.certPem id.keyPem) ∧
    ∃ p, Reach (identityCalls twoKeys).step anyLabel ⟨⟨none, some "k1".toList⟩, none⟩ p ∧
      twoKeys.Intact "k1".toList ∧ p.state.key = some "k0".toList := by
  constructor
  · obtain ⟨p, hp, hid⟩ := Reach.of_check (identityCalls twoKeys).step anyLabel ⟨⟨none, none⟩, none⟩
      (.start ("host".toList, 0) :: List.replicate 6 (.run none) ++
        [.crash, .start ("host".toList, 1)] ++
        List.replicate 4 (.run none))
      (fun p => (p.result?.bind Except.toOption).map Identity.keyPem = some []) (by decide +kernel)
    obtain ⟨id, hid, hkey⟩ := Option.map_eq_some_iff.mp hid
    obtain ⟨r, hr, hid⟩ := Option.bind_eq_some_iff.mp hid
    cases r with
    | error e => cases hid
    | ok id' =>
      obtain rfl := Option.some.inj hid
      refine ⟨p, hp, id', hr, ?_⟩
      rintro ⟨der, spki, -, -, hpub⟩
      rw [hkey, lawful_twoKeys.publicKey_nil] at hpub
      cases hpub
  · obtain ⟨p, hp, hkey⟩ := Reach.of_check (identityCalls twoKeys).step anyLabel
      ⟨⟨none, some "k1".toList⟩, none⟩
      (.start ("host".toList, 0) :: List.replicate 8 (.run none))
      (fun p => p.state.key = some "k0".toList) (by decide +kernel)
    exact ⟨p, hp, rfl, hkey⟩

end QuicFs.Client
