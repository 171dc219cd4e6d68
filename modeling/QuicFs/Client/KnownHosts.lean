import Mathlib
import QuicFs.Client.Files

/-!
# The pinned keys

`KnownHosts` of `common/src/trust.rs`: a map from `host:port` to the fingerprint of the
server's key, kept in a text file with one line for each host. `parse` reads the text, with
comments, blank lines and lines of one word left out and the last of two lines for one host;
`render` writes it. What is parsed from what was rendered is the same map, if every host and
fingerprint is a word that a line can hold (`parse_render`).
-/

namespace QuicFs.Client

abbrev Text := List Char

/-! ## Fingerprints -/

def fingerprintTag : Text := ['S', 'H', 'A', '2', '5', '6', ':']

/-- The certificate parser, the hash and the encoding, which are other crates'. -/
structure Digests where
  /-- The `SubjectPublicKeyInfo` of a certificate. -/
  spki : Bytes → Option Bytes
  sha256 : Bytes → Bytes
  /-- `STANDARD_NO_PAD.encode`. -/
  base64 : Bytes → Text
  base64_solid : ∀ bytes, ∀ c ∈ base64 bytes, isWhiteSpace c = false

namespace Digests

variable (X : Digests)

def fingerprintOfSpki (der : Bytes) : Text := fingerprintTag ++ X.base64 (X.sha256 der)

/-- The fingerprint of the certificate's key; `none` if it is not a certificate. -/
def certFingerprint (cert : Bytes) : Option Text := (X.spki cert).map X.fingerprintOfSpki

end Digests

/-! ## Words -/

def Plain (w : Text) : Prop := w ≠ [] ∧ ∀ c ∈ w, isWhiteSpace c = false

instance (w : Text) : Decidable (Plain w) :=
  decidable_of_iff (w ≠ [] ∧ w.all (fun c => !isWhiteSpace c) = true) (by simp [Plain])

def PlainHost (w : Text) : Prop := Plain w ∧ w.head? ≠ some '#'

instance (w : Text) : Decidable (PlainHost w) := inferInstanceAs (Decidable (_ ∧ _))

/-- **A fingerprint is one word.** -/
theorem plain_certFingerprint {X : Digests} {cert : Bytes} {fp : Text}
    (h : X.certFingerprint cert = some fp) : Plain fp := by
  obtain ⟨der, -, rfl⟩ := Option.map_eq_some_iff.mp h
  have htag : fingerprintTag.all (fun c => !isWhiteSpace c) = true := by decide
  refine ⟨List.append_ne_nil_of_left_ne_nil (List.cons_ne_nil _ _) _, fun c hc => ?_⟩
  rcases List.mem_append.mp hc with hc | hc
  · simpa using List.all_eq_true.mp htag c hc
  · exact X.base64_solid _ c hc

def hex (bytes : Bytes) : Text :=
  bytes.flatMap fun b => [Nat.digitChar (b.toNat / 16), Nat.digitChar (b.toNat % 16)]

theorem isWhiteSpace_hex (bytes : Bytes) : ∀ c ∈ hex bytes, isWhiteSpace c = false := by
  intro c hc
  have hdigit : ∀ n < 16, isWhiteSpace (Nat.digitChar n) = false := by decide
  obtain ⟨b, -, hc⟩ := List.mem_flatMap.mp hc
  have hb := b.toNat_lt
  simp only [List.mem_cons, List.not_mem_nil, or_false] at hc
  rcases hc with rfl | rfl <;> exact hdigit _ (by omega)

/-- A certificate that is its key, a hash that is what it hashes, and two digits for a byte. -/
def plainDigests : Digests := ⟨some, id, hex, isWhiteSpace_hex⟩

/-! ## Lines -/

def stripCr (line : Text) : Text := if line.getLast? = some '\r' then line.dropLast else line

/-- The lines of a text, `line` being the part of the first that has been read. -/
def linesFrom (line : Text) : Text → List Text
  | [] => if line = [] then [] else [line]
  | c :: rest => if c = '\n' then stripCr line :: linesFrom [] rest else linesFrom
      (line ++ [c]) rest

/-- `str::lines`. -/
def lines (text : Text) : List Text := linesFrom [] text

def trim (text : Text) : Text := (text.dropWhile isWhiteSpace).rdropWhile isWhiteSpace

def splitWhitespace (text : Text) : List Text := (text.splitOnP isWhiteSpace).filter (· ≠ [])

theorem linesFrom_append {l : Text} (h : '\n' ∉ l) (line rest : Text) :
    linesFrom line (l ++ '\n' :: rest) = stripCr (line ++ l) :: linesFrom [] rest := by
  induction l generalizing line with
  | nil => simp [linesFrom]
  | cons c l ih =>
    rw [List.mem_cons, not_or] at h
    rw [List.cons_append, linesFrom, if_neg fun e => h.1 e.symm, ih h.2, List.append_assoc,
      List.singleton_append]

theorem lines_append {l : Text} (h : '\n' ∉ l) (rest : Text) :
    lines (l ++ '\n' :: rest) = stripCr l :: lines rest :=
  linesFrom_append h [] rest

theorem linesFrom_append_break (a : Text) : ∀ line rest : Text,
    linesFrom line (a ++ '\n' :: rest) = linesFrom line (a ++ ['\n']) ++ lines rest := by
  induction a with
  | nil => intro line rest; rfl
  | cons c a ih =>
    intro line rest
    simp only [List.cons_append, linesFrom]
    split
    · rw [ih, List.cons_append]
    · rw [ih]

theorem lines_flatMap {α : Type} (f : α → Text) {es : List α}
    (h : ∀ e ∈ es, '\n' ∉ f e ∧ stripCr (f e) = f e) :
    lines (es.flatMap fun e => f e ++ ['\n']) = es.map f := by
  induction es with
  | nil => rfl
  | cons e es ih =>
    obtain ⟨hno, hcr⟩ := h e (List.mem_cons_self ..)
    rw [List.flatMap_cons, List.append_assoc, List.singleton_append, lines_append hno, hcr,
      ih fun x hx => h x (List.mem_cons_of_mem _ hx), List.map_cons]

theorem stripCr_of_last {l : Text} (h : ∀ c, l.getLast? = some c → isWhiteSpace c = false) :
    stripCr l = l := by
  refine if_neg fun hc => ?_
  cases (h _ hc).symm.trans (by decide : isWhiteSpace '\r' = true)

theorem not_mem_of_mem_linesFrom {text : Text} :
    ∀ {line l : Text}, '\n' ∉ line → l ∈ linesFrom line text →
    '\n' ∉ l := by
  have hstrip : ∀ {line : Text}, '\n' ∉ line → '\n' ∉ stripCr line := by
    intro line h
    unfold stripCr
    split
    · exact fun hm => h (List.mem_of_mem_dropLast hm)
    · exact h
  induction text with
  | nil =>
    intro line l h hl
    unfold linesFrom at hl
    split at hl
    · cases hl
    · rwa [List.mem_singleton.mp hl]
  | cons c text ih =>
    intro line l h hl
    unfold linesFrom at hl
    split at hl
    · rcases List.mem_cons.mp hl with rfl | hl
      · exact hstrip h
      · exact ih List.not_mem_nil hl
    · next hc =>
      refine ih (fun hm => ?_) hl
      rcases List.mem_append.mp hm with hm | hm
      · exact h hm
      · exact hc (List.mem_singleton.mp hm).symm

theorem not_mem_of_mem_lines {text l : Text} (h : l ∈ lines text) : '\n' ∉ l :=
  not_mem_of_mem_linesFrom List.not_mem_nil h

theorem head_trim {text : Text} {c : Char} {l : Text} (h : trim text = c :: l) :
    isWhiteSpace c = false := by
  unfold trim at h
  obtain ⟨rest, hrest⟩ := List.rdropWhile_prefix isWhiteSpace (text.dropWhile isWhiteSpace)
  rw [h] at hrest
  have := List.head?_dropWhile_not isWhiteSpace text
  rw [← hrest] at this
  simpa using this

theorem last_trim {text : Text} {c : Char} (h : (trim text).getLast? = some c) :
    isWhiteSpace c = false := by
  have hne : trim text ≠ [] := fun hn => by rw [hn] at h; cases h
  have hlast := List.rdropWhile_last_not isWhiteSpace _ hne
  rw [List.getLast?_eq_some_getLast hne, Option.some.injEq] at h
  subst h
  exact Bool.eq_false_iff.mpr hlast

theorem trim_of_plain {l : Text} (hhead : ∀ c, l.head? = some c → isWhiteSpace c = false)
    (hlast : ∀ c, l.getLast? = some c → isWhiteSpace c = false) : trim l = l := by
  have hdrop : l.dropWhile isWhiteSpace = l := by
    cases l with
    | nil => rfl
    | cons c l => rw [List.dropWhile_cons_of_neg (by simp [hhead c rfl])]
  unfold trim
  rw [hdrop, List.rdropWhile_eq_self_iff]
  intro hl
  simpa using hlast _ (List.getLast?_eq_some_getLast hl)

theorem trim_trim (text : Text) : trim (trim text) = trim text := by
  refine trim_of_plain (fun c hc => ?_) fun c hc => last_trim hc
  obtain ⟨l, hl⟩ := List.head?_eq_some_iff.mp hc
  exact head_trim hl

theorem splitWhitespace_entry {host fp : Text} (hh : Plain host) (hf : Plain fp) :
    splitWhitespace (host ++ ' ' :: fp) = [host, fp] := by
  unfold splitWhitespace
  rw [List.splitOnP_append_cons_of_forall_mem hh.2 _ (by decide), List.splitOnP_eq_singleton hf.2]
  simp [hh.1, hf.1]

theorem isWhiteSpace_of_mem_splitOnP {l : Text} : ∀ w ∈ l.splitOnP isWhiteSpace, ∀ c ∈ w,
    isWhiteSpace c = false := by
  induction l with
  | nil =>
    intro w hw c hc
    rw [List.splitOnP_nil, List.mem_singleton] at hw
    subst hw
    cases hc
  | cons x l ih =>
    intro w hw c hc
    rw [List.splitOnP_cons_eq_if_modifyHead] at hw
    split at hw
    · rcases List.mem_cons.mp hw with rfl | hw
      · cases hc
      · exact ih w hw c hc
    · next hx =>
      obtain ⟨v, vs, hv⟩ := List.exists_cons_of_ne_nil (List.splitOnP_ne_nil isWhiteSpace l)
      rw [hv] at hw ih
      rcases List.mem_cons.mp hw with rfl | hw
      · rcases List.mem_cons.mp hc with rfl | hc
        · simpa using hx
        · exact ih v (List.mem_cons_self ..) c hc
      · exact ih w (List.mem_cons_of_mem _ hw) c hc

theorem plain_of_mem_splitWhitespace {l w : Text} (h : w ∈ splitWhitespace l) : Plain w := by
  obtain ⟨hw, hne⟩ := List.mem_filter.mp h
  exact ⟨by simpa using hne, isWhiteSpace_of_mem_splitOnP w hw⟩

theorem head?_splitWhitespace {c : Char} {l : Text} (hc : isWhiteSpace c = false) :
    ∃ w ws, splitWhitespace (c :: l) = (c :: w) :: ws := by
  obtain ⟨v, vs, hv⟩ := List.exists_cons_of_ne_nil (List.splitOnP_ne_nil isWhiteSpace l)
  refine ⟨v, vs.filter (· ≠ []), ?_⟩
  unfold splitWhitespace
  rw [List.splitOnP_cons_eq_if_modifyHead, if_neg (by simp [hc]), hv]
  rfl

/-! ## The map -/

/-- `BTreeMap::insert`. -/
def insertEntry (host fp : Text) : List (Text × Text) → List (Text × Text)
  | [] => [(host, fp)]
  | e :: es =>
    if host = e.1 then (host, fp) :: es
    else if host < e.1 then (host, fp) :: e :: es
    else e :: insertEntry host fp es

theorem mem_insertEntry {host fp : Text} {x : Text × Text} {es : List (Text × Text)}
    (h : x ∈ insertEntry host fp es) : x = (host, fp) ∨ x ∈ es := by
  induction es with
  | nil => exact .inl (List.mem_singleton.mp h)
  | cons e es ih =>
    rw [insertEntry] at h
    split at h
    · exact (List.mem_cons.mp h).imp_right (List.mem_cons_of_mem _)
    · split at h
      · exact List.mem_cons.mp h
      · rcases List.mem_cons.mp h with rfl | h
        · exact .inr (List.mem_cons_self ..)
        · exact (ih h).imp_right (List.mem_cons_of_mem _)

theorem sorted_insertEntry (host fp : Text) {es : List (Text × Text)}
    (h : es.Pairwise fun a b => a.1 < b.1) :
    (insertEntry host fp es).Pairwise fun a b => a.1 < b.1 := by
  induction es with
  | nil => exact List.pairwise_singleton ..
  | cons e es ih =>
    obtain ⟨he, hes⟩ := List.pairwise_cons.mp h
    rw [insertEntry]
    split
    · next heq => exact List.pairwise_cons.mpr ⟨fun x hx => heq ▸ he x hx, hes⟩
    · next hne =>
      split
      · next hlt =>
        refine List.pairwise_cons.mpr ⟨fun x hx => ?_, h⟩
        rcases List.mem_cons.mp hx with rfl | hx
        · exact hlt
        · exact hlt.trans (he x hx)
      · next hge =>
        refine List.pairwise_cons.mpr ⟨fun x hx => ?_, ih hes⟩
        rcases mem_insertEntry hx with rfl | hx
        · exact lt_of_le_of_ne (not_lt.mp hge) (Ne.symm hne)
        · exact he x hx

theorem lookup_cons_ite (host h f : Text) (es : List (Text × Text)) :
    ((h, f) :: es).lookup host = if host = h then some f else es.lookup host := by
  by_cases e : host = h
  · subst e
    simp
  · rw [List.lookup_cons, beq_eq_false_iff_ne.mpr e, if_neg e]

theorem lookup_insertEntry (host fp host' : Text) (es : List (Text × Text)) :
    (insertEntry host fp es).lookup host' = if host' = host then some fp else es.lookup host' := by
  induction es with
  | nil => exact lookup_cons_ite ..
  | cons x es ih =>
    obtain ⟨h, f⟩ := x
    rw [insertEntry]
    split
    · next heq =>
      obtain rfl : host = h := heq
      rw [lookup_cons_ite, lookup_cons_ite]
      split <;> rfl
    · next hne =>
      split
      · exact lookup_cons_ite ..
      · rw [lookup_cons_ite, lookup_cons_ite, ih]
        by_cases e : host' = h
        · rw [if_pos e, if_pos e, if_neg fun e' => hne (e'.symm.trans e)]
        · rw [if_neg e, if_neg e]

theorem insertEntry_of_lt {host : Text} (fp : Text) {es : List (Text × Text)}
    (h : ∀ e ∈ es, e.1 < host) : insertEntry host fp es = es ++ [(host, fp)] := by
  induction es with
  | nil => rfl
  | cons e es ih =>
    have he := h e (List.mem_cons_self ..)
    rw [insertEntry, if_neg he.ne', if_neg (not_lt.mpr he.le),
      ih fun x hx => h x (List.mem_cons_of_mem _ hx),
      List.cons_append]

theorem foldl_insertEntry (es : List (Text × Text)) : ∀ {acc : List (Text × Text)},
    ((acc ++ es).Pairwise fun a b => a.1 < b.1) →
    es.foldl (fun acc e => insertEntry e.1 e.2 acc) acc = acc ++ es := by
  induction es with
  | nil => exact fun _ => (List.append_nil _).symm
  | cons e es ih =>
    intro acc hs
    have he : insertEntry e.1 e.2 acc = acc ++ [e] :=
      insertEntry_of_lt e.2 fun x hx => (List.pairwise_append.mp hs).2.2 x hx e
        (List.mem_cons_self ..)
    rw [List.foldl_cons, he, ih (by rw [List.append_assoc]; exact hs), List.append_assoc,
      List.singleton_append]

/-- The pinned fingerprints, in the order of their hosts. -/
structure KnownHosts where
  entries : List (Text × Text)
  sorted : entries.Pairwise fun a b => a.1 < b.1

namespace KnownHosts

@[ext] theorem ext {k k' : KnownHosts} (h : k.entries = k'.entries) : k = k' := by
  cases k
  cases k'
  cases h
  rfl

def empty : KnownHosts := ⟨[], .nil⟩

def get (k : KnownHosts) (host : Text) : Option Text := k.entries.lookup host

def insert (k : KnownHosts) (host fp : Text) : KnownHosts :=
  ⟨insertEntry host fp k.entries, sorted_insertEntry host fp k.sorted⟩

def addLine (k : KnownHosts) (line : Text) : KnownHosts :=
  let line := trim line
  if line = [] ∨ line.head? = some '#' then k
  else
    match splitWhitespace line with
    | host :: fp :: _ => k.insert host fp
    | _ => k

/-- `KnownHosts::load`, of the text of the file. -/
def parse (text : Text) : KnownHosts := (lines text).foldl addLine empty

/-- `KnownHosts::load`; there may be no file. -/
def ofFile : Option Text → KnownHosts
  | none => empty
  | some text => parse text

def header : Text := "# QuicFS known hosts - managed by quicfs, edit with care".toList

/-- The text that `KnownHosts::save` writes. -/
def render (k : KnownHosts) : Text :=
  header ++ '\n' :: k.entries.flatMap fun e => e.1 ++ ' ' :: (e.2 ++ ['\n'])

@[simp] theorem get_empty (host : Text) : empty.get host = none := rfl

theorem get_insert (k : KnownHosts) (host fp host' : Text) :
    (k.insert host fp).get host' = if host' = host then some fp else k.get host' :=
  lookup_insertEntry host fp host' k.entries

theorem get_insert_of_get {k : KnownHosts} {host fp host' fp' : Text} (hnew : k.get host = none)
    (h : k.get host' = some fp') : (k.insert host fp).get host' = some fp' := by
  rw [get_insert, if_neg]
  · exact h
  · rintro rfl
    cases hnew.symm.trans h

def Writable (k : KnownHosts) : Prop := ∀ e ∈ k.entries, PlainHost e.1 ∧ Plain e.2

theorem Writable.insert {k : KnownHosts} (h : k.Writable) {host fp : Text} (hh : PlainHost host)
    (hf : Plain fp) : (k.insert host fp).Writable := by
  intro e he
  rcases mem_insertEntry he with rfl | he
  · exact ⟨hh, hf⟩
  · exact h e he

theorem Writable.addLine {k : KnownHosts} (h : k.Writable) (line : Text) :
    (k.addLine line).Writable := by
  unfold KnownHosts.addLine
  generalize hl : trim line = l
  dsimp only
  split
  · exact h
  · next hne =>
    rw [not_or] at hne
    split
    · next host fp rest hs =>
      have hmem : ∀ w ∈ [host, fp], w ∈ splitWhitespace l := fun w hw => by
        rw [hs]
        exact List.mem_append_left rest hw
      refine h.insert ⟨plain_of_mem_splitWhitespace (hmem host (by simp)), ?_⟩
        (plain_of_mem_splitWhitespace (hmem fp (by simp)))
      -- the line begins with its first word
      obtain ⟨c, w, rfl⟩ := List.exists_cons_of_ne_nil hne.1
      obtain ⟨v, vs, hv⟩ := head?_splitWhitespace (l := w) (head_trim hl)
      obtain ⟨rfl, -⟩ := List.cons.inj (hs.symm.trans hv)
      exact hne.2
    · exact h

/-- **What is read can be written.** -/
theorem writable_parse (text : Text) : (parse text).Writable := by
  unfold parse
  have hfold : ∀ (ls : List Text) (k : KnownHosts), k.Writable →
      (ls.foldl KnownHosts.addLine k).Writable := by
    intro ls
    induction ls with
    | nil => exact fun k h => h
    | cons l ls ih => exact fun k h => ih _ (h.addLine l)
  exact hfold _ _ fun e he => by cases he

theorem writable_ofFile (file : Option Text) : (ofFile file).Writable := by
  cases file with
  | none => exact fun e he => by cases he
  | some text => exact writable_parse text

theorem addLine_header (k : KnownHosts) : k.addLine header = k := by
  have : trim header ≠ [] ∧ (trim header).head? = some '#' := by decide +kernel
  simp [KnownHosts.addLine, this.2]

theorem addLine_entry (k : KnownHosts) {host fp : Text} (hh : PlainHost host) (hf : Plain fp) :
    k.addLine (host ++ ' ' :: fp) = k.insert host fp := by
  obtain ⟨c, w, rfl⟩ := List.exists_cons_of_ne_nil hh.1.1
  have htrim : trim (c :: w ++ ' ' :: fp) = c :: w ++ ' ' :: fp := by
    refine trim_of_plain (fun x hx => ?_) fun x hx => ?_
    · obtain rfl : c = x := by simpa using hx
      exact hh.1.2 c (List.mem_cons_self ..)
    · rw [List.getLast?_append_of_ne_nil _ (List.cons_ne_nil _ _),
        List.getLast?_cons_of_ne_nil hf.1] at hx
      exact hf.2 x (List.mem_of_getLast? hx)
  have hhash : c ≠ '#' := fun e => hh.2 (by rw [e]; rfl)
  unfold KnownHosts.addLine
  rw [htrim]
  simp only [splitWhitespace_entry hh.1 hf]
  rw [if_neg]
  simp [hhash]

theorem lines_entries (es : List (Text × Text)) (h : ∀ e ∈ es, PlainHost e.1 ∧ Plain e.2) :
    lines (es.flatMap fun e => e.1 ++ ' ' :: (e.2 ++ ['\n'])) =
      es.map fun e => e.1 ++ ' ' :: e.2 := by
  have hline : ∀ e ∈ es, '\n' ∉ e.1 ++ ' ' :: e.2 ∧ stripCr (e.1 ++ ' ' :: e.2) = e.1 ++
      ' ' :: e.2 := by
    intro e he
    obtain ⟨hh, hf⟩ := h e he
    refine ⟨fun hc => ?_, stripCr_of_last fun c hc => ?_⟩
    · rcases List.mem_append.mp hc with hc | hc
      · cases (hh.1.2 _ hc).symm.trans (by decide : isWhiteSpace '\n' = true)
      · rcases List.mem_cons.mp hc with hc | hc
        · cases hc
        · cases (hf.2 _ hc).symm.trans (by decide : isWhiteSpace '\n' = true)
    · rw [List.getLast?_append_of_ne_nil _ (List.cons_ne_nil _ _),
        List.getLast?_cons_of_ne_nil hf.1] at hc
      exact hf.2 c (List.mem_of_getLast? hc)
  have := lines_flatMap (fun e : Text × Text => e.1 ++ ' ' :: e.2) hline
  simpa only [List.append_assoc, List.cons_append] using this

theorem entries_foldl_insert (es : List (Text × Text)) (k : KnownHosts)
    (h : (k.entries ++ es).Pairwise fun a b => a.1 < b.1) :
    (es.foldl (fun k e => k.insert e.1 e.2) k).entries = k.entries ++ es :=
  (List.foldl_hom KnownHosts.entries fun _ _ => rfl).symm.trans (foldl_insertEntry es h)

/-- **What was saved is what is loaded.** -/
theorem parse_render {k : KnownHosts} (h : k.Writable) : parse k.render = k := by
  have hheader : '\n' ∉ header ∧ stripCr header = header := by decide +kernel
  have hfold : ∀ (es : List (Text × Text)) (acc : KnownHosts),
      (∀ e ∈ es, PlainHost e.1 ∧ Plain e.2) →
      (es.map fun e => e.1 ++ ' ' :: e.2).foldl KnownHosts.addLine acc =
        es.foldl (fun k e => k.insert e.1 e.2) acc := by
    intro es
    induction es with
    | nil => exact fun _ _ => rfl
    | cons e es ih =>
      intro acc hes
      obtain ⟨hh, hf⟩ := hes e (List.mem_cons_self ..)
      rw [List.map_cons, List.foldl_cons, List.foldl_cons, addLine_entry acc hh hf,
        ih _ fun x hx => hes x (List.mem_cons_of_mem _ hx)]
  unfold parse render
  rw [lines_append hheader.1, hheader.2, lines_entries k.entries h, List.foldl_cons, addLine_header,
    hfold k.entries empty h]
  exact ext (entries_foldl_insert k.entries empty k.sorted)

end KnownHosts

end QuicFs.Client
