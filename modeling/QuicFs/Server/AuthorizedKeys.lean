import QuicFs.Client.KnownHosts
import QuicFs.Server.Sanitize

/-!
# The authorized keys

`AuthorizedKeys` of `common/src/trust.rs`, a map from the fingerprints of the permitted keys to
comments, kept in a text file with one line for each key, and the command that adds one.
A line names one key at most (`lineKey`), and the keys of a file are those of its lines
(`contains_parse`). What `authorize` writes is taken apart line by line
(`contains_parse_render`), so a comment of several lines, or a fingerprint of several words, is
read back as something else (`authorize_exact_iff`). A map that was read from a file is read back
as it was (`parse_render`, `trust_files_stable`).
-/

namespace QuicFs.Server

open Client

inductive TrustError where
  /-- `not a valid SHA256 fingerprint`. -/
  | invalidFingerprint (s : Text)
  deriving DecidableEq, Repr

/-- `parse_fingerprint`. -/
def parseFingerprint (s : Text) : Except TrustError Text :=
  let s := trim s
  if !fingerprintTag.isPrefixOf s || decide (utf8Len s < utf8Len fingerprintTag + 10) then
    .error (.invalidFingerprint s)
  else .ok s

/-- The permitted fingerprints with their comments, in order. -/
structure AuthorizedKeys where
  fingerprints : List (Text × Text)
  sorted : fingerprints.Pairwise fun a b => a.1 < b.1

/-- The fingerprint and the comment of a line. -/
def lineEntry (line : Text) : Option (Text × Text) :=
  let line := trim line
  if line = [] ∨ line.head? = some '#' then none
  else
    some (line.takeWhile (!isWhiteSpace ·), trim ((line.dropWhile (!isWhiteSpace ·)).drop 1))

def lineKey (line : Text) : Option Text := (lineEntry line).map Prod.fst

def keyLine (e : Text × Text) : Text := e.1 ++ if e.2 = [] then [] else ' ' :: e.2

namespace AuthorizedKeys

theorem sorted_nil : ([] : List (Text × Text)).Pairwise fun a b => a.1 < b.1 := .nil

def empty : AuthorizedKeys := ⟨[], sorted_nil⟩

def contains (k : AuthorizedKeys) (fp : Text) : Bool := (k.fingerprints.lookup fp).isSome

def insert (k : AuthorizedKeys) (fp comment : Text) : AuthorizedKeys :=
  ⟨insertEntry fp comment k.fingerprints, sorted_insertEntry fp comment k.sorted⟩

def addLine (k : AuthorizedKeys) (line : Text) : AuthorizedKeys :=
  match lineEntry line with
  | none => k
  | some (fp, comment) => k.insert fp comment

/-- `AuthorizedKeys::load`, of the text of the file. -/
def parse (text : Text) : AuthorizedKeys := (lines text).foldl addLine empty

/-- `AuthorizedKeys::load`; there may be no file. -/
def ofFile : Option Text → AuthorizedKeys
  | none => empty
  | some text => parse text

def header : Text := "# QuicFS authorized client keys".toList

/-- The text that `AuthorizedKeys::save` writes. -/
def render (k : AuthorizedKeys) : Text :=
  header ++ '\n' :: k.fingerprints.flatMap fun e => keyLine e ++ ['\n']

end AuthorizedKeys

/-- `cmd_authorize`: the text of the file after it, given the text before. -/
def cmdAuthorize (file : Option Text) (fingerprint comment : Text) : Except TrustError Text :=
  (parseFingerprint fingerprint).map fun fp =>
    ((AuthorizedKeys.ofFile file).insert fp comment).render

/-! ## Lines -/

def laterLines : Text → List Text
  | [] => []
  | c :: s => if c = '\n' then lines (s ++ ['\n']) else laterLines s

theorem linesFrom_comment (s : Text) : ∀ line : Text, linesFrom line (s ++ ['\n']) =
    stripCr (line ++ s.takeWhile (· ≠ '\n')) :: laterLines s := by
  induction s with
  | nil => intro line; simp [linesFrom, laterLines]
  | cons c s ih =>
    intro line
    rw [List.cons_append, linesFrom, laterLines]
    split
    · next hc => simp [hc, lines]
    · next hc => rw [ih, List.takeWhile_cons_of_pos (by simpa using hc)]; simp

theorem isWhiteSpace_of_mem_takeWhile {l : Text} :
    ∀ c ∈ l.takeWhile (!isWhiteSpace ·), isWhiteSpace c = false := by
  intro c hc
  simpa using List.mem_takeWhile_imp hc

theorem plain_lineKey {line fp : Text} (h : lineKey line = some fp) : PlainHost fp := by
  obtain ⟨e, he, rfl⟩ := Option.map_eq_some_iff.mp h
  unfold lineEntry at he
  dsimp only at he
  split at he
  · cases he
  · next hne =>
    obtain rfl := Option.some.inj he
    rw [not_or] at hne
    obtain ⟨c, w, hw⟩ := List.exists_cons_of_ne_nil hne.1
    have hc := head_trim hw
    have hhead : (trim line).takeWhile (!isWhiteSpace ·) = c :: w.takeWhile (!isWhiteSpace ·) := by
      rw [hw, List.takeWhile_cons_of_pos (by simp [hc])]
    refine ⟨⟨by simp [hhead], isWhiteSpace_of_mem_takeWhile⟩, ?_⟩
    rw [hw] at hne
    simpa [hhead] using hne.2

theorem lineKey_append {fp s : Text} (hfp : PlainHost fp)
    (hs : ∀ c, s.head? = some c → isWhiteSpace c = true) : lineKey (fp ++ s) = some fp := by
  obtain ⟨⟨hne, hplain⟩, hhash⟩ := hfp
  have htrim : trim (fp ++ s) = fp ++ s.rdropWhile isWhiteSpace := by
    obtain ⟨c, w, rfl⟩ := List.exists_cons_of_ne_nil hne
    have hc := hplain c (List.mem_cons_self ..)
    have hlast : (c :: w).reverse.dropWhile isWhiteSpace = (c :: w).reverse := by
      obtain ⟨x, xs, hx⟩ := List.exists_cons_of_ne_nil (show (c :: w).reverse ≠ [] by simp)
      have hmem : x ∈ c :: w := List.mem_reverse.mp (hx ▸ List.mem_cons_self ..)
      rw [hx, List.dropWhile_cons_of_neg (by simp [hplain x hmem])]
    unfold trim List.rdropWhile
    rw [List.cons_append, List.dropWhile_cons_of_neg (by simp [hc]), ← List.cons_append,
      List.reverse_append, List.dropWhile_append]
    split
    · next hem => rw [hlast, List.isEmpty_iff.mp hem]; simp
    · rw [List.reverse_append, List.reverse_reverse]
  -- what is left behind the word is empty or goes on with the blank
  have hrest : (s.rdropWhile isWhiteSpace).takeWhile (!isWhiteSpace ·) = [] := by
    obtain ⟨t, ht⟩ := List.rdropWhile_prefix isWhiteSpace s
    cases hr : s.rdropWhile isWhiteSpace with
    | nil => rfl
    | cons c r =>
      rw [hr] at ht
      have hc := hs c (by rw [← ht]; rfl)
      rw [List.takeWhile_cons_of_neg (by simp [hc])]
  have hword : (fp ++ s.rdropWhile isWhiteSpace).takeWhile (!isWhiteSpace ·) = fp := by
    rw [List.takeWhile_append_of_pos (by simpa using hplain), hrest, List.append_nil]
  unfold lineKey lineEntry
  simp only [htrim]
  rw [if_neg, Option.map_some, hword]
  rw [not_or]
  refine ⟨List.append_ne_nil_of_left_ne_nil hne _, ?_⟩
  rwa [List.head?_append_of_ne_nil _ hne]

theorem isPrefix_stripCr (l : Text) : stripCr l <+: l := by
  unfold stripCr
  split
  · exact List.dropLast_prefix l
  · exact List.prefix_rfl

theorem head?_of_isPrefix {l l' : Text} {c : Char} (h : l <+: l') (hc : l.head? = some c) :
    l'.head? = some c := by
  obtain ⟨t, rfl⟩ := h
  rw [List.head?_append, hc, Option.some_or]

theorem stripCr_append {fp s : Text} (hfp : Plain fp) : stripCr (fp ++ s) = fp ++ stripCr s := by
  unfold stripCr
  cases s with
  | nil =>
    rw [List.append_nil, if_neg, if_neg (by simp), List.append_nil]
    intro hcr
    cases (hfp.2 _ (List.mem_of_getLast? hcr)).symm.trans (by decide : isWhiteSpace '\r' = true)
  | cons c s =>
    rw [List.getLast?_append_of_ne_nil _ (List.cons_ne_nil c s)]
    split
    · rw [List.dropLast_append_of_ne_nil (List.cons_ne_nil c s)]
    · rfl

/-- The keys in the line of an entry: its own, and those of the later lines of the comment. -/
theorem mem_lineKeys_keyLine {fp comment x : Text} (hfp : PlainHost fp) :
    (∃ l ∈ lines (keyLine (fp, comment) ++ ['\n']), lineKey l = some x) ↔
      x = fp ∨ ∃ l ∈ laterLines comment, lineKey l = some x := by
  have hno : ∀ c ∈ fp, c ≠ '\n' := by
    rintro c hc rfl
    cases (hfp.1.2 _ hc).symm.trans (by decide : isWhiteSpace '\n' = true)
  -- the first line: the key, and of the comment what is before its first break
  have hsplit : ∀ s : Text, (∀ c, s.head? = some c → isWhiteSpace c = true) →
      ((∃ l ∈ lines ((fp ++ s) ++ ['\n']), lineKey l = some x) ↔
        x = fp ∨ ∃ l ∈ laterLines (fp ++ s), lineKey l = some x) := by
    intro s hs
    have hfirst : lineKey (stripCr ([] ++ (fp ++ s).takeWhile (· ≠ '\n'))) = some fp := by
      rw [List.nil_append, List.takeWhile_append_of_pos (by simpa using hno), stripCr_append hfp.1]
      refine lineKey_append hfp fun c hc => hs c ?_
      exact head?_of_isPrefix (List.takeWhile_prefix _) (head?_of_isPrefix (isPrefix_stripCr _) hc)
    rw [lines, linesFrom_comment]
    simp only [List.mem_cons, exists_eq_or_imp, hfirst, Option.some.injEq]
    exact or_congr_left eq_comm
  have hlater : ∀ s : Text, laterLines (fp ++ s) = laterLines s := by
    intro s
    clear hsplit hfp
    induction fp with
    | nil => rfl
    | cons c fp ih =>
      rw [List.cons_append, laterLines, if_neg (hno c (List.mem_cons_self ..)),
        ih fun d hd => hno d (List.mem_cons_of_mem _ hd)]
  unfold keyLine
  by_cases hc : comment = []
  · subst hc
    rw [if_pos rfl, hsplit [] (by simp), hlater]
  · rw [if_neg hc, hsplit _ (by simp; decide), hlater, laterLines, if_neg (by decide)]

namespace AuthorizedKeys

variable {k : AuthorizedKeys} {fp x : Text}

theorem contains_insert (k : AuthorizedKeys) (fp comment x : Text) :
    (k.insert fp comment).contains x = true ↔ x = fp ∨ k.contains x = true := by
  unfold contains insert
  rw [lookup_insertEntry]
  split
  · next h => simp [h]
  · next h => simp [h]

theorem contains_addLine (k : AuthorizedKeys) (line x : Text) :
    (k.addLine line).contains x = true ↔ lineKey line = some x ∨ k.contains x = true := by
  unfold addLine lineKey
  cases lineEntry line with
  | none => simp
  | some e =>
    rw [contains_insert, Option.map_some, Option.some.injEq]
    exact or_congr_left eq_comm

theorem contains_foldl (ls : List Text) :
    ∀ k : AuthorizedKeys, (ls.foldl addLine k).contains x = true ↔
    (∃ l ∈ ls, lineKey l = some x) ∨ k.contains x = true := by
  induction ls with
  | nil => simp
  | cons l ls ih =>
    intro k
    rw [List.foldl_cons, ih, contains_addLine]
    simp only [List.mem_cons, exists_eq_or_imp]
    rw [or_assoc, or_left_comm]

/-- **The keys of a file are those of its lines.** -/
theorem contains_parse (text x : Text) :
    (parse text).contains x = true ↔ ∃ l ∈ lines text, lineKey l = some x := by
  rw [parse, contains_foldl]
  simp [contains, empty]

theorem contains_iff_mem : k.contains x = true ↔ ∃ c, (x, c) ∈ k.fingerprints := by
  unfold contains
  rw [Option.isSome_iff_exists]
  constructor
  · rintro ⟨c, hc⟩
    obtain ⟨l₁, l₂, he, -⟩ := List.lookup_eq_some_iff.mp hc
    exact ⟨c, by simp [he]⟩
  · rintro ⟨c, hc⟩
    cases hl : k.fingerprints.lookup x with
    | some c' => exact ⟨c', rfl⟩
    | none =>
      have := List.lookup_eq_none_iff.mp hl (x, c) hc
      simp at this

theorem contains_parse_render (k : AuthorizedKeys) (x : Text) : (parse k.render).contains x = true ↔
    ∃ e ∈ k.fingerprints, ∃ l ∈ lines (keyLine e ++ ['\n']), lineKey l = some x := by
  have hheader : '\n' ∉ header ∧ lineKey (stripCr header) = none := by decide +kernel
  have hlines : ∀ es : List (Text × Text), lines (es.flatMap fun e => keyLine e ++ ['\n']) =
      es.flatMap fun e => lines (keyLine e ++ ['\n']) := by
    intro es
    induction es with
    | nil => rfl
    | cons e es ih =>
      rw [List.flatMap_cons, List.append_assoc, List.singleton_append, lines,
        linesFrom_append_break,
        List.flatMap_cons, ← ih]
      rfl
  rw [contains_parse, render, lines_append hheader.1, hlines]
  simp only [List.mem_cons, exists_eq_or_imp, hheader.2, reduceCtorEq, false_or, List.mem_flatMap]
  constructor
  · rintro ⟨l, ⟨e, he, hl⟩, hk⟩
    exact ⟨e, he, l, hl, hk⟩
  · rintro ⟨e, he, l, hl, hk⟩
    exact ⟨l, ⟨e, he, hl⟩, hk⟩

def Writable (k : AuthorizedKeys) : Prop := ∀ e ∈ k.fingerprints, PlainHost e.1 ∧ '\n' ∉ e.2

theorem forall_parse {P : Text × Text → Prop}
    (h : ∀ line e, '\n' ∉ line → lineEntry line = some e → P e) (text : Text) :
    ∀ e ∈ (parse text).fingerprints, P e := by
  have hfold : ∀ (ls : List Text) (k : AuthorizedKeys), (∀ l ∈ ls, '\n' ∉ l) →
      (∀ e ∈ k.fingerprints, P e) →
      ∀ e ∈ (ls.foldl addLine k).fingerprints, P e := by
    intro ls
    induction ls with
    | nil => exact fun k _ hk => hk
    | cons l ls ih =>
      intro k hls hk
      refine ih _ (fun l hl => hls l (List.mem_cons_of_mem _ hl)) ?_
      unfold addLine
      cases he : lineEntry l with
      | none => exact hk
      | some e =>
        intro y hy
        rcases mem_insertEntry hy with rfl | hy
        · exact h l _ (hls l (List.mem_cons_self ..)) he
        · exact hk y hy
  exact hfold _ _ (fun l hl => not_mem_of_mem_lines hl) fun e he => by cases he

theorem writable_parse (text : Text) : (parse text).Writable := by
  refine forall_parse (fun line e hline he => ?_) text
  have hkey : lineKey line = some e.1 := by rw [lineKey, he, Option.map_some]
  refine ⟨plain_lineKey hkey, fun hm => hline ?_⟩
  unfold lineEntry at he
  dsimp only at he
  split at he
  · cases he
  · obtain rfl := Option.some.inj he
    -- the comment is a part of the line
    have hsub : ∀ {t : Text}, '\n' ∈ trim t → '\n' ∈ t := fun ht =>
      List.dropWhile_subset _ ((List.rdropWhile_prefix ..).subset ht)
    exact hsub (List.dropWhile_subset _ (List.mem_of_mem_drop (hsub hm)))

theorem trimmed_parse (text : Text) : ∀ e ∈ (parse text).fingerprints, trim e.2 = e.2 := by
  refine forall_parse (fun line e _ he => ?_) text
  unfold lineEntry at he
  dsimp only at he
  split at he
  · cases he
  · obtain rfl := Option.some.inj he
    exact trim_trim _

theorem writable_ofFile (file : Option Text) : (ofFile file).Writable := by
  cases file with
  | none => exact fun e he => by cases he
  | some text => exact writable_parse text

@[ext] theorem ext {k k' : AuthorizedKeys} (h : k.fingerprints = k'.fingerprints) : k = k' := by
  cases k
  cases k'
  cases h
  rfl

theorem ends_keyLine {e : Text × Text} (hfp : PlainHost e.1) (ht : trim e.2 = e.2) :
    (∀ c, (keyLine e).head? = some c → isWhiteSpace c = false) ∧
      ∀ c, (keyLine e).getLast? = some c → isWhiteSpace c = false := by
  unfold keyLine
  refine ⟨fun c hc => ?_, fun c hc => ?_⟩
  · rw [List.head?_append_of_ne_nil _ hfp.1.1] at hc
    exact hfp.1.2 c (List.mem_of_head? hc)
  · split at hc
    · rw [List.append_nil] at hc
      exact hfp.1.2 c (List.mem_of_getLast? hc)
    · next hne =>
      rw [List.getLast?_append_of_ne_nil _ (List.cons_ne_nil _ _), List.getLast?_cons_of_ne_nil hne]
        at hc
      exact last_trim (ht.symm ▸ hc)

theorem lineEntry_keyLine {e : Text × Text} (hfp : PlainHost e.1) (ht : trim e.2 = e.2) :
    lineEntry (keyLine e) = some e := by
  have htrim : trim (keyLine e) = keyLine e := trim_of_plain (ends_keyLine hfp ht).1
    (ends_keyLine hfp ht).2
  have hplain : ∀ c ∈ e.1, (!isWhiteSpace c) = true := fun c hc => by simp [hfp.1.2 c hc]
  have hblank : isWhiteSpace ' ' = true := by decide
  have hparts : (keyLine e).takeWhile (!isWhiteSpace ·) = e.1 ∧
      trim (((keyLine e).dropWhile (!isWhiteSpace ·)).drop 1) = e.2 := by
    unfold keyLine
    rw [List.takeWhile_append_of_pos hplain, List.dropWhile_append_of_pos hplain]
    by_cases hc : e.2 = []
    · rw [if_pos hc, hc]
      exact ⟨List.append_nil _, rfl⟩
    · rw [if_neg hc, List.takeWhile_cons_of_neg (by simp [hblank]),
        List.dropWhile_cons_of_neg (by simp [hblank])]
      exact ⟨List.append_nil _, ht⟩
  unfold lineEntry
  dsimp only
  rw [htrim, if_neg, hparts.1, hparts.2]
  rw [not_or]
  unfold keyLine
  refine ⟨List.append_ne_nil_of_left_ne_nil hfp.1.1 _, ?_⟩
  rw [List.head?_append_of_ne_nil _ hfp.1.1]
  exact hfp.2

/-- **What was saved is what is loaded.** -/
theorem parse_render (hw : k.Writable) (ht : ∀ e ∈ k.fingerprints, trim e.2 = e.2) :
    parse k.render = k := by
  have hheader : '\n' ∉ header ∧ lineEntry (stripCr header) = none := by decide +kernel
  have hlines : lines (k.fingerprints.flatMap fun e => keyLine e ++ ['\n']) =
      k.fingerprints.map keyLine := by
    refine lines_flatMap keyLine fun e he =>
      ⟨fun hm => ?_, stripCr_of_last (ends_keyLine (hw e he).1 (ht e he)).2⟩
    unfold keyLine at hm
    rcases List.mem_append.mp hm with hm | hm
    · cases ((hw e he).1.1.2 _ hm).symm.trans (by decide : isWhiteSpace '\n' = true)
    · split at hm
      · cases hm
      · exact (List.mem_cons.mp hm).elim (by decide) (hw e he).2
  have hfold : ∀ (es : List (Text × Text)) (acc : AuthorizedKeys),
      (∀ e ∈ es, lineEntry (keyLine e) = some e) →
      ((es.map keyLine).foldl addLine acc).fingerprints =
        es.foldl (fun acc e => insertEntry e.1 e.2 acc) acc.fingerprints := by
    intro es
    induction es with
    | nil => exact fun _ _ => rfl
    | cons e es ih =>
      intro acc hes
      have hadd : acc.addLine (keyLine e) = acc.insert e.1 e.2 := by
        rw [addLine, hes e (List.mem_cons_self ..)]
      rw [List.map_cons, List.foldl_cons, hadd, ih _ fun x hx => hes x (List.mem_cons_of_mem _ hx)]
      rfl
  refine ext ?_
  have hskip : empty.addLine (stripCr header) = empty := by rw [addLine, hheader.2]
  rw [parse, render, lines_append hheader.1, hlines, List.foldl_cons, hskip,
    hfold _ _ fun e he => lineEntry_keyLine (hw e he).1 (ht e he),
    foldl_insertEntry _ (by simpa [empty] using k.sorted)]
  rfl

end AuthorizedKeys

/-- **The trust files are stable**: a file that is loaded and saved is loaded as the same map again,
and a pinned host is the only change to what is loaded after it was saved. -/
theorem trust_files_stable :
    (∀ text, KnownHosts.parse (KnownHosts.parse text).render = KnownHosts.parse text) ∧
    (∀ text, AuthorizedKeys.parse (AuthorizedKeys.parse text).render = AuthorizedKeys.parse text) ∧
    ∀ text host fp, PlainHost host → Plain fp → ∀ host',
      (KnownHosts.parse ((KnownHosts.parse text).insert host fp).render).get host' =
        if host' = host then some fp else (KnownHosts.parse text).get host' := by
  refine ⟨fun text => ?_, fun text => ?_, fun text host fp hh hf host' => ?_⟩
  · exact KnownHosts.parse_render (KnownHosts.writable_parse text)
  · exact AuthorizedKeys.parse_render (AuthorizedKeys.writable_parse text)
      (AuthorizedKeys.trimmed_parse text)
  · rw [KnownHosts.parse_render ((KnownHosts.writable_parse text).insert hh hf),
      KnownHosts.get_insert]

/-- Files with blanks of several kinds, and a host that is pinned to another key. -/
theorem trust_files_stable_tabs : PlainHost "b:1".toList ∧ Plain "SHA256:y".toList ∧
    KnownHosts.parse (KnownHosts.parse "#\n\u00a0a:1\tSHA256:x end\r\nb:1 z".toList).render =
      KnownHosts.parse "#\n\u00a0a:1\tSHA256:x end\r\nb:1 z".toList ∧
    AuthorizedKeys.parse (AuthorizedKeys.parse "SHA256:x \t two  words\r\r\n".toList).render =
      AuthorizedKeys.parse "SHA256:x \t two  words\r\r\n".toList ∧
    ∀ host', (KnownHosts.parse ((KnownHosts.parse "a:1 SHA256:x\nb:1 z".toList).insert "b:1".toList
        "SHA256:y".toList).render).get host' =
      if host' = "b:1".toList then some "SHA256:y".toList
        else (KnownHosts.parse "a:1 SHA256:x\nb:1 z".toList).get host' :=
  ⟨by decide +kernel, by decide +kernel, trust_files_stable.1 _, trust_files_stable.2.1 _,
    trust_files_stable.2.2 _ _ _ (by decide +kernel) (by decide +kernel)⟩

theorem laterLines_of_not_mem {s : Text} (h : '\n' ∉ s) : laterLines s = [] := by
  induction s with
  | nil => rfl
  | cons c s ih =>
    rw [List.mem_cons, not_or] at h
    rw [laterLines, if_neg (Ne.symm h.1), ih h.2]

theorem plainHost_of_tag {fp : Text} (htag : fingerprintTag.isPrefixOf fp = true)
    (h : ∀ c ∈ fp, isWhiteSpace c = false) : PlainHost fp := by
  obtain ⟨t, rfl⟩ := List.isPrefixOf_iff_prefix.mp htag
  exact ⟨⟨by simp [fingerprintTag], h⟩, by simp [fingerprintTag]⟩

theorem fingerprintTag_of_parseFingerprint {arg fp : Text} (h : parseFingerprint arg = .ok fp) :
    fingerprintTag.isPrefixOf fp = true := by
  unfold parseFingerprint at h
  dsimp only at h
  split at h
  · cases h
  · next hn =>
    obtain rfl := Except.ok.inj h
    simp only [Bool.or_eq_true, Bool.not_eq_true', not_or, Bool.not_eq_false] at hn
    exact hn.1

/-- The keys of the file that has one entry written for the new key. -/
theorem contains_authorized {k : AuthorizedKeys} (hk : k.Writable) {fp comment x : Text}
    (hfp : PlainHost fp) :
    (AuthorizedKeys.parse (k.insert fp comment).render).contains x = true ↔
      (x = fp ∨ k.contains x = true) ∨ ∃ l ∈ laterLines comment, lineKey l = some x := by
  have hnew : (fp, comment) ∈ (k.insert fp comment).fingerprints := by
    have hl : (k.insert fp comment).fingerprints.lookup fp = some comment :=
      (lookup_insertEntry ..).trans (if_pos rfl)
    obtain ⟨l₁, l₂, he, -⟩ := List.lookup_eq_some_iff.mp hl
    simp [he]
  rw [AuthorizedKeys.contains_parse_render]
  constructor
  · rintro ⟨e, he, hl⟩
    rcases mem_insertEntry he with rfl | he
    · exact ((mem_lineKeys_keyLine hfp).mp hl).imp_left .inl
    · -- an entry that was there is one line, its own key
      obtain ⟨hplain, hno⟩ := hk e he
      rw [mem_lineKeys_keyLine hplain, laterLines_of_not_mem hno] at hl
      obtain rfl : x = e.1 := by simpa using hl
      exact .inl (.inr (AuthorizedKeys.contains_iff_mem.mpr ⟨e.2, he⟩))
  · rintro ((rfl | hx) | hl)
    · exact ⟨_, hnew, (mem_lineKeys_keyLine hfp).mpr (.inl rfl)⟩
    · obtain ⟨c, hc⟩ := AuthorizedKeys.contains_iff_mem.mp hx
      obtain ⟨c', hc'⟩ := AuthorizedKeys.contains_iff_mem.mp
        ((AuthorizedKeys.contains_insert k fp comment x).mpr (.inr hx))
      exact ⟨_, hc', (mem_lineKeys_keyLine (hk _ hc).1).mpr (.inl rfl)⟩
    · exact ⟨_, hnew, (mem_lineKeys_keyLine hfp).mpr (.inr hl)⟩

/-- **`authorize` adds exactly its key** if and only if the fingerprint is one word and no later
line of the comment names another key. -/
theorem authorize_exact_iff {file : Option Text} {arg comment fp written : Text}
    (hfp : parseFingerprint arg = .ok fp) (hw : cmdAuthorize file arg comment = .ok written) :
    (∀ x, (AuthorizedKeys.parse written).contains x = true ↔
      x = fp ∨ (AuthorizedKeys.ofFile file).contains x = true) ↔
    (∀ c ∈ fp, isWhiteSpace c = false) ∧
      ∀ l ∈ laterLines comment, ∀ x ∈ lineKey l,
        x = fp ∨ (AuthorizedKeys.ofFile file).contains x = true := by
  have htag := fingerprintTag_of_parseFingerprint hfp
  have hk := AuthorizedKeys.writable_ofFile file
  obtain rfl : ((AuthorizedKeys.ofFile file).insert fp comment).render = written := by
    rw [cmdAuthorize, hfp] at hw
    exact Except.ok.inj hw
  constructor
  · intro h
    have hword : ∀ c ∈ fp, isWhiteSpace c = false := by
      -- whatever is read back is one word
      have hself := (h fp).mpr (.inl rfl)
      rw [AuthorizedKeys.contains_parse] at hself
      obtain ⟨l, -, hl⟩ := hself
      exact (plain_lineKey hl).1.2
    refine ⟨hword, fun l hl x hx => (h x).mp ?_⟩
    exact (contains_authorized hk (plainHost_of_tag htag hword)).mpr (.inr ⟨l, hl, hx⟩)
  · rintro ⟨hword, hlater⟩ x
    rw [contains_authorized hk (plainHost_of_tag htag hword)]
    refine ⟨fun hx => hx.elim id ?_, .inl⟩
    rintro ⟨l, hl, hx⟩
    exact hlater l hl x hx

/-- A file with one key, and a comment of two words. -/
theorem authorize_exact_iff_alice : ∃ written,
    cmdAuthorize (some "SHA256:0123456789 bob\n".toList) " SHA256:abcdefghij".toList
      "alice laptop".toList =
      .ok written ∧
    ∀ x, (AuthorizedKeys.parse written).contains x = true ↔ x = "SHA256:abcdefghij".toList ∨
      (AuthorizedKeys.ofFile (some "SHA256:0123456789 bob\n".toList)).contains x = true := by
  have hfp : parseFingerprint " SHA256:abcdefghij".toList = .ok "SHA256:abcdefghij".toList := by
    decide +kernel
  refine ⟨_, by rw [cmdAuthorize, hfp]; rfl, ?_⟩
  refine (authorize_exact_iff hfp (by rw [cmdAuthorize, hfp]; rfl)).mpr ⟨?_, ?_⟩
  · have : "SHA256:abcdefghij".toList.all (fun c => !isWhiteSpace c) = true := by decide +kernel
    simpa using this
  · have hone : laterLines "alice laptop".toList = [] := by decide +kernel
    rw [hone]
    exact fun l hl => by cases hl

/-- The second line of a comment is authorized as a key of its own; a fingerprint of two words is
accepted, and its first word authorized in its place. -/
theorem other_key_authorized :
    (∃ written, cmdAuthorize none "SHA256:abcdefghij".toList "alice\nSHA256:0123456789".toList =
        .ok written ∧
      (AuthorizedKeys.ofFile none).contains "SHA256:0123456789".toList = false ∧
      (AuthorizedKeys.parse written).contains "SHA256:0123456789".toList = true) ∧
    ∃ fp written, parseFingerprint "SHA256:abc defghijkl".toList = .ok fp ∧
      cmdAuthorize none "SHA256:abc defghijkl".toList [] = .ok written ∧
      (AuthorizedKeys.parse written).contains fp = false ∧
      (AuthorizedKeys.parse written).contains "SHA256:abc".toList = true :=
  ⟨⟨_, rfl, by decide +kernel, by decide +kernel⟩, _, _, rfl, rfl,
    by decide +kernel, by decide +kernel⟩

end QuicFs.Server
