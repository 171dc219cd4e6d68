import QuicFs.Lib.Extent

/-!
# A file behind its writes

A file that is written through a buffer shows what the writes made so far leave, except where one of
them is still buffered. `Behind base es f B` says this of the file `f`, of the writes `es` on top of
`base` in the order in which they were made, and of the set `B` of positions that a buffered write
covers: a write is made and buffered (`Behind.push`), the file is written where a write is buffered
(`Behind.write`), and a position leaves the buffer once the file shows the newest write there
(`Behind.settle`). With nothing buffered the file is what the writes leave (`Behind.eq`).

`Landed es left f` follows extents that are written one after another.
-/

namespace QuicFs.Lib

variable {α : Type} [Zero α] {base f d d' : List α} {es left rest : List (Extent α)} {e : Extent α}
    {off p : Nat} {x : α}

omit [Zero α] in
theorem lt_length_of_getElem? (h : f[p]? = some x) : p < f.length :=
  (List.getElem?_eq_some_iff.mp h).1

theorem getD_of_getElem? (h : f[p]? = some x) : f.getD p 0 = x := by
  rw [List.getD_eq_getElem?_getD, h]
  rfl

theorem getElem?_of_getD (hp : p < f.length) (h : f.getD p 0 = x) : f[p]? = some x := by
  rw [List.getD_eq_getElem?_getD, List.getElem?_eq_getElem hp] at h
  rw [List.getElem?_eq_getElem hp]
  exact congrArg some h

theorem getElem?_pwrite_of_hit (h : (Extent.mk off d).hit p = some x) :
    (pwrite f off d)[p]? = some x := by
  refine getElem?_of_getD ((lt_length_pwrite f off d p).mpr (.inr ⟨p, Nat.le_refl _, ?_⟩)) ?_
  · rw [h]
    rfl
  · rw [getD_pwrite, h]
    rfl

theorem getElem?_pwrite_of_miss (h : (Extent.mk off d).hit p = none) (hx : f[p]? = some x) :
    (pwrite f off d)[p]? = some x := by
  refine getElem?_of_getD ((lt_length_pwrite f off d p).mpr (.inl (lt_length_of_getElem? hx))) ?_
  rw [getD_pwrite, h]
  exact getD_of_getElem? hx

/-! ## Extents in a file -/

namespace Extent

/-- The file has the data of the extent in its place. -/
def In (e : Extent α) (f : List α) : Prop := ∀ p x, e.hit p = some x → f[p]? = some x

omit [Zero α] in
theorem in_nil (off : Nat) (f : List α) : (Extent.mk off []).In f := by
  intro p x h
  have := hit_isSome.mp (Option.isSome_of_mem h)
  change off ≤ p ∧ p < off + 0 at this
  omega

theorem In.pwrite (h : e.In f) (hd : ∀ p, (e.hit p).isSome → (Extent.mk off d).hit p = none) :
    e.In (pwrite f off d) := by
  intro p x hx
  exact getElem?_pwrite_of_miss (hd p (Option.isSome_of_mem hx)) (h p x hx)

theorem In.append (h : (Extent.mk off d).In f) :
    (Extent.mk off (d ++ d')).In (Lib.pwrite f (off + d.length) d') := by
  intro p x hx
  rw [hit_append] at hx
  rcases hn : (Extent.mk (off + d.length) d').hit p with _ | y
  · rw [hn] at hx
    exact getElem?_pwrite_of_miss hn (h p x hx)
  · rw [hn] at hx
    obtain rfl := Option.some.inj hx
    exact getElem?_pwrite_of_hit hn

end Extent

/-! ## Extents written one after another -/

/-- The file shows what the extents leave, where none of those that are left hits. -/
def Landed (es left : List (Extent α)) (f : List α) : Prop :=
  ∀ p x, (∀ e ∈ left, e.hit p = none) → lastHit es p = some x → f[p]? = some x

omit [Zero α] in
theorem lastHit_eq_none : lastHit es p = none ↔ ∀ e ∈ es, e.hit p = none := by
  rw [← Option.not_isSome_iff_eq_none, lastHit_isSome]
  simp

omit [Zero α] in
theorem landed_all (es : List (Extent α)) (f : List α) : Landed es es f := by
  intro p x hmiss hx
  rw [lastHit_eq_none.mpr hmiss] at hx
  cases hx

omit [Zero α] in
theorem Landed.next {before : List (Extent α)} (h : Landed (before ++ e :: rest) (e :: rest) f)
    (he : e.In f) : Landed (before ++ e :: rest) rest f := by
  intro p x hmiss hx
  rcases hp : e.hit p with _ | y
  · refine h p x (fun e' he' => ?_) hx
    rcases List.mem_cons.mp he' with rfl | he'
    · exact hp
    · exact hmiss e' he'
  · rw [lastHit_append, lastHit_cons, lastHit_eq_none.mpr hmiss, hp] at hx
    obtain rfl := Option.some.inj hx
    exact he p _ hp

theorem Landed.write (h : Landed es left f)
    (hd : ∀ p, ((Extent.mk off d).hit p).isSome → (∃ e ∈ left, (e.hit p).isSome) ∨
      lastHit es p = none) :
    Landed es left (pwrite f off d) := by
  intro p x hmiss hx
  refine getElem?_pwrite_of_miss ?_ (h p x hmiss hx)
  by_contra hne
  rcases hd p (Option.isSome_iff_ne_none.mpr hne) with ⟨e, he, hp⟩ | hnone
  · rw [hmiss e he] at hp
    cases hp
  · rw [hnone] at hx
    cases hx

/-! ## The newest write -/

section
variable {β : Type} {key : β → Nat} {ext : β → Extent α} {ws : List β} {t : β}

omit [Zero α] in
theorem lastHit_of_newest (hs : ws.Pairwise (key · < key ·)) (ht : t ∈ ws)
    (hx : (ext t).hit p = some x) (hnew : ∀ u ∈ ws, ((ext u).hit p).isSome → key u ≤ key t) :
    lastHit (ws.map ext) p = some x := by
  induction ws with
  | nil => cases ht
  | cons w ws ih =>
    obtain ⟨hw, hs⟩ := List.pairwise_cons.mp hs
    rw [List.map_cons, lastHit_cons]
    rcases List.mem_cons.mp ht with rfl | ht
    · -- whatever comes after it is newer, and misses
      have hmiss : lastHit (ws.map ext) p = none := by
        refine lastHit_eq_none.mpr fun e he => ?_
        obtain ⟨u, hu, rfl⟩ := List.mem_map.mp he
        by_contra hne
        exact Nat.not_lt.mpr
          (hnew u (List.mem_cons_of_mem _ hu) (Option.isSome_iff_ne_none.mpr hne)) (hw u hu)
      rw [hmiss, Option.none_or, hx]
    · rw [ih hs ht fun u hu => hnew u (List.mem_cons_of_mem _ hu)]
      rfl

omit [Zero α] in
theorem exists_newest (hs : ws.Pairwise (key · < key ·)) (hx : lastHit (ws.map ext) p = some x) :
    ∃ t ∈ ws, (ext t).hit p = some x ∧ ∀ u ∈ ws, ((ext u).hit p).isSome → key u ≤ key t := by
  induction ws with
  | nil => cases hx
  | cons w ws ih =>
    obtain ⟨hw, hs⟩ := List.pairwise_cons.mp hs
    rw [List.map_cons, lastHit_cons] at hx
    rcases hrest : lastHit (ws.map ext) p with _ | y
    · rw [hrest, Option.none_or] at hx
      refine ⟨w, List.mem_cons_self, hx, fun u hu hp => ?_⟩
      rcases List.mem_cons.mp hu with rfl | hu
      · exact Nat.le_refl _
      · rw [lastHit_eq_none.mp hrest _ (List.mem_map_of_mem hu)] at hp
        cases hp
    · rw [hrest, Option.some_or] at hx
      obtain ⟨t, ht, hp, hnew⟩ := ih hs (hrest.trans hx)
      refine ⟨t, List.mem_cons_of_mem _ ht, hp, fun u hu hup => ?_⟩
      rcases List.mem_cons.mp hu with rfl | hu
      · exact Nat.le_of_lt (hw t ht)
      · exact hnew u hu hup

end

/-! ## The file and the buffer -/

/-- The file shows the writes, except where one is buffered. -/
structure Behind (base : List α) (es : List (Extent α)) (f : List α) (B : Nat → Prop) : Prop where
  agrees : ∀ p, ¬B p → f.getD p 0 = (applyAll base es).getD p 0
  grows : f.length ≤ (applyAll base es).length
  covers : ∀ p, p < (applyAll base es).length → p < f.length ∨ ∃ q, p ≤ q ∧ B q

namespace Behind

variable {B B' : Nat → Prop}

theorem refl (f : List α) (B : Nat → Prop) : Behind f [] f B :=
  ⟨fun _ _ => rfl, Nat.le_refl _, fun _ h => .inl h⟩

theorem push (h : Behind base es f B) (hB : ∀ p, B p → B' p) (he : ∀ p, (e.hit p).isSome → B' p) :
    Behind base (es ++ [e]) f B' where
  agrees p hp := by
    have hmiss : e.hit p = none := by
      by_contra hne
      exact hp (he p (Option.isSome_iff_ne_none.mpr hne))
    rw [h.agrees p fun hb => hp (hB p hb), getD_applyAll, getD_applyAll, lastHit_append,
      lastHit_cons, hmiss]
    rfl
  grows := by
    rw [applyAll_append]
    exact h.grows.trans (length_le_applyAll _ _)
  covers p hp := by
    rw [applyAll_append, lt_length_applyAll] at hp
    rcases hp with hp | ⟨q, hle, hq⟩
    · exact (h.covers p hp).imp_right fun ⟨q, hle, hq⟩ => ⟨q, hle, hB q hq⟩
    · exact .inr ⟨q, hle, he q (by simpa using hq)⟩

theorem write (h : Behind base es f B)
    (hd : ∀ p, ((Extent.mk off d).hit p).isSome → B p ∧ (lastHit es p).isSome) :
    Behind base es (pwrite f off d) B where
  agrees p hp := by
    have hmiss : (Extent.mk off d).hit p = none := by
      by_contra hne
      exact hp (hd p (Option.isSome_iff_ne_none.mpr hne)).1
    rw [getD_pwrite, hmiss]
    exact h.agrees p hp
  grows := by
    by_contra hlt
    rcases (lt_length_pwrite f off d _).mp (Nat.not_le.mp hlt) with hp | ⟨q, hle, hq⟩
    · exact Nat.not_lt.mpr h.grows hp
    · exact Nat.lt_irrefl _ ((lt_length_applyAll base es _).mpr (.inr ⟨q, hle, (hd q hq).2⟩))
  covers p hp := (h.covers p hp).imp_left fun hp => (lt_length_pwrite f off d p).mpr (.inl hp)

theorem settle (h : Behind base es f B)
    (hB : ∀ p, B p → B' p ∨ ∃ x, f[p]? = some x ∧ lastHit es p = some x) : Behind base es f B' where
  agrees p hp := by
    by_cases hb : B p
    · obtain ⟨x, hx, hlast⟩ := (hB p hb).resolve_left hp
      rw [getD_of_getElem? hx, getD_applyAll, hlast]
      rfl
    · exact h.agrees p hb
  grows := h.grows
  covers p hp := by
    rcases h.covers p hp with hp | ⟨q, hle, hq⟩
    · exact .inl hp
    · rcases hB q hq with hq | ⟨x, hx, -⟩
      · exact .inr ⟨q, hle, hq⟩
      · exact .inl (Nat.lt_of_le_of_lt hle (lt_length_of_getElem? hx))

theorem mono (h : Behind base es f B) (hB : ∀ p, B p → B' p) : Behind base es f B' :=
  h.settle fun p hp => .inl (hB p hp)

/-- **With nothing buffered the file is what the writes leave.** -/
theorem eq (h : Behind base es f B) (hB : ∀ p, ¬B p) : f = applyAll base es := by
  refine file_ext (Nat.le_antisymm h.grows ?_) fun p => h.agrees p (hB p)
  by_contra hlt
  rcases h.covers _ (Nat.not_le.mp hlt) with hp | ⟨q, -, hq⟩
  · exact Nat.lt_irrefl _ hp
  · exact hB q hq

end Behind

end QuicFs.Lib
