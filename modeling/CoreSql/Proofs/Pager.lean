import CoreSql.Storage.Pager

/-!
# Extents of live pages

Every byte of the page file below its end belongs to exactly one extent: that
of a page somebody refers to, or a free one. `Laid` says so of a free list, an
end and the extents in use. Reserving keeps it for one extent more, releasing
for one less, and a store that fails does both. The bytes of a page follow: a
write stays in the extent that was reserved for it, and a truncation cuts off
free bytes only. Free extents that touch become one, so there are few of them.
-/

namespace CoreSql.Pager

open Extents

variable {file file' : Bytes} {l : Page × Bytes} {u : Use}

/-- No byte is in two of the extents or in one and free, and every byte below the end is
somewhere. -/
structure Laid (free : List Extent) (end_ : Nat) (live : List Extent) : Prop where
  gapped : Gapped free
  positive : ∀ e ∈ live, 0 < e.2
  disjoint : live.Pairwise fun a b => ∀ x, Spans a x → ¬Spans b x
  clear : ∀ e ∈ live, ∀ x, Spans e x → ¬Held free x
  cover : ∀ x, x < end_ ↔ Held free x ∨ ∃ e ∈ live, Spans e x
  bounded : end_ ≤ offMax

section

variable {p : Pager} {free rest pre post : List Extent} {live : List Extent} {g current e : Extent}
  {size end_ x k : Nat} {a : Extent} {n : Nat}

theorem laid_empty : Laid [] 0 [] where
  gapped := gapped_nil
  positive := by simp
  disjoint := .nil
  clear := by simp
  cover := by simp [Held]
  bounded := Nat.zero_le _

theorem carve_eq (h : Gapped free) (he : e ∈ free) (hsize : 0 < size) (hlt : size < e.2) :
    SortedMap.erase e.1 (emplace (e.1 + size) (e.2 - size) free).1 =
      SortedMap.insert (e.1 + size) (e.2 - size) (SortedMap.erase e.1 free) := by
  have hnone : SortedMap.find (e.1 + size) free = none := by
    refine SortedMap.find_eq_none_iff.mpr fun a ha hkey => ?_
    have := h.apart e he a ha (by omega)
    omega
  have hemplace : (emplace (e.1 + size) (e.2 - size) free).1 =
      SortedMap.insert (e.1 + size) (e.2 - size) free := by
    rw [emplace, hnone]
  rw [hemplace]
  refine SortedMap.Sorted.ext h.sorted.insert.erase h.sorted.erase.insert fun k => ?_
  simp only [SortedMap.find_erase, SortedMap.find_insert]
  split_ifs <;> first | rfl | omega

theorem carve_loose (h : Gapped free) (he : e ∈ free) (hle : size ≤ e.2) :
    Loose (e.1 + size, e.2 - size) (SortedMap.erase e.1 free) := by
  intro a ha
  obtain ⟨ha, hne⟩ := SortedMap.mem_erase.mp ha
  dsimp only
  rcases Nat.lt_or_gt_of_ne hne with hlt | hgt
  · have := h.apart a ha e he hlt
    omega
  · have := h.apart e he a ha hgt
    omega

/-- The reserved extent is free or at the end, and what stays free is the rest. -/
structure Reserved (p : Pager) (g : Extent) (free : List Extent) : Prop where
  gapped : Gapped free
  held : ∀ x, Held free x ↔ Held p.free x ∧ ¬Spans g x
  place : ∀ x, Spans g x → Held p.free x ∨ p.end_ ≤ x
  cover : ∀ x, x < max p.end_ (g.1 + g.2) ↔ x < p.end_ ∨ Spans g x
  fits : g.1 = p.end_ ∨ g.1 + g.2 ≤ p.end_

theorem reserve_reserved (h : Gapped p.free) (hbelow : ∀ x, Held p.free x → x < p.end_)
    (hsize : 0 < size) : Reserved p ((p.reserve size).1, size) (p.reserve size).2 := by
  rw [reserve]
  cases hfind : p.free.find? (size ≤ ·.2) with
  | none =>
    refine ⟨h, fun x => ⟨fun hx => ⟨hx, fun hg => ?_⟩, And.left⟩, fun x hx => .inr hx.1,
      fun x => ?_, .inl rfl⟩
    · have := hbelow x hx
      have := hg.1
      dsimp only at this
      omega
    · simp only [Spans]
      omega
  | some e =>
    have he := List.mem_of_find?_eq_some hfind
    have hle : size ≤ e.2 := by simpa using List.find?_some hfind
    have hend : e.1 + e.2 ≤ p.end_ := by
      have := hbelow (e.1 + e.2 - 1) ⟨e, he, by omega, by omega⟩
      omega
    have hplace : ∀ x, Spans (e.1, size) x → Spans e x := by
      rintro x ⟨h₁, h₂⟩
      exact ⟨h₁, by dsimp only at h₂; omega⟩
    have hcover : ∀ x, x < max p.end_ (e.1 + size) ↔ x < p.end_ ∨ Spans (e.1, size) x := by
      intro x
      simp only [Spans]
      omega
    dsimp only
    by_cases hexcess : e.2 - size ≠ 0
    · rw [if_pos hexcess, carve_eq h he hsize (by omega)]
      refine ⟨h.erase.insert (by omega) (carve_loose h he hle), fun x => ?_,
        fun x hx => .inl ⟨e, he, hplace x hx⟩, hcover, .inr (by dsimp only; omega)⟩
      rw [held_insert (carve_loose h he hle).find, h.held_erase he]
      have hsplit : Spans e x ↔ Spans (e.1, size) x ∨ Spans (e.1 + size, e.2 - size) x := by
        simp only [Spans]
        omega
      have hnot : Spans (e.1 + size, e.2 - size) x → ¬Spans (e.1, size) x := by
        simp only [Spans]
        omega
      have hheld : Spans e x → Held p.free x := fun hx => ⟨e, he, hx⟩
      tauto
    · rw [if_neg hexcess]
      obtain rfl : size = e.2 := by omega
      exact ⟨h.erase, fun x => h.held_erase he, fun x hx => .inl ⟨e, he, hx⟩, hcover, .inr hend⟩

theorem Laid.below (h : Laid free end_ live) (hx : Held free x) : x < end_ :=
  (h.cover x).mpr (.inl hx)

theorem Laid.reserve (h : Laid p.free p.end_ live) (hsize : 0 < size)
    (hroom : size ≤ offMax - p.end_) :
    Laid (p.reserve size).2 (max p.end_ ((p.reserve size).1 + size))
      (live ++ [((p.reserve size).1, size)]) := by
  have hres := reserve_reserved h.gapped (fun x => h.below) hsize
  generalize (p.reserve size).2 = free at hres ⊢
  generalize (p.reserve size).1 = offset at hres ⊢
  -- A byte of the new extent is in no extent that was in use.
  have hnew : ∀ e ∈ live, ∀ x, Spans e x → ¬Spans (offset, size) x := by
    intro e he x hx hg
    rcases hres.place x hg with hfree | hend
    · exact h.clear e he x hx hfree
    · have := (h.cover x).mpr (.inr ⟨e, he, hx⟩)
      omega
  refine ⟨hres.gapped, ?_, ?_, ?_, fun x => ?_, ?_⟩
  · intro e he
    rcases List.mem_append.mp he with he | he
    · exact h.positive e he
    · rw [List.mem_singleton.mp he]
      exact hsize
  · refine List.pairwise_append.mpr ⟨h.disjoint, List.pairwise_singleton _ _, fun a ha b hb => ?_⟩
    rw [List.mem_singleton.mp hb]
    exact hnew a ha
  · intro e he x hx hfree
    obtain ⟨hfree, hg⟩ := (hres.held x).mp hfree
    rcases List.mem_append.mp he with he | he
    · exact h.clear e he x hx hfree
    · exact hg (List.mem_singleton.mp he ▸ hx)
  · rw [hres.cover x, h.cover x, hres.held x]
    simp only [List.mem_append, List.mem_singleton, or_and_right, exists_or, exists_eq_left]
    by_cases hg : Spans (offset, size) x <;> simp [hg]
  · have := h.bounded
    have := hres.fits
    dsimp only at this
    omega

/-! ## Releasing -/

/-- An extent on its way into the free list: with the others it holds the bytes that the released
one and the free list hold, and it is in the list with them. -/
structure Pending (g : Extent) (free : List Extent) (current : Extent) (rest : List Extent) :
    Prop where
  gapped : Gapped rest
  positive : 0 < current.2
  clear : ∀ x, Spans current x → ¬Held rest x
  same : ∀ x, Spans current x ∨ Held rest x ↔ Spans g x ∨ Held free x

section

variable (h : Pending g free current rest)
include h

theorem Pending.apart (ha : a ∈ rest) : a.1 + a.2 ≤ current.1 ∨ current.1 + current.2 ≤ a.1 := by
  have hpos := h.gapped.positive a ha
  have hcur := h.positive
  by_contra hnot
  rcases Nat.le_total a.1 current.1 with hle | hle
  · exact h.clear current.1 ⟨Nat.le_refl _, by omega⟩ ⟨a, ha, hle, by omega⟩
  · exact h.clear a.1 ⟨hle, by omega⟩ ⟨a, ha, Nat.le_refl _, by omega⟩

theorem Pending.find : SortedMap.find current.1 rest = none := by
  refine SortedMap.find_eq_none_iff.mpr fun a ha hkey => ?_
  have := h.apart ha
  have := h.positive
  have := h.gapped.positive a ha
  omega

theorem Pending.mem_of_ne
    (ha : a ∈ SortedMap.insert current.1 current.2 rest) (hne : a.1 ≠ current.1) : a ∈ rest := by
  rcases (mem_insert_new h.find).mp ha with rfl | ha
  · exact absurd rfl hne
  · exact ha

theorem Pending.merge (he : e ∈ rest)
    (hmerged : ∀ x, Spans (k, n) x ↔ Spans current x ∨ Spans e x) (hn : 0 < n) :
    Pending g free (k, n) (SortedMap.erase e.1 rest) where
  gapped := h.gapped.erase
  positive := hn
  clear x hx := by
    rw [h.gapped.held_erase he]
    rintro ⟨hheld, hne⟩
    rcases (hmerged x).mp hx with hx | hx
    · exact h.clear x hx hheld
    · exact hne hx
  same x := by
    have hheld : Spans e x → Held rest x := fun hx => ⟨e, he, hx⟩
    rw [h.gapped.held_erase he, hmerged x, ← h.same x]
    by_cases hx : Spans e x
    · simp [hx, hheld hx]
    · simp [hx]

theorem Pending.mergeBefore :
    ∃ current' rest', Pager.mergeBefore current (SortedMap.insert current.1 current.2 rest) =
        (current', SortedMap.insert current'.1 current'.2 rest') ∧
      Pending g free current' rest' ∧ ∀ a ∈ rest', a.1 + a.2 ≠ current'.1 := by
  have hsorted : SortedMap.Sorted (SortedMap.insert current.1 current.2 rest) :=
    h.gapped.sorted.insert
  -- Only the extent just before can end where this one starts.
  have hlast {a : Extent} (ha : a ∈ rest) (hend : a.1 + a.2 = current.1) :
      before current.1 (SortedMap.insert current.1 current.2 rest) = some a := by
    have hpos := h.gapped.positive a ha
    obtain ⟨b, hb, hle⟩ :=
      le_before hsorted ((mem_insert_new h.find).mpr (.inr ha)) (show a.1 < current.1 by omega)
    obtain ⟨hbmem, hblt⟩ := mem_of_before hb
    have hbrest := h.mem_of_ne hbmem (Nat.ne_of_lt hblt)
    rcases Nat.lt_or_eq_of_le hle with hlt | heq
    · have := h.gapped.apart a ha b hbrest hlt
      omega
    · rw [hb, h.gapped.eq_of_offset ha hbrest heq]
  rw [Pager.mergeBefore]
  cases hb : before current.1 (SortedMap.insert current.1 current.2 rest) with
  | none =>
    refine ⟨current, rest, rfl, h, fun a ha hend => ?_⟩
    rw [hlast ha hend] at hb
    cases hb
  | some b =>
    obtain ⟨hbmem, hblt⟩ := mem_of_before hb
    have hbrest := h.mem_of_ne hbmem (Nat.ne_of_lt hblt)
    dsimp only
    by_cases htouch : b.1 + b.2 = current.1
    · rw [if_pos htouch]
      refine ⟨(b.1, b.2 + current.2), SortedMap.erase b.1 rest, ?_, h.merge hbrest (fun x => ?_) ?_,
        fun a ha => ?_⟩
      · congr 1
        refine SortedMap.Sorted.ext hsorted.insert.erase h.gapped.sorted.erase.insert fun k => ?_
        have hnone := h.find
        simp only [SortedMap.find_erase, SortedMap.find_insert]
        split_ifs <;> first | rfl | omega | (subst_vars; simp_all)
      · simp only [Spans]
        omega
      · have := h.positive
        omega
      · obtain ⟨ha, hne⟩ := SortedMap.mem_erase.mp ha
        dsimp only
        rcases Nat.lt_or_gt_of_ne hne with hlt | hgt
        · have := h.gapped.apart a ha b hbrest hlt
          omega
        · omega
    · rw [if_neg htouch]
      refine ⟨current, rest, rfl, h, fun a ha hend => ?_⟩
      rw [hlast ha hend] at hb
      exact htouch (Option.some.inj hb ▸ hend)

theorem Pending.mergeAfter (hfirst : ∀ a ∈ rest, a.1 + a.2 ≠ current.1) :
    ∃ current' rest', Pager.mergeAfter current (SortedMap.insert current.1 current.2 rest) =
        (current', SortedMap.insert current'.1 current'.2 rest') ∧
      Pending g free current' rest' ∧ Loose current' rest' := by
  have hsorted : SortedMap.Sorted (SortedMap.insert current.1 current.2 rest) :=
    h.gapped.sorted.insert
  have hnext {a : Extent} (ha : a ∈ rest) (hend : current.1 + current.2 = a.1) :
      after current.1 (SortedMap.insert current.1 current.2 rest) = some a := by
    have hpos := h.positive
    obtain ⟨b, hb, hle⟩ :=
      after_le hsorted ((mem_insert_new h.find).mpr (.inr ha)) (show current.1 < a.1 by omega)
    obtain ⟨hbmem, hblt⟩ := mem_of_after hb
    have hbrest := h.mem_of_ne hbmem (Nat.ne_of_gt hblt)
    rcases Nat.lt_or_eq_of_le hle with hlt | heq
    · have := h.apart hbrest
      have := h.gapped.positive b hbrest
      omega
    · rw [hb, h.gapped.eq_of_offset hbrest ha heq]
  have hloose (hno : ∀ a ∈ rest, current.1 + current.2 ≠ a.1) : Loose current rest := by
    intro a ha
    have := h.apart ha
    have := hfirst a ha
    have := hno a ha
    omega
  rw [Pager.mergeAfter]
  cases hb : after current.1 (SortedMap.insert current.1 current.2 rest) with
  | none =>
    refine ⟨current, rest, rfl, h, hloose fun a ha hend => ?_⟩
    rw [hnext ha hend] at hb
    cases hb
  | some b =>
    obtain ⟨hbmem, hblt⟩ := mem_of_after hb
    have hbrest := h.mem_of_ne hbmem (Nat.ne_of_gt hblt)
    dsimp only
    by_cases htouch : current.1 + current.2 = b.1
    · rw [if_pos htouch]
      refine ⟨(current.1, current.2 + b.2), SortedMap.erase b.1 rest, ?_,
        h.merge hbrest (fun x => ?_) ?_, fun a ha => ?_⟩
      · congr 1
        refine SortedMap.Sorted.ext hsorted.insert.erase h.gapped.sorted.erase.insert fun k => ?_
        simp only [SortedMap.find_erase, SortedMap.find_insert]
        split_ifs <;> first | rfl | omega
      · simp only [Spans]
        omega
      · have := h.positive
        omega
      · obtain ⟨ha, hne⟩ := SortedMap.mem_erase.mp ha
        have := h.apart ha
        have := hfirst a ha
        dsimp only
        rcases Nat.lt_or_gt_of_ne hne with hlt | hgt
        · have := h.gapped.positive a ha
          omega
        · have := h.gapped.apart b hbrest a ha hgt
          omega
    · rw [if_neg htouch]
      refine ⟨current, rest, rfl, h, hloose fun a ha hend => ?_⟩
      rw [hnext ha hend] at hb
      exact htouch (Option.some.inj hb ▸ hend)

end

/-- What a release comes to: the extent is free, or what is free from there to the end is cut
off. -/
theorem release_cases (hgapped : Gapped p.free) (hpos : 0 < g.2)
    (hclear : ∀ x, Spans g x → ¬Held p.free x) (truncates : Bool) :
    ∃ current rest, Pending g p.free current rest ∧ Loose current rest ∧
      (p.release g.1 g.2 truncates = { p with free := SortedMap.insert current.1 current.2 rest } ∨
        current.1 + current.2 = p.end_ ∧ p.release g.1 g.2 truncates = { p with
          file := ftruncate current.1 p.file, end_ := current.1, free := rest }) := by
  have hstart : Pending g p.free g p.free := ⟨hgapped, hpos, hclear, fun _ => Iff.rfl⟩
  obtain ⟨c₁, r₁, hbefore, h₁, hfirst⟩ := hstart.mergeBefore
  obtain ⟨c₂, r₂, hafter, h₂, hloose⟩ := h₁.mergeAfter hfirst
  have hemplace : emplace g.1 g.2 p.free = (SortedMap.insert g.1 g.2 p.free, true) := by
    rw [emplace, hstart.find]
  refine ⟨c₂, r₂, h₂, hloose, ?_⟩
  rw [release, hemplace]
  simp only [Bool.not_true, Bool.false_eq_true, if_false]
  rw [show ((g.1, g.2) : Extent) = g from rfl, hbefore]
  dsimp only
  rw [hafter]
  dsimp only
  by_cases hcut : c₂.1 + c₂.2 = p.end_ ∧ truncates = true
  · rw [if_pos hcut]
    have hback : SortedMap.erase c₂.1 (SortedMap.insert c₂.1 c₂.2 r₂) = r₂ := by
      refine SortedMap.Sorted.ext h₂.gapped.sorted.insert.erase h₂.gapped.sorted fun k => ?_
      have hnone := h₂.find
      simp only [SortedMap.find_erase, SortedMap.find_insert]
      split_ifs with hk
      · rw [hk, hnone]
      · rfl
    rw [hback]
    exact .inr ⟨hcut.1, rfl⟩
  · rw [if_neg hcut]
    exact .inl rfl

/-- The bytes of the extent that are in the file stay as they are. -/
def Keeps (e : Extent) (file file' : Bytes) : Prop :=
  ∀ x b, Spans e x → file[x]? = some b → file'[x]? = some b

theorem keeps_ftruncate (h : ∀ x, Spans e x → x < n) : Keeps e file (ftruncate n file) := by
  intro x b hx hb
  have hlen := (List.getElem?_eq_some_iff.mp hb).1
  rw [ftruncate, List.getElem?_append_left (by rw [List.length_take]; have := h x hx; omega),
    List.getElem?_take, if_pos (h x hx), hb]

theorem Laid.release (h : Laid p.free p.end_ (pre ++ g :: post)) (truncates : Bool) :
    Laid (p.release g.1 g.2 truncates).free (p.release g.1 g.2 truncates).end_ (pre ++ post) ∧
      ∀ e ∈ pre ++ post, Keeps e p.file (p.release g.1 g.2 truncates).file := by
  have hg : g ∈ pre ++ g :: post := List.mem_append_right _ List.mem_cons_self
  have hsublist := (List.sublist_cons_self g post).append_left pre
  have hsub : ∀ e ∈ pre ++ post, e ∈ pre ++ g :: post := fun e he => hsublist.subset he
  have hother : ∀ e ∈ pre ++ post, ∀ x, Spans e x → ¬Spans g x := by
    intro e he x hx hgx
    obtain ⟨-, hright, hleft⟩ := List.pairwise_append.mp h.disjoint
    rcases List.mem_append.mp he with he | he
    · exact hleft e he g List.mem_cons_self x hx hgx
    · exact (List.pairwise_cons.mp hright).1 e he x hgx hx
  have hdisjoint : (pre ++ post).Pairwise fun a b => ∀ x, Spans a x → ¬Spans b x :=
    h.disjoint.sublist hsublist
  -- Below the end a byte is in another extent, or in the released one or free.
  have hcover : ∀ x, x < p.end_ ↔ (Spans g x ∨ Held p.free x) ∨ ∃ e ∈ pre ++ post, Spans e x := by
    intro x
    rw [h.cover x]
    simp only [List.mem_append, List.mem_cons, or_and_right, exists_or, exists_eq_left]
    by_cases hgx : Spans g x <;> simp [hgx]
  obtain ⟨current, rest, hp, hloose, hrelease | ⟨hend, hrelease⟩⟩ :=
    release_cases h.gapped (h.positive g hg) (h.clear g hg) truncates
  · rw [hrelease]
    have hheld : ∀ x, Held (SortedMap.insert current.1 current.2 rest) x ↔
        Spans g x ∨ Held p.free x := fun x => by
      rw [held_insert hp.find, ← hp.same x]
    refine ⟨⟨hp.gapped.insert hp.positive hloose, fun e he => h.positive e (hsub e he), hdisjoint,
      fun e he x hx => ?_, fun x => ?_, h.bounded⟩, fun e _ x b _ hb => hb⟩
    · rw [hheld x]
      rintro (hgx | hfree)
      · exact hother e he x hx hgx
      · exact h.clear e (hsub e he) x hx hfree
    · rw [hheld x, hcover x]
  · rw [hrelease]
    have hclear : ∀ e ∈ pre ++ post, ∀ x, Spans e x → ¬(Spans current x ∨ Held rest x) := by
      intro e he x hx
      rw [hp.same x]
      rintro (hgx | hfree)
      · exact hother e he x hx hgx
      · exact h.clear e (hsub e he) x hx hfree
    have hbelow : ∀ e ∈ pre ++ post, ∀ x, Spans e x → x < current.1 := by
      intro e he x hx
      by_contra hge
      have := (hcover x).mpr (.inr ⟨e, he, hx⟩)
      exact hclear e he x hx (.inl ⟨by omega, by omega⟩)
    refine ⟨⟨hp.gapped, fun e he => h.positive e (hsub e he), hdisjoint,
      fun e he x hx hfree => hclear e he x hx (.inr hfree), fun x => ⟨fun hx => ?_, ?_⟩, ?_⟩,
      fun e he => keeps_ftruncate (hbelow e he)⟩
    · dsimp only at hx
      rcases (hcover x).mp (show x < p.end_ by omega) with hfree | hlive
      · rcases (hp.same x).mpr hfree with hcur | hrest
        · have := hcur.1
          omega
        · exact .inl hrest
      · exact .inr hlive
    · rintro (hrest | ⟨e, he, hx⟩)
      · have hx := (hcover x).mpr (.inl ((hp.same x).mp (.inr hrest)))
        by_contra hge
        dsimp only at hge
        exact hp.clear x ⟨by omega, by omega⟩ hrest
      · exact hbelow e he x hx
    · have := h.bounded
      dsimp only
      omega

end

/-! ## The bytes -/

section

variable {answers : List Pwrite} {offset x : Nat} {bytes file : Bytes} {e : Extent}

theorem length_ftruncate : (ftruncate offset file).length = offset := by
  rw [ftruncate, List.length_append, List.length_take, List.length_replicate]
  omega

theorem pwrite_eq :
    pwrite offset bytes file = ftruncate offset file ++
      (bytes ++ file.drop (offset + bytes.length)) :=
  List.append_assoc _ _ _

theorem getElem?_pwrite (hlo : offset ≤ x) (hhi : x < offset + bytes.length) :
    (pwrite offset bytes file)[x]? = bytes[x - offset]? := by
  rw [pwrite_eq, List.getElem?_append_right (by rwa [length_ftruncate]), length_ftruncate,
    List.getElem?_append_left (by omega)]

theorem keeps_pwrite (h : ∀ x, Spans e x → ¬Spans (offset, bytes.length) x) :
    Keeps e file (pwrite offset bytes file) := by
  intro x b hx hb
  have hlen := (List.getElem?_eq_some_iff.mp hb).1
  have hout := h x hx
  simp only [Spans] at hout
  rw [pwrite_eq]
  rcases Nat.lt_or_ge x offset with hlt | hge
  · rw [List.getElem?_append_left (by rwa [length_ftruncate])]
    exact keeps_ftruncate (e := (x, 1)) (fun y hy => by simp only [Spans] at hy; omega) x b
      ⟨Nat.le_refl _, Nat.lt_succ_self _⟩ hb
  · rw [List.getElem?_append_right (by rwa [length_ftruncate]), length_ftruncate,
      List.getElem?_append_right (by omega), List.getElem?_drop, ← hb]
    congr 1
    omega

/-- Writing a page stays in its extent, whatever the calls answer. -/
theorem keeps_write (h : ∀ x, Spans e x → ¬Spans (offset, bytes.length) x) :
    Keeps e file (write answers offset bytes file).2 := by
  fun_induction write answers offset bytes file with
  | case1 => exact fun _ _ _ hb => hb
  | case2 => exact keeps_pwrite h
  | case3 _ _ _ _ _ ih => exact ih h
  | case4 => exact fun _ _ _ hb => hb
  | case5 more answers offset bytes file hne n ih =>
    have hn : n ≤ bytes.length := Nat.min_le_right _ _
    intro x b hx hb
    have hout := h x hx
    simp only [Spans] at hout
    refine ih (fun y hy => ?_) x b hx (keeps_pwrite (fun y hy => ?_) x b hx hb)
    · have := h y hy
      simp only [Spans, List.length_drop] at this ⊢
      omega
    · have := h y hy
      simp only [Spans, List.length_take] at this ⊢
      omega

theorem getElem?_write (h : (write answers offset bytes file).1 = .ok ()) {i : Nat} {b : UInt8}
    (hb : bytes[i]? = some b) : (write answers offset bytes file).2[offset + i]? = some b := by
  fun_induction write answers offset bytes file generalizing i with
  | case1 => simp at hb
  | case2 =>
    have hlen := (List.getElem?_eq_some_iff.mp hb).1
    rw [getElem?_pwrite (by omega) (by omega), Nat.add_sub_cancel_left, hb]
  | case3 _ _ _ _ _ ih => exact ih h hb
  | case4 => cases h
  | case5 more answers offset bytes file hne n ih =>
    have hlen := (List.getElem?_eq_some_iff.mp hb).1
    have hn : n ≤ bytes.length := Nat.min_le_right _ _
    rcases Nat.lt_or_ge i n with hlt | hge
    · -- A byte this call writes is before those of the calls that follow.
      have hkeep : Keeps (offset, n) (pwrite offset (bytes.take n) file)
          (write answers (offset + n) (bytes.drop n) (pwrite offset (bytes.take n) file)).2 :=
        keeps_write fun x hx => by
          simp only [Spans] at hx ⊢
          omega
      refine hkeep _ b ⟨Nat.le_add_right _ _, by dsimp only; omega⟩ ?_
      rw [getElem?_pwrite (by omega) (by rw [List.length_take]; omega), Nat.add_sub_cancel_left,
        List.getElem?_take, if_pos hlt, hb]
    · have := ih h (i := i - n) (by rw [List.getElem?_drop, Nat.add_sub_cancel' hge, hb])
      rwa [Nat.add_assoc, Nat.add_sub_cancel' hge] at this

end

/-! ## Runs -/

def extent (l : Page × Bytes) : Extent := (l.1.offset, l.1.length)

/-- The page's extent has what was stored in it. -/
structure Stored (file : Bytes) (l : Page × Bytes) : Prop where
  length : l.1.length = l.2.length
  bytes : ∀ i b, l.2[i]? = some b → file[l.1.offset + i]? = some b

theorem Stored.keeps (h : Stored file l)
    (hkeeps : Keeps (extent l) file file') : Stored file' l where
  length := h.length
  bytes i b hb := by
    have hlen := (List.getElem?_eq_some_iff.mp hb).1
    exact hkeeps _ b ⟨Nat.le_add_right _ _, by rw [extent, h.length]; dsimp only; omega⟩
      (h.bytes i b hb)

theorem Stored.read (h : Stored file l) : (file.drop l.1.offset).take l.1.length = l.2 := by
  refine List.ext_getElem? fun i => ?_
  rw [List.getElem?_take, List.getElem?_drop, h.length]
  split
  · next hi => rw [h.bytes i _ (List.getElem?_eq_getElem hi), List.getElem?_eq_getElem hi]
  · next hi => rw [List.getElem?_eq_none (by omega)]

structure Use.Sound (u : Use) : Prop where
  laid : Laid u.pager.free u.pager.end_ (u.live.map extent)
  stored : ∀ l ∈ u.live, Stored u.pager.file l

theorem Use.Sound.store (h : u.Sound) (c : Chunk) (answers : List Pwrite)
    (truncates : Bool) : (step u (.store c answers truncates)).Sound := by
  have hpos := encodePage_pos c
  rw [step, Pager.store]
  generalize encodePage c = bytes at hpos ⊢
  dsimp only
  by_cases hfull : offMax - u.pager.end_ < bytes.length
  · rw [if_pos hfull]
    exact h
  rw [if_neg hfull]
  have hlaid := h.laid.reserve hpos (by omega)
  have hkeeps : ∀ l ∈ u.live, Keeps (extent l) u.pager.file
      (write answers (u.pager.reserve bytes.length).1 bytes u.pager.file).2 := fun l hl =>
    keeps_write ((List.pairwise_append.mp hlaid.disjoint).2.2 _ (List.mem_map_of_mem hl) _
      List.mem_cons_self)
  cases hwritten : (write answers (u.pager.reserve bytes.length).1 bytes u.pager.file).1 with
  | ok _ =>
    refine ⟨?_, fun l hl => ?_⟩
    · rw [List.map_append]
      exact hlaid
    rcases List.mem_append.mp hl with hl | hl
    · exact (h.stored l hl).keeps (hkeeps l hl)
    · rw [List.mem_singleton.mp hl]
      exact ⟨rfl, fun i b hb => getElem?_write hwritten hb⟩
  | error e =>
    -- The extent that was reserved for the page goes back.
    dsimp only
    rw [destroy, if_pos (by dsimp only; omega)]
    have hback := Laid.release (p := { u.pager with
      file := (write answers (u.pager.reserve bytes.length).1 bytes u.pager.file).2
      free := (u.pager.reserve bytes.length).2
      end_ := max u.pager.end_ ((u.pager.reserve bytes.length).1 + bytes.length)
      next := u.pager.next + 1 }) hlaid truncates
    rw [List.append_nil] at hback
    refine ⟨hback.1, fun l hl => ((h.stored l hl).keeps (hkeeps l hl)).keeps ?_⟩
    exact hback.2 _ (List.mem_map_of_mem hl)

theorem Use.Sound.release (h : u.Sound) (i : Nat) (truncates : Bool) :
    (step u (.release i truncates)).Sound := by
  rw [step]
  cases hi : u.live[i]? with
  | none => exact h
  | some l =>
    obtain ⟨hlt, hget⟩ := List.getElem?_eq_some_iff.mp hi
    have hsplit : u.live = u.live.take i ++ l :: u.live.drop (i + 1) := by
      rw [← hget, List.getElem_cons_drop, List.take_append_drop]
    have hmem : l ∈ u.live := List.mem_of_getElem? hi
    have hpos : 0 < l.1.length := h.laid.positive _ (List.mem_map_of_mem hmem)
    dsimp only
    rw [destroy, if_pos (Nat.pos_iff_ne_zero.mp hpos), List.eraseIdx_eq_take_drop_succ]
    have hlaid := h.laid
    rw [hsplit, List.map_append, List.map_cons] at hlaid
    obtain ⟨hback, hkeeps⟩ := hlaid.release truncates
    rw [← List.map_append] at hback hkeeps
    refine ⟨hback, fun l' hl' => (h.stored l' ?_).keeps (hkeeps _ (List.mem_map_of_mem hl'))⟩
    rcases List.mem_append.mp hl' with hl' | hl'
    · exact List.mem_of_mem_take hl'
    · exact List.mem_of_mem_drop hl'

theorem run_sound (events : List Event) : (run events).Sound := by
  refine List.foldlRecOn events step (motive := Use.Sound) ⟨laid_empty, by simp⟩ ?_
  intro u h event _
  cases event with
  | store c answers truncates => exact h.store c answers truncates
  | release i truncates => exact h.release i truncates

/-- Whatever the calls answered, in every run each byte below the end of the page file is in one
live extent or in one free extent and not in two, no free extent touches another or leaves the file,
and every live page reads back as what was stored in it. -/
theorem extents_partition (events : List Event) :
    let u := run events
    (u.live.Pairwise fun a b => ∀ x, Spans (extent a) x → ¬Spans (extent b) x) ∧
      (∀ l ∈ u.live, ∀ e ∈ u.pager.free, ∀ x, Spans (extent l) x → ¬Spans e x) ∧
      (∀ x, x < u.pager.end_ ↔
        (∃ l ∈ u.live, Spans (extent l) x) ∨ ∃ e ∈ u.pager.free, Spans e x) ∧
      (u.pager.free.Pairwise fun a b => a.1 + a.2 < b.1) ∧
      (∀ e ∈ u.pager.free, 0 < e.2 ∧ e.1 + e.2 ≤ u.pager.end_) ∧
      ∀ l ∈ u.live, (u.pager.file.drop l.1.offset).take l.1.length = l.2 := by
  intro u
  have h : u.Sound := run_sound events
  refine ⟨List.pairwise_map.mp h.laid.disjoint, fun l hl e he x hx hex => ?_, fun x => ?_,
    h.laid.gapped.pairwise, fun e he => ?_, fun l hl => (h.stored l hl).read⟩
  · exact h.laid.clear _ (List.mem_map_of_mem hl) x hx ⟨e, he, hex⟩
  · rw [h.laid.cover x, or_comm]
    simp only [List.mem_map, exists_exists_and_eq_and]
    rfl
  · have hpos := h.laid.gapped.positive e he
    have := h.laid.below (x := e.1 + e.2 - 1) ⟨e, he, by omega, by omega⟩
    exact ⟨hpos, by omega⟩

section

variable {free live : List Extent} {end_ : Nat} {e a g : Extent}

section

variable (h : Laid free end_ live)
include h

/-- The byte after a free extent that another one follows is in use. -/
theorem Laid.follower (he : e ∈ free) (ha : a ∈ free)
    (hlt : e.1 + e.2 < a.1) : ∃ g ∈ live, Spans g (e.1 + e.2) := by
  have hend := h.below ⟨a, ha, Nat.le_refl _, Nat.lt_add_of_pos_right (h.gapped.positive a ha)⟩
  refine ((h.cover _).mp (Nat.lt_trans hlt hend)).resolve_left ?_
  rintro ⟨b, hb, hle, hbe⟩
  rcases Nat.lt_trichotomy e.1 b.1 with hlt | heq | hlt
  · have := h.gapped.apart e he b hb hlt
    omega
  · cases h.gapped.eq_of_offset he hb heq
    omega
  · have := h.gapped.apart b hb e he hlt
    omega

theorem Laid.follower_ne (ha : a ∈ free) (hg : g ∈ live)
    (hlt : e.1 + e.2 < a.1) (he : Spans g (e.1 + e.2)) : ¬Spans g (a.1 + a.2) := by
  intro hga
  have hpos := h.gapped.positive a ha
  refine h.clear g hg a.1 ⟨?_, ?_⟩ ⟨a, ha, Nat.le_refl _, by omega⟩
  · exact Nat.le_of_lt (Nat.lt_of_le_of_lt he.1 hlt)
  · exact Nat.lt_of_le_of_lt (Nat.le_add_right ..) hga.2

theorem Laid.length_free : free.length ≤ live.length + 1 := by
  rcases free.eq_nil_or_concat' with hnil | ⟨pre, b, rfl⟩
  · simp [hnil]
  obtain ⟨hpre, -, hlast⟩ := List.pairwise_append.mp h.gapped.pairwise
  have hfollow : ∀ e ∈ pre, ∃ g ∈ live, Spans g (e.1 + e.2) := fun e he =>
    h.follower (List.mem_append_left _ he) (by simp) (hlast e he b (by simp))
  choose! f hf hspans using hfollow
  have hnodup : (pre.map f).Nodup := List.pairwise_map.mpr <| hpre.imp_of_mem
    fun he ha hlt heq => h.follower_ne (List.mem_append_left _ ha) (hf _ he) hlt (hspans _ he)
      (heq ▸ hspans _ ha)
  have := hnodup.length_le_of_subset (fun g hg => by
    obtain ⟨e, he, rfl⟩ := List.mem_map.mp hg
    exact hf e he)
  simpa using this

end

end

/-- Released extents do not pile up: in every run there are at most as many free extents as live
pages, and one. -/
theorem free_extents_bounded (events : List Event) :
    (run events).pager.free.length ≤ (run events).live.length + 1 := by
  have := (run_sound events).laid.length_free
  rwa [List.length_map] at this

end CoreSql.Pager
