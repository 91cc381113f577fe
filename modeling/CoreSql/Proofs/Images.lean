import CoreSql.Lib.Lists
import CoreSql.Proofs.Structure
import CoreSql.Query.Ranges
import CoreSql.Storage.IndexCache

/-!
# Images of integer keys

An image is bytes. `Image.Holds` says which records its bytes are; under it
the binary search, the lookup and the range over the bytes are the ones of
the list of records. Building an image from rows by runs and a merge comes to
the same as entering the rows one by one: the same records, or the same
complaint about a key that occurs twice.
-/

namespace CoreSql

/-! ## Searching -/

namespace Image

variable {i m first last : Nat}

/-- The records an image consists of, all of them readable. -/
structure Holds (x : Image) (records : List (Int × RowLocation)) : Prop where
  count : x.count = records.length
  get : ∀ i (h : i < records.length), x.get i = .ok records[i]

variable {x : Image} {records : List (Int × RowLocation)} {key : Int}

theorem recordAt_of_get {e : Int × RowLocation} (h : x.get i = .ok e) :
    recordAt x.bytes i = .ok e := by
  obtain ⟨record, hrecord, h⟩ := Fallible.bind_eq_ok.mp h
  split at h
  · cases h
  · cases h
    exact hrecord

theorem Holds.index (h : x.Holds records) : x.index = { base := records } := by
  have hall : (List.range x.count).map (fun i => (recordAt x.bytes i).toOption) =
      records.map some := by
    refine List.ext_getElem (by simp [h.count]) fun i hi hi' => ?_
    rw [List.length_map] at hi'
    simp [recordAt_of_get (h.get i hi'), Except.toOption]
  have hbase := congrArg (List.filterMap id) hall
  rw [List.filterMap_map, List.filterMap_map] at hbase
  rw [Image.index]
  exact congrArg (fun records => ({ base := records } : PagedIndex))
    (hbase.trans List.filterMap_some)

structure Cut (records : List (Int × RowLocation)) (key : Int) (m : Nat) : Prop where
  le : m ≤ records.length
  below : ∀ i (h : i < records.length), i < m → records[i].1 < key
  above : ∀ i (h : i < records.length), m ≤ i → key ≤ records[i].1

theorem Cut.drop_eq (h : Cut records key m) :
    records.drop m = records.dropWhile fun e => decide (e.1 < key) := by
  induction records generalizing m with
  | nil => simp
  | cons e records ih =>
    cases m with
    | zero =>
      have := h.above 0 (by simp) (Nat.zero_le 0)
      rw [List.drop_zero, List.dropWhile_cons_of_neg]
      simpa using this
    | succ m =>
      have := h.below 0 (by simp) (by omega)
      rw [List.drop_succ_cons, List.dropWhile_cons_of_pos (by simpa using this)]
      refine ih ⟨by simpa using h.le, fun i hi hm => ?_, fun i hi hm => ?_⟩
      · exact h.below (i + 1) (by simpa using hi) (by omega)
      · exact h.above (i + 1) (by simpa using hi) (by omega)

section

variable (h : x.Holds records)
include h

section

variable (hs : SortedMap.Sorted records)
include hs

theorem Holds.lowerBoundLoop (hle : first ≤ last) (hlast : last ≤ records.length)
    (hbelow : ∀ i (h : i < records.length), i < first → records[i].1 < key)
    (habove : ∀ i (h : i < records.length), last ≤ i → key ≤ records[i].1) :
    ∃ m, x.lowerBoundLoop key first last = .ok m ∧ Cut records key m := by
  fun_induction Image.lowerBoundLoop x key first last with
  | case1 first last hlt ih₁ ih₂ =>
    have hmiddle : first + (last - first) / 2 < records.length := by omega
    rw [h.get _ hmiddle]
    show ∃ m, (if (records[first + (last - first) / 2]).1 < key then _ else _) = _ ∧ _
    split
    · next hkey =>
        refine ih₁ (by omega) hlast (fun i hi hm => ?_) habove
        rcases Nat.lt_or_ge i (first + (last - first) / 2) with hi' | hi'
        · have := List.pairwise_iff_getElem.mp hs i _ hi hmiddle hi'
          omega
        · have : i = first + (last - first) / 2 := by omega
          subst this
          exact hkey
    · next hkey =>
        refine ih₂ (by omega) (by omega) hbelow (fun i hi hm => ?_)
        rcases Nat.lt_or_ge (first + (last - first) / 2) i with hi' | hi'
        · have := List.pairwise_iff_getElem.mp hs _ i hmiddle hi hi'
          omega
        · have : i = first + (last - first) / 2 := by omega
          subst this
          omega
  | case2 first last hge =>
    refine ⟨first, rfl, by omega, hbelow, fun i hi hm => habove i hi (by omega)⟩

theorem Holds.lowerBound (key : Int) : ∃ m, x.lowerBound key = .ok m ∧ Cut records key m := by
  rw [Image.lowerBound, h.count]
  exact h.lowerBoundLoop hs (Nat.zero_le _) le_rfl (fun i _ hi => absurd hi (Nat.not_lt_zero i))
    fun i hi hm => absurd hi (Nat.not_lt.mpr hm)

theorem Holds.lookup (key : Int) : x.lookup key = .ok (SortedMap.find key records) := by
  obtain ⟨m, hm, hcut⟩ := h.lowerBound hs key
  rw [Image.lookup, hm]
  show (if m = x.count then _ else _) = _
  rw [h.count]
  split
  · next heq =>
      rw [SortedMap.find_eq_none_iff.mpr]
      · rfl
      · intro e he
        obtain ⟨i, hi, rfl⟩ := List.mem_iff_getElem.mp he
        exact ne_of_lt (hcut.below i hi (by omega))
  · next hne =>
      have hlt : m < records.length := lt_of_le_of_ne hcut.le hne
      rw [h.get m hlt]
      show Except.ok (if (records[m]).1 = key then _ else _) = _
      congr 1
      split
      · next heq =>
          rw [← heq]
          exact (hs.find_of_mem (List.getElem_mem hlt)).symm
      · next hne =>
          refine (SortedMap.find_eq_none_iff.mpr fun e he => ?_).symm
          obtain ⟨i, hi, rfl⟩ := List.mem_iff_getElem.mp he
          rcases lt_trichotomy i m with hlt' | rfl | hgt
          · exact ne_of_lt (hcut.below i hi hlt')
          · exact hne
          · have hle := hcut.above m hlt le_rfl
            have := List.pairwise_iff_getElem.mp hs m i hlt hi hgt
            omega

end

theorem Holds.rangeLoop (hi : Int) (position : Nat) :
    x.rangeLoop hi position = .ok (PagedIndex.rangeLoop hi (records.drop position) []) := by
  fun_induction Image.rangeLoop x hi position with
  | case1 position hlt ih =>
    have hlt : position < records.length := h.count ▸ hlt
    rw [h.get position hlt, List.drop_eq_getElem_cons hlt, PagedIndex.rangeLoop]
    show (if hi < (records[position]).1 then _ else _) = _
    split
    · next hgt => rw [if_neg (by omega)]; rfl
    · next hle => rw [if_pos (by omega), ih]; rfl
  | case2 position hge =>
    rw [List.drop_eq_nil_of_le (by rw [← h.count]; omega), PagedIndex.rangeLoop]

theorem Holds.range (hs : SortedMap.Sorted records) (lo hi : Int) : x.range lo hi =
      .ok (PagedIndex.rangeLoop hi (records.dropWhile fun e => decide (e.1 < lo)) []) := by
  obtain ⟨m, hm, hcut⟩ := h.lowerBound hs lo
  rw [Image.range, hm, ← hcut.drop_eq]
  exact h.rangeLoop hi m

end

end Image

/-! ## Writing -/

def RecordFits (e : Int × RowLocation) : Prop :=
  -2 ^ 63 ≤ e.1 ∧ e.1 < 2 ^ 63 ∧ e.2.chunk < 2 ^ 64 ∧ e.2.slot ≤ uint32Max

def imageOf (records : List (Int × RowLocation)) : Image :=
  ⟨records.flatMap writeKey, records.length⟩

theorem length_writeKey (e : Int × RowLocation) : (writeKey e).length = recordSize := by
  simp [writeKey, recordSize]

theorem recordWords_reads {e : Int × RowLocation} (h : RecordFits e) :
    Decoder.Reads recordWords (writeKey e) e := by
  obtain ⟨hlo, hhi, hchunk, hslot⟩ := h
  have hslot : e.2.slot < 2 ^ 64 := by
    simp only [uint32Max] at hslot
    omega
  intro rest
  rw [writeKey, List.append_assoc, List.append_assoc, recordWords,
    Decoder.bind_of_ok (u64_reads (toWord_lt e.1) _), Decoder.bind_of_ok (u64_reads hchunk _),
    Decoder.bind_of_ok (u64_reads hslot _), ofWord_toWord hlo hhi, Decoder.pure_apply]

theorem imageOf_holds {records : List (Int × RowLocation)} (h : ∀ e ∈ records, RecordFits e) :
    (imageOf records).Holds records where
  count := rfl
  get i hi := by
    have hblock : ((records.flatMap writeKey).drop (i * recordSize)).take recordSize =
        writeKey records[i] := by
      rw [Lists.drop_flatMap (fun e _ => length_writeKey e), List.drop_eq_getElem_cons hi,
        List.flatMap_cons, ← length_writeKey records[i], List.take_left]
    have hfits := h _ (List.getElem_mem hi)
    have hrecord : recordAt (records.flatMap writeKey) i = .ok records[i] := by
      rw [recordAt, hblock]
      exact (recordWords_reads hfits).run
    show readKey (records.flatMap writeKey) i = _
    rw [readKey, hrecord]
    show (if uint32Max < (records[i]).2.slot then _ else _) = _
    rw [if_neg (Nat.not_lt.mpr hfits.2.2.2)]
    rfl

namespace ImageWriter

variable {w w' : ImageWriter} {l : List (Int × RowLocation)}

/-- Only keys in strict order are written, and they are written as they are. -/
theorem foldlM_add_ok (h : l.foldlM add w = .ok w') :
    (∀ p ∈ w.previous, ∀ e ∈ l, p < e.1) ∧ SortedMap.Sorted l ∧
      w'.bytes = w.bytes ++ l.flatMap writeKey ∧ w'.count = w.count + l.length := by
  induction l generalizing w with
  | nil =>
    cases h
    simp
  | cons e l ih =>
    rw [List.foldlM_cons] at h
    obtain ⟨w₁, hadd, h⟩ := Fallible.bind_eq_ok.mp h
    rw [add] at hadd
    split at hadd
    · cases hadd
    · next hnew =>
        cases hadd
        obtain ⟨hfirst, hsorted, hbytes, hcount⟩ := ih h
        have hnew : ∀ p ∈ w.previous, p < e.1 := by
          intro p hp
          rw [Option.mem_def] at hp
          simpa [hp] using hnew
        refine ⟨fun p hp e' he' => ?_, List.pairwise_cons.mpr ⟨hfirst e.1 rfl, hsorted⟩, ?_, ?_⟩
        · rcases List.mem_cons.mp he' with rfl | he'
          · exact hnew p hp
          · exact lt_trans (hnew p hp) (hfirst e.1 rfl e' he')
        · rw [hbytes, List.flatMap_cons, List.append_assoc]
        · rw [hcount, List.length_cons, Nat.add_assoc, Nat.add_comm 1]

theorem foldlM_add_error {e : Error} (h : l.foldlM add w = .error e) :
    e = HashIndex.duplicateError := by
  induction l generalizing w with
  | nil => cases h
  | cons a l ih =>
    rw [List.foldlM_cons] at h
    rcases Fallible.bind_eq_error.mp h with hadd | ⟨w₁, -, h⟩
    · rw [add] at hadd
      split at hadd
      · cases hadd
        rfl
      · cases hadd
    · exact ih h

theorem foldlM_add_of_sorted (hs : SortedMap.Sorted l) (hp : ∀ p ∈ w.previous, ∀ e ∈ l, p < e.1) :
    ∃ w', l.foldlM add w = .ok w' := by
  induction l generalizing w with
  | nil => exact ⟨w, rfl⟩
  | cons e l ih =>
    have hnew : ¬(w.previous.any fun previous => decide (e.1 ≤ previous)) = true := by
      cases hprevious : w.previous with
      | none => simp
      | some p => simpa using hp p hprevious e List.mem_cons_self
    obtain ⟨w', hw'⟩ := ih (w := ⟨w.bytes ++ writeKey e, w.count + 1, some e.1⟩) hs.tail
      fun p hp e' he' => by
        cases hp
        exact hs.head_lt he'
    refine ⟨w', ?_⟩
    rw [List.foldlM_cons, add, if_neg hnew]
    exact hw'

end ImageWriter

/-! ## Runs -/

namespace Runs

/-- Everything seen so far, the runs on disk in order. -/
structure Of (r : Runs) (seen : List (Int × RowLocation)) : Prop where
  perm : (r.done.flatten ++ r.buffer).Perm seen
  ascending : ∀ run ∈ r.done, Merge.Ascending Prod.fst run

variable {r : Runs} {seen : List (Int × RowLocation)}

theorem Of.flush (h : r.Of seen) : r.flush.Of seen ∧ r.flush.buffer = [] := by
  rw [Runs.flush]
  split
  · next hempty => exact ⟨h, List.isEmpty_iff.mp hempty⟩
  · have hsort := List.mergeSort_perm r.buffer fun a b => decide (a.1 ≤ b.1)
    refine ⟨⟨?_, fun run hrun => ?_⟩, rfl⟩
    · simp only [List.flatten_append, List.flatten_cons, List.flatten_nil, List.append_nil]
      exact (hsort.append_left _).trans h.perm
    · rcases List.mem_append.mp hrun with hrun | hrun
      · exact h.ascending run hrun
      · rw [List.mem_singleton.mp hrun]
        have hsorted : (r.buffer.mergeSort fun a b => decide (a.1 ≤ b.1)).Pairwise
            fun a b => decide (a.1 ≤ b.1) = true := by
          refine List.pairwise_mergeSort (fun a b c hab hbc => ?_) (fun a b => ?_) r.buffer
          · simp only [decide_eq_true_eq] at hab hbc ⊢
            exact le_trans hab hbc
          · simpa using le_total a.1 b.1
        exact hsorted.imp fun hab => by simpa using hab

theorem Of.push (h : r.Of seen) (e : Int × RowLocation) : (r.push e).Of (seen ++ [e]) := by
  have hpushed : Of { r with buffer := r.buffer ++ [e] } (seen ++ [e]) := by
    refine ⟨?_, h.ascending⟩
    rw [← List.append_assoc]
    exact h.perm.append_right [e]
  rw [Runs.push]
  split
  · exact hpushed.flush.1
  · exact hpushed

theorem of_foldl_push (l : List (Int × RowLocation)) (h : r.Of seen) :
    (l.foldl Runs.push r).Of (seen ++ l) := by
  induction l generalizing r seen with
  | nil => rwa [List.append_nil]
  | cons e l ih =>
    rw [List.foldl_cons, List.append_cons]
    exact ih (h.push e)

end Runs

def keysOf (source : List (Value × RowLocation)) : List (Int × RowLocation) :=
  source.map fun e => (payload e.1, e.2)

theorem merged_keys (source : List (Value × RowLocation)) :
    (Merge.drain Prod.fst ((keysOf source).foldl Runs.push {}).flush.done).Perm (keysOf source) ∧
      Merge.Ascending Prod.fst
        (Merge.drain Prod.fst ((keysOf source).foldl Runs.push {}).flush.done) := by
  have hnone : Runs.Of {} [] := ⟨.refl _, by simp⟩
  obtain ⟨hflushed, hbuffer⟩ := (Runs.of_foldl_push (keysOf source) hnone).flush
  refine ⟨(Merge.drain_perm _).trans ?_, Merge.drain_ascending hflushed.ascending⟩
  have := hflushed.perm
  rwa [hbuffer, List.append_nil] at this

/-! ## Entering rows one by one -/

namespace PagedIndex

variable {records records' : List (Int × RowLocation)} {source : List (Value × RowLocation)}
  {err : Error}

theorem foldlM_enter_ok (hs : SortedMap.Sorted records)
    (h : source.foldlM enter records = .ok records') :
    SortedMap.Sorted records' ∧ records'.Perm (records ++ keysOf source) := by
  induction source generalizing records with
  | nil =>
    cases h
    exact ⟨hs, by simp [keysOf]⟩
  | cons e source ih =>
    rw [List.foldlM_cons] at h
    obtain ⟨records₁, hone, h⟩ := Fallible.bind_eq_ok.mp h
    rw [enter] at hone
    split at hone
    · cases hone
    · next hnone =>
        cases hone
        obtain ⟨hsorted, hperm⟩ := ih hs.insert h
        refine ⟨hsorted, hperm.trans ?_⟩
        have hinsert := (SortedMap.insert_perm (v := e.2) hnone).append_right (keysOf source)
        exact hinsert.trans List.perm_middle.symm

theorem foldlM_enter_error (h : source.foldlM enter records = .error err) :
    err = HashIndex.duplicateError ∧ ¬((records ++ keysOf source).map Prod.fst).Nodup := by
  induction source generalizing records with
  | nil => cases h
  | cons e source ih =>
    rw [List.foldlM_cons] at h
    have hsplit : records ++ keysOf (e :: source) =
        records ++ (payload e.1, e.2) :: keysOf source := rfl
    rcases Fallible.bind_eq_error.mp h with hone | ⟨records₁, hone, h⟩
    · rw [enter] at hone
      split at hone
      · next l hfound =>
          cases hone
          refine ⟨rfl, fun hnodup => ?_⟩
          rw [hsplit, List.map_append] at hnodup
          refine (List.nodup_append.mp hnodup).2.2 (payload e.1) ?_ (payload e.1) (by simp) rfl
          exact List.mem_map.mpr ⟨_, SortedMap.mem_of_find hfound, rfl⟩
      · cases hone
    · rw [enter] at hone
      split at hone
      · cases hone
      · next hnone =>
          cases hone
          obtain ⟨herr, hdup⟩ := ih h
          refine ⟨herr, fun hnodup => hdup ?_⟩
          have hinsert := (SortedMap.insert_perm (v := e.2) hnone).append_right (keysOf source)
          exact ((hinsert.trans List.perm_middle.symm).map Prod.fst).nodup_iff.mpr hnodup

/-- An image is built exactly of sorted records that are the keys. -/
theorem build_eq_ok_iff {x : PagedIndex} : build source = .ok x ↔
      SortedMap.Sorted x.base ∧ x.base.Perm (keysOf source) ∧ x.changes = [] := by
  constructor
  · intro h
    obtain ⟨records, hrecords, h⟩ := Fallible.bind_eq_ok.mp h
    cases h
    obtain ⟨hsorted, hperm⟩ := foldlM_enter_ok SortedMap.sorted_nil hrecords
    exact ⟨hsorted, by simpa using hperm, rfl⟩
  · rintro ⟨hsorted, hperm, hchanges⟩
    have hnodup : ((keysOf source).map Prod.fst).Nodup :=
      (hperm.map Prod.fst).nodup_iff.mp ((List.pairwise_map.mpr hsorted).imp ne_of_lt)
    cases hfold : source.foldlM enter [] with
    | error err =>
      exact absurd (by simpa using hnodup) (foldlM_enter_error hfold).2
    | ok records =>
      obtain ⟨hsorted', hperm'⟩ := foldlM_enter_ok SortedMap.sorted_nil hfold
      have heq : records = x.base := (hperm'.trans (by simpa using hperm.symm)).eq_of_pairwise
          (fun a b _ _ hab hba => absurd hab (not_lt.mpr (le_of_lt hba))) hsorted' hsorted
      obtain ⟨base, changes⟩ := x
      subst hchanges heq
      rw [build, hfold]
      rfl

theorem build_eq_error (h : build source = .error err) :
    err = HashIndex.duplicateError ∧ ¬((keysOf source).map Prod.fst).Nodup := by
  rcases Fallible.bind_eq_error.mp h with h | ⟨records, -, h⟩
  · simpa using foldlM_enter_error h
  · cases h

end PagedIndex

/-- The external sort builds the image of what entering rows one by one
builds. -/
theorem buildImage_eq (source : List (Value × RowLocation)) :
    buildImage source = (PagedIndex.build source).map fun x => imageOf x.base := by
  obtain ⟨hperm, hascending⟩ := merged_keys source
  show ((Merge.drain Prod.fst ((keysOf source).foldl Runs.push {}).flush.done).foldlM
    ImageWriter.add {} >>= fun writer => pure writer.finish) = _
  generalize Merge.drain Prod.fst ((keysOf source).foldl Runs.push {}).flush.done = merged
    at hperm hascending
  cases hwrite : merged.foldlM ImageWriter.add {} with
  | ok w =>
    obtain ⟨-, hsorted, hbytes, hcount⟩ := ImageWriter.foldlM_add_ok hwrite
    have hbuild : PagedIndex.build source = .ok { base := merged } :=
      PagedIndex.build_eq_ok_iff.mpr ⟨hsorted, hperm, rfl⟩
    rw [hbuild]
    show Except.ok w.finish = .ok (imageOf merged)
    rw [ImageWriter.finish, hbytes, hcount]
    simp [imageOf]
  | error err =>
    cases ImageWriter.foldlM_add_error hwrite
    cases hbuild : PagedIndex.build source with
    | error err =>
      cases (PagedIndex.build_eq_error hbuild).1
      rfl
    | ok x =>
      -- Keys that are all different are in strict order once they are in order.
      obtain ⟨hsorted, hbase, -⟩ := PagedIndex.build_eq_ok_iff.mp hbuild
      have hnodup : (merged.map Prod.fst).Nodup :=
        ((hperm.trans hbase.symm).map Prod.fst).nodup_iff.mpr
          ((List.pairwise_map.mpr hsorted).imp ne_of_lt)
      have hstrict : SortedMap.Sorted merged :=
        (hascending.and (List.pairwise_map.mp hnodup)).imp fun h => lt_of_le_of_ne h.1 h.2
      obtain ⟨w, hw⟩ := ImageWriter.foldlM_add_of_sorted (w := {}) hstrict (by simp)
      rw [hw] at hwrite
      cases hwrite

end CoreSql
