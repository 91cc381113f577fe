import CoreSql.Storage.DurableStore

/-!
# Recovery finds the last commit

`recover` accepts exactly the logs: the magic, records that can be applied one
after the other, and at the end what does not hold a whole record. Over it are

* `Behind`: the file of a background checkpoint is its record and the records
  after it up to some point of the log, which goes on to the last commit;
* `Safe`: the file with the database's name is the log of the committed
  records, or after an error that of the commit that failed.

Each kind of event keeps `Safe`, so every run does. None of this looks into a
record: whatever the encoders wrote is what a reopening replays.
-/

namespace CoreSql.DurableStore

open Fallible

variable {σ : Type} {apply : σ → Bytes → Except Error σ} {s s' next : σ} {p t rest bytes : Bytes}
  {position n size file : Nat} {ps qs rs : List Bytes}

def log (ps : List Bytes) : Bytes := magic ++ ps.flatMap frame

/-- What does not hold a whole record: less than a header, or a header in order that asks for more
than there is. Sixteen bytes or more that are no header are not torn but corrupt. -/
def Torn (t : Bytes) : Prop :=
  t.length < 16 ∨
    ∃ size, 32 ≤ size ∧ size ≤ maxEncodedBytes ∧ header size <+: t ∧ t.length < 24 + size

theorem length_header : (header size).length = 16 := by
  simp only [header, List.length_append, length_u64]

theorem length_marker : marker.length = 8 := by decide +kernel

theorem length_magic : magic.length = 8 := by decide +kernel

theorem length_frame : (frame p).length = 24 + p.length := by
  simp only [frame, List.length_append, length_header, length_marker]
  omega

theorem log_append (ps qs : List Bytes) : log (ps ++ qs) = log ps ++ qs.flatMap frame := by
  rw [log, log, List.flatMap_append, List.append_assoc]

theorem torn_nil : Torn [] := .inl (by decide)

theorem torn_take (hp : Record p) (h : n < (frame p).length) : Torn ((frame p).take n) := by
  rw [length_frame] at h
  rcases Nat.lt_or_ge n 16 with hlt | hge
  · exact .inl (by rw [List.length_take]; omega)
  · refine .inr ⟨p.length, hp.1, hp.2, ?_, by rw [List.length_take]; omega⟩
    rw [frame, List.append_assoc, List.take_append, length_header,
      List.take_of_length_le (by rw [length_header]; omega)]
    exact List.prefix_append ..

theorem decode_u64 (h : n < 2 ^ 64) : LittleEndian.decode (u64 n) = n := by
  rw [u64, LittleEndian.decode_encode]
  exact Nat.mod_eq_of_lt h

theorem u64_decode (h : t.length = 8) : u64 (LittleEndian.decode t) = t := by
  have := LittleEndian.encode_decode t
  rwa [h] at this

theorem decode_header (hsize : size ≤ maxEncodedBytes) (h : header size <+: t) :
    LittleEndian.decode (t.take 8) = size ∧
      LittleEndian.decode ((t.drop 8).take 8) = 2 ^ 64 - 1 - size := by
  have hmax : size < 2 ^ 64 := Nat.lt_of_le_of_lt hsize (by decide)
  obtain ⟨u, rfl⟩ := h
  rw [header, List.append_assoc, List.take_left' (length_u64 _), List.drop_left' (length_u64 _),
    List.take_left' (length_u64 _)]
  exact ⟨decode_u64 hmax, decode_u64 (by omega)⟩

theorem header_decode (hlen : 16 ≤ t.length)
    (h : LittleEndian.decode ((t.drop 8).take 8) = 2 ^ 64 - 1 - LittleEndian.decode (t.take 8)) :
    header (LittleEndian.decode (t.take 8)) = t.take 16 := by
  have hfirst : (t.take 8).length = 8 := by
    rw [List.length_take]
    omega
  have hsecond : ((t.drop 8).take 8).length = 8 := by
    rw [List.length_take, List.length_drop]
    omega
  rw [header, ← h, u64_decode hfirst, u64_decode hsecond, ← List.take_add]

theorem recoverFrom_frame (hp : Record p) : recoverFrom apply s position (frame p ++ rest) =
      (apply s p >>= fun s => recoverFrom apply s (position + (frame p).length) rest) := by
  have hlen : (frame p ++ rest).length = 24 + p.length + rest.length := by
    rw [List.length_append, length_frame]
  have hfront : frame p ++ rest = header p.length ++ (p ++ (marker ++ rest)) := by
    rw [frame]
    simp only [List.append_assoc]
  have hprefix : header p.length <+: frame p ++ rest := hfront ▸ List.prefix_append _ _
  obtain ⟨hsize, hinverse⟩ := decode_header hp.2 hprefix
  have h16 : (frame p ++ rest).drop 16 = p ++ (marker ++ rest) := by
    rw [hfront]
    exact List.drop_left' length_header
  have hmarker : ((frame p ++ rest).drop (16 + p.length)).take 8 = marker := by
    rw [← List.drop_drop, h16, List.drop_left]
    exact List.take_left' length_marker
  rw [recoverFrom, if_neg (by omega), hsize, hinverse]
  dsimp only
  rw [if_neg (by have := hp.1; have := hp.2; omega), if_neg (by omega), hmarker,
    if_neg (fun h => h rfl), h16, List.take_left, length_frame,
    List.drop_left' (by rw [length_frame])]

theorem recoverFrom_torn (h : Torn t) : recoverFrom apply s position t = .ok (s, position) := by
  rw [recoverFrom]
  rcases h with hlt | ⟨size, hmin, hmax, hheader, hlt⟩
  · rw [if_pos hlt]
  · obtain ⟨hsize, hinverse⟩ := decode_header hmax hheader
    have := length_header ▸ hheader.length_le
    rw [if_neg (by omega), hsize, hinverse]
    dsimp only
    rw [if_neg (by omega), if_pos (by omega)]

/-- Recovering a log with a torn record at its end replays the records before that. -/
theorem recover_log (hps : ∀ p ∈ ps, Record p) (ht : Torn t) : recover apply s (log ps ++ t) =
    (ps.foldlM apply s).map fun s' => (s', (log ps).length) := by
  have hloop : ∀ position, recoverFrom apply s position (ps.flatMap frame ++ t) =
      (ps.foldlM apply s).map fun s' => (s', position + (ps.flatMap frame).length) := by
    induction ps generalizing s with
    | nil => exact fun position => recoverFrom_torn ht
    | cons p ps ih =>
      intro position
      rw [List.flatMap_cons, List.append_assoc, recoverFrom_frame (hps p List.mem_cons_self),
        List.foldlM_cons]
      cases apply s p with
      | error e => rfl
      | ok s₁ =>
        rw [ok_bind, ok_bind, ih (fun q hq => hps q (List.mem_cons_of_mem _ hq)),
          List.length_append, Nat.add_assoc]
  rw [recover, log, List.append_assoc, if_neg (by rw [List.length_append, length_magic]; omega),
    List.take_left' length_magic, if_neg (fun h => h rfl), List.drop_left' length_magic, hloop,
    List.length_append, length_magic]

theorem records_log (hps : ∀ p ∈ ps, Record p) (ht : Torn t) : records (log ps ++ t) = ps := by
  have hcollect : ∀ (qs : List Bytes),
    ps.foldlM (fun ps p => (.ok (ps ++ [p]) : Except Error _)) qs =
      .ok (qs ++ ps) := by
    clear hps
    induction ps with
    | nil => exact fun qs => congrArg Except.ok (List.append_nil qs).symm
    | cons p ps ih =>
      intro qs
      rw [List.foldlM_cons, ok_bind, ih, List.append_assoc]
      rfl
  rw [records, recover_log hps ht, hcollect]
  rfl

theorem eq_frame (size : Nat) (hlen : 24 + size ≤ t.length) (hheader : header size = t.take 16)
    (hmarker : (t.drop (16 + size)).take 8 = marker) : ((t.drop 16).take size).length = size ∧
      t = frame ((t.drop 16).take size) ++ t.drop (24 + size) := by
  have hsize : ((t.drop 16).take size).length = size := by
    rw [List.length_take, List.length_drop]
    omega
  have hdrop : t.drop (24 + size) = (t.drop (16 + size)).drop 8 := by
    rw [List.drop_drop]
    congr 1
    omega
  refine ⟨hsize, ?_⟩
  rw [frame, hsize, hheader, ← hmarker, hdrop, ← List.drop_drop, List.append_assoc,
    List.append_assoc, List.take_append_drop, List.take_append_drop, List.take_append_drop]

theorem recoverFrom_ok (h : recoverFrom apply s position rest = .ok (s', n)) :
    ∃ (ps : List Bytes) (t : Bytes), (∀ p ∈ ps, Record p) ∧ rest = ps.flatMap frame ++ t ∧ Torn t ∧
      ps.foldlM apply s = .ok s' ∧ n = position + (ps.flatMap frame).length := by
  revert h
  fun_induction recoverFrom apply s position rest with
  | case1 s position rest hlt =>
    intro h
    cases h
    exact ⟨[], rest, by simp, rfl, .inl hlt, rfl, rfl⟩
  | case2 => exact fun h => by cases h
  | case3 s position rest hge size hbad hlt =>
    intro h
    cases h
    simp only [not_or, not_not] at hbad
    refine ⟨[], rest, by simp, rfl, .inr ⟨size, by omega, by omega, ?_, by omega⟩, rfl, rfl⟩
    exact header_decode (by omega) hbad.1 ▸ List.take_prefix ..
  | case4 => exact fun h => by cases h
  | case5 s position rest hge size hbad hlong hmarker ih =>
    intro h
    simp only [not_or, not_not] at hbad hmarker
    obtain ⟨hsize, hrest⟩ := eq_frame size (by omega) (header_decode (by omega) hbad.1) hmarker
    obtain ⟨s₁, hs₁, h⟩ := bind_eq_ok.mp h
    obtain ⟨ps, t, hps, hdrop, ht, hfold, hn⟩ := ih s₁ h
    refine ⟨(rest.drop 16).take size :: ps, t, List.forall_mem_cons.mpr ⟨⟨by omega, by omega⟩, hps⟩,
      ?_, ht, ?_, ?_⟩
    · rw [List.flatMap_cons, List.append_assoc, ← hdrop]
      exact hrest
    · rw [List.foldlM_cons, hs₁]
      exact hfold
    · rw [hn, List.flatMap_cons, List.length_append, length_frame]
      omega

/-- A file opens exactly if it is a log whose records can be applied one after the other, up to a
torn record. What follows the last whole record is cut off; if it has 16 bytes or more, they must
begin with a header that asks for more than there is. -/
theorem recover_eq_ok_iff {file : Bytes} : recover apply s file = .ok (s', n) ↔
    ∃ (ps : List Bytes) (t : Bytes), (∀ p ∈ ps, Record p) ∧ file = log ps ++ t ∧ Torn t ∧
      ps.foldlM apply s = .ok s' ∧ n = (log ps).length := by
  constructor
  · intro h
    rw [recover] at h
    split at h
    · cases h
    split at h
    · cases h
    next hmagic =>
    obtain ⟨ps, t, hps, hrest, ht, hfold, rfl⟩ := recoverFrom_ok h
    refine ⟨ps, t, hps, ?_, ht, hfold, by rw [log, List.length_append, length_magic]⟩
    rw [log, List.append_assoc, ← hrest, ← not_not.mp hmagic, List.take_append_drop]
  · rintro ⟨ps, t, hps, rfl, ht, hfold, rfl⟩
    rw [recover_log hps ht, hfold]
    rfl

/-! ## Commits and checkpoints -/

variable {w : World} {b : Checkpoint} {files files' : Nat → Bytes} {committed : List Bytes}
  {registry : Registry}

theorem tail_log (ps qs rs : List Bytes) :
    ((log (ps ++ qs ++ rs)).take (log (ps ++ qs)).length).drop (log ps).length =
      qs.flatMap frame := by
  rw [log_append (ps ++ qs), List.take_left, log_append ps, List.drop_left]

/-- The bytes are the record of the checkpoint and the records of `ps` after those it was made
for. -/
def Image (b : Checkpoint) (ps : List Bytes) (bytes : Bytes) : Prop :=
  Record b.record ∧ ∃ later, ps = b.captured ++ later ∧ bytes = log (b.record :: later)

theorem Image.append (h : Image b ps bytes) : Image b (ps ++ qs) (bytes ++ qs.flatMap frame) := by
  obtain ⟨hrecord, later, rfl, rfl⟩ := h
  exact ⟨hrecord, later ++ qs, List.append_assoc .., (log_append (b.record :: later) qs).symm⟩

/-- The file of a background checkpoint has the records `ps`; `qs` were added since. -/
structure Behind (files : Nat → Bytes) (committed : List Bytes) (b : Checkpoint)
    (ps qs : List Bytes) : Prop where
  source : files b.source = log (ps ++ qs)
  all : ps ++ qs = committed
  copied : b.copied = (log ps).length
  unwritten : b.stage = .begun → files b.fresh = [] ∧ ps = b.captured
  written : b.stage ≠ .begun → Image b ps (files b.fresh)
  copying : ∀ e, b.stage = .copying e → ∃ qs₁ qs₂, qs = qs₁ ++ qs₂ ∧ e = (log (ps ++ qs₁)).length

theorem Behind.congr (h : Behind files committed b ps qs)
    (hsource : files' b.source = files b.source) (hfresh : files' b.fresh = files b.fresh) :
    Behind files' committed b ps qs :=
  ⟨hsource ▸ h.source, h.all, h.copied, hfresh ▸ h.unwritten, hfresh ▸ h.written, h.copying⟩

theorem Behind.grow (h : Behind files committed b ps qs)
    (hsource : files' b.source = files b.source ++ frame p)
    (hfresh : files' b.fresh = files b.fresh) :
    Behind files' (committed ++ [p]) b ps (qs ++ [p]) := by
  refine ⟨?_, ?_, h.copied, hfresh ▸ h.unwritten, hfresh ▸ h.written, fun e he => ?_⟩
  · rw [hsource, h.source, ← List.append_assoc, log_append (ps ++ qs), List.flatMap_singleton]
  · rw [← List.append_assoc, h.all]
  · obtain ⟨qs₁, qs₂, hqs, he⟩ := h.copying e he
    exact ⟨qs₁, qs₂ ++ [p], by rw [hqs, List.append_assoc], he⟩

theorem Behind.copy (h : Behind files committed b ps (qs ++ rs)) (hwritten : b.stage ≠ .begun) :
    Image b (ps ++ qs)
      (files b.fresh ++ ((files b.source).take (log (ps ++ qs)).length).drop b.copied) := by
  rw [h.source, ← List.append_assoc, h.copied, tail_log]
  exact (h.written hwritten).append

/-- The database's file is the log of the committed records. After an error it may be that of the
commit that failed, and end with a part of a record. -/
def Held (w : World) : Prop :=
  ∃ ps t, w.files w.path = log ps ++ t ∧ Torn t ∧ (∀ p ∈ ps, Record p) ∧
    (ps = w.committed ∨ w.failed = true ∧ ps = w.attempted) ∧
    (w.failed = false → t = [] ∧ w.committedEnd = (log ps).length)

theorem held_log (hfile : w.files w.path = log ps) (hps : ∀ p ∈ ps, Record p)
    (hs : ps = w.committed ∨ w.failed = true ∧ ps = w.attempted)
    (hend : w.committedEnd = (log ps).length) : Held w :=
  ⟨ps, [], by rw [hfile, List.append_nil], torn_nil, hps, hs, fun _ => ⟨rfl, hend⟩⟩

theorem Held.log (h : Held w) (hf : w.failed = false) :
    w.files w.path = log w.committed ∧ (∀ p ∈ w.committed, Record p) ∧
      w.committedEnd = (log w.committed).length := by
  obtain ⟨ps, t, hfile, -, hps, hs, hclean⟩ := h
  obtain ⟨rfl, hend⟩ := hclean hf
  rcases hs with rfl | ⟨hf', -⟩
  · exact ⟨by rw [hfile, List.append_nil], hps, hend⟩
  · cases hf.symm.trans hf'

theorem Held.write (h : Held w) (hne : w.path ≠ file) : Held (w.write file bytes) := by
  obtain ⟨ps, t, hfile, hrest⟩ := h
  exact ⟨ps, t, (Function.update_of_ne hne ..).trans hfile, hrest⟩

/-- A background checkpoint that was not overtaken is behind the committed records, as long as no
error strikes. -/
structure Safe (w : World) : Prop where
  path : w.path < w.next
  fresh : ∀ b, w.background = some b →
    b.fresh < w.next ∧ b.fresh ≠ w.path ∧ b.generation ≤ w.generation
  held : Held w
  behind : w.failed = false → ∀ b, w.background = some b → b.generation = w.generation →
    b.source = w.path ∧ ∃ ps qs, Behind w.files w.committed b ps qs

section

variable (h : Safe w)
include h

theorem Safe.drop : Safe { w with background := none } := ⟨h.path, by simp, h.held, by simp⟩

theorem Safe.work {f : Checkpoint → World}
    (hf : ∀ b, w.background = some b → Safe (f b)) : Safe (w.work f) := by
  rw [World.work]
  cases hb : w.background with
  | none => exact h
  | some b => exact hf b hb

/-- A background checkpoint goes on, and writes to its own file. -/
theorem Safe.advance (hb : w.background = some b) (bytes record : Bytes) (copied : Nat)
    (stage : Stage)
    (hnext : w.failed = false → b.generation = w.generation → b.source ≠ b.fresh → ∀ ps qs,
      Behind w.files w.committed b ps qs → w.files w.path = log (ps ++ qs) → ∃ ps qs,
        Behind (Function.update w.files b.fresh bytes) w.committed
          { b with copied, stage, record } ps qs) :
    Safe { w.write b.fresh bytes with background := some { b with copied, stage, record } } := by
  obtain ⟨hlt, hne, hle⟩ := h.fresh b hb
  refine ⟨h.path, fun d hd => ?_, h.held.write (Ne.symm hne), fun hfailed d hd hgen => ?_⟩
  · cases hd
    exact ⟨hlt, hne, hle⟩
  · cases hd
    obtain ⟨hb', ps, qs, hbehind⟩ := h.behind hfailed b hb hgen
    exact ⟨hb', hnext hfailed hgen (hb' ▸ hne.symm) ps qs hbehind (hb' ▸ hbehind.source)⟩

/-- A log takes the place of the database's file. -/
theorem Safe.replace (hfile : file < w.next) (hlog : w.files file = log ps)
    (hps : ∀ p ∈ ps, Record p) (hf : w.failed = false)
    (hfresh : ∀ b, w.background = some b → b.fresh ≠ file) (r : Replacement) :
    Safe (w.replace file ps r) := by
  have hnew : ∀ b, w.background = some b →
      b.fresh < w.next ∧ b.fresh ≠ file ∧ b.generation ≤ w.generation + 1 := fun b hb =>
    ⟨(h.fresh b hb).1, hfresh b hb, Nat.le_succ_of_le (h.fresh b hb).2.2⟩
  cases r with
  | before =>
    obtain ⟨hold, hrecords, -⟩ := h.held.log hf
    exact ⟨h.path, h.fresh, ⟨w.committed, [], by rw [List.append_nil]; exact hold, torn_nil,
      hrecords, .inl rfl, by simp [World.replace]⟩, by simp [World.replace]⟩
  | after =>
    exact ⟨hfile, hnew, held_log hlog hps (.inr ⟨rfl, rfl⟩) (congrArg _ hlog),
      by simp [World.replace]⟩
  | done =>
    refine ⟨hfile, hnew, held_log hlog hps (.inl rfl) (congrArg _ hlog), fun _ b hb hgen => ?_⟩
    have := (h.fresh b hb).2.2
    change b.generation = w.generation + 1 at hgen
    omega

theorem Safe.write (hne : w.path ≠ file)
    (hfresh : ∀ b, w.background = some b → b.fresh ≠ file) : Safe (w.write file bytes) := by
  refine ⟨h.path, h.fresh, h.held.write hne, fun hf b hb hgen => ?_⟩
  obtain ⟨hsource, ps, qs, hbehind⟩ := h.behind hf b hb hgen
  exact ⟨hsource, ps, qs, hbehind.congr (Function.update_of_ne (hsource ▸ hne) ..)
    (Function.update_of_ne (hfresh b hb) ..)⟩

theorem Safe.append (p : Encoded) (error : Option Nat) :
    Safe (step registry w (.append p error)) := by
  rw [step.eq_def]
  dsimp only
  cases hfailed : w.failed with
  | true => exact h
  | false =>
    simp only [Bool.false_eq_true, if_false]
    obtain ⟨hfile, hps, hend⟩ := h.held.log hfailed
    have hlog : w.files w.path ++ frame p = log (w.committed ++ [p.val]) := by
      rw [hfile, log_append, List.flatMap_singleton]
    have hnext : ∀ q ∈ w.committed ++ [p.val], Record q :=
      List.forall_mem_append.mpr ⟨hps, by simpa using p.property⟩
    cases error with
    | none =>
      refine ⟨h.path, h.fresh,
        held_log ((Function.update_self ..).trans hlog) hnext (.inl rfl) ?_,
        fun _ b hb hgen => ?_⟩
      · rw [log_append, List.length_append, List.flatMap_singleton, length_frame, ← hend]
      · obtain ⟨hsource, ps, qs, hbehind⟩ := h.behind hfailed b hb hgen
        refine ⟨hsource, ps, qs ++ [p.val], hbehind.grow ?_
          (Function.update_of_ne (h.fresh b hb).2.1 ..)⟩
        rw [hsource]
        exact Function.update_self ..
    | some k =>
      refine ⟨h.path, h.fresh, ?_, by simp⟩
      have hself := Function.update_self w.path (w.files w.path ++ (frame p).take k) w.files
      rcases Nat.lt_or_ge k (frame p).length with hlt | hge
      · exact ⟨w.committed, (frame p).take k, hself.trans (by rw [hfile]),
          torn_take p.property hlt, hps, .inl rfl, by simp⟩
      -- The record got there although the commit failed.
      · refine ⟨w.committed ++ [p.val], [], hself.trans ?_, torn_nil, hnext, .inr ⟨rfl, rfl⟩,
          by simp⟩
        rw [List.take_of_length_le hge, hlog, List.append_nil]

theorem Safe.checkpoint (p : Encoded) (r : Replacement) :
    Safe (step registry w (.checkpoint p r)) := by
  rw [step.eq_def]
  dsimp only
  cases hfailed : w.failed with
  | true => exact h
  | false =>
    simp only [Bool.false_eq_true, if_false]
    have hnew : ∀ b, w.background = some b → b.fresh ≠ w.next := fun b hb =>
      Nat.ne_of_lt (h.fresh b hb).1
    have hwritten : Safe (w.write w.next (magic ++ frame p)) :=
      h.write (Nat.ne_of_lt h.path) hnew
    have hsafe : Safe { w.write w.next (magic ++ frame p) with next := w.next + 1 } :=
      ⟨Nat.lt_succ_of_lt h.path,
        fun b hb => ⟨Nat.lt_succ_of_lt (h.fresh b hb).1, (h.fresh b hb).2⟩,
        hwritten.held, hwritten.behind⟩
    have hlog : log [p.val] = magic ++ frame p := by rw [log, List.flatMap_singleton]
    exact hsafe.replace (Nat.lt_succ_self _) ((Function.update_self ..).trans hlog.symm)
      (by simpa using p.property) hfailed hnew r

theorem Safe.prepare : Safe (step registry w .prepare) := by
  rw [step.eq_def]
  dsimp only
  cases hfailed : w.failed with
  | true => exact h
  | false =>
    cases hb : w.background with
    | some b => exact h
    | none =>
      have hne := Nat.ne_of_lt h.path
      obtain ⟨hfile, -, hend⟩ := h.held.log hfailed
      refine ⟨Nat.lt_succ_of_lt h.path, fun b hb => ?_, h.held.write hne, fun _ b hb _ => ?_⟩
      · cases hb
        exact ⟨Nat.lt_succ_self _, Nat.ne_of_gt h.path, Nat.le_refl _⟩
      · cases hb
        refine ⟨rfl, w.committed, [], ?_, List.append_nil _, hend,
          fun _ => ⟨Function.update_self .., rfl⟩, by simp, by simp⟩
        rw [List.append_nil, ← hfile]
        exact Function.update_of_ne hne ..

theorem Safe.encode (p : Option Encoded) : Safe (step registry w (.encode p)) := by
  refine h.work fun b hb => ?_
  split
  · next q hbegun =>
    refine h.advance hb _ q.val b.copied .encoded fun _ _ hne ps qs hbehind _ => ⟨ps, qs, ?_⟩
    obtain ⟨hempty, hcaptured⟩ := hbehind.unwritten hbegun
    refine ⟨(Function.update_of_ne hne ..).trans hbehind.source, hbehind.all, hbehind.copied,
      by simp, fun _ => ⟨q.property, [], hcaptured.trans (List.append_nil _).symm,
        (Function.update_self ..).trans ?_⟩, by simp⟩
    rw [hempty, List.nil_append, log, List.flatMap_singleton]
  · exact h.drop
  · exact h

theorem Safe.pass : Safe (step registry w .pass) := by
  refine h.work fun b hb => ?_
  split
  · exact h
  · exact h
  next hbegun _ =>
  split
  · exact h.drop
  split
  · exact h
  have hself := h.advance hb (w.files b.fresh) b.record b.copied (.copying w.committedEnd)
    fun hf _ _ ps qs hbehind hfile => ⟨ps, qs, by
      rw [Function.update_eq_self]
      refine ⟨hbehind.source, hbehind.all, hbehind.copied, by simp,
        fun _ => hbehind.written hbegun, fun e he => ?_⟩
      cases he
      exact ⟨qs, [], (List.append_nil _).symm, by rw [(h.held.log hf).2.2, hbehind.all]⟩⟩
  rwa [World.write, Function.update_eq_self] at hself

theorem Safe.copy : Safe (step registry w .copy) := by
  refine h.work fun b hb => ?_
  split
  · next e hstage =>
    refine h.advance hb _ b.record (max b.copied e) .ready fun _ _ hne ps qs hbehind _ => ?_
    obtain ⟨qs₁, qs₂, rfl, rfl⟩ := hbehind.copying e hstage
    refine ⟨ps ++ qs₁, qs₂, ?_, (List.append_assoc ..).trans hbehind.all, ?_, by simp,
      fun _ => ?_, by simp⟩
    · rw [List.append_assoc]
      exact (Function.update_of_ne hne ..).trans hbehind.source
    · show max b.copied _ = _
      rw [hbehind.copied, log_append ps, List.length_append]
      omega
    · rw [Function.update_self]
      exact hbehind.copy (by simp [hstage])
  · exact h

/-- With the last records copied, the file of a checkpoint that is ready has its own record and then
every record committed since it was captured. -/
theorem Safe.image (hf : w.failed = false) (hb : w.background = some b)
    (hgen : b.generation = w.generation) (hready : b.stage = .ready) :
    Image b w.committed ((w.copyTail b w.committedEnd).files b.fresh) := by
  obtain ⟨hsource, ps, qs, hbehind⟩ := h.behind hf b hb hgen
  have himage := ((List.append_nil qs).symm ▸ hbehind).copy (by simp [hready])
  rw [hbehind.all, ← (h.held.log hf).2.2] at himage
  have hself : (w.copyTail b w.committedEnd).files b.fresh =
      w.files b.fresh ++ ((w.files b.source).take w.committedEnd).drop b.copied :=
    Function.update_self ..
  exact hself ▸ himage

theorem Safe.publish (r : Replacement) : Safe (step registry w (.publish r)) ∧
    ((step registry w (.publish r)).path = w.path ∨
      ∃ b later, w.background = some b ∧ b.generation = w.generation ∧
        w.committed = b.captured ++ later ∧
        (step registry w (.publish r)).files (step registry w (.publish r)).path =
          log (b.record :: later)) := by
  rw [step.eq_def]
  dsimp only
  rw [World.work]
  cases hb : w.background with
  | none => exact ⟨h, .inl rfl⟩
  | some b =>
    dsimp only [Option.elim]
    split
    · exact ⟨h.drop, .inl rfl⟩
    next hlive =>
    split
    · split
      · exact ⟨h, .inl rfl⟩
      next hready _ =>
      simp only [not_or, Bool.not_eq_true, not_not] at hlive
      obtain ⟨hrecord, later, hlater, hnew⟩ := h.image hlive.1 hb hlive.2 hready
      have hps : ∀ p ∈ b.record :: later, Record p := by
        have hall := (h.held.log hlive.1).2.1
        rw [hlater, List.forall_mem_append] at hall
        exact List.forall_mem_cons.mpr ⟨hrecord, hall.2⟩
      have hdrop : w.committed.drop b.captured.length = later := by
        rw [hlater, List.drop_left]
      obtain ⟨hlt, hne, -⟩ := h.fresh b hb
      rw [hdrop]
      have hsafe := (h.drop.write (Ne.symm hne) (by simp)).replace hlt hnew hps hlive.1
        (by simp [World.write]) r
      cases r with
      | before => exact ⟨hsafe, .inl rfl⟩
      | _ => exact ⟨hsafe, .inr ⟨b, later, rfl, hlive.2, hlater, hnew⟩⟩
    · exact ⟨h, .inl rfl⟩

theorem Safe.reopen : Safe (step registry w .reopen) := by
  obtain ⟨ps, t, hfile, ht, hps, hs, -⟩ := h.held
  have hrecover : recover (applyChanges registry) {} (log ps ++ t) =
      (ps.foldlM (applyChanges registry) {}).map fun s => (s, (log ps).length) := recover_log hps ht
  rw [step.eq_def]
  dsimp only
  rw [hfile, hrecover, records_log hps ht]
  cases ps.foldlM (applyChanges registry) {} with
  | error e =>
    dsimp only [Except.map]
    exact ⟨h.path, by simp, ⟨ps, t, hfile, ht, hps, hs.imp id fun hs => ⟨rfl, hs.2⟩, by simp⟩,
      by simp⟩
  | ok s =>
    dsimp only [Except.map]
    refine ⟨h.path, by simp, held_log ((Function.update_self ..).trans ?_) hps (.inl rfl) rfl,
      by simp⟩
    rw [List.take_left]

end

theorem run_safe (registry : Registry) (events : List Event) : Safe (run registry events) := by
  refine List.foldlRecOn events (step registry) (motive := Safe) ?_ fun w h event _ => ?_
  · exact ⟨Nat.one_pos, by simp,
      held_log (List.append_nil _).symm (by simp) (.inl rfl)
        (by rw [log, List.flatMap_nil, List.append_nil, length_magic]),
      by simp⟩
  · cases event with
    | append p error => exact h.append p error
    | checkpoint p r => exact h.checkpoint p r
    | prepare => exact h.prepare
    | encode p => exact h.encode p
    | pass => exact h.pass
    | copy => exact h.copy
    | publish r => exact (h.publish r).1
    | abandon => exact h.drop
    | reopen => exact h.reopen

end CoreSql.DurableStore
