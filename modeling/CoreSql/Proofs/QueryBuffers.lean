import CoreSql.Query.Control

/-!
# What the usages say

A control charges each usage of its chain once, because a usage is in a chain
once and stands for the same control wherever it is met. A reservation is
refused before anything is charged: the charges are made on the way back,
when all the limits up the chain have been asked.
-/

namespace CoreSql

def QueryControl.charged (c : QueryControl) : List Nat := c.map ControlLevel.usage

section

variable {c : QueryControl} {u u' : Usages} {bytes : UInt64} {l : ControlLevel}
  {stack : List QueryControl} {pre post : List QueryBuffer}

theorem QueryControl.mem_charged (hl : l ∈ c) : l.usage ∈ c.charged := List.mem_map_of_mem hl

theorem QueryControl.nodup_charged_cons :
    (charged (l :: c)).Nodup ↔ l.usage ∉ c.charged ∧ c.charged.Nodup := List.nodup_cons

/-! ## One chain -/

/-- A reservation is refused because a limit of the chain would be passed, and nothing is charged;
or every usage of the chain is charged what is asked for, once, and stays within its limit. -/
theorem QueryControl.reserve_cases (bytes : UInt64) (hc : c.charged.Nodup)
    (hle : ∀ l ∈ c, (u l.usage).buffer ≤ l.maxBufferBytes) :
    (∃ e, c.reserve bytes u = (.error e, u) ∧
      ∃ l ∈ c, l.maxBufferBytes.toNat < (u l.usage).buffer.toNat + bytes.toNat) ∨
      ∃ u', c.reserve bytes u = (.ok (), u') ∧
        (∀ k, (u' k).buffer.toNat = (u k).buffer.toNat + if k ∈ c.charged then bytes.toNat else 0) ∧
        ∀ l ∈ c, (u' l.usage).buffer ≤ l.maxBufferBytes := by
  induction c with
  | nil => exact .inr ⟨u, rfl, by simp [charged], by simp⟩
  | cons l parent ih =>
    obtain ⟨hnot, hparent⟩ := nodup_charged_cons.mp hc
    have hl := hle l List.mem_cons_self
    rw [reserve]
    split
    · next hfull =>
        refine .inl ⟨_, rfl, l, List.mem_cons_self, ?_⟩
        rw [UInt64.lt_iff_toNat_lt, UInt64.toNat_sub_of_le _ _ hl] at hfull
        omega
    next hroom =>
    rcases ih hparent fun l' hl' => hle l' (List.mem_cons_of_mem _ hl') with
      ⟨e, he, l', hl', hfull⟩ | ⟨u', hu', hcharged, hlimit⟩
    · rw [he]
      exact .inl ⟨e, rfl, l', List.mem_cons_of_mem _ hl', hfull⟩
    · rw [hu']
      -- The usage is not one of the parent's, so it is as it was when its limit was asked.
      have hsame : (u' l.usage).buffer.toNat = (u l.usage).buffer.toNat := by
        rw [hcharged, if_neg hnot, Nat.add_zero]
      have hroom' : (u l.usage).buffer.toNat + bytes.toNat ≤ l.maxBufferBytes.toNat := by
        rw [UInt64.lt_iff_toNat_lt, UInt64.toNat_sub_of_le _ _ hl] at hroom
        rw [UInt64.le_iff_toNat_le] at hl
        omega
      have hadd : ((u' l.usage).buffer + bytes).toNat = (u l.usage).buffer.toNat + bytes.toNat := by
        have := l.maxBufferBytes.toNat_lt
        rw [UInt64.toNat_add, hsame, Nat.mod_eq_of_lt (by omega)]
      refine .inr ⟨_, rfl, fun k => ?_, fun l' hl' => ?_⟩
      · by_cases hk : k = l.usage
        · subst hk
          simp [Function.update_self, hadd, charged]
        · rw [Function.update_of_ne hk, hcharged]
          simp [charged, hk]
      · by_cases hk : l'.usage = l.usage
        · rcases List.mem_cons.mp hl' with rfl | hl'
          · rw [Function.update_self, UInt64.le_iff_toNat_le]
            dsimp only
            omega
          · exact absurd (hk ▸ mem_charged hl') hnot
        · rw [Function.update_of_ne hk]
          rcases List.mem_cons.mp hl' with rfl | hl'
          · exact absurd rfl hk
          · exact hlimit l' hl'

/-- A release takes from every usage of the chain what it gives back. -/
theorem QueryControl.release_charged (hc : c.charged.Nodup)
    (hheld : ∀ l ∈ c, bytes ≤ (u l.usage).buffer) (k : Nat) :
    ((c.release bytes u) k).buffer.toNat + (if k ∈ c.charged then bytes.toNat else 0) =
      (u k).buffer.toNat := by
  induction c generalizing u with
  | nil => simp [release, charged]
  | cons l parent ih =>
    obtain ⟨hnot, hparent⟩ := nodup_charged_cons.mp hc
    have hl := hheld l List.mem_cons_self
    have hsub := UInt64.toNat_sub_of_le _ _ hl
    have hother : ∀ l' ∈ parent, l'.usage ≠ l.usage := fun l' hl' heq =>
      hnot (heq ▸ mem_charged hl')
    have hrest := ih (u := Function.update u l.usage
        { u l.usage with buffer := (u l.usage).buffer - bytes }) hparent fun l' hl' => by
      rw [Function.update_of_ne (hother l' hl')]
      exact hheld l' (List.mem_cons_of_mem _ hl')
    rw [release]
    by_cases hk : k = l.usage
    · subst hk
      rw [if_neg hnot, Function.update_self] at hrest
      rw [UInt64.le_iff_toNat_le] at hl
      simp only [charged, List.map_cons, List.mem_cons, true_or, if_true]
      dsimp only at hrest
      omega
    · rw [Function.update_of_ne hk] at hrest
      simpa [charged, hk] using hrest

/-! ## A stack of controls -/

/-- A usage is charged once by a control, and has one limit in all of them. -/
structure Consistent (stack : List QueryControl) : Prop where
  attached : ∀ c ∈ stack, c ≠ []
  nodup : ∀ c ∈ stack, c.charged.Nodup
  level : ∀ c ∈ stack, ∀ c' ∈ stack, ∀ l ∈ c, ∀ l' ∈ c', l.usage = l'.usage → l = l'

theorem Stacked.consistent (h : Stacked stack) : Consistent stack := by
  induction h with
  | nil => exact ⟨by simp, by simp, by simp⟩
  | @own stack l _ hnew ih =>
    -- The new control is nested on all of the active one.
    have hmake : QueryControl.make l (stack.headD []) = l :: stack.headD [] := by
      cases stack with
      | nil => rfl
      | cons c stack =>
        cases c with
        | nil => rfl
        | cons previous parent =>
          exact if_neg (hnew _ List.mem_cons_self previous List.mem_cons_self)
    have hhead : ∀ l' ∈ stack.headD [], ∃ c ∈ stack, l' ∈ c := by
      cases stack with
      | nil => simp
      | cons c stack => exact fun l' hl' => ⟨c, List.mem_cons_self, hl'⟩
    have hfrom : ∀ c ∈ (l :: stack.headD []) :: stack, ∀ l' ∈ c, l' = l ∨ ∃ c ∈ stack, l' ∈ c := by
      intro c hc l' hl'
      rcases List.mem_cons.mp hc with rfl | hc
      · rcases List.mem_cons.mp hl' with rfl | hl'
        · exact .inl rfl
        · exact .inr (hhead l' hl')
      · exact .inr ⟨c, hc, hl'⟩
    rw [hmake]
    refine ⟨fun c hc => ?_, fun c hc => ?_, fun c hc c' hc' l₁ hl₁ l₂ hl₂ heq => ?_⟩
    · rcases List.mem_cons.mp hc with rfl | hc
      · simp
      · exact ih.attached c hc
    · rcases List.mem_cons.mp hc with rfl | hc
      · refine QueryControl.nodup_charged_cons.mpr ⟨fun hmem => ?_, ?_⟩
        · obtain ⟨l', hl', heq⟩ := List.mem_map.mp hmem
          obtain ⟨c, hc, hl'⟩ := hhead l' hl'
          exact hnew c hc l' hl' heq
        · cases stack with
          | nil => exact List.nodup_nil
          | cons c stack => exact ih.nodup c List.mem_cons_self
      · exact ih.nodup c hc
    · rcases hfrom c hc l₁ hl₁ with rfl | ⟨d, hd, hl₁⟩ <;>
        rcases hfrom c' hc' l₂ hl₂ with rfl | ⟨d', hd', hl₂⟩
      · rfl
      · exact absurd heq.symm (hnew d' hd' l₂ hl₂)
      · exact absurd heq (hnew d hd l₁ hl₁)
      · exact ih.level d hd d' hd' l₁ hl₁ l₂ hl₂ heq
  | @shared l parent stack _ ih =>
    rw [show QueryControl.make l (l :: parent) = l :: parent from if_pos rfl]
    have hsub : ∀ c ∈ (l :: parent) :: (l :: parent) :: stack, c ∈ (l :: parent) :: stack := by
      simp
    exact ⟨fun c hc => ih.attached c (hsub c hc), fun c hc => ih.nodup c (hsub c hc),
      fun c hc c' hc' => ih.level c (hsub c hc) c' (hsub c' hc')⟩

/-! ## Runs -/

def QueryBuffer.share (k : Nat) (b : QueryBuffer) : Nat :=
  if k ∈ b.control.charged then b.bytes.toNat else 0

def held (k : Nat) (buffers : List QueryBuffer) : Nat := (buffers.map (QueryBuffer.share k)).sum

theorem held_middle {k : Nat} {b : QueryBuffer} :
    held k (pre ++ b :: post) = b.share k + held k (pre ++ post) := by
  simp only [held, List.map_append, List.map_cons, List.sum_append, List.sum_cons]
  omega

/-- The usages say what the buffers hold, and no limit is passed. -/
structure Buffered.Exact (stack : List QueryControl) (w : Buffered) : Prop where
  attached : ∀ b ∈ w.buffers, b.control ∈ stack
  total : ∀ k, (w.usages k).buffer.toNat = held k w.buffers
  limit : ∀ c ∈ stack, ∀ l ∈ c, (w.usages l.usage).buffer ≤ l.maxBufferBytes

section

variable {pre post : List QueryBuffer} {b b' : QueryBuffer}

section

variable (h : Buffered.Exact stack ⟨u, pre ++ b :: post⟩)
include h

theorem Buffered.Exact.mem : b.control ∈ stack :=
  h.attached b (List.mem_append_right _ List.mem_cons_self)

theorem Buffered.Exact.share_le (hl : l ∈ b.control) : b.bytes ≤ (u l.usage).buffer := by
  have htotal := h.total l.usage
  rw [held_middle, QueryBuffer.share, if_pos (QueryControl.mem_charged hl)] at htotal
  rw [UInt64.le_iff_toNat_le]
  dsimp only at htotal
  omega

/-- Putting another buffer of the same control in a buffer's place. -/
theorem Buffered.Exact.replace (hcontrol : b'.control = b.control)
    (htotal : ∀ k, (u' k).buffer.toNat + b.share k = (u k).buffer.toNat + b'.share k)
    (hlimit : ∀ c ∈ stack, ∀ l ∈ c, (u' l.usage).buffer ≤ l.maxBufferBytes) :
    Buffered.Exact stack ⟨u', pre ++ b' :: post⟩ where
  attached d hd := by
    rcases List.mem_append.mp hd with hd | hd
    · exact h.attached d (List.mem_append_left _ hd)
    rcases List.mem_cons.mp hd with rfl | hd
    · exact hcontrol ▸ h.mem
    · exact h.attached d (List.mem_append_right _ (List.mem_cons_of_mem _ hd))
  total k := by
    have hold := h.total k
    have hnew := htotal k
    rw [held_middle] at hold ⊢
    dsimp only at hold ⊢
    omega
  limit := hlimit

end

section

variable (hstack : Consistent stack) (h : Buffered.Exact stack ⟨u, pre ++ b :: post⟩)
include hstack h

/-- An addition is refused because the size or a limit of the chain would be passed, and changes
nothing; or it goes to the buffer and, once, to every usage of its chain and to no other. -/
theorem Buffered.Exact.add_cases (bytes : UInt64) :
    (∃ e, b.add bytes u = (.error e, b, u) ∧ (2 ^ 64 ≤ b.bytes.toNat + bytes.toNat ∨
      ∃ l ∈ b.control, l.maxBufferBytes.toNat < (u l.usage).buffer.toNat + bytes.toNat)) ∨
    ∃ u', b.add bytes u = (.ok (), { b with bytes := b.bytes + bytes }, u') ∧
      (b.bytes + bytes).toNat = b.bytes.toNat + bytes.toNat ∧
      (∀ k, (u' k).buffer.toNat =
        (u k).buffer.toNat + if k ∈ b.control.charged then bytes.toNat else 0) ∧
      ∀ l ∈ b.control, (u' l.usage).buffer ≤ l.maxBufferBytes := by
  have hmax : (QueryBuffer.sizeMax).toNat = 18446744073709551615 := rfl
  have hb := b.bytes.toNat_lt
  have hle : b.bytes ≤ QueryBuffer.sizeMax := by
    rw [UInt64.le_iff_toNat_le, hmax]
    omega
  have hroom_iff : QueryBuffer.sizeMax - b.bytes < bytes ↔ 2 ^ 64 ≤ b.bytes.toNat +
    bytes.toNat := by
    rw [UInt64.lt_iff_toNat_lt, UInt64.toNat_sub_of_le _ _ hle, hmax]
    omega
  rw [QueryBuffer.add, if_neg (hstack.attached _ h.mem)]
  split
  · next hfull => exact .inl ⟨_, rfl, .inl (hroom_iff.mp hfull)⟩
  next hroom =>
  rw [hroom_iff] at hroom
  rcases QueryControl.reserve_cases bytes (hstack.nodup _ h.mem) (h.limit _ h.mem) with
    ⟨e, he, hfull⟩ | ⟨u', hu', hcharged, hwithin⟩
  · rw [he]
    exact .inl ⟨e, rfl, .inr hfull⟩
  · rw [hu']
    refine .inr ⟨u', rfl, ?_, hcharged, hwithin⟩
    rw [UInt64.toNat_add, Nat.mod_eq_of_lt (by omega)]

theorem Buffered.Exact.add (bytes : UInt64) :
    Buffered.Exact stack ⟨(b.add bytes u).2.2, pre ++ (b.add bytes u).2.1 :: post⟩ := by
  rcases h.add_cases hstack bytes with ⟨e, he, -⟩ | ⟨u', hu', hadd, hcharged, hwithin⟩
  · rw [he]
    exact h
  · rw [hu']
    refine h.replace rfl (fun k => ?_) (fun c hc l hl => ?_)
    · rw [hcharged, QueryBuffer.share, QueryBuffer.share]
      dsimp only
      split <;> omega
    · -- A usage that was charged is that of a control of the chain, with the same limit.
      by_cases hk : l.usage ∈ b.control.charged
      · obtain ⟨l', hl', heq⟩ := List.mem_map.mp hk
        rw [← hstack.level _ h.mem c hc l' hl' l hl heq]
        exact hwithin l' hl'
      · rw [UInt64.le_iff_toNat_le, hcharged, if_neg hk, Nat.add_zero]
        exact UInt64.le_iff_toNat_le.mp (h.limit c hc l hl)

/-- An addition is accepted exactly if there is room at every level of the chain. -/
theorem Buffered.Exact.add_eq_ok_iff (bytes : UInt64) : (b.add bytes u).1 = .ok () ↔
    b.bytes.toNat + bytes.toNat < 2 ^ 64 ∧
      ∀ l ∈ b.control, (u l.usage).buffer.toNat + bytes.toNat ≤ l.maxBufferBytes.toNat := by
  rcases h.add_cases hstack bytes with ⟨e, he, hfull⟩ | ⟨u', hu', hadd, hcharged, hwithin⟩
  · rw [he]
    refine ⟨fun hok => (by cases hok), fun ⟨hsize, hroom⟩ => ?_⟩
    rcases hfull with hfull | ⟨l, hl, hfull⟩
    · omega
    · have := hroom l hl
      omega
  · rw [hu']
    refine ⟨fun _ => ⟨hadd ▸ (b.bytes + bytes).toNat_lt, fun l hl => ?_⟩, fun _ => rfl⟩
    have := UInt64.le_iff_toNat_le.mp (hwithin l hl)
    rwa [hcharged, if_pos (QueryControl.mem_charged hl)] at this

theorem Buffered.Exact.release_le (hbytes : bytes ≤ b.bytes) :
    (∀ k, ((b.control.release bytes u) k).buffer.toNat +
        (if k ∈ b.control.charged then bytes.toNat else 0) = (u k).buffer.toNat) ∧
      ∀ c ∈ stack, ∀ l ∈ c, ((b.control.release bytes u) l.usage).buffer ≤ l.maxBufferBytes := by
  have hrelease := QueryControl.release_charged (u := u) (hstack.nodup _ h.mem) fun l hl =>
    UInt64.le_trans hbytes (h.share_le hl)
  refine ⟨hrelease, fun c hc l hl => ?_⟩
  have hlimit := h.limit c hc l hl
  have := hrelease l.usage
  rw [UInt64.le_iff_toNat_le] at hlimit ⊢
  dsimp only at hlimit
  omega

/-- A removal takes from the buffer and, once, from every usage of its chain. -/
theorem Buffered.Exact.remove_charged (hbytes : bytes ≤ b.bytes) :
    (b.remove bytes u).1.bytes.toNat + bytes.toNat = b.bytes.toNat ∧
      ∀ k, ((b.remove bytes u).2 k).buffer.toNat +
        (if k ∈ b.control.charged then bytes.toNat else 0) = (u k).buffer.toNat := by
  have hsub := UInt64.toNat_sub_of_le _ _ hbytes
  rw [UInt64.le_iff_toNat_le] at hbytes
  rw [QueryBuffer.remove, if_neg (hstack.attached _ h.mem)]
  refine ⟨by dsimp only; omega, (h.release_le hstack ?_).1⟩
  exact UInt64.le_iff_toNat_le.mpr hbytes

theorem Buffered.Exact.remove (hbytes : bytes ≤ b.bytes) :
    Buffered.Exact stack ⟨(b.remove bytes u).2, pre ++ (b.remove bytes u).1 :: post⟩ := by
  rw [QueryBuffer.remove]
  split
  · exact h
  obtain ⟨htotal, hlimit⟩ := h.release_le hstack hbytes
  refine h.replace rfl (fun k => ?_) hlimit
  have hsub := UInt64.toNat_sub_of_le _ _ hbytes
  rw [UInt64.le_iff_toNat_le] at hbytes
  have := htotal k
  rw [QueryBuffer.share, QueryBuffer.share]
  dsimp only
  split <;> simp_all
  omega

theorem Buffered.Exact.destroy : Buffered.Exact stack ⟨b.destroy u, pre ++ post⟩ := by
  have hsub : ∀ d ∈ pre ++ post, d ∈ pre ++ b :: post := fun d hd =>
    ((List.sublist_cons_self b post).append_left pre).subset hd
  have htotal := h.total
  simp only [held_middle, QueryBuffer.share] at htotal
  rw [QueryBuffer.destroy]
  split
  · next hnull =>
      refine ⟨fun d hd => h.attached d (hsub d hd), fun k => ?_, h.limit⟩
      have := htotal k
      rw [hnull] at this
      simpa [QueryControl.charged] using this
  · obtain ⟨hrelease, hlimit⟩ := h.release_le hstack (UInt64.le_refl b.bytes)
    refine ⟨fun d hd => h.attached d (hsub d hd), fun k => ?_, hlimit⟩
    have := htotal k
    have := hrelease k
    dsimp only
    omega

end

end

theorem Buffered.Reachable.exact {w : Buffered} (hstack : Consistent stack)
    (h : Buffered.Reachable stack w) : w.Exact stack := by
  induction h with
  | start => exact ⟨by simp, by simp [held], by simp⟩
  | @attach w c _ hc ih =>
    refine ⟨fun b hb => ?_, fun k => ?_, ih.limit⟩
    · rcases List.mem_cons.mp hb with rfl | hb
      · exact hc
      · exact ih.attached b hb
    · have := ih.total k
      simpa [held, QueryBuffer.share] using this
  | add bytes _ ih => exact ih.add hstack bytes
  | remove _ hbytes ih => exact ih.remove hstack hbytes
  | destroy _ ih => exact ih.destroy hstack

/-- Whatever is added, removed and destroyed: a usage is what the buffers charged to it hold, it is
within its limit, and what a buffer holds can be taken from each usage it is on. An addition is
accepted exactly if there is room at every level; it then raises the buffer and each usage of its
chain once, and no other, and one that is refused changes nothing. A removal lowers the same.
Without buffers nothing is used. -/
theorem buffer_accounting_exact {w : Buffered} (hstack : Stacked stack)
    (hw : Buffered.Reachable stack w) :
    (∀ k, (w.usages k).buffer.toNat = held k w.buffers) ∧
      (∀ c ∈ stack, ∀ l ∈ c, (w.usages l.usage).buffer ≤ l.maxBufferBytes) ∧
      (∀ b ∈ w.buffers, ∀ l ∈ b.control, b.bytes ≤ (w.usages l.usage).buffer) ∧
      (∀ b ∈ w.buffers, ∀ bytes,
        ((b.add bytes w.usages).1 = .ok () ↔ b.bytes.toNat + bytes.toNat < 2 ^ 64 ∧
          ∀ l ∈ b.control,
            (w.usages l.usage).buffer.toNat + bytes.toNat ≤ l.maxBufferBytes.toNat) ∧
        ((b.add bytes w.usages).1 = .ok () →
          (b.add bytes w.usages).2.1.control = b.control ∧
          (b.add bytes w.usages).2.1.bytes.toNat = b.bytes.toNat + bytes.toNat ∧
          ∀ k, ((b.add bytes w.usages).2.2 k).buffer.toNat =
            (w.usages k).buffer.toNat + if k ∈ b.control.charged then bytes.toNat else 0) ∧
        ∀ e, (b.add bytes w.usages).1 = .error e → (b.add bytes w.usages).2 = (b, w.usages)) ∧
      (∀ b ∈ w.buffers, ∀ bytes, bytes ≤ b.bytes →
        (b.remove bytes w.usages).1.bytes.toNat + bytes.toNat = b.bytes.toNat ∧
        ∀ k, ((b.remove bytes w.usages).2 k).buffer.toNat +
          (if k ∈ b.control.charged then bytes.toNat else 0) = (w.usages k).buffer.toNat) ∧
      (w.buffers = [] → ∀ k, (w.usages k).buffer = 0) := by
  have hconsistent := hstack.consistent
  have h := hw.exact hconsistent
  have hsplit : ∀ b ∈ w.buffers, ∃ pre post, Buffered.Exact stack ⟨w.usages, pre ++ b :: post⟩ := by
    intro b hb
    obtain ⟨pre, post, hbuffers⟩ := List.append_of_mem hb
    exact ⟨pre, post, hbuffers ▸ h⟩
  refine ⟨h.total, h.limit, fun b hb l hl => ?_, fun b hb bytes => ?_, fun b hb bytes hle => ?_,
    fun hnone k => ?_⟩
  · obtain ⟨pre, post, hb⟩ := hsplit b hb
    exact hb.share_le hl
  · obtain ⟨pre, post, hb⟩ := hsplit b hb
    refine ⟨hb.add_eq_ok_iff hconsistent bytes, ?_⟩
    rcases hb.add_cases hconsistent bytes with ⟨e, he, -⟩ | ⟨u', hu', hadd, hcharged, -⟩
    · rw [he]
      exact ⟨fun hok => (by cases hok), fun _ _ => rfl⟩
    · rw [hu']
      exact ⟨fun _ => ⟨rfl, hadd, hcharged⟩, fun _ herror => (by cases herror)⟩
  · obtain ⟨pre, post, hb⟩ := hsplit b hb
    exact hb.remove_charged hconsistent hle
  · have := h.total k
    rw [hnone] at this
    exact UInt64.toNat_inj.mp this

end

/-- Three bytes in a buffer of a control that is nested on another: both usages stand at three, and
no other is touched. -/
theorem buffer_accounting_nested :
    let stack : List QueryControl := [[⟨5, 1⟩, ⟨10, 0⟩], [⟨10, 0⟩]]
    let b : QueryBuffer := { control := [⟨5, 1⟩, ⟨10, 0⟩] }
    let u : Usages := fun _ => {}
    Stacked stack ∧ Buffered.Reachable stack ⟨u, [b]⟩ ∧ (b.add 3 u).1 = .ok () ∧
      (b.add 3 u).2.1.bytes.toNat = 3 ∧
      ∀ k, ((b.add 3 u).2.2 k).buffer.toNat = if k ∈ [1, 0] then 3 else 0 := by
  intro stack b u
  have hstack : Stacked stack :=
    .own ⟨5, 1⟩ (.own ⟨10, 0⟩ .nil (by simp)) (by simp [QueryControl.make])
  have hattach : Buffered.Reachable stack ⟨u, [] ++ b :: []⟩ := .attach .start List.mem_cons_self
  obtain ⟨hiff, hadded, -⟩ :=
    (buffer_accounting_exact hstack hattach).2.2.2.1 b List.mem_cons_self 3
  have hsize : b.bytes.toNat + (3 : UInt64).toNat < 2 ^ 64 := by
    rw [show b.bytes.toNat = 0 from rfl, show (3 : UInt64).toNat = 3 from rfl]
    omega
  have hok := hiff.mpr ⟨hsize, by decide⟩
  obtain ⟨-, hbytes, husages⟩ := hadded hok
  have hempty : b.bytes.toNat = 0 := rfl
  have hunused : ∀ k, (u k).buffer.toNat = 0 := fun _ => rfl
  have hcharged : b.control.charged = [1, 0] := rfl
  clear_value u b
  dsimp only at hok hbytes husages
  simp only [hempty, hunused, hcharged, Nat.zero_add] at hbytes husages
  exact ⟨hstack, hattach, hok, hbytes, husages⟩

end CoreSql
