import MyLua.Log.Handle

/-!
# Conservation of Log Messages (`llog`)

Every byte that `llog` takes should reach the file once, in order: what the file got since it was
opened, followed by what the buffer still holds, is what was taken. When a request is done, `llog`
has to move the bytes that were not written to the front of the buffer. Its `memcpy` copies in the
other direction, from the front to where those bytes are.

## Main results

- `conserved_llog_iff`: a call of `llog` conserves exactly if the bytes it goes on with are the
  unwritten ones.
- `kept_eq_pending_iff`: when they are, if at least half of the buffer was written.
- `log_conserved`: conservation in every run in which they always are.
- `log_not_conserved`: the third message of a log destroys the second.
-/

namespace MyLua.Log

open MyLua.Foundation

variable {lib : Lib} {s s' : Handle} {d : Nat}

/-! ## §1 What `llog` goes on with -/

/-- The bytes `llog` takes for the unwritten ones: after a request is done, the front of the buffer
as its `memcpy` leaves it. -/
def kept (lib : Lib) (s : Handle) (d : Nat) : Bytes :=
  match s.status with
  | .completed n => (moved lib s d n.toNat).take (d - n.toNat)
  | _ => s.fp.mData.take d

/-- `llog` goes on with the bytes it keeps and the message, if it takes it. -/
theorem pending_effect {p : Bytes} {r : LogResult} (hs : Sound s d)
    (heff : Effect lib s d p r s') :
    s'.file = s.file ∧ s'.pending = kept lib s d ++ if r.taken then p else [] := by
  have hlt := hs.lt
  have hsize := hs.size
  cases heff with
  | @moved n _ done le room taken =>
    -- What is submitted is the front that was kept, and then the message.
    have hm := length_moved lib hs le
    simp only [Handle.pending, kept, done, taken, Handle.aioWrite_status, Handle.aioWrite_mData,
      Handle.aioWrite_mDpos, Handle.aioWrite_file, Int.toNat_natCast, if_true, true_and]
    exact take_overwrite_end (by omega)
  | @movedOnly n _ done le full refused =>
    simp [Handle.pending, kept, done, refused]
  | added running room taken =>
    -- Nothing is removed while the request runs.
    simp only [Handle.pending, kept, running, taken, Handle.setData_status, Handle.setData_mData,
      Handle.setData_mDpos, Handle.setData_file, Int.toNat_natCast, if_true, true_and]
    exact take_overwrite_end (by omega)
  | resubmitted canceled room taken =>
    simp only [Handle.pending, kept, canceled, taken, Handle.aioWrite_status,
      Handle.aioWrite_mData, Handle.aioWrite_mDpos, Handle.aioWrite_file, Int.toNat_natCast,
      if_true, true_and]
    exact take_overwrite_end (by omega)
  | unchanged busy refused =>
    -- A call that changes nothing leaves the same bytes pending.
    have hdpos := hs.toNat_dpos
    simp only [Handle.pending, kept, refused, hdpos]
    cases hst : s.status with
    | completed ret => exact absurd hst (busy ret)
    | _ => simp

/-- The unwritten bytes of a sound handle. -/
theorem pending_completed (hs : Sound s d) {n : Nat} (hst : s.status = .completed n) :
    s.pending = (s.fp.mData.drop n).take (d - n) := by
  simp only [Handle.pending, hst, hs.dpos, Int.toNat_natCast, List.drop_take]

/-- If at least half of the buffer was written, the two regions of the copy do not overlap, and
`llog` goes on with a copy of the first bytes. -/
theorem kept_eq_pending_iff (hs : Sound s d) {n : Nat} (hst : s.status = .completed n)
    (hhalf : d ≤ 2 * n) : kept lib s d = s.pending ↔
      s.fp.mData.take (d - n) = (s.fp.mData.drop n).take (d - n) := by
  obtain ⟨m, hm, hn⟩ := hs.written n hst
  have hlt := hs.lt
  have hsize := hs.size
  -- The copy lands behind the bytes that are kept, so the front is what it was.
  have hfront : (moved lib s d n).take (d - n) = s.fp.mData.take (d - n) :=
    take_overwrite (by omega) (by omega)
  simp only [pending_completed hs hst, kept, hst, Int.toNat_natCast, hfront]

/-- If nothing was written, the buffer is copied onto itself. -/
theorem kept_eq_pending_of_zero (hs : Sound s d) (hst : s.status = .completed 0) :
    kept lib s d = s.pending := by
  have hlt := hs.lt
  have hsize := hs.size
  have hself : moved lib s d 0 = s.fp.mData :=
    lib.memcpy.overwrite_cells_self (by omega)
  have hpending := pending_completed (n := 0) hs hst
  simp only [hpending, kept, hst, Int.toNat_zero, hself, List.drop_zero]

/-! ## §2 Conservation -/

/-- What the file got since it had the contents `file`, and what the buffer still holds, is what
was taken. -/
def Conserved (file : Bytes) (h : List Event) (s : Handle) : Prop :=
  s.file ++ s.pending = file ++ taken h

/-- A call of `llog` conserves exactly if the bytes it goes on with do. -/
theorem conserved_llog_iff {file : Bytes} {h : List Event} {msg : Bytes} {r : LogResult}
    (hs : Sound s d) (heff : Effect lib s d (cut msg) r s') :
    Conserved file (.llog msg r :: h) s' ↔ s.file ++ kept lib s d = file ++ taken h := by
  obtain ⟨hfile, hpending⟩ := pending_effect hs heff
  simp only [Conserved, hfile, hpending, taken]
  -- The message is appended on both sides, or on neither.
  cases r.taken with
  | false => simp
  | true => simp only [if_true, ← List.append_assoc, List.append_cancel_right_eq]

/-- When `llog` finds that `n` bytes were written: nothing was, or at least half of the buffer was
and the bytes that are left equal the first bytes of the buffer. -/
def CopyHarmless (s : Handle) (e : Event) : Prop :=
  match e, s.status with
  | .llog _ _, .completed n =>
    n = 0 ∨ (s.fp.mDpos ≤ 2 * n ∧ s.fp.mData.take (s.fp.mDpos - n).toNat =
      (s.fp.mData.drop n.toNat).take (s.fp.mDpos - n).toNat)
  | _, _ => True

/-- While the request runs nothing is moved. -/
theorem copyHarmless_running (hst : s.status = .inProgress) (msg : Bytes) (r : LogResult) :
    CopyHarmless s (.llog msg r) := by
  unfold CopyHarmless
  rw [hst]
  trivial

theorem copyHarmless_complete (s : Handle) (n : Nat) : CopyHarmless s (.complete n) := trivial

theorem kept_eq_pending (hs : Sound s d) {msg : Bytes} {r : LogResult}
    (hok : CopyHarmless s (.llog msg r)) : kept lib s d = s.pending := by
  have hdpos := hs.toNat_dpos
  cases hst : s.status with
  | completed ret =>
    obtain ⟨n, rfl, hn⟩ := hs.written ret hst
    simp only [CopyHarmless, hst, Int.toNat_natCast] at hok
    -- Nothing was written, or the bytes to keep are a copy of the first ones.
    rcases hok with hzero | ⟨hhalf, heq⟩
    · have hstatus : s.status = .completed 0 := by rw [hst, hzero]
      exact kept_eq_pending_of_zero hs hstatus
    · have hleft : (s.fp.mDpos - (n : Int)).toNat = d - n := by
        rw [hs.dpos_sub hn, Int.toNat_natCast]
      rw [hs.dpos] at hhalf
      rw [hleft] at heq
      exact (kept_eq_pending_iff hs hst (by omega)).mpr heq
  | _ => simp only [kept, Handle.pending, hst, hdpos]

/-- A request that is done appends what it takes out of the pending bytes. -/
theorem conserved_complete {file : Bytes} {h : List Event} {n : Nat} (hs : Sound s d)
    (happend : s.fp.mFlag &&& O_APPEND ≠ 0) (running : s.status = .inProgress) (hn : n ≤ d)
    (hcons : Conserved file h s) : Conserved file (.complete n :: h) (s.complete n) := by
  have hdpos := hs.toNat_dpos
  have hsplit : s.fp.mData.take n ++ (s.fp.mData.take d).drop n = s.fp.mData.take d := by
    have htake : s.fp.mData.take n = (s.fp.mData.take d).take n := by
      rw [List.take_take, Nat.min_eq_left hn]
    rw [htake, List.take_append_drop]
  simp only [Conserved, Handle.pending, running, hdpos] at hcons
  simp only [Conserved, Handle.complete, Handle.pending, if_pos happend, hdpos,
    Int.toNat_natCast, taken, List.append_assoc, hsplit, hcons]

/-- What holds throughout a run that conserves. -/
def Healthy (file : Bytes) (h : List Event) (s : Handle) : Prop :=
  (∃ d, Sound s d) ∧ s.fp.mFlag &&& O_APPEND ≠ 0 ∧ Conserved file h s

theorem healthy_step {file : Bytes} {h : List Event} {e : Event} (hinv : Healthy file h s)
    (hok : CopyHarmless s e) (hstep : Step lib s e s') : Healthy file (e :: h) s' := by
  obtain ⟨⟨d, hs⟩, happend, hcons⟩ := hinv
  refine ⟨sound_step lib hs hstep, ?_⟩
  cases hstep with
  | llog hrun =>
    have heff := effect_of_llog hs hrun
    refine ⟨?_, ?_⟩
    · cases heff <;> exact happend
    · rw [conserved_llog_iff hs heff, kept_eq_pending hs hok]
      exact hcons
  | @complete n running le =>
    exact ⟨happend, conserved_complete hs happend running (Nat.le_trans le hs.nbytes) hcons⟩
  | fail running pos ne =>
    refine ⟨happend, ?_⟩
    simpa only [Conserved, Handle.pending, running, taken] using hcons

/-- A log opened in append mode stays healthy as long as no copy destroys anything. -/
theorem healthy_run {block pfile : Bytes} {size num level : Int} {flag : BitVec 32}
    {file : Bytes} {ret : Int} {strbuf : Bytes} {s₀ : Handle} (hblock : block.length = bufsize)
    (hopen : lopen lib block pfile size num level flag file = (ret, strbuf, some s₀))
    (happend : s₀.fp.mFlag &&& O_APPEND ≠ 0) {h : List Event}
    (hrun : Runs (fun s e s' => CopyHarmless s e ∧ Step lib s e s') s₀ h s) :
    Healthy s₀.file h s := by
  have hstart : Healthy s₀.file [] s₀ := by
    obtain ⟨-, hdpos, -, hstatus, -⟩ := lopen_eq_some hopen
    refine ⟨⟨0, sound_lopen hblock hopen⟩, happend, ?_⟩
    simp [Conserved, Handle.pending, hstatus, hdpos, taken]
  exact hrun.invariant hstart fun hinv hs => healthy_step hinv hs.1 hs.2

/-- After opening a log for appending, in every run in which each call of `llog` that finds `n`
bytes written finds `n = 0`, or at least half of the buffer written and the rest equal to its
first bytes: what the file got, followed by what the buffer still holds, are the messages that
were taken, in call order. -/
theorem log_conserved {block pfile : Bytes} {size num level : Int} {flag : BitVec 32}
    {file : Bytes} {ret : Int} {strbuf : Bytes} {s₀ : Handle} (hblock : block.length = bufsize)
    (hopen : lopen lib block pfile size num level flag file = (ret, strbuf, some s₀))
    (hflag : flag &&& 1 ≠ 0) {h : List Event}
    (hrun : Runs (fun s e s' => CopyHarmless s e ∧ Step lib s e s') s₀ h s) :
    s.file ++ s.pending = s₀.file ++ taken h :=
  (healthy_run hblock hopen (append_lopen hflag hopen) hrun).2.2

/-! ## §3 Two logs -/

/-- A call with room for the message, after `n` bytes were written. -/
theorem llog_completed (lib : Lib) (hs : Sound s d) {n : Nat} (hst : s.status = .completed n)
    (msg : Bytes) (hroom : d - n + (cut msg).length < bufsize) (ans : Answers) :
    ∃ r, llog lib ans s msg = some (r, s.aioWrite
      (overwrite (moved lib s d n) (d - n) (cut msg)) ((d - n + (cut msg).length : Nat) : Int)) ∧
      r.taken = true := by
  obtain ⟨r, s', hrun, heff⟩ := llog_effect lib hs ans msg
  refine ⟨r, ?_⟩
  rw [hrun]
  cases heff with
  | @moved m _ done le room taken =>
    rw [hst, AioStatus.completed.injEq, Int.ofNat_inj] at done
    subst done
    exact ⟨rfl, taken⟩
  | @movedOnly m _ done le full refused =>
    rw [hst, AioStatus.completed.injEq, Int.ofNat_inj] at done
    subst done
    exact absurd hroom full
  | added running room taken => exact absurd (hst.symm.trans running) nofun
  | resubmitted canceled room taken => exact absurd (hst.symm.trans canceled) nofun
  | unchanged busy refused => exact absurd hst (busy n)

/-- A call with room for the message, while the request runs and the buffer is not nearly full. -/
theorem llog_inProgress (lib : Lib) (hs : Sound s d) (hst : s.status = .inProgress) (msg : Bytes)
    (hroom : d + (cut msg).length < bufsize) (hwait : d + 1024 * 2 ≤ bufsize) (ans : Answers) :
    ∃ r, llog lib ans s msg = some (r, s.setData (overwrite s.fp.mData d (cut msg))
      ((d + (cut msg).length : Nat) : Int)) ∧ r.taken = true := by
  have hfull : ¬ s.fp.mDpos + 1024 * 2 > (bufsize : Int) := by
    rw [hs.dpos]
    omega
  have hadd := hs.dpos_add (cut msg).length
  refine ⟨{ ret := 0, strbuf := ascii "OK", taken := true }, ?_, rfl⟩
  simp only [llog, hst, aioError, show EINPROGRESS ≠ 0 by decide, if_false, if_true, hadd,
    fits_natCast, if_neg hfull, if_pos hroom, show ¬ (0 : Int) < 0 by decide, Int.le_refl]
  rw [hs.dpos, storeAll_message hs.size hroom]
  rfl

theorem Sound.of_mDpos {d' : Nat} (hs : Sound s d') (hd : s.fp.mDpos = d) : Sound s d := by
  have hdpos := hs.dpos
  rw [hd] at hdpos
  exact Int.ofNat.inj hdpos ▸ hs

/-- The library of the example below: every file can be opened. -/
def Lib.plain : Lib where
  memcpy := Memcpy.buffered
  strerror _ := []
  openFile _ _ := .ok 3

/-- A new log on an empty file, whose first request, of 0 bytes, is done. -/
theorem opened_plain {block : Bytes} (hblock : block.length = bufsize) (flag : BitVec 32) :
    ∃ s₀, lopen .plain block [] 0 0 0 flag [] = (3, ascii "OK", some s₀) ∧ s₀.file = [] ∧
      s₀.status = .inProgress ∧ Sound (s₀.complete 0) 0 := by
  obtain ⟨s₀, hopen, hfile⟩ : ∃ s₀,
      lopen .plain block [] 0 0 0 flag [] = (3, ascii "OK", some s₀) ∧ s₀.file = [] :=
    ⟨_, rfl, rfl⟩
  obtain ⟨-, -, -, hstatus, -⟩ := lopen_eq_some hopen
  have hs₀ := sound_lopen hblock hopen
  refine ⟨s₀, hopen, hfile, hstatus, ?_⟩
  refine ⟨hs₀.size, hs₀.dpos, hs₀.lt, hs₀.nbytes, ?_, nofun⟩
  intro ret h
  cases h
  exact ⟨0, rfl, by decide⟩

/-- A new log takes its first message and submits it. -/
theorem first_message :
    ∃ block s₀ r s, block.length = bufsize ∧
      lopen .plain block [] 0 0 0 1 [] = (3, ascii "OK", some s₀) ∧ s₀.file = [] ∧
      Runs (fun s e s' => CopyHarmless s e ∧ Step .plain s e s') s₀
        [.llog [97] r, .complete 0] s ∧
      r.taken = true ∧ Sound s 1 ∧ s.status = .inProgress ∧ s.fp.mAcb.aioNbytes = 1 ∧
      s.fp.mData.take 1 = [97] := by
  obtain ⟨block, hblock⟩ : ∃ block : Bytes, block.length = bufsize :=
    ⟨List.replicate bufsize 0, List.length_replicate⟩
  obtain ⟨s₀, hopen, hfile, hstatus, hs₁⟩ := opened_plain hblock 1
  obtain ⟨r, ha, htaken⟩ := llog_completed .plain hs₁ rfl [97] (by decide) ⟨0, 0⟩
  have hllog : CopyHarmless (s₀.complete 0) (.llog [97] r) := Or.inl rfl
  have hr₂ : Runs (fun s e s' => CopyHarmless s e ∧ Step .plain s e s') s₀
      [.llog [97] r, .complete 0] _ :=
    (Runs.start.next ⟨copyHarmless_complete s₀ 0, .complete hstatus (Nat.zero_le _)⟩).next
      ⟨hllog, .llog ha⟩
  obtain ⟨_, hs₂⟩ := sound_step .plain hs₁ (.llog ha)
  have hdata : (overwrite (moved .plain (s₀.complete 0) 0 0) 0 [97]).take 1 = [97] := by
    rw [overwrite_zero]
    rfl
  exact ⟨block, s₀, r, _, hblock, hopen, hfile, hr₂, htaken, hs₂.of_mDpos (d := 1) rfl, rfl, rfl,
    hdata⟩

/-- A second message comes while the first one is being written, which is then done. -/
theorem second_message :
    ∃ block s₀ ra rb s, block.length = bufsize ∧
      lopen .plain block [] 0 0 0 1 [] = (3, ascii "OK", some s₀) ∧ s₀.file = [] ∧
      Runs (fun s e s' => CopyHarmless s e ∧ Step .plain s e s') s₀
        [.complete 1, .llog [98] rb, .llog [97] ra, .complete 0] s ∧
      ra.taken = true ∧ rb.taken = true ∧ Sound s 2 ∧ s.status = .completed (1 : Nat) ∧
      s.fp.mData.take 2 = [97, 98] := by
  obtain ⟨block, s₀, ra, s, hblock, hopen, hfile, hrun, hta, hs, hst, hnbytes, hdata⟩ :=
    first_message
  -- The second message is put behind the first one.
  obtain ⟨rb, hb, htb⟩ := llog_inProgress .plain hs hst [98] (by decide) (by decide) ⟨0, 0⟩
  have hbuffered := hrun.next ⟨copyHarmless_running hst [98] rb, .llog hb⟩
  obtain ⟨_, hs₂⟩ := sound_step .plain hs (.llog hb)
  -- The request writes the one byte it was submitted with.
  have hle : 1 ≤ s.fp.mAcb.aioNbytes := Nat.le_of_eq hnbytes.symm
  have hwritten := hbuffered.next ⟨copyHarmless_complete _ 1, .complete hst hle⟩
  obtain ⟨_, hs₃⟩ := sound_step .plain hs₂ (.complete (n := 1) hst hle)
  have hlen : 1 ≤ s.fp.mData.length := by
    rw [hs.size]
    decide
  have hboth : (overwrite s.fp.mData 1 [98]).take (1 + 1) = _ :=
    @take_overwrite_end _ s.fp.mData 1 [98] hlen
  rw [hdata] at hboth
  exact ⟨block, s₀, ra, rb, _, hblock, hopen, hfile, hwritten, hta, htb,
    hs₃.of_mDpos (d := 2) rfl, rfl, hboth⟩

/-- Two messages, the second one buffered while the first one is written: both are conserved. -/
theorem log_conserved_two_messages :
    ∃ s₀ ra rb s, Runs (fun s e s' => CopyHarmless s e ∧ Step .plain s e s') s₀
        [.complete 1, .llog [98] rb, .llog [97] ra, .complete 0] s ∧
      s.file ++ s.pending = [97, 98] := by
  obtain ⟨block, s₀, ra, rb, s, hblock, hopen, hfile, hrun, hta, htb, -⟩ := second_message
  refine ⟨s₀, ra, rb, s, hrun, ?_⟩
  rw [log_conserved hblock hopen (by decide) hrun, hfile]
  simp [taken, hta, htb, cut]

/-- Three messages of one letter, and the first one is written before the third is logged: the
second is lost, and the first is in the log twice. -/
theorem log_not_conserved :
    ¬ ∀ (lib : Lib) (block pfile : Bytes) (size num level : Int) (flag : BitVec 32) (file : Bytes)
        (ret : Int) (strbuf : Bytes) (s₀ : Handle), block.length = bufsize →
      lopen lib block pfile size num level flag file = (ret, strbuf, some s₀) → flag &&& 1 ≠ 0 →
      ∀ (h : List Event) (s : Handle), Runs (Step lib) s₀ h s →
        s.file ++ s.pending = s₀.file ++ taken h := by
  intro hall
  obtain ⟨block, s₀, ra, rb, s, hblock, hopen, -, hok, -, -, hs, hst, hdata⟩ := second_message
  have hcons := hall .plain block [] 0 0 0 1 [] 3 (ascii "OK") s₀ hblock hopen (by decide)
  have hrun := hok.mono fun hstep => hstep.2
  obtain ⟨rc, s', hc, heff⟩ := llog_effect .plain hs ⟨0, 0⟩ [99]
  -- Conservation before and after that call says that the two bytes in the buffer are equal.
  have hbefore := hcons _ _ hrun
  have hafter := (conserved_llog_iff hs heff).mp (hcons _ _ (hrun.next (.llog hc)))
  have hkept := List.append_cancel_left (hafter.trans hbefore.symm)
  have heq := (kept_eq_pending_iff hs hst (by decide)).mp hkept
  have hfront : s.fp.mData.take (2 - 1) = [97] := by
    have htake := congrArg (List.take 1) hdata
    rw [List.take_take] at htake
    exact htake
  have hback : (s.fp.mData.drop 1).take (2 - 1) = [98] := by
    rw [← List.drop_take, hdata]
    rfl
  rw [hfront, hback] at heq
  simp at heq

end MyLua.Log
