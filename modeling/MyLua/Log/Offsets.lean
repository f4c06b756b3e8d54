import MyLua.Log.Conservation

/-!
# Where Log Requests Write (`llog` without append mode)

`aio_write` writes at the end of the file when the descriptor has `O_APPEND`, and at `aio_offset`
when it has not. `_open` clears the request, so `aio_offset` starts as 0, and each of the three
branches of `llog` that submit the request again sets its length only. Every request without
`O_APPEND` therefore writes at the beginning of the file, on top of the one before.

## Main results

- `aioOffset_step`: no step moves the offset.
- `intact_run`: while no range begins before the end of an earlier one, what the requests wrote
  is still in the file.
- `neverOverwrites_iff`: the ranges are in order exactly with `O_APPEND`, or as long as one
  request at most has written anything.
- `neverOverwrites_fails`: the second request of a log overwrites the first.
-/

namespace MyLua.Log

open MyLua.Foundation

variable {lib : Lib} {s s' s₀ : Handle} {d : Nat}

/-! ## §1 Ranges of a file -/

theorem pwrite_end (file data : Bytes) : pwrite file file.length data = file ++ data := by
  simp [pwrite, overwrite]

theorem length_pwrite (file data : Bytes) (offset : Nat) :
    (pwrite file offset data).length = max file.length (offset + data.length) := by
  simp only [pwrite, overwrite, List.length_append, List.length_take, List.length_drop,
    List.length_replicate]
  omega

theorem pwrite_nil (file : Bytes) (offset : Nat) :
    pwrite file offset [] = file ++ List.replicate (offset - file.length) 0 := overwrite_nil _ _

/-- What was written is in the file. -/
theorem pwrite_written (file data : Bytes) (offset : Nat) :
    ((pwrite file offset data).drop offset).take data.length = data := by
  have hlen : ((file ++ List.replicate (offset - file.length) 0).take offset).length = offset := by
    simp only [List.length_take, List.length_append, List.length_replicate]
    omega
  rw [pwrite, overwrite, List.append_assoc, List.drop_left' hlen, List.take_left' rfl]

/-- A write changes nothing before its offset, and a write of no bytes changes nothing. -/
theorem pwrite_before {file data : Bytes} {offset i n : Nat}
    (hoff : data ≠ [] → i + n ≤ offset) (hfile : i + n ≤ file.length) :
    ((pwrite file offset data).drop i).take n = (file.drop i).take n := by
  have hpad : offset ≤ (file ++ List.replicate (offset - file.length) (0 : UInt8)).length := by
    simp only [List.length_append, List.length_replicate]
    omega
  have htake : (pwrite file offset data).take (i + n) = file.take (i + n) := by
    by_cases hdata : data = []
    · -- A write of no bytes may still lengthen the file, behind the bytes that are read here.
      rw [hdata, pwrite_nil, List.take_append_of_le_length hfile]
    · rw [pwrite, take_overwrite (hoff hdata) hpad, List.take_append_of_le_length hfile]
  have hcut : ∀ b : Bytes, (b.drop i).take n = (b.take (i + n)).drop i := by
    intro b
    rw [List.drop_take]
    congr 1
    omega
  rw [hcut, htake, hcut]

/-! ## §2 Requests -/

/-- Where the request writes. -/
def Handle.writeOffset (s : Handle) : Nat :=
  if s.fp.mFlag &&& O_APPEND ≠ 0 then s.file.length else s.fp.mAcb.aioOffset

/-- The range of the file that a completed request wrote. A request that wrote no bytes, as the
one that `_open` submits, has no range. -/
def writtenRange : Handle × Event → Option (Nat × Nat)
  | (s, .complete n) => if n = 0 then none else some (s.writeOffset, s.writeOffset + n)
  | _ => none

/-- The ranges in the order in which the requests were completed. -/
def ranges (h : List (Handle × Event)) : List (Nat × Nat) := inOrder writtenRange h

/-- Every range begins at or after the ends of all earlier ones. -/
def NeverOverwrites (h : List (Handle × Event)) : Prop :=
  (ranges h).Pairwise fun earlier later => earlier.2 ≤ later.1

/-- The request was completed with at least one byte. -/
def wroteBytes : Event → Bool
  | .complete n => n ≠ 0
  | _ => false

/-- What the requests wrote is in the file, where they wrote it. -/
def Intact (h : List (Handle × Event)) (file : Bytes) : Prop :=
  ∀ t n, (t, Event.complete n) ∈ h →
    (file.drop t.writeOffset).take n = t.fp.mData.take n

/-- Both ways of completing a request are a `pwrite`. -/
theorem file_complete (s : Handle) (n : Nat) :
    (s.complete n).file = pwrite s.file s.writeOffset (s.fp.mData.take n) := by
  unfold Handle.complete Handle.writeOffset
  dsimp only
  split
  · -- With `O_APPEND` the end of the file is the offset, without it `aio_offset` is.
    rw [pwrite_end]
  · rfl

/-- `llog` leaves the file alone, and no step changes how the descriptor was opened or the offset
of the request. -/
theorem aioOffset_effect {p : Bytes} {r : LogResult} (heff : Effect lib s d p r s') :
    s'.file = s.file ∧ s'.fp.mFlag = s.fp.mFlag ∧
      s'.fp.mAcb.aioOffset = s.fp.mAcb.aioOffset := by
  cases heff with
  -- The three branches that submit set the length of the request; none sets the offset.
  | moved => exact ⟨rfl, rfl, rfl⟩
  | movedOnly => exact ⟨rfl, rfl, rfl⟩
  | added => exact ⟨rfl, rfl, rfl⟩
  | resubmitted => exact ⟨rfl, rfl, rfl⟩
  | unchanged => exact ⟨rfl, rfl, rfl⟩

theorem aioOffset_step {e : Event} (hs : Sound s d) (hstep : Step lib s e s') :
    s'.fp.mFlag = s.fp.mFlag ∧ s'.fp.mAcb.aioOffset = s.fp.mAcb.aioOffset := by
  cases hstep with
  | llog hrun => exact (aioOffset_effect (effect_of_llog hs hrun)).2
  | complete running le => exact ⟨rfl, rfl⟩
  | fail running pos ne => exact ⟨rfl, rfl⟩

/-- Only a completed request changes the file. -/
theorem file_step {e : Event} (hs : Sound s d) (hstep : Step lib s e s') :
    (∃ n, e = .complete n ∧ s' = s.complete n ∧ n ≤ d) ∨
      ((∀ n, e ≠ .complete n) ∧ s'.file = s.file) := by
  cases hstep with
  | llog hrun =>
    refine Or.inr ⟨?_, (aioOffset_effect (effect_of_llog hs hrun)).1⟩
    -- A call of `llog` is not a completed request.
    intro n h
    cases h
  | @complete n running le => exact Or.inl ⟨n, rfl, rfl, Nat.le_trans le hs.nbytes⟩
  | fail running pos ne =>
    refine Or.inr ⟨?_, rfl⟩
    intro n h
    cases h

/-! ## §3 Runs -/

/-- A history of the handle `s₀` that led to `s`: the descriptor is the one that was opened, the
offset is 0, and every range is inside the file. -/
structure Tracked (s₀ : Handle) (h : List (Handle × Event)) (s : Handle) : Prop where
  sound : ∃ d, Sound s d
  flag : s.fp.mFlag = s₀.fp.mFlag
  offset : s.fp.mAcb.aioOffset = 0
  inside : ∀ r ∈ ranges h, r.2 ≤ s.file.length

theorem ranges_cons (e : Handle × Event) (h : List (Handle × Event)) :
    ranges (e :: h) = ranges h ++ (writtenRange e).toList := inOrder_cons writtenRange e h

theorem writtenRange_eq_some {s : Handle} {e : Event} {r : Nat × Nat} :
    writtenRange (s, e) = some r ↔
      ∃ n, e = .complete n ∧ n ≠ 0 ∧ r = (s.writeOffset, s.writeOffset + n) := by
  cases e with
  | complete n =>
    by_cases hn : n = 0
    · simp [writtenRange, hn]
    · simp [writtenRange, hn, eq_comm]
  | llog msg result => simp [writtenRange]
  | fail errno => simp [writtenRange]

/-- An event adds the range it wrote, if any. -/
theorem mem_ranges_cons {e : Handle × Event} {h : List (Handle × Event)} {r : Nat × Nat} :
    r ∈ ranges (e :: h) ↔ r ∈ ranges h ∨ writtenRange e = some r := by
  rw [ranges_cons, List.mem_append, Option.mem_toList]

theorem mem_ranges {h : List (Handle × Event)} {n : Nat} (hmem : (s, .complete n) ∈ h)
    (hn : n ≠ 0) : (s.writeOffset, s.writeOffset + n) ∈ ranges h := by
  rw [ranges, inOrder, List.mem_filterMap]
  exact ⟨_, List.mem_reverse.mpr hmem, writtenRange_eq_some.mpr ⟨n, rfl, hn, rfl⟩⟩

theorem length_written (hs : Sound s d) {n : Nat} (hn : n ≤ d) :
    (s.fp.mData.take n).length = n := by
  have hlt := hs.lt
  have hsize := hs.size
  rw [List.length_take]
  omega

theorem tracked_step {h : List (Handle × Event)} {e : Handle × Event} (hinv : Tracked s₀ h s)
    (hstep : Recorded (Step lib) s e s') : Tracked s₀ (e :: h) s' := by
  obtain ⟨t, e⟩ := e
  obtain ⟨rfl, hstep⟩ := hstep
  obtain ⟨d, hs⟩ := hinv.sound
  obtain ⟨hflag, hoffset⟩ := aioOffset_step hs hstep
  refine ⟨sound_step lib hs hstep, hflag.trans hinv.flag, hoffset.trans hinv.offset, ?_⟩
  intro r hr
  rcases file_step hs hstep with ⟨n, rfl, rfl, hn⟩ | ⟨hother, hfile⟩
  · -- The file is long enough for the new range, and it never gets shorter.
    rw [file_complete, length_pwrite, length_written hs hn]
    rcases mem_ranges_cons.mp hr with hold | hnew
    · have hin := hinv.inside r hold
      omega
    · obtain ⟨m, hm, -, rfl⟩ := writtenRange_eq_some.mp hnew
      cases hm
      exact Nat.le_max_right _ _
  · rw [hfile]
    rcases mem_ranges_cons.mp hr with hold | hnew
    · exact hinv.inside r hold
    · -- Another event has no range.
      obtain ⟨m, hm, -, -⟩ := writtenRange_eq_some.mp hnew
      exact absurd hm (hother m)

/-- With `O_APPEND` a request writes at the end of the file, behind all ranges. -/
theorem neverOverwrites_step {h : List (Handle × Event)} {e : Handle × Event}
    (happend : s₀.fp.mFlag &&& O_APPEND ≠ 0) (hinv : Tracked s₀ h s) (hnever : NeverOverwrites h)
    (hstep : Recorded (Step lib) s e s') : NeverOverwrites (e :: h) := by
  obtain ⟨t, e⟩ := e
  obtain ⟨rfl, -⟩ := hstep
  rw [NeverOverwrites, ranges_cons, List.pairwise_append]
  refine ⟨hnever, ?_, ?_⟩
  · -- One range alone is in order.
    cases writtenRange (t, e) <;> simp
  · intro earlier hearlier later hlater
    have hin := hinv.inside earlier hearlier
    -- The earlier ranges are inside the file, and the new one begins at its end.
    have hend : t.writeOffset = t.file.length := by
      rw [Handle.writeOffset, if_pos (hinv.flag ▸ happend)]
    obtain ⟨n, -, -, rfl⟩ := writtenRange_eq_some.mp (Option.mem_toList.mp hlater)
    dsimp only
    rw [hend]
    exact hin

/-- Without `O_APPEND` every range begins at 0. -/
theorem ranges_from_zero_step {h : List (Handle × Event)} {e : Handle × Event}
    (hplain : s₀.fp.mFlag &&& O_APPEND = 0) (hinv : Tracked s₀ h s)
    (hzero : ∀ r ∈ ranges h, r.1 = 0 ∧ 0 < r.2) (hstep : Recorded (Step lib) s e s') :
    ∀ r ∈ ranges (e :: h), r.1 = 0 ∧ 0 < r.2 := by
  obtain ⟨t, e⟩ := e
  obtain ⟨rfl, -⟩ := hstep
  -- The descriptor is the one that was opened, and the offset of the request never moved.
  have hstart : t.writeOffset = 0 := by
    rw [Handle.writeOffset, if_neg (by rw [hinv.flag]; simpa using hplain), hinv.offset]
  intro r hr
  rcases mem_ranges_cons.mp hr with hold | hnew
  · exact hzero r hold
  · obtain ⟨n, -, hn, rfl⟩ := writtenRange_eq_some.mp hnew
    exact ⟨hstart, by dsimp only; omega⟩

/-- New ranges behind the old ones leave what was written in place. -/
theorem intact_step {h : List (Handle × Event)} {e : Handle × Event} (hinv : Tracked s₀ h s)
    (hnever : NeverOverwrites (e :: h)) (hintact : Intact h s.file)
    (hstep : Recorded (Step lib) s e s') : Intact (e :: h) s'.file := by
  obtain ⟨t, e⟩ := e
  obtain ⟨rfl, hstep⟩ := hstep
  obtain ⟨d, hs⟩ := hinv.sound
  intro u m hm
  rcases file_step hs hstep with ⟨n, rfl, rfl, hn⟩ | ⟨hother, hfile⟩
  · rw [file_complete]
    rcases List.mem_cons.mp hm with heq | hold
    · -- The bytes of this request.
      cases heq
      have hwritten := pwrite_written t.file (t.fp.mData.take m) t.writeOffset
      rw [length_written hs hn] at hwritten
      exact hwritten
    · rw [← hintact u m hold]
      -- An older request. It wrote nothing, or a range that the file still has.
      by_cases hm₀ : m = 0
      · simp [hm₀]
      · have hrange := mem_ranges hold hm₀
        have hin : u.writeOffset + m ≤ t.file.length := hinv.inside _ hrange
        apply pwrite_before _ hin
        intro hdata
        -- The new range is behind the old one.
        have hn₀ : n ≠ 0 := by
          rintro rfl
          exact hdata List.take_zero
        have hnew : writtenRange (t, .complete n) = some (t.writeOffset, t.writeOffset + n) :=
          writtenRange_eq_some.mpr ⟨n, rfl, hn₀, rfl⟩
        rw [NeverOverwrites, ranges_cons, List.pairwise_append] at hnever
        exact hnever.2.2 _ hrange _ (Option.mem_toList.mpr hnew)
  · rw [hfile]
    -- No request was completed: the file is as it was.
    rcases List.mem_cons.mp hm with heq | hold
    · cases heq
      exact absurd rfl (hother m)
    · exact hintact u m hold

/-- What holds throughout a run, with and without `O_APPEND`. -/
theorem tracked_run {h : List (Handle × Event)} (hs₀ : Sound s₀ 0)
    (hoffset : s₀.fp.mAcb.aioOffset = 0) (hrun : Runs (Recorded (Step lib)) s₀ h s) :
    Tracked s₀ h s := by
  have hstart : Tracked s₀ [] s₀ := by
    refine ⟨⟨0, hs₀⟩, rfl, hoffset, ?_⟩
    intro r hr
    cases hr
  exact hrun.invariant hstart fun hinv hstep => tracked_step hinv hstep

/-- While the ranges are in order, the file has every byte that was written since it was
opened. -/
theorem intact_run {h : List (Handle × Event)} (hs₀ : Sound s₀ 0)
    (hoffset : s₀.fp.mAcb.aioOffset = 0) (hrun : Runs (Recorded (Step lib)) s₀ h s)
    (hnever : NeverOverwrites h) : Intact h s.file := by
  -- By induction on the run; the ranges of the run before the last step are in order too.
  induction hrun with
  | start =>
    intro t n hmem
    cases hmem
  | next hr hstep ih =>
    have hinv := tracked_run hs₀ hoffset hr
    have hbefore := hnever
    rw [NeverOverwrites, ranges_cons, List.pairwise_append] at hbefore
    exact intact_step hinv hnever (ih hbefore.1) hstep

theorem length_ranges (h : List (Handle × Event)) :
    (ranges h).length = h.countP fun e => wroteBytes e.2 := by
  induction h with
  | nil => rfl
  | cons e h ih =>
    obtain ⟨t, e⟩ := e
    -- An event adds a range exactly when it wrote a byte.
    rw [ranges_cons, List.length_append, ih, List.countP_cons]
    congr 1
    cases e with
    | complete n =>
      by_cases hn : n = 0
      · simp [writtenRange, wroteBytes, hn]
      · simp [writtenRange, wroteBytes, hn]
    | llog msg result => rfl
    | fail errno => rfl

/-- Ranges that all begin at 0 are in order if there is at most one. -/
theorem pairwise_from_zero {l : List (Nat × Nat)} (hzero : ∀ r ∈ l, r.1 = 0 ∧ 0 < r.2) :
    l.Pairwise (fun earlier later => earlier.2 ≤ later.1) ↔ l.length ≤ 1 := by
  cases l with
  | nil => simp
  | cons r l =>
    cases l with
    | nil => simp
    -- Two ranges from 0 on overlap, as neither is empty.
    | cons r' l =>
      have hr := hzero r List.mem_cons_self
      have hr' := hzero r' (List.mem_cons_of_mem r List.mem_cons_self)
      refine iff_of_false ?_ (by simp)
      intro hsorted
      have hle := List.rel_of_pairwise_cons hsorted List.mem_cons_self
      omega

/-- With `O_APPEND` the ranges are in order in every run. -/
theorem neverOverwrites_append {h : List (Handle × Event)} (hs₀ : Sound s₀ 0)
    (hoffset : s₀.fp.mAcb.aioOffset = 0) (happend : s₀.fp.mFlag &&& O_APPEND ≠ 0)
    (hrun : Runs (Recorded (Step lib)) s₀ h s) : NeverOverwrites h := by
  induction hrun with
  | start => exact List.Pairwise.nil
  | next hr hstep ih =>
    have hinv := tracked_run hs₀ hoffset hr
    exact neverOverwrites_step happend hinv ih hstep

/-- Without it they are as long as there is at most one. -/
theorem neverOverwrites_plain {h : List (Handle × Event)} (hs₀ : Sound s₀ 0)
    (hoffset : s₀.fp.mAcb.aioOffset = 0) (hplain : s₀.fp.mFlag &&& O_APPEND = 0)
    (hrun : Runs (Recorded (Step lib)) s₀ h s) :
    NeverOverwrites h ↔ (h.countP fun e => wroteBytes e.2) ≤ 1 := by
  have hzero : ∀ r ∈ ranges h, r.1 = 0 ∧ 0 < r.2 := by
    induction hrun with
    | start =>
      intro r hr
      cases hr
    | next hr hstep ih =>
      have hinv := tracked_run hs₀ hoffset hr
      exact ranges_from_zero_step hplain hinv ih hstep
  rw [NeverOverwrites, pairwise_from_zero hzero, length_ranges]

/-! ## §4 Opened handles -/

section Opened

variable {block pfile : Bytes} {size num level : Int} {flag : BitVec 32} {file : Bytes}
  {ret : Int} {strbuf : Bytes}

theorem aioOffset_lopen
    (h : lopen lib block pfile size num level flag file = (ret, strbuf, some s)) :
    s.fp.mAcb.aioOffset = 0 := by
  obtain ⟨fp, fd, hfp, -⟩ := opened_lopen h
  rw [hfp]
  rfl

/-- With flag bit 0 clear, the flag itself says whether the file is opened for appending. -/
theorem mFlag_lopen (hflag : flag &&& 1 = 0)
    (h : lopen lib block pfile size num level flag file = (ret, strbuf, some s)) :
    s.fp.mFlag &&& O_APPEND = flag &&& O_APPEND := by
  obtain ⟨-, -, -, -, hmode⟩ := lopen_eq_some h
  have hbits : O_RDWR &&& O_APPEND = 0#32 := by decide
  rw [hmode, if_neg (not_not.mpr hflag), BitVec.and_or_distrib_right, hbits, BitVec.or_zero]

/-- A log opened with flag bit 0 clear. In every run the ranges that the completed requests wrote
are in order if and only if the flag has `O_APPEND` itself, or at most one request has been
completed with any bytes. -/
theorem neverOverwrites_iff (hblock : block.length = bufsize)
    (hopen : lopen lib block pfile size num level flag file = (ret, strbuf, some s₀))
    (hflag : flag &&& 1 = 0) {h : List (Handle × Event)}
    (hrun : Runs (Recorded (Step lib)) s₀ h s) :
    NeverOverwrites h ↔
      flag &&& O_APPEND ≠ 0 ∨ (h.countP fun e => wroteBytes e.2) ≤ 1 := by
  have hs₀ := sound_lopen hblock hopen
  have hoffset := aioOffset_lopen hopen
  have hmode := mFlag_lopen hflag hopen
  by_cases happend : flag &&& O_APPEND = 0
  · -- Without the bit every request starts at 0, and the count decides.
    rw [neverOverwrites_plain hs₀ hoffset (hmode.trans happend) hrun]
    simp [happend]
  · have hordered := neverOverwrites_append hs₀ hoffset (by rwa [hmode]) hrun
    exact iff_of_true hordered (Or.inl happend)

end Opened

/-- When everything is written, a message of one letter is logged and written. -/
theorem logs_letter (lib : Lib) (hs : Sound s d) (hst : s.status = .completed d) {c : UInt8}
    (hc : c ≠ 0) : ∃ r t s', Runs (Recorded (Step lib)) s [(t, .complete 1), (s, .llog [c] r)] s' ∧
      Sound s' 1 ∧ s'.status = .completed (1 : Nat) := by
  have hcut : cut [c] = [c] := cut_cons_of_ne hc []
  have hlen : d - d + (cut [c]).length = 1 := by
    rw [hcut, List.length_singleton]
    omega
  obtain ⟨r, hlog, -⟩ := llog_completed lib hs hst [c] (by rw [hlen]; decide) ⟨0, 0⟩
  rw [hlen] at hlog
  -- The letter is moved to the front of the buffer and submitted, and the request writes it.
  have hllog : Step lib s (.llog [c] r) _ := .llog hlog
  obtain ⟨_, hs₁⟩ := sound_step lib hs hllog
  replace hs₁ := hs₁.of_mDpos (d := 1) rfl
  have hnbytes : 1 ≤ toSize ((1 : Nat) : Int) := by decide
  have hcomplete : Step lib (s.aioWrite (overwrite (moved lib s d d) (d - d) (cut [c]))
      ((1 : Nat) : Int)) (.complete 1) _ := .complete rfl hnbytes
  obtain ⟨_, hs₂⟩ := sound_step lib hs₁ hcomplete
  exact ⟨r, _, _, (Runs.start.next ⟨rfl, hllog⟩).next ⟨rfl, hcomplete⟩,
    hs₂.of_mDpos (d := 1) rfl, rfl⟩

/-- A new log and its first message. -/
theorem logs_first_letter {block : Bytes} (hblock : block.length = bufsize) (flag : BitVec 32) :
    ∃ s₀ r t s, lopen .plain block [] 0 0 0 flag [] = (3, ascii "OK", some s₀) ∧
      Runs (Recorded (Step .plain)) s₀
        [(t, .complete 1), (s₀.complete 0, .llog [97] r), (s₀, .complete 0)] s ∧
      Sound s 1 ∧ s.status = .completed (1 : Nat) := by
  obtain ⟨s₀, hopen, -, hstatus, hs₁⟩ := opened_plain hblock flag
  have hempty : Step .plain s₀ (.complete 0) (s₀.complete 0) := .complete hstatus (Nat.zero_le _)
  have hletter : (97 : UInt8) ≠ 0 := by decide
  obtain ⟨r, t, s, hrun, hs, hst⟩ := logs_letter .plain hs₁ rfl hletter
  have hfirst : Runs (Recorded (Step .plain)) s₀ [(s₀, .complete 0)] (s₀.complete 0) :=
    Runs.start.next ⟨rfl, hempty⟩
  exact ⟨s₀, r, t, s, hopen, hfirst.trans hrun, hs, hst⟩

/-- A new log and its first two messages. -/
theorem logs_two_letters {block : Bytes} (hblock : block.length = bufsize) (flag : BitVec 32) :
    ∃ s₀ h s, lopen .plain block [] 0 0 0 flag [] = (3, ascii "OK", some s₀) ∧
      Runs (Recorded (Step .plain)) s₀ h s ∧ h.countP (fun e => wroteBytes e.2) = 2 := by
  obtain ⟨s₀, r, t, s, hopen, hfirst, hs, hst⟩ := logs_first_letter hblock flag
  have hletter : (98 : UInt8) ≠ 0 := by decide
  obtain ⟨r', t', s', hsecond, -⟩ := logs_letter .plain hs hst hletter
  exact ⟨s₀, _, s', hopen, hfirst.trans hsecond, rfl⟩

/-- One message is in order without `O_APPEND`, and two are with it. -/
theorem neverOverwrites_letters :
    (∃ s₀ h s, Runs (Recorded (Step .plain)) s₀ h s ∧ s₀.fp.mFlag &&& O_APPEND = 0 ∧
      h.countP (fun e => wroteBytes e.2) = 1 ∧ NeverOverwrites h) ∧
    ∃ s₀ h s, Runs (Recorded (Step .plain)) s₀ h s ∧ s₀.fp.mFlag &&& O_APPEND ≠ 0 ∧
      h.countP (fun e => wroteBytes e.2) = 2 ∧ NeverOverwrites h := by
  obtain ⟨block, hblock⟩ : ∃ block : Bytes, block.length = bufsize :=
    ⟨List.replicate bufsize 0, List.length_replicate⟩
  constructor
  · obtain ⟨s₀, r, t, s, hopen, hrun, -⟩ := logs_first_letter hblock 0
    have hone := (neverOverwrites_iff hblock hopen (by decide) hrun).mpr (Or.inr (Nat.le_refl 1))
    exact ⟨s₀, _, s, hrun, mFlag_lopen (by decide) hopen, rfl, hone⟩
  · obtain ⟨s₀, h, s, hopen, hrun, hcount⟩ := logs_two_letters hblock O_APPEND
    have hflag : O_APPEND &&& 1 = 0 := by decide
    have happend : s₀.fp.mFlag &&& O_APPEND ≠ 0 := by
      rw [mFlag_lopen hflag hopen]
      decide
    have hboth := (neverOverwrites_iff hblock hopen hflag hrun).mpr (Or.inl (by decide))
    exact ⟨s₀, h, s, hrun, happend, hcount, hboth⟩

/-- Two messages of one letter without `O_APPEND`: both are written at offset 0. -/
theorem neverOverwrites_fails :
    ¬ ∀ (lib : Lib) (block pfile : Bytes) (size num level : Int) (flag : BitVec 32) (file : Bytes)
        (ret : Int) (strbuf : Bytes) (s₀ : Handle), block.length = bufsize →
      lopen lib block pfile size num level flag file = (ret, strbuf, some s₀) → flag &&& 1 = 0 →
      ∀ (h : List (Handle × Event)) (s : Handle), Runs (Recorded (Step lib)) s₀ h s →
        NeverOverwrites h := by
  intro hall
  obtain ⟨block, hblock⟩ : ∃ block : Bytes, block.length = bufsize :=
    ⟨List.replicate bufsize 0, List.length_replicate⟩
  obtain ⟨s₀, h, s, hopen, hrun, hcount⟩ := logs_two_letters hblock 0
  have hnever := hall .plain block [] 0 0 0 0 [] 3 (ascii "OK") s₀ hblock hopen (by decide) _ _ hrun
  -- The two completed requests of this run wrote a byte each.
  have hplain : s₀.fp.mFlag &&& O_APPEND = 0 := mFlag_lopen (by decide) hopen
  have hle := (neverOverwrites_plain (sound_lopen hblock hopen) (aioOffset_lopen hopen) hplain
    hrun).mp hnever
  rw [hcount] at hle
  exact absurd hle (Nat.not_le_of_gt (Nat.lt_succ_self 1))

end MyLua.Log
