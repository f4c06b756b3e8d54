import MyLua.Log.Conservation

/-!
# Closing a Log (`lclose`)

`lclose` calls `aio_cancel`, closes the descriptor and deletes the handle with its buffer. Nothing
is submitted any more, and nobody waits for the request: a byte that was taken reaches the file
only if a request has written it by then. When `llog` finds a cancelled request it submits all of
the buffer again; `lclose` does not.

## Main results

- `length_pending_aioCancel`: how many bytes are lost.
- `lclose_conserved`: the rest of what was taken is in the file.
- `lossless_lclose_iff`: closing loses nothing exactly if the last request writes the whole
  buffer before the descriptor is closed.
- `lossless_lclose_fails`: a message is logged, and the log is closed.
-/

namespace MyLua.Log

open MyLua.Foundation

variable {lib : Lib} {s s₀ : Handle} {d : Nat}

/-! ## §1 `lclose` -/

/-- How `aio_cancel` finds a request that runs: it can still be cancelled, or it is being carried
out, and will have written `n` bytes when the descriptor is closed. -/
inductive CancelAnswer where
  | canceled
  | notCanceled (n : Nat)
  deriving DecidableEq, Repr

/-- A request does not write more than it was submitted for. -/
def CancelAnswer.Possible (s : Handle) : CancelAnswer → Prop
  | .canceled => True
  | .notCanceled n => n ≤ s.fp.mAcb.aioNbytes

/-- `aio_cancel`, and what the request does until the descriptor is closed. A request that is done
is not touched. -/
def Handle.aioCancel (s : Handle) (answer : CancelAnswer) : Handle :=
  match s.status, answer with
  | .inProgress, .canceled => { s with status := .failed ECANCELED }
  | .inProgress, .notCanceled n => s.complete n
  | _, _ => s

/-- `lclose`. The descriptor is closed and the handle deleted; what is left is the file. -/
def lclose (s : Handle) (answer : CancelAnswer) : Bytes := (s.aioCancel answer).file

/-- How many bytes from the front of the buffer the last request has written when the descriptor
is closed. -/
def writtenAtClose (s : Handle) (answer : CancelAnswer) : Int :=
  match s.status, answer with
  | .inProgress, .notCanceled n => n
  | .completed n, _ => n
  | _, _ => 0

/-- The file has all bytes of the messages that were taken, behind its old contents `file`. -/
def Lossless (file : Bytes) (h : List Event) (left : Bytes) : Prop :=
  ∃ added, left = file ++ added ∧ (taken h).Sublist added

/-- The request is not in error; it may have been cancelled. -/
def NoIoError : Event → Prop
  | .fail errno => errno = ECANCELED
  | _ => True

/-! ## §2 What is lost -/

/-- `lclose` lets the request make one more step, or none. -/
theorem healthy_aioCancel {file : Bytes} {h : List Event} {answer : CancelAnswer}
    (hinv : Healthy file h s) (hposs : answer.Possible s) :
    Healthy file h (s.aioCancel answer) := by
  cases hst : s.status with
  | inProgress =>
    cases answer with
    | canceled =>
      -- To be cancelled is one of the errors a request can end with.
      have hok : CopyHarmless s (.fail ECANCELED) := trivial
      have hstep : Step .plain s (.fail ECANCELED) { s with status := .failed ECANCELED } :=
        .fail hst (by decide) (by decide)
      have hnext := healthy_step hinv hok hstep
      simpa only [Handle.aioCancel, hst, Healthy, Conserved, taken] using hnext
    | notCanceled n =>
      -- The request is completed, as by a step of a run.
      have hok : CopyHarmless s (.complete n) := trivial
      have hstep : Step .plain s (.complete n) (s.complete n) := .complete hst hposs
      have hnext := healthy_step hinv hok hstep
      simpa only [Handle.aioCancel, hst, Healthy, Conserved, taken] using hnext
  | completed ret => simpa only [Handle.aioCancel, hst] using hinv
  | failed errno => simpa only [Handle.aioCancel, hst] using hinv

/-- The bytes that are still in the buffer when it is deleted. -/
theorem length_pending_aioCancel (hs : Sound s d) (answer : CancelAnswer) :
    ((s.aioCancel answer).pending).length = (s.fp.mDpos - writtenAtClose s answer).toNat := by
  have hdpos := hs.dpos
  have hlen : (s.fp.mData.take s.fp.mDpos.toNat).length = d := by
    have hsize := hs.size
    have hlt := hs.lt
    rw [List.length_take]
    omega
  -- The buffer has `m_dpos` bytes; what the request wrote is not pending any more.
  cases hst : s.status with
  | inProgress =>
    cases answer with
    | canceled =>
      simp only [Handle.aioCancel, writtenAtClose, Handle.pending, hst, hlen]
      omega
    | notCanceled n =>
      simp only [Handle.aioCancel, writtenAtClose, Handle.pending, Handle.complete, hst,
        List.length_drop, hlen]
      omega
  | completed ret =>
    -- A request that was done before is not touched.
    obtain ⟨n, rfl, -⟩ := hs.written ret hst
    simp only [Handle.aioCancel, writtenAtClose, Handle.pending, hst, List.length_drop, hlen]
    omega
  | failed errno =>
    simp only [Handle.aioCancel, writtenAtClose, Handle.pending, hst, hlen]
    omega

/-- A file that conserves has everything exactly if nothing is left in the buffer. -/
theorem lossless_iff_pending {file : Bytes} {h : List Event} (hcons : Conserved file h s) :
    Lossless file h s.file ↔ s.pending = [] := by
  unfold Conserved at hcons
  refine ⟨?_, ?_⟩
  · -- The file has at least the bytes that were taken, and by conservation not more than these.
    rintro ⟨added, hadded, hsub⟩
    rw [hadded, List.append_assoc, List.append_cancel_left_eq] at hcons
    have hle := hsub.length_le
    rw [← hcons, List.length_append] at hle
    apply List.eq_nil_of_length_eq_zero
    omega
  · intro hnil
    rw [hnil, List.append_nil] at hcons
    exact ⟨taken h, hcons, List.Sublist.refl _⟩

/-! ## §3 Closing after a run -/

section Opened

variable {block pfile : Bytes} {size num level : Int} {flag : BitVec 32} {file : Bytes}
  {ret : Int} {strbuf : Bytes}

/-- What closing leaves of a run in append mode in which no copy of `llog` destroys anything: the
first bytes that were taken, without those the last request did not write. -/
theorem lclose_conserved (hblock : block.length = bufsize)
    (hopen : lopen lib block pfile size num level flag file = (ret, strbuf, some s₀))
    (happend : s₀.fp.mFlag &&& O_APPEND ≠ 0) {h : List Event}
    (hrun : Runs (fun s e s' => CopyHarmless s e ∧ Step lib s e s') s₀ h s)
    {answer : CancelAnswer} (hposs : answer.Possible s) :
    ∃ lost, lclose s answer ++ lost = s₀.file ++ taken h ∧
      lost.length = (s.fp.mDpos - writtenAtClose s answer).toNat := by
  have hinv := healthy_run hblock hopen happend hrun
  obtain ⟨d, hs⟩ := hinv.1
  exact ⟨_, (healthy_aioCancel hinv hposs).2.2, length_pending_aioCancel hs answer⟩

/-- Closing a log that was opened in append mode, after any run in which no copy of `llog`
destroys anything: the file has every byte that was taken if and only if the last request has
written all of the buffer when the descriptor is closed. -/
theorem lossless_lclose_iff (hblock : block.length = bufsize)
    (hopen : lopen lib block pfile size num level flag file = (ret, strbuf, some s₀))
    (happend : s₀.fp.mFlag &&& O_APPEND ≠ 0) {h : List Event}
    (hrun : Runs (fun s e s' => CopyHarmless s e ∧ Step lib s e s') s₀ h s)
    {answer : CancelAnswer} (hposs : answer.Possible s) :
    Lossless s₀.file h (lclose s answer) ↔ s.fp.mDpos ≤ writtenAtClose s answer := by
  have hinv := healthy_run hblock hopen happend hrun
  obtain ⟨d, hs⟩ := hinv.1
  have hlen := length_pending_aioCancel hs answer
  rw [lclose, lossless_iff_pending (healthy_aioCancel hinv hposs).2.2, ← List.length_eq_zero_iff,
    hlen]
  omega

end Opened

/-- One message, whose request is carried out while `lclose` runs. -/
theorem lossless_lclose_one_message :
    ∃ s₀ r s, Runs (fun s e s' => CopyHarmless s e ∧ Step .plain s e s') s₀
        [.llog [97] r, .complete 0] s ∧
      Lossless s₀.file [.llog [97] r, .complete 0] (lclose s (.notCanceled 1)) := by
  obtain ⟨block, s₀, r, s, hblock, hopen, -, hrun, -, hs, hst, hnbytes, -⟩ := first_message
  refine ⟨s₀, r, s, hrun, ?_⟩
  have happend : s₀.fp.mFlag &&& O_APPEND ≠ 0 := append_lopen (by decide) hopen
  have hposs : CancelAnswer.Possible s (.notCanceled 1) := Nat.le_of_eq hnbytes.symm
  rw [lossless_lclose_iff hblock hopen happend hrun hposs]
  simp [writtenAtClose, hst, hs.dpos]

/-- One message, whose request is cancelled by `lclose`. -/
theorem lossless_lclose_fails :
    ¬ ∀ (lib : Lib) (block pfile : Bytes) (size num level : Int) (flag : BitVec 32) (file : Bytes)
        (ret : Int) (strbuf : Bytes) (s₀ : Handle), block.length = bufsize →
      lopen lib block pfile size num level flag file = (ret, strbuf, some s₀) →
      s₀.fp.mFlag &&& O_APPEND ≠ 0 →
      ∀ (h : List Event) (s : Handle), Runs (Step lib) s₀ h s → (∀ e ∈ h, NoIoError e) →
        ∀ answer : CancelAnswer, answer.Possible s → Lossless s₀.file h (lclose s answer) := by
  intro hall
  obtain ⟨block, s₀, r, s, hblock, hopen, -, hrun, -, hs, hst, -⟩ := first_message
  have happend : s₀.fp.mFlag &&& O_APPEND ≠ 0 := append_lopen (by decide) hopen
  have herrors : ∀ e ∈ [Event.llog [97] r, .complete 0], NoIoError e := by simp [NoIoError]
  have hlossless := hall .plain block [] 0 0 0 1 [] 3 (ascii "OK") s₀ hblock hopen happend _ s
    (hrun.mono And.right) herrors .canceled trivial
  -- The byte of the message is still in the buffer when it is deleted.
  have hposs : CancelAnswer.Possible s .canceled := trivial
  have hinv := healthy_aioCancel (healthy_run hblock hopen happend hrun) hposs
  have hnil := (lossless_iff_pending hinv.2.2).mp hlossless
  have hlen := length_pending_aioCancel hs .canceled
  simp [hnil, hs.dpos, writtenAtClose, hst] at hlen

end MyLua.Log
