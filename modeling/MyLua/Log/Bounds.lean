import MyLua.Log.Conservation

/-!
# Bounds of the Log Buffer (`llog`)

A request writes the first `aio_nbytes` bytes of `m_data`, and messages are put behind the
`m_dpos` bytes that are there. Both numbers are set again by every branch of `llog`, one of them
from a difference, and `llog` compares their sums with `BUFSIZE` in `size_t`. Whatever the requests
answer and however long the messages are, the two stay in order and below `BUFSIZE`.

## Main results

- `inFlight_effect`: `llog` leaves the bytes of a running request alone.
- `llog_bounds`: the order of the two numbers in every reachable handle, and what `llog` may touch.
-/

namespace MyLua.Log

open MyLua.Foundation

variable {lib : Lib} {s s' : Handle} {d : Nat}

/-- The bytes that the request writes. -/
def Handle.inFlight (s : Handle) : Bytes := s.fp.mData.take s.fp.mAcb.aioNbytes

/-- `0 <= aio_nbytes <= m_dpos < BUFSIZE`, on a buffer of that size. -/
structure Bounded (s : Handle) : Prop where
  size : s.fp.mData.length = bufsize
  nbytes : (s.fp.mAcb.aioNbytes : Int) ≤ s.fp.mDpos
  dpos : s.fp.mDpos < bufsize

theorem Sound.bounded (hs : Sound s d) : Bounded s := by
  have hnbytes := hs.nbytes
  have hlt := hs.lt
  refine ⟨hs.size, ?_, ?_⟩
  · rw [hs.dpos]
    omega
  · rw [hs.dpos]
    omega

/-- A call during a request adds behind the bytes in the buffer, so behind those in flight. -/
theorem inFlight_effect {p : Bytes} {r : LogResult} (hs : Sound s d)
    (running : s.status = .inProgress) (heff : Effect lib s d p r s') :
    s'.inFlight = s.inFlight := by
  have hnbytes := hs.nbytes
  have hlt := hs.lt
  have hsize := hs.size
  cases heff with
  -- Only `added` is possible while the request runs, and a call that changes nothing.
  | moved done le room taken => exact absurd (running.symm.trans done) nofun
  | movedOnly done le full refused => exact absurd (running.symm.trans done) nofun
  | added _ room taken =>
    simp only [Handle.inFlight, Handle.setData_mData, Handle.setData_mAcb]
    exact take_overwrite hnbytes (by omega)
  | resubmitted canceled room taken => exact absurd (running.symm.trans canceled) nofun
  | unchanged busy refused => rfl

/-- After a log was opened, in every run of calls and completions, `aio_nbytes`, `m_dpos` and
`BUFSIZE` are in order. `llog` is defined there for every message and every answer of the system,
so that none of its copies has a negative length or leaves `m_data`; and while the request runs it
changes none of the bytes the request writes. -/
theorem llog_bounds {block pfile : Bytes} {size num level : Int} {flag : BitVec 32}
    {file : Bytes} {ret : Int} {strbuf : Bytes} {s₀ : Handle} (hblock : block.length = bufsize)
    (hopen : lopen lib block pfile size num level flag file = (ret, strbuf, some s₀))
    {h : List Event} (hrun : Runs (Step lib) s₀ h s) :
    Bounded s ∧ ∀ (ans : Answers) (msg : Bytes), ∃ r s', llog lib ans s msg = some (r, s') ∧
      (s.status = .inProgress → s'.inFlight = s.inFlight) := by
  obtain ⟨d, hs⟩ := sound_run hblock hopen hrun
  refine ⟨hs.bounded, ?_⟩
  intro ans msg
  obtain ⟨r, s', hllog, heff⟩ := llog_effect lib hs ans msg
  exact ⟨r, s', hllog, fun running => inFlight_effect hs running heff⟩

/-- A log whose first message is being written. -/
theorem llog_bounds_first_message :
    ∃ s : Handle, s.status = .inProgress ∧ s.fp.mAcb.aioNbytes = 1 ∧ Bounded s ∧
      ∃ r s', llog .plain ⟨0, 0⟩ s [98] = some (r, s') ∧ s'.inFlight = s.inFlight := by
  obtain ⟨block, s₀, r, s, hblock, hopen, -, hrun, -, -, hst, hnbytes, -⟩ := first_message
  obtain ⟨hbounded, hllog⟩ := llog_bounds hblock hopen (hrun.mono And.right)
  obtain ⟨r', s', hcall, hstable⟩ := hllog ⟨0, 0⟩ [98]
  exact ⟨s, hst, hnbytes, hbounded, r', s', hcall, hstable hst⟩

end MyLua.Log
