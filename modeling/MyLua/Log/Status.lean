import MyLua.Log.Conservation

/-!
# What the Status of `llog` Tells

`llog` pushes one number. It should be negative exactly if the message was left out, and then
nothing else should be lost either. The variable behind it holds in turn what `aio_error`,
`aio_return` and `aio_suspend` answered, and most branches that refuse a message put -1 there. The
last one, for a request that failed, does not: the `errno` value of the failure stays, and it is
positive.

## Main results

- `llog_completed_ret`, `llog_inProgress_ret`, `llog_failed_ret`: what each branch reports.
- `forall_kept_eq_pending_iff`: when every `memcpy` keeps the bytes that were not written.
- `llog_status_iff`: the calls whose status tells whether the message was added.
- `llog_status_fails`: a new log on a device with an I/O error.
-/

namespace MyLua.Log

open MyLua.Foundation

variable {lib : Lib} {ans : Answers} {s : Handle} {d : Nat} {msg : Bytes}

/-! ## §1 Statuses -/

/-- The handle when the request gives another answer. -/
def Handle.answer (s : Handle) (status : AioStatus) : Handle := { s with status }

/-- What `aio_error` and `aio_return` can answer about the request: it runs, it reports an error,
or it is done with some negative result or at most the number of bytes that were submitted. -/
def PossibleAnswer (s : Handle) : AioStatus → Prop
  | .inProgress => True
  | .completed ret => ret ≤ s.fp.mAcb.aioNbytes
  | .failed errno => errno ≠ 0 ∧ errno ≠ EINPROGRESS

/-- The status of a call is negative exactly if no byte of the message was added, and then the
bytes that were pending still are. -/
def Tells (lib : Lib) (ans : Answers) (s : Handle) (msg : Bytes) : Prop :=
  ∃ r s', llog lib ans s msg = some (r, s') ∧
    (r.ret < 0 ↔ ¬ (r.taken = true ∧ cut msg ≠ [])) ∧ (r.ret < 0 → s'.pending = s.pending)

/-- The status tells it whatever `memcpy` does with regions that overlap. -/
def StatusTells (lib : Lib) (ans : Answers) (s : Handle) (msg : Bytes) : Prop :=
  ∀ memcpy : Memcpy UInt8, Tells { lib with memcpy } ans s msg

/-- `memcpy(m_data + n, m_data, m_dpos - n)` leaves the unwritten bytes in front: nothing was
written, or at least half of the buffer was and the rest equals the first bytes. -/
def CopyKeeps (s : Handle) (n : Int) : Prop :=
  n = 0 ∨ (s.fp.mDpos ≤ 2 * n ∧ s.fp.mData.take (s.fp.mDpos - n).toNat =
    (s.fp.mData.drop n.toNat).take (s.fp.mDpos - n).toNat)

/-- Where the status of `llog` is exact, before the call with the message `p`. -/
def StatusExact (ans : Answers) (s : Handle) (p : Bytes) : Prop :=
  match s.status with
  | .inProgress => p ≠ [] ∨ (s.fp.mDpos + 1024 * 2 > bufsize ∧ ans.aioSuspend < 0)
  | .completed n =>
    n < 0 ∨ (p ≠ [] ∧ (s.fp.mDpos - n + p.length < bufsize ∨ CopyKeeps s n))
  | .failed errno => errno < 0 ∨ (errno = ECANCELED ∧ p ≠ [])

theorem tells_iff {r : LogResult} {s' : Handle} (hrun : llog lib ans s msg = some (r, s')) :
    Tells lib ans s msg ↔ (r.ret < 0 ↔ ¬ (r.taken = true ∧ cut msg ≠ [])) ∧
      (r.ret < 0 → s'.pending = s.pending) := by
  refine ⟨?_, fun h => ⟨r, s', hrun, h⟩⟩
  rintro ⟨r', s'', hrun', h⟩
  rw [hrun] at hrun'
  obtain ⟨rfl, rfl⟩ := Prod.mk.inj (Option.some.inj hrun')
  exact h

/-- A message that is added is reported truly, unless it is empty. -/
theorem tells_taken {r : LogResult} {s' : Handle} (hrun : llog lib ans s msg = some (r, s'))
    (hret : 0 ≤ r.ret) (htaken : r.taken = true) : Tells lib ans s msg ↔ cut msg ≠ [] := by
  have hnonneg : ¬ r.ret < 0 := by omega
  simp [tells_iff hrun, hnonneg, htaken]

/-- A negative status is true of a message that is left out, if nothing is lost. -/
theorem tells_refused {r : LogResult} {s' : Handle} (hrun : llog lib ans s msg = some (r, s'))
    (hret : r.ret < 0) (htaken : r.taken = false) :
    Tells lib ans s msg ↔ s'.pending = s.pending := by
  simp [tells_iff hrun, hret, htaken]

/-! ## §2 What the branches report -/

theorem fits_dpos (hs : Sound s d) {k : Nat} : fits (s.fp.mDpos + k) ↔ d + k < bufsize := by
  rw [hs.dpos_add, fits_natCast]

theorem fits_rest (hs : Sound s d) {n k : Nat} (hn : n ≤ d) :
    fits (s.fp.mDpos - n + k) ↔ d - n + k < bufsize := by
  rw [hs.dpos_sub hn, ← Int.natCast_add, fits_natCast]

/-- After `n` bytes were written, a call reports `n`, or -1 if the message does not fit behind
the rest. -/
theorem llog_completed_ret (hs : Sound s d) {n : Nat} (hst : s.status = .completed n)
    {r : LogResult} {s' : Handle} (hrun : llog lib ans s msg = some (r, s')) :
    (d - n + (cut msg).length < bufsize ∧ r.ret = n ∧ r.taken = true) ∨
      (¬ d - n + (cut msg).length < bufsize ∧ r.ret = -1 ∧ r.taken = false) := by
  obtain ⟨m, hm, hn⟩ := hs.written n hst
  have hle : n ≤ d := by omega
  have hnonneg : ¬ (n : Int) < 0 := by omega
  simp only [llog, hst, aioError, aioReturn, if_true, if_neg hnonneg, fits_rest hs hle,
    Option.bind_eq_bind] at hrun
  obtain ⟨m₁, -, hrun⟩ := Option.bind_eq_some_iff.mp hrun
  split at hrun
  · obtain ⟨m₂, -, hrun⟩ := Option.bind_eq_some_iff.mp hrun
    cases hrun
    exact .inl ⟨‹_›, rfl, rfl⟩
  · cases hrun
    exact .inr ⟨‹_›, rfl, rfl⟩

/-- While the request runs, a call reports what waiting for it answered, and -1 if the message
does not fit. -/
theorem llog_inProgress_ret (hs : Sound s d) (hst : s.status = .inProgress) {r : LogResult}
    {s' : Handle} (hrun : llog lib ans s msg = some (r, s')) :
    ((s.fp.mDpos + 1024 * 2 > bufsize ∧ ans.aioSuspend < 0) ∧ r.ret < 0 ∧ r.taken = false) ∨
      (¬ (s.fp.mDpos + 1024 * 2 > bufsize ∧ ans.aioSuspend < 0) ∧
        ((0 ≤ r.ret ∧ r.taken = true) ∨
          (¬ d + (cut msg).length < bufsize ∧ r.ret < 0 ∧ r.taken = false))) := by
  simp only [llog, hst, aioError, show EINPROGRESS ≠ 0 by decide, if_false, if_true,
    fits_dpos hs, Option.bind_eq_bind] at hrun
  -- The result of waiting, which is 0 if there is nothing to wait for.
  have hwait : 0 ≤ (if s.fp.mDpos + 1024 * 2 > (bufsize : Int) then ans.aioSuspend else 0) ↔
      ¬ (s.fp.mDpos + 1024 * 2 > bufsize ∧ ans.aioSuspend < 0) := by
    split <;> omega
  rw [← hwait]
  generalize (if s.fp.mDpos + 1024 * 2 > (bufsize : Int) then ans.aioSuspend else 0) = wait
    at hrun hwait ⊢
  split at hrun
  · split at hrun
    · obtain ⟨m, -, hrun⟩ := Option.bind_eq_some_iff.mp hrun
      cases hrun
      exact .inr ⟨‹_›, .inl ⟨‹_›, rfl⟩⟩
    · cases hrun
      exact .inr ⟨‹_›, .inr ⟨‹_›, by decide, rfl⟩⟩
  · cases hrun
    rename_i hneg
    exact .inl ⟨not_not.mp (mt hwait.mpr hneg), Int.not_le.mp hneg, rfl⟩

/-- After a failure, a call reports the `errno` value of it: as the status of a message that was
added, if the request was cancelled, and of one that was not, otherwise. -/
theorem llog_failed_ret (hs : Sound s d) {e : Int} (hst : s.status = .failed e) {r : LogResult}
    {s' : Handle} (hrun : llog lib ans s msg = some (r, s')) :
    (e = ECANCELED ∧ r.ret = e ∧ r.taken = true) ∨
      (e = ECANCELED ∧ ¬ d + (cut msg).length < bufsize ∧ r.ret = -1 ∧ r.taken = false) ∨
      (e ≠ ECANCELED ∧ r.ret = e ∧ r.taken = false) := by
  obtain ⟨hpos, hrunning⟩ := hs.errno e hst
  have hzero : e ≠ 0 := by omega
  simp only [llog, hst, aioError, hzero, hrunning, if_false, fits_dpos hs,
    Option.bind_eq_bind] at hrun
  split at hrun
  · split at hrun
    · obtain ⟨m, -, hrun⟩ := Option.bind_eq_some_iff.mp hrun
      cases hrun
      exact .inl ⟨‹_›, rfl, rfl⟩
    · cases hrun
      exact .inr (.inl ⟨‹_›, ‹_›, rfl, rfl⟩)
  · cases hrun
    exact .inr (.inr ⟨‹_›, rfl, rfl⟩)

/-! ## §3 What the copies keep -/

/-- Where the request is not done, `llog` moves nothing. -/
theorem pending_refused {p : Bytes} {r : LogResult} {s' : Handle} (hs : Sound s d)
    (hst : ∀ n, s.status ≠ .completed n) (heff : Effect lib s d p r s')
    (hrefused : r.taken = false) : s'.pending = s.pending := by
  have hkeep : CopyHarmless s (.llog [] r) := by
    cases hstatus : s.status with
    | completed n => exact absurd hstatus (hst n)
    | _ => simp [CopyHarmless, hstatus]
  simp [(pending_effect hs heff).2, hrefused, kept_eq_pending hs hkeep]

/-- A `memcpy` that leaves something else in the overlap destroys the bytes to keep. -/
theorem kept_leaving_ne (hs : Sound s d) {n : Nat} (hst : s.status = .completed n) (hn : n ≠ 0)
    (hhalf : 2 * n < d) {v : UInt8} (hv : s.fp.mData[2 * n]? ≠ some v) :
    kept { lib with memcpy := .leaving v } s d ≠ s.pending := by
  have hlt := hs.lt
  have hsize := hs.size
  have hoverlap : ¬ (n + (d - n) ≤ 0 ∨ 0 + (d - n) ≤ n ∨ n = 0) := by omega
  have hcells : (Memcpy.leaving v).cells s.fp.mData n 0 (d - n) =
      v :: List.replicate (d - n - 1) v := by
    rw [← List.replicate_succ]
    simp only [Memcpy.leaving, if_neg hoverlap]
    congr 1
    omega
  intro heq
  -- The cell at `n` is the first one that was copied, and should be the one at `2 * n`.
  have hcell := congrArg (·[n]?) heq
  simp only [pending_completed hs hst, kept, hst, Int.toNat_natCast, moved, hcells,
    List.getElem?_take, List.getElem?_drop, if_pos (show n < d - n by omega)] at hcell
  rw [getElem?_overwrite (by omega), ← Nat.two_mul] at hcell
  exact hv hcell.symm

/-- Every `memcpy` keeps the bytes that were not written exactly if nothing was written, or at
least half of the buffer was and these bytes equal the first ones. -/
theorem forall_kept_eq_pending_iff (lib : Lib) (hs : Sound s d) {n : Nat}
    (hst : s.status = .completed n) :
    (∀ memcpy : Memcpy UInt8, kept { lib with memcpy } s d = s.pending) ↔ CopyKeeps s n := by
  constructor
  · intro hall
    by_cases hn : n = 0
    · exact .inl (by rw [hn]; rfl)
    · by_cases hhalf : d ≤ 2 * n
      · have heq := (kept_eq_pending_iff hs hst hhalf).mp (hall default)
        obtain ⟨m, hm, hle⟩ := hs.written n hst
        have hrest : (s.fp.mDpos - (n : Int)).toNat = d - n := by
          rw [hs.dpos_sub (by omega), Int.toNat_natCast]
        refine .inr ⟨?_, ?_⟩
        · rw [hs.dpos]
          omega
        · rw [hrest, Int.toNat_natCast]
          exact heq
      · -- The regions overlap, and some `memcpy` leaves another byte.
        obtain ⟨v, hv⟩ : ∃ v, s.fp.mData[2 * n]? ≠ some v := by
          cases s.fp.mData[2 * n]? with
          | none => exact ⟨0, nofun⟩
          | some b => exact ⟨b + 1, by simp⟩
        exact absurd (hall (.leaving v)) (kept_leaving_ne hs hst hn (by omega) hv)
  · intro hkeeps memcpy
    have hharmless : CopyHarmless s (.llog [] ⟨0, [], false⟩) := by
      simpa [CopyHarmless, CopyKeeps, hst] using hkeeps
    exact kept_eq_pending hs hharmless

/-! ## §4 When the status is exact -/

/-- Only a message with bytes can be too long for what is left. -/
theorem ne_nil_of_full {k : Nat} {p : Bytes} (hk : k < bufsize)
    (hfull : ¬ k + p.length < bufsize) : p ≠ [] := by
  intro hnil
  rw [hnil, List.length_nil] at hfull
  omega

theorem tells_completed (hs : Sound s d) {n : Nat} (hst : s.status = .completed n) :
    Tells lib ans s msg ↔
      cut msg ≠ [] ∧ (d - n + (cut msg).length < bufsize ∨ kept lib s d = s.pending) := by
  obtain ⟨r, s', hrun, heff⟩ := llog_effect lib hs ans msg
  obtain ⟨-, hpending⟩ := pending_effect hs heff
  rcases llog_completed_ret hs hst hrun with ⟨hroom, hret, htaken⟩ | ⟨hfull, hret, htaken⟩
  · rw [tells_taken hrun (by omega) htaken]
    simp only [hroom, true_or, and_true]
  · have hlt := hs.lt
    have hne := ne_nil_of_full (by omega) hfull
    rw [tells_refused hrun (by omega) htaken]
    simp [hpending, htaken, hne, hfull]

theorem tells_inProgress (hs : Sound s d) (hst : s.status = .inProgress) :
    Tells lib ans s msg ↔
      cut msg ≠ [] ∨ (s.fp.mDpos + 1024 * 2 > bufsize ∧ ans.aioSuspend < 0) := by
  obtain ⟨r, s', hrun, heff⟩ := llog_effect lib hs ans msg
  have hsame := pending_refused hs (by simp [hst]) heff
  rcases llog_inProgress_ret hs hst hrun with ⟨hwait, hret, htaken⟩ |
    ⟨hwait, ⟨hret, htaken⟩ | ⟨hfull, hret, htaken⟩⟩
  · simp only [tells_refused hrun hret htaken, hsame htaken, hwait, and_self, or_true]
  · simp only [tells_taken hrun hret htaken, hwait, or_false]
  · have hne := ne_nil_of_full hs.lt hfull
    simp only [tells_refused hrun hret htaken, hsame htaken, hne, ne_eq, not_false_eq_true,
      true_or]

theorem tells_failed (hs : Sound s d) {e : Int} (hst : s.status = .failed e) :
    Tells lib ans s msg ↔ e = ECANCELED ∧ cut msg ≠ [] := by
  obtain ⟨r, s', hrun, heff⟩ := llog_effect lib hs ans msg
  have hsame := pending_refused hs (by simp [hst]) heff
  have hpos := (hs.errno e hst).1
  rcases llog_failed_ret hs hst hrun with ⟨hcanceled, hret, htaken⟩ |
    ⟨hcanceled, hfull, hret, htaken⟩ | ⟨hother, hret, htaken⟩
  · rw [tells_taken hrun (by omega) htaken]
    simp only [hcanceled, true_and]
  · have hne := ne_nil_of_full hs.lt hfull
    simp only [tells_refused hrun (by omega) htaken, hsame htaken, hcanceled, hne, ne_eq,
      not_false_eq_true, and_self]
  · -- The `errno` value is left where the siblings put -1.
    have hnonneg : ¬ e < 0 := by omega
    simp [tells_iff hrun, hret, htaken, hnonneg, hother]

/-- A negative answer is passed on, and nothing else happens. -/
theorem tells_negative (hst : (∃ ret < 0, s.status = .completed ret) ∨
    ∃ e < 0, s.status = .failed e) : Tells lib ans s msg := by
  rcases hst with ⟨ret, hneg, hst⟩ | ⟨e, hneg, hst⟩
  · have hrun : llog lib ans s msg =
        some ({ ret, strbuf := lib.strerror ans.errno, taken := false }, s) := by
      simp only [llog, hst, aioError, aioReturn, if_true, if_pos hneg]
    exact (tells_refused hrun hneg rfl).mpr rfl
  · have hzero : e ≠ 0 := by omega
    have hrunning : e ≠ EINPROGRESS := by
      unfold EINPROGRESS
      omega
    have hcanceled : e ≠ ECANCELED := by
      unfold ECANCELED
      omega
    have hrun : llog lib ans s msg =
        some ({ ret := e, strbuf := lib.strerror ans.errno, taken := false }, s) := by
      simp only [llog, hst, aioError, hzero, hrunning, hcanceled, if_false]
    exact (tells_refused hrun hneg rfl).mpr rfl

theorem statusTells_iff (hs : Sound s d) :
    StatusTells lib ans s msg ↔ StatusExact ans s (cut msg) := by
  cases hst : s.status with
  | inProgress =>
    simp only [StatusTells, StatusExact, hst, tells_inProgress hs hst, forall_const]
  | completed ret =>
    obtain ⟨n, rfl, hn⟩ := hs.written ret hst
    have hnonneg : ¬ (n : Int) < 0 := by omega
    have hroom : s.fp.mDpos - (n : Int) + (cut msg).length < bufsize ↔
        d - n + (cut msg).length < bufsize := by
      rw [hs.dpos]
      omega
    simp only [StatusTells, StatusExact, hst, tells_completed hs hst, forall_and, forall_const,
      forall_or_left, forall_kept_eq_pending_iff lib hs hst, hnonneg, hroom, false_or]
  | failed e =>
    have hnonneg : ¬ e < 0 := by
      have hpos := (hs.errno e hst).1
      omega
    simp only [StatusTells, StatusExact, hst, tells_failed hs hst, forall_const, hnonneg,
      false_or]

/-- Another answer of the request, unless it is negative, leaves a handle sound. -/
theorem sound_answer (hs : Sound s d) {status : AioStatus} (hposs : PossibleAnswer s status)
    (hret : ∀ ret, status = .completed ret → 0 ≤ ret)
    (herrno : ∀ e, status = .failed e → 0 ≤ e) : Sound (s.answer status) d := by
  refine ⟨hs.size, hs.dpos, hs.lt, hs.nbytes, ?_, ?_⟩
  · intro ret h
    have hstatus : status = .completed ret := h
    subst hstatus
    obtain ⟨n, rfl⟩ := Int.eq_ofNat_of_zero_le (hret ret rfl)
    have hle : (n : Int) ≤ s.fp.mAcb.aioNbytes := hposs
    have hnbytes := hs.nbytes
    exact ⟨n, rfl, by omega⟩
  · intro e h
    have hstatus : status = .failed e := h
    subst hstatus
    obtain ⟨hzero, hrunning⟩ : e ≠ 0 ∧ e ≠ EINPROGRESS := hposs
    have hnonneg := herrno e rfl
    exact ⟨by omega, hrunning⟩

/-- In every handle that is ever reached, for every message and all answers of the system: the
status of `llog` is negative exactly if no byte of the message was added, and the pending bytes are
preserved then, if and only if the condition `StatusExact` holds. A running request needs a message
with bytes, or has to be waited for in vain; after a failure only cancelled requests qualify, or
values of `errno` that are negative; after a request that is done, a message that does not fit
needs a copy that keeps what was not written. -/
theorem llog_status_iff {block pfile : Bytes} {size num level : Int} {flag : BitVec 32}
    {file : Bytes} {ret : Int} {strbuf : Bytes} {s₀ : Handle} (hblock : block.length = bufsize)
    (hopen : lopen lib block pfile size num level flag file = (ret, strbuf, some s₀))
    {h : List Event} (hrun : Runs (Step lib) s₀ h s) {status : AioStatus}
    (hposs : PossibleAnswer s status) (ans : Answers) (msg : Bytes) :
    StatusTells lib ans (s.answer status) msg ↔ StatusExact ans (s.answer status) (cut msg) := by
  obtain ⟨d, hs⟩ := sound_run hblock hopen hrun
  by_cases hneg : (∃ ret < 0, (s.answer status).status = .completed ret) ∨
      ∃ e < 0, (s.answer status).status = .failed e
  · -- Negative answers are reported as they are.
    have htells : StatusTells lib ans (s.answer status) msg := fun _ => tells_negative hneg
    have hexact : StatusExact ans (s.answer status) (cut msg) := by
      rcases hneg with ⟨n, hn, hst⟩ | ⟨e, he, hst⟩
      · simp only [StatusExact, hst, hn, true_or]
      · simp only [StatusExact, hst, he, true_or]
    exact iff_of_true htells hexact
  · have hret : ∀ ret, status = .completed ret → 0 ≤ ret := by
      intro ret hst
      by_contra hlt
      exact hneg (.inl ⟨ret, by omega, hst⟩)
    have herrno : ∀ e, status = .failed e → 0 ≤ e := by
      intro e hst
      by_contra hlt
      exact hneg (.inr ⟨e, by omega, hst⟩)
    exact statusTells_iff (sound_answer hs hposs hret herrno)

/-- One more message, while the first one is being written. -/
theorem llog_status_second_message :
    ∃ s : Handle, s.status = .inProgress ∧
      StatusTells .plain ⟨0, 0⟩ (s.answer .inProgress) [98] := by
  obtain ⟨block, s₀, r, s, hblock, hopen, -, hrun, -, -, hst, -⟩ := first_message
  have hposs : PossibleAnswer s .inProgress := trivial
  have hexact : StatusExact ⟨0, 0⟩ (s.answer .inProgress) (cut [98]) := .inl (by decide)
  exact ⟨s, hst, (llog_status_iff hblock hopen (hrun.mono And.right) hposs ⟨0, 0⟩ [98]).mpr hexact⟩

/-- The first request of a new log fails with `EIO`, which is 5: the message is not added, and the
status is 5. -/
theorem llog_status_fails :
    ¬ ∀ (lib : Lib) (block pfile : Bytes) (size num level : Int) (flag : BitVec 32) (file : Bytes)
        (ret : Int) (strbuf : Bytes) (s₀ : Handle), block.length = bufsize →
      lopen lib block pfile size num level flag file = (ret, strbuf, some s₀) →
      ∀ (h : List Event) (s : Handle), Runs (Step lib) s₀ h s →
        ∀ status : AioStatus, PossibleAnswer s status → ∀ (ans : Answers) (msg : Bytes),
          StatusTells lib ans (s.answer status) msg := by
  intro hall
  obtain ⟨block, hblock⟩ : ∃ block : Bytes, block.length = bufsize :=
    ⟨List.replicate bufsize 0, List.length_replicate⟩
  obtain ⟨s₀, hopen, -, hstatus, -⟩ := opened_plain hblock 1
  have hposs : PossibleAnswer s₀ (.failed 5) := by
    constructor <;> decide
  have htells := hall .plain block [] 0 0 0 1 [] 3 (ascii "OK") s₀ hblock hopen [] s₀ .start
    (.failed 5) hposs ⟨0, 5⟩ [97] default
  have hs : Sound (s₀.answer (.failed 5)) 0 :=
    sound_answer (sound_lopen hblock hopen) hposs nofun (fun e he => by cases he; decide)
  have hcanceled := ((tells_failed hs rfl).mp htells).1
  exact absurd hcanceled (by decide)

end MyLua.Log
