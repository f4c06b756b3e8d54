import MyLua.Foundation.Runs

/-!
# The Worker Loop and Its Signals (`mainframe/test.cpp`)

`deal` builds a Lua state, loads the script and calls its function until it is told to update or
to exit. `SIGUSR1` and `SIGTERM` are handled between any two of its steps, by setting the two
flags it tests.

## Main results

- `fresh_step`: what one step preserves while no signal falls into the loading of a script.
- `no_signal_lost`: in a run without such signals, the function is only started on a script that
  is not older than the last signal.
- `lost_signal`: a signal that does fall into the loading has no effect of its own.
-/

namespace MyLua.MainFrame

open MyLua.Foundation

/-! ## §1 Model -/

/-- The signals that `main` installs the handler for. -/
inductive Signal where
  | SIGUSR1
  | SIGTERM
  deriving DecidableEq, Repr

/-- What `deal` does next. -/
inductive Pc where
  | testExit
  | create
  | read
  | run
  | init
  | reset
  | guard
  | call
  | clear
  | close
  | done
  deriving DecidableEq, Repr

/-- The worker and the two flags. -/
structure Worker where
  pc : Pc
  bExit : Bool
  bUpdate : Bool
  deriving DecidableEq, Repr

/-- Before the first step. -/
def Worker.start : Worker := ⟨.testExit, false, false⟩

/-- `signal_handle`; the case of `SIGTERM` falls through. -/
def signalHandle (signo : Signal) (w : Worker) : Worker :=
  match signo with
  | .SIGTERM => { w with bExit := true, bUpdate := true }
  | .SIGUSR1 => { w with bUpdate := true }

/-- `get_message`. -/
def getMessage : Int := 1

/-- `!bUpdate && get_message()`. -/
def Worker.guard (w : Worker) : Bool := !w.bUpdate && getMessage != 0

/-- A signal is handled, or `deal` makes a step, with the outcome of a test or a call. -/
inductive WorkerEvent where
  | signal (signo : Signal)
  | testExit (enter : Bool)
  | create
  | read (ok : Bool)
  | run (ok : Bool)
  | init
  | reset
  | guard (pass : Bool)
  | call (ok : Bool)
  | clear
  | close
  deriving DecidableEq, Repr

/-- One step of `deal`, or a signal before it. -/
inductive WorkerStep : Worker → WorkerEvent → Worker → Prop where
  | signal {w : Worker} (signo : Signal) : WorkerStep w (.signal signo) (signalHandle signo w)
  | testExit {w : Worker} {enter : Bool} (here : w.pc = .testExit) (test : enter = !w.bExit) :
      WorkerStep w (.testExit enter) { w with pc := if enter then .create else .done }
  | create {w : Worker} (here : w.pc = .create) : WorkerStep w .create { w with pc := .read }
  -- A script that cannot be loaded or run ends the worker.
  | read {w : Worker} {ok : Bool} (here : w.pc = .read) :
      WorkerStep w (.read ok) { w with pc := if ok then .run else .done }
  | run {w : Worker} {ok : Bool} (here : w.pc = .run) :
      WorkerStep w (.run ok) { w with pc := if ok then .init else .done }
  | init {w : Worker} (here : w.pc = .init) : WorkerStep w .init { w with pc := .reset }
  | reset {w : Worker} (here : w.pc = .reset) :
      WorkerStep w .reset { w with pc := .guard, bUpdate := false }
  | guard {w : Worker} {pass : Bool} (here : w.pc = .guard) (test : pass = w.guard) :
      WorkerStep w (.guard pass) { w with pc := if pass then .call else .clear }
  -- An error in the function leaves the inner loop.
  | call {w : Worker} {ok : Bool} (here : w.pc = .call) :
      WorkerStep w (.call ok) { w with pc := if ok then .guard else .clear }
  | clear {w : Worker} (here : w.pc = .clear) : WorkerStep w .clear { w with pc := .close }
  | close {w : Worker} (here : w.pc = .close) : WorkerStep w .close { w with pc := .testExit }

/-- The events of a run, each with the state before it. -/
abbrev WorkerHistory := List (Worker × WorkerEvent)

/-! ## §2 Fresh scripts -/

/-- A signal was delivered after the script of the current Lua state was read. -/
def SignalSinceRead : WorkerHistory → Prop
  | [] => False
  | (_, .signal _) :: _ => True
  | (_, .read _) :: _ => False
  | _ :: h => SignalSinceRead h

/-- `SIGTERM` was delivered. -/
def Terminated (h : WorkerHistory) : Prop := ∃ w, (w, WorkerEvent.signal .SIGTERM) ∈ h

/-- When the guard lets a call start, no signal was delivered since the script was read, and no
`SIGTERM` ever. -/
def StartsFresh (older : WorkerHistory) (e : Worker × WorkerEvent) : Prop :=
  e.2 = .guard true → ¬ SignalSinceRead older ∧ ¬ Terminated older

/-- The script is read and `bUpdate` is not reset yet. -/
def Pc.loaded (pc : Pc) : Prop := pc = .run ∨ pc = .init ∨ pc = .reset

/-- The exit flag is tested and `bUpdate` is not reset yet. -/
def Pc.loading (pc : Pc) : Prop := pc = .create ∨ pc = .read ∨ pc.loaded

/-- The event is no signal that falls into the loading of a script: no `SIGUSR1` between the
reading and the reset, and no `SIGTERM` between the test of `bExit` and the reset. -/
def OutsideLoading (e : Worker × WorkerEvent) : Prop :=
  (e.2 = .signal .SIGUSR1 → ¬ e.1.pc.loaded) ∧ (e.2 = .signal .SIGTERM → ¬ e.1.pc.loading)

/-- What holds between the steps of a run without such signals. -/
structure Fresh (h : WorkerHistory) (w : Worker) : Prop where
  exiting : Terminated h → w.bExit = true
  loading : w.pc.loading → ¬ Terminated h
  loaded : w.pc.loaded → ¬ SignalSinceRead h
  running : w.pc = .guard ∨ w.pc = .call → SignalSinceRead h ∨ Terminated h → w.bUpdate = true

theorem terminated_cons (w : Worker) (e : WorkerEvent) (h : WorkerHistory) :
    Terminated ((w, e) :: h) ↔ e = .signal .SIGTERM ∨ Terminated h := by
  constructor
  · rintro ⟨w', hmem⟩
    rcases List.mem_cons.mp hmem with heq | hmem
    · exact .inl (Prod.mk.inj heq).2.symm
    · exact .inr ⟨w', hmem⟩
  · rintro (rfl | ⟨w', hmem⟩)
    · exact ⟨w, List.mem_cons_self⟩
    · exact ⟨w', List.mem_cons_of_mem _ hmem⟩

/-- Any other event does not deliver `SIGTERM`. -/
theorem Terminated.older {w : Worker} {e : WorkerEvent} {h : WorkerHistory}
    (ht : Terminated ((w, e) :: h)) (he : e ≠ .signal .SIGTERM) : Terminated h :=
  ((terminated_cons w e h).mp ht).resolve_left he

theorem fresh_start : Fresh [] Worker.start where
  exiting := by rintro ⟨_, hmem⟩; cases hmem
  loading := by rintro _ ⟨_, hmem⟩; cases hmem
  loaded := by intro _ hsignal; exact hsignal
  running := by rintro (h | h) <;> cases h

/-- One step outside the loading of a script. -/
theorem fresh_step {h : WorkerHistory} {w w' : Worker} {e : WorkerEvent} (hfresh : Fresh h w)
    (hout : OutsideLoading (w, e)) (hs : WorkerStep w e w') : Fresh ((w, e) :: h) w' := by
  obtain ⟨hexit, hloading, hloaded, hrunning⟩ := hfresh
  cases hs with
  | signal signo =>
    cases signo with
    | SIGUSR1 =>
      -- Not while the script is loaded; elsewhere `bUpdate` stays set.
      have hpc := hout.1 rfl
      exact ⟨fun ht => hexit (ht.older (by simp)), fun hl ht => hloading hl (ht.older (by simp)),
        fun hl => absurd hl hpc, fun _ _ => rfl⟩
    | SIGTERM =>
      have hpc := hout.2 rfl
      exact ⟨fun _ => rfl, fun hl => absurd hl hpc, fun hl => absurd (.inr (.inr hl)) hpc,
        fun _ _ => rfl⟩
  | @testExit enter here test =>
    refine ⟨fun ht => hexit (ht.older (by simp)), ?_, ?_, ?_⟩
    · -- The outer loop is entered before any `SIGTERM`.
      intro hl ht
      rw [hexit (ht.older (by simp))] at test
      simp [test, Pc.loading, Pc.loaded] at hl
    · cases enter <;> simp [Pc.loaded]
    · cases enter <;> simp
  | create here =>
    exact ⟨fun ht => hexit (ht.older (by simp)),
      fun _ ht => hloading (.inl here) (ht.older (by simp)), by simp [Pc.loaded], by simp⟩
  | @read ok here =>
    refine ⟨fun ht => hexit (ht.older (by simp)), ?_, fun _ hsignal => hsignal, ?_⟩
    · exact fun _ ht => hloading (.inr (.inl here)) (ht.older (by simp))
    · cases ok <;> simp
  | @run ok here =>
    refine ⟨fun ht => hexit (ht.older (by simp)), ?_, fun _ => hloaded (.inl here), ?_⟩
    · exact fun _ ht => hloading (.inr (.inr (.inl here))) (ht.older (by simp))
    · cases ok <;> simp
  | init here =>
    exact ⟨fun ht => hexit (ht.older (by simp)),
      fun _ ht => hloading (.inr (.inr (.inr (.inl here)))) (ht.older (by simp)),
      fun _ => hloaded (.inr (.inl here)), by simp⟩
  | reset here =>
    -- Nothing was delivered since the script was read, so nothing is lost.
    refine ⟨fun ht => hexit (ht.older (by simp)), by simp [Pc.loading, Pc.loaded],
      by simp [Pc.loaded], ?_⟩
    rintro - (hsignal | ht)
    · exact absurd hsignal (hloaded (.inr (.inr here)))
    · exact absurd (ht.older (by simp)) (hloading (.inr (.inr (.inr (.inr here)))))
  | @guard pass here test =>
    refine ⟨fun ht => hexit (ht.older (by simp)), ?_, ?_, ?_⟩
    · cases pass <;> simp [Pc.loading, Pc.loaded]
    · cases pass <;> simp [Pc.loaded]
    · rintro - hsince
      exact hrunning (.inl here) (hsince.imp_right (·.older (by simp)))
  | @call ok here =>
    refine ⟨fun ht => hexit (ht.older (by simp)), ?_, ?_, ?_⟩
    · cases ok <;> simp [Pc.loading, Pc.loaded]
    · cases ok <;> simp [Pc.loaded]
    · rintro - hsince
      exact hrunning (.inr here) (hsince.imp_right (·.older (by simp)))
  | clear here =>
    exact ⟨fun ht => hexit (ht.older (by simp)), by simp [Pc.loading, Pc.loaded],
      by simp [Pc.loaded], by simp⟩
  | close here =>
    exact ⟨fun ht => hexit (ht.older (by simp)), by simp [Pc.loading, Pc.loaded],
      by simp [Pc.loaded], by simp⟩

/-- A whole run outside the loading of scripts. -/
theorem fresh_run {h : WorkerHistory} {w : Worker}
    (hrun : Runs (Recorded WorkerStep) Worker.start h w)
    (hout : Along (fun _ e => OutsideLoading e) h) : Fresh h w := by
  induction hrun with
  | start => exact fresh_start
  | @next h w w' e _ hs ih =>
    obtain ⟨w₁, e⟩ := e
    obtain ⟨rfl, hs⟩ := hs
    exact fresh_step (ih hout.2) hout.1 hs

/-! ## §3 Signals and calls -/

/-- **No signal is lost** outside the loading of a script: in every run whose signals all fall
outside it, whenever the guard lets a call of the function start, no signal was delivered since
the script was read, and no `SIGTERM` was delivered before. -/
theorem no_signal_lost (h : WorkerHistory) (w : Worker)
    (hrun : Runs (Recorded WorkerStep) Worker.start h w)
    (hout : Along (fun _ e => OutsideLoading e) h) : Along StartsFresh h := by
  apply hrun.along _ hout
  intro older w₀ e w₁ hr hbefore _ hs hpass
  have hfresh := fresh_run hr hbefore
  obtain ⟨w₂, e⟩ := e
  obtain ⟨rfl, hs⟩ := hs
  obtain rfl : e = .guard true := hpass
  cases hs with
  | guard here test =>
    -- The guard passes only while `bUpdate` is clear.
    have hclear : w₂.bUpdate ≠ true := by
      intro hset
      simp [Worker.guard, hset] at test
    exact ⟨fun hsignal => hclear (hfresh.running (.inl here) (.inl hsignal)),
      fun hterm => hclear (hfresh.running (.inl here) (.inr hterm))⟩

/-- The run goes on without a signal, up to a call that is not started on a fresh script. -/
def StartsStale (h : WorkerHistory) : Prop :=
  ∃ later w, Runs (Recorded WorkerStep) Worker.start (later ++ h) w ∧
    (∀ e ∈ later, ∀ signo, e.2 ≠ .signal signo) ∧ ¬ Along StartsFresh (later ++ h)

/-- One step of `deal` more. -/
theorem StartsStale.step {h : WorkerHistory} {w : Worker} {e : WorkerEvent}
    (h' : StartsStale ((w, e) :: h)) (he : ∀ signo, e ≠ .signal signo) : StartsStale h := by
  obtain ⟨later, w', hrun, hquiet, hstale⟩ := h'
  have happ : later ++ (w, e) :: h = (later ++ [(w, e)]) ++ h := by simp
  rw [happ] at hrun hstale
  refine ⟨later ++ [(w, e)], w', hrun, ?_, hstale⟩
  intro e' he'
  rcases List.mem_append.mp he' with he' | he'
  · exact hquiet e' he'
  · rw [List.mem_singleton.mp he']
    exact he

/-- **A lost signal**: after a signal between the reading of a script and the reset, the worker
can go on, without a further signal, and start a call on that script. -/
theorem lost_signal {h : WorkerHistory} {w : Worker}
    (hrun : Runs (Recorded WorkerStep) Worker.start h w) (hloaded : w.pc.loaded)
    (hsignal : SignalSinceRead h) : StartsStale h := by
  -- From the reset: `bUpdate` is cleared and the guard passes at once.
  have hreset : ∀ {h : WorkerHistory} {w : Worker},
      Runs (Recorded WorkerStep) Worker.start h w → w.pc = .reset → SignalSinceRead h →
      StartsStale h := by
    intro h w hrun hpc hsignal
    have hrun' := hrun.next (e := (w, .reset)) ⟨rfl, .reset hpc⟩
    have hrun'' := hrun'.next (e := (_, .guard true)) ⟨rfl, .guard rfl rfl⟩
    refine ⟨[(_, .guard true), (_, .reset)], _, hrun'', by simp, ?_⟩
    intro hfresh
    exact (hfresh.1 rfl).1 hsignal
  have hinit : ∀ {h : WorkerHistory} {w : Worker},
      Runs (Recorded WorkerStep) Worker.start h w → w.pc = .init → SignalSinceRead h →
      StartsStale h := by
    intro h w hrun hpc hsignal
    have hrun' := hrun.next (e := (w, .init)) ⟨rfl, .init hpc⟩
    exact (hreset hrun' rfl hsignal).step (by simp)
  rcases hloaded with hpc | hpc | hpc
  · have hrun' := hrun.next (e := (w, .run true)) ⟨rfl, .run hpc⟩
    exact (hinit hrun' rfl hsignal).step (by simp)
  · exact hinit hrun hpc hsignal
  · exact hreset hrun hpc hsignal

/-- A run in which the script is loaded without a signal. -/
theorem run_to_init :
    ∃ h, Runs (Recorded WorkerStep) Worker.start h ⟨.init, false, false⟩ ∧
      Along (fun _ e => OutsideLoading e) h := by
  have h₁ : Runs (Recorded WorkerStep) Worker.start _ ⟨.create, false, false⟩ :=
    Runs.start.next (e := (_, .testExit true)) ⟨rfl, .testExit rfl rfl⟩
  have h₂ : Runs (Recorded WorkerStep) Worker.start _ ⟨.read, false, false⟩ :=
    h₁.next (e := (_, .create)) ⟨rfl, .create rfl⟩
  have h₃ : Runs (Recorded WorkerStep) Worker.start _ ⟨.run, false, false⟩ :=
    h₂.next (e := (_, .read true)) ⟨rfl, .read rfl⟩
  have h₄ : Runs (Recorded WorkerStep) Worker.start _ ⟨.init, false, false⟩ :=
    h₃.next (e := (_, .run true)) ⟨rfl, .run rfl⟩
  exact ⟨_, h₄, by simp [Along, OutsideLoading]⟩

/-- `SIGUSR1` while `init` is about to be called: the script was read before it, and its function
is called after it. -/
theorem no_signal_lost_fails :
    ¬ ∀ h w, Runs (Recorded WorkerStep) Worker.start h w → Along StartsFresh h := by
  intro hall
  obtain ⟨h, hinit, -⟩ := run_to_init
  have hsignal := hinit.next (e := (_, .signal .SIGUSR1)) ⟨rfl, .signal .SIGUSR1⟩
  obtain ⟨later, w, hrun, -, hstale⟩ := lost_signal hsignal (.inr (.inl rfl)) trivial
  exact hstale (hall _ w hrun)

/-- `SIGUSR1` during the first call: the second evaluation of the guard refuses. -/
theorem no_signal_lost_update :
    ∃ h, Runs (Recorded WorkerStep) Worker.start h ⟨.clear, false, true⟩ ∧
      SignalSinceRead h ∧ Along StartsFresh h := by
  obtain ⟨h, hinit, hout⟩ := run_to_init
  have h₁ : Runs (Recorded WorkerStep) Worker.start _ ⟨.reset, false, false⟩ :=
    hinit.next (e := (_, .init)) ⟨rfl, .init rfl⟩
  have h₂ : Runs (Recorded WorkerStep) Worker.start _ ⟨.guard, false, false⟩ :=
    h₁.next (e := (_, .reset)) ⟨rfl, .reset rfl⟩
  have h₃ : Runs (Recorded WorkerStep) Worker.start _ ⟨.call, false, false⟩ :=
    h₂.next (e := (_, .guard true)) ⟨rfl, .guard rfl rfl⟩
  have h₄ : Runs (Recorded WorkerStep) Worker.start _ ⟨.call, false, true⟩ :=
    h₃.next (e := (_, .signal .SIGUSR1)) ⟨rfl, .signal .SIGUSR1⟩
  have h₅ : Runs (Recorded WorkerStep) Worker.start _ ⟨.guard, false, true⟩ :=
    h₄.next (e := (_, .call true)) ⟨rfl, .call rfl⟩
  have h₆ : Runs (Recorded WorkerStep) Worker.start _ ⟨.clear, false, true⟩ :=
    h₅.next (e := (_, .guard false)) ⟨rfl, .guard rfl rfl⟩
  refine ⟨_, h₆, trivial, no_signal_lost _ _ h₆ ?_⟩
  -- The signal falls into the call; the other events are no signals.
  refine ⟨?_, ?_, ?_, ?_, ?_, ?_, hout⟩ <;> simp [OutsideLoading, Pc.loaded]

end MyLua.MainFrame
