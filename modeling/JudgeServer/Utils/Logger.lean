import JudgeServer.Client.Verdict
import JudgeServer.Library.Locking

/-! The file logger. Every thread of the program prints its lines in several pieces into
one stream, and the time goes through the static buffer of `localtime`; the mutex of the
logger keeps the pieces of a line together. -/

namespace JudgeServer

open Locking Transition

/-- The stream of the logger: `tm` is the buffer of `localtime`, as `strftime` prints it,
and `disk` the text at the last `fflush`. -/
structure LogFile where
  tm : List UInt8
  text : List UInt8
  disk : List UInt8
  deriving DecidableEq, Repr

/-- Where a thread is in `logger_printf`; `timestr` is its copy of the time. -/
inductive LogPc
  | idle
  | lock (msg : List UInt8)
  | stamp (msg : List UInt8)
  | format (msg : List UInt8)
  | head (timestr msg : List UInt8)
  | body (timestr msg : List UInt8)
  | newline (timestr msg : List UInt8)
  | flush
  | unlock
  deriving DecidableEq, Repr

/-- A thread in the logger; `self` is its `pthread_self()`. -/
structure LogThread where
  self : ℕ
  pc : LogPc
  deriving DecidableEq, Repr

/-- What a thread logs, and the time when it does. -/
inductive LogDecision
  | go
  | call (msg : List UInt8)
  | now (tm : List UInt8)
  deriving DecidableEq, Repr

namespace LogFile

/-- `logger_init`, which gives up when the file cannot be opened. -/
def init (opened : Bool) (tm : List UInt8) : Option LogFile :=
  if opened then
    let first := cstr "----- Logging started [" ++ tm ++ cstr "] -----\n"
    some ⟨tm, first, first⟩
  else none

def print (d : LogFile) (piece : List UInt8) : LogFile := { d with text := d.text ++ piece }

def flush (d : LogFile) : LogFile := { d with disk := d.text }

/-- `logger_destroy` -/
def destroy (d : LogFile) (tm : List UInt8) : LogFile :=
  ({ d with tm := tm }.print (cstr "----- Logging ended [" ++ tm ++ cstr "] -----\n\n")).flush

end LogFile

def opening (self : ℕ) (timestr : List UInt8) : List UInt8 :=
  cstr "[" ++ timestr ++ cstr "] THREAD " ++ DecimalText.digits self ++ cstr ": "

/-- `logger_printf`, of a logger whose file is open. -/
def loggerPrintf : Program Unit LogFile LogThread LogDecision
  | d, ⟨self, .idle⟩, .call msg => some (.act d ⟨self, .lock msg⟩)
  | _, ⟨self, .lock msg⟩, .go => some (.lock () ⟨self, .stamp msg⟩)
  | d, ⟨self, .stamp msg⟩, .now tm => some (.act { d with tm := tm } ⟨self, .format msg⟩)
  | d, ⟨self, .format msg⟩, .go => some (.act d ⟨self, .head d.tm msg⟩)
  | d, ⟨self, .head timestr msg⟩, .go =>
    some (.act (d.print (opening self timestr)) ⟨self, .body timestr msg⟩)
  | d, ⟨self, .body timestr msg⟩, .go => some (.act (d.print msg) ⟨self, .newline timestr msg⟩)
  | d, ⟨self, .newline _ _⟩, .go => some (.act (d.print (cstr "\n")) ⟨self, .flush⟩)
  | d, ⟨self, .flush⟩, .go => some (.act d.flush ⟨self, .unlock⟩)
  | _, ⟨self, .unlock⟩, .go => some (.unlock () ⟨self, .idle⟩)
  | _, _, _ => none

abbrev LogState := State ℕ Unit LogFile LogThread

abbrev LogAction := ℕ × LogDecision

/-- The states that the threads reach with a logger whose file is `file`. -/
def LogReaches (file : LogFile) (as : List LogAction) (s : LogState) : Prop :=
  Run (State.step loggerPrintf) (State.start file fun w => ⟨w, .idle⟩) as s

/-! What the calls are for. -/

/-- A line of the log. -/
structure LogLine where
  thread : ℕ
  time : List UInt8
  msg : List UInt8
  deriving DecidableEq, Repr

def LogLine.text (line : LogLine) : List UInt8 :=
  opening line.thread line.time ++ line.msg ++ cstr "\n"

def LogLine.stamp (line : LogLine) : ℕ × List UInt8 := (line.thread, line.time)

def LogDecision.calls : LogDecision → List (List UInt8)
  | .call msg => [msg]
  | _ => []

def LogDecision.times : LogDecision → List (List UInt8)
  | .now tm => [tm]
  | _ => []

namespace LogThread

/-- The line that a step completes. -/
def completes (p : LogThread) : LogDecision → List LogLine
  | .go =>
    match p.pc with
    | .newline timestr msg => [⟨p.self, timestr, msg⟩]
    | _ => []
  | _ => []

/-- The thread is between the lock and the unlock. -/
def inside (p : LogThread) : Bool :=
  match p.pc with
  | .idle | .lock _ => false
  | _ => true

/-- The part of its line that the thread has printed. -/
def printed (p : LogThread) : List UInt8 :=
  match p.pc with
  | .body timestr _ => opening p.self timestr
  | .newline timestr msg => opening p.self timestr ++ msg
  | _ => []

/-- The message that is not in the log yet. -/
def pending (p : LogThread) : List (List UInt8) :=
  match p.pc with
  | .lock msg | .stamp msg | .format msg => [msg]
  | .head _ msg | .body _ msg | .newline _ msg => [msg]
  | _ => []

/-- The time that is not in the log yet; before `strftime` it is in the static buffer. -/
def stamped (tm : List UInt8) (p : LogThread) : List (ℕ × List UInt8) :=
  match p.pc with
  | .format _ => [(p.self, tm)]
  | .head timestr _ | .body timestr _ | .newline timestr _ => [(p.self, timestr)]
  | _ => []

/-- The thread has printed what it has not flushed. -/
def unflushed (p : LogThread) : Bool :=
  match p.pc with
  | .body _ _ | .newline _ _ | .flush => true
  | _ => false

end LogThread

/-- The lines in the order in which they were completed. -/
def linesOf (file : LogFile) (as : List LogAction) : List LogLine :=
  outputs (State.step loggerPrintf) (fun s a => (s.place a.1).completes a.2)
    (State.start file fun w => ⟨w, .idle⟩) as

/-- The messages that a thread has asked to be logged. -/
def callsOf (w : ℕ) (as : List LogAction) : List (List UInt8) :=
  as.flatMap fun a => if a.1 = w then a.2.calls else []

/-- The times that the threads have got from `localtime`. -/
def timesOf (as : List LogAction) : List (ℕ × List UInt8) :=
  as.flatMap fun a => a.2.times.map fun tm => (a.1, tm)

/-- The logger works as if each call was one step: what is in the file are whole lines,
those of the calls, but for the line of the one thread that is inside of the mutex. -/
structure LinesWhole (file : LogFile) (as : List LogAction) (s : LogState) : Prop where
  alone : ∀ v w, (s.place v).inside → (s.place w).inside → v = w
  whole : (∀ w, (s.place w).inside = false) →
    s.data.text = file.text ++ (linesOf file as).flatMap LogLine.text ∧ s.data.disk = s.data.text
  partly : ∀ w, (s.place w).inside → s.data.text =
    file.text ++ (linesOf file as).flatMap LogLine.text ++ (s.place w).printed
  calls : ∀ w, ((linesOf file as).filter (·.thread = w)).map LogLine.msg ++ (s.place w).pending =
    callsOf w as
  times : (∀ w, (s.place w).inside = false) → (linesOf file as).map LogLine.stamp = timesOf as
  ended : (∀ w, (s.place w).pc = .idle) → ∀ tm, (s.data.destroy tm).disk =
    file.text ++ (linesOf file as).flatMap LogLine.text ++
      (cstr "----- Logging ended [" ++ tm ++ cstr "] -----\n\n")

/-- The instructions of `logger_printf`. -/
inductive LogRule (d : LogFile) : LogThread → LogDecision → Instr Unit LogFile LogThread → Prop
  | call {self : ℕ} {msg : List UInt8} :
      LogRule d ⟨self, .idle⟩ (.call msg) (.act d ⟨self, .lock msg⟩)
  | lock {self : ℕ} {msg : List UInt8} :
      LogRule d ⟨self, .lock msg⟩ .go (.lock () ⟨self, .stamp msg⟩)
  | stamp {self : ℕ} {msg tm : List UInt8} :
      LogRule d ⟨self, .stamp msg⟩ (.now tm) (.act { d with tm := tm } ⟨self, .format msg⟩)
  | format {self : ℕ} {msg : List UInt8} :
      LogRule d ⟨self, .format msg⟩ .go (.act d ⟨self, .head d.tm msg⟩)
  | head {self : ℕ} {timestr msg : List UInt8} :
      LogRule d ⟨self, .head timestr msg⟩ .go
        (.act (d.print (opening self timestr)) ⟨self, .body timestr msg⟩)
  | body {self : ℕ} {timestr msg : List UInt8} :
      LogRule d ⟨self, .body timestr msg⟩ .go (.act (d.print msg) ⟨self, .newline timestr msg⟩)
  | newline {self : ℕ} {timestr msg : List UInt8} :
      LogRule d ⟨self, .newline timestr msg⟩ .go (.act (d.print (cstr "\n")) ⟨self, .flush⟩)
  | flush {self : ℕ} : LogRule d ⟨self, .flush⟩ .go (.act d.flush ⟨self, .unlock⟩)
  | unlock {self : ℕ} : LogRule d ⟨self, .unlock⟩ .go (.unlock () ⟨self, .idle⟩)

theorem loggerPrintf_rule {d : LogFile} {p : LogThread} {e : LogDecision}
    {i : Instr Unit LogFile LogThread} (h : loggerPrintf d p e = some i) : LogRule d p e i := by
  unfold loggerPrintf at h
  split at h
  case h_10 => cases h
  all_goals
    obtain rfl := Option.some.inj h
    constructor

/-- The mutex is held between the lock and the unlock. -/
def logOutline : Outline loggerPrintf where
  holds p := if p.inside then [()] else []
  relies _ _ := True
  lock _ h := by
    cases loggerPrintf_rule h
    exact ⟨rfl, trivial⟩
  unlock _ h := by
    cases loggerPrintf_rule h
    exact ⟨rfl, trivial⟩
  act _ h := by
    cases loggerPrintf_rule h <;> exact ⟨rfl, trivial⟩
  stable _ _ _ _ := trivial

/-- What an instruction does for the line of its thread. -/
structure Advances (d : LogFile) (p : LogThread) (e : LogDecision)
    (i : Instr Unit LogFile LogThread) : Prop where
  self : i.next.self = p.self
  text : ∃ piece, (i.leaves d).text = d.text ++ piece ∧
    p.printed ++ piece = (p.completes e).flatMap LogLine.text ++ i.next.printed
  calls : p.pending ++ e.calls = (p.completes e).map LogLine.msg ++ i.next.pending
  times : p.stamped d.tm ++ e.times.map (fun tm => (p.self, tm)) =
    (p.completes e).map LogLine.stamp ++ i.next.stamped (i.leaves d).tm
  flushed : (p.unflushed = false → d.disk = d.text) → i.next.unflushed = false →
    (i.leaves d).disk = (i.leaves d).text

theorem loggerPrintf_advances {d : LogFile} {p : LogThread} {e : LogDecision}
    {i : Instr Unit LogFile LogThread} (h : loggerPrintf d p e = some i) : Advances d p e i := by
  cases loggerPrintf_rule h with
  | call | lock | unlock =>
    exact ⟨rfl, ⟨[], (List.append_nil _).symm, rfl⟩, rfl, rfl, fun h _ => h rfl⟩
  | stamp | format =>
    exact ⟨rfl, ⟨[], (List.append_nil _).symm, rfl⟩, rfl, rfl, fun h _ => h rfl⟩
  | head | body =>
    exact ⟨rfl, ⟨_, rfl, rfl⟩, rfl, rfl, fun _ h => nomatch h⟩
  | newline =>
    exact ⟨rfl, ⟨_, rfl, by
      simp [LogThread.printed, LogThread.completes, LogLine.text, Instr.next]⟩, rfl, rfl,
      fun _ h => nomatch h⟩
  | flush =>
    exact ⟨rfl, ⟨[], (List.append_nil _).symm, rfl⟩, rfl, rfl, fun _ _ => rfl⟩

section Threads

variable {file : LogFile} {as : List LogAction} {s s' : LogState} {w : ℕ} {e : LogDecision}

/-- What `f` says of the thread that owns the mutex. -/
def ofOwner {β : Type} (s : LogState) (x : β) (f : LogThread → β) : β :=
  match s.owner () with
  | some w => f (s.place w)
  | none => x

theorem owner_iff_inside (h : logOutline.Describes s) : s.owner () = some w ↔ (s.place w).inside := by
  rw [h.owner_iff]
  change () ∈ (if (s.place w).inside then [()] else []) ↔ _
  split_ifs with hin <;> simp [hin]

theorem ofOwner_alone {β : Type} {x : β} {f : LogThread → β} (h : logOutline.Describes s)
    (hw : ∀ v, s.owner () = some v → v = w) (hf : ∀ p : LogThread, p.inside = false → f p = x) :
    ofOwner s x f = f (s.place w) := by
  unfold ofOwner
  split
  · rename_i v howner
    rw [hw v howner]
  · rename_i howner
    refine (hf _ (Bool.eq_false_iff.2 fun hin => ?_)).symm
    rw [(owner_iff_inside h).2 hin] at howner
    cases howner

/-- A thread takes a step while no other one owns the mutex, or it comes to the lock. -/
inductive Turn (s s' : LogState) (w : ℕ) (e : LogDecision) : Prop
  | alone (before : ∀ v, s.owner () = some v → v = w) (after : ∀ v, s'.owner () = some v → v = w)
  | waits {v : ℕ} (howner : s.owner () = some v) (howner' : s'.owner () = some v)
      (hplace : s'.place v = s.place v) (hdata : s'.data = s.data)
      (hcompletes : (s.place w).completes e = []) (htimes : e.times = [])

theorem step_turn (h : logOutline.Describes s) (hs : s.step loggerPrintf (w, e) = some s') :
    Turn s s' w e := by
  by_cases hw : ∀ v, s.owner () = some v → v = w
  · refine .alone hw ?_
    cases State.step_cases hs with
    | @lock m =>
      cases m
      intro v hv
      simpa [eq_comm] using hv
    | @unlock m =>
      cases m
      intro v hv
      simp at hv
    | act => exact hw
  · obtain ⟨v, hv⟩ := not_forall.1 hw
    obtain ⟨howner, hv⟩ := Classical.not_imp.1 hv
    have houtside : (s.place w).inside = false := Bool.eq_false_iff.2 fun hin =>
      hv (Option.some.inj (howner.symm.trans ((owner_iff_inside h).2 hin)))
    have hother := State.step_other hs hv
    cases State.step_cases hs with
    | lock hprog hfree =>
      rw [howner] at hfree
      cases hfree
    | unlock hprog =>
      generalize s.place w = p at hprog houtside
      cases loggerPrintf_rule hprog
      cases houtside
    | act hprog =>
      generalize hp : s.place w = p at hprog houtside
      cases loggerPrintf_rule hprog with
      | call => exact .waits howner howner hother rfl (by rw [hp]; rfl) rfl
      | stamp | format | head | body | newline | flush => cases houtside

structure LogKept (file : LogFile) (as : List LogAction) (s : LogState) : Prop where
  describes : logOutline.Describes s
  self : ∀ w, (s.place w).self = w
  text : s.data.text = file.text ++ (linesOf file as).flatMap LogLine.text ++
    ofOwner s [] LogThread.printed
  calls : ∀ w, ((linesOf file as).filter (·.thread = w)).map LogLine.msg ++ (s.place w).pending =
    callsOf w as
  times : (linesOf file as).map LogLine.stamp ++ ofOwner s [] (LogThread.stamped s.data.tm) =
    timesOf as
  flushed : ofOwner s false LogThread.unflushed = false → s.data.disk = s.data.text

/-- A thread that is not inside has nothing in progress. -/
theorem outside_nothing {p : LogThread} (h : p.inside = false) :
    p.printed = [] ∧ (∀ tm, p.stamped tm = []) ∧ p.unflushed = false := by
  obtain ⟨self, pc⟩ := p
  cases pc with
  | idle | lock => exact ⟨rfl, fun _ => rfl, rfl⟩
  | stamp | format | head | body | newline | flush | unlock => cases h

theorem completes_thread {p : LogThread} {line : LogLine} (h : line ∈ p.completes e) :
    line.thread = p.self := by
  obtain ⟨self, pc⟩ := p
  cases e <;> cases pc <;> simp_all [LogThread.completes]

theorem linesOf_snoc (hr : LogReaches file as s) :
    linesOf file (as ++ [(w, e)]) = linesOf file as ++ (s.place w).completes e :=
  outputs_snoc hr (w, e)

/-- A step completes a line of the thread that takes it, and of no other one. -/
theorem LogKept.calls_step (h : LogKept file as s) (hr : LogReaches file as s)
    (hs : s.step loggerPrintf (w, e) = some s') (v : ℕ) :
    ((linesOf file (as ++ [(w, e)])).filter (·.thread = v)).map LogLine.msg ++
      (s'.place v).pending = callsOf v (as ++ [(w, e)]) := by
  rw [linesOf_snoc hr, List.filter_append, List.map_append, callsOf, List.flatMap_append,
    List.flatMap_singleton, ← callsOf, ← h.calls v]
  by_cases hv : v = w
  · subst hv
    obtain ⟨i, hprog, hnext⟩ := State.step_next hs
    have hcalls := (loggerPrintf_advances hprog).calls
    have hown : ((s.place v).completes e).filter (·.thread = v) = (s.place v).completes e :=
      List.filter_eq_self.2 fun line hline => by
        rw [completes_thread hline, h.self]
        exact decide_eq_true rfl
    rw [hown, if_pos rfl, List.append_assoc, List.append_assoc, hcalls, hnext]
  · have hnone : ((s.place w).completes e).filter (·.thread = v) = [] :=
      List.filter_eq_nil_iff.2 fun line hline => by
        rw [completes_thread hline, h.self, decide_eq_true_iff]
        exact fun heq => hv heq.symm
    rw [hnone, if_neg (Ne.symm hv), State.step_other hs hv]
    simp

theorem LogKept.step (h : LogKept file as s) (hr : LogReaches file as s)
    (hs : s.step loggerPrintf (w, e) = some s') : LogKept file (as ++ [(w, e)]) s' := by
  have hlines := linesOf_snoc (w := w) (e := e) hr
  have htimes : timesOf (as ++ [(w, e)]) = timesOf as ++ e.times.map fun tm => (w, tm) := by
    simp [timesOf]
  have hd := h.describes.step hs
  obtain ⟨i, hprog, hdata, hplace⟩ := State.step_instr hs
  obtain ⟨hself, ⟨piece, htext, hpiece⟩, -, hstamps, hflushed⟩ := loggerPrintf_advances hprog
  have hnext : s'.place w = i.next := by rw [hplace, Function.update_self]
  rw [← hdata] at htext
  rw [← hdata, ← hnext] at hstamps hflushed
  rw [← hnext] at hself hpiece
  have hselfs : ∀ v, (s'.place v).self = v := by
    intro v
    by_cases hv : v = w
    · rw [hv, hself, h.self]
    · rw [State.step_other hs hv, h.self]
  have hprinted : ∀ p : LogThread, p.inside = false → p.printed = [] :=
    fun p hp => (outside_nothing hp).1
  have hstamped : ∀ tm, ∀ p : LogThread, p.inside = false → p.stamped tm = [] :=
    fun tm p hp => (outside_nothing hp).2.1 tm
  have hunflushed : ∀ p : LogThread, p.inside = false → p.unflushed = false :=
    fun p hp => (outside_nothing hp).2.2
  cases step_turn h.describes hs with
  | alone before after =>
    -- what the step prints moves from the line in progress to the whole lines
    refine ⟨hd, hselfs, ?_, h.calls_step hr hs, ?_, ?_⟩
    · rw [htext, h.text, ofOwner_alone h.describes before hprinted,
        ofOwner_alone hd after hprinted, hlines, List.flatMap_append]
      simp only [List.append_assoc]
      rw [hpiece]
    · rw [h.self] at hstamps
      rw [hlines, htimes, ← h.times, ofOwner_alone h.describes before (hstamped _),
        ofOwner_alone hd after (hstamped _), List.map_append, List.append_assoc,
        List.append_assoc, hstamps]
    · have hflush := h.flushed
      rw [ofOwner_alone h.describes before hunflushed] at hflush
      rw [ofOwner_alone hd after hunflushed]
      exact hflushed hflush
  | waits howner howner' hother hsame hcompletes hnone =>
    -- the line in progress is that of the other thread
    have hofs : ∀ {β : Type} (x : β) (f : LogThread → β), ofOwner s' x f = ofOwner s x f := by
      intro β x f
      simp only [ofOwner, howner, howner', hother]
    rw [hcompletes, List.append_nil] at hlines
    rw [hnone, List.map_nil, List.append_nil] at htimes
    refine ⟨hd, hselfs, ?_, h.calls_step hr hs, ?_, ?_⟩
    · rw [hlines, hofs, hsame]
      exact h.text
    · rw [hlines, hofs, hsame, htimes]
      exact h.times
    · rw [hofs, hsame]
      exact h.flushed

theorem reaches_logKept (hdisk : file.disk = file.text) (h : LogReaches file as s) :
    LogKept file as s := by
  induction h with
  | nil =>
    refine ⟨Outline.describes_start (fun _ => rfl) (fun _ => trivial), fun _ => rfl, ?_,
      fun _ => rfl, rfl, fun _ => hdisk⟩
    exact ((List.append_nil _).trans (List.append_nil _)).symm
  | snoc hr hs ih => exact ih.step hr hs

theorem init_disk {opened : Bool} {tm : List UInt8} (h : LogFile.init opened tm = some file) :
    file.disk = file.text := by
  unfold LogFile.init at h
  split_ifs at h
  obtain rfl := Option.some.inj h
  rfl

end Threads

/-- Whatever the threads do, the log has whole lines. -/
theorem lines_whole (opened : Bool) (tm : List UInt8) (file : LogFile) (as : List LogAction)
    (s : LogState) (hinit : LogFile.init opened tm = some file) (h : LogReaches file as s) :
    LinesWhole file as s := by
  have hk := reaches_logKept (init_disk hinit) h
  have hiff := fun w => owner_iff_inside (w := w) hk.describes
  have hwhole : (∀ w, (s.place w).inside = false) → s.owner () = none := by
    intro hout
    cases howner : s.owner () with
    | none => rfl
    | some w =>
      have hin := (hiff w).1 howner
      rw [hout w] at hin
      cases hin
  have htext : (∀ w, (s.place w).inside = false) →
      s.data.text = file.text ++ (linesOf file as).flatMap LogLine.text := by
    intro hout
    have htext := hk.text
    rwa [ofOwner, hwhole hout, List.append_nil] at htext
  refine ⟨fun v w hv hw => ?_, fun hout => ⟨htext hout, hk.flushed ?_⟩, fun w hw => ?_, hk.calls,
    fun hout => ?_, fun hidle tm => ?_⟩
  · have howner := (hiff v).2 hv
    rw [(hiff w).2 hw] at howner
    exact (Option.some.inj howner).symm
  · rw [ofOwner, hwhole hout]
  · have htext := hk.text
    rwa [ofOwner, (hiff w).2 hw] at htext
  · have htimes := hk.times
    rwa [ofOwner, hwhole hout, List.append_nil] at htimes
  · have hout : ∀ w, (s.place w).inside = false := by
      intro w
      rw [LogThread.inside, hidle w]
    change s.data.text ++ _ = _
    rw [htext hout]

/-- What follows a call. -/
def logging (w : ℕ) (tm : List UInt8) : List LogAction :=
  [(w, .go), (w, .now tm)] ++ List.replicate 6 (w, .go)

/-- The thread that has called last comes first. -/
def twoCallers : List LogAction :=
  [(0, .call (cstr "a")), (1, .call (cstr "b"))] ++ logging 1 (cstr "2") ++ logging 0 (cstr "3")

theorem lines_whole_two : ∃ file s, LogFile.init true (cstr "1") = some file ∧
    LogReaches file twoCallers s ∧ LinesWhole file twoCallers s ∧
      linesOf file twoCallers = [⟨1, cstr "2", cstr "b"⟩, ⟨0, cstr "3", cstr "a"⟩] := by
  obtain ⟨file, hinit⟩ : ∃ file, LogFile.init true (cstr "1") = some file := ⟨_, rfl⟩
  have hrun : LogReaches file twoCallers _ := Run.iff_foldlM.2 rfl
  exact ⟨file, _, hinit, hrun, lines_whole true (cstr "1") file twoCallers _ hinit hrun, rfl⟩

end JudgeServer
