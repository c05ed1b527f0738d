import Mathlib
import JudgeServer.Server.Control
import JudgeServer.ThreadPool.Once

/-! `run_server`: the main thread with its accept loop, `local_control_loop` as a task of
the pool, and the pool. Connections that the kernel has completed wait in the backlog of
the listening socket; the one that `local_control_loop` makes to wake the main thread up
is among them. -/

namespace JudgeServer

open Transition

-- the pool has one submitter, the main thread
local instance one_submitter : NeZero 1 := ⟨Nat.one_ne_zero⟩

/-- Who is at the other end of a connection. -/
inductive Peer
  | client (i : ℕ)
  | mock
  deriving DecidableEq, Repr

/-- What `accept` returns: a connection, or −1. -/
abbrev Socket := Option Peer

/-- What is handed to `thread_pool_execute`. -/
inductive Job
  | pollDatabase
  | localControl
  | clientLoop (sock : Socket)
  deriving DecidableEq, Repr

/-- Where the main thread is: in `thread_pool_execute`, in the accept loop, or after it. -/
inductive MainPc
  | execute (job : Job)
  | test
  | accept
  | retest (sock : Socket)
  | destroy
  | cleanup
  deriving DecidableEq, Repr

/-- Where `local_control_loop` is. -/
inductive ControlPc
  | recv
  | clear
  | connect
  | ended
  deriving DecidableEq, Repr

/-- `jobs` are the functions of the tasks by their numbers; `closed` are the sockets that
the main thread has closed, `forgotten` those it has left open when it left the loop. -/
structure Daemon (n : ℕ) where
  serverRunning : Bool
  main : MainPc
  control : ControlPc
  recvBuf : RecvBuf
  backlog : List Peer
  jobs : List Job
  closed : List Socket
  forgotten : List Peer
  pool : Pool n 1

/-- The environment decides when clients connect, which descriptor a connection gets,
whether `accept` and `connect` succeed, and which thread goes on. -/
inductive DaemonAction (n : ℕ)
  | arrive (i : ℕ)
  | test
  | accept (fd : ℕ)
  | fail
  | retest
  | execute (wakes : Option (Fin n))
  | destroy
  | datagram (d : Datagram)
  | clear
  | connect (ok : Bool)
  | exec (w : Fin n)
  | spurious (w : Fin n)

/-- What follows in `run_server`. -/
def Job.after : Job → MainPc
  | .pollDatabase => .execute .localControl
  | .localControl | .clientLoop _ => .test

def Job.socket : Job → Option Socket
  | .clientLoop sock => some sock
  | _ => none

namespace Daemon

variable {n : ℕ}

/-- After `init_thread_pool`. -/
def init (recvBuf : RecvBuf) : Daemon n where
  serverRunning := true
  main := .execute .pollDatabase
  control := .recv
  recvBuf := recvBuf
  backlog := []
  jobs := []
  closed := []
  forgotten := []
  pool := .init n 1

/-- The function that a worker is in. -/
def runs (s : Daemon n) (w : Fin n) : Option Job :=
  match s.pool.workers w with
  | .running t => s.jobs[t]?
  | _ => none

/-- A worker is in `local_control_loop`. -/
def controlled (s : Daemon n) : Prop := ∃ w, s.runs w = some .localControl

instance (s : Daemon n) : Decidable s.controlled := inferInstanceAs (Decidable (∃ _, _))

/-- A worker that is in `local_control_loop` stays there until it returns; the other
functions may return whenever the environment says so. -/
def mayGoOn (s : Daemon n) (w : Fin n) : Bool :=
  s.runs w ≠ some .localControl ∨ s.control = .ended

def step (s : Daemon n) : DaemonAction n → Option (Daemon n)
  | .arrive i => some { s with backlog := s.backlog ++ [.client i] }
  -- while(server_running && (client_socket = accept(...)))
  | .test =>
    if s.main = .test then
      some { s with main := if s.serverRunning then .accept else .destroy }
    else none
  | .accept fd =>
    match s.main, s.backlog with
    | .accept, p :: rest =>
      if fd = 0 then
        some { s with backlog := rest, main := .destroy, forgotten := s.forgotten ++ [p] }
      else some { s with backlog := rest, main := .retest (some p) }
    | _, _ => none
  | .fail => if s.main = .accept then some { s with main := .retest none } else none
  -- if(!server_running)
  | .retest =>
    match s.main with
    | .retest sock =>
      if s.serverRunning then some { s with main := .execute (.clientLoop sock) }
      else some { s with main := .destroy, closed := s.closed ++ [sock] }
    | _ => none
  | .execute wakes =>
    match s.main with
    | .execute job => (s.pool.execute 0 wakes).map fun pool =>
      { s with
        pool := pool
        jobs := if s.pool.submitters 0 = .idle then s.jobs ++ [job] else s.jobs
        main := if s.pool.submitters 0 = .unlock then job.after else s.main }
    | _ => none
  | .destroy =>
    if s.main = .destroy then
      s.pool.destroy.map fun pool =>
        { s with pool := pool, main := if pool.destroyer = .done then .cleanup else .destroy }
    else none
  | .datagram d =>
    if s.control = .recv ∧ s.controlled then
      let buf := s.recvBuf.recvfrom d
      some { s with
        recvBuf := buf
        control := if react s.serverRunning buf.bytes = .stop then .clear else .recv }
    else none
  | .clear =>
    if s.control = .clear then some { s with serverRunning := false, control := .connect } else none
  | .connect ok =>
    if s.control = .connect then
      some { s with control := .ended, backlog := if ok then s.backlog ++ [.mock] else s.backlog }
    else none
  | .exec w => if s.mayGoOn w then (s.pool.exec w).map fun pool => { s with pool := pool } else none
  | .spurious w => (s.pool.step (.spurious w)).map fun pool => { s with pool := pool }

/-- The sockets handed to the pool, in order. -/
def handed (s : Daemon n) : List Socket := s.jobs.filterMap Job.socket

/-- The socket that the main thread is about to hand to the pool. -/
def admitted (s : Daemon n) : List Socket :=
  match s.main with
  | .execute (.clientLoop sock) => if s.pool.submitters 0 = .idle then [sock] else []
  | _ => []

/-- The connection that it has accepted and not handed on. -/
def inHand (s : Daemon n) : List Peer :=
  match s.main with
  | .retest sock => sock.toList
  | _ => s.admitted.reduceOption

end Daemon

/-- The reachable states. -/
def DaemonReaches {n : ℕ} (recvBuf : RecvBuf) (as : List (DaemonAction n)) (s : Daemon n) : Prop :=
  Run Daemon.step (.init recvBuf) as s

namespace Daemon

variable {n : ℕ} {s s' : Daemon n} {a : DaemonAction n}

/-! What a step can do. -/

inductive Stepped (s : Daemon n) : DaemonAction n → Daemon n → Prop
  | arrive (i : ℕ) : Stepped s (.arrive i) { s with backlog := s.backlog ++ [.client i] }
  | goOn (hmain : s.main = .test) (hrun : s.serverRunning = true) :
      Stepped s .test { s with main := .accept }
  | leave (hmain : s.main = .test) (hrun : s.serverRunning = false) :
      Stepped s .test { s with main := .destroy }
  | accept (fd : ℕ) {p : Peer} {rest : List Peer} (hmain : s.main = .accept)
      (hback : s.backlog = p :: rest) :
      Stepped s (.accept fd) { s with backlog := rest, main := .retest (some p) }
  | forget (fd : ℕ) {p : Peer} {rest : List Peer} (hmain : s.main = .accept)
      (hback : s.backlog = p :: rest) : Stepped s (.accept fd)
        { s with backlog := rest, main := .destroy, forgotten := s.forgotten ++ [p] }
  | fail (hmain : s.main = .accept) : Stepped s .fail { s with main := .retest none }
  | handOn {sock : Socket} (hmain : s.main = .retest sock) (hrun : s.serverRunning = true) :
      Stepped s .retest { s with main := .execute (.clientLoop sock) }
  | close {sock : Socket} (hmain : s.main = .retest sock) (hrun : s.serverRunning = false) :
      Stepped s .retest { s with main := .destroy, closed := s.closed ++ [sock] }
  | start (wakes : Option (Fin n)) {job : Job} {pool : Pool n 1} (hmain : s.main = .execute job)
      (hidle : s.pool.submitters 0 = .idle) (hpool : s.pool.execute 0 wakes = some pool) :
      Stepped s (.execute wakes) { s with pool := pool, jobs := s.jobs ++ [job] }
  | execute (wakes : Option (Fin n)) {job : Job} {pool : Pool n 1} (hmain : s.main = .execute job)
      (hidle : s.pool.submitters 0 ≠ .idle) (hunlock : s.pool.submitters 0 ≠ .unlock)
      (hpool : s.pool.execute 0 wakes = some pool) :
      Stepped s (.execute wakes) { s with pool := pool }
  | executed (wakes : Option (Fin n)) {job : Job} {pool : Pool n 1} (hmain : s.main = .execute job)
      (hunlock : s.pool.submitters 0 = .unlock) (hpool : s.pool.execute 0 wakes = some pool) :
      Stepped s (.execute wakes) { s with pool := pool, main := job.after }
  | destroy {pool : Pool n 1} (hmain : s.main = .destroy) (hpool : s.pool.destroy = some pool)
      (hdone : pool.destroyer ≠ .done) : Stepped s .destroy { s with pool := pool }
  | destroyed {pool : Pool n 1} (hmain : s.main = .destroy) (hpool : s.pool.destroy = some pool)
      (hdone : pool.destroyer = .done) :
      Stepped s .destroy { s with pool := pool, main := .cleanup }
  | datagram (d : Datagram) {control : ControlPc} (hcontrol : s.control = .recv)
      (hnext : control = .recv ∨ control = .clear) : Stepped s (.datagram d)
        { s with recvBuf := s.recvBuf.recvfrom d, control := control }
  | clear (hcontrol : s.control = .clear) :
      Stepped s .clear { s with serverRunning := false, control := .connect }
  | connect (hcontrol : s.control = .connect) : Stepped s (.connect true)
      { s with control := .ended, backlog := s.backlog ++ [.mock] }
  | unconnected (hcontrol : s.control = .connect) :
      Stepped s (.connect false) { s with control := .ended }
  | work {pool : Pool n 1} {a : PoolAction n 1} {b : DaemonAction n}
      (hb : ∃ w, b = .exec w ∧ a = .exec w ∨ b = .spurious w ∧ a = .spurious w)
      (hpool : s.pool.step a = some pool) : Stepped s b { s with pool := pool }

theorem step_cases (hs : s.step a = some s') : Stepped s a s' := by
  cases a with
  | arrive i =>
    obtain rfl := Option.some.inj hs
    exact .arrive i
  | test =>
    simp only [step] at hs
    split_ifs at hs with hmain hrun <;> obtain rfl := Option.some.inj hs
    · exact .goOn hmain hrun
    · exact .leave hmain (by simpa using hrun)
  | accept fd =>
    simp only [step] at hs
    split at hs
    · rename_i p rest hmain hback
      split_ifs at hs <;> obtain rfl := Option.some.inj hs
      · exact .forget fd hmain hback
      · exact .accept fd hmain hback
    · cases hs
  | fail =>
    simp only [step] at hs
    split_ifs at hs with hmain
    obtain rfl := Option.some.inj hs
    exact .fail hmain
  | retest =>
    simp only [step] at hs
    split at hs
    · rename_i sock hmain
      split_ifs at hs with hrun <;> obtain rfl := Option.some.inj hs
      · exact .handOn hmain hrun
      · exact .close hmain (by simpa using hrun)
    · cases hs
  | execute wakes =>
    simp only [step] at hs
    split at hs
    · rename_i job hmain
      obtain ⟨pool, hpool, rfl⟩ := Option.map_eq_some_iff.1 hs
      by_cases hidle : s.pool.submitters 0 = .idle
      · rw [if_pos hidle, if_neg (by rw [hidle]; simp)]
        exact .start wakes hmain hidle hpool
      · rw [if_neg hidle]
        split_ifs with hunlock
        · exact .executed wakes hmain hunlock hpool
        · exact .execute wakes hmain hidle hunlock hpool
    · cases hs
  | destroy =>
    simp only [step] at hs
    split_ifs at hs with hmain
    obtain ⟨pool, hpool, rfl⟩ := Option.map_eq_some_iff.1 hs
    split_ifs with hdone
    · exact .destroyed hmain hpool hdone
    · rw [← hmain]
      exact .destroy hmain hpool hdone
  | datagram d =>
    simp only [step] at hs
    split_ifs at hs with hcontrol hstop <;> obtain rfl := Option.some.inj hs
    · exact .datagram d hcontrol.1 (Or.inr rfl)
    · exact .datagram d hcontrol.1 (Or.inl rfl)
  | clear =>
    simp only [step] at hs
    split_ifs at hs with hcontrol
    obtain rfl := Option.some.inj hs
    exact .clear hcontrol
  | connect ok =>
    simp only [step] at hs
    split_ifs at hs with hcontrol hok <;> obtain rfl := Option.some.inj hs
    · obtain rfl : ok = true := hok
      exact .connect hcontrol
    · obtain rfl : ok = false := by simpa using hok
      exact .unconnected hcontrol
  | exec w =>
    simp only [step] at hs
    split_ifs at hs
    obtain ⟨pool, hpool, rfl⟩ := Option.map_eq_some_iff.1 hs
    exact .work ⟨w, Or.inl ⟨rfl, rfl⟩⟩ hpool
  | spurious w =>
    obtain ⟨pool, hpool, rfl⟩ := Option.map_eq_some_iff.1 hs
    exact .work ⟨w, Or.inr ⟨rfl, rfl⟩⟩ hpool

/-! The pool of the main thread: it alone submits. -/

theorem pool_execute {p p' : Pool n 1} {wakes : Option (Fin n)} (h : p.execute 0 wakes = some p') :
    p'.destroyer = p.destroyer ∧
      (p.submitters 0 = .idle → p.destroyer = .idle ∧ p'.nextTask = p.nextTask + 1 ∧
        p'.submitters 0 ≠ .idle) ∧
      (p.submitters 0 ≠ .idle → p'.nextTask = p.nextTask ∧
        (p'.submitters 0 = .idle ↔ p.submitters 0 = .unlock)) := by
  cases Pool.execute_cases h with
  | begin hpc hd => simp [hpc, hd, Pool.setSubmitter]
  | enter t hpc | push t hpc | dangling t hpc | wake w hpc | unheard hpc | unlock hpc =>
    simp [hpc, Pool.setSubmitter, Pool.setWorker]

theorem pool_destroy {p p' : Pool n 1} (h : p.destroy = some p') :
    p'.nextTask = p.nextTask ∧ p'.submitters = p.submitters ∧
      (p.destroyer = .idle → p.submitters 0 = .idle) := by
  cases Pool.destroy_cases h with
  | cancel hpc hidle => exact ⟨rfl, rfl, fun _ => hidle 0⟩
  | enter hpc | broadcast hpc | unlock hpc | join i hpc | release i hpc | dangling i hpc =>
    exact ⟨rfl, rfl, by simp [hpc]⟩

theorem pool_work {p p' : Pool n 1} {a : PoolAction n 1} {b : DaemonAction n}
    (hb : ∃ w, b = .exec w ∧ a = .exec w ∨ b = .spurious w ∧ a = .spurious w)
    (h : p.step a = some p') :
    p'.nextTask = p.nextTask ∧ p'.submitters = p.submitters ∧ p'.destroyer = p.destroyer := by
  have hm := Pool.step_cases h
  obtain ⟨w, ⟨-, rfl⟩ | ⟨-, rfl⟩⟩ := hb
  · cases hm with
    | exec w hw => cases hw <;> exact ⟨rfl, rfl, rfl⟩
  · cases hm with
    | spurious w hw => exact ⟨rfl, rfl, rfl⟩

structure Managed (s : Daemon n) : Prop where
  reached : ∃ as, PoolReaches as s.pool
  numbered : s.jobs.length = s.pool.nextTask
  executing : s.pool.submitters 0 ≠ .idle → ∃ job, s.main = .execute job
  destroying : s.pool.destroyer ≠ .idle → s.main = .destroy ∨ s.main = .cleanup
  finished : s.main = .cleanup → s.pool.destroyer = .done

theorem managed_init (recvBuf : RecvBuf) : Managed (init recvBuf : Daemon n) where
  reached := ⟨[], Run.nil⟩
  numbered := rfl
  executing h := absurd rfl h
  destroying h := absurd rfl h
  finished := by simp [init]

namespace Managed

theorem submitting {pool : Pool n 1} (h : Managed s) {b : PoolAction n 1}
    (hpool : s.pool.step b = some pool) : ∃ as, PoolReaches as pool := by
  obtain ⟨as, has⟩ := h.reached
  exact ⟨as ++ [b], has.snoc hpool⟩

/-- While a task is handed over, the main thread is in `thread_pool_execute`. -/
theorem idle (h : Managed s) (hmain : ∀ job, s.main ≠ .execute job) :
    s.pool.submitters 0 = .idle := by
  by_contra hne
  obtain ⟨job, hjob⟩ := h.executing hne
  exact hmain job hjob

theorem undestroyed (h : Managed s) (hdestroy : s.main ≠ .destroy) (hcleanup : s.main ≠ .cleanup) :
    s.pool.destroyer = .idle := by
  by_contra hne
  rcases h.destroying hne with hmain | hmain
  · exact hdestroy hmain
  · exact hcleanup hmain

/-- A step of the main thread outside of the pool's functions. -/
theorem move (h : Managed s) (hpool : s'.pool = s.pool) (hjobs : s'.jobs = s.jobs)
    (hmain : ∀ job, s.main ≠ .execute job) (hdestroy : s.main ≠ .destroy) (hcleanup : s.main ≠ .cleanup)
    (hend : s'.main ≠ .cleanup) : Managed s' where
  reached := hpool ▸ h.reached
  numbered := by rw [hpool, hjobs, h.numbered]
  executing hne := absurd (hpool ▸ h.idle hmain) hne
  destroying hne := absurd (hpool ▸ h.undestroyed hdestroy hcleanup) hne
  finished hmain' := absurd hmain' hend

/-- A step of somebody else. -/
theorem frame (h : Managed s) (hpool : s'.pool = s.pool) (hjobs : s'.jobs = s.jobs)
    (hmain : s'.main = s.main) : Managed s' := by
  obtain ⟨h1, h2, h3, h4, h5⟩ := h
  exact ⟨hpool ▸ h1, by rw [hpool, hjobs, h2], by rw [hpool, hmain]; exact h3,
    by rw [hpool, hmain]; exact h4, by rw [hpool, hmain]; exact h5⟩

theorem step (h : Managed s) (hs : s.step a = some s') : Managed s' := by
  cases step_cases hs with
  | arrive | datagram | clear | connect | unconnected => exact h.frame rfl rfl rfl
  | goOn hmain | leave hmain | accept fd hmain | forget fd hmain | fail hmain | handOn hmain
  | close hmain =>
    exact h.move rfl rfl (by simp [hmain]) (by simp [hmain]) (by simp [hmain]) (by simp)
  | start wakes hmain hidle hpool =>
    obtain ⟨hdestroyer, hbegin, -⟩ := pool_execute hpool
    obtain ⟨hd, hnext, hne⟩ := hbegin hidle
    refine ⟨h.submitting (b := .execute 0 wakes) hpool, ?_, fun _ => ⟨_, hmain⟩, fun hne' => ?_, ?_⟩
    · rw [List.length_append, h.numbered, hnext, List.length_singleton]
    · exact absurd (hdestroyer.trans hd) hne'
    · simp [hmain]
  | execute wakes hmain hidle hunlock hpool =>
    obtain ⟨hdestroyer, -, hlater⟩ := pool_execute hpool
    refine ⟨h.submitting (b := .execute 0 wakes) hpool, h.numbered.trans (hlater hidle).1.symm,
      fun _ => ⟨_, hmain⟩, fun hne => ?_, by simp [hmain]⟩
    rw [hdestroyer] at hne
    exact h.destroying hne
  | @executed wakes job pool hmain hunlock hpool =>
    obtain ⟨hdestroyer, -, hlater⟩ := pool_execute hpool
    obtain ⟨hnext, hidle⟩ := hlater (by rw [hunlock]; simp)
    refine ⟨h.submitting (b := .execute 0 wakes) hpool, h.numbered.trans hnext.symm,
      fun hne => absurd (hidle.2 hunlock) hne, fun hne => ?_, ?_⟩
    · rw [hdestroyer, h.undestroyed (by simp [hmain]) (by simp [hmain])] at hne
      exact absurd rfl hne
    · cases job <;> simp [Job.after]
  | destroy hmain hpool hdone =>
    obtain ⟨hnext, hsub, -⟩ := pool_destroy hpool
    refine ⟨h.submitting (b := .destroy) hpool, h.numbered.trans hnext.symm, fun hne => ?_,
      fun _ => Or.inl hmain, by simp [hmain]⟩
    rw [hsub] at hne
    exact absurd (h.idle (by simp [hmain])) hne
  | destroyed hmain hpool hdone =>
    obtain ⟨hnext, hsub, -⟩ := pool_destroy hpool
    refine ⟨h.submitting (b := .destroy) hpool, h.numbered.trans hnext.symm, fun hne => ?_,
      fun _ => Or.inr rfl, fun _ => hdone⟩
    rw [hsub] at hne
    exact absurd (h.idle (by simp [hmain])) hne
  | work hb hpool =>
    obtain ⟨hnext, hsub, hdestroyer⟩ := pool_work hb hpool
    refine ⟨h.submitting hpool, h.numbered.trans hnext.symm, ?_, ?_, ?_⟩
    · rw [hsub]
      exact h.executing
    · rw [hdestroyer]
      exact h.destroying
    · rw [hdestroyer]
      exact h.finished

end Managed

/-! Where the connections are. -/

/-- The main thread drops a connection only when it leaves the loop. -/
structure Closing (s : Daemon n) : Prop where
  kept : s.main = .destroy ∨ s.main = .cleanup ∨ s.closed = [] ∧ s.forgotten = []
  dropped : s.closed.length + s.forgotten.length ≤ 1

namespace Closing

theorem nothing (h : Closing s) (hdestroy : s.main ≠ .destroy) (hcleanup : s.main ≠ .cleanup) :
    s.closed = [] ∧ s.forgotten = [] := (h.kept.resolve_left hdestroy).resolve_left hcleanup

theorem frame (h : Closing s) (hclosed : s'.closed = s.closed) (hforgotten : s'.forgotten = s.forgotten)
    (hmain : s.main = .destroy ∨ s.main = .cleanup → s'.main = .destroy ∨ s'.main = .cleanup) :
    Closing s' := by
  refine ⟨?_, by rw [hclosed, hforgotten]; exact h.dropped⟩
  rw [hclosed, hforgotten]
  rcases h.kept with hd | hc | hnone
  · exact (hmain (Or.inl hd)).imp_right Or.inl
  · exact (hmain (Or.inr hc)).imp_right Or.inl
  · exact Or.inr (Or.inr hnone)

theorem step (h : Closing s) (hs : s.step a = some s') : Closing s' := by
  cases step_cases hs with
  | arrive | datagram | clear | connect | unconnected | work | start | execute | destroy =>
    exact h.frame rfl rfl id
  | goOn hmain | accept fd hmain | fail hmain | handOn hmain | executed wakes hmain =>
    exact h.frame rfl rfl (by simp [hmain])
  | leave hmain => exact h.frame rfl rfl fun _ => Or.inl rfl
  | destroyed hmain => exact h.frame rfl rfl fun _ => Or.inr rfl
  | forget fd hmain =>
    obtain ⟨hclosed, hforgotten⟩ := h.nothing (by simp [hmain]) (by simp [hmain])
    exact ⟨Or.inl rfl, by simp [hclosed, hforgotten]⟩
  | close hmain =>
    obtain ⟨hclosed, hforgotten⟩ := h.nothing (by simp [hmain]) (by simp [hmain])
    exact ⟨Or.inl rfl, by simp [hclosed, hforgotten]⟩

end Closing

/-- The connections that a step brings. -/
def arrivals (_ : Daemon n) : DaemonAction n → List Peer
  | .arrive i => [.client i]
  | .connect true => [.mock]
  | _ => []

/-- All connections so far, the ones that the program knows of before those that wait. -/
def located (s : Daemon n) : List Peer :=
  s.handed.reduceOption ++ s.closed.reduceOption ++ s.forgotten ++ s.inHand ++ s.backlog

/-- Most steps move no connection. -/
theorem located_frame (hjobs : s'.jobs = s.jobs) (hclosed : s'.closed = s.closed)
    (hforgotten : s'.forgotten = s.forgotten) (hhand : s'.inHand = s.inHand)
    (hback : s'.backlog = s.backlog ++ s.arrivals a) :
    s'.located = s.located ++ s.arrivals a := by
  simp only [located, handed, hjobs, hclosed, hforgotten, hhand, hback, List.append_assoc]

theorem located_step (hm : Managed s) (hc : Closing s) (hs : s.step a = some s') :
    s'.located = s.located ++ s.arrivals a := by
  cases step_cases hs with
  | arrive | connect => exact located_frame rfl rfl rfl rfl rfl
  | datagram | clear | unconnected =>
    exact located_frame rfl rfl rfl rfl (List.append_nil _).symm
  | goOn hmain | leave hmain | fail hmain | destroy hmain | destroyed hmain =>
    refine located_frame rfl rfl rfl ?_ (List.append_nil _).symm
    simp only [inHand, admitted, hmain, List.reduceOption_nil, Option.toList_none]
  | accept fd hmain hback =>
    simp [located, handed, inHand, admitted, hmain, hback, arrivals, List.reduceOption_nil]
  | forget fd hmain hback =>
    simp [located, handed, inHand, admitted, hmain, hback, arrivals, List.reduceOption_nil]
  | @handOn sock hmain =>
    have hidle := hm.idle (by simp [hmain])
    refine located_frame rfl rfl rfl ?_ (List.append_nil _).symm
    simp only [inHand, admitted, hmain, hidle, if_true, List.reduceOption_singleton]
  | close hmain =>
    obtain ⟨hclosed, hforgotten⟩ := hc.nothing (by simp [hmain]) (by simp [hmain])
    simp [located, handed, inHand, admitted, hmain, hclosed, hforgotten, arrivals,
      List.reduceOption_nil, List.reduceOption_singleton]
  | @start wakes job pool hmain hidle hpool =>
    -- the connection goes from the hand of the main thread to the pool
    obtain ⟨hclosed, hforgotten⟩ := hc.nothing (by simp [hmain]) (by simp [hmain])
    have hne := ((pool_execute hpool).2.1 hidle).2.2
    cases job <;>
      simp [located, handed, inHand, admitted, hmain, hidle, hne, hclosed, hforgotten, arrivals,
        List.filterMap_cons, Job.socket, List.reduceOption_nil, List.reduceOption_singleton,
        List.reduceOption_append]
  | @execute wakes job pool hmain hidle hunlock hpool =>
    have hne := mt ((pool_execute hpool).2.2 hidle).2.1 hunlock
    refine located_frame rfl rfl rfl ?_ (List.append_nil _).symm
    cases job <;> simp only [inHand, admitted, hmain, if_neg hidle, if_neg hne]
  | @executed wakes job pool hmain hunlock hpool =>
    refine located_frame rfl rfl rfl ?_ (List.append_nil _).symm
    cases job <;> simp [inHand, admitted, hmain, hunlock, Job.after, List.reduceOption_nil]
  | work hb hpool =>
    have hsub := (pool_work hb hpool).2.1
    have hnone : s.arrivals a = [] := by
      obtain ⟨w, ⟨rfl, -⟩ | ⟨rfl, -⟩⟩ := hb <;> rfl
    refine located_frame rfl rfl rfl ?_ (by rw [hnone, List.append_nil])
    simp only [inHand, admitted, hsub]

/-- The tasks by their numbers: first the two of the server, then the connections. -/
def Ordered (s : Daemon n) : Prop :=
  match s.main with
  | .execute .pollDatabase => s.jobs = if s.pool.submitters 0 = .idle then [] else [.pollDatabase]
  | .execute .localControl =>
    s.jobs = .pollDatabase :: if s.pool.submitters 0 = .idle then [] else [.localControl]
  | _ => s.jobs = .pollDatabase :: .localControl :: s.handed.map .clientLoop

theorem Ordered.frame (h : Ordered s) (hmain : s'.main = s.main) (hjobs : s'.jobs = s.jobs)
    (hidle : s'.pool.submitters 0 = .idle ↔ s.pool.submitters 0 = .idle) : Ordered s' := by
  simpa only [Ordered, hmain, hjobs, handed, hidle] using h

theorem Ordered.step (h : Ordered s) (hs : s.step a = some s') : Ordered s' := by
  cases step_cases hs with
  | arrive | datagram | clear | connect | unconnected => exact h.frame rfl rfl Iff.rfl
  | goOn hmain | leave hmain | accept fd hmain | forget fd hmain | fail hmain | handOn hmain
  | close hmain | destroyed hmain =>
    simpa only [Ordered, hmain, handed] using h
  | destroy hmain hpool => exact h.frame rfl rfl (by rw [(pool_destroy hpool).2.1])
  | work hb hpool => exact h.frame rfl rfl (by rw [(pool_work hb hpool).2.1])
  | @start wakes job pool hmain hidle hpool =>
    have hne := ((pool_execute hpool).2.1 hidle).2.2
    cases job with
    | clientLoop sock =>
      simp only [Ordered, hmain] at h ⊢
      conv_lhs => rw [h]
      simp [handed, Job.socket]
    | pollDatabase | localControl =>
      simp only [Ordered, hmain, hidle, if_true, if_neg hne] at h ⊢
      simp [h]
  | execute wakes hmain hidle hunlock hpool =>
    have hne := mt ((pool_execute hpool).2.2 hidle).2.1 hunlock
    exact h.frame rfl rfl (iff_of_false hne hidle)
  | @executed wakes job pool hmain hunlock hpool =>
    have hidle := ((pool_execute hpool).2.2 (by simp [hunlock])).2.2 hunlock
    cases job with
    | clientLoop sock => simpa only [Ordered, hmain, Job.after, handed] using h
    | pollDatabase | localControl =>
      simp only [Ordered, hmain, hunlock, Job.after, hidle] at h ⊢
      simp [h, handed, Job.socket]

/-! The way to the end. -/

/-- Only a connection that passes the second test of the flag gets to the pool. -/
theorem passed_step (hs : s.step a = some s') :
    s'.handed ++ s'.admitted = s.handed ++ s.admitted ∨
      s.serverRunning = true ∧ ∃ sock, s.main = .retest sock ∧
        s'.handed ++ s'.admitted = s.handed ++ s.admitted ++ [sock] := by
  cases step_cases hs with
  | arrive | datagram | clear | connect | unconnected => exact Or.inl rfl
  | goOn hmain | leave hmain | accept fd hmain | forget fd hmain | fail hmain | close hmain
  | destroy hmain | destroyed hmain =>
    left
    simp only [handed, admitted, hmain]
  | @handOn sock hmain hrun =>
    by_cases hidle : s.pool.submitters 0 = .idle
    · exact Or.inr ⟨hrun, sock, hmain, by simp [handed, admitted, hmain, hidle]⟩
    · exact Or.inl (by simp [handed, admitted, hmain, hidle])
  | @start wakes job pool hmain hidle hpool =>
    have hne := ((pool_execute hpool).2.1 hidle).2.2
    left
    cases job <;> simp [handed, admitted, hmain, hidle, hne, Job.socket, List.filterMap_cons]
  | @execute wakes job pool hmain hidle hunlock hpool =>
    have hne := mt ((pool_execute hpool).2.2 hidle).2.1 hunlock
    left
    cases job <;> simp [handed, admitted, hmain, hidle, hne]
  | @executed wakes job pool hmain hunlock hpool =>
    left
    cases job <;> simp [handed, admitted, hmain, hunlock, Job.after]
  | work hb hpool =>
    left
    simp only [handed, admitted, (pool_work hb hpool).2.1]

/-- The flag, and the connection by which `local_control_loop` wakes the main thread up. -/
structure Waking (s : Daemon n) : Prop where
  stopped : s.serverRunning = false ↔ s.control = .connect ∨ s.control = .ended
  waiting : .mock ∈ s.backlog → s.serverRunning = false
  accepted : s.main = .retest (some .mock) → s.serverRunning = false
  unserved : some .mock ∉ s.handed ++ s.admitted

theorem waking_init (recvBuf : RecvBuf) : Waking (init recvBuf : Daemon n) where
  stopped := by simp [init]
  waiting := by simp [init]
  accepted := by simp [init]
  unserved := by simp [init, handed, admitted]

namespace Waking

theorem unserved_step (h : Waking s) (hs : s.step a = some s') :
    some .mock ∉ s'.handed ++ s'.admitted := by
  rcases passed_step hs with hsame | ⟨hrun, sock, hmain, hmore⟩
  · rw [hsame]
    exact h.unserved
  · rw [hmore, List.mem_append, List.mem_singleton]
    rintro (hmem | rfl)
    · exact h.unserved hmem
    · simp [h.accepted hmain] at hrun

theorem step (h : Waking s) (hs : s.step a = some s') : Waking s' := by
  have hunserved := h.unserved_step hs
  obtain ⟨hstopped, hwaiting, haccepted, -⟩ := h
  cases step_cases hs with
  | arrive i => exact ⟨hstopped, by simpa using hwaiting, haccepted, hunserved⟩
  | goOn | leave | fail | close | destroyed => exact ⟨hstopped, hwaiting, by simp, hunserved⟩
  | handOn | start | execute | destroy | work => exact ⟨hstopped, hwaiting, by simp_all, hunserved⟩
  | @executed wakes job =>
    exact ⟨hstopped, hwaiting, by cases job <;> simp [Job.after], hunserved⟩
  | accept fd hmain hback =>
    rw [hback] at hwaiting
    refine ⟨hstopped, fun hmem => hwaiting (List.mem_cons_of_mem _ hmem), fun hp => ?_, hunserved⟩
    obtain rfl := Option.some.inj (MainPc.retest.inj hp)
    exact hwaiting List.mem_cons_self
  | forget fd hmain hback =>
    rw [hback] at hwaiting
    exact ⟨hstopped, fun hmem => hwaiting (List.mem_cons_of_mem _ hmem), by simp, hunserved⟩
  | datagram d hcontrol hnext =>
    refine ⟨hstopped.trans ?_, hwaiting, haccepted, hunserved⟩
    rcases hnext with rfl | rfl <;> simp [hcontrol]
  | clear => exact ⟨by simp, fun _ => rfl, fun _ => rfl, hunserved⟩
  | connect hcontrol =>
    have hfalse := hstopped.2 (Or.inl hcontrol)
    exact ⟨by simp [hfalse], fun _ => hfalse, haccepted, hunserved⟩
  | unconnected hcontrol =>
    exact ⟨by simp [hstopped.2 (Or.inl hcontrol)], hwaiting, haccepted, hunserved⟩

end Waking

theorem stopped_step (hs : s.step a = some s') (hrun : s.serverRunning = false) :
    s'.serverRunning = false := by
  cases step_cases hs with
  | clear => rfl
  | _ => exact hrun

/-- How often the main thread can still go through the loop's tests after a stop. -/
def rounds (s : Daemon n) : ℕ :=
  match s.main with
  | .accept => 2
  | .execute _ | .test | .retest _ => 1
  | .destroy | .cleanup => 0

end Daemon

/-- A step of the accept loop itself. -/
def DaemonAction.inLoop {n : ℕ} : DaemonAction n → Bool
  | .test | .accept _ | .fail | .retest => true
  | _ => false

namespace Daemon

variable {n : ℕ} {s s' : Daemon n} {a : DaemonAction n}

theorem rounds_step (hs : s.step a = some s') (hrun : s.serverRunning = false) :
    (if a.inLoop then 1 else 0) + s'.rounds ≤ s.rounds := by
  cases step_cases hs with
  | goOn hmain hrunning | handOn hmain hrunning => simp [hrun] at hrunning
  | leave hmain | accept fd hmain | forget fd hmain | fail hmain | close hmain
  | destroyed hmain => simp [rounds, DaemonAction.inLoop, hmain]
  | @executed wakes job pool hmain => cases job <;> simp [rounds, DaemonAction.inLoop, Job.after, hmain]
  | work hb =>
    obtain ⟨w, ⟨rfl, -⟩ | ⟨rfl, -⟩⟩ := hb <;> simp [rounds, DaemonAction.inLoop]
  | _ => simp [rounds, DaemonAction.inLoop]

/-- The wake-up connection waits for the main thread, unless it could not be made. -/
def Woken (as : List (DaemonAction n)) (s : Daemon n) : Prop :=
  s.control = .ended → .connect false ∈ as ∨ (s.main = .accept → .mock ∈ s.backlog)

theorem woken_step {as : List (DaemonAction n)} (h : Woken as s) (hw : Waking s)
    (hs : s.step a = some s') : Woken (as ++ [a]) s' := by
  have hkeep : s'.control = s.control → (s'.main = .accept → s.main = .accept) →
      (.mock ∈ s.backlog → .mock ∈ s'.backlog) → Woken (as ++ [a]) s' := by
    intro hcontrol hmain hback hended
    rcases h (hcontrol ▸ hended) with hfail | hmock
    · exact Or.inl (List.mem_append_left _ hfail)
    · exact Or.inr fun hacc => hback (hmock (hmain hacc))
  cases step_cases hs with
  | arrive i => exact hkeep rfl id fun hmem => List.mem_append_left _ hmem
  | goOn hmain hrun =>
    -- the flag is still set, so `local_control_loop` has not ended
    intro hended
    simp [hw.stopped.2 (Or.inr hended)] at hrun
  | leave | accept | forget | fail | handOn | close | destroyed =>
    exact fun _ => Or.inr (by simp)
  | start | execute | destroy | work => exact hkeep rfl id id
  | @executed wakes job => exact fun _ => Or.inr (by cases job <;> simp [Job.after])
  | datagram d hcontrol hnext =>
    intro hended
    obtain rfl : _ = ControlPc.ended := hended
    simp at hnext
  | clear => exact fun hended => by cases hended
  | connect => exact fun _ => Or.inr fun _ => by simp
  | unconnected => exact fun _ => Or.inl (by simp)

end Daemon

/-- What holds of every reachable state. -/
structure Daemon.Kept {n : ℕ} (recvBuf : RecvBuf) (as : List (DaemonAction n)) (s : Daemon n) :
    Prop where
  managed : Managed s
  closing : Closing s
  ordered : Ordered s
  waking : Waking s
  woken : Woken as s
  located : outputs Daemon.step Daemon.arrivals (.init recvBuf) as = s.located

theorem daemonReaches_kept {n : ℕ} {recvBuf : RecvBuf} {as : List (DaemonAction n)} {s : Daemon n}
    (h : DaemonReaches recvBuf as s) : s.Kept recvBuf as := by
  induction h with
  | nil =>
    refine ⟨Daemon.managed_init recvBuf, ⟨Or.inr (Or.inr ⟨rfl, rfl⟩), Nat.zero_le 1⟩, rfl,
      Daemon.waking_init recvBuf, (nomatch ·), ?_⟩
    simp [outputs, Daemon.located, Daemon.handed, Daemon.inHand, Daemon.admitted, Daemon.init,
      List.reduceOption_nil]
  | snoc hr hs ih =>
    obtain ⟨hm, hc, ho, hw, hwoken, hloc⟩ := ih
    exact ⟨hm.step hs, hc.step hs, ho.step hs, hw.step hs, Daemon.woken_step hwoken hw hs,
      by rw [outputs_snoc hr, hloc, Daemon.located_step hm hc hs]⟩

/-- What one thread submits, it submits in the order of the numbers. -/
theorem poolReaches_issued {n : ℕ} {as : List (PoolAction n 1)} {p : Pool n 1}
    (h : PoolReaches as p) :
    p.submitters 0 = .fault ∨
      p.submitted ++ (p.submitters 0).unsubmitted = List.range p.nextTask := by
  refine h.invariant (I := fun p => p.submitters 0 = .fault ∨
    p.submitted ++ (p.submitters 0).unsubmitted = List.range p.nextTask) (Or.inr rfl) ?_
  intro p a p' hissued hs
  cases Pool.step_cases hs with
  | exec w hw => cases hw <;> exact hissued
  | spurious w hw => exact hissued
  | destroy hd => cases hd <;> exact hissued
  | execute j wakes hj =>
    obtain rfl : j = 0 := Subsingleton.elim j 0
    cases hj with
    | begin hpc =>
      simp only [hpc, reduceCtorEq, ExecutePc.unsubmitted, List.append_nil, false_or] at hissued
      simp [Pool.setSubmitter, ExecutePc.unsubmitted, hissued, List.range_succ]
    | dangling t hpc => exact Or.inl (by simp)
    | enter t hpc | push t hpc | wake w hpc | unheard hpc | unlock hpc =>
      simpa [Pool.setSubmitter, Pool.setWorker, hpc, ExecutePc.unsubmitted] using hissued

theorem Daemon.Managed.taken {n : ℕ} {s : Daemon n} (h : s.Managed) :
    s.pool.taken <+: List.range s.jobs.length := by
  obtain ⟨as, has⟩ := h.reached
  obtain ⟨-, hq, -⟩ := poolReaches_ledger has
  have hissued := (poolReaches_issued has).resolve_left (hq.executeSound 0)
  rw [h.numbered, ← hissued]
  exact hq.taken_prefix.trans (List.prefix_append _ _)

/-- The connections in the order in which they came: those handed to the pool, at most one
that the main thread has dropped, the one in its hand, and those that wait. Task `t + 2` is
the `t`th of them. -/
structure ConnectionsAccounted {n : ℕ} (recvBuf : RecvBuf) (as : List (DaemonAction n))
    (s : Daemon n) : Prop where
  located : outputs Daemon.step Daemon.arrivals (.init recvBuf) as = s.located
  dropped : s.closed.length + s.forgotten.length ≤ 1
  numbered : ∀ t sock, s.jobs[t + 2]? = some (.clientLoop sock) ↔ s.handed[t]? = some sock
  order : s.pool.taken <+: List.range s.jobs.length
  once : s.pool.started.Nodup
  settled : s.main = .cleanup → (∀ w, s.pool.workers w = .returned) ∧
    ∀ t < s.jobs.length, s.pool.completed.count t + s.pool.released.count t = 1

namespace Daemon

variable {n : ℕ} {s : Daemon n}

theorem Ordered.numbered (h : Ordered s) (t : ℕ) (sock : Socket) :
    s.jobs[t + 2]? = some (.clientLoop sock) ↔ s.handed[t]? = some sock := by
  have hearly : ∀ jobs : List Job, s.jobs = jobs → jobs.length ≤ 2 → jobs.filterMap Job.socket = [] →
      (s.jobs[t + 2]? = some (.clientLoop sock) ↔ s.handed[t]? = some sock) := by
    rintro jobs rfl hlen hnone
    rw [handed, hnone, List.getElem?_eq_none (by omega)]
    simp
  unfold Ordered at h
  split at h
  · split_ifs at h
    · exact hearly _ h (by simp) rfl
    · exact hearly _ h (by simp) rfl
  · split_ifs at h
    · exact hearly _ h (by simp) rfl
    · exact hearly _ h (by simp) rfl
  · rw [h, List.getElem?_cons_succ, List.getElem?_cons_succ, List.getElem?_map]
    simp

theorem Managed.settled (h : Managed s) (hmain : s.main = .cleanup) :
    (∀ w, s.pool.workers w = .returned) ∧
      ∀ t < s.jobs.length, s.pool.completed.count t + s.pool.released.count t = 1 := by
  obtain ⟨as, has⟩ := h.reached
  obtain ⟨⟨-, hg⟩, hq, hled⟩ := poolReaches_ledger has
  have hdone := h.finished hmain
  have hissued := (poolReaches_issued has).resolve_left (hq.executeSound 0)
  have hnone : ExecutePc.idle.unsubmitted = [] := rfl
  rw [h.idle (by simp [hmain]), hnone, List.append_nil, ← h.numbered] at hissued
  refine ⟨hg.ended hdone, fun t ht => hled.partition (hg.ended hdone) (hq.drained hdone) ?_⟩
  rw [hissued]
  exact List.mem_range.2 ht

end Daemon

theorem connections_accounted (n : ℕ) (recvBuf : RecvBuf) (as : List (DaemonAction n))
    (s : Daemon n) (h : DaemonReaches recvBuf as s) : ConnectionsAccounted recvBuf as s := by
  obtain ⟨hm, hc, ho, -, -, hloc⟩ := daemonReaches_kept h
  obtain ⟨bs, hbs⟩ := hm.reached
  obtain ⟨-, hq, hled⟩ := poolReaches_ledger hbs
  exact ⟨hloc, hc.dropped, ho.numbered, hm.taken, hled.started_nodup hq, hm.settled⟩

/-- Two workers; a client connects, and then the server is stopped. -/
def untilStop : List (DaemonAction 2) :=
  List.replicate 10 (.execute none) ++ List.replicate 7 (.exec 0) ++ List.replicate 7 (.exec 1) ++
    [.arrive 7, .test, .accept 5, .retest] ++ List.replicate 5 (.execute none) ++
    [.test, .datagram ⟨cstr "stop" ++ [0], by decide⟩, .clear]

/-- The main thread is woken up; the two workers finish and the client's task is released. -/
def afterStop : List (DaemonAction 2) :=
  [.connect true, .accept 6, .retest, .destroy] ++ List.replicate 5 (.exec 0) ++
    List.replicate 5 (.exec 1) ++ List.replicate 6 .destroy

theorem connections_accounted_stop : ∃ s : Daemon 2,
    DaemonReaches zeroBuf (untilStop ++ afterStop) s ∧ s.main = .cleanup ∧
      s.handed = [some (.client 7)] ∧ s.closed = [some .mock] ∧ s.pool.released = [2] ∧
      ConnectionsAccounted zeroBuf (untilStop ++ afterStop) s := by
  have hrun : DaemonReaches zeroBuf (untilStop ++ afterStop) _ := Run.iff_foldlM.2 rfl
  exact ⟨_, hrun, rfl, rfl, rfl, rfl, connections_accounted 2 zeroBuf _ _ hrun⟩

/-- What becomes of the accept loop from a state `s` in which `server_running` is cleared:
no connection is handed on but the one that is being handed on, the loop's tests are passed
at most twice, and the main thread is left in `accept` with nothing to accept only when
`local_control_loop` has not connected, or could not. -/
structure Stops {n : ℕ} (as bs : List (DaemonAction n)) (s s' : Daemon n) : Prop where
  stays : s'.serverRunning = false
  handed : s'.handed <+: s.handed ++ s.admitted
  unserved : some .mock ∉ s'.handed
  rounds : bs.countP DaemonAction.inLoop + s'.rounds ≤ s.rounds
  woken : s'.main = .accept → s'.backlog = [] → s'.control = .connect ∨ .connect false ∈ as ++ bs

theorem Daemon.stopped_run {n : ℕ} {s s' : Daemon n} {bs : List (DaemonAction n)}
    (hrun : s.serverRunning = false) (hs : Run Daemon.step s bs s') :
    s'.serverRunning = false ∧ s'.handed ++ s'.admitted = s.handed ++ s.admitted ∧
      bs.countP DaemonAction.inLoop + s'.rounds ≤ s.rounds := by
  induction hs with
  | nil => exact ⟨hrun, rfl, by simp⟩
  | snoc hr hs ih =>
    obtain ⟨hrun', hpassed, hrounds⟩ := ih
    refine ⟨stopped_step hs hrun', ?_, ?_⟩
    · rcases passed_step hs with hsame | ⟨hrunning, -⟩
      · rw [hsame, hpassed]
      · simp [hrun'] at hrunning
    · have hmore := rounds_step hs hrun'
      rw [List.countP_append, List.countP_singleton]
      omega

theorem server_stops (n : ℕ) (recvBuf : RecvBuf) (as bs : List (DaemonAction n)) (s s' : Daemon n)
    (h : DaemonReaches recvBuf as s) (hrun : s.serverRunning = false)
    (hs : Run Daemon.step s bs s') : Stops as bs s s' := by
  obtain ⟨-, -, -, hw, hwoken, -⟩ := daemonReaches_kept (h.trans hs)
  obtain ⟨hrun', hpassed, hrounds⟩ := Daemon.stopped_run hrun hs
  refine ⟨hrun', hpassed ▸ List.prefix_append _ _, ?_, hrounds, fun hmain hback => ?_⟩
  · exact fun hmem => hw.unserved (List.mem_append_left _ hmem)
  · rcases hw.stopped.1 hrun' with hcontrol | hended
    · exact Or.inl hcontrol
    · right
      rcases hwoken hended with hfail | hmock
      · exact hfail
      · have hmem := hmock hmain
        simp [hback] at hmem

theorem server_stops_accept : ∃ s s' : Daemon 2, DaemonReaches zeroBuf untilStop s ∧
    s.serverRunning = false ∧ s.main = .accept ∧ Run Daemon.step s afterStop s' ∧
    s'.main = .cleanup ∧ Stops untilStop afterStop s s' := by
  have hrun : DaemonReaches zeroBuf untilStop _ := Run.iff_foldlM.2 rfl
  refine ⟨_, _, hrun, rfl, rfl, Run.iff_foldlM.2 rfl, rfl, ?_⟩
  exact server_stops 2 zeroBuf untilStop afterStop _ _ hrun rfl (Run.iff_foldlM.2 rfl)

end JudgeServer
