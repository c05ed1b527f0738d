import JudgeServer.Library.Run

/-! Threads that run one program over shared data, with mutexes that are not
recursive: locking, unlocking and acting on the data are one step each. A proof
outline says for each place of the program which mutexes a thread holds there and
what it relies on; the rules here are that outlines are kept by every run, and that
ranks which fall along the waits exclude circular waiting. -/

namespace Locking

open Transition

variable {T M D P E : Type*}

/-- What a thread does next, and the place it comes to. -/
inductive Instr (M D P : Type*)
  | lock (m : M) (next : P)
  | unlock (m : M) (next : P)
  | act (data : D) (next : P)

def Instr.next : Instr M D P → P
  | .lock _ next | .unlock _ next | .act _ next => next

/-- The data after the instruction. -/
def Instr.leaves (data : D) : Instr M D P → D
  | .act data' _ => data'
  | _ => data

/-- The instruction at a place, for what the environment decides; `none` where the
thread cannot go on like that. -/
abbrev Program (M D P E : Type*) := D → P → E → Option (Instr M D P)

structure State (T M D P : Type*) where
  data : D
  owner : M → Option T
  place : T → P

namespace State

/-- The mutexes are free, and the threads at their first places. -/
def start (data : D) (place : T → P) : State T M D P := ⟨data, fun _ => none, place⟩

variable [DecidableEq T] [DecidableEq M]

/-- A step of one thread; it cannot lock a mutex that has an owner. -/
def step (prog : Program M D P E) (s : State T M D P) (a : T × E) : Option (State T M D P) :=
  match prog s.data (s.place a.1) a.2 with
  | some (.lock m next) =>
    if s.owner m = none then
      some ⟨s.data, Function.update s.owner m (some a.1), Function.update s.place a.1 next⟩
    else none
  | some (.unlock m next) =>
    some ⟨s.data, Function.update s.owner m none, Function.update s.place a.1 next⟩
  | some (.act data next) => some ⟨data, s.owner, Function.update s.place a.1 next⟩
  | none => none

/-- `w` is at a lock of a mutex that `v` owns. -/
def WaitsFor (prog : Program M D P E) (s : State T M D P) (w v : T) : Prop :=
  ∃ m e next, prog s.data (s.place w) e = some (.lock m next) ∧ s.owner m = some v

variable {prog : Program M D P E} {s s' : State T M D P} {w : T} {e : E}

inductive Stepped (prog : Program M D P E) (s : State T M D P) (w : T) (e : E) :
    State T M D P → Prop
  | lock {m : M} {next : P} (hprog : prog s.data (s.place w) e = some (.lock m next))
      (hfree : s.owner m = none) : Stepped prog s w e
        ⟨s.data, Function.update s.owner m (some w), Function.update s.place w next⟩
  | unlock {m : M} {next : P} (hprog : prog s.data (s.place w) e = some (.unlock m next)) :
      Stepped prog s w e
        ⟨s.data, Function.update s.owner m none, Function.update s.place w next⟩
  | act {data : D} {next : P} (hprog : prog s.data (s.place w) e = some (.act data next)) :
      Stepped prog s w e ⟨data, s.owner, Function.update s.place w next⟩

theorem step_cases (hs : s.step prog (w, e) = some s') : Stepped prog s w e s' := by
  unfold step at hs
  split at hs
  · rename_i hprog
    split_ifs at hs with hfree
    cases hs
    exact .lock hprog hfree
  · rename_i hprog
    cases hs
    exact .unlock hprog
  · rename_i hprog
    cases hs
    exact .act hprog
  · cases hs

/-- A step is one instruction of one thread. -/
theorem step_instr (hs : s.step prog (w, e) = some s') :
    ∃ i, prog s.data (s.place w) e = some i ∧ s'.data = i.leaves s.data ∧
      s'.place = Function.update s.place w i.next := by
  cases step_cases hs with
  | lock hprog | unlock hprog | act hprog => exact ⟨_, hprog, rfl, rfl⟩

/-- The thread that takes the step comes to the place its instruction names. -/
theorem step_next (hs : s.step prog (w, e) = some s') :
    ∃ i, prog s.data (s.place w) e = some i ∧ s'.place w = i.next := by
  cases step_cases hs with
  | lock hprog | unlock hprog | act hprog => exact ⟨_, hprog, Function.update_self ..⟩

theorem step_other {v : T} (hs : s.step prog (w, e) = some s') (hv : v ≠ w) :
    s'.place v = s.place v := by
  cases step_cases hs with
  | lock | unlock | act => exact Function.update_of_ne hv ..

/-! One thread that goes on while the others stand still. -/

/-- The thread `w` is at `p`, the others at their `places`. -/
def running (places : T → P) (w : T) (data : D) (owner : M → Option T) (p : P) : State T M D P :=
  ⟨data, owner, Function.update places w p⟩

/-- Steps of `w` alone lead from `s` to `s'`. -/
def Solo (prog : Program M D P E) (w : T) (s s' : State T M D P) : Prop :=
  ∃ es : List E, Run (step prog) s (es.map fun e => (w, e)) s'

namespace Solo

variable {places : T → P} {data data' : D} {owner : M → Option T} {m : M} {p q r r' : P}

theorem refl (s : State T M D P) : Solo prog w s s := ⟨[], .nil⟩

theorem trans {t : State T M D P} (h : Solo prog w s t) (k : Solo prog w t s') :
    Solo prog w s s' := by
  obtain ⟨es, hes⟩ := h
  obtain ⟨fs, hfs⟩ := k
  refine ⟨es ++ fs, ?_⟩
  rw [List.map_append]
  exact hes.trans hfs

theorem act (h : prog data p e = some (.act data' q)) :
    Solo prog w (running places w data owner p) (running places w data' owner q) := by
  refine ⟨[e], Run.single ?_⟩
  simp [step, running, h]

/-- A locked section: locking, what is done inside, and unlocking. -/
theorem critical {f : E} (hfree : owner m = none) (hlock : prog data p e = some (.lock m q))
    (hbody : Solo prog w (running places w data (Function.update owner m (some w)) q)
      (running places w data' (Function.update owner m (some w)) r))
    (hunlock : prog data' r f = some (.unlock m r')) :
    Solo prog w (running places w data owner p) (running places w data' owner r') := by
  have hfirst : Solo prog w (running places w data owner p)
      (running places w data (Function.update owner m (some w)) q) := by
    refine ⟨[e], Run.single ?_⟩
    simp [step, running, hlock, hfree]
  have hlast : Solo prog w (running places w data' (Function.update owner m (some w)) r)
      (running places w data' owner r') := by
    refine ⟨[f], Run.single ?_⟩
    simp [step, running, hunlock, ← hfree]
  exact (hfirst.trans hbody).trans hlast

end Solo

end State

/-- A proof outline: the mutexes held at each place, the last one locked first, and what
a thread relies on there. `stable` is that nobody else takes it away: another thread
holds other mutexes. -/
structure Outline (prog : Program M D P E) where
  holds : P → List M
  relies : D → P → Prop
  lock : ∀ {d p e m q}, relies d p → prog d p e = some (.lock m q) →
    holds q = m :: holds p ∧ relies d q
  unlock : ∀ {d p e m q}, relies d p → prog d p e = some (.unlock m q) →
    holds p = m :: holds q ∧ relies d q
  act : ∀ {d d' p e q}, relies d p → prog d p e = some (.act d' q) →
    holds q = holds p ∧ relies d' q
  stable : ∀ {d d' p e q p'}, relies d p' → relies d p → (holds p').Disjoint (holds p) →
    prog d p e = some (.act d' q) → relies d' p'

namespace Outline

variable {prog : Program M D P E}

/-- The outline describes the state: a mutex belongs to the thread at whose place it is
held. -/
structure Describes (o : Outline prog) (s : State T M D P) : Prop where
  owner_iff : ∀ m w, s.owner m = some w ↔ m ∈ o.holds (s.place w)
  nodup : ∀ w, (o.holds (s.place w)).Nodup
  relies : ∀ w, o.relies s.data (s.place w)

variable {o : Outline prog} {s s' : State T M D P}

theorem describes_start {data : D} {place : T → P} (hholds : ∀ w, o.holds (place w) = [])
    (hrelies : ∀ w, o.relies data (place w)) :
    o.Describes (State.start data place : State T M D P) where
  owner_iff m w := by simp [State.start, hholds]
  nodup w := by simp [State.start, hholds]
  relies := hrelies

namespace Describes

theorem disjoint (h : o.Describes s) {v w : T} (hvw : v ≠ w) :
    (o.holds (s.place v)).Disjoint (o.holds (s.place w)) := by
  intro m hv hw
  have howner := (h.owner_iff m v).2 hv
  rw [(h.owner_iff m w).2 hw] at howner
  exact hvw (Option.some.inj howner).symm

/-- Two states in which a thread holds the same. -/
theorem owner_congr {t : State T M D P} (h : o.Describes s) (k : o.Describes t) {w : T}
    (hholds : o.holds (s.place w) = o.holds (t.place w)) (m : M) :
    s.owner m = some w ↔ t.owner m = some w := by
  rw [h.owner_iff, k.owner_iff, hholds]

/-- A relation of waiting along which a rank falls has no circle. -/
theorem acyclic {α : Type*} [Preorder α] (h : o.Describes s) (rank : P → α)
    (hrank : ∀ {p q e m next}, o.relies s.data p → o.relies s.data q →
      prog s.data p e = some (.lock m next) → m ∈ o.holds q → rank q < rank p) (w : T) :
    ¬ Relation.TransGen (s.WaitsFor prog) w w := by
  have hedge : ∀ {v u : T}, s.WaitsFor prog v u → rank (s.place u) < rank (s.place v) := by
    rintro v u ⟨m, e, next, hprog, howner⟩
    exact hrank (h.relies v) (h.relies u) hprog ((h.owner_iff m u).1 howner)
  have hpath : ∀ {u : T}, Relation.TransGen (s.WaitsFor prog) w u →
      rank (s.place u) < rank (s.place w) := by
    intro u hu
    induction hu with
    | single hwu => exact hedge hwu
    | tail _ hvu ih => exact (hedge hvu).trans ih
  intro hw
  exact lt_irrefl _ (hpath hw)

variable [DecidableEq T] [DecidableEq M]

theorem step (h : o.Describes s) {a : T × E} (hs : s.step prog a = some s') : o.Describes s' := by
  obtain ⟨w, e⟩ := a
  cases State.step_cases hs with
  | @lock m q hprog hfree =>
    obtain ⟨hholds, hrelies⟩ := o.lock (h.relies w) hprog
    have hnew : ∀ v, m ∉ o.holds (s.place v) := by
      intro v hv
      rw [(h.owner_iff m v).2 hv] at hfree
      cases hfree
    refine ⟨fun m' => (Function.forall_update_iff s.place fun v p =>
        Function.update s.owner m (some w) m' = some v ↔ m' ∈ o.holds p).2 ⟨?_, fun v hv => ?_⟩,
      (Function.forall_update_iff s.place fun _ p => (o.holds p).Nodup).2
        ⟨?_, fun v _ => h.nodup v⟩,
      (Function.forall_update_iff s.place fun _ p => o.relies s.data p).2
        ⟨hrelies, fun v _ => h.relies v⟩⟩
    · rw [hholds, List.mem_cons, ← h.owner_iff m' w]
      by_cases hm : m' = m
      · simp [hm]
      · simp [hm]
    · by_cases hm : m' = m
      · subst hm
        rw [Function.update_self]
        exact iff_of_false (fun heq => hv (Option.some.inj heq).symm) (hnew v)
      · rw [Function.update_of_ne hm]
        exact h.owner_iff m' v
    · rw [hholds]
      exact List.nodup_cons.2 ⟨hnew w, h.nodup w⟩
  | @unlock m q hprog =>
    obtain ⟨hholds, hrelies⟩ := o.unlock (h.relies w) hprog
    obtain ⟨hm, hnodup⟩ : m ∉ o.holds q ∧ (o.holds q).Nodup := by
      rw [← List.nodup_cons, ← hholds]
      exact h.nodup w
    refine ⟨fun m' => (Function.forall_update_iff s.place fun v p =>
        Function.update s.owner m none m' = some v ↔ m' ∈ o.holds p).2 ⟨?_, fun v hv => ?_⟩,
      (Function.forall_update_iff s.place fun _ p => (o.holds p).Nodup).2
        ⟨hnodup, fun v _ => h.nodup v⟩,
      (Function.forall_update_iff s.place fun _ p => o.relies s.data p).2
        ⟨hrelies, fun v _ => h.relies v⟩⟩
    · by_cases hm' : m' = m
      · subst hm'
        simpa using hm
      · rw [Function.update_of_ne hm', h.owner_iff m' w, hholds]
        simp [hm']
    · by_cases hm' : m' = m
      · subst hm'
        rw [Function.update_self]
        refine iff_of_false (by simp) fun hmem => h.disjoint hv hmem ?_
        rw [hholds]
        exact List.mem_cons_self ..
      · rw [Function.update_of_ne hm']
        exact h.owner_iff m' v
  | @act d' q hprog =>
    obtain ⟨hholds, hrelies⟩ := o.act (h.relies w) hprog
    refine ⟨fun m' => (Function.forall_update_iff s.place fun v p =>
        s.owner m' = some v ↔ m' ∈ o.holds p).2 ⟨?_, fun v _ => h.owner_iff m' v⟩,
      (Function.forall_update_iff s.place fun _ p => (o.holds p).Nodup).2
        ⟨?_, fun v _ => h.nodup v⟩,
      (Function.forall_update_iff s.place fun _ p => o.relies d' p).2
        ⟨hrelies, fun v hv => ?_⟩⟩
    · rw [hholds]
      exact h.owner_iff m' w
    · rw [hholds]
      exact h.nodup w
    · exact o.stable (h.relies v) (h.relies w) (h.disjoint hv) hprog

theorem run (h : o.Describes s) {as : List (T × E)} (hr : Run (State.step prog) s as s') :
    o.Describes s' := hr.invariant h fun _ _ _ hd hs => hd.step hs

end Describes

end Outline

end Locking
