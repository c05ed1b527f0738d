import JudgeServer.Library.Run
import JudgeServer.Utils.Queue

/-! The queue of utils.c with its 32-bit count, and with `malloc` free to give out any
address that is not in use, one that a stale `tail` points to included. It refines the list
to whose end `queue_push` appends and whose first element `queue_pop` takes. -/

namespace JudgeServer

open Transition

/-- A call, `addr` being what `malloc` returns in it. -/
inductive QueueOp (α : Type*)
  | push (addr : Addr) (value : α)
  | pop

namespace LinkedQueue

variable {α : Type*}

def step (q : LinkedQueue UInt32 α) : QueueOp α → Option (LinkedQueue UInt32 α)
  | .push addr value => q.push addr value
  | .pop => q.pop.map Prod.snd

/-- What the calls of `queue_pop` return. -/
def popped (q : LinkedQueue UInt32 α) : QueueOp α → List (Option α)
  | .push _ _ => []
  | .pop => (q.pop.map Prod.fst).toList

/-- `malloc` gives out an address that is not in use. -/
def Mallocs (q : LinkedQueue UInt32 α) : QueueOp α → Prop
  | .push addr _ => q.heap addr = none
  | .pop => True

end LinkedQueue

section Fifo

variable {α : Type*}

/-! The list that the queue stands for. -/

def fifo (xs : List α) : QueueOp α → List α
  | .push _ value => xs ++ [value]
  | .pop => xs.tail

def fifoPopped (xs : List α) : QueueOp α → List (Option α)
  | .push _ _ => []
  | .pop => [xs.head?]

def contents (ops : List (QueueOp α)) : List α := ops.foldl fifo []

end Fifo

namespace LinkedQueue

variable {α : Type*}

/-- What the calls see of a queue that stands for `xs`, in elements at `as`. -/
structure Refines (q : LinkedQueue UInt32 α) (as : List Addr) (xs : List α) : Prop where
  nodes : IsChain q.heap q.head as xs
  count : q.elemsCount.toNat = xs.length
  tail : 1 ≤ q.elemsCount.toNat → q.tail = as.getLast?
  null : (∃ q', q.pop = some (none, q')) ↔ xs = []
  visits : ∀ rounds, as.length ≤ rounds → q.iterate rounds = some xs
  frees : as.Nodup ∧ ∀ rounds, as.length ≤ rounds → q.structFree rounds = some (as, fun _ => none)

/-- Each call does to the list what it should, and returns what it should. -/
theorem Holds.step {q : LinkedQueue UInt32 α} {as : List Addr} {xs : List α} {op : QueueOp α}
    (h : q.Holds as xs) (hmalloc : q.Mallocs op) (hfew : (fifo xs op).length < 2 ^ 32) :
    ∃ q' as', q.step op = some q' ∧ q'.Holds as' (fifo xs op) ∧ q.popped op = fifoPopped xs op := by
  cases op with
  | push addr value =>
    have hlen : xs.length + 1 < 2 ^ 32 := by simpa [fifo] using hfew
    obtain ⟨q', hpush, hholds⟩ := h.push hmalloc value hlen
    exact ⟨q', _, hpush, hholds, rfl⟩
  | pop =>
    cases xs with
    | nil =>
      have hpop := h.pop_nil
      exact ⟨q, as, by simp [LinkedQueue.step, hpop], h, by simp [popped, hpop, fifoPopped]⟩
    | cons x xs =>
      obtain ⟨q', hpop, hholds⟩ := h.pop_cons
      exact ⟨q', _, by simp [LinkedQueue.step, hpop], hholds, by simp [popped, hpop, fifoPopped]⟩

theorem fifo_run {ops : List (QueueOp α)} :
    Run (fun xs op => some (fifo xs op)) [] ops (contents ops) := by
  rw [Run.iff_foldlM]
  exact List.foldlM_pure

theorem holds_run (ops : List (QueueOp α)) (hmalloc : Along step init ops Mallocs)
    (hfew : ∀ pre, pre <+: ops → (contents pre).length < 2 ^ 32) :
    ∃ q as, Run step init ops q ∧ q.Holds as (contents ops) ∧
      outputs step popped init ops =
        outputs (fun xs op => some (fifo xs op)) fifoPopped [] ops := by
  induction ops using List.reverseRecOn with
  | nil => exact ⟨init, [], Run.nil, holds_init, rfl⟩
  | append_singleton ops op ih =>
    obtain ⟨q, as, hrun, hholds, hout⟩ :=
      ih hmalloc.left fun pre hpre => hfew pre (hpre.trans (List.prefix_append _ _))
    have hcontents : contents (ops ++ [op]) = fifo (contents ops) op := by
      simp [contents]
    have hlen := hfew _ (List.prefix_refl _)
    rw [hcontents] at hlen
    obtain ⟨q', as', hstep, hholds', hpopped⟩ := hholds.step ((along_snoc hrun).1 hmalloc).2 hlen
    refine ⟨q', as', hrun.snoc hstep, hcontents ▸ hholds', ?_⟩
    rw [outputs_snoc hrun, outputs_snoc fifo_run, hout, hpopped]

theorem Holds.refines {q : LinkedQueue UInt32 α} {as : List Addr} {xs : List α} (h : q.Holds as xs) :
    q.Refines as xs where
  nodes := h.chain
  count := h.count
  tail hcount := by
    refine h.last ?_
    rintro rfl
    have hlen := h.chain.length_eq
    have hsame : q.elemsCount.toNat = xs.length := h.count
    rw [hsame, ← hlen] at hcount
    simp at hcount
  null := by
    cases xs with
    | nil => exact iff_of_true ⟨q, h.pop_nil⟩ rfl
    | cons x xs =>
      obtain ⟨q', hpop, -⟩ := h.pop_cons
      simp [hpop]
  visits _ hrounds := h.iterate hrounds
  frees := ⟨h.nodup, fun _ hrounds => h.structFree hrounds⟩

theorem contents_length_le (ops : List (QueueOp α)) : (contents ops).length ≤ ops.length := by
  induction ops using List.reverseRecOn with
  | nil => exact le_rfl
  | append_singleton ops op ih =>
    have hcontents : contents (ops ++ [op]) = fifo (contents ops) op := by
      simp [contents]
    rw [hcontents, List.length_append]
    cases op with
    | push => simpa [fifo] using ih
    | pop =>
      rw [fifo, List.length_tail]
      omega

/-- Over every sequence of calls the linked queue is the list, and `queue_pop` returns what
the list says. -/
theorem queue_refines_fifo (ops : List (QueueOp α)) (hmalloc : Along step init ops Mallocs)
    (hfew : ∀ pre, pre <+: ops → (contents pre).length < 2 ^ 32) :
    ∃ q as, Run step init ops q ∧ q.Refines as (contents ops) ∧
      outputs step popped init ops =
        outputs (fun xs op => some (fifo xs op)) fifoPopped [] ops := by
  obtain ⟨q, as, hrun, hholds, hout⟩ := holds_run ops hmalloc hfew
  exact ⟨q, as, hrun, hholds.refines, hout⟩

/-- The second element lies where the first was, to which `tail` still pointed. -/
theorem queue_refines_fifo_reused :
    ∃ q as, Run step init [.push 0 7, .pop, .push 0 8, .push 1 9] q ∧ q.Refines as [8, 9] ∧
      outputs step popped init [.push 0 7, .pop, .push 0 8, .push 1 9] = [some 7] := by
  refine queue_refines_fifo [.push 0 7, .pop, .push 0 8, .push 1 9] ?_ fun pre hpre => ?_
  · refine (along_cons rfl).2 ⟨rfl, (along_cons rfl).2 ⟨trivial, ?_⟩⟩
    refine (along_cons rfl).2 ⟨rfl, ?_⟩
    exact (along_cons rfl).2 ⟨rfl, along_nil⟩
  · have hlen := contents_length_le pre
    have hfour := hpre.length_le
    simp only [List.length_cons, List.length_nil] at hfour
    omega

end LinkedQueue

/-! The queue with a natural number for its count, which the pool uses, does the same as long as
the count fits 32 bits. -/

namespace LinkedQueue

variable {α : Type*}

/-- The same elements, counted with 32 bits. -/
def narrow (q : LinkedQueue ℕ α) : LinkedQueue UInt32 α :=
  ⟨UInt32.ofNat q.elemsCount, q.head, q.tail, q.heap⟩

variable {q : LinkedQueue ℕ α} {as : List Addr} {xs : List α}

theorem Holds.narrow (h : q.Holds as xs) (hfits : xs.length < 2 ^ 32) : q.narrow.Holds as xs := by
  obtain ⟨hchain, hnodup, hlive, hcount, hlast⟩ := h
  refine ⟨hchain, hnodup, hlive, ?_, hlast⟩
  have hcount : q.elemsCount = xs.length := hcount
  exact (congrArg (fun n => (UInt32.ofNat n).toNat) hcount).trans (UInt32.toNat_ofNat_of_lt' hfits)

theorem Holds.pop_narrow (h : q.Holds as xs) :
    q.narrow.pop = q.pop.map fun r => (r.1, r.2.narrow) := by
  have hcount : q.elemsCount = xs.length := h.count
  have hchain := h.chain
  simp only [pop, LinkedQueue.narrow]
  generalize hhead : q.head = head at hchain ⊢
  cases hchain with
  | nil => simp only [Option.map_some, hhead]
  | @cons a as x xs next hcell =>
    have hdown : UInt32.ofNat (Counter.down q.elemsCount) = Counter.down (UInt32.ofNat q.elemsCount) :=
      UInt32.ofNat_sub (by rw [hcount]; simp)
    simp only [hcell, Option.map_some, hdown]

theorem setNext_narrow (q : LinkedQueue ℕ α) (a next : Option Addr) :
    q.narrow.setNext a next = (q.setNext a next).map narrow := by
  unfold setNext
  cases a with
  | none => rfl
  | some a =>
    simp only [LinkedQueue.narrow]
    cases q.heap a <;> rfl

theorem push_narrow (hfits : q.elemsCount < 2 ^ 32) (addr : Addr) (value : α) :
    q.narrow.push addr value = (q.push addr value).map narrow := by
  have hvalue : Counter.value q.narrow.elemsCount = q.elemsCount := UInt32.toNat_ofNat_of_lt' hfits
  have hset := setNext_narrow { q with heap := Function.update q.heap addr (some ⟨value, none⟩) }
  have hadd : ∀ n, UInt32.ofNat (n + 1) = UInt32.ofNat n + 1 := fun n => UInt32.ofNat_add n 1
  -- the two calls count up after they have linked the new element
  have hup : ∀ r : LinkedQueue ℕ α, LinkedQueue.narrow
      { r with tail := some addr, elemsCount := Counter.up r.elemsCount } =
        { r.narrow with tail := some addr, elemsCount := Counter.up r.narrow.elemsCount } :=
    fun r => congrArg (fun n => LinkedQueue.mk n _ _ _) (hadd r.elemsCount)
  simp only [push, hvalue]
  change _ = Option.map narrow (if q.elemsCount = 0 then _ else if q.elemsCount = 1 then _ else _)
  split_ifs
  · exact congrArg some (congrArg (fun n => LinkedQueue.mk n _ _ _) (hadd _).symm)
  · refine (congrArg _ (hset q.head (some addr))).trans ?_
    rw [Option.map_map, Option.map_map]
    exact congrFun (congrArg _ (funext fun r => (hup r).symm)) _
  · refine (congrArg _ (hset q.tail (some addr))).trans ?_
    rw [Option.map_map, Option.map_map]
    exact congrFun (congrArg _ (funext fun r => (hup r).symm)) _

end LinkedQueue

end JudgeServer
