import Mathlib.Tactic

/-! The queue of utils.c: a singly linked list of allocated elements, and their count.
`queue_pop` leaves `tail` alone, so it may point to a freed element; `queue_push` reads it only
where the count says that it does not. The type of the count is a parameter: 32 bits in the
source, a natural number where the pool counts without a limit. -/

namespace JudgeServer

abbrev Addr := ℕ

/-- A number that is counted up and down from zero; `fits` says up to where it is exact. -/
class Counter (κ : Type*) where
  value : κ → ℕ
  zero : κ
  up : κ → κ
  down : κ → κ
  fits : ℕ → Prop
  value_zero : value zero = 0
  value_up : ∀ {a : κ}, fits (value a + 1) → value (up a) = value a + 1
  value_down : ∀ {a : κ}, 1 ≤ value a → value (down a) = value a - 1

instance : Counter ℕ where
  value a := a
  zero := 0
  up a := a + 1
  down a := a - 1
  fits _ := True
  value_zero := rfl
  value_up _ := rfl
  value_down _ := rfl

instance : Counter UInt32 where
  value := UInt32.toNat
  zero := 0
  up a := a + 1
  down a := a - 1
  fits n := n < 2 ^ 32
  value_zero := rfl
  value_up h := by
    rw [UInt32.toNat_add]
    exact Nat.mod_eq_of_lt h
  value_down h := UInt32.toNat_sub_of_le _ _ (UInt32.le_iff_toNat_le.2 h)

structure QueueElem (α : Type*) where
  value : α
  next : Option Addr

/-- `queue`, with the memory its elements are allocated in. -/
structure LinkedQueue (κ α : Type*) where
  elemsCount : κ
  head : Option Addr
  tail : Option Addr
  heap : Addr → Option (QueueElem α)

namespace LinkedQueue

variable {κ α : Type*} [Counter κ]

/-- `queue_init` -/
def init : LinkedQueue κ α := ⟨Counter.zero, none, none, fun _ => none⟩

/-- `queue_pop`: the value, or `none` for NULL. The outer `none` is an access to memory that
is not allocated. -/
def pop (q : LinkedQueue κ α) : Option (Option α × LinkedQueue κ α) :=
  match q.head with
  | none => some (none, q)
  | some a =>
    match q.heap a with
    | none => none
    | some elem => some (some elem.value, { q with
        head := elem.next
        elemsCount := Counter.down q.elemsCount
        heap := Function.update q.heap a none })

/-- `a->next = next` -/
def setNext (q : LinkedQueue κ α) (a next : Option Addr) : Option (LinkedQueue κ α) :=
  match a with
  | none => none
  | some a =>
    match q.heap a with
    | none => none
    | some elem => some { q with heap := Function.update q.heap a (some { elem with next := next }) }

/-- `queue_push`, `addr` being what `malloc` returns in it. -/
def push (q : LinkedQueue κ α) (addr : Addr) (value : α) : Option (LinkedQueue κ α) :=
  let elem := some addr
  let q' := { q with heap := Function.update q.heap addr (some ⟨value, none⟩) }
  if Counter.value q.elemsCount = 0 then
    some { q' with head := elem, tail := elem, elemsCount := Counter.up q.elemsCount }
  else if Counter.value q.elemsCount = 1 then
    (q'.setNext q.head elem).map fun q =>
      { q with tail := elem, elemsCount := Counter.up q.elemsCount }
  else
    (q'.setNext q.tail elem).map fun q =>
      { q with tail := elem, elemsCount := Counter.up q.elemsCount }

/-- The loop of `queue_iterate`, if `rounds` suffice. -/
def values (heap : Addr → Option (QueueElem α)) : ℕ → Option Addr → Option (List α)
  | _, none => some []
  | 0, some _ => none
  | rounds + 1, some a =>
    match heap a with
    | none => none
    | some elem => (values heap rounds elem.next).map (elem.value :: ·)

/-- `queue_iterate`: the values its function is called with. -/
def iterate (q : LinkedQueue κ α) (rounds : ℕ) : Option (List α) :=
  if Counter.value q.elemsCount = 0 then some [] else values q.heap rounds q.head

/-- The loop of `queue_struct_free`: the elements freed, and the memory left. -/
def freeLoop : ℕ → (Addr → Option (QueueElem α)) → Option Addr →
    Option (List Addr × (Addr → Option (QueueElem α)))
  | _, heap, none => some ([], heap)
  | 0, _, some _ => none
  | rounds + 1, heap, some a =>
    match heap a with
    | none => none
    | some elem =>
      (freeLoop rounds (Function.update heap a none) elem.next).map fun r => (a :: r.1, r.2)

/-- `queue_struct_free` -/
def structFree (q : LinkedQueue κ α) (rounds : ℕ) :
    Option (List Addr × (Addr → Option (QueueElem α))) :=
  freeLoop rounds q.heap q.head

/-- The elements at the addresses, from the head on, have these values. -/
inductive IsChain (heap : Addr → Option (QueueElem α)) : Option Addr → List Addr → List α → Prop
  | nil : IsChain heap none [] []
  | cons {a : Addr} {as : List Addr} {x : α} {xs : List α} {next : Option Addr} :
      heap a = some ⟨x, next⟩ → IsChain heap next as xs → IsChain heap (some a) (a :: as) (x :: xs)

/-- The queue holds `xs` in the elements at the addresses `as`, and no other is allocated. -/
structure Holds (q : LinkedQueue κ α) (as : List Addr) (xs : List α) : Prop where
  chain : IsChain q.heap q.head as xs
  nodup : as.Nodup
  live : ∀ a, q.heap a ≠ none ↔ a ∈ as
  count : Counter.value q.elemsCount = xs.length
  last : as ≠ [] → q.tail = as.getLast?

theorem pop_count {q q' : LinkedQueue κ α} {x : α} (h : q.pop = some (some x, q')) :
    q'.elemsCount = Counter.down q.elemsCount := by
  unfold pop at h
  split at h
  · cases h
  · split at h
    · cases h
    · cases h
      rfl

omit [Counter κ] in
theorem setNext_count {q q' : LinkedQueue κ α} {a next : Option Addr}
    (h : q.setNext a next = some q') : q'.elemsCount = q.elemsCount := by
  unfold setNext at h
  split at h
  · cases h
  · split at h
    · cases h
    · cases h
      rfl

theorem push_count {q q' : LinkedQueue κ α} {addr : Addr} {x : α}
    (h : q.push addr x = some q') : q'.elemsCount = Counter.up q.elemsCount := by
  unfold push at h
  split_ifs at h
  · cases h
    rfl
  · obtain ⟨q₁, hset, rfl⟩ := Option.map_eq_some_iff.1 h
    have hsame := setNext_count hset
    exact congrArg Counter.up hsame
  · obtain ⟨q₁, hset, rfl⟩ := Option.map_eq_some_iff.1 h
    have hsame := setNext_count hset
    exact congrArg Counter.up hsame

namespace IsChain

variable {heap : Addr → Option (QueueElem α)} {head : Option Addr} {as : List Addr} {xs : List α}

theorem congr {heap' : Addr → Option (QueueElem α)} (h : IsChain heap head as xs)
    (hsame : ∀ a ∈ as, heap' a = heap a) : IsChain heap' head as xs := by
  induction h with
  | nil => exact .nil
  | @cons a as x xs next hcell _ ih =>
    refine .cons ?_ (ih fun b hb => hsame b (List.mem_cons_of_mem a hb))
    rw [hsame a List.mem_cons_self, hcell]

theorem length_eq (h : IsChain heap head as xs) : as.length = xs.length := by
  induction h with
  | nil => rfl
  | cons _ _ ih => simp [ih]

/-- A new element behind the last one. -/
theorem append {new last : Addr} {value : α} (h : IsChain heap head as xs) (hnodup : as.Nodup)
    (hlast : as.getLast? = some last) (hnew : new ∉ as) (hvalue : heap new = some ⟨value, none⟩) :
    ∃ elem, heap last = some elem ∧
      IsChain (Function.update heap last (some { elem with next := some new })) head (as ++ [new])
        (xs ++ [value]) := by
  induction h with
  | nil => cases hlast
  | @cons a as x xs next hcell hrest ih =>
    obtain ⟨ha, hnodup⟩ := List.nodup_cons.1 hnodup
    have hnew' : new ∉ as := fun hmem => hnew (List.mem_cons_of_mem a hmem)
    cases hrest with
    | nil =>
      obtain rfl : a = last := by simpa using hlast
      refine ⟨_, hcell, .cons (Function.update_self ..) (.cons ?_ .nil)⟩
      rwa [Function.update_of_ne (fun heq => hnew (by simp [heq]))]
    | @cons b bs y ys next' hcell' hrest' =>
      have hlast' : (b :: bs).getLast? = some last := by simpa using hlast
      obtain ⟨elem, helem, hchain⟩ := ih hnodup hlast' hnew'
      have hne : a ≠ last := by
        rintro rfl
        exact ha (List.mem_of_getLast? hlast')
      exact ⟨elem, helem, .cons (by rw [Function.update_of_ne hne, hcell]) hchain⟩

/-- The loop of `queue_iterate` ends with the last element. -/
theorem visits (h : IsChain heap head as xs) {rounds : ℕ} (hrounds : as.length ≤ rounds) :
    values heap rounds head = some xs := by
  induction h generalizing rounds with
  | nil => cases rounds <;> rfl
  | cons hcell _ ih =>
    obtain ⟨rounds, rfl⟩ : ∃ r, rounds = r + 1 := ⟨rounds - 1, by simp at hrounds; omega⟩
    have hrest : values _ rounds _ = _ := ih (by simpa using hrounds)
    simp only [values, hcell, hrest, Option.map_some]

/-- The loop of `queue_struct_free` frees the elements one after the other. -/
theorem frees (h : IsChain heap head as xs) (hnodup : as.Nodup) {rounds : ℕ}
    (hrounds : as.length ≤ rounds) : ∃ heap', freeLoop rounds heap head = some (as, heap') ∧
      ∀ a, heap' a ≠ none ↔ heap a ≠ none ∧ a ∉ as := by
  induction as generalizing heap head xs rounds with
  | nil =>
    cases h
    exact ⟨heap, by cases rounds <;> rfl, by simp⟩
  | cons a as ih =>
    cases h with
    | @cons _ _ x xs next hcell hrest =>
      obtain ⟨ha, hnodup⟩ := List.nodup_cons.1 hnodup
      obtain ⟨rounds, rfl⟩ : ∃ r, rounds = r + 1 := ⟨rounds - 1, by simp at hrounds; omega⟩
      have hfreed : IsChain (Function.update heap a none) next as xs :=
        hrest.congr fun b hb => Function.update_of_ne (by rintro rfl; exact ha hb) ..
      obtain ⟨heap', hloop, hleft⟩ := ih hfreed hnodup (by simpa using hrounds)
      refine ⟨heap', by simp only [freeLoop, hcell, hloop, Option.map_some], fun b => ?_⟩
      rw [hleft b]
      by_cases hb : b = a
      · subst hb
        simp
      · simp [hb]

end IsChain

theorem holds_init : (init : LinkedQueue κ α).Holds [] [] :=
  ⟨.nil, List.nodup_nil, by simp [init], Counter.value_zero, by simp⟩

namespace Holds

variable {q : LinkedQueue κ α} {as : List Addr} {xs : List α}

theorem pop_nil (h : q.Holds as []) : q.pop = some (none, q) := by
  obtain ⟨hchain, -⟩ := h
  unfold pop
  generalize q.head = head at hchain
  cases hchain
  rfl

theorem pop_cons {x : α} (h : q.Holds as (x :: xs)) :
    ∃ q', q.pop = some (some x, q') ∧ q'.Holds as.tail xs := by
  obtain ⟨hchain, hnodup, hlive, hcount, hlast⟩ := h
  generalize hhead : q.head = head at hchain
  cases hchain with
  | @cons a as x xs next hcell hrest =>
    obtain ⟨ha, hnodup⟩ := List.nodup_cons.1 hnodup
    refine ⟨{ q with head := next, elemsCount := Counter.down q.elemsCount, heap :=
      Function.update q.heap a none }, by simp only [pop, hhead, hcell], ?_, hnodup, fun b => ?_,
      ?_, fun hne => ?_⟩
    · refine hrest.congr fun b hb => Function.update_of_ne ?_ ..
      rintro rfl
      exact ha hb
    · by_cases hb : b = a
      · subst hb
        simpa using ha
      · simp only [Function.update_of_ne hb, hlive b, List.mem_cons, hb, false_or, List.tail_cons]
    · rw [List.length_cons] at hcount
      rw [Counter.value_down (by omega), hcount, Nat.add_sub_cancel]
    · -- the last element is still the last one
      rw [List.tail_cons] at hne ⊢
      rw [show q.tail = _ from hlast (List.cons_ne_nil a as), List.getLast?_cons,
        List.getLast?_eq_some_getLast hne]
      rfl

/-- The new element is linked behind the last one, which `head` or `tail` points to. -/
theorem link {last addr : Addr} (h : q.Holds as xs) (hlast : as.getLast? = some last)
    (hnew : q.heap addr = none) (value : α) (hfits : Counter.fits κ (xs.length + 1)) :
    ∃ heap, setNext { q with heap := Function.update q.heap addr (some ⟨value, none⟩) }
          (some last) (some addr) = some { q with heap := heap } ∧
      Holds { q with heap := heap, tail := some addr, elemsCount := Counter.up q.elemsCount }
        (as ++ [addr]) (xs ++ [value]) := by
  have hfree : addr ∉ as := fun hmem => (h.live addr).2 hmem hnew
  have hne : ∀ a ∈ as, a ≠ addr := by
    rintro a ha rfl
    exact hfree ha
  have hchain : IsChain (Function.update q.heap addr (some ⟨value, none⟩)) q.head as xs :=
    h.chain.congr fun a ha => Function.update_of_ne (hne a ha) ..
  obtain ⟨elem, helem, hlinked⟩ :=
    hchain.append h.nodup hlast hfree (Function.update_self addr (some ⟨value, none⟩) q.heap)
  refine ⟨Function.update (Function.update q.heap addr (some ⟨value, none⟩)) last
      (some { elem with next := some addr }), by simp only [setNext, helem], hlinked, ?_,
    fun a => ?_, ?_, fun _ => by simp⟩
  · refine List.nodup_append.2 ⟨h.nodup, List.nodup_singleton _, fun a ha b hb => ?_⟩
    rw [List.mem_singleton.1 hb]
    exact hne a ha
  · by_cases halast : a = last
    · subst halast
      simp [List.mem_of_getLast? hlast]
    · by_cases haddr : a = addr
      · subst haddr
        simp [Function.update_of_ne halast]
      · simp only [Function.update_of_ne halast, Function.update_of_ne haddr, h.live a,
          List.mem_append, List.mem_singleton, haddr, or_false]
  · rw [← h.count] at hfits
    rw [Counter.value_up hfits, h.count, List.length_append, List.length_singleton]

theorem push {addr : Addr} (h : q.Holds as xs) (hnew : q.heap addr = none) (value : α)
    (hfits : Counter.fits κ (xs.length + 1)) :
    ∃ q', q.push addr value = some q' ∧ q'.Holds (as ++ [addr]) (xs ++ [value]) := by
  have hlen := h.chain.length_eq
  match xs, h with
  | [], h =>
    obtain rfl : as = [] := List.length_eq_zero_iff.1 hlen
    have hcount : Counter.value q.elemsCount = 0 := h.count
    refine ⟨{ q with
      head := some addr
      tail := some addr
      elemsCount := Counter.up q.elemsCount
      heap := Function.update q.heap addr (some ⟨value, none⟩) },
      by rw [LinkedQueue.push, if_pos hcount], .cons (Function.update_self ..) .nil, by simp,
      fun a => ?_, ?_, by simp⟩
    · by_cases ha : a = addr
      · subst ha
        simp
      · have hlive := h.live a
        simp only [Function.update_of_ne ha, List.nil_append, List.mem_singleton, ha, iff_false]
        simpa using hlive
    · have hfits' : Counter.fits κ (Counter.value q.elemsCount + 1) := by rwa [h.count]
      rw [Counter.value_up hfits', h.count]
      rfl
  | [x], h =>
    obtain ⟨a, rfl⟩ := List.length_eq_one_iff.1 hlen
    have hcount : Counter.value q.elemsCount = 1 := h.count
    have hhead : q.head = some a := by
      have hchain := h.chain
      generalize q.head = head at hchain
      cases hchain
      rfl
    have hlast : [a].getLast? = some a := rfl
    obtain ⟨heap, hset, hholds⟩ := h.link hlast hnew value hfits
    refine ⟨_, ?_, hholds⟩
    rw [← hhead] at hset
    rw [LinkedQueue.push, if_neg (by omega), if_pos hcount, hset, Option.map_some]
  | x :: y :: xs, h =>
    have hcount : Counter.value q.elemsCount = xs.length + 2 := h.count
    have hne : as ≠ [] := by
      rintro rfl
      simp at hlen
    have hlast := List.getLast?_eq_some_getLast hne
    have htail : q.tail = _ := (h.last hne).trans hlast
    obtain ⟨heap, hset, hholds⟩ := h.link hlast hnew value hfits
    refine ⟨_, ?_, hholds⟩
    rw [← htail] at hset
    rw [LinkedQueue.push, if_neg (by omega), if_neg (by omega), hset, Option.map_some]

theorem iterate (h : q.Holds as xs) {rounds : ℕ} (hrounds : as.length ≤ rounds) :
    q.iterate rounds = some xs := by
  unfold LinkedQueue.iterate
  split_ifs with hcount
  · rw [h.count, List.length_eq_zero_iff] at hcount
    rw [hcount]
  · exact h.chain.visits hrounds

/-- `queue_struct_free` leaves no element allocated. -/
theorem structFree (h : q.Holds as xs) {rounds : ℕ} (hrounds : as.length ≤ rounds) :
    q.structFree rounds = some (as, fun _ => none) := by
  obtain ⟨heap, hloop, hleft⟩ := h.chain.frees h.nodup hrounds
  have hempty : heap = fun _ => none := by
    funext a
    by_contra hne
    obtain ⟨hlive, hnot⟩ := (hleft a).1 hne
    exact hnot ((h.live a).1 hlive)
  rw [LinkedQueue.structFree, hloop, hempty]

end Holds

end LinkedQueue

/-! The queue of the thread pool, with a natural number for its count and addresses that are
never given out again. -/

structure Queue (α : Type*) extends LinkedQueue ℕ α where
  brk : Addr

namespace Queue

variable {α : Type*}

def init : Queue α := ⟨.init, 0⟩

def pop (q : Queue α) : Option (Option α × Queue α) :=
  q.toLinkedQueue.pop.map fun r => (r.1, ⟨r.2, q.brk⟩)

def push (q : Queue α) (value : α) : Option (Queue α) :=
  (q.toLinkedQueue.push q.brk value).map fun r => ⟨r, q.brk + 1⟩

/-- `queue_iterate`: there are at most as many elements as addresses given out. -/
def iterate (q : Queue α) : Option (List α) := q.toLinkedQueue.iterate q.brk

/-- `queue_struct_free`: the memory it leaves. -/
def structFree (q : Queue α) : Option (Addr → Option (QueueElem α)) :=
  (q.toLinkedQueue.structFree q.brk).map Prod.snd

/-- The queue holds `xs`. -/
def Represents (q : Queue α) (xs : List α) : Prop :=
  ∃ as, q.toLinkedQueue.Holds as xs ∧ ∀ a, q.brk ≤ a → q.heap a = none

theorem pop_count {q q' : Queue α} {x : α} (h : q.pop = some (some x, q')) :
    q'.elemsCount = q.elemsCount - 1 := by
  obtain ⟨r, hpop, heq⟩ := Option.map_eq_some_iff.1 h
  obtain ⟨hx, rfl⟩ := Prod.mk.inj heq
  exact LinkedQueue.pop_count (hpop.trans (by rw [← hx]))

theorem push_count {q q' : Queue α} {x : α} (h : q.push x = some q') :
    q'.elemsCount = q.elemsCount + 1 := by
  obtain ⟨r, hpush, rfl⟩ := Option.map_eq_some_iff.1 h
  exact LinkedQueue.push_count hpush

theorem represents_init : (init : Queue α).Represents [] :=
  ⟨[], LinkedQueue.holds_init, fun _ _ => rfl⟩

namespace Represents

variable {q : Queue α} {xs : List α}

theorem count (h : q.Represents xs) : q.elemsCount = xs.length := by
  obtain ⟨as, h, -⟩ := h
  exact h.count

theorem pop_nil (h : q.Represents []) : q.pop = some (none, q) := by
  obtain ⟨as, h, -⟩ := h
  rw [Queue.pop, h.pop_nil, Option.map_some]

theorem pop_cons {x : α} (h : q.Represents (x :: xs)) :
    ∃ q', q.pop = some (some x, q') ∧ q'.Represents xs := by
  obtain ⟨as, h, hfresh⟩ := h
  obtain ⟨r, hpop, hholds⟩ := h.pop_cons
  refine ⟨⟨r, q.brk⟩, by rw [Queue.pop, hpop, Option.map_some], as.tail, hholds, fun a ha => ?_⟩
  -- nothing is allocated by it
  by_contra hlive
  exact (h.live a).2 (List.mem_of_mem_tail ((hholds.live a).1 hlive)) (hfresh a ha)

theorem push (h : q.Represents xs) (value : α) :
    ∃ q', q.push value = some q' ∧ q'.Represents (xs ++ [value]) := by
  obtain ⟨as, h, hfresh⟩ := h
  obtain ⟨r, hpush, hholds⟩ := h.push (hfresh q.brk le_rfl) value trivial
  refine ⟨⟨r, q.brk + 1⟩, by rw [Queue.push, hpush, Option.map_some], _, hholds, fun a ha => ?_⟩
  by_contra hlive
  rcases List.mem_append.1 ((hholds.live a).1 hlive) with hold | hnew
  · exact (h.live a).2 hold (hfresh a ((Nat.le_succ q.brk).trans ha))
  · rw [List.mem_singleton.1 hnew] at ha
    exact Nat.not_succ_le_self q.brk ha

/-- The elements lie below `brk`, so there are no more of them than that. -/
theorem length_le {as : List Addr} (h : q.toLinkedQueue.Holds as xs)
    (hfresh : ∀ a, q.brk ≤ a → q.heap a = none) : as.length ≤ q.brk := by
  have hsub : as.toFinset ⊆ Finset.range q.brk := by
    intro a ha
    rw [Finset.mem_range]
    by_contra hle
    exact (h.live a).2 (List.mem_toFinset.1 ha) (hfresh a (not_lt.1 hle))
  have hcard := Finset.card_le_card hsub
  rwa [List.toFinset_card_of_nodup h.nodup, Finset.card_range] at hcard

theorem iterate (h : q.Represents xs) : q.iterate = some xs := by
  obtain ⟨as, h, hfresh⟩ := h
  exact h.iterate (length_le h hfresh)

theorem structFree (h : q.Represents xs) : q.structFree = some fun _ => none := by
  obtain ⟨as, h, hfresh⟩ := h
  rw [Queue.structFree, h.structFree (length_le h hfresh), Option.map_some]

end Represents

end Queue

end JudgeServer
