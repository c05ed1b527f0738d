import Mathlib.Tactic

/-! `transfer_all` of utils.c, the loop under `send_all` and `recv_all`. The
socket is represented by the outcomes of the `send` or `recv` calls the loop makes;
a transfer is defined on exactly the calls it makes, so the callers below can
quantify over every way the kernel may answer. -/

namespace JudgeServer

/-- The values of `errno` the server tells apart. -/
inductive Errno
  | EAGAIN
  | EWOULDBLOCK
  | ECONNRESET
  | other (code : ℕ)
  deriving DecidableEq, Repr

/-- `errno == EAGAIN || errno == EWOULDBLOCK` -/
def Errno.isTimeout (e : Errno) : Bool := e = .EAGAIN || e = .EWOULDBLOCK

/-- The outcome of one `send` or `recv` call: it moved `n > 0` bytes, returned 0
and left `errno` alone, or returned -1 and set `errno`. -/
inductive Call
  | moved (n : ℕ)
  | closed
  | failed (e : Errno)
  deriving DecidableEq, Repr

def Call.size : Call → ℕ
  | .moved n => n
  | _ => 0

/-- The value of the `send` or `recv` call. -/
def Call.ret : Call → ℤ
  | .moved n => n
  | .closed => 0
  | .failed _ => -1

/-- The `errno` that the call leaves, if it sets one. -/
def Call.errno : Call → Option Errno
  | .failed e => some e
  | _ => none

def movedBy (calls : List Call) : ℕ := (calls.map Call.size).sum

/-- What `transfer_all` returns, how many bytes it has moved by then, and the
`errno` a failed call has left. -/
structure Transfer where
  ret : ℤ
  moved : ℕ
  errno : Option Errno
  deriving DecidableEq, Repr

/-- The `while(remaining_len > 0)` loop, with `cur = cur_data_ptr - data`. It is
`none` on calls that are not those of one whole execution. -/
def transferLoop (remaining : UInt32) (cur : ℕ) : List Call → Option Transfer
  | [] => if remaining = 0 then some ⟨cur, cur, none⟩ else none
  | call :: calls =>
    if remaining = 0 then none
    else match call with
      | .moved n =>
        -- the kernel never moves more than the `remaining_len` asked for
        if 0 < n ∧ n ≤ remaining.toNat then
          transferLoop (remaining - UInt32.ofNat n) (cur + n) calls
        else none
      | .closed => if calls = [] then some ⟨0, cur, none⟩ else none
      | .failed e => if calls = [] then some ⟨-1, cur, some e⟩ else none

def transferAll (dataLen : UInt32) (calls : List Call) : Option Transfer :=
  transferLoop dataLen 0 calls

/-- How a transfer that has `len` bytes to move in all can end. -/
inductive Transfer.Ends (calls : List Call) (len : ℕ) : Transfer → Prop
  | complete (hsize : (calls.map Call.size).sum = len) (hall : ∀ c ∈ calls, ∃ n, c = .moved n) :
      Ends calls len ⟨len, len, none⟩
  | closed {n : ℕ} (hsize : (calls.map Call.size).sum = n) (hn : n < len)
      (hlast : calls.getLast? = some .closed) : Ends calls len ⟨0, n, none⟩
  | failed {n : ℕ} {e : Errno} (hsize : (calls.map Call.size).sum = n) (hn : n < len)
      (hlast : calls.getLast? = some (.failed e)) : Ends calls len ⟨-1, n, some e⟩

theorem remaining_sub {remaining : UInt32} {n : ℕ} (hn : n ≤ remaining.toNat) :
    (remaining - UInt32.ofNat n).toNat = remaining.toNat - n := by
  have hlt := remaining.toNat_lt
  have hofNat : (UInt32.ofNat n).toNat = n := UInt32.toNat_ofNat_of_lt' (by
    simp only [UInt32.size]
    omega)
  rw [UInt32.toNat_sub_of_le _ _ (UInt32.le_iff_toNat_le.2 (by rw [hofNat]; exact hn)), hofNat]

@[simp] theorem movedBy_nil : movedBy [] = 0 := rfl

@[simp] theorem movedBy_cons (call : Call) (calls : List Call) :
    movedBy (call :: calls) = call.size + movedBy calls := by
  simp [movedBy]

@[simp] theorem movedBy_append (calls calls' : List Call) :
    movedBy (calls ++ calls') = movedBy calls + movedBy calls' := by
  simp [movedBy]

/-- The loop stops at the end of the buffer or at the first call that moves nothing.
The counter never wraps: what is left and what has been moved always make up the whole length. -/
theorem transferLoop_stops {calls : List Call} {remaining : UInt32} {cur : ℕ} {t : Transfer}
    (h : transferLoop remaining cur calls = some t) :
    t.moved = cur + movedBy calls ∧
      ((∀ c ∈ calls, 0 < c.ret) ∧ movedBy calls = remaining.toNat ∧ t.ret = t.moved ∧
          t.errno = none ∨
        ∃ before last, calls = before ++ [last] ∧ (∀ c ∈ before, 0 < c.ret) ∧ last.ret ≤ 0 ∧
          movedBy calls < remaining.toNat ∧ t.ret = last.ret ∧ t.errno = last.errno) := by
  induction calls generalizing remaining cur with
  | nil =>
    simp only [transferLoop] at h
    split at h
    · rename_i hzero
      obtain rfl := Option.some.inj h
      exact ⟨rfl, Or.inl ⟨by simp, by simp [hzero], rfl, rfl⟩⟩
    · cases h
  | cons call calls ih =>
    simp only [transferLoop] at h
    split at h
    · cases h
    rename_i hzero
    have hpos : 0 < remaining.toNat := by
      rw [Nat.pos_iff_ne_zero]
      exact fun hz => hzero (UInt32.toNat_inj.1 hz)
    cases call with
    | moved n =>
      dsimp only at h
      split at h
      · rename_i hn
        obtain ⟨hmoved, hend⟩ := ih h
        rw [remaining_sub hn.2] at hend
        have hsize : (Call.moved n).size = n := rfl
        have hret : 0 < (Call.moved n).ret := by simpa [Call.ret] using hn.1
        refine ⟨by rw [movedBy_cons, hsize]; omega, ?_⟩
        rcases hend with ⟨hall, hsum, ht⟩ | ⟨before, last, rfl, hall, hlast, hlt, ht⟩
        · left
          exact ⟨List.forall_mem_cons.2 ⟨hret, hall⟩, by rw [movedBy_cons, hsize]; omega, ht⟩
        · right
          refine ⟨.moved n :: before, last, rfl, List.forall_mem_cons.2 ⟨hret, hall⟩, hlast, ?_, ht⟩
          rw [movedBy_cons, hsize]
          omega
      · cases h
    | closed | failed e =>
      dsimp only at h
      split at h
      · rename_i hnil
        subst hnil
        obtain rfl := Option.some.inj h
        refine ⟨rfl, Or.inr ⟨[], _, rfl, by simp, ?_, by simpa [Call.size] using hpos, rfl, rfl⟩⟩
        simp [Call.ret]
      · cases h

/-- A call that moves bytes moves at least one. -/
theorem transferLoop_pos {calls : List Call} {remaining : UInt32} {cur : ℕ} {t : Transfer}
    (h : transferLoop remaining cur calls = some t) {n : ℕ} (hn : Call.moved n ∈ calls) : 0 < n := by
  induction calls generalizing remaining cur with
  | nil => cases hn
  | cons call calls ih =>
    simp only [transferLoop] at h
    split at h
    · cases h
    cases call with
    | moved m =>
      dsimp only at h
      split at h
      · rename_i hm
        rcases List.mem_cons.1 hn with heq | hn
        · cases heq
          exact hm.1
        · exact ih h hn
      · cases h
    | closed | failed =>
      dsimp only at h
      split at h
      · rename_i hnil
        subst hnil
        simp at hn
      · cases h

/-- `transfer_all` either moves the whole length, or returns the first
non-positive outcome after moving a proper part of it. -/
theorem transferAll_ends {dataLen : UInt32} {calls : List Call} {t : Transfer}
    (h : transferAll dataLen calls = some t) : t.Ends calls dataLen.toNat := by
  obtain ⟨ret, moved, errno⟩ := t
  obtain ⟨hmoved, ⟨hall, hsum, hret, herr⟩ | ⟨before, last, rfl, -, hlast, hlt, hret, herr⟩⟩ :=
    transferLoop_stops h
  · dsimp only at hmoved hret herr
    obtain rfl : moved = dataLen.toNat := by omega
    subst hret herr
    refine .complete hsum fun c hc => ?_
    cases c with
    | moved n => exact ⟨n, rfl⟩
    | closed | failed => exact absurd (hall _ hc) (by simp [Call.ret])
  · dsimp only at hmoved hret herr
    rw [Nat.zero_add] at hmoved
    subst hmoved hret herr
    cases last with
    | moved n =>
      have hn : 0 < n := transferLoop_pos h (List.mem_append_right _ (List.mem_singleton_self _))
      exact absurd hn (by simpa [Call.ret] using hlast)
    | closed => exact .closed rfl hlt (List.getLast?_concat ..)
    | failed e => exact .failed rfl hlt (List.getLast?_concat ..)

def sendAll (dataLen : UInt32) (calls : List Call) : Option Transfer := transferAll dataLen calls

/-- What a `recv` call finds: some bytes, the end of the stream, or an error. -/
inductive Arrival
  | data (bytes : List UInt8)
  | closed
  | failed (e : Errno)
  deriving DecidableEq, Repr

def Arrival.call : Arrival → Call
  | .data bytes => .moved bytes.length
  | .closed => .closed
  | .failed e => .failed e

def Arrival.bytes : Arrival → List UInt8
  | .data bytes => bytes
  | _ => []

/-- The bytes that a sequence of `recv` calls takes off the stream. -/
def received (arrivals : List Arrival) : List UInt8 := arrivals.flatMap Arrival.bytes

def recvAll (dataLen : UInt32) (arrivals : List Arrival) : Option Transfer :=
  transferAll dataLen (arrivals.map Arrival.call)

@[simp] theorem received_nil : received [] = [] := rfl

@[simp] theorem received_append (as bs : List Arrival) :
    received (as ++ bs) = received as ++ received bs := List.flatMap_append

theorem received_length (arrivals : List Arrival) :
    (received arrivals).length = ((arrivals.map Arrival.call).map Call.size).sum := by
  induction arrivals with
  | nil => rfl
  | cons a arrivals ih =>
    have hcons : received (a :: arrivals) = a.bytes ++ received arrivals := rfl
    rw [hcons, List.length_append, ih]
    cases a <;> simp [Arrival.bytes, Arrival.call, Call.size]

end JudgeServer
