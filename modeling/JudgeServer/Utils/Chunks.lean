import Mathlib.Data.Stream.Init
import JudgeServer.Utils.Transfer

/-! The bytes that `transfer_all` moves. The outcomes of its calls are an infinite
sequence, of which the loop uses up a finite part; what `send` takes from the buffer and
what `recv` puts there follow `cur_data_ptr`. -/

namespace JudgeServer

/-- The call can end like this when it is asked for `requested` bytes. -/
def Call.Fits (requested : ℕ) : Call → Prop
  | .moved n => 0 < n ∧ n ≤ requested
  | _ => True

/-- No call moves more than the loop asks for, when `len` bytes are to be moved. -/
def Answers (len : ℕ) (outcomes : Stream' Call) : Prop :=
  ∀ i, (∀ c ∈ outcomes.take i, 0 < c.ret) → movedBy (outcomes.take i) < len →
    (outcomes.get i).Fits (len - movedBy (outcomes.take i))

/-- What each `send` takes, the buffer being read at `cur_data_ptr`. -/
def sentChunks (buffer : List UInt8) (cur : ℕ) : List Call → List (List UInt8)
  | [] => []
  | call :: calls =>
    (buffer.drop cur).take call.size :: sentChunks buffer (cur + call.size) calls

/-- The buffer after each `recv` has written to `cur_data_ptr`. -/
def stored (buffer : List UInt8) (cur : ℕ) : List Arrival → List UInt8
  | [] => buffer
  | a :: arrivals =>
    stored (buffer.take cur ++ a.bytes ++ buffer.drop (cur + a.bytes.length))
      (cur + a.bytes.length) arrivals

theorem Answers.head {len : ℕ} {outcomes : Stream' Call} (h : Answers len outcomes)
    (hlen : 0 < len) : (outcomes.get 0).Fits len := by
  simpa using h 0 (by simp) (by simpa using hlen)

theorem Answers.tail {len n : ℕ} {outcomes : Stream' Call} (h : Answers len outcomes)
    (hhead : outcomes.get 0 = .moved n) (hn : 0 < n) : Answers (len - n) outcomes.tail := by
  intro i hpos hlt
  have htake : outcomes.take (i + 1) = .moved n :: outcomes.tail.take i := by
    rw [Stream'.take_succ, ← hhead]
  have hmoved : movedBy (outcomes.take (i + 1)) = n + movedBy (outcomes.tail.take i) := by
    rw [htake, movedBy_cons]
    rfl
  have hfits := h (i + 1) (by
    rw [htake, List.forall_mem_cons]
    exact ⟨by simpa [Call.ret] using hn, hpos⟩) (by omega)
  rwa [hmoved, Nat.sub_add_eq] at hfits

/-- The loop ends. -/
theorem transferLoop_total {remaining : UInt32} (cur : ℕ) {outcomes : Stream' Call}
    (h : Answers remaining.toNat outcomes) :
    ∃ n t, transferLoop remaining cur (outcomes.take n) = some t := by
  induction hlen : remaining.toNat using Nat.strong_induction_on
    generalizing remaining cur outcomes with
  | _ len ih =>
    by_cases hzero : remaining = 0
    · exact ⟨0, _, by simp [transferLoop, hzero]; rfl⟩
    have hpos : 0 < remaining.toNat := by
      rw [Nat.pos_iff_ne_zero]
      exact fun hz => hzero (UInt32.toNat_inj.1 hz)
    cases hcall : outcomes.get 0 with
    | moved k =>
      obtain ⟨hk, hle⟩ : 0 < k ∧ k ≤ remaining.toNat := by
        simpa [hcall, Call.Fits] using h.head hpos
      have hrest := h.tail hcall hk
      rw [← remaining_sub hle] at hrest
      obtain ⟨n, t, ht⟩ := ih (remaining - UInt32.ofNat k).toNat (by rw [remaining_sub hle]; omega)
        (cur + k) hrest rfl
      refine ⟨n + 1, t, ?_⟩
      rw [Stream'.take_succ, show outcomes.head = .moved k from hcall]
      simp only [transferLoop, if_neg hzero, if_pos (And.intro hk hle)]
      exact ht
    | closed =>
      refine ⟨1, ⟨0, cur, none⟩, ?_⟩
      rw [Stream'.take_succ, show outcomes.head = .closed from hcall]
      simp only [transferLoop, if_neg hzero, Stream'.take_zero, if_true]
    | failed e =>
      refine ⟨1, ⟨-1, cur, some e⟩, ?_⟩
      rw [Stream'.take_succ, show outcomes.head = .failed e from hcall]
      simp only [transferLoop, if_neg hzero, Stream'.take_zero, if_true]

/-- The chunks follow one another. -/
theorem sentChunks_flatten (buffer : List UInt8) (cur : ℕ) (calls : List Call) :
    (sentChunks buffer cur calls).flatten = (buffer.drop cur).take (movedBy calls) := by
  induction calls generalizing cur with
  | nil => simp [sentChunks]
  | cons call calls ih =>
    rw [sentChunks, List.flatten_cons, ih, movedBy_cons, List.take_add, List.drop_drop]

theorem stored_eq (arrivals : List Arrival) (buffer : List UInt8) (cur : ℕ)
    (h : cur + (received arrivals).length ≤ buffer.length) :
    stored buffer cur arrivals = buffer.take cur ++ received arrivals ++
      buffer.drop (cur + (received arrivals).length) := by
  induction arrivals generalizing buffer cur with
  | nil => simp [stored]
  | cons a arrivals ih =>
    have hcons : received (a :: arrivals) = a.bytes ++ received arrivals := rfl
    rw [hcons, List.length_append] at h
    have hfront : (buffer.take cur ++ a.bytes).length = cur + a.bytes.length := by
      rw [List.length_append, List.length_take_of_le (by omega)]
    have hlen : (buffer.take cur ++ a.bytes ++ buffer.drop (cur + a.bytes.length)).length =
        buffer.length := by
      rw [List.length_append, hfront, List.length_drop]
      omega
    rw [stored, ih _ _ (by omega), List.take_left' hfront, ← List.drop_drop,
      List.drop_left' hfront, List.drop_drop, hcons, List.length_append]
    simp only [List.append_assoc, Nat.add_assoc]

end JudgeServer
