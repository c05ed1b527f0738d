import JudgeServer.Client.Loop

/-! Framed byte streams: frames and their offsets, the positions at which receive
timeouts strike, and what one `recv_all` call means for both. -/

namespace JudgeServer

/-- A payload whose length fits the 16-bit length field. -/
structure Frame where
  payload : List UInt8
  fits : payload.length < 2 ^ 16

def Frame.encode (f : Frame) : List UInt8 := be16 (UInt16.ofNat f.payload.length) ++ f.payload

def Frame.size (f : Frame) : ℕ := 2 + f.payload.length

theorem Frame.encode_length (f : Frame) : f.encode.length = f.size := by
  simp [Frame.encode, Frame.size]

theorem Frame.resLen_toNat (f : Frame) :
    (UInt16.ofNat f.payload.length).toNat = f.payload.length :=
  UInt16.toNat_ofNat_of_lt' f.fits

def stream (fs : List Frame) : List UInt8 := fs.flatMap Frame.encode

/-- Where frame `k` starts; the end of the stream from the number of frames on. -/
def boundary (fs : List Frame) (k : ℕ) : ℕ := ((fs.take k).map Frame.size).sum

/-- The payloads with the offsets of their frames, the first one at `pos`. -/
def placed (pos : ℕ) : List Frame → List (ℕ × List UInt8)
  | [] => []
  | f :: fs => (pos, f.payload) :: placed (pos + f.size) fs

@[simp] theorem boundary_zero (fs : List Frame) : boundary fs 0 = 0 := by simp [boundary]

theorem boundary_succ {fs : List Frame} {k : ℕ} {f : Frame} (h : fs[k]? = some f) :
    boundary fs (k + 1) = boundary fs k + f.size := by
  simp [boundary, List.take_add_one, h]

theorem boundary_end {fs : List Frame} {k : ℕ} (h : fs[k]? = none) :
    boundary fs (k + 1) = boundary fs k := by
  simp [boundary, List.take_add_one, h]

theorem boundary_le_succ (fs : List Frame) (k : ℕ) : boundary fs k ≤ boundary fs (k + 1) := by
  cases h : fs[k]? with
  | none => exact (boundary_end h).ge
  | some f =>
    rw [boundary_succ h]
    omega

theorem boundary_mono (fs : List Frame) : Monotone (boundary fs) :=
  monotone_nat_of_le_succ (boundary_le_succ fs)

/-- A position below boundary `j` that is no boundary lies strictly inside a frame. -/
theorem inside_frame {fs : List Frame} {q j : ℕ} (hlt : q < boundary fs j)
    (hin : ∀ k, q ≠ boundary fs k) :
    ∃ k f, k < j ∧ fs[k]? = some f ∧ boundary fs k < q ∧ q < boundary fs k + f.size := by
  induction j with
  | zero => simp at hlt
  | succ j ih =>
    by_cases hj : q < boundary fs j
    · obtain ⟨k, f, hk, hrest⟩ := ih hj
      exact ⟨k, f, Nat.lt_succ_of_lt hk, hrest⟩
    · have hne := hin j
      cases hf : fs[j]? with
      | none =>
        rw [boundary_end hf] at hlt
        exact absurd hlt hj
      | some f =>
        rw [boundary_succ hf] at hlt
        exact ⟨j, f, Nat.lt_succ_self j, hf, by omega, hlt⟩

/-- No boundary lies strictly inside a frame. -/
theorem not_boundary_of_inside {fs : List Frame} {k q : ℕ} {f : Frame} (h : fs[k]? = some f)
    (h1 : boundary fs k < q) (h2 : q < boundary fs k + f.size) (j : ℕ) : q ≠ boundary fs j := by
  rcases Nat.lt_or_ge k j with hkj | hjk
  · have hle := boundary_mono fs (Nat.succ_le_of_lt hkj)
    rw [Nat.succ_eq_add_one, boundary_succ h] at hle
    omega
  · have hle := boundary_mono fs hjk
    omega

theorem placed_getElem? (pos : ℕ) (fs : List Frame) (k : ℕ) :
    (placed pos fs)[k]? = fs[k]?.map fun f => (pos + boundary fs k, f.payload) := by
  induction fs generalizing pos k with
  | nil => simp [placed]
  | cons f fs ih =>
    cases k with
    | zero => simp [placed]
    | succ k =>
      simp only [placed, List.getElem?_cons_succ, ih]
      congr 1
      funext g
      simp only [boundary, List.take_succ_cons, List.map_cons, List.sum_cons, Prod.mk.injEq,
        and_true]
      omega

theorem stream_drop (fs : List Frame) (k : ℕ) :
    (stream fs).drop (boundary fs k) = stream (fs.drop k) := by
  induction fs generalizing k with
  | nil => simp [stream]
  | cons f fs ih =>
    cases k with
    | zero => simp
    | succ k =>
      have hb : boundary (f :: fs) (k + 1) = f.encode.length + boundary fs k := by
        simp [boundary, Frame.encode_length]
      have hs : stream (f :: fs) = f.encode ++ stream fs := rfl
      rw [hb, hs, List.drop_length_add_append, ih, List.drop_succ_cons]

/-- What has not been received yet at a boundary. -/
theorem received_at_boundary {fs : List Frame} {old new : List UInt8} {k : ℕ}
    (h : old ++ new <+: stream fs) (hold : old.length = boundary fs k) :
    new <+: stream (fs.drop k) := by
  have hdrop := h.drop old.length
  rw [List.drop_left, hold, stream_drop] at hdrop
  exact hdrop

theorem header_at_boundary {fs : List Frame} {new : List UInt8} {k : ℕ}
    (h : new <+: stream (fs.drop k)) (hlen : new.length = 2) :
    ∃ f, fs[k]? = some f ∧ readBe16 new 0 = UInt16.ofNat f.payload.length := by
  cases hk : fs[k]? with
  | none =>
    rw [List.getElem?_eq_none_iff] at hk
    rw [List.drop_eq_nil_of_le hk] at h
    have hnil := h.length_le
    simp [stream, hlen] at hnil
  | some f =>
    obtain ⟨hlt, hget⟩ := List.getElem?_eq_some_iff.1 hk
    rw [List.drop_eq_getElem_cons hlt, hget] at h
    rw [List.prefix_iff_eq_take.1 h, hlen]
    refine ⟨f, rfl, ?_⟩
    have htake : (stream (f :: fs.drop (k + 1))).take 2 =
        be16 (UInt16.ofNat f.payload.length) ++ [] := by
      simp [stream, Frame.encode, List.take_append, be16]
    rw [htake, readBe16_be16]

theorem body_at_boundary {fs : List Frame} {old new : List UInt8} {k : ℕ} {f : Frame}
    (h : old ++ new <+: stream fs) (hold : old.length = boundary fs k + 2)
    (hf : fs[k]? = some f) (hnew : new.length = f.payload.length) : new = f.payload := by
  obtain ⟨hlt, hget⟩ := List.getElem?_eq_some_iff.1 hf
  have hs : stream (f :: fs.drop (k + 1)) =
      be16 (UInt16.ofNat f.payload.length) ++ (f.payload ++ stream (fs.drop (k + 1))) := by
    simp [stream, Frame.encode, List.append_assoc]
  have hrest : (stream fs).drop old.length = f.payload ++ stream (fs.drop (k + 1)) := by
    rw [hold, ← List.drop_drop, stream_drop, List.drop_eq_getElem_cons hlt, hget, hs]
    rfl
  have hdrop := h.drop old.length
  rw [List.drop_left, hrest] at hdrop
  rw [List.prefix_iff_eq_take.1 hdrop, hnew, List.take_left]

/-- The positions at which calls fail, when the first call is made at `pos`. -/
def timeouts (pos : ℕ) : List Arrival → List ℕ
  | [] => []
  | .data bytes :: as => timeouts (pos + bytes.length) as
  | .closed :: as => timeouts pos as
  | .failed _ :: as => pos :: timeouts pos as

theorem timeouts_append (pos : ℕ) (as bs : List Arrival) :
    timeouts pos (as ++ bs) = timeouts pos as ++ timeouts (pos + (received as).length) bs := by
  induction as generalizing pos with
  | nil => rfl
  | cons a as ih =>
    cases a <;> simp [timeouts, ih, received, Arrival.bytes, Nat.add_assoc]

theorem timeouts_eq_nil_iff (pos : ℕ) (as : List Arrival) :
    timeouts pos as = [] ↔ ∀ e, Arrival.failed e ∉ as := by
  induction as generalizing pos with
  | nil => simp [timeouts]
  | cons a as ih =>
    cases a with
    | data bytes => simp [timeouts, ih]
    | closed => simp [timeouts, ih]
    | failed e =>
      refine iff_of_false (by simp [timeouts]) fun h => ?_
      exact h e List.mem_cons_self

/-- Either nothing fails in a transfer or its last call does. -/
theorem transferLoop_timeouts {arrivals : List Arrival} {remaining : UInt32} {cur : ℕ}
    {t : Transfer} (h : transferLoop remaining cur (arrivals.map Arrival.call) = some t) (pos : ℕ) :
    (t.errno = none → timeouts pos arrivals = []) ∧
      (∀ e, t.errno = some e → timeouts pos arrivals = [pos + (received arrivals).length]) := by
  induction arrivals generalizing remaining cur pos with
  | nil =>
    simp only [List.map_nil, transferLoop] at h
    split at h
    · obtain rfl := Option.some.inj h
      simp [timeouts]
    · cases h
  | cons a as ih =>
    simp only [List.map_cons, transferLoop] at h
    split at h
    · cases h
    cases a with
    | data bytes =>
      simp only [Arrival.call] at h
      split at h
      · have hrec := ih h (pos + bytes.length)
        simp only [timeouts, received, List.flatMap_cons, Arrival.bytes, List.length_append]
        rw [← Nat.add_assoc]
        exact hrec
      · cases h
    | closed =>
      simp only [Arrival.call, List.map_eq_nil_iff] at h
      split at h
      · rename_i hnil
        obtain rfl := Option.some.inj h
        simp [hnil, timeouts]
      · cases h
    | failed e =>
      simp only [Arrival.call, List.map_eq_nil_iff] at h
      split at h
      · rename_i hnil
        obtain rfl := Option.some.inj h
        simp [hnil, timeouts, received, Arrival.bytes]
      · cases h

/-- How `recv_all` can end on a connection that stays open. -/
theorem recvAll_cases {n : UInt32} {arrivals : List Arrival} {t : Transfer}
    (h : recvAll n arrivals = some t) (hopen : Arrival.closed ∉ arrivals) (pos : ℕ) :
    (t.ret = n.toNat ∧ (received arrivals).length = n.toNat ∧ timeouts pos arrivals = []) ∨
      (t.ret = -1 ∧ (received arrivals).length < n.toNat ∧
        timeouts pos arrivals = [pos + (received arrivals).length]) := by
  have htimeouts := transferLoop_timeouts h pos
  have hends := transferAll_ends h
  have hlength := received_length arrivals
  cases hends with
  | complete hsize =>
    left
    exact ⟨rfl, by omega, htimeouts.1 rfl⟩
  | closed hsize hn hlast =>
    exfalso
    rw [List.getLast?_map] at hlast
    obtain ⟨a, ha, hcall⟩ := Option.map_eq_some_iff.1 hlast
    cases a with
    | closed => exact hopen (List.mem_of_getLast? ha)
    | data bytes => cases hcall
    | failed e => cases hcall
  | failed hsize hn =>
    right
    exact ⟨rfl, by omega, htimeouts.2 _ rfl⟩

end JudgeServer
